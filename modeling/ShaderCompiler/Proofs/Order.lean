import ShaderCompiler.Proofs.Flow

/-!
# Program order

Two facts about the edges of a function carry all that is needed of them. An edge leads forwards
in program order, unless it leads to the header of a loop around the block. And an edge from
outside of a part of a list, from some position on, leads to the first block of the part. This
holds for parts that start with a block or with a loop; into an `if` there are two ways.

It follows that every block that control gets to is reached by edges that lead forwards. So a
dominator of a block comes before it in program order. It also follows that the first block of such
a part dominates the part, since a path that avoids it stays outside.
-/

namespace ShaderCompiler

variable {rest : Region} {exits : Exits} {follow header x y : BlockId} {l : List BlockId}
  {bb : Block} {u : Region}

variable {a : Arena} {finish next : BlockId} {around : Option LoopTargets} {b t : BlockId}
  {r s L : Region}

namespace Region

/-- The bodies of the loops of a region, with those nested in them. -/
def loops : Region → List Region
  | .done => []
  | .block _ rest => rest.loops
  | .branch _ yes no rest => yes.loops ++ no.loops ++ rest.loops
  | .loop _ body rest => body :: (body.loops ++ rest.loops)

/-- A block where control goes that leaves a region. -/
def Outer (finish next : BlockId) (around : Option LoopTargets) (t : BlockId) : Prop :=
  t = finish ∨ t = next ∨ ∃ l, around = some l ∧ (t = l.header ∨ t = l.after)

/-- What is left of the lists of a region from each of their positions on, with the lists that the
constructs own. -/
def tails : Region → List Region
  | .done => [.done]
  | .block b rest => .block b rest :: rest.tails
  | .branch c yes no rest => .branch c yes no rest :: (yes.tails ++ no.tails ++ rest.tails)
  | .loop c body rest => .loop c body rest :: (body.tails ++ rest.tails)

/-- Whether control that gets into a region from outside comes through its first block: it does
unless the region starts with an `if`. -/
def Gated : Region → Prop
  | .block _ _ | .loop _ _ _ => True
  | .done | .branch _ _ _ _ => False

/-- A block that is in no gated part of a region except as its first block. -/
def EntersFirst (r : Region) (t : BlockId) : Prop :=
  ∀ s ∈ r.tails, s.Gated → t ∈ s.preorder → s.preorder.head? = some t

/-! ### Lists within a region -/

/-- The lists that a region is made of, without the block or construct that it starts with. -/
def children : Region → List Region
  | .done => []
  | .block _ rest => [rest]
  | .branch _ yes no rest => [yes, no, rest]
  | .loop _ body rest => [body, rest]

/-- The block that a region starts with, if it starts with one. -/
def front : Region → List BlockId
  | .block b _ => [b]
  | _ => []

/-- The body of the loop that a region starts with, if it starts with one. -/
def bodies : Region → List Region
  | .loop _ body _ => [body]
  | _ => []

@[elab_as_elim]
theorem children_induction {motive : Region → Prop}
    (node : ∀ r, (∀ s ∈ r.children, motive s) → motive r) (r : Region) : motive r := by
  induction r with
  | done => exact node _ nofun
  | block b rest ih => exact node _ (by simpa [children] using ih)
  | branch c yes no rest ihy ihn ihr => exact node _ (by simp [children, ihy, ihn, ihr])
  | loop c body rest ihb ihr => exact node _ (by simp [children, ihb, ihr])

theorem preorder_eq (r : Region) : r.preorder = r.front ++ r.children.flatMap preorder := by
  cases r <;> simp [preorder, front, children]

theorem mem_preorder : b ∈ r.preorder ↔ b ∈ r.front ∨ ∃ s ∈ r.children, b ∈ s.preorder := by
  rw [preorder_eq, List.mem_append, List.mem_flatMap]

theorem mem_loops : L ∈ r.loops ↔ L ∈ r.bodies ∨ ∃ s ∈ r.children, L ∈ s.loops := by
  cases r <;> simp [loops, bodies, children]

theorem mem_tails : s ∈ r.tails ↔ s = r ∨ ∃ u ∈ r.children, s ∈ u.tails := by
  cases r <;> simp [tails, children]

theorem mem_children_of_mem_bodies (h : s ∈ r.bodies) : s ∈ r.children := by
  cases r <;> simp_all [bodies, children]

theorem self_mem_tails : r ∈ r.tails :=
  mem_tails.mpr (.inl rfl)

theorem mem_tails_of_mem_loops (hL : L ∈ r.loops) : L ∈ r.tails := by
  induction r using children_induction with
  | node r ih =>
    rcases mem_loops.mp hL with hL | ⟨s, hs, hL⟩
    · exact mem_tails.mpr (.inr ⟨L, mem_children_of_mem_bodies hL, self_mem_tails⟩)
    · exact mem_tails.mpr (.inr ⟨s, hs, ih s hs hL⟩)

/-- The blocks of a list stand together. -/
theorem infix_of_mem_children (hs : s ∈ r.children) : s.preorder <:+: r.preorder := by
  obtain ⟨l, l', heq⟩ := List.append_of_mem hs
  exact ⟨r.front ++ l.flatMap preorder, l'.flatMap preorder, by simp [preorder_eq r, heq]⟩

theorem infix_of_mem_tails (hs : s ∈ r.tails) : s.preorder <:+: r.preorder := by
  induction r using children_induction with
  | node r ih =>
    rcases mem_tails.mp hs with rfl | ⟨u, hu, hs⟩
    · exact List.infix_rfl
    · exact (ih u hu hs).trans (infix_of_mem_children hu)

theorem mem_of_mem_tails (hs : s ∈ r.tails) (hb : b ∈ s.preorder) : b ∈ r.preorder :=
  (infix_of_mem_tails hs).subset hb

theorem mem_of_mem_loops (hL : L ∈ r.loops) (hb : b ∈ L.preorder) : b ∈ r.preorder :=
  mem_of_mem_tails (mem_tails_of_mem_loops hL) hb

theorem nodup_of_mem_children (h : r.preorder.Nodup) (hs : s ∈ r.children) : s.preorder.Nodup :=
  h.sublist (infix_of_mem_children hs).sublist

/-- A block is in one list of a region only. -/
theorem eq_of_mem_children (h : r.preorder.Nodup) (hs : s ∈ r.children)
    (hu : u ∈ r.children) (hbs : b ∈ s.preorder) (hbu : b ∈ u.preorder) : s = u := by
  have : Std.Symm (Function.onFun List.Disjoint preorder) := ⟨fun _ _ => List.Disjoint.symm⟩
  rw [preorder_eq] at h
  by_contra hne
  exact (List.nodup_flatMap.mp (List.nodup_append'.mp h).2.1).2.forall hs hu hne hbs hbu

theorem pair_sublist_append {l' : List BlockId} (hb : b ∈ l) (ht : t ∈ l') :
    [b, t].Sublist (l ++ l') :=
  (List.singleton_sublist.mpr hb).append (List.singleton_sublist.mpr ht)

theorem pair_sublist_of_children (h : [s, u].Sublist r.children) (hb : b ∈ s.preorder)
    (ht : t ∈ u.preorder) : [b, t].Sublist r.preorder := by
  rw [preorder_eq]
  have hlists := (h.flatMap preorder).trans (List.sublist_append_right r.front _)
  exact (pair_sublist_append hb ht).trans (by simpa using hlists)

/-! ### Where regions start -/

theorem header_eq_ok (h : r.header = .ok t) : ∃ rest, r = .block t rest := by
  cases r with
  | block b rest =>
    cases h
    exact ⟨rest, rfl⟩
  | done | branch _ _ _ _ | loop _ _ _ => simp [header] at h

theorem head?_of_header (h : r.header = .ok t) : r.preorder.head? = some t := by
  obtain ⟨rest, rfl⟩ := header_eq_ok h
  rfl

theorem mem_of_header (h : r.header = .ok t) : t ∈ r.preorder :=
  List.mem_of_head? (head?_of_header h)

theorem head?_of_entry (h : r.entry = .ok t) : r.preorder.head? = some t := by
  induction r with
  | done => simp [entry] at h
  | block b rest =>
    cases h
    rfl
  | branch c yes no rest ihy ihn ihr => simp [preorder, List.head?_append, ihy h]
  | loop c body rest ihb ihr =>
    cases body with
    | block b inner =>
      cases h
      rfl
    | done | branch _ _ _ _ | loop _ _ _ => simp [entry] at h

theorem mem_of_entry (h : r.entry = .ok t) : t ∈ r.preorder :=
  List.mem_of_head? (head?_of_entry h)

/-- The first block of a list is in no loop of the list. -/
theorem notMem_loops_of_header (hnodup : r.preorder.Nodup) (h : r.header = .ok t)
    (hL : L ∈ r.loops) : t ∉ L.preorder := by
  obtain ⟨rest, rfl⟩ := header_eq_ok h
  exact fun ht => (List.nodup_cons.mp hnodup).1 (mem_of_mem_loops (r := rest) hL ht)

/-- The first block of a region is the first block of the parts that it is in. -/
theorem entersFirst_of_head? (hnodup : r.preorder.Nodup) (h : r.preorder.head? = some t) :
    r.EntersFirst t := by
  intro s hs _ ht
  obtain ⟨l₁, l₂, heq⟩ := infix_of_mem_tails hs
  rw [← heq] at h hnodup
  cases l₁ with
  | nil =>
    cases hp : s.preorder with
    | nil => simp [hp] at ht
    | cons x l => simpa [hp] using h
  | cons x l₁ =>
    obtain rfl : x = t := by simpa using h
    simp only [List.cons_append, List.append_assoc, List.nodup_cons] at hnodup
    exact absurd (List.mem_append_right l₁ (List.mem_append_left l₂ ht)) hnodup.1

theorem entersFirst_of_notMem (h : t ∉ r.preorder) : r.EntersFirst t :=
  fun _ hs _ ht => absurd (mem_of_mem_tails hs ht) h

theorem EntersFirst.of_mem_children (h : r.EntersFirst t) (hs : s ∈ r.children) : s.EntersFirst t :=
  fun p hp => h p (mem_tails.mpr (.inr ⟨s, hs, hp⟩))

theorem Structured.of_mem_children (h : r.Structured) (hs : s ∈ r.children) : s.Structured := by
  cases r <;> simp only [children, List.mem_cons, List.not_mem_nil, or_false] at hs
  case block => exact hs ▸ h
  case branch => rcases hs with rfl | rfl | rfl; exacts [h.1.2, h.2.1.2, h.2.2]
  case loop => rcases hs with rfl | rfl; exacts [h.1.2, h.2]

theorem Structured.startsWithBlock_of_mem_loops (hs : r.Structured) (hL : L ∈ r.loops) :
    L.StartsWithBlock := by
  induction r using children_induction with
  | node r ih =>
    rcases mem_loops.mp hL with hL | ⟨s, hs', hL⟩
    · cases r with
      | loop c body rest => exact List.mem_singleton.mp hL ▸ hs.1.1
      | done | block _ _ | branch _ _ _ _ => cases hL
    · exact ih s hs' (hs.of_mem_children hs') hL

/-! ### Edges of a region -/

theorem outer_of_target {kind : JumpKind} (h : kind.target finish around = .ok t) :
    Outer finish next around t := by
  unfold JumpKind.target at h
  split at h
  case h_1 => exact .inl (except_pure_eq_ok.mp h).symm
  case h_2 l => exact .inr (.inr ⟨l, rfl, .inr (except_pure_eq_ok.mp h).symm⟩)
  case h_3 l => exact .inr (.inr ⟨l, rfl, .inl (except_pure_eq_ok.mp h).symm⟩)
  case h_4 => simp at h
  case h_5 => simp at h

/-- A block in front of a region leads out of it, to its entry, or to the second branch of an `if`
right behind the block. -/
theorem entry_of_mem_exitsAt (h : a.exitsAt finish b r next around = .ok exits)
    (ht : t ∈ exits.toList) : Outer finish next around t ∨ r.entry = .ok t
      ∨ ∃ c yes no rest, r = .branch c yes no rest ∧ no.entry = .ok t := by
  have hfollow {follow : BlockId} (h : r.follow next = .ok follow) :
      Outer finish next around follow ∨ r.entry = .ok follow := by
    cases r with
    | done =>
      cases h
      exact .inl (.inr (.inl rfl))
    | block _ _ | branch _ _ _ _ | loop _ _ _ => exact .inr h
  unfold Arena.exitsAt at h
  simp only [except_bind_eq_ok] at h
  obtain ⟨follow, hf, jump, -, h⟩ := h
  cases jump with
  | some q =>
    simp only [except_bind_eq_ok, except_pure_eq_ok] at h
    obtain ⟨target, htarget, rfl⟩ := h
    obtain rfl : t = target := by simpa [Exits.toList] using ht
    exact .inl (outer_of_target htarget)
  | none =>
    cases r with
    | branch c yes no rest =>
      simp only [except_bind_eq_ok, except_pure_eq_ok] at h
      obtain ⟨ty, hty, tn, htn, rfl⟩ := h
      simp only [Exits.toList, List.mem_cons, List.not_mem_nil, or_false] at ht
      rcases ht with rfl | rfl
      · exact .inr (.inl hty)
      · exact .inr (.inr ⟨c, yes, no, rest, rfl, htn⟩)
    | done | block _ _ | loop _ _ _ =>
      obtain rfl := except_pure_eq_ok.mp h
      obtain rfl : t = follow := by simpa [Exits.toList] using ht
      exact (hfollow hf).imp id .inl

/-- A block in front of a region leads into it, or to where control leaves the region. -/
theorem mem_exitsAt (h : a.exitsAt finish b r next around = .ok exits)
    (ht : t ∈ exits.toList) : Outer finish next around t ∨ t ∈ r.preorder
      ∧ (r.preorder.Nodup → r.EntersFirst t) := by
  rcases entry_of_mem_exitsAt h ht with hout | hentry | ⟨c, yes, no, rest, rfl, hentry⟩
  · exact .inl hout
  · exact .inr ⟨mem_of_entry hentry, fun hn => entersFirst_of_head? hn (head?_of_entry hentry)⟩
  · have hmem := mem_of_entry hentry
    refine .inr ⟨by simp [preorder, hmem], fun hn p hp hgate htp => ?_⟩
    -- The other branch is in no part of the first one or of what follows.
    obtain ⟨hyn, -, hrest⟩ := List.nodup_append'.mp hn
    obtain ⟨-, hnn, hyes⟩ := List.nodup_append'.mp hyn
    simp only [tails, List.mem_cons, List.mem_append] at hp
    rcases hp with rfl | (hp | hp) | hp
    · exact hgate.elim
    · exact absurd hmem (hyes (mem_of_mem_tails hp htp))
    · exact entersFirst_of_head? hnn (head?_of_entry hentry) p hp hgate htp
    · exact absurd (mem_of_mem_tails hp htp) (hrest (List.mem_append_right _ hmem))

theorem Linked.exitsAt_of_flows (h : (block b rest).Linked a finish next around)
    (hbt : a.Flows b t) :
    ∃ exits, a.exitsAt finish b rest next around = .ok exits ∧ t ∈ exits.toList := by
  obtain ⟨⟨exits, hb, hat⟩, -⟩ := h
  obtain ⟨bb, hbb, ht⟩ := hbt
  rw [hbb, Option.map_some] at hb
  cases hb
  exact ⟨_, hat, ht⟩

/-- Leaving a part of a region leads to what follows the part, or leaves the whole region. -/
theorem Outer.of_follow (h : Outer finish follow around t)
    (hfollow : rest.follow next = .ok follow) :
    Outer finish next around t ∨ rest.entry = .ok t ∧ t ∈ rest.preorder := by
  rcases h with rfl | rfl | h
  · exact .inl (.inl rfl)
  · cases rest with
    | done =>
      cases hfollow
      exact .inl (.inr (.inl rfl))
    | block _ _ | branch _ _ _ _ | loop _ _ _ => exact .inr ⟨hfollow, mem_of_entry hfollow⟩
  · exact .inl (.inr (.inr h))

/-- What leaves the body of a loop leads to its header, or it leaves the loop. -/
theorem Outer.of_body
    (h : Outer finish header (some ⟨header, follow⟩) t) :
    t = header ∨ Outer finish follow around t := by
  rcases h with rfl | rfl | ⟨l, hl, ht⟩
  · exact .inr (.inl rfl)
  · exact .inl rfl
  · cases hl
    exact ht.imp id fun h => .inr (.inl h)

/-- The lists of a linked region are linked. What leaves one of them leaves the region, or leads to
where its last list starts, or back to the header of a loop. -/
theorem Linked.child (h : r.Linked a finish next around) (hs : s ∈ r.children) :
    ∃ next' around', s.Linked a finish next' around' ∧ ∀ t, Outer finish next' around' t →
      Outer finish next around t
        ∨ (∃ before u, r.children = before ++ [u] ∧ s ∈ before ∧ u.entry = .ok t)
        ∨ s ∈ r.bodies ∧ s.header = .ok t := by
  cases r with
  | done => cases hs
  | block b rest =>
    obtain rfl := List.mem_singleton.mp hs
    exact ⟨next, around, h.2, fun t => .inl⟩
  | branch c yes no rest =>
    obtain ⟨follow, hfollow, hyes, hno, hrest⟩ := h
    simp only [children, List.mem_cons, List.not_mem_nil, or_false] at hs
    rcases hs with rfl | rfl | rfl
    · exact ⟨follow, around, hyes, fun t ht => (ht.of_follow hfollow).imp id fun ht =>
        .inl ⟨[s, no], rest, rfl, by simp, ht.1⟩⟩
    · exact ⟨follow, around, hno, fun t ht => (ht.of_follow hfollow).imp id fun ht =>
        .inl ⟨[yes, s], rest, rfl, by simp, ht.1⟩⟩
    · exact ⟨next, around, hrest, fun t => .inl⟩
  | loop c body rest =>
    obtain ⟨follow, header, hfollow, hheader, hbody, hrest⟩ := h
    simp only [children, List.mem_cons, List.not_mem_nil, or_false] at hs
    rcases hs with rfl | rfl
    · refine ⟨header, some ⟨header, follow⟩, hbody, fun t ht => ?_⟩
      rcases ht.of_body with rfl | ht
      · exact .inr (.inr ⟨List.mem_singleton_self _, hheader⟩)
      · exact (ht.of_follow hfollow).imp id fun ht => .inl ⟨[s], rest, rfl, by simp, ht.1⟩
    · exact ⟨next, around, hrest, fun t => .inl⟩

/-- An edge leads out of the region, or forwards, or to the header of a loop around the block. -/
theorem Linked.edge (h : r.Linked a finish next around) (hb : b ∈ r.preorder)
    (hbt : a.Flows b t) : Outer finish next around t ∨ [b, t].Sublist r.preorder
      ∨ ∃ L ∈ r.loops, b ∈ L.preorder ∧ L.header = .ok t := by
  induction r using children_induction generalizing next around with
  | node r ih =>
    rcases mem_preorder.mp hb with hb | ⟨s, hs, hb⟩
    · cases r with
      | block c rest =>
        obtain rfl := List.mem_singleton.mp hb
        obtain ⟨exits, hat, ht⟩ := h.exitsAt_of_flows hbt
        refine (mem_exitsAt hat ht).imp id fun hmem => .inl ?_
        exact List.cons_sublist_cons.mpr (List.singleton_sublist.mpr hmem.1)
      | done | branch _ _ _ _ | loop _ _ _ => cases hb
    · obtain ⟨next', around', hlinked, hleave⟩ := h.child hs
      rcases ih s hs hlinked hb with hout | hsub | ⟨L, hL, hbL⟩
      · refine (hleave t hout).imp id (.imp ?_ fun ⟨hbody, hheader⟩ => ?_)
        · rintro ⟨l, u, heq, hsl, hentry⟩
          refine pair_sublist_of_children ?_ hb (mem_of_entry hentry)
          exact heq ▸ (List.singleton_sublist.mpr hsl).append (List.Sublist.refl [u])
        · exact ⟨s, mem_loops.mpr (.inl hbody), hb, hheader⟩
      · exact .inr (.inl (hsub.trans (infix_of_mem_children hs).sublist))
      · exact .inr (.inr ⟨L, mem_loops.mpr (.inr ⟨s, hs, hL⟩), hbL⟩)

/-- An edge leads out of the region or stays in it. -/
theorem Linked.target (h : r.Linked a finish next around) (hb : b ∈ r.preorder)
    (hbt : a.Flows b t) : Outer finish next around t ∨ t ∈ r.preorder := by
  rcases h.edge hb hbt with hout | hsub | ⟨L, hL, -, hheader⟩
  · exact .inl hout
  · exact .inr (hsub.subset (by simp))
  · exact .inr (mem_of_mem_loops hL (mem_of_header hheader))

/-- The lists of a linked region are linked, and what leaves one of them gets into all of them through
first blocks only, if this holds of what leaves the region. -/
theorem Linked.child_entersFirst (h : r.Linked a finish next around) (hnodup : r.preorder.Nodup)
    (houter : ∀ t, Outer finish next around t → r.EntersFirst t) (hs : s ∈ r.children) :
    ∃ next' around', s.Linked a finish next' around' ∧ ∀ t, Outer finish next' around' t →
      ∀ u ∈ r.children, u.EntersFirst t := by
  obtain ⟨next', around', hlinked, hleave⟩ := h.child hs
  refine ⟨next', around', hlinked, fun t ht u hu => ?_⟩
  have hfirst {v : Region} (hv : v ∈ r.children) (hhead : v.preorder.head? = some t) :
      u.EntersFirst t := by
    by_cases hmem : t ∈ u.preorder
    · obtain rfl := eq_of_mem_children hnodup hv hu (List.mem_of_head? hhead) hmem
      exact entersFirst_of_head? (nodup_of_mem_children hnodup hv) hhead
    · exact entersFirst_of_notMem hmem
  rcases hleave t ht with hout | ⟨l, v, heq, -, hentry⟩ | ⟨hbody, hheader⟩
  · exact (houter t hout).of_mem_children hu
  · exact hfirst (by simp [heq]) (head?_of_entry hentry)
  · exact hfirst hs (head?_of_header hheader)

/-- An edge into a gated part of a region from outside of the part leads to its first block. -/
theorem Linked.enters_first (h : r.Linked a finish next around) (hnodup : r.preorder.Nodup)
    (houter : ∀ t, Outer finish next around t → r.EntersFirst t) (hb : b ∈ r.preorder)
    (hbt : a.Flows b t) (hs : s ∈ r.tails) (hgate : s.Gated) (hbs : b ∉ s.preorder)
    (ht : t ∈ s.preorder) : s.preorder.head? = some t := by
  induction r using children_induction generalizing next around with
  | node r ih =>
    rcases mem_tails.mp hs with rfl | ⟨u, hu, hsu⟩
    · exact absurd hb hbs
    rcases mem_preorder.mp hb with hb | ⟨v, hv, hb⟩
    · cases r with
      | block c rest =>
        obtain rfl := List.mem_singleton.mp hb
        obtain rfl := List.mem_singleton.mp hu
        obtain ⟨exits, hat, hte⟩ := h.exitsAt_of_flows hbt
        rcases mem_exitsAt hat hte with hout | ⟨-, henters⟩
        · exact houter t hout s hs hgate ht
        · exact henters (nodup_of_mem_children hnodup hu) s hsu hgate ht
      | done | branch _ _ _ _ | loop _ _ _ => cases hb
    · obtain ⟨next', around', hlinked, hleave⟩ := h.child_entersFirst hnodup houter hv
      rcases hlinked.target hb hbt with hout | hmem
      · exact hleave t hout u hu s hsu hgate ht
      · obtain rfl := eq_of_mem_children hnodup hv hu hmem (mem_of_mem_tails hsu ht)
        exact ih v hv hlinked (nodup_of_mem_children hnodup hv) (fun t ht => hleave t ht v hv) hb hsu

end Region

/-- A block has exits, and they are different blocks. -/
theorem Region.Linked.exits_spec {r : Region} (h : r.Linked a finish next around)
    (hnodup : r.preorder.Nodup) (hb : b ∈ r.preorder) :
    (a.exitsOf b).toList ≠ [] ∧ (a.exitsOf b).toList.Nodup := by
  induction r using children_induction generalizing next around with
  | node r ih =>
    rcases mem_preorder.mp hb with hb | ⟨s, hs, hb⟩
    · cases r with
      | block c rest =>
        obtain rfl := List.mem_singleton.mp hb
        obtain ⟨⟨exits, hexits, hat⟩, -⟩ := h
        obtain ⟨bb, hbb, rfl⟩ := Option.map_eq_some_iff.mp hexits
        rw [Arena.exitsOf, hbb, Option.elim_some]
        simp only [Arena.exitsAt, except_bind_eq_ok] at hat
        obtain ⟨follow, -, jump, -, hat⟩ := hat
        cases jump with
        | some q =>
          simp only [except_bind_eq_ok, except_pure_eq_ok] at hat
          obtain ⟨t, -, heq⟩ := hat
          simp [← heq, Exits.toList]
        | none =>
          cases rest with
          | branch _ yes no rest =>
            simp only [except_bind_eq_ok, except_pure_eq_ok] at hat
            obtain ⟨ty, hty, tn, htn, heq⟩ := hat
            have hne : ty ≠ tn := by
              rintro rfl
              exact (List.nodup_append'.mp (List.nodup_append'.mp (List.nodup_cons.mp hnodup).2).1).2.2
                (mem_of_entry hty) (mem_of_entry htn)
            simp [← heq, Exits.toList, hne]
          | done | block _ _ | loop _ _ _ =>
            have heq := except_pure_eq_ok.mp hat
            simp [← heq, Exits.toList]
      | done | branch _ _ _ _ | loop _ _ _ => cases hb
    · obtain ⟨next', around', hlinked, -⟩ := h.child hs
      exact ih s hs hlinked (nodup_of_mem_children hnodup hs) hb

/-! ### Program order of a function -/

/-- In a list without repetition, being listed before another entry is transitive. -/
theorem pair_sublist_trans (hl : l.Nodup) {z : BlockId}
    (hxy : [x, y].Sublist l) (hyz : [y, z].Sublist l) : [x, z].Sublist l := by
  obtain ⟨p, q, rfl, hx, hy⟩ := List.append_sublist_iff.mp (show ([x] ++ [y]).Sublist l from hxy)
  obtain ⟨p', q', heq, hy', hz⟩ :=
    List.append_sublist_iff.mp (show ([y] ++ [z]).Sublist (p ++ q) from hyz)
  rw [List.singleton_sublist] at hx hy hy' hz
  rcases List.append_eq_append_iff.mp heq with ⟨s, rfl, -⟩ | ⟨s, rfl, -⟩
  · rw [heq]
    exact Region.pair_sublist_append (List.mem_append_left _ hx) hz
  · exact absurd hy ((List.nodup_append'.mp hl).2.2 (List.mem_append_left _ hy'))

namespace Arena.Edged

variable {region : Region} {root d : BlockId} (h : a.Edged region finish)

include h

/-- Edges start in the region. -/
theorem mem_of_flows (hb : b ∈ region.blocks ++ [finish]) (hbt : a.Flows b t) :
    b ∈ region.preorder := by
  rw [Region.blocks_eq_preorder] at hb
  rcases List.mem_append.mp hb with hb | hb
  · exact hb
  · obtain rfl := List.mem_singleton.mp hb
    obtain ⟨bb, hbb, ht⟩ := hbt
    have hends := h.ends
    rw [Arena.exitsOf, hbb] at hends
    simp only [Option.elim_some] at hends
    rw [hends] at ht
    simp [Exits.toList] at ht

/-- An edge leads forwards, or to the header of a loop around the block. -/
theorem edge (hb : b ∈ region.blocks ++ [finish]) (hbt : a.Flows b t) :
    [b, t].Sublist (region.blocks ++ [finish])
      ∨ ∃ L ∈ region.loops, b ∈ L.preorder ∧ L.header = .ok t := by
  have hmem := h.mem_of_flows hb hbt
  rw [Region.blocks_eq_preorder]
  rcases h.linked.edge hmem hbt with hout | hsub | hloop
  · have ht : t = finish := by simpa [Region.Outer] using hout
    exact .inl (Region.pair_sublist_append hmem (by simp [ht]))
  · exact .inl (hsub.trans (List.sublist_append_left _ _))
  · exact .inr hloop

theorem flows_closed (hb : b ∈ region.blocks ++ [finish]) (hbt : a.Flows b t) :
    t ∈ region.blocks ++ [finish] := by
  rcases h.edge hb hbt with hsub | ⟨L, hL, -, hheader⟩
  · exact hsub.subset (by simp)
  · rw [Region.blocks_eq_preorder]
    exact List.mem_append_left _ (Region.mem_of_mem_loops hL (Region.mem_of_header hheader))

/-- An edge into a gated part of a function from outside leads to the first block of the part. -/
theorem enters_first (hnodup : (region.blocks ++ [finish]).Nodup)
    (hb : b ∈ region.blocks ++ [finish]) (hbt : a.Flows b t) (hs : s ∈ region.tails)
    (hgate : s.Gated) (hbs : b ∉ s.preorder) (ht : t ∈ s.preorder) :
    s.preorder.head? = some t := by
  have hmem := h.mem_of_flows hb hbt
  rw [Region.blocks_eq_preorder] at hnodup
  obtain ⟨hnodup, -, hfinish⟩ := List.nodup_append'.mp hnodup
  refine h.linked.enters_first hnodup (fun t ht => ?_) hmem hbt hs hgate hbs ht
  obtain rfl : t = finish := by simpa [Region.Outer] using ht
  exact Region.entersFirst_of_notMem fun hmem => hfinish hmem List.mem_cons_self

/-- The first block of a gated part dominates the part. -/
theorem first_dominates (hnodup : (region.blocks ++ [finish]).Nodup)
    (hroot : (region.blocks ++ [finish])[0]? = some root) (hs : s ∈ region.tails)
    (hgate : s.Gated) (hd : s.preorder.head? = some d) (ht : t ∈ s.preorder) :
    Dominates root a.Flows d t := by
  -- A path that avoids the first block never gets into the part.
  have houtside {x : BlockId} (hx : Reaches root a.Flows (· = d) x) :
      x ∈ region.blocks ++ [finish] ∧ x ∉ s.preorder := by
    induction hx with
    | root hne =>
      refine ⟨List.mem_of_getElem? hroot, fun hmem => hne ?_⟩
      rw [Region.blocks_eq_preorder] at hroot hnodup
      have hin := Region.mem_of_mem_tails hs hmem
      have hhead : region.preorder.head? = some root := by
        cases hp : region.preorder with
        | nil => simp [hp] at hin
        | cons y l => simpa [hp] using hroot
      have hfirst := Region.entersFirst_of_head? (List.nodup_append'.mp hnodup).1 hhead s hs hgate
        hmem
      exact Option.some.inj (hfirst.symm.trans hd)
    | step _ he hne ih =>
      refine ⟨h.flows_closed ih.1 he, fun hmem => hne ?_⟩
      have hfirst := h.enters_first hnodup ih.1 he hs hgate ih.2 hmem
      exact Option.some.inj (hfirst.symm.trans hd)
  exact fun hreach => (houtside hreach).2 ht

end Arena.Edged

/-- The blocks of a function of the right shape, with its edges. -/
structure Arena.Charted (a : Arena) (region : Region) (finish : BlockId) : Prop extends
    a.Edged region finish where
  starts : region.StartsWithBlock
  structured : region.Structured
  nodup : (region.blocks ++ [finish]).Nodup

namespace Arena.Charted

variable {region : Region} {root : BlockId} (h : a.Charted region finish)

include h

theorem nodup_preorder : region.preorder.Nodup := by
  have := h.nodup
  rw [Region.blocks_eq_preorder] at this
  exact (List.nodup_append'.mp this).1

theorem finish_notMem : finish ∉ region.preorder := by
  have := h.nodup
  rw [Region.blocks_eq_preorder] at this
  exact fun hmem => (List.nodup_append'.mp this).2.2 hmem List.mem_cons_self

theorem mem_of_preds (ht : t ∈ region.blocks ++ [finish])
    (hbb : a.blocks[t.idx]? = some bb) (hb : b ∈ bb.preds) : b ∈ region.blocks ++ [finish] := by
  rw [h.preds t ht bb hbb] at hb
  obtain ⟨c, hc, hb⟩ := List.mem_flatMap.mp hb
  exact (List.mem_replicate.mp hb).2 ▸ hc

/-- No block is listed twice as a predecessor. -/
theorem nodup_preds (ht : t ∈ region.blocks ++ [finish])
    (hbb : a.blocks[t.idx]? = some bb) : bb.preds.Nodup := by
  rw [h.preds t ht bb hbb, Arena.predsIn, List.nodup_flatMap]
  refine ⟨fun b hb => List.nodup_replicate.mpr ?_, h.nodup.imp fun {b c} hne x hx hx' => ?_⟩
  · refine List.nodup_iff_count_le_one.mp ?_ t
    rw [Region.blocks_eq_preorder] at hb
    rcases List.mem_append.mp hb with hb | hb
    · exact (h.linked.exits_spec h.nodup_preorder hb).2
    · rw [List.mem_singleton.mp hb, h.ends]
      exact List.nodup_nil
  · exact hne ((List.mem_replicate.mp hx).2.symm.trans (List.mem_replicate.mp hx').2)

/-- An edge into a loop from outside of it leads to the header. -/
theorem enters_at_header (hb : b ∈ region.blocks ++ [finish]) (hbt : a.Flows b t)
    (hL : L ∈ region.loops) (hbL : b ∉ L.preorder) (ht : t ∈ L.preorder) : L.header = .ok t := by
  obtain ⟨c, rest, rfl⟩ := (h.structured.startsWithBlock_of_mem_loops hL).exists_eq
  have hfirst := h.enters_first h.nodup hb hbt (Region.mem_tails_of_mem_loops hL) trivial hbL ht
  obtain rfl : c = t := by simpa [Region.preorder] using hfirst
  rfl

/-- The first block is in no loop. -/
theorem root_notMem (hroot : (region.blocks ++ [finish])[0]? = some root) (hL : L ∈ region.loops) :
    root ∉ L.preorder := by
  obtain ⟨b, rest, rfl⟩ := h.starts.exists_eq
  rw [Region.blocks_eq_preorder] at hroot
  obtain rfl : b = root := by simpa [Region.preorder] using hroot
  exact Region.notMem_loops_of_header h.nodup_preorder rfl hL

/-- Control that gets into a loop gets to its header by edges that lead forwards. -/
theorem header_reaches (hroot : (region.blocks ++ [finish])[0]? = some root)
    (hL : L ∈ region.loops) (hheader : L.header = .ok header)
    (hb : Reaches root (fun x y => a.Flows x y ∧ [x, y].Sublist (region.blocks ++ [finish]))
      (fun _ => False) b) (hbL : b ∈ L.preorder) :
    Reaches root (fun x y => a.Flows x y ∧ [x, y].Sublist (region.blocks ++ [finish]))
      (fun _ => False) header := by
  induction hb with
  | root _ => exact absurd hbL (h.root_notMem hroot hL)
  | @step x y hx he hy ih =>
    by_cases hxL : x ∈ L.preorder
    · exact ih hxL
    · have := h.enters_at_header (he.2.subset (by simp)) he.1 hL hxL hbL
      cases hheader.symm.trans this
      exact hx.step he hy

/-- Control that gets to a block gets there by edges that lead forwards. -/
theorem reaches_forwards (hroot : (region.blocks ++ [finish])[0]? = some root)
    (hb : Reaches root a.Flows (fun _ => False) b) :
    Reaches root (fun x y => a.Flows x y ∧ [x, y].Sublist (region.blocks ++ [finish]))
      (fun _ => False) b := by
  induction hb with
  | root hr => exact .root hr
  | @step x y hx he hy ih =>
    have hmem : x ∈ region.blocks ++ [finish] := by
      cases ih with
      | root _ => exact List.mem_of_getElem? hroot
      | step _ he' _ => exact he'.2.subset (by simp)
    rcases h.edge hmem he with hsub | ⟨L, hL, hxL, hheader⟩
    · exact ih.step ⟨he, hsub⟩ hy
    · exact h.header_reaches hroot hL hheader ih hxL

/-- A dominator of a block comes before it in program order. -/
theorem precedes_of_dominates (hroot : (region.blocks ++ [finish])[0]? = some root)
    (hy : Reaches root a.Flows (fun _ => False) y) (hxy : Dominates root a.Flows x y)
    (hne : x ≠ y) : [x, y].Sublist (region.blocks ++ [finish]) := by
  have hpath : Reaches root a.Flows (· = x) y ∨ y = x
      ∨ [x, y].Sublist (region.blocks ++ [finish]) := by
    have hfwd := h.reaches_forwards hroot hy
    clear hxy hne hy
    induction hfwd with
    | root hr =>
      by_cases hx : root = x
      · exact .inr (.inl hx)
      · exact .inl (.root hx)
    | @step w z hw he _ ih =>
      rcases ih with hreach | rfl | hsub
      · by_cases hz : z = x
        · exact .inr (.inl hz)
        · exact .inl (hreach.step he.1 hz)
      · exact .inr (.inr he.2)
      · exact .inr (.inr (pair_sublist_trans h.nodup hsub he.2))
  rcases hpath with hreach | rfl | hsub
  · exact absurd hreach hxy
  · exact absurd rfl hne
  · exact hsub

end Arena.Charted

end ShaderCompiler
