import ShaderCompiler.Proofs.Structured
import ShaderCompiler.Proofs.Build.Regions

/-!
# Ways into a loop

Edges lead forwards, except to the headers of loops around their blocks. If a block stands in front
of a loop, then it is the only one outside of the loop from which control gets into the loop. The
block is found through the parent of the loop, in the list where the loop stands.

Nothing of this holds for a loop that stands right behind an `if` or another loop.
-/

namespace ShaderCompiler

variable {a : Arena} {finish next p b t : BlockId} {around : Option LoopTargets} {c : ConstructId}
  {r s body rest : Region} {l : List Item} {item : Item}

/-! ### The way in -/

/-- A part of a region is linked, and what leaves it gets back through first blocks only. -/
theorem Region.Linked.of_mem_tails (h : r.Linked a finish next around) (hnodup : r.preorder.Nodup)
    (houter : ∀ t, Outer finish next around t → r.EntersFirst t) (hs : s ∈ r.tails) :
    ∃ next' around', s.Linked a finish next' around'
      ∧ ∀ t, Outer finish next' around' t → s.EntersFirst t := by
  induction r using children_induction generalizing next around with
  | node r ih =>
    rcases mem_tails.mp hs with rfl | ⟨u, hu, hs⟩
    · exact ⟨next, around, h, houter⟩
    · obtain ⟨next', around', hlinked, hleave⟩ := h.child_entersFirst hnodup houter hu
      exact ih u hu hlinked (nodup_of_mem_children hnodup hu) (fun t ht => hleave t ht u hu) hs

/-- Control gets into a loop behind a block from this block to the header, if the block does not end
with a jump, and in no other way. -/
theorem Arena.Edged.loop_entry {region : Region} (h : a.Edged region finish)
    (hnodup : (region.blocks ++ [finish]).Nodup)
    (hs : .block p (.loop c body rest) ∈ region.tails) :
    ∃ header, body.header = .ok header
      ∧ (∀ b ∈ region.blocks ++ [finish], b ∉ body.preorder → ∀ t ∈ body.preorder, a.Flows b t →
        b = p ∧ t = header)
      ∧ (a.Flows p header ↔ a.jumpOf p = .ok none) := by
  have hnodup' := hnodup
  rw [Region.blocks_eq_preorder] at hnodup'
  obtain ⟨hnr, -, hfinish⟩ := List.nodup_append'.mp hnodup'
  have hroot (t : BlockId) (hout : Region.Outer finish finish none t) : region.EntersFirst t := by
    have ht : t = finish := by simpa [Region.Outer] using hout
    exact Region.entersFirst_of_notMem fun hmem => hfinish hmem (List.mem_singleton.mpr ht)
  obtain ⟨next, around, hlinked, houter⟩ := h.linked.of_mem_tails hnr hroot hs
  obtain ⟨⟨exits, hexits, hat⟩, follow, header, hfollow, hheader, -, hrest⟩ := id hlinked
  obtain ⟨hp, hloop⟩ := List.nodup_cons.mp (hnr.sublist (Region.infix_of_mem_tails hs).sublist)
  obtain ⟨-, -, hdisjoint⟩ := List.nodup_append'.mp hloop
  have hin {t : BlockId} (ht : t ∈ body.preorder) : t ∈ body.preorder ++ rest.preorder :=
    List.mem_append_left _ ht
  have hne {t : BlockId} (ht : t ∈ body.preorder) : p ≠ t := fun heq => hp (heq ▸ hin ht)
  -- What leaves the part leads to the block in front of the loop, if it comes back at all.
  have hleave {t : BlockId} (hout : Region.Outer finish next around t) : t ∉ body.preorder := fun ht =>
    hne ht (Option.some.inj (houter t hout _ Region.self_mem_tails trivial
      (List.mem_cons_of_mem p (hin ht))))
  obtain ⟨inner, rfl⟩ := Region.header_eq_ok hheader
  refine ⟨header, rfl, fun b hb hbody t ht hbt => ?_, ?_⟩
  · by_cases hbs : b ∈ p :: (Region.loop c (.block header inner) rest).preorder
    · rcases List.mem_cons.mp hbs with rfl | hbs
      · obtain ⟨exits, hat, hte⟩ := hlinked.exitsAt_of_flows hbt
        rcases Region.mem_exitsAt hat hte with hout | ⟨hmem, henters⟩
        · exact absurd ht (hleave hout)
        · exact ⟨rfl, (Option.some.inj (henters hloop _ Region.self_mem_tails trivial hmem)).symm⟩
      · have hbr := (List.mem_append.mp hbs).resolve_left hbody
        rcases hrest.target hbr hbt with hout | hmem
        · exact absurd ht (hleave hout)
        · exact absurd hmem (hdisjoint ht)
    · have hfirst := h.enters_first hnodup hb hbt hs trivial hbs
        (List.mem_cons_of_mem p (hin ht))
      exact absurd (Option.some.inj hfirst) (hne ht)
  · have hflows : a.Flows p header ↔ header ∈ exits.toList := by
      obtain ⟨bb, hbb, rfl⟩ := Option.map_eq_some_iff.mp hexits
      simp [Arena.Flows, hbb]
    simp only [Arena.exitsAt, Region.follow, Region.entry, except_bind_eq_ok] at hat
    obtain ⟨_, hheader', jump, hjump, hat⟩ := hat
    cases hheader'
    rw [hflows, hjump]
    cases jump with
    | none =>
      obtain rfl := except_pure_eq_ok.mp hat
      simp [Exits.toList]
    | some q =>
      simp only [except_bind_eq_ok, except_pure_eq_ok] at hat
      obtain ⟨target, htarget, rfl⟩ := hat
      have hother : header ≠ target := fun heq =>
        hleave (Region.outer_of_target htarget) (heq ▸ List.mem_cons_self)
      simp [Exits.toList, hother]

/-! ### Where constructs are found -/

/-- The first item of a construct. -/
def Shape.first? : Shape → Option Item
  | .branch _ yes _ => yes.head?
  | .loop body => body.head?

namespace Region

/-- A region that was read off shows its list. -/
theorem depicts_of_layer {enter : List Item → Except Fault Region}
    (henter : ∀ k s, enter k = .ok s → s.Depicts a k) (h : a.layer enter l = .ok r) :
    r.Depicts a l := by
  induction l generalizing r with
  | nil =>
    cases h
    exact ⟨rfl, trivial⟩
  | cons item l ih =>
    cases item with
    | block b =>
      simp only [Arena.layer, except_bind_eq_ok, except_pure_eq_ok] at h
      obtain ⟨rest, hrest, rfl⟩ := h
      obtain ⟨rfl, hnests⟩ := ih hrest
      exact ⟨rfl, hnests⟩
    | construct c =>
      simp only [Arena.layer, except_bind_eq_ok, Arena.construct_eq_ok] at h
      obtain ⟨x, hx, h⟩ := h
      cases hshape : x.shape with
      | branch cond yes no =>
        simp only [hshape, except_bind_eq_ok, except_pure_eq_ok] at h
        obtain ⟨ry, hyes, rn, hno, rest, hrest, rfl⟩ := h
        obtain ⟨rfl, hny⟩ := henter _ _ hyes
        obtain ⟨rfl, hnn⟩ := henter _ _ hno
        obtain ⟨rfl, hnests⟩ := ih hrest
        exact ⟨rfl, ⟨x, cond, hx, hshape⟩, hny, hnn, hnests⟩
      | loop body =>
        simp only [hshape, except_bind_eq_ok, except_pure_eq_ok] at h
        obtain ⟨rb, hbody, rest, hrest, rfl⟩ := h
        obtain ⟨rfl, hnb⟩ := henter _ _ hbody
        obtain ⟨rfl, hnests⟩ := ih hrest
        exact ⟨rfl, ⟨x, hx, hshape⟩, hnb, hnests⟩

theorem depicts_of_bodyRegion {f : FunctionId} {g : Function} (hg : a.functions[f.idx]? = some g)
    (h : a.bodyRegion f = .ok r) : r.Depicts a g.body := by
  have hregion (depth : Nat) : ∀ l s, a.regionAt depth l = .ok s → s.Depicts a l := by
    induction depth with
    | zero => exact fun l s => depicts_of_layer nofun
    | succ depth ih => exact fun l s => depicts_of_layer ih
  simp only [Arena.bodyRegion, except_bind_eq_ok, Arena.function_eq_ok] at h
  obtain ⟨g', hg', h⟩ := h
  cases hg.symm.trans hg'
  exact hregion _ _ _ h

/-- A construct of a list has its first block among the blocks of the list. -/
theorem exists_first_of_mem_items (hn : r.Nests a) (hr : r.Structured) (hc : .construct c ∈ r.items) :
    ∃ x b, a.constructs[c.idx]? = some x ∧ x.shape.first? = some (.block b) ∧ b ∈ r.preorder := by
  induction r with
  | done => cases hc
  | block b rest ih =>
    obtain ⟨x, b', hx, hfirst, hmem⟩ := ih hn hr ((List.mem_cons.mp hc).resolve_left nofun)
    exact ⟨x, b', hx, hfirst, List.mem_cons_of_mem b hmem⟩
  | branch d yes no rest _ _ ih =>
    obtain ⟨⟨x, cond, hx, hshape⟩, -, -, hnr⟩ := hn
    obtain ⟨⟨hyes, -⟩, -, hr⟩ := hr
    rcases List.mem_cons.mp hc with heq | hc
    · cases heq
      obtain ⟨b, inner, rfl⟩ := hyes.exists_eq
      exact ⟨x, b, hx, by rw [hshape]; rfl, by simp [preorder]⟩
    · obtain ⟨x, b', hx, hfirst, hmem⟩ := ih hnr hr hc
      exact ⟨x, b', hx, hfirst, List.mem_append_right _ hmem⟩
  | loop d body rest _ ih =>
    obtain ⟨⟨x, hx, hshape⟩, -, hnr⟩ := hn
    obtain ⟨⟨hbody, -⟩, hr⟩ := hr
    rcases List.mem_cons.mp hc with heq | hc
    · cases heq
      obtain ⟨b, inner, rfl⟩ := hbody.exists_eq
      exact ⟨x, b, hx, by rw [hshape]; rfl, by simp [preorder]⟩
    · obtain ⟨x, b', hx, hfirst, hmem⟩ := ih hnr hr hc
      exact ⟨x, b', hx, hfirst, List.mem_append_right _ hmem⟩

/-- Lists without a common block have no construct in common. -/
theorem disjoint_constructs (hnr : r.Nests a) (hr : r.Structured) (hns : s.Nests a)
    (hs : s.Structured) (h : r.preorder.Disjoint s.preorder) (hc : .construct c ∈ r.items) :
    .construct c ∉ s.items := by
  intro hc'
  obtain ⟨x, b, hx, hfirst, hb⟩ := exists_first_of_mem_items hnr hr hc
  obtain ⟨x', b', hx', hfirst', hb'⟩ := exists_first_of_mem_items hns hs hc'
  cases hx.symm.trans hx'
  cases hfirst.symm.trans hfirst'
  exact h hb hb'

theorem nodup_items (hn : r.Nests a) (hr : r.Structured) (h : r.preorder.Nodup) : r.items.Nodup := by
  induction r with
  | done => exact List.nodup_nil
  | block b rest ih =>
    obtain ⟨hb, h⟩ := List.nodup_cons.mp h
    exact List.nodup_cons.mpr ⟨fun hmem => hb (mem_preorder_of_mem_items hmem), ih hn hr h⟩
  | branch d yes no rest _ _ ih =>
    obtain ⟨hx, hny, hnn, hnr⟩ := hn
    obtain ⟨-, h, hdisjoint⟩ := List.nodup_append'.mp h
    refine List.nodup_cons.mpr ⟨?_, ih hnr hr.2.2 h⟩
    exact disjoint_constructs (r := .branch d yes no .done) ⟨hx, hny, hnn, trivial⟩
      ⟨hr.1, hr.2.1, trivial⟩ hnr hr.2.2 (by simpa [preorder] using hdisjoint) List.mem_cons_self
  | loop d body rest _ ih =>
    obtain ⟨hx, hnb, hnr⟩ := hn
    obtain ⟨-, h, hdisjoint⟩ := List.nodup_append'.mp h
    refine List.nodup_cons.mpr ⟨?_, ih hnr hr.2 h⟩
    exact disjoint_constructs (r := .loop d body .done) ⟨hx, hnb, trivial⟩ ⟨hr.1, trivial⟩ hnr hr.2
      (by simpa [preorder] using hdisjoint) List.mem_cons_self

/-- The constructs of a part of a list are found in the list, each at one position. -/
def Located (a : Arena) (r : Region) : Prop :=
  ∀ d, .construct d ∈ r.items → ∃ l pre, a.siblings (.construct d) = .ok l ∧ l.Nodup
    ∧ l = pre ++ r.items

theorem Located.tail (h : r.Located a) (hitems : r.items = item :: rest.items) :
    rest.Located a := by
  intro d hd
  obtain ⟨l, pre, hl, hnodup, rfl⟩ := h d (hitems ▸ List.mem_cons_of_mem item hd)
  exact ⟨_, pre ++ [item], hl, hnodup, by simp [hitems]⟩

theorem located_of_siblings (hn : r.Nests a) (hr : r.NestedShaped a) (hnodup : r.preorder.Nodup)
    (h : ∀ d, .construct d ∈ r.items → a.siblings (.construct d) = .ok r.items) : r.Located a :=
  fun d hd => ⟨_, [], h d hd, nodup_items hn hr.structured hnodup, rfl⟩

theorem Located.of_mem_tails (h : r.Located a) (hn : r.Nests a) (hr : r.NestedShaped a)
    (hnodup : r.preorder.Nodup) (hs : s ∈ r.tails) : s.Located a := by
  induction r with
  | done => exact List.mem_singleton.mp hs ▸ h
  | block b rest ih =>
    rcases List.mem_cons.mp hs with rfl | hs
    · exact h
    · exact ih (h.tail rfl) hn hr (List.nodup_cons.mp hnodup).2 hs
  | branch c yes no rest ihy ihn ihr =>
    obtain ⟨⟨x, cond, hx, hshape⟩, hny, hnn, hnr⟩ := hn
    obtain ⟨hly, hln, hsy, hsn, hsr⟩ := hr
    obtain ⟨hyn, hr, -⟩ := List.nodup_append'.mp hnodup
    obtain ⟨hy, hn, hdisjoint⟩ := List.nodup_append'.mp hyn
    simp only [tails, List.mem_cons, List.mem_append] at hs
    rcases hs with rfl | (hs | hs) | hs
    · exact h
    · refine ihy (located_of_siblings hny hsy hy fun d hd => ?_) hny hsy hy hs
      simp [Arena.siblings, hly.parent _ hd, hx, hshape, hd]
    · refine ihn (located_of_siblings hnn hsn hn fun d hd => ?_) hnn hsn hn hs
      -- A construct of the second branch is not in the first one.
      have hother := disjoint_constructs hnn hsn.structured hny hsy.structured hdisjoint.symm hd
      simp [Arena.siblings, hln.parent _ hd, hx, hshape, hother]
    · exact ihr (h.tail rfl) hnr hsr hr hs
  | loop c body rest ihb ihr =>
    obtain ⟨⟨x, hx, hshape⟩, hnb, hnr⟩ := hn
    obtain ⟨hlb, hsb, hsr⟩ := hr
    obtain ⟨hb, hr, -⟩ := List.nodup_append'.mp hnodup
    simp only [tails, List.mem_cons, List.mem_append] at hs
    rcases hs with rfl | hs | hs
    · exact h
    · refine ihb (located_of_siblings hnb hsb hb fun d hd => ?_) hnb hsb hb hs
      simp [Arena.siblings, hlb.parent _ hd, hx, hshape]
    · exact ihr (h.tail rfl) hnr hsr hr hs

end Region

namespace Arena

theorem idxOf?_of_getElem? {k : Nat} (hl : l.Nodup)
    (h : l[k]? = some item) : l.idxOf? item = some k := by
  obtain ⟨hk, hitem⟩ := List.getElem?_eq_some_iff.mp h
  refine List.idxOf?_eq_some_iff.mpr ⟨hk, hitem, fun j hj heq => ?_⟩
  exact hj.ne ((hl.getElem_inj_iff).mp (heq.trans hitem.symm))

/-- The block in front of a loop is found. -/
theorem preheader_of_located (h : (Region.block p (.loop c body rest)).Located a) :
    a.preheader c = .ok p := by
  obtain ⟨l, pre, hl, hnodup, heq⟩ := h c (by simp [Region.items])
  have hhere : l[pre.length + 1]? = some (.construct c) := by simp [heq, Region.items]
  have hbefore : l[pre.length]? = some (.block p) := by simp [heq, Region.items]
  simp [preheader, hl, idxOf?_of_getElem? hnodup hhere, blockAt, hbefore]

/-- The block behind a loop is found. -/
theorem afterLoop_of_located {q : BlockId} (h : (Region.loop c body (.block q rest)).Located a) :
    a.afterLoop c = .ok q := by
  obtain ⟨l, pre, hl, hnodup, heq⟩ := h c (by simp [Region.items])
  have hhere : l[pre.length]? = some (.construct c) := by simp [heq, Region.items]
  have hbehind : l[pre.length + 1]? = some (.block q) := by simp [heq, Region.items]
  simp [afterLoop, hl, idxOf?_of_getElem? hnodup hhere, blockAt, hbehind]

end Arena

namespace Edit

variable {f : FunctionId} {g : Function} {region : Region}

/-- The edges that are computed for a function lead forwards, or to the header of a loop around their
block. A loop with a block in front of it is entered from there, at its header, unless the block ends
with a jump, and it is not entered from anywhere else. The blocks in front of a loop and behind it
are found however deep the loop is nested. -/
theorem relink_enters_loops_once (hg : a.functions[f.idx]? = some g)
    (hregion : a.bodyRegion f = .ok region) (hnodup : (region.blocks ++ [g.finish]).Nodup)
    (hfinish : (a.blocks[g.finish.idx]?).isSome = true) (hshaped : region.Shaped a (.function f))
    (hjumps : region.JumpsFit a false) :
    ∃ a₁, relink f a = .ok () a₁
      ∧ (∀ b ∈ region.blocks ++ [g.finish], ∀ t, a₁.Flows b t →
        [b, t].Sublist (region.blocks ++ [g.finish])
          ∨ ∃ L ∈ region.loops, b ∈ L.preorder ∧ L.header = .ok t)
      ∧ (∀ p c body rest, .block p (.loop c body rest) ∈ region.tails → a₁.preheader c = .ok p
        ∧ ∃ header, body.header = .ok header
          ∧ (∀ b ∈ region.blocks ++ [g.finish], b ∉ body.preorder → ∀ t ∈ body.preorder,
            a₁.Flows b t → b = p ∧ t = header)
          ∧ (a₁.Flows p header ↔ a₁.jumpOf p = .ok none))
      ∧ ∀ c body q rest, .loop c body (.block q rest) ∈ region.tails → a₁.afterLoop c = .ok q := by
  obtain ⟨a₁, hrun⟩ := exists_relink hg hregion hfinish hshaped.2.structured hjumps
  obtain ⟨hedged, -, hregion₁, hg₁⟩ := relink_spec hg hregion hnodup hrun
  have hparent (item : Item) (o : Option Owner) (h : a.parentOf item = .ok o) :
      a₁.parentOf item = .ok o := by
    rw [← Arena.skeleton_parent_eq_some] at h ⊢
    rw [edgeless_skeleton.relink f hrun, h]
  obtain ⟨hitems, hnests⟩ := Region.depicts_of_bodyRegion hg₁ hregion₁
  have hnested := hshaped.2.mono hparent
  have hnr : region.preorder.Nodup :=
    (List.nodup_append'.mp (region.blocks_eq_preorder ▸ hnodup)).1
  have hlocated : region.Located a₁ := by
    refine Region.located_of_siblings hnests hnested hnr fun d hd => ?_
    have hd' := hparent _ _ (hshaped.1.parent _ hd)
    simp [Arena.siblings, hd', hg₁, hitems]
  refine ⟨a₁, hrun, fun b hb t hbt => hedged.edge hb hbt, fun p c body rest hs => ⟨?_, ?_⟩,
    fun c body q rest hs => ?_⟩
  · exact Arena.preheader_of_located (hlocated.of_mem_tails hnests hnested hnr hs)
  · exact hedged.loop_entry hnodup hs
  · exact Arena.afterLoop_of_located (hlocated.of_mem_tails hnests hnested hnr hs)

/-- Leaves a loop at once, in the second branch of an `if`. -/
def loopInElse : Edit Unit := do
  let c ← newFunction "main"
  let _ ← c.const [0]
  let (_, c) ← c.openIf (some ⟨0⟩)
  let c ← c.switchToElse
  let (_, c) ← c.openLoop
  let _ ← c.jump .leaveLoop
  let (_, c) ← c.closeLoop
  let (_, c) ← c.closeIf
  c.finish

/-- The loop of the sample is entered from the first block of the branch. -/
theorem relink_enters_loops_once_loopInElse :
    ∃ g region, loopInElse.built.functions[0]? = some g
      ∧ loopInElse.built.bodyRegion ⟨0⟩ = .ok region ∧ (region.blocks ++ [g.finish]).Nodup
      ∧ (loopInElse.built.blocks[g.finish.idx]?).isSome = true
      ∧ region.Shaped loopInElse.built (.function ⟨0⟩) ∧ region.JumpsFit loopInElse.built false
      ∧ ∃ a₁, relink ⟨0⟩ loopInElse.built = .ok () a₁ ∧ a₁.preheader ⟨1⟩ = .ok ⟨2⟩
        ∧ a₁.afterLoop ⟨1⟩ = .ok ⟨5⟩
        ∧ ∀ b ∈ region.blocks ++ [g.finish], b ≠ ⟨4⟩ → a₁.Flows b ⟨4⟩ → b = ⟨2⟩ := by
  have hacc : loopInElse.built.Accepted ⟨0⟩ := by decide +kernel
  obtain ⟨_, g, region, _, _, hchecked⟩ := hacc.checked
  have hregion := hchecked.bodyRegion
  have hnodup := hchecked.nodup_blocks
  have hshape : region = .block ⟨1⟩ (.branch ⟨0⟩ (.block ⟨3⟩ .done) (.block ⟨2⟩ (.loop ⟨1⟩
      (.block ⟨4⟩ .done) (.block ⟨5⟩ .done))) (.block ⟨6⟩ .done)) := by
    have hcomputed : (loopInElse.built.bodyRegion ⟨0⟩).toOption = some (.block ⟨1⟩ (.branch ⟨0⟩
        (.block ⟨3⟩ .done) (.block ⟨2⟩ (.loop ⟨1⟩ (.block ⟨4⟩ .done) (.block ⟨5⟩ .done)))
        (.block ⟨6⟩ .done))) := by decide +kernel
    exact Option.some.inj (by rw [← hcomputed, hregion]; rfl)
  have hjumps : region.JumpsFit loopInElse.built false := by
    rw [hshape]
    decide +kernel
  have hfinish : (loopInElse.built.blocks[g.finish.idx]?).isSome = true :=
    Option.isSome_iff_exists.mpr (hchecked.present g.finish (by simp))
  obtain ⟨a₁, hrun, -, hloop, hafter⟩ :=
    relink_enters_loops_once hchecked.function hregion hnodup hfinish hchecked.shaped hjumps
  have hmem : Region.block ⟨2⟩ (.loop ⟨1⟩ (.block ⟨4⟩ .done) (.block ⟨5⟩ .done)) ∈ region.tails := by
    simp [hshape, Region.tails]
  obtain ⟨hpre, header, hheader, hentry, -⟩ := hloop _ _ _ _ hmem
  refine ⟨g, region, hchecked.function, hregion, hnodup, hfinish, hchecked.shaped, hjumps, a₁, hrun,
    hpre,
    hafter ⟨1⟩ (.block ⟨4⟩ .done) ⟨5⟩ .done (by simp [hshape, Region.tails]), fun b hb hne hflow => ?_⟩
  exact (hentry b hb (by simpa [Region.preorder] using hne) _ (by simp [Region.preorder]) hflow).1

end Edit

end ShaderCompiler
