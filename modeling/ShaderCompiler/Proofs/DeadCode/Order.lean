import ShaderCompiler.Proofs.DeadCode.Liveness
import ShaderCompiler.Proofs.Order

/-!
# Program order and the order of a scan

A scan goes through a region against program order. It finds the definition of whatever it marks,
if readings come behind their definitions in program order, except around loops. Here program
order is given by numbers of blocks.
-/

namespace ShaderCompiler

namespace Region

/-- The parts of a region that start with an `if`, each with the block right in front of it. -/
def branchings : Option BlockId → Region → List (Option BlockId × Region)
  | _, .done => []
  | _, .block b rest => rest.branchings (some b)
  | before, .branch c yes no rest =>
      (before, .branch c yes no rest)
        :: (yes.branchings none ++ no.branchings none ++ rest.branchings none)
  | _, .loop _ body rest => body.branchings none ++ rest.branchings none

/-- A part of a region, with all loops through its blocks. -/
structure PartOf (first : Option BlockId) (s : Region) (before : Option BlockId) (r : Region) :
    Prop where
  sublist : s.preorder.Sublist r.preorder
  loops : ∀ L ∈ r.loops, ∀ b ∈ s.preorder, L.header = .ok b → L ∈ s.loops
  branchings : s.branchings first ⊆ r.branchings before

variable {before first q : Option BlockId} {r s : Region} {c : ConstructId} {b header : BlockId}
  {yes no rest inner : Region}

theorem mem_branchings {x : Option BlockId × Region} : x ∈ r.branchings before
    ↔ (∃ c yes no rest, r = .branch c yes no rest ∧ x = (before, r))
      ∨ ∃ s ∈ r.children, x ∈ s.branchings r.front.head? := by
  cases r <;> simp [Region.branchings, children, front]

theorem branchings_subset (before : Option BlockId) (hs : s ∈ r.children) :
    s.branchings r.front.head? ⊆ r.branchings before :=
  fun _ hx => mem_branchings.mpr (.inr ⟨s, hs, hx⟩)

theorem partOf_child (before : Option BlockId) (hnodup : r.preorder.Nodup) (hs : s ∈ r.children)
    (hbody : s ∉ r.bodies) : PartOf r.front.head? s before r := by
  refine ⟨(infix_of_mem_children hs).sublist, fun L hL b hb hheader => ?_, branchings_subset _ hs⟩
  have hmem := mem_of_header hheader
  rcases mem_loops.mp hL with hL | ⟨u, hu, hL⟩
  · obtain rfl := eq_of_mem_children hnodup (mem_children_of_mem_bodies hL) hs hmem hb
    exact absurd hL hbody
  · obtain rfl := eq_of_mem_children hnodup hu hs (mem_of_mem_loops hL hmem) hb
    exact hL

section Loop

variable (hnodup : (Region.loop c (.block header inner) rest).preorder.Nodup)

include hnodup

theorem partOf_inner (before : Option BlockId) :
    PartOf (some header) inner before (.loop c (.block header inner) rest) := by
  obtain ⟨hbody, -, hrest⟩ := List.nodup_append'.mp hnodup
  obtain ⟨hheader, -⟩ := List.nodup_cons.mp hbody
  refine ⟨(List.sublist_cons_self _ _).trans (List.sublist_append_left _ _),
    fun L hL b hb hL' => ?_, fun x hx => by simp [Region.branchings, hx]⟩
  simp only [loops, List.mem_cons, List.mem_append] at hL
  rcases hL with rfl | hL | hL
  · cases hL'
    exact absurd hb hheader
  · exact hL
  · exact absurd (mem_of_mem_loops hL (mem_of_header hL')) (hrest (List.mem_cons_of_mem _ hb))

theorem partOf_loop (before : Option BlockId) :
    PartOf none rest before (.loop c (.block header inner) rest) := by
  refine partOf_child (r := .loop c _ rest) before hnodup (by simp [children]) fun hmem => ?_
  obtain rfl := List.mem_singleton.mp hmem
  exact (List.nodup_append'.mp hnodup).2.2 List.mem_cons_self List.mem_cons_self

/-- A loop with its header in the body of another one lies in the body. -/
theorem subset_body {L : Region} (hL : L ∈ (Region.loop c (.block header inner) rest).loops)
    (hb : b ∈ (Region.block header inner).preorder) (hheader : L.header = .ok b) :
    L.preorder ⊆ (Region.block header inner).preorder := by
  rcases mem_loops.mp hL with hL | ⟨u, hu, hL⟩
  · exact List.mem_singleton.mp hL ▸ List.Subset.refl _
  · obtain rfl := eq_of_mem_children hnodup hu (by simp [children])
      (mem_of_mem_loops hL (mem_of_header hheader)) hb
    exact fun x hx => mem_of_mem_loops hL hx

end Loop

theorem exists_branching (before : Option BlockId) (hc : c ∈ r.ifs) :
    ∃ q yes no rest, (q, .branch c yes no rest) ∈ r.branchings before := by
  induction r using children_induction generalizing before with
  | node r ih =>
    have hcases : (∃ yes no rest, r = .branch c yes no rest) ∨ ∃ s ∈ r.children, c ∈ s.ifs := by
      cases r <;> simp_all [ifs, children, eq_comm]
    rcases hcases with ⟨yes, no, rest, rfl⟩ | ⟨s, hs, hc⟩
    · exact ⟨before, yes, no, rest, List.mem_cons_self⟩
    · obtain ⟨q, yes, no, rest, h⟩ := ih s hs r.front.head? hc
      exact ⟨q, yes, no, rest, branchings_subset before hs h⟩

/-- What is known of a part that starts with an `if`: it comes behind the block in front of it. -/
structure Branching (q : Option BlockId) (s : Region) (before : Option BlockId) (r : Region) :
    Prop where
  branch : ∃ c yes no rest, s = .branch c yes no rest ∧ (c, q) ∈ r.branches before
  structured : s.Structured
  sublist : s.preorder.Sublist r.preorder
  behind : q = before ∨ ∀ p ∈ q, ∀ b ∈ s.preorder, [p, b].Sublist r.preorder

theorem branching_of_mem (h : (q, s) ∈ r.branchings before) (hr : r.Structured) :
    Branching q s before r := by
  induction r using children_induction generalizing before with
  | node r ih =>
    rcases mem_branchings.mp h with ⟨c, yes, no, rest, rfl, heq⟩ | ⟨u, hu, h⟩
    · cases heq
      exact ⟨⟨c, yes, no, rest, rfl, List.mem_cons_self⟩, hr, List.Sublist.refl _, .inl rfl⟩
    obtain ⟨⟨c, yes, no, rest, heq, hmem⟩, hs, hsub, hbehind⟩ := ih u hu h (hr.of_mem_children hu)
    have hbranches : (c, q) ∈ r.branches before := by
      cases r <;> simp_all [children, Region.branches, front] <;> grind
    have hwithin := (infix_of_mem_children hu).sublist
    refine ⟨⟨c, yes, no, rest, heq, hbranches⟩, hs, hsub.trans hwithin, .inr fun p hp b hb => ?_⟩
    rcases hbehind with rfl | hbehind
    · rw [preorder_eq]
      exact pair_sublist_append (List.mem_of_head? hp) (List.mem_flatMap.mpr ⟨u, hu, hsub.subset hb⟩)
    · exact (hbehind p hp b hb).trans hwithin

/-! ### Branches that control never enters -/

/-- A block that starts the second branch of an `if` right behind another construct. -/
def Skipped (before : Option BlockId) (r : Region) (t : BlockId) : Prop :=
  ∃ c yes inner rest, (none, .branch c yes (.block t inner) rest) ∈ r.branchings before

section Skipped

variable {a : Arena} {finish next t : BlockId} {around : Option LoopTargets}

theorem Skipped.mem (h : r.Skipped before t) (hr : r.Structured) : t ∈ r.preorder := by
  obtain ⟨c, yes, inner, rest, hmem⟩ := h
  exact (branching_of_mem hmem hr).sublist.subset (by simp [preorder])

/-- A skipped block starts the second branch of the region or is a skipped block of a list. -/
theorem Skipped.cases (h : r.Skipped before t) :
    (before = none ∧ ∃ c yes inner rest, r = .branch c yes (.block t inner) rest)
      ∨ ∃ s ∈ r.children, s.Skipped r.front.head? t := by
  obtain ⟨c, yes, inner, rest, hmem⟩ := h
  refine (mem_branchings.mp hmem).imp ?_ fun ⟨s, hs, hmem⟩ => ⟨s, hs, c, yes, inner, rest, hmem⟩
  rintro ⟨_, _, _, _, -, heq⟩
  obtain ⟨rfl, rfl⟩ := Prod.mk.inj heq
  exact ⟨rfl, c, yes, inner, rest, rfl⟩

theorem Skipped.of_mem_children (hs : s ∈ r.children) (h : s.Skipped r.front.head? t) :
    r.Skipped before t := by
  obtain ⟨c, yes, inner, rest, hmem⟩ := h
  exact ⟨c, yes, inner, rest, branchings_subset before hs hmem⟩

/-- The first block of a region is not skipped: the first branch stands before it. -/
theorem not_skipped_of_head? (hr : r.Structured) (hnodup : r.preorder.Nodup)
    (hhead : r.preorder.head? = some t) : ¬ r.Skipped before t := by
  rintro ⟨c, yes, inner, rest, hmem⟩
  obtain ⟨-, ⟨⟨hyes, -⟩, -⟩, hsub, -⟩ := branching_of_mem hmem hr
  obtain ⟨b, inner', rfl⟩ := hyes.exists_eq
  obtain ⟨l, heq⟩ := List.head?_eq_some_iff.mp hhead
  rw [heq] at hsub hnodup
  refine (List.nodup_cons.mp hnodup).1 (hsub.tail.subset ?_)
  simp [preorder]

/-- A block in front of a region does not lead to a skipped block of the region. -/
theorem not_skipped_of_exitsAt {exits : Exits} (h : a.exitsAt finish b r next around = .ok exits)
    (ht : t ∈ exits.toList) (hr : r.Structured) (hnodup : r.preorder.Nodup)
    (houter : Outer finish next around t → ¬ r.Skipped (some b) t) : ¬ r.Skipped (some b) t := by
  rcases entry_of_mem_exitsAt h ht with hout | hentry | ⟨c, yes, no, rest, rfl, hentry⟩
  · exact houter hout
  · exact not_skipped_of_head? hr hnodup (head?_of_entry hentry)
  · intro hskip
    have hno : no ∈ (Region.branch c yes no rest).children := by simp [children]
    rcases hskip.cases with ⟨hnone, -⟩ | ⟨s, hs, hskip⟩
    · cases hnone
    · obtain rfl := eq_of_mem_children hnodup hs hno (hskip.mem (hr.of_mem_children hs))
        (mem_of_entry hentry)
      exact not_skipped_of_head? (hr.of_mem_children hs) (nodup_of_mem_children hnodup hs)
        (head?_of_entry hentry) hskip

/-- Nothing that leaves a list of a region leads to a skipped block. -/
theorem Linked.child_not_skipped (h : r.Linked a finish next around) (hr : r.Structured)
    (hnodup : r.preorder.Nodup) (houter : ∀ t, Outer finish next around t → ¬ r.Skipped before t)
    (hs : s ∈ r.children) : ∃ next' around', s.Linked a finish next' around'
      ∧ ∀ t, Outer finish next' around' t → ¬ r.Skipped before t := by
  obtain ⟨next', around', hlinked, hleave⟩ := h.child hs
  refine ⟨next', around', hlinked, fun t ht hskip => ?_⟩
  have hfirst {u v : Region} (hu : u ∈ r.children) (hhead : u.preorder.head? = some t)
      (hv : v ∈ r.children) (hskip : v.Skipped r.front.head? t) : False := by
    obtain rfl := eq_of_mem_children hnodup hv hu (hskip.mem (hr.of_mem_children hv))
      (List.mem_of_head? hhead)
    exact not_skipped_of_head? (hr.of_mem_children hv) (nodup_of_mem_children hnodup hv) hhead hskip
  rcases hleave t ht with hout | ⟨l, u, heq, -, hentry⟩ | ⟨hbody, hheader⟩
  · exact houter t hout hskip
  · rcases hskip.cases with ⟨-, c, yes, inner, rest, rfl⟩ | ⟨v, hv, hskip⟩
    · obtain rfl : rest = u := by simpa [children] using congrArg List.getLast? heq
      exact (List.nodup_append'.mp hnodup).2.2 (by simp [preorder]) (mem_of_entry hentry)
    · exact hfirst (by simp [heq]) (head?_of_entry hentry) hv hskip
  · rcases hskip.cases with ⟨-, c, yes, inner, rest, rfl⟩ | ⟨v, hv, hskip⟩
    · cases hbody
    · exact hfirst hs (head?_of_header hheader) hv hskip

/-- No edge of a region leads to a skipped block. -/
theorem Linked.not_flows_skipped (h : r.Linked a finish next around) (hr : r.Structured)
    (hnodup : r.preorder.Nodup)
    (houter : ∀ t, Outer finish next around t → ¬ r.Skipped before t) (hb : b ∈ r.preorder)
    (hbt : a.Flows b t) : ¬ r.Skipped before t := by
  induction r using children_induction generalizing next around before with
  | node r ih =>
    intro hskip
    rcases mem_preorder.mp hb with hb | ⟨s, hs, hb⟩
    · cases r with
      | block c rest =>
        obtain rfl := List.mem_singleton.mp hb
        obtain ⟨exits, hat, hte⟩ := h.exitsAt_of_flows hbt
        exact not_skipped_of_exitsAt hat hte hr (List.nodup_cons.mp hnodup).2 (houter t) hskip
      | done | branch _ _ _ _ | loop _ _ _ => cases hb
    obtain ⟨next', around', hlinked, hleave⟩ := h.child_not_skipped hr hnodup houter hs
    have hns := nodup_of_mem_children hnodup hs
    have ht := (hlinked.target hb hbt).resolve_left fun hout => hleave t hout hskip
    rcases hskip.cases with ⟨-, c, yes, inner, rest, rfl⟩ | ⟨u, hu, hskip'⟩
    · -- Only what is around a loop leads to the start of the list that it is in.
      obtain rfl : s = .block t inner :=
        eq_of_mem_children hnodup hs (by simp [children]) ht List.mem_cons_self
      rcases hlinked.edge hb hbt with hout | hsub | ⟨L, hL, -, hheader⟩
      · exact hleave t hout hskip
      · exact (List.nodup_cons.mp hns).1 (hsub.tail.subset List.mem_cons_self)
      · exact notMem_loops_of_header hns rfl hL (mem_of_header hheader)
    · obtain rfl := eq_of_mem_children hnodup hs hu ht (hskip'.mem (hr.of_mem_children hu))
      exact ih s hs hlinked (hr.of_mem_children hs) hns
        (fun x hx hskip => hleave x hx (hskip.of_mem_children hs)) hb hskip'

end Skipped

end Region

namespace Outline

/-- Definitions of a region come before their readings, where blocks have numbers in program
order. What a φ reads comes before the end of the block for which it reads, and such a block comes
before the φ or is in a loop with the φ in its header. What an `if` tests comes before the `if`. -/
structure Early (o : Outline) (rank : BlockId → Nat) (before : Option BlockId) (r : Region) :
    Prop where
  sorted : r.preorder.Pairwise fun b c => rank b < rank c
  behind : ∀ q ∈ before, ∀ b ∈ r.preorder, rank q < rank b
  own : ∀ b ∈ r.preorder, ∀ i ∈ o.body b, ∀ n, o.readFor i n = some none →
    ∀ home ∈ r.preorder, ∀ d ∈ o.body home, n ∈ o.defs d →
      rank home < rank b ∨ home = b ∧ ¬ [i, d].Sublist (o.body b)
  incoming : ∀ b ∈ r.preorder, ∀ i ∈ o.body b, ∀ n p, o.readFor i n = some (some p) →
    ∀ home ∈ r.preorder, ∀ d ∈ o.body home, n ∈ o.defs d → rank home ≤ rank p
  edge : ∀ b ∈ r.preorder, ∀ i ∈ o.body b, ∀ n p, o.readFor i n = some (some p) →
    rank p < rank b ∨ ∃ L ∈ r.loops, L.header = .ok b ∧ p ∈ L.preorder
  test : ∀ q c yes no rest, (q, .branch c yes no rest) ∈ r.branchings before →
    ∀ n ∈ o.tests c, ∀ home ∈ r.preorder, ∀ d ∈ o.body home, n ∈ o.defs d →
      ∀ b ∈ (Region.branch c yes no rest).preorder, rank home < rank b

variable {o : Outline} {rank : BlockId → Nat} {before first : Option BlockId} {r s : Region}
  {b home : BlockId} {i d : InstrId} {n : Int}

namespace Early

theorem nodup (h : o.Early rank before r) : r.preorder.Nodup :=
  h.sorted.imp fun hlt heq => by simp [heq] at hlt

theorem part (h : o.Early rank before r) (hs : s.PartOf first before r)
    (hfirst : ∀ q ∈ first, ∀ b ∈ s.preorder, rank q < rank b) : o.Early rank first s where
  sorted := h.sorted.sublist hs.sublist
  behind := hfirst
  own b hb i hi n hn home hhome :=
    h.own b (hs.sublist.subset hb) i hi n hn home (hs.sublist.subset hhome)
  incoming b hb i hi n p hn home hhome :=
    h.incoming b (hs.sublist.subset hb) i hi n p hn home (hs.sublist.subset hhome)
  edge b hb i hi n p hn := by
    refine (h.edge b (hs.sublist.subset hb) i hi n p hn).imp id ?_
    rintro ⟨L, hL, hheader, hp⟩
    exact ⟨L, hs.loops L hL b hb hheader, hheader, hp⟩
  test q c yes no rest hmem n hn home hhome :=
    h.test q c yes no rest (hs.branchings hmem) n hn home (hs.sublist.subset hhome)

section Readings

variable (h : o.Early rank before r) (hhome : home ∈ r.preorder) (hd : d ∈ o.body home)
  (hdef : n ∈ o.defs d)

include h hhome hd hdef

/-- What is read in a part of a region is not defined behind the part. -/
theorem exists_le (first : Option BlockId) (hsub : s.preorder ⊆ r.preorder)
    (hloops : ∀ L ∈ r.loops, ∀ b ∈ s.preorder, L.header = .ok b → L.preorder ⊆ s.preorder)
    (htests : s.branchings first ⊆ r.branchings before) (hs : s.Structured) (hn : o.Asks s n) :
    ∃ b ∈ s.preorder, rank home ≤ rank b := by
  rcases hn with ⟨i, ⟨b, hb, hi⟩, hn⟩ | ⟨c, hc, hn⟩
  · obtain ⟨x, -, hread⟩ := exists_readFor hn
    cases hfor : x.1 with
    | none =>
      rw [hfor] at hread
      rcases h.own b (hsub hb) i hi n hread home hhome d hd hdef with hlt | ⟨rfl, -⟩
      · exact ⟨b, hb, hlt.le⟩
      · exact ⟨home, hb, le_rfl⟩
    | some p =>
      rw [hfor] at hread
      have hle := h.incoming b (hsub hb) i hi n p hread home hhome d hd hdef
      rcases h.edge b (hsub hb) i hi n p hread with hlt | ⟨L, hL, hheader, hp⟩
      · exact ⟨b, hb, hle.trans hlt.le⟩
      · exact ⟨p, hloops L hL b hb hheader hp, hle⟩
  · obtain ⟨q, yes, no, rest, hmem⟩ := Region.exists_branching first hc
    obtain ⟨-, ⟨⟨hstarts, -⟩, -⟩, hsub', -⟩ := Region.branching_of_mem hmem hs
    obtain ⟨b, inner, rfl⟩ := hstarts.exists_eq
    have hb : b ∈ (Region.branch c (.block b inner) no rest).preorder := by simp [Region.preorder]
    exact ⟨b, hsub'.subset hb,
      (h.test q c _ no rest (htests hmem) n hn home hhome d hd hdef b hb).le⟩

theorem not_asks (hs : s.PartOf first before r) (hstruct : s.Structured)
    (hlate : ∀ b ∈ s.preorder, rank b < rank home) : ¬ o.Asks s n := by
  intro hn
  obtain ⟨b, hb, hle⟩ := h.exists_le hhome hd hdef first hs.sublist.subset
    (fun L hL b hb hheader _ hx => Region.mem_of_mem_loops (hs.loops L hL b hb hheader) hx)
    hs.branchings hstruct hn
  exact absurd (hlate b hb) hle.not_gt

/-- What a block reads that is not the header of a loop comes before the reading. -/
theorem lt_or_earlier (hb : b ∈ r.preorder) (hi : i ∈ o.body b) (hn : o.Reads i n)
    (hheader : ∀ L ∈ r.loops, L.header ≠ .ok b) :
    rank home < rank b ∨ home = b ∧ ¬ [i, d].Sublist (o.body b) := by
  obtain ⟨x, -, hread⟩ := exists_readFor hn
  cases hfor : x.1 with
  | none =>
    rw [hfor] at hread
    exact h.own b hb i hi n hread home hhome d hd hdef
  | some p =>
    rw [hfor] at hread
    have hle := h.incoming b hb i hi n p hread home hhome d hd hdef
    rcases h.edge b hb i hi n p hread with hlt | ⟨L, hL, heq, -⟩
    · exact .inl (hle.trans_lt hlt)
    · exact absurd heq (hheader L hL)

/-- What a block reads, and not around a loop, comes before the reading. -/
theorem lt_or_earlier_now (hb : b ∈ r.preorder) (hi : i ∈ o.body b) (hn : o.ReadsNow before i n) :
    rank home < rank b ∨ home = b ∧ ¬ [i, d].Sublist (o.body b) := by
  obtain ⟨p, hread, hp⟩ := hn
  cases p with
  | none => exact h.own b hb i hi n hread home hhome d hd hdef
  | some q =>
    have hq : before = some q := (hp.resolve_left (by simp)).symm
    exact .inl ((h.incoming b hb i hi n q hread home hhome d hd hdef).trans_lt
      (h.behind q hq b hb))

end Readings

end Early

/-- What comes before its readings in program order is in order for a scan. -/
theorem Early.inOrder : ∀ {before : Option BlockId} {r : Region}, r.Structured →
    o.Early rank before r → o.InOrder before r
  | _, .done, _, _ => trivial
  | _, .block b rest, hs, h => by
    obtain ⟨hb, hsorted⟩ := List.pairwise_cons.mp h.sorted
    have hheader (L : Region) (hL : L ∈ rest.loops) : L.header ≠ .ok b := fun heq =>
      (hb b (Region.mem_of_mem_loops hL (Region.mem_of_header heq))).ne rfl
    refine ⟨List.pairwise_iff_forall_sublist.mpr fun {i j} hij n hdef hread => ?_, ?_, ?_⟩
    · rcases h.lt_or_earlier List.mem_cons_self (hij.subset (by simp)) hdef List.mem_cons_self
        (hij.subset (by simp)) hread hheader with hlt | ⟨-, hnot⟩
      · exact hlt.ne rfl
      · exact hnot hij
    · rintro n ⟨d, ⟨home, hhome, hd⟩, hdef⟩ i hi hread
      have hlt := hb home hhome
      rcases h.lt_or_earlier (List.mem_cons_of_mem _ hhome) hd hdef List.mem_cons_self hi hread
        hheader with hgt | ⟨rfl, -⟩
      · exact absurd hlt hgt.asymm
      · exact hlt.ne rfl
    · exact Early.inOrder hs (h.part (Region.partOf_child (r := .block b rest) _ h.nodup
        (by simp [Region.children])
        List.not_mem_nil) fun q hq c hc => by
        cases hq
        exact hb c hc)
  | before, .branch c yes no rest, ⟨⟨_, hsyes⟩, ⟨_, hsno⟩, hsrest⟩, h => by
    have hpart {s : Region} (hs : s ∈ (Region.branch c yes no rest).children) :
        s.PartOf none before (.branch c yes no rest) :=
      Region.partOf_child (r := .branch c yes no rest) before h.nodup hs List.not_mem_nil
    have hyes := hpart (s := yes) (by simp [Region.children])
    have hno := hpart (s := no) (by simp [Region.children])
    have hrest := hpart (s := rest) (by simp [Region.children])
    obtain ⟨hyn, -, hbehind⟩ := List.pairwise_append.mp h.sorted
    obtain ⟨-, -, hbeside⟩ := List.pairwise_append.mp hyn
    have htest {t : Region} (ht : t.PartOf none before (.branch c yes no rest)) (n : Int)
        (hmakes : o.Makes t n) : n ∉ o.tests c := by
      obtain ⟨d, ⟨home, hhome, hd⟩, hdef⟩ := hmakes
      have hmem := ht.sublist.subset hhome
      exact fun hn => (h.test before c yes no rest List.mem_cons_self n hn home hmem d hd hdef
        home hmem).ne rfl
    refine ⟨fun n hmakes => ⟨?_, ?_, htest hrest n hmakes⟩,
      fun n hmakes => ⟨?_, htest hno n hmakes⟩, htest hyes,
      Early.inOrder hsyes (h.part hyes (by simp)), Early.inOrder hsno (h.part hno (by simp)),
      Early.inOrder hsrest (h.part hrest (by simp))⟩
    · obtain ⟨d, ⟨home, hhome, hd⟩, hdef⟩ := hmakes
      exact h.not_asks (hrest.sublist.subset hhome) hd hdef hno hsno
        fun b hb => hbehind b (List.mem_append_right _ hb) home hhome
    · obtain ⟨d, ⟨home, hhome, hd⟩, hdef⟩ := hmakes
      exact h.not_asks (hrest.sublist.subset hhome) hd hdef hyes hsyes
        fun b hb => hbehind b (List.mem_append_left _ hb) home hhome
    · obtain ⟨d, ⟨home, hhome, hd⟩, hdef⟩ := hmakes
      exact h.not_asks (hno.sublist.subset hhome) hd hdef hyes hsyes
        fun b hb => hbeside b hb home hhome
  | before, .loop c (.block header inner) rest, ⟨⟨_, hsbody⟩, hsrest⟩, h => by
    have hinner := Region.partOf_inner h.nodup before
    have hrest := Region.partOf_loop h.nodup before
    obtain ⟨hbody, -, hbehind⟩ := List.pairwise_append.mp h.sorted
    obtain ⟨hheader, -⟩ := List.pairwise_cons.mp hbody
    have hmem : header ∈ (Region.loop c (.block header inner) rest).preorder :=
      List.mem_append_left _ List.mem_cons_self
    refine ⟨?_, List.pairwise_iff_forall_sublist.mpr fun {i j} hij n hdef hread => ?_, ?_,
      Early.inOrder hsbody (h.part hinner fun q hq b hb => ?_),
      Early.inOrder hsrest (h.part hrest (by simp))⟩
    · rintro n ⟨d, ⟨home, hhome, hd⟩, hdef⟩ hasks
      obtain ⟨b, hb, hle⟩ := h.exists_le (hrest.sublist.subset hhome) hd hdef none
        (List.subset_append_left _ _) (fun L hL b hb => Region.subset_body h.nodup hL hb)
        (fun x hx => List.mem_append_left _ hx) hsbody hasks
      exact absurd (hbehind b hb home hhome) hle.not_gt
    · rcases h.lt_or_earlier_now hmem (hij.subset (by simp)) hdef hmem (hij.subset (by simp))
        hread with hlt | ⟨-, hnot⟩
      · exact hlt.ne rfl
      · exact hnot hij
    · rintro n ⟨d, ⟨home, hhome, hd⟩, hdef⟩ i hi hread
      have hlt := hheader home hhome
      rcases h.lt_or_earlier_now (hinner.sublist.subset hhome) hd hdef hmem hi hread with
        hgt | ⟨rfl, -⟩
      · exact absurd hlt hgt.asymm
      · exact hlt.ne rfl
    · cases hq
      exact hheader b hb
  | _, .loop _ .done _, ⟨⟨hstarts, _⟩, _⟩, _
  | _, .loop _ (.branch ..) _, ⟨⟨hstarts, _⟩, _⟩, _
  | _, .loop _ (.loop ..) _, ⟨⟨hstarts, _⟩, _⟩, _ => hstarts.elim

end Outline

end ShaderCompiler
