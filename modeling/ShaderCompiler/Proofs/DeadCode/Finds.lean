import ShaderCompiler.Proofs.DeadCode.Function

/-!
# The definitions of what is read

Taking out dead code must not take out the definition of something that is still read. A scan
marks what is read, and finds the definition of what it marks if definitions come before readings
in program order, except around loops. In a function that passes the check this is so wherever
control can get: definitions dominate their readings, and dominators come first in program order.

The check does not look at two kinds of readings: those in places where control never gets, and
the condition of an `if` that stands right behind another construct. They have to be in order
too. If control gets to every block of the body then there are none.
-/

namespace ShaderCompiler

variable {ins : Instr} {p : BlockId} {dest : Option ValueId} {srcs : List (BlockId × UseId)}
  {x : Value} {bb : Block}

/-- In a list without repetition, what is listed first has the smaller position. -/
theorem idxOf_lt_of_pair_sublist {α : Type} [DecidableEq α] {l : List α} (hl : l.Nodup) {x y : α}
    (h : [x, y].Sublist l) : l.idxOf x < l.idxOf y := by
  have hsorted : l.Pairwise fun x y => l.idxOf x < l.idxOf y := by
    rw [List.pairwise_iff_getElem]
    intro i j hi hj hij
    rwa [hl.idxOf_getElem i hi, hl.idxOf_getElem j hj]
  exact List.pairwise_iff_forall_sublist.mp hsorted h

theorem Instr.exists_of_incoming {u : UseId}
    (h : ins.incoming u = some p) : ∃ dest srcs, ins.action = .phi dest srcs ∧ (p, u) ∈ srcs := by
  unfold Instr.incoming at h
  split at h
  case h_1 dest srcs hact =>
    obtain ⟨t, ht, rfl⟩ := Option.map_eq_some_iff.mp h
    obtain rfl : t.2 = u := by simpa using List.find?_some ht
    exact ⟨dest, srcs, hact, List.mem_of_find?_eq_some ht⟩
  case h_2 => simp at h

namespace Arena

variable {a a₁ : Arena} {V : ValueId → Prop} {U : UseId → Prop} {f : FunctionId} {g : Function}
  {region : Region} {s : LiveSet} {T : Scope} {tree : Dominance} {defs : Edit.Definitions}
  {b home : BlockId} {i d : InstrId} {u : UseId} {v : ValueId} {n : Int} {k : Nat}

/-- Different values of the function have different numbers. -/
def NumbersDistinct (a : Arena) (f : FunctionId) : Prop :=
  ∀ v w, (a.scopeOf f).defined v → (a.scopeOf f).defined w → a.number? v = a.number? w → v = w

/-- An instruction stands in front of position `k` of a block in program order. -/
def StandsBefore (a : Arena) (f : FunctionId) (d : InstrId) (b : BlockId) (k : Nat) : Prop :=
  d ∈ (a.body b).take k ∨ ∃ home, d ∈ a.body home ∧ [home, b].Sublist (a.scopeOf f).blocks

/-- A reading that the check does not look at, with its place: control never gets there, or it
is the condition of an `if` right behind another construct, which is tested in front of the first
block of its branches. -/
inductive UncheckedAt (a : Arena) (f : FunctionId) (u : UseId) : BlockId → Nat → Prop
  | unreached {b : BlockId} {reader : Option InstrId} (hasked : a.AskedAt f u b reader)
      (hb : ¬ a.Reachable f b) : UncheckedAt a f u b (a.placeOf b reader)
  | behind {b : BlockId} {c : ConstructId} {inner no rest region : Region} {con : Construct}
      {yesItems noItems : List Item} (hregion : a.bodyRegion f = .ok region)
      (hc : (none, .branch c (.block b inner) no rest) ∈ region.branchings none)
      (hcon : a.constructs[c.idx]? = some con)
      (hshape : con.shape = .branch (some u) yesItems noItems) : UncheckedAt a f u b 0

/-- Readings that the check does not look at come behind their definitions in program order. -/
def UncheckedInOrder (a : Arena) (f : FunctionId) : Prop :=
  ∀ u b k, a.UncheckedAt f u b k → ∀ use v d, a.uses[u.idx]? = some use → use.value = some v →
    a.StandsFor f d v → a.StandsBefore f d b k

/-- The last block of the function has no instructions. -/
def FinishEmpty (a : Arena) (f : FunctionId) : Prop :=
  ∀ g, a.functions[f.idx]? = some g → a.body g.finish = []

/-- Control can get to every block of the body of the function. -/
def BodyReachable (a : Arena) (f : FunctionId) : Prop :=
  ∀ region, a.bodyRegion f = .ok region → ∀ b ∈ region.blocks, a.Reachable f b

instance : Decidable (a.NumbersDistinct f) :=
  decidable_of_iff (∀ v ∈ a.valuesOf f, ∀ w ∈ a.valuesOf f, a.number? v = a.number? w → v = w) <| by
    simp only [NumbersDistinct, mem_valuesOf]
    exact ⟨fun h v w hv hw => h v hv w hw, fun h v hv w hw => h v w hv hw⟩

instance : Decidable (a.FinishEmpty f) :=
  decidable_of_iff (∀ g ∈ a.functions[f.idx]?, a.body g.finish = []) <| by
    simp [FinishEmpty, Option.mem_def]

/-! ### Readings of the outline -/

theorem exists_mem_readings (hu : some u ∈ ins.sources)
    (hn : a.readNumber? u = some n) : ∃ x ∈ a.readings ins, x.2 = n := by
  by_cases hphi : ∃ dest srcs, ins.action = .phi dest srcs
  · obtain ⟨dest, srcs, hact⟩ := hphi
    have hsources : ins.sources = srcs.map (fun t => some t.2) ++ ins.indirect.toList.map some := by
      cases hind : ins.indirect <;> simp [Instr.sources, hact, hind]
    rw [hsources, List.mem_append, List.mem_map, List.mem_map] at hu
    rw [readings_of_phi hact]
    rcases hu with ⟨t, ht, heq⟩ | ⟨w, hw, heq⟩
    · cases heq
      exact ⟨(some t.1, n), List.mem_append_left _ (List.mem_filterMap.mpr ⟨t, ht, by simp [hn]⟩), rfl⟩
    · cases heq
      exact ⟨(none, n), List.mem_append_right _ (List.mem_filterMap.mpr ⟨u, hw, by simp [hn]⟩), rfl⟩
  · rw [readings_of_not_phi (by simpa using hphi)]
    exact ⟨(none, n), List.mem_filterMap.mpr ⟨u, List.reduceOption_mem_iff.mpr hu, by simp [hn]⟩, rfl⟩

/-- The first source of a φ that reads a number is the one that the check takes its use for. -/
theorem exists_of_find?_phi
    (hact : ins.action = .phi dest srcs) {x : Option BlockId × Int}
    (h : (a.readings ins).find? (·.2 = n) = some x) :
    ∃ u, some u ∈ ins.sources ∧ a.readNumber? u = some n ∧ ins.incoming u = x.1 := by
  have hany (t : BlockId × UseId) :
      ((a.readNumber? t.2).map fun m => (some t.1, m)).any (·.2 = n) = true
        ↔ a.readNumber? t.2 = some n := by
    cases a.readNumber? t.2 <;> simp
  rw [readings_of_phi hact, List.find?_append, List.find?_filterMap] at h
  cases hfind : srcs.find? fun t =>
      ((a.readNumber? t.2).map fun m => (some t.1, m)).any (·.2 = n) with
  | some t =>
    obtain ⟨ht, l, l', rfl, hfirst⟩ := List.find?_eq_some_iff_append.mp hfind
    rw [hany] at ht
    rw [hfind] at h
    have hx : (some t.1, n) = x := by simpa [ht] using h
    have hmem : (t.1, t.2) ∈ l ++ t :: l' := List.mem_append_right _ List.mem_cons_self
    refine ⟨t.2, Instr.mem_sources_of_phi hact hmem, ht, ?_⟩
    rw [Instr.incoming, hact, ← hx]
    have hself : (l ++ t :: l').find? (fun r => r.2 = t.2) = some t := by
      refine List.find?_eq_some_iff_append.mpr ⟨by simp, l, l', rfl, fun r hr => ?_⟩
      have hne := hfirst r hr
      rw [Bool.not_eq_true', Bool.eq_false_iff, Ne, hany] at hne
      simp only [Bool.not_eq_true', decide_eq_false_iff_not]
      exact fun heq => hne (heq ▸ ht)
    simp only [hself, Option.map_some]
  | none =>
    rw [hfind] at h
    have hmem := List.mem_of_find?_eq_some h
    obtain ⟨u, hu, hx⟩ := List.mem_filterMap.mp hmem
    obtain ⟨m, hm, rfl⟩ := Option.map_eq_some_iff.mp hx
    obtain rfl : m = n := by simpa using List.find?_some h
    refine ⟨u, by simp [Instr.sources, hact, Option.mem_toList.mp hu], hm, ?_⟩
    rw [Instr.incoming, hact, Option.map_eq_none_iff, List.find?_eq_none]
    intro t ht
    have hne := List.find?_eq_none.mp hfind t ht
    rw [hany] at hne
    simp only [decide_eq_true_eq]
    exact fun heq => hne (heq ▸ hm)

/-- The block for which a number is read first is the one that the check takes a use for. -/
theorem exists_of_readFor (hins : a.instrs[i.idx]? = some ins)
    {p : Option BlockId} (h : a.outline.readFor i n = some p) :
    ∃ u, some u ∈ ins.sources ∧ a.readNumber? u = some n ∧ ins.incoming u = p := by
  have hreads : a.outline.reads i = a.readings ins := by simp [outline, hins]
  rw [Outline.readFor, hreads, Option.map_eq_some_iff] at h
  obtain ⟨x, hx, rfl⟩ := h
  by_cases hphi : ∃ dest srcs, ins.action = .phi dest srcs
  · obtain ⟨dest, srcs, hact⟩ := hphi
    exact exists_of_find?_phi hact hx
  · rw [readings_of_not_phi (by simpa using hphi)] at hx
    obtain ⟨u, hu, hu'⟩ := List.mem_filterMap.mp (List.mem_of_find?_eq_some hx)
    obtain ⟨m, hm, rfl⟩ := Option.map_eq_some_iff.mp hu'
    obtain rfl : m = n := by simpa using List.find?_some hx
    refine ⟨u, List.reduceOption_mem_iff.mp hu, hm, ?_⟩
    unfold Instr.incoming
    split
    case h_1 dest srcs hact => exact absurd ⟨dest, srcs, hact⟩ hphi
    case h_2 => rfl

/-- What defines the number that a use reads defines its value. -/
theorem standsFor_of_number (hw : a.Wired (a.scopeOf f)) (hnumbers : a.NumbersDistinct f)
    {use : Use} (huse : a.uses[u.idx]? = some use) (hval : use.value = some v)
    (hv : (a.scopeOf f).defined v) (hn : a.readNumber? u = some n)
    (hhome : home ∈ (a.scopeOf f).blocks) (hd : d ∈ a.body home) (hdef : n ∈ a.outline.defs d) :
    a.StandsFor f d v := by
  obtain ⟨dns, hdns⟩ := hw.instr home hhome d hd
  have hdefs : a.outline.defs d = dns.definitions.reduceOption.filterMap a.number? := by
    simp [outline, hdns]
  rw [hdefs] at hdef
  obtain ⟨w, hw', hwn⟩ := List.mem_filterMap.mp hdef
  have hmem := List.reduceOption_mem_iff.mp hw'
  have hvn : a.number? v = some n := by
    rwa [readNumber?, huse, Option.bind_some, hval, Option.bind_some] at hn
  have hdefined : (a.scopeOf f).defined w := ⟨home, hhome, d, hd, dns, hdns, hmem⟩
  obtain rfl := hnumbers v w hv hdefined (hvn.trans hwn.symm)
  exact ⟨home, hhome, hd, dns, hdns, hmem⟩

/-! ### Places in program order -/

/-- An instruction that stands before a place stands earlier in the block or in an earlier one. -/
theorem StandsBefore.lt_or_mem (h : a.StandsBefore f d b k) (hdistinct : a.InstrsDistinct f)
    (hnodup : (a.scopeOf f).blocks.Nodup) (hb : b ∈ (a.scopeOf f).blocks)
    (hhome : home ∈ (a.scopeOf f).blocks) (hd : d ∈ a.body home) :
    (a.scopeOf f).blocks.idxOf home < (a.scopeOf f).blocks.idxOf b
      ∨ home = b ∧ d ∈ (a.body b).take k := by
  rcases h with htake | ⟨home', hd', hsub⟩
  · exact .inr ⟨hdistinct.home_eq hhome hb hd (List.mem_of_mem_take htake), htake⟩
  · obtain rfl := hdistinct.home_eq hhome (hsub.subset (by simp)) hd hd'
    exact .inl (idxOf_lt_of_pair_sublist hnodup hsub)

namespace Checked

variable (h : a.Checked f a₁ g region tree defs)

include h

/-- What is done before a place where control gets stands before it. -/
theorem standsBefore_of_doneBefore (he : a.EdgesCurrent f) (hb : a.Reachable f b)
    (hd : a.DoneBefore f d b k) : a.StandsBefore f d b k := by
  rcases hd with htake | ⟨home, root, hne, hd, hroot, hdom⟩
  · exact .inl htake
  · refine .inr ⟨home, hd, ?_⟩
    obtain ⟨root', hroot', hreach⟩ := hb
    cases hroot.symm.trans hroot'
    rw [h.scope_blocks]
    exact (h.charted he).precedes_of_dominates (h.entryOf_eq.mp hroot) hreach hdom hne

theorem standsBefore (he : a.EdgesCurrent f) (hdistinct : a.InstrsDistinct f)
    (hun : a.UncheckedInOrder f) {reader : Option InstrId} (hasked : a.AskedAt f u b reader)
    {use : Use} (huse : a.uses[u.idx]? = some use) (hval : use.value = some v)
    (hd : a.StandsFor f d v) : a.StandsBefore f d b (a.placeOf b reader) := by
  by_cases hb : a.Reachable f b
  · exact h.standsBefore_of_doneBefore he hb ((h.readingsObey (h.flowsWithin he) hdistinct).order
      u b reader hasked use v d huse hval hd hb)
  · exact hun u b _ (.unreached hasked hb) use v d huse hval hd

/-- The φs read for the predecessors of their block. -/
theorem mem_preds (he : a.EdgesCurrent f) (hb : b ∈ (a.scopeOf f).blocks)
    (hbb : a.blocks[b.idx]? = some bb) (hi : i ∈ a.body b)
    (hins : a.instrs[i.idx]? = some ins)
    (hact : ins.action = .phi dest srcs) (hp : (p, u) ∈ srcs) : p ∈ bb.preds := by
  obtain ⟨hlength, hall⟩ := h.phi_entries hb hbb (body_of_block hbb ▸ hi) hins hact
  have hcount := countP_eq_of_phiSourceFor
    ((h.charted he).nodup_preds (h.scope_blocks ▸ hb) hbb) hlength hall p
  have hpos : 0 < srcs.countP (·.1 = p) := List.countP_pos_iff.mpr ⟨(p, u), hp, by simp⟩
  by_contra hnot
  rw [if_neg hnot] at hcount
  omega

theorem flows_of_mem_preds (he : a.EdgesCurrent f) (hb : b ∈ (a.scopeOf f).blocks)
    (hbb : a.blocks[b.idx]? = some bb) (hp : p ∈ bb.preds) :
    p ∈ (a.scopeOf f).blocks ∧ a.Flows p b := by
  rw [(h.charted he).preds b (h.scope_blocks ▸ hb) bb hbb] at hp
  obtain ⟨c, hc, hp⟩ := List.mem_flatMap.mp hp
  obtain ⟨hne, rfl⟩ := List.mem_replicate.mp hp
  have hmem : b ∈ (a.exitsOf p).toList := List.count_pos_iff.mp (Nat.pos_of_ne_zero hne)
  refine ⟨h.scope_blocks ▸ hc, ?_⟩
  obtain ⟨cb, hcb⟩ := h.wired.block p (h.scope_blocks ▸ hc)
  rw [exitsOf, hcb] at hmem
  exact ⟨cb, hcb, hmem⟩

/-- Definitions of a function that passes the check come before their readings. -/
theorem early (he : a.EdgesCurrent f) (hdistinct : a.InstrsDistinct f)
    (hnumbers : a.NumbersDistinct f) (hun : a.UncheckedInOrder f) :
    a.outline.Early (a.scopeOf f).blocks.idxOf none region := by
  have hnodup : (a.scopeOf f).blocks.Nodup := h.scope_blocks ▸ h.nodup_blocks
  have hblocks : (a.scopeOf f).blocks = region.preorder ++ [g.finish] := by
    rw [h.scope_blocks, Region.blocks_eq_preorder]
  have hscope {c : BlockId} (hc : c ∈ region.preorder) : c ∈ (a.scopeOf f).blocks :=
    hblocks ▸ List.mem_append_left _ hc
  have hpair {x y : BlockId} (hxy : [x, y].Sublist region.preorder) :
      (a.scopeOf f).blocks.idxOf x < (a.scopeOf f).blocks.idxOf y :=
    idxOf_lt_of_pair_sublist hnodup (hblocks ▸ hxy.trans (List.sublist_append_left _ _))
  -- A definition of a number that is asked for at a place stands before the place.
  have hbefore {i : InstrId} {ins : Instr} {c : BlockId} {u : UseId} {reader : Option InstrId}
      {n : Int} (hc : c ∈ region.preorder) (hi : i ∈ a.body c) (hins : a.instrs[i.idx]? = some ins)
      (hu : some u ∈ ins.sources) (hn : a.readNumber? u = some n) {b : BlockId}
      (hasked : a.AskedAt f u b reader) (hb : b ∈ (a.scopeOf f).blocks) (home : BlockId)
      (hhome : home ∈ region.preorder) (d : InstrId) (hd : d ∈ a.body home)
      (hdef : n ∈ a.outline.defs d) :
      (a.scopeOf f).blocks.idxOf home < (a.scopeOf f).blocks.idxOf b
        ∨ home = b ∧ d ∈ (a.body b).take (a.placeOf b reader) := by
    obtain ⟨use, v, huse, hval, hv, -⟩ := h.wired.use_of_source (hscope hc) hi hins hu
    exact (h.standsBefore he hdistinct hun hasked huse hval
      (standsFor_of_number h.wired hnumbers huse hval hv hn (hscope hhome) hd hdef)).lt_or_mem
      hdistinct hnodup hb (hscope hhome) hd
  refine ⟨List.pairwise_iff_forall_sublist.mpr hpair, by simp, ?_, ?_, ?_, ?_⟩
  · intro b hb i hi n hread home hhome d hd hdef
    obtain ⟨ins, hins⟩ := h.wired.instr b (hscope hb) i hi
    obtain ⟨u, hu, hn, hown⟩ := exists_of_readFor hins hread
    refine (hbefore hb hi hins hu hn (.source (hscope hb) hi hins hu hown) (hscope hb) home hhome d
      hd hdef).imp id fun ⟨heq, htake⟩ => ⟨heq, fun hsub => ?_⟩
    have hbody := hdistinct.nodup_body (hscope hb)
    have hearlier := lt_of_mem_take hbody (getElem?_idxOf_of_mem (List.mem_of_mem_take htake)) htake
    exact absurd (idxOf_lt_of_pair_sublist hbody hsub) hearlier.asymm
  · intro b hb i hi n p hread home hhome d hd hdef
    obtain ⟨ins, hins⟩ := h.wired.instr b (hscope hb) i hi
    obtain ⟨u, hu, hn, hincoming⟩ := exists_of_readFor hins hread
    rcases hbefore hb hi hins hu hn (.incoming (hscope hb) hi hins hu hincoming)
      (h.pred_mem he (hscope hb) hi hins hincoming) home hhome d hd hdef with hlt | ⟨rfl, -⟩
    · exact hlt.le
    · exact le_rfl
  · intro b hb i hi n p hread
    obtain ⟨ins, hins⟩ := h.wired.instr b (hscope hb) i hi
    obtain ⟨u, hu, -, hincoming⟩ := exists_of_readFor hins hread
    obtain ⟨dest, srcs, hact, hmem⟩ := Instr.exists_of_incoming hincoming
    obtain ⟨bb, hbb⟩ := h.wired.block b (hscope hb)
    obtain ⟨hp, hflows⟩ := h.flows_of_mem_preds he (hscope hb) hbb
      (h.mem_preds he (hscope hb) hbb hi hins hact hmem)
    rcases (h.charted he).edge (h.scope_blocks ▸ hp) hflows with hsub | ⟨L, hL, hpL, hheader⟩
    · exact .inl (idxOf_lt_of_pair_sublist hnodup (h.scope_blocks ▸ hsub))
    · exact .inr ⟨L, hL, hheader, hpL⟩
  · intro q c yes no rest hmem n hn home hhome d hd hdef b hb
    obtain ⟨⟨_, _, _, _, heq, hbranch⟩, hstruct, hsub, hbehind⟩ :=
      Region.branching_of_mem hmem h.shaped.2.structured
    cases heq
    have hif : c ∈ (a.scopeOf f).ifs := h.scope_ifs ▸ List.mem_map_of_mem hbranch
    obtain ⟨con, u, yesItems, noItems, use, v, hcon, hshape, huse, hval, hv, -⟩ :=
      h.wired.condition c hif
    have hn' : a.readNumber? u = some n := by simpa [outline, hcon, hshape] using hn
    have hstands := standsFor_of_number h.wired hnumbers huse hval hv hn' (hscope hhome) hd hdef
    cases q with
    | some p =>
      have hlt := hpair (hbehind.resolve_left (by simp) p rfl b hb)
      have hp : p ∈ region.preorder := (mem_branches hbranch).resolve_left (by simp)
      rcases (h.standsBefore he hdistinct hun (.condition h.bodyRegion hbranch hcon hshape) huse hval
        hstands).lt_or_mem hdistinct hnodup (hscope hp) (hscope hhome) hd with hlt' | ⟨rfl, -⟩
      · exact hlt'.trans hlt
      · exact hlt
    | none =>
      obtain ⟨first, inner, rfl⟩ := hstruct.1.1.exists_eq
      have hfirst : first ∈ region.preorder := hsub.subset (by simp [Region.preorder])
      have hlt := (hun u first 0 (.behind h.bodyRegion hmem hcon hshape) use v d huse hval
        hstands).lt_or_mem hdistinct hnodup (hscope hfirst) (hscope hhome) hd
      replace hlt := hlt.resolve_right (by simp)
      rcases List.mem_cons.mp hb with rfl | hb
      · exact hlt
      · exact hlt.trans (hpair ((List.cons_sublist_cons.mpr (List.singleton_sublist.mpr hb)).trans
          hsub))

/-- The φs of the body read for the predecessors of their blocks. -/
theorem readsForPreds (he : a.EdgesCurrent f) : a.outline.ReadsForPreds region := by
  intro b hb i hi x hx p hpx
  have hmem : b ∈ (a.scopeOf f).blocks := by
    rw [h.scope_blocks, Region.blocks_eq_preorder]
    exact List.mem_append_left _ hb
  obtain ⟨ins, hins⟩ := h.wired.instr b hmem i hi
  obtain ⟨bb, hbb⟩ := h.wired.block b hmem
  rw [show a.outline.reads i = a.readings ins by simp [outline, hins]] at hx
  obtain ⟨u, -, -, hphi⟩ := exists_of_mem_readings hx
  obtain ⟨dest, srcs, hact, hp⟩ := hphi p hpx
  rw [show a.outline.preds b = bb.preds by simp [outline, hbb]]
  exact h.mem_preds he hmem hbb hi hins hact hp

/-- A scan of a function that passes the check finds the definition of whatever it marks. -/
theorem finds_scanned (hp : a.Prunable V U T f g region s) (he : a.EdgesCurrent f)
    (hdistinct : a.InstrsDistinct f) (hnumbers : a.NumbersDistinct f)
    (hun : a.UncheckedInOrder f) (always : Bool) :
    a.outline.Finds region (a.scanned always region s) :=
  Outline.finds_scan (card_numbersBelow s.marks.size).le
    ((h.early he hdistinct hnumbers hun).inOrder hp.structured) (h.readsForPreds he)
    (fun _ hn => hp.removable.presents.mem_of_asks hn) (Finset.empty_subset _)

/-! ### Where control gets everywhere -/

theorem mem_preorder_of_mem_body (hempty : a.FinishEmpty f) (hb : b ∈ (a.scopeOf f).blocks)
    (hi : i ∈ a.body b) : b ∈ region.preorder := by
  rw [h.scope_blocks, Region.blocks_eq_preorder] at hb
  rcases List.mem_append.mp hb with hb | hb
  · exact hb
  · rw [List.mem_singleton.mp hb, hempty g h.function] at hi
    simp at hi

/-- Control does not get to the second branch of an `if` right behind another construct. -/
theorem not_reachable_of_skipped (he : a.EdgesCurrent f) {t : BlockId}
    (ht : region.Skipped none t) : ¬ a.Reachable f t := by
  have hchart := h.charted he
  rintro ⟨root, hroot, hreach⟩
  cases hreach with
  | root =>
    obtain ⟨first, rest, rfl⟩ := hchart.starts.exists_eq
    have hfirst := h.entryOf_eq.mp hroot
    obtain rfl : first = t := by simpa [Region.blocks_eq_preorder, Region.preorder] using hfirst
    exact Region.not_skipped_of_head? hchart.structured hchart.nodup_preorder rfl ht
  | @step b _ hb hbt _ =>
    have hmem := (h.flowsWithin he).mem_of_reachable ⟨root, hroot, hb⟩
    refine hchart.linked.not_flows_skipped hchart.structured hchart.nodup_preorder (fun x hx hs => ?_)
      (hchart.mem_of_flows (h.scope_blocks ▸ hmem) hbt) hbt ht
    obtain rfl : x = g.finish := by simpa [Region.Outer] using hx
    exact hchart.finish_notMem (hs.mem hchart.structured)

/-- If control gets to every block of the body, then the check looks at every reading. -/
theorem uncheckedInOrder (he : a.EdgesCurrent f) (hempty : a.FinishEmpty f)
    (hreach : a.BodyReachable f) : a.UncheckedInOrder f := by
  have hbody (b : BlockId) (hb : b ∈ region.preorder) : a.Reachable f b :=
    hreach region h.bodyRegion b (Region.blocks_eq_preorder region ▸ hb)
  rintro u b k (⟨hasked, hb⟩ | ⟨hregion, hc, hcon, hshape⟩)
  · refine absurd (hbody b ?_) hb
    cases hasked with
    | source hmem hi hins hu hown => exact h.mem_preorder_of_mem_body hempty hmem hi
    | incoming hmem hi hins hu hpred =>
      obtain ⟨dest, srcs, hact, hp⟩ := Instr.exists_of_incoming hpred
      obtain ⟨bb, hbb⟩ := h.wired.block _ hmem
      obtain ⟨hb, hflows⟩ := h.flows_of_mem_preds he hmem hbb
        (h.mem_preds he hmem hbb hi hins hact hp)
      exact (h.charted he).mem_of_flows (h.scope_blocks ▸ hb) hflows
    | condition hregion hc hcon hshape =>
      cases h.bodyRegion.symm.trans hregion
      exact (mem_branches hc).resolve_left (by simp)
  · cases h.bodyRegion.symm.trans hregion
    have hstruct := h.shaped.2.structured
    obtain ⟨t, inner, rfl⟩ := (Region.branching_of_mem hc hstruct).structured.2.1.1.exists_eq
    have hskip : region.Skipped none t := ⟨_, _, _, _, hc⟩
    exact absurd (hbody t (hskip.mem hstruct)) (h.not_reachable_of_skipped he hskip)

end Checked

/-! ### What is kept -/

section Kept

variable {always : Bool} (hfinds : a.outline.Finds region (a.scanned always region s))
  {use : Use} (huse : a.uses[u.idx]? = some use) (hval : use.value = some v)
  (hhome : home ∈ region.preorder) (hd : d ∈ a.body home) {dns : Instr}
  (hdns : a.instrs[d.idx]? = some dns) (hdef : some v ∈ dns.definitions)

theorem agree_scanned (always : Bool) : a.outline.Agree (a.scanned always region s) :=
  Outline.Agree.scan (by simp [Outline.Agree])

theorem covers_scanned (always : Bool) : a.outline.Covers region (a.scanned always region s) :=
  Outline.covers_scan

include hfinds huse hval hhome hd hdns hdef

/-- What defines the value of a use is marked, if the number that the use reads is. -/
theorem mem_scanned_of_marked (hx : a.values[v.idx]? = some x)
    (hmark : ∀ n, a.readNumber? u = some n → n ∈ (a.scanned always region s).values) :
    d ∈ (a.scanned always region s).instrs := by
  have hn : a.number? v = some x.index := by rw [number?, hx, Option.map_some]
  refine hfinds d ⟨home, hhome, hd⟩ x.index ?_ (hmark x.index ?_)
  · rw [show a.outline.defs d = dns.definitions.reduceOption.filterMap a.number? by
      simp [outline, hdns]]
    exact List.mem_filterMap.mpr ⟨v, List.reduceOption_mem_iff.mpr hdef, hn⟩
  · rw [readNumber?, huse, Option.bind_some, hval, Option.bind_some, hn]

/-- What defines a source of a marked instruction is marked. -/
theorem mem_scanned_of_source (hx : a.values[v.idx]? = some x)
    (hi : i ∈ (a.scanned always region s).instrs)
    (hins : a.instrs[i.idx]? = some ins) (hu : some u ∈ ins.sources) :
    d ∈ (a.scanned always region s).instrs := by
  refine mem_scanned_of_marked hfinds huse hval hhome hd hdns hdef hx fun n hn => ?_
  refine (agree_scanned always i hi).2 n ?_
  obtain ⟨y, hy, hyn⟩ := exists_mem_readings hu hn
  exact ⟨y, Scan.reads_outline hins ▸ hy, hyn⟩

/-- What defines a condition is marked. -/
theorem mem_scanned_of_condition (hx : a.values[v.idx]? = some x) {c : ConstructId}
    (hc : c ∈ region.ifs) {con : Construct} (hcon : a.constructs[c.idx]? = some con)
    {yes no : List Item} (hshape : con.shape = .branch (some u) yes no) :
    d ∈ (a.scanned always region s).instrs := by
  refine mem_scanned_of_marked hfinds huse hval hhome hd hdns hdef hx fun n hn => ?_
  refine (covers_scanned always).2 c hc n ?_
  simp [outline, hcon, hshape, hn]

end Kept

end Arena

end ShaderCompiler
