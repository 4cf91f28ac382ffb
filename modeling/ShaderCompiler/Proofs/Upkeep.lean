import ShaderCompiler.Proofs.Rules

/-!
# Passes that keep the rules

A pass takes instructions out of blocks and lets uses read other values. Most of the rules of a
function do not notice: its lists and edges stay as they are, and what is left of a block stands
in the same order. What a pass has to see to is that every reading that is left finds a
definition that is left, with the lanes it reads and done before it in the old order, and that
use-lists stay in step.
-/

namespace ShaderCompiler

variable {reader : Option InstrId}

/-! ### Orders in what is left of a list -/

section Lists

variable {α : Type} {l l' : List α} {x y : α}

/-- What is left of a list without repetitions stands in the same order. -/
theorem mem_take_idxOf_of_sublist [DecidableEq α] (h : l'.Sublist l) (hl : l.Nodup) (hx : x ∈ l')
    (hy : y ∈ l') :
    y ∈ l'.take (l'.idxOf x) ↔ y ∈ l.take (l.idxOf x) := by
  induction h with
  | slnil => simp at hx
  | @cons l₁ l₂ z h ih =>
    obtain ⟨hz, hl⟩ := List.nodup_cons.mp hl
    have hne {w : α} (hw : w ∈ l₁) : w ≠ z := fun heq => hz (heq ▸ h.subset hw)
    rw [List.idxOf_cons_ne _ (hne hx).symm, List.take_succ_cons, List.mem_cons, ih hl hx hy,
      or_iff_right (hne hy)]
  | @cons_cons l₁ l₂ z h ih =>
    obtain ⟨hz, hl⟩ := List.nodup_cons.mp hl
    by_cases hxz : x = z
    · subst hxz
      simp
    · rw [List.idxOf_cons_ne _ (Ne.symm hxz), List.idxOf_cons_ne _ (Ne.symm hxz),
        List.take_succ_cons, List.take_succ_cons, List.mem_cons, List.mem_cons]
      by_cases hyz : y = z
      · simp [hyz]
      · rw [ih hl ((List.mem_cons.mp hx).resolve_left hxz) ((List.mem_cons.mp hy).resolve_left hyz)]

theorem takeWhile_ne_eq_take [DecidableEq α] (l : List α) (x : α) :
    l.takeWhile (· ≠ x) = l.take (l.idxOf x) := by
  rw [List.takeWhile_eq_take_findIdx_not, List.idxOf]
  congr 2
  funext y
  simp [beq_eq_decide]

theorem getLast?_of_sublist (h : l'.Sublist l) (hl : l.Nodup) (hx : x ∈ l')
    (hlast : l.getLast? = some x) : l'.getLast? = some x := by
  obtain ⟨init, rfl⟩ := List.getLast?_eq_some_iff.mp hlast
  obtain ⟨l₁, l₂, rfl, h₁, h₂⟩ := List.sublist_append_iff.mp h
  have hnot : x ∉ l₁ := fun hmem =>
    (List.nodup_append'.mp hl).2.2 (h₁.subset hmem) (List.mem_singleton_self x)
  have hx₂ : x ∈ l₂ := (List.mem_append.mp hx).resolve_left hnot
  obtain rfl : l₂ = [x] := by
    cases h₂ with
    | cons _ h₂ => simp [List.sublist_nil.mp h₂] at hx₂
    | cons_cons _ h₂ => rw [List.sublist_nil.mp h₂]
  simp

end Lists

theorem Instr.incoming_congr {ins ins' : Instr} (h : ins'.action = ins.action) (u : UseId) :
    ins'.incoming u = ins.incoming u := by
  unfold Instr.incoming
  rw [h]

namespace Arena

variable {a a' : Arena} {f : FunctionId} {g : Function} {region : Region} {b t : BlockId}
  {d i : InstrId} {u : UseId} {v : ValueId}

/-! ### What a pass leaves as it is -/

namespace Evolves

variable {S : Scope} (he : Evolves S a a')

include he

theorem flows_iff {bb : Block} (hbb : a.blocks[b.idx]? = some bb) : a'.Flows b t ↔ a.Flows b t := by
  obtain ⟨bb', hbb', -, -, hexits, -⟩ := he.block b bb hbb
  simp [Flows, hbb, hbb', hexits]

theorem exists_function (hg : a.functions[f.idx]? = some g) : ∃ g', a'.functions[f.idx]? = some g'
    ∧ g'.body = g.body ∧ g'.finish = g.finish ∧ g'.valueCount = g.valueCount := by
  obtain ⟨g', hg', hbare⟩ := he.function f g hg
  simp only [Function.bare, Function.mk.injEq] at hbare
  obtain ⟨-, hbody, hfinish, hcount, -⟩ := hbare
  exact ⟨g', hg', hbody, hfinish, hcount⟩

theorem bodyRegion_eq (hg : a.functions[f.idx]? = some g) : a'.bodyRegion f = a.bodyRegion f := by
  obtain ⟨g', hg', hbody, -⟩ := he.exists_function hg
  exact bodyRegion_congr he.constructs (by simp [hg, hg', hbody])

theorem blocksOf_eq (hg : a.functions[f.idx]? = some g) : a'.blocksOf f = a.blocksOf f := by
  obtain ⟨g', hg', hbody, hfinish, -⟩ := he.exists_function hg
  exact blocksOf_congr he.constructs (by simp [hg, hg', hbody, hfinish])

theorem scope_blocks (hg : a.functions[f.idx]? = some g) :
    (a'.scopeOf f).blocks = (a.scopeOf f).blocks := by
  simp [scopeOf, he.blocksOf_eq hg]

theorem scope_ifs (hg : a.functions[f.idx]? = some g) :
    (a'.scopeOf f).ifs = (a.scopeOf f).ifs := by
  simp [scopeOf, he.bodyRegion_eq hg]

theorem entryOf_eq (hg : a.functions[f.idx]? = some g) : a'.entryOf f = a.entryOf f := by
  simp [entryOf, he.blocksOf_eq hg]

theorem parentOf {item : Item} {o : Option Owner} (h : a.parentOf item = .ok o) :
    a'.parentOf item = .ok o := by
  cases item with
  | block b =>
    simp only [Arena.parentOf, except_bind_eq_ok, block_eq_ok, except_pure_eq_ok] at h ⊢
    obtain ⟨bb, hbb, rfl⟩ := h
    obtain ⟨bb', hbb', -, -, -, hparent⟩ := he.block b bb hbb
    exact ⟨bb', hbb', hparent⟩
  | construct c =>
    simp only [Arena.parentOf, construct, he.constructs] at h ⊢
    exact h

theorem listShaped {owner : Owner} {items : List Item} (h : a.ListShaped owner items) :
    a'.ListShaped owner items :=
  ⟨h.head, h.last, fun item hitem => he.parentOf (h.parent item hitem), h.separated⟩

theorem nestedShaped {r : Region} (h : r.NestedShaped a) : r.NestedShaped a' := by
  induction r with
  | done => trivial
  | block _ _ ih => exact ih h
  | branch _ _ _ _ ihy ihn ihr =>
    obtain ⟨hyes, hno, hy, hn, hr⟩ := h
    exact ⟨he.listShaped hyes, he.listShaped hno, ihy hy, ihn hn, ihr hr⟩
  | loop _ _ _ ihb ihr =>
    obtain ⟨hbody, hb, hr⟩ := h
    exact ⟨he.listShaped hbody, ihb hb, ihr hr⟩

end Evolves

/-- What defines a value after a pass has defined it before. -/
theorem Evolves.standsFor (he : Evolves (a.scopeOf f) a a') (hg : a.functions[f.idx]? = some g)
    (hw : a.Wired (a.scopeOf f)) (hd : a'.StandsFor f d v) : a.StandsFor f d v := by
  obtain ⟨home, hhome, hmem, dns', hdns', hdef⟩ := hd
  rw [he.scope_blocks hg] at hhome
  obtain ⟨hmem₀, dns, hdns, hact, -⟩ := he.exists_before hw hhome hmem hdns'
  exact ⟨home, hhome, hmem₀, dns, hdns, Instr.definitions_congr hact ▸ hdef⟩

/-! ### What a pass has to see to -/

/-- What a pass that came from `a` to `a'` has to see to: instructions know their blocks, what is
read is defined by an instruction that is left and that is done before the reading in `a`, and
the lanes and use-lists fit. -/
structure Upholds (a a' : Arena) (f : FunctionId) (region : Region) : Prop where
  evolves : Evolves (a.scopeOf f) a a'
  place : ∀ b ∈ (a.scopeOf f).blocks, ∀ i ∈ a'.body b, ∀ ins, a'.instrs[i.idx]? = some ins →
    ins.block = some b
  stands : ∀ u, a'.Reads (a.scopeOf f) u → ∀ use v, a'.uses[u.idx]? = some use →
    use.value = some v → ∃ d, a'.StandsFor f d v
  lanes : ∀ b ∈ (a.scopeOf f).blocks, ∀ i ∈ a'.body b, ∀ ins, a'.instrs[i.idx]? = some ins →
    ∀ u, some u ∈ ins.sources → ∀ use v x, a'.uses[u.idx]? = some use → use.value = some v →
      a'.values[v.idx]? = some x → a'.LanesFit u x.comps
  order : ∀ u b reader, a.AskedAt f u b reader → a'.Reads (a.scopeOf f) u → ∀ use v d,
    a'.uses[u.idx]? = some use → use.value = some v → a'.StandsFor f d v → a.Reachable f b →
      a.DoneBefore f d b (a.placeOf b reader)
  listed : ∀ u, a'.Reads (a.scopeOf f) u → a'.Listed u
  lists : ∀ v, (a'.scopeOf f).defined v → a'.ListsFit (region.branches none) v

theorem AskedAt.mem_body (h : a.AskedAt f u b reader) : ∀ i, reader = some i → i ∈ a.body b := by
  intro i hi
  cases h with
  | source _ hj _ _ _ =>
    cases hi
    exact hj
  | incoming => simp at hi
  | condition => simp at hi

namespace Upholds

variable (h : Upholds a a' f region) (hr : a.Obeys f g region)

include h hr

theorem scope_blocks : (a'.scopeOf f).blocks = (a.scopeOf f).blocks :=
  h.evolves.scope_blocks hr.function

theorem scope_ifs : (a'.scopeOf f).ifs = (a.scopeOf f).ifs :=
  h.evolves.scope_ifs hr.function

theorem body_sublist (hb : b ∈ (a.scopeOf f).blocks) : (a'.body b).Sublist (a.body b) := by
  obtain ⟨bb, hbb⟩ := hr.wired.block b hb
  exact h.evolves.body_sublist hbb

theorem flows_iff (hb : b ∈ (a.scopeOf f).blocks) : a'.Flows b t ↔ a.Flows b t := by
  obtain ⟨bb, hbb⟩ := hr.wired.block b hb
  exact h.evolves.flows_iff hbb

theorem flowsWithin (hw : a.FlowsWithin f) : a'.FlowsWithin f := by
  intro b hb t hbt
  rw [h.scope_blocks hr] at hb ⊢
  exact hw b hb t ((h.flows_iff hr hb).mp hbt)

theorem instrsDistinct (hdistinct : a.InstrsDistinct f) : a'.InstrsDistinct f := by
  unfold InstrsDistinct
  rw [h.scope_blocks hr]
  refine List.Nodup.sublist ?_ hdistinct
  exact List.Sublist.flatMap_right _ fun b hb => h.body_sublist hr hb

/-- The same places are reached on the same ways. -/
theorem reaches_iff (hw : a.FlowsWithin f) {root : BlockId} (hroot : a.entryOf f = some root)
    {closed : BlockId → Prop} : Reaches root a'.Flows closed b ↔ Reaches root a.Flows closed b := by
  have hmem := mem_of_entryOf hroot
  constructor
  · refine Reaches.of_edges (S := (· ∈ (a.scopeOf f).blocks)) hmem fun c t hc hct => ?_
    have hct := (h.flows_iff hr hc).mp hct
    exact ⟨hct, hw c hc t hct⟩
  · refine Reaches.of_edges (S := (· ∈ (a.scopeOf f).blocks)) hmem fun c t hc hct => ?_
    exact ⟨(h.flows_iff hr hc).mpr hct, hw c hc t hct⟩

theorem reachable_iff (hw : a.FlowsWithin f) : a'.Reachable f b ↔ a.Reachable f b := by
  unfold Reachable
  rw [h.evolves.entryOf_eq hr.function]
  exact exists_congr fun root => and_congr_right fun hroot => h.reaches_iff hr hw hroot

/-- What is left and stood in front of a place of its block still does. -/
theorem mem_take (hdistinct : a.InstrsDistinct f) (hb : b ∈ (a.scopeOf f).blocks)
    (hd : a'.StandsFor f d v) (hreader : ∀ i, reader = some i → i ∈ a'.body b)
    (htake : d ∈ (a.body b).take (a.placeOf b reader)) :
    d ∈ (a'.body b).take (a'.placeOf b reader) := by
  obtain ⟨home, hhome, hmem, -⟩ := hd
  rw [h.scope_blocks hr] at hhome
  obtain rfl := hdistinct.home_eq hhome hb ((h.body_sublist hr hhome).subset hmem)
    (List.mem_of_mem_take htake)
  cases reader with
  | none => simpa [placeOf] using hmem
  | some i =>
    exact (mem_take_idxOf_of_sublist (h.body_sublist hr hhome) (hdistinct.nodup_body hhome)
      (hreader i rfl) hmem).mpr htake

/-- What is left is done where it was done before. -/
theorem doneBefore (hw : a.FlowsWithin f) (hdistinct : a.InstrsDistinct f)
    (hb : a.Reachable f b) (hd : a'.StandsFor f d v)
    (hreader : ∀ i, reader = some i → i ∈ a'.body b)
    (hdone : a.DoneBefore f d b (a.placeOf b reader)) :
    a'.DoneBefore f d b (a'.placeOf b reader) := by
  rcases hdone with htake | ⟨home', root, hne, hmem', hroot, hdom⟩
  · exact .inl (h.mem_take hr hdistinct (hw.mem_of_reachable hb) hd hreader htake)
  · obtain ⟨home, hhome, hmem, -⟩ := hd
    rw [h.scope_blocks hr] at hhome
    obtain ⟨root', hroot', hreach⟩ := hb
    cases hroot.symm.trans hroot'
    obtain rfl := hdistinct.home_eq hhome (hw.mem_of_reachable ⟨root, hroot, hdom.reaches hreach⟩)
      ((h.body_sublist hr hhome).subset hmem) hmem'
    refine .inr ⟨home, root, hne, hmem, (h.evolves.entryOf_eq hr.function).trans hroot, ?_⟩
    exact fun hpath => hdom ((h.reaches_iff hr hw hroot).mp hpath)

theorem askedAt (hasked : a'.AskedAt f u b reader) :
    a.AskedAt f u b reader := by
  have hsame {c : BlockId} {j : InstrId} {jns' : Instr} (hc : c ∈ (a'.scopeOf f).blocks)
      (hj : j ∈ a'.body c) (hjns' : a'.instrs[j.idx]? = some jns') :
      c ∈ (a.scopeOf f).blocks ∧ j ∈ a.body c ∧ ∃ jns, a.instrs[j.idx]? = some jns
        ∧ jns'.sources = jns.sources ∧ jns'.incoming u = jns.incoming u := by
    rw [h.scope_blocks hr] at hc
    obtain ⟨hj₀, jns, hjns, hact, hind⟩ := h.evolves.exists_before hr.wired hc hj hjns'
    exact ⟨hc, hj₀, jns, hjns, Instr.sources_congr hact hind, Instr.incoming_congr hact u⟩
  cases hasked with
  | source hc hj hjns' hu hown =>
    obtain ⟨hc, hj, jns, hjns, hsources, hincoming⟩ := hsame hc hj hjns'
    exact .source hc hj hjns (hsources ▸ hu) (hincoming ▸ hown)
  | incoming hc hj hjns' hu hpred =>
    obtain ⟨hc, hj, jns, hjns, hsources, hincoming⟩ := hsame hc hj hjns'
    exact .incoming hc hj hjns (hsources ▸ hu) (hincoming ▸ hpred)
  | condition hregion hc hcon hshape =>
    rw [h.evolves.bodyRegion_eq hr.function] at hregion
    exact .condition hregion hc (h.evolves.constructs ▸ hcon) hshape

/-- Where a reading is asked for, an instruction reads it that is left, or a condition. -/
theorem reads_of_askedAt (hasked : a'.AskedAt f u b reader) :
    a'.Reads (a.scopeOf f) u := by
  cases hasked with
  | source hc hj hjns hu _ => exact .inl ⟨_, h.scope_blocks hr ▸ hc, _, hj, _, hjns, hu⟩
  | incoming hc hj hjns hu _ => exact .inl ⟨_, h.scope_blocks hr ▸ hc, _, hj, _, hjns, hu⟩
  | condition hregion hc hcon hshape =>
    rw [h.evolves.bodyRegion_eq hr.function] at hregion
    exact .inr ⟨_, scopeOf_ifs hregion ▸ List.mem_map_of_mem hc, _, _, _, hcon, hshape⟩

theorem readingsObey (hw : a.FlowsWithin f) (hdistinct : a.InstrsDistinct f) :
    a'.ReadingsObey f where
  lanes := by
    rw [h.scope_blocks hr]
    exact h.lanes
  order u b reader hasked use v d huse hval hd hb := by
    rw [h.reachable_iff hr hw] at hb
    exact h.doneBefore hr hw hdistinct hb hd hasked.mem_body
      (h.order u b reader (h.askedAt hr hasked) (h.reads_of_askedAt hr hasked) use v d huse hval hd hb)

theorem instrFits (hdistinct : a.InstrsDistinct f) (hb : b ∈ (a.scopeOf f).blocks)
    (hi : i ∈ a'.body b) : a'.InstrFits b i := by
  have hsub := h.body_sublist hr hb
  have hnodup := hdistinct.nodup_body hb
  obtain ⟨bb, ins, hbb, hins, -, hfits⟩ := hr.fits b hb i (hsub.subset hi)
  obtain ⟨bb', hbb', -, hpreds, -⟩ := h.evolves.block b bb hbb
  obtain ⟨ins', hins', hact, -⟩ := h.evolves.instr i ins hins
  rw [body_of_block hbb'] at hi hsub
  rw [body_of_block hbb] at hsub hnodup
  refine ⟨bb', ins', hbb', hins', h.place b hb i (body_of_block hbb' ▸ hi) ins' hins', ?_⟩
  rw [hact]
  cases haction : ins.action with
  | phi dest srcs =>
    rw [haction] at hfits
    refine ⟨fun j hj => ?_, hpreds ▸ hfits.2⟩
    rw [takeWhile_ne_eq_take] at hj
    rw [mem_take_idxOf_of_sublist hsub hnodup hi (List.mem_of_mem_take hj),
      ← takeWhile_ne_eq_take] at hj
    obtain ⟨jns, hjns, hphi⟩ := hfits.1 j hj
    obtain ⟨jns', hjns', hact', -⟩ := h.evolves.instr j jns hjns
    exact ⟨jns', hjns', by rwa [Instr.isPhi, hact']⟩
  | jump kind =>
    rw [haction] at hfits
    exact getLast?_of_sublist hsub hnodup hi hfits
  | alu p =>
    rw [haction] at hfits
    obtain ⟨info, hinfo, hlen, hout⟩ := hfits
    refine ⟨info, hinfo, hlen, fun hne => ?_⟩
    obtain ⟨e, x, he, hx, hcomps⟩ := hout hne
    obtain ⟨x', hx', -, hcomps', -⟩ := h.evolves.value e x hx
    exact ⟨e, x', he, hx', hcomps'.trans hcomps⟩
  | _ => trivial

/-- Every reference still leads somewhere, and to what is left. -/
theorem wired : a'.Wired (a'.scopeOf f) := by
  have hold := hr.wired.evolve h.evolves
  have hblocks := h.scope_blocks hr
  have hifs := h.scope_ifs hr
  -- What is read is defined by an instruction that is left.
  have hdefined {u : UseId} {use : Use} {v : ValueId} (hu : a'.Reads (a.scopeOf f) u)
      (huse : a'.uses[u.idx]? = some use) (hval : use.value = some v) : (a'.scopeOf f).defined v :=
    defined_iff_standsFor.mpr (h.stands u hu use v huse hval)
  constructor
  · rw [hblocks]
    exact hold.block
  · rw [hblocks]
    exact hold.instr
  · intro b hb i hi ins hins o ho
    obtain ⟨v, x, rfl, -, hx, hby⟩ := hold.definition b (hblocks ▸ hb) i hi ins hins o ho
    exact ⟨v, x, rfl, ⟨b, hb, i, hi, ins, hins, ho⟩, hx, hby⟩
  · rw [hblocks]
    intro b hb i hi ins hins s hs
    obtain ⟨u, use, v, rfl, huse, hval, -, huser, hguards⟩ := hold.source b hb i hi ins hins s hs
    exact ⟨u, use, v, rfl, huse, hval, hdefined (.inl ⟨b, hb, i, hi, ins, hins, hs⟩) huse hval,
      huser, hguards⟩
  · rw [hifs]
    intro c hc
    obtain ⟨con, u, yes, no, use, v, hcon, hshape, huse, hval, -, hguards, huser⟩ :=
      hold.condition c hc
    exact ⟨con, u, yes, no, use, v, hcon, hshape, huse, hval,
      hdefined (.inr ⟨c, hc, con, yes, no, hcon, hshape⟩) huse hval, hguards, huser⟩
  · rintro v ⟨b, hb, i, hi, ins, hins, hv⟩
    obtain ⟨-, x, hx, -⟩ := hold.value_of_definition (hblocks ▸ hb) hi hins hv
    exact ⟨x, hx⟩

theorem obeys (hw : a.FlowsWithin f) (hdistinct : a.InstrsDistinct f) :
    ∃ g', a'.Obeys f g' region := by
  have hblocks := h.scope_blocks hr
  obtain ⟨g', hg', hbody, hfinish, hcount⟩ := h.evolves.exists_function hr.function
  refine ⟨g', hg', (h.evolves.bodyRegion_eq hr.function).trans hr.bodyRegion,
    ⟨h.evolves.listShaped hr.shaped.1, h.evolves.nestedShaped hr.shaped.2⟩, hfinish ▸ hr.nodup,
    h.wired hr, ?_, ?_, ?_, ?_, h.readingsObey hr hw hdistinct, fun u hu => ?_, h.lists⟩
  · rw [hblocks]
    exact fun b hb i hi => h.instrFits hr hdistinct hb hi
  · rw [hblocks]
    intro b hb i hi ins' hins'
    obtain ⟨hi₀, ins, hins, hact, -⟩ := h.evolves.exists_before hr.wired hb hi hins'
    rw [Instr.definitions_congr hact]
    exact hr.definitions b hb i hi₀ ins hins
  · rintro v x' ⟨b, hb, i, hi, ins', hins', hv⟩ hx'
    have hb₀ : b ∈ (a.scopeOf f).blocks := hblocks ▸ hb
    obtain ⟨hi₀, ins, hins, hact, -⟩ := h.evolves.exists_before hr.wired hb₀ hi hins'
    rw [Instr.definitions_congr hact] at hv
    have hdef : (a.scopeOf f).defined v := ⟨b, hb₀, i, hi₀, ins, hins, hv⟩
    obtain ⟨x, hx⟩ := hr.wired.value v hdef
    obtain ⟨hindex, -⟩ := h.evolves.value_eq hx hx'
    rw [hindex, hcount]
    exact hr.index v x hdef hx
  · rw [hblocks]
    intro b hb i hi ins' hins' u pred hpred
    obtain ⟨hi₀, ins, hins, hact, -⟩ := h.evolves.exists_before hr.wired hb hi hins'
    rw [Instr.incoming_congr hact] at hpred
    exact hr.preds b hb i hi₀ ins hins u pred hpred
  · refine h.listed u ?_
    unfold Reads at hu ⊢
    rwa [hblocks, h.scope_ifs hr] at hu

/-- A pass that sees to what it has to leaves a function that passes the check. -/
theorem accepted (hw : a.FlowsWithin f) (hdistinct : a.InstrsDistinct f) : a'.Accepted f := by
  obtain ⟨g', hobeys⟩ := h.obeys hr hw hdistinct
  exact hobeys.accepted (h.flowsWithin hr hw) (h.instrsDistinct hr hdistinct)

end Upholds

end Arena

end ShaderCompiler
