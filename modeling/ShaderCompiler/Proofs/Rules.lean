import ShaderCompiler.Proofs.Paths

/-!
# The rules that the check enforces

The check works with numbers: of blocks and instructions, and those kept in a dominator tree. What
it enforces can be said without them. Every reference leads somewhere, instructions stand where
their kind may stand, readings find lanes that are there and definitions that are done if control
gets to the reading, and use-lists and uses know each other's places.

A function whose edges are up to date and in which no instruction occurs twice passes the check if
and only if it obeys these rules. A pass that is to keep a function valid has to keep the rules.
-/

namespace ShaderCompiler

variable {before : Option BlockId} {c : ConstructId} {a' : Arena} {ins : Instr} {use : Use}

namespace Arena

variable {a a₁ : Arena} {f : FunctionId} {g : Function} {region : Region} {tree : Dominance}
  {defs : Edit.Definitions} {b : BlockId} {d i : InstrId} {u : UseId} {v : ValueId}

/-- An instruction of the function defines the value. -/
def StandsFor (a : Arena) (f : FunctionId) (d : InstrId) (v : ValueId) : Prop :=
  ∃ home ∈ (a.scopeOf f).blocks, d ∈ a.body home ∧ ∃ dns, a.instrs[d.idx]? = some dns
    ∧ some v ∈ dns.definitions

/-- The position in a block where an instruction reads its sources, or the end of the block. -/
def placeOf (a : Arena) (b : BlockId) : Option InstrId → Nat
  | none => (a.body b).length
  | some i => (a.body b).idxOf i

/-- The place where a reading needs its definition: in front of the instruction that reads, at the
end of the predecessor for which a φ reads, or at the end of the block in front of an `if`. -/
inductive AskedAt (a : Arena) (f : FunctionId) (u : UseId) : BlockId → Option InstrId → Prop
  | source {b : BlockId} {i : InstrId} {ins : Instr} (hb : b ∈ (a.scopeOf f).blocks)
      (hi : i ∈ a.body b) (hins : a.instrs[i.idx]? = some ins) (hu : some u ∈ ins.sources)
      (hown : ins.incoming u = none) : AskedAt a f u b (some i)
  | incoming {b pred : BlockId} {i : InstrId} {ins : Instr} (hb : b ∈ (a.scopeOf f).blocks)
      (hi : i ∈ a.body b) (hins : a.instrs[i.idx]? = some ins) (hu : some u ∈ ins.sources)
      (hpred : ins.incoming u = some pred) : AskedAt a f u pred none
  | condition {b : BlockId} {c : ConstructId} {con : Construct} {yes no : List Item}
      {region : Region} (hregion : a.bodyRegion f = .ok region)
      (hc : (c, some b) ∈ region.branches none) (hcon : a.constructs[c.idx]? = some con)
      (hshape : con.shape = .branch (some u) yes no) : AskedAt a f u b none

/-- A use stands in the list of the value it reads, at the place that it remembers. -/
def Listed (a : Arena) (u : UseId) : Prop :=
  ∃ use v x k, a.uses[u.idx]? = some use ∧ use.value = some v ∧ a.values[v.idx]? = some x
    ∧ use.slot = some k ∧ (x.usesOf use.guards.isSome)[k]? = some u

/-- Sources read lanes that are there, and definitions are done wherever a reading needs them, if
control gets there. -/
structure ReadingsObey (a : Arena) (f : FunctionId) : Prop where
  lanes : ∀ b ∈ (a.scopeOf f).blocks, ∀ i ∈ a.body b, ∀ ins, a.instrs[i.idx]? = some ins →
    ∀ u, some u ∈ ins.sources → ∀ use v x, a.uses[u.idx]? = some use → use.value = some v →
      a.values[v.idx]? = some x → a.LanesFit u x.comps
  order : ∀ u b reader, a.AskedAt f u b reader → ∀ use v d, a.uses[u.idx]? = some use →
    use.value = some v → a.StandsFor f d v → a.Reachable f b →
      a.DoneBefore f d b (a.placeOf b reader)

/-- The rules that the check enforces for a function with the given region. -/
structure Obeys (a : Arena) (f : FunctionId) (g : Function) (region : Region) : Prop where
  function : a.functions[f.idx]? = some g
  bodyRegion : a.bodyRegion f = .ok region
  shaped : region.Shaped a (.function f)
  nodup : (region.blocks ++ [g.finish]).Nodup
  wired : a.Wired (a.scopeOf f)
  fits : ∀ b ∈ (a.scopeOf f).blocks, ∀ i ∈ a.body b, a.InstrFits b i
  definitions : ∀ b ∈ (a.scopeOf f).blocks, ∀ i ∈ a.body b, ∀ ins, a.instrs[i.idx]? = some ins →
    ins.definitions.Nodup
  index : ∀ v x, (a.scopeOf f).defined v → a.values[v.idx]? = some x →
    0 ≤ x.index ∧ x.index < g.valueCount
  preds : ∀ b ∈ (a.scopeOf f).blocks, ∀ i ∈ a.body b, ∀ ins, a.instrs[i.idx]? = some ins →
    ∀ u pred, ins.incoming u = some pred → pred ∈ (a.scopeOf f).blocks
  readings : a.ReadingsObey f
  listed : ∀ u, a.Reads (a.scopeOf f) u → a.Listed u
  lists : ∀ v, (a.scopeOf f).defined v → a.ListsFit (region.branches none) v

/-! ### Parts of the rules -/

theorem defined_iff_standsFor : (a.scopeOf f).defined v ↔ ∃ d, a.StandsFor f d v := by
  constructor
  · rintro ⟨home, hhome, d, hd, dns, hdns, hv⟩
    exact ⟨d, home, hhome, hd, dns, hdns, hv⟩
  · rintro ⟨d, home, hhome, hd, dns, hdns, hv⟩
    exact ⟨home, hhome, d, hd, dns, hdns, hv⟩

/-- A value knows the instruction that defines it. -/
theorem StandsFor.definedBy (h : a.StandsFor f d v) (hw : a.Wired (a.scopeOf f)) :
    ∃ x, a.values[v.idx]? = some x ∧ x.definedBy = some d := by
  obtain ⟨home, hhome, hd, dns, hdns, hv⟩ := h
  exact (hw.value_of_definition hhome hd hdns hv).2

theorem StandsFor.eq {e : InstrId} (h : a.StandsFor f d v) (h' : a.StandsFor f e v)
    (hw : a.Wired (a.scopeOf f)) : d = e := by
  obtain ⟨x, hx, hby⟩ := h.definedBy hw
  obtain ⟨y, hy, hby'⟩ := h'.definedBy hw
  cases hx.symm.trans hy
  exact Option.some.inj (hby.symm.trans hby')

theorem getElem?_idxOf_of_mem {l : List InstrId} (h : i ∈ l) : l[l.idxOf i]? = some i := by
  rw [List.getElem?_eq_getElem (List.idxOf_lt_length_iff.mpr h), List.getElem_idxOf]

theorem mem_branches {r : Region}
    (h : (c, some b) ∈ r.branches before) : before = some b ∨ b ∈ r.preorder := by
  induction r generalizing before with
  | done => simp [Region.branches] at h
  | block b' rest ih =>
    rcases ih h with heq | hmem
    · exact .inr (by simp [Region.preorder, Option.some.inj heq])
    · exact .inr (by simp [Region.preorder, hmem])
  | branch c' yes no rest ihy ihn ihr =>
    simp only [Region.branches, List.mem_cons, List.mem_append, Prod.mk.injEq] at h
    simp only [Region.preorder, List.mem_append]
    rcases h with ⟨-, hb⟩ | (h | h) | h
    · exact .inl hb.symm
    · exact .inr (.inl (.inl ((ihy h).resolve_left (by simp))))
    · exact .inr (.inl (.inr ((ihn h).resolve_left (by simp))))
    · exact .inr (.inr ((ihr h).resolve_left (by simp)))
  | loop c' body rest ihb ihr =>
    simp only [Region.branches, List.mem_append] at h
    simp only [Region.preorder, List.mem_append]
    rcases h with h | h
    · exact .inr (.inl ((ihb h).resolve_left (by simp)))
    · exact .inr (.inr ((ihr h).resolve_left (by simp)))

/-- What an instruction asks for does not depend on bookkeeping or uses. -/
theorem InstrFits.congr (h : a.InstrFits b i)
    (hv : a'.code.values = a.code.values) (hi : a'.code.instrs = a.code.instrs)
    (hb : a'.code.blocks = a.code.blocks) : a'.InstrFits b i := by
  obtain ⟨bb, ins, hbb, hins, hblock, hfits⟩ := h
  obtain ⟨n, hbb'⟩ := block_of_blocks hb hbb
  obtain ⟨m, l, hins'⟩ := instr_of_instrs hi hins
  refine ⟨_, _, hbb', hins', hblock, ?_⟩
  change a'.ActionFits { bb with index := n } i ins.action
  cases hact : ins.action with
  | phi dest srcs =>
    rw [hact] at hfits
    refine ⟨fun j hj => ?_, hfits.2⟩
    obtain ⟨jns, hjns, hphi⟩ := hfits.1 j hj
    obtain ⟨m, l, hjns'⟩ := instr_of_instrs hi hjns
    exact ⟨_, hjns', hphi⟩
  | alu p =>
    rw [hact] at hfits
    exact AluFits.congr hfits hv
  | jump _ =>
    rw [hact] at hfits
    exact hfits
  | _ => trivial

theorem ListsFit.congr {branches : List (ConstructId × Option BlockId)}
    (h : a.ListsFit branches v) (hv : a'.values = a.values) (hu : a'.uses = a.uses)
    (hi : a'.code.instrs = a.code.instrs) : a'.ListsFit branches v := by
  obtain ⟨x, hx, huses, hconditions⟩ := h
  refine ⟨x, hv ▸ hx, fun u k hk => ?_, hu ▸ hconditions⟩
  obtain ⟨use, i, ins, huse, hslot, huser, hins, hblock, hmem⟩ := huses u k hk
  obtain ⟨n, l, hins'⟩ := instr_of_instrs hi hins
  exact ⟨use, i, _, hu ▸ huse, hslot, huser, hins', hblock, hmem⟩

/-! ### What passes the check obeys the rules -/

namespace Checked

variable (h : a.Checked f a₁ g region tree defs)

include h

theorem standsFor_of_mem_defs (hd : (v, d) ∈ defs) : a.StandsFor f d v := by
  obtain ⟨home, hhome, hmem, dns, hdns, hv⟩ := h.mem_defs.mp hd
  exact ⟨home, hhome, hmem, dns, hdns, hv⟩

theorem nodup_definitions (hb : b ∈ (a.scopeOf f).blocks) (hi : i ∈ a.body b)
    (hins : a.instrs[i.idx]? = some ins) : ins.definitions.Nodup := by
  have hnodup := h.nodup_definitionsOf
  rw [h.fits.lists.eq, List.nodup_flatMap] at hnodup
  have := hnodup.1 _ (h.mem_placed hb hi)
  rw [h.definitionsOf_eq hins] at this
  exact this.of_map _

/-- A φ reads for blocks of the function only, if the edges are up to date. -/
theorem pred_mem (he : a.EdgesCurrent f) (hb : b ∈ (a.scopeOf f).blocks) (hi : i ∈ a.body b)
    (hins : a.instrs[i.idx]? = some ins) {pred : BlockId}
    (hpred : ins.incoming u = some pred) : pred ∈ (a.scopeOf f).blocks := by
  obtain ⟨bb, hbb⟩ := h.wired.block b hb
  cases hact : ins.action with
  | phi dest srcs =>
    obtain ⟨hlength, hall⟩ := h.phi_entries hb hbb (body_of_block hbb ▸ hi) hins hact
    rw [Instr.incoming, hact, Option.map_eq_some_iff] at hpred
    obtain ⟨s, hs, rfl⟩ := hpred
    have hcount := countP_eq_of_phiSourceFor
      ((h.charted he).nodup_preds (h.scope_blocks ▸ hb) hbb) hlength hall s.1
    have hpos : 0 < srcs.countP (·.1 = s.1) :=
      List.countP_pos_iff.mpr ⟨s, List.mem_of_find?_eq_some hs, by simp⟩
    rw [hcount] at hpos
    split at hpos
    case isTrue hmem =>
      exact h.scope_blocks ▸ (h.charted he).mem_of_preds (h.scope_blocks ▸ hb) hbb hmem
    case isFalse => simp at hpos
  | _ => simp [Instr.incoming, hact] at hpred

/-- Sources read lanes that are there. -/
theorem lanesFit (hb : b ∈ (a.scopeOf f).blocks) (hi : i ∈ a.body b)
    (hins : a.instrs[i.idx]? = some ins) (hu : some u ∈ ins.sources) {x : Value}
    (huse : a.uses[u.idx]? = some use) (hval : use.value = some v)
    (hx : a.values[v.idx]? = some x) : a.LanesFit u x.comps := by
  obtain ⟨use', v', x', d, huse', hval', -, hx', -, hlanes, -⟩ := h.source_precedes hb hi hins hu
  cases huse.symm.trans huse'
  cases hval.symm.trans hval'
  cases hx.symm.trans hx'
  exact hlanes

theorem instrFits (hb : b ∈ (a.scopeOf f).blocks) (hi : i ∈ a.body b) : a.InstrFits b i :=
  (h.fits.instr _ (h.mem_placed hb hi)).congr (congrArg (·.values) h.code.symm)
    (congrArg (·.instrs) h.code.symm) (congrArg (·.blocks) h.code.symm)

theorem readingsObey (hw : a.FlowsWithin f) (hdistinct : a.InstrsDistinct f) :
    a.ReadingsObey f where
  lanes b hb i hi ins hins u hu use v x huse hval hx := h.lanesFit hb hi hins hu huse hval hx
  order u b reader hasked use v d huse hval hd hreach := by
    have hmem := hw.mem_of_reachable hreach
    -- The instruction that the check knows for the value is the one that stands for it.
    have hsame {use' : Use} {v' : ValueId} {e : InstrId} (huse' : a.uses[u.idx]? = some use')
        (hval' : use'.value = some v') (hvd : (v', e) ∈ defs) : (v', e) = (v, d) := by
      cases huse.symm.trans huse'
      cases hval.symm.trans hval'
      rw [(h.standsFor_of_mem_defs hvd).eq hd h.wired]
    cases hasked with
    | @source _ i ins hb hi hins hu hown =>
      obtain ⟨use', v', x, e, huse', hval', hvd, -, -, -, hprecedes⟩ :=
        h.source_precedes hb hi hins hu
      cases hsame huse' hval' hvd
      rw [hown] at hprecedes
      refine h.doneBefore hw hdistinct hreach hmem hvd hprecedes ?_ (by simp)
      intro j hj
      cases hj
      exact getElem?_idxOf_of_mem hi
    | @incoming c _ i ins hc hi hins hu hpred =>
      obtain ⟨use', v', x, e, huse', hval', hvd, -, -, -, hprecedes⟩ :=
        h.source_precedes hc hi hins hu
      cases hsame huse' hval' hvd
      rw [hpred] at hprecedes
      exact h.doneBefore hw hdistinct hreach hmem hvd hprecedes (by simp) fun _ => rfl
    | @condition _ c con yes no region' hregion hc hcon hshape =>
      cases h.bodyRegion.symm.trans hregion
      obtain ⟨_, use', v', x, e, heq, huse', hval', hvd, -, -, -, hprecedes⟩ :=
        h.condition_precedes hc hcon hshape
      cases heq
      cases hsame huse' hval' hvd
      exact h.doneBefore hw hdistinct hreach hmem hvd hprecedes (by simp) fun _ => rfl

/-- A function that passes the check obeys the rules. -/
theorem obeys (he : a.EdgesCurrent f) (hdistinct : a.InstrsDistinct f) : a.Obeys f g region where
  function := h.function
  bodyRegion := h.bodyRegion
  shaped := h.shaped
  nodup := h.nodup_blocks
  wired := h.wired
  fits b hb i hi := h.instrFits hb hi
  definitions b hb i hi ins hins := h.nodup_definitions hb hi hins
  index v x hv hx := by
    obtain ⟨i, hd⟩ := h.defined_iff.mp hv
    obtain ⟨x', hx', -, hindex⟩ := h.value_of_mem_defs hd
    cases hx.symm.trans hx'
    exact hindex
  preds b hb i hi ins hins u pred hpred := h.pred_mem he hb hi hins hpred
  readings := h.readingsObey (h.flowsWithin he) hdistinct
  listed u hu := by
    obtain ⟨use, v, x, k, huse, hval, -, hx, hslot, hk⟩ := h.listed hu
    exact ⟨use, v, x, k, huse, hval, hx, hslot, hk⟩
  lists v hv := by
    obtain ⟨i, hd⟩ := h.defined_iff.mp hv
    exact (h.fits.useLists _ hd).congr h.values.symm h.uses.symm (congrArg (·.instrs) h.code.symm)

end Checked

/-! ### What obeys the rules passes the check -/

/-- The values that a function defines, each with its instruction. -/
def definitionsIn (a : Arena) (f : FunctionId) : Edit.Definitions :=
  (a.placed (a.scopeOf f).blocks).flatMap fun p =>
    (a.definitionsOf p.2).reduceOption.map (·, p.2)

theorem mem_definitionsIn : (v, d) ∈ definitionsIn a f ↔ a.StandsFor f d v := by
  simp only [definitionsIn, List.mem_flatMap, List.mem_map, placed, Prod.mk.injEq]
  constructor
  · rintro ⟨_, ⟨home, hhome, i, hi, rfl⟩, w, hw, rfl, rfl⟩
    cases hins : a.instrs[i.idx]? with
    | none => simp [definitionsOf, hins] at hw
    | some ins =>
      rw [List.reduceOption_mem_iff, definitionsOf, hins] at hw
      exact ⟨home, hhome, hi, ins, hins, hw⟩
  · rintro ⟨home, hhome, hd, dns, hdns, hv⟩
    refine ⟨_, ⟨home, hhome, d, hd, rfl⟩, v, ?_, rfl, rfl⟩
    rwa [List.reduceOption_mem_iff, definitionsOf, hdns]

theorem map_some_reduceOption {l : List (Option ValueId)} (hl : ∀ o ∈ l, o.isSome = true) :
    l.reduceOption.map some = l := by
  induction l with
  | nil => rfl
  | cons o l ih =>
    obtain ⟨v, rfl⟩ := Option.isSome_iff_exists.mp (hl o List.mem_cons_self)
    rw [List.reduceOption_cons_of_some, List.map_cons,
      ih fun o ho => hl o (List.mem_cons_of_mem _ ho)]

namespace Obeys

section

variable (h : a.Obeys f g region)

include h

theorem blocksOf : a.blocksOf f = .ok (a.scopeOf f).blocks :=
  (blocksOf_eq_ok h.function h.bodyRegion).mpr (scopeOf_blocks h.function h.bodyRegion).symm

/-- The analyses of a function that obeys the rules can be computed. -/
theorem exists_surveyed (hw : a.FlowsWithin f) : ∃ a₁ tree, a.Surveyed f a₁ g region tree := by
  have hblocks := scopeOf_blocks h.function h.bodyRegion
  have hpresent : ∀ b ∈ region.blocks ++ [g.finish], ∃ bb, a.blocks[b.idx]? = some bb :=
    fun b hb => h.wired.block b (hblocks ▸ hb)
  have hnum : (a.numbered (region.blocks ++ [g.finish])).NumberedBy
      (region.blocks ++ [g.finish]) := by
    intro n b hb
    obtain ⟨bb, hbb⟩ := hpresent b (List.mem_of_getElem? hb)
    refine ⟨{ bb with index := lastPosition b (region.blocks ++ [g.finish]) 0 bb.index },
      (numberBlocks_blocks a _ 0 b).trans (by rw [hbb, Option.map_some]), ?_⟩
    rw [lastPosition_of_nodup h.nodup hb, Nat.zero_add]
  obtain ⟨tree, htree⟩ := hnum.exists_dominanceOf (by simp) fun b hb t hbt => by
    obtain ⟨_, hbb, ht⟩ := hbt
    rw [show (a.numbered _).blocks[b.idx]? = _ from numberBlocks_blocks a _ 0 b,
      Option.map_eq_some_iff] at hbb
    obtain ⟨bb, hbb, rfl⟩ := hbb
    exact hblocks ▸ hw b (hblocks ▸ hb) t ⟨bb, hbb, ht⟩
  have hinstrs : ∀ i ∈ (region.blocks ++ [g.finish]).flatMap a.body,
      (a.instrs[i.idx]?).isSome = true := by
    intro i hi
    obtain ⟨b, hb, hi⟩ := List.mem_flatMap.mp hi
    exact Option.isSome_iff_exists.mpr (h.wired.instr b (hblocks ▸ hb) i hi)
  obtain ⟨g', tree', hs⟩ := surveyed_of_analyse h.bodyRegion h.shaped (Edit.analyse_eq_ok.mpr
    ⟨_, tree, (blocksOf_eq_ok h.function h.bodyRegion).mpr rfl,
      fun b hb => Option.isSome_iff_exists.mpr (hpresent b hb), hinstrs, htree, rfl⟩)
  obtain rfl : g = g' := Option.some.inj (h.function.symm.trans hs.function)
  exact ⟨_, tree', hs⟩

theorem home_of_standsFor (hd : a.StandsFor f d v) : ∃ home ∈ (a.scopeOf f).blocks,
    d ∈ a.body home ∧ ∃ dns, a.instrs[d.idx]? = some dns ∧ dns.block = some home := by
  obtain ⟨home, hhome, hmem, -⟩ := hd
  obtain ⟨-, dns, -, hdns, hplace, -⟩ := h.fits home hhome d hmem
  exact ⟨home, hhome, hmem, dns, hdns, hplace⟩

end

section

variable (h : a.Obeys f g region) (hs : a.Surveyed f a₁ g region tree)

include h

/-- Different instructions define different values, and no instruction defines a value twice. -/
theorem nodup_definitionsIn (hdistinct : a.InstrsDistinct f) :
    ((definitionsIn a f).map Prod.fst).Nodup := by
  have hkeys : (definitionsIn a f).map Prod.fst
      = ((a.scopeOf f).blocks.flatMap a.body).flatMap
        fun i => (a.definitionsOf i).reduceOption := by
    simp only [definitionsIn, placed, List.map_flatMap, List.flatMap_assoc, List.flatMap_map,
      List.map_map, Function.comp_def, List.map_id']
  have hstands : ∀ i ∈ (a.scopeOf f).blocks.flatMap a.body, ∀ v,
      v ∈ (a.definitionsOf i).reduceOption → a.StandsFor f i v := by
    intro i hi v hv
    obtain ⟨b, hb, hib⟩ := List.mem_flatMap.mp hi
    obtain ⟨ins, hins⟩ := h.wired.instr b hb i hib
    rw [List.reduceOption_mem_iff, definitionsOf, hins] at hv
    exact ⟨b, hb, hib, ins, hins, hv⟩
  rw [hkeys, List.nodup_flatMap]
  refine ⟨fun i hi => ?_, List.Pairwise.imp_of_mem ?_ hdistinct⟩
  · obtain ⟨b, hb, hib⟩ := List.mem_flatMap.mp hi
    obtain ⟨ins, hins⟩ := h.wired.instr b hb i hib
    rw [definitionsOf, hins]
    exact (h.definitions b hb i hib ins hins).filterMap fun _ _ _ h h' => by
      simp_all
  · intro i j hi hj hne v hvi hvj
    exact hne ((hstands i hi v hvi).eq (hstands j hj v hvj) h.wired)

theorem lookup_definitionsIn (hd : a.StandsFor f d v) :
    (definitionsIn a f).lookup v = some d := by
  cases hlookup : (definitionsIn a f).lookup v with
  | none =>
    have := List.lookup_eq_none_iff.mp hlookup _ (mem_definitionsIn.mpr hd)
    simp at this
  | some e => rw [(mem_definitionsIn.mp (mem_of_lookup hlookup)).eq hd h.wired]

include hs

theorem lists_definitionsIn (hdistinct : a.InstrsDistinct f) : Edit.Lists a₁ g.valueCount
    (a₁.placed (region.blocks ++ [g.finish])) (definitionsIn a f) where
  eq := by
    rw [definitionsIn, List.map_flatMap, ← hs.scope_blocks, placed, placed, hs.body]
    refine List.flatMap_congr fun p hp => ?_
    obtain ⟨b, hb, hp⟩ := List.mem_flatMap.mp hp
    obtain ⟨i, hi, rfl⟩ := List.mem_map.mp hp
    obtain ⟨ins, hins⟩ := h.wired.instr b hb i hi
    rw [hs.definitionsOf_eq hins, definitionsOf, hins, List.map_map]
    have hsome := map_some_reduceOption (l := ins.definitions) fun o ho => by
      obtain ⟨v, x, rfl, -⟩ := h.wired.definition b hb i hi ins hins o ho
      rfl
    conv_rhs => rw [← hsome, List.map_map]
    rfl
  defines := by
    rintro ⟨v, d⟩ hd
    have hstands := mem_definitionsIn.mp hd
    obtain ⟨x, hx, hby⟩ := hstands.definedBy h.wired
    exact ⟨x, hs.values ▸ hx, hby, h.index v x (defined_iff_standsFor.mpr ⟨d, hstands⟩) hx⟩
  nodup := h.nodup_definitionsIn hdistinct

theorem precedes (hw : a.FlowsWithin f) (hdistinct : a.InstrsDistinct f) {reader : Option InstrId}
    (hasked : a.AskedAt f u b reader) (hb : b ∈ (a.scopeOf f).blocks)
    (hreader : ∀ i, reader = some i → i ∈ a.body b)
    (huse : a.uses[u.idx]? = some use) (hval : use.value = some v) (hd : a.StandsFor f d v) :
    a₁.Precedes tree d (some b) reader := by
  obtain ⟨home, hhome, hmem, dns, hdns, hplace⟩ := h.home_of_standsFor hd
  refine (hs.precedes_iff hw hdistinct hhome hmem hdns hplace hb (k := a.placeOf b reader)
    (fun i hi => ?_) fun hnone => by rw [hnone, placeOf]).mpr
    (h.readings.order u b reader hasked use v d huse hval hd)
  subst hi
  exact ⟨getElem?_idxOf_of_mem (hreader i rfl), h.wired.instr b hb i (hreader i rfl)⟩

theorem useFits (hw : a.FlowsWithin f) (hdistinct : a.InstrsDistinct f)
    (hb : b ∈ (a.scopeOf f).blocks) (hi : i ∈ a.body b)
    (hins : a.instrs[i.idx]? = some ins) (hu : some u ∈ ins.sources) :
    a₁.UseFits tree (definitionsIn a f) i u := by
  obtain ⟨use, v, huse, hval, hdef, huser, hguards⟩ := h.wired.use_of_source hb hi hins hu
  obtain ⟨use', v', x, k, huse', hval', hx, hslot, hk⟩ :=
    h.listed u (.inl ⟨b, hb, i, hi, ins, hins, hu⟩)
  cases huse.symm.trans huse'
  cases hval.symm.trans hval'
  obtain ⟨d, hd⟩ := defined_iff_standsFor.mp hdef
  have hins₁ := hs.instr i
  rw [hins, Option.map_some] at hins₁
  have hplace : ins.block = some b := by
    obtain ⟨-, ins', -, hins', hblock, -⟩ := h.fits b hb i hi
    cases hins.symm.trans hins'
    exact hblock
  refine ⟨_, use, v, x, d, hins₁, hs.uses ▸ huse, hval, hs.values ▸ hx, huser, hguards, ?_,
    hs.lanesFit_iff.mpr (h.readings.lanes b hb i hi ins hins u hu use v x huse hval hx),
    h.lookup_definitionsIn hd, ?_⟩
  · rw [hguards] at hk
    rw [hslot]
    exact hk
  · split
    case h_1 pred hincoming =>
      exact h.precedes hs hw hdistinct (.incoming hb hi hins hu hincoming)
        (h.preds b hb i hi ins hins u pred hincoming) (by simp) huse hval hd
    case h_2 hincoming =>
      change a₁.Precedes tree d ins.block (some i)
      rw [hplace]
      refine h.precedes hs hw hdistinct (.source hb hi hins hu hincoming) hb ?_ huse hval hd
      intro j hj
      cases hj
      exact hi

theorem conditionFits (hw : a.FlowsWithin f) (hdistinct : a.InstrsDistinct f)
    (hc : (c, before) ∈ region.branches none) :
    a₁.ConditionFits tree (definitionsIn a f) c before := by
  have hif : c ∈ (a.scopeOf f).ifs := hs.scope_ifs ▸ List.mem_map_of_mem hc
  obtain ⟨con, u, yes, no, use, v, hcon, hshape, huse, hval, hdef, hguards, huser⟩ :=
    h.wired.condition c hif
  obtain ⟨use', v', x, k, huse', hval', hx, hslot, hk⟩ :=
    h.listed u (.inr ⟨c, hif, con, yes, no, hcon, hshape⟩)
  cases huse.symm.trans huse'
  cases hval.symm.trans hval'
  obtain ⟨d, hd⟩ := defined_iff_standsFor.mp hdef
  refine ⟨con, u, yes, no, use, v, x, d, (constructs_of_code hs.code).symm ▸ hcon, hshape,
    hs.uses ▸ huse, hval, hs.values ▸ hx, hguards, huser, ?_,
    h.lookup_definitionsIn hd, fun b hb => ?_⟩
  · rw [hguards] at hk
    rw [hslot]
    exact hk
  · subst hb
    refine h.precedes hs hw hdistinct (.condition h.bodyRegion hc hcon hshape) ?_ (by simp) huse
      hval hd
    rw [hs.scope_blocks, Region.blocks_eq_preorder]
    exact List.mem_append_left _ ((mem_branches hc).resolve_left (by simp))

end

/-- A function that obeys the rules passes the check. -/
theorem accepted (h : a.Obeys f g region) (hw : a.FlowsWithin f) (hdistinct : a.InstrsDistinct f) :
    a.Accepted f := by
  obtain ⟨a₁, tree, hs⟩ := h.exists_surveyed hw
  refine Checked.accepted ⟨hs, fun b hb => ?_, h.lists_definitionsIn hs hdistinct, fun p hp => ?_,
    fun p hp ins₁ hins₁ s hmem => ?_, fun p hp => h.conditionFits hs hw hdistinct hp,
    fun p hp => ?_⟩
  · obtain ⟨bb, hbb⟩ := hs.present b hb
    rw [hs.block, hbb]
    rfl
  · obtain ⟨hb, hi⟩ := hs.exists_of_placed hp
    exact (h.fits p.1 hb p.2 hi).congr (congrArg (·.values) hs.code)
      (congrArg (·.instrs) hs.code) (congrArg (·.blocks) hs.code)
  · obtain ⟨hb, hi⟩ := hs.exists_of_placed hp
    rw [hs.instr, Option.map_eq_some_iff] at hins₁
    obtain ⟨ins, hins, rfl⟩ := hins₁
    obtain ⟨u, use, v, rfl, -⟩ := h.wired.source p.1 hb p.2 hi ins hins s hmem
    exact ⟨u, rfl, h.useFits hs hw hdistinct hb hi hins hmem⟩
  · have hdef := defined_iff_standsFor.mpr ⟨p.2, mem_definitionsIn.mp hp⟩
    exact (h.lists p.1 hdef).congr hs.values hs.uses (congrArg (·.instrs) hs.code)

end Obeys

end Arena

end ShaderCompiler
