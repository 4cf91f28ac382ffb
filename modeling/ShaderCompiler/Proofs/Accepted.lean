import ShaderCompiler.Proofs.Check.Uses
import ShaderCompiler.Proofs.Wiring

/-!
# Functions that pass the check

A function that passes the check has a scope in which every reference leads somewhere, and the
uses that its instructions and conditions read are listed by their values. The check does not
look at the way back: whether an entry of a use-list reads the value that lists it, and whether
it is a source or condition of the function at all. Both are stated here as conditions of their
own, since passes rely on them.
-/

namespace ShaderCompiler

namespace Arena

variable {a a₁ : Arena} {f : FunctionId} {g : Function} {region : Region} {tree : Dominance}
  {defs : Edit.Definitions}

/-- The function passes the check. -/
def Accepted (a : Arena) (f : FunctionId) : Prop :=
  ∃ a', Edit.check f a = .ok none a'

/-- An instruction of the blocks defines the value. -/
def DefinedIn (a : Arena) (blocks : List BlockId) (v : ValueId) : Prop :=
  ∃ b ∈ blocks, ∃ i ∈ a.body b, ∃ ins, a.instrs[i.idx]? = some ins ∧ some v ∈ ins.definitions

/-- The blocks, conditions and values of a function. -/
def scopeOf (a : Arena) (f : FunctionId) : Scope where
  blocks := (a.blocksOf f).toOption.getD []
  ifs := (a.bodyRegion f).toOption.elim [] fun r => (r.branches none).map Prod.fst
  defined := a.DefinedIn ((a.blocksOf f).toOption.getD [])

/-- The uses that a value of the scopes lists read this value, sources and conditions apart. -/
def ListsRead (a : Arena) (Ts : List Scope) : Prop :=
  ∀ v, DefinedBy Ts v → ∀ x, a.values[v.idx]? = some x → ∀ c, ∀ u ∈ x.usesOf c,
    ∃ use, a.uses[u.idx]? = some use ∧ use.value = some v ∧ use.guards.isSome = c

/-- The uses that a value of the scopes lists are sources and conditions of the scopes. -/
def ListsOwn (a : Arena) (Ts : List Scope) : Prop :=
  ∀ v, DefinedBy Ts v → ∀ x, a.values[v.idx]? = some x → ∀ c, ∀ u ∈ x.usesOf c,
    ∃ T ∈ Ts, a.Reads T u

/-- A use that the scopes read or that one of their values lists. -/
def InUse (a : Arena) (Ts : List Scope) (u : UseId) : Prop :=
  (∃ T ∈ Ts, a.Reads T u)
    ∨ ∃ v x c, DefinedBy Ts v ∧ a.values[v.idx]? = some x ∧ u ∈ x.usesOf c

/-! ### The outcome of the check -/

theorem code_numberBlocks (a : Arena) (blocks : List BlockId) (k : Nat) :
    (a.numberBlocks blocks k).code = a.code := by
  induction blocks generalizing a k with
  | nil => rfl
  | cons b blocks ih =>
    refine (ih (a.modifyBlock b fun bb => { bb with index := k }) (k + 1)).trans ?_
    exact code_modifyBlock_of_bare fun _ => rfl

theorem code_numberInstrs (a : Arena) (instrs : List InstrId) (k : Nat) :
    (a.numberInstrs instrs k).code = a.code := by
  induction instrs generalizing a k with
  | nil => rfl
  | cons i instrs ih =>
    refine (ih (a.modifyInstr i fun ins => { ins with index := k }) (k + 1)).trans ?_
    exact code_modifyInstr_of_bare fun _ => rfl

theorem code_numbered (a : Arena) (blocks : List BlockId) : (a.numbered blocks).code = a.code :=
  (code_numberInstrs _ _ 0).trans (code_numberBlocks a blocks 0)

/-- A function of the right shape is analysed, which leaves an arena `a₁` with the same code. -/
structure Surveyed (a : Arena) (f : FunctionId) (a₁ : Arena) (g : Function) (region : Region)
    (tree : Dominance) : Prop where
  function : a.functions[f.idx]? = some g
  bodyRegion : a.bodyRegion f = .ok region
  shaped : region.Shaped a (.function f)
  run : Edit.analyse f a = .ok () a₁
  present : ∀ b ∈ region.blocks ++ [g.finish], ∃ bb, a.blocks[b.idx]? = some bb
  code : a₁.code = a.code
  values : a₁.values = a.values
  uses : a₁.uses = a.uses
  block : ∀ b : BlockId, a₁.blocks[b.idx]? = (a.blocks[b.idx]?).map fun bb =>
    { bb with index := lastPosition b (region.blocks ++ [g.finish]) 0 bb.index }
  instr : ∀ i : InstrId, a₁.instrs[i.idx]? = (a.instrs[i.idx]?).map fun ins =>
    { ins with index := lastPosition i ((region.blocks ++ [g.finish]).flatMap a.body) 0 ins.index }
  dominance : a₁.dominanceOf (region.blocks ++ [g.finish]) = .ok tree
  analysed : a₁.Analysed f { g with valid := .all, dominance := some tree } tree

/-- What a successful check leaves behind: the function is analysed and obeys the rules. -/
structure Checked (a : Arena) (f : FunctionId) (a₁ : Arena) (g : Function) (region : Region)
    (tree : Dominance) (defs : Edit.Definitions) : Prop extends
    a.Surveyed f a₁ g region tree where
  fits : a₁.SsaFits g tree region defs

theorem blocksOf_eq_ok {blocks : List BlockId} (hg : a.functions[f.idx]? = some g)
    (hregion : a.bodyRegion f = .ok region) :
    a.blocksOf f = .ok blocks ↔ region.blocks ++ [g.finish] = blocks := by
  have hr : a.region g.body = .ok region := by
    simpa [bodyRegion, hg] using hregion
  simp [blocksOf, blocksIn, hg, hr]

theorem scopeOf_blocks (hg : a.functions[f.idx]? = some g) (hregion : a.bodyRegion f = .ok region) :
    (a.scopeOf f).blocks = region.blocks ++ [g.finish] := by
  simp [scopeOf, (blocksOf_eq_ok hg hregion).mpr rfl, Except.toOption]

theorem scopeOf_ifs (hregion : a.bodyRegion f = .ok region) :
    (a.scopeOf f).ifs = (region.branches none).map Prod.fst := by
  simp [scopeOf, hregion, Except.toOption]

/-- What computing the analyses of a function of the right shape leaves behind. -/
theorem surveyed_of_analyse (hregion : a.bodyRegion f = .ok region)
    (hshaped : region.Shaped a (.function f)) (hrun : Edit.analyse f a = .ok () a₁) :
    ∃ g tree, a.Surveyed f a₁ g region tree := by
  obtain ⟨blocks, tree, hb, hex, hins, htree, rfl⟩ := Edit.analyse_eq_ok.mp hrun
  obtain ⟨g, hg⟩ : ∃ g, a.functions[f.idx]? = some g := by
    cases hg : a.functions[f.idx]? with
    | none => simp [blocksOf, hg] at hb
    | some g => exact ⟨g, rfl⟩
  obtain rfl := (blocksOf_eq_ok hg hregion).mp hb
  refine ⟨g, tree, hg, hregion, hshaped, hrun, fun b hb => Option.isSome_iff_exists.mp (hex b hb),
    ?_, rfl, rfl, numberBlocks_blocks a _ 0, numberInstrs_instrs (a.numberBlocks _ 0) _ 0, htree, ?_,
    rfl, rfl⟩
  · refine Eq.trans (code_modifyFunction_of_bare ?_) (code_numbered a _)
    exact fun _ => rfl
  · rw [modifyFunction_functions_get, if_pos rfl,
      show (a.numbered _).functions[f.idx]? = some g from hg, Option.map_some]

theorem Accepted.checked (h : a.Accepted f) :
    ∃ a₁ g region tree defs, a.Checked f a₁ g region tree defs := by
  obtain ⟨a₁, h⟩ := h
  obtain ⟨region, hregion, hshaped, hrun, g₁, tree₁, defs, hana, hfits⟩ :=
    Edit.check_eq_none.mp h
  obtain ⟨g, tree, hs⟩ := surveyed_of_analyse hregion hshaped hrun
  obtain rfl : g₁ = { g with valid := .all, dominance := some tree } :=
    Option.some.inj (hana.function.symm.trans hs.analysed.function)
  obtain rfl : tree = tree₁ := Option.some.inj hana.dominance
  exact ⟨a₁, g, region, tree, defs, hs, hfits.block, hfits.lists, hfits.instr, hfits.source,
    hfits.condition, hfits.useLists⟩

theorem Checked.accepted (h : a.Checked f a₁ g region tree defs) : a.Accepted f :=
  ⟨a₁, Edit.check_eq_none.mpr ⟨region, h.bodyRegion, h.shaped, h.run, _, tree, defs, h.analysed,
    h.fits.block, h.fits.lists, h.fits.instr, h.fits.source, h.fits.condition, h.fits.useLists⟩⟩

theorem mem_of_lookup {α β : Type} [BEq α] [LawfulBEq α] {l : List (α × β)} {x : α} {y : β}
    (h : l.lookup x = some y) : (x, y) ∈ l := by
  obtain ⟨l₁, l₂, rfl, -⟩ := List.lookup_eq_some_iff.mp h
  simp

namespace Surveyed

variable (h : a.Surveyed f a₁ g region tree)

include h

theorem blocksOf : a.blocksOf f = .ok (region.blocks ++ [g.finish]) :=
  (blocksOf_eq_ok h.function h.bodyRegion).mpr rfl

theorem scope_blocks : (a.scopeOf f).blocks = region.blocks ++ [g.finish] :=
  scopeOf_blocks h.function h.bodyRegion

theorem scope_ifs : (a.scopeOf f).ifs = (region.branches none).map Prod.fst :=
  scopeOf_ifs h.bodyRegion

theorem body : a₁.body = a.body :=
  body_of_code h.code

variable {b : BlockId} {i : InstrId} {ins : Instr}

theorem mem_placed (hb : b ∈ (a.scopeOf f).blocks) (hi : i ∈ a.body b) :
    (b, i) ∈ a₁.placed (region.blocks ++ [g.finish]) := by
  rw [h.scope_blocks] at hb
  exact List.mem_flatMap.mpr ⟨b, hb, List.mem_map.mpr ⟨i, h.body ▸ hi, rfl⟩⟩

theorem definitionsOf_eq (hins : a.instrs[i.idx]? = some ins) :
    a₁.definitionsOf i = ins.definitions := by
  rw [definitionsOf, h.instr, hins]
  rfl

theorem exists_of_placed {p : BlockId × InstrId}
    (hp : p ∈ a₁.placed (region.blocks ++ [g.finish])) :
    p.1 ∈ (a.scopeOf f).blocks ∧ p.2 ∈ a.body p.1 := by
  obtain ⟨b, hb, hp⟩ := List.mem_flatMap.mp hp
  obtain ⟨i, hi, rfl⟩ := List.mem_map.mp hp
  exact ⟨h.scope_blocks ▸ hb, h.body ▸ hi⟩

end Surveyed

namespace Checked

variable {b : BlockId} {i : InstrId} {ins : Instr} {v : ValueId} {u : UseId}

section

variable (h : a.Checked f a₁ g region tree defs)

include h

theorem exists_instr (hb : b ∈ (a.scopeOf f).blocks) (hi : i ∈ a.body b) :
    ∃ ins, a.instrs[i.idx]? = some ins ∧ ins.block = some b := by
  obtain ⟨bb, ins₁, -, hins₁, hblock, -⟩ := h.fits.instr _ (h.mem_placed hb hi)
  rw [h.instr, Option.map_eq_some_iff] at hins₁
  obtain ⟨ins, hins, rfl⟩ := hins₁
  exact ⟨ins, hins, hblock⟩

/-- The definitions of the check are those of the instructions of the scope. -/
theorem mem_defs : (v, i) ∈ defs ↔ ∃ b ∈ (a.scopeOf f).blocks, i ∈ a.body b
    ∧ ∃ ins, a.instrs[i.idx]? = some ins ∧ some v ∈ ins.definitions := by
  have hmem : (v, i) ∈ defs ↔ (some v, i) ∈ defs.map fun d => (some d.1, d.2) := by
    simp [List.mem_map]
  rw [hmem, h.fits.lists.eq, List.mem_flatMap]
  constructor
  · rintro ⟨p, hp, hv⟩
    obtain ⟨d, hd, heq⟩ := List.mem_map.mp hv
    cases heq
    obtain ⟨hb, hi⟩ := h.exists_of_placed hp
    obtain ⟨ins, hins, -⟩ := h.exists_instr hb hi
    exact ⟨p.1, hb, hi, ins, hins, h.definitionsOf_eq hins ▸ hd⟩
  · rintro ⟨b, hb, hi, ins, hins, hv⟩
    exact ⟨(b, i), h.mem_placed hb hi, List.mem_map.mpr
      ⟨some v, (h.definitionsOf_eq hins).symm ▸ hv, rfl⟩⟩

theorem defined_iff : (a.scopeOf f).defined v ↔ ∃ i, (v, i) ∈ defs := by
  simp only [h.mem_defs]
  constructor
  · rintro ⟨b, hb, i, hi, ins, hins, hv⟩
    exact ⟨i, b, hb, hi, ins, hins, hv⟩
  · rintro ⟨i, b, hb, hi, ins, hins, hv⟩
    exact ⟨b, hb, i, hi, ins, hins, hv⟩

/-- A missing destination does not pass. -/
theorem exists_of_mem_definitions (hb : b ∈ (a.scopeOf f).blocks) (hi : i ∈ a.body b)
    (hins : a.instrs[i.idx]? = some ins) {d : Option ValueId} (hd : d ∈ ins.definitions) :
    ∃ v, d = some v ∧ (v, i) ∈ defs := by
  have hmem : (d, i) ∈ defs.map fun d => (some d.1, d.2) := by
    rw [h.fits.lists.eq]
    exact List.mem_flatMap.mpr ⟨(b, i), h.mem_placed hb hi, List.mem_map.mpr
      ⟨d, (h.definitionsOf_eq hins).symm ▸ hd, rfl⟩⟩
  obtain ⟨p, hp, heq⟩ := List.mem_map.mp hmem
  cases heq
  exact ⟨p.1, rfl, hp⟩

/-- The instruction that the check knows for a value stands in the scope and defines it. -/
theorem value_of_mem_defs (hd : (v, i) ∈ defs) : ∃ x, a.values[v.idx]? = some x
    ∧ x.definedBy = some i ∧ 0 ≤ x.index ∧ x.index < g.valueCount := by
  obtain ⟨x, hx, hdef⟩ := h.fits.lists.defines _ hd
  exact ⟨x, h.values ▸ hx, hdef⟩

theorem wired : a.Wired (a.scopeOf f) where
  block b hb := h.present b (h.scope_blocks ▸ hb)
  instr b hb i hi := by
    obtain ⟨ins, hins, -⟩ := h.exists_instr hb hi
    exact ⟨ins, hins⟩
  definition b hb i hi ins hins d hd := by
    obtain ⟨v, rfl, hv⟩ := h.exists_of_mem_definitions hb hi hins hd
    obtain ⟨x, hx, hdef, -⟩ := h.value_of_mem_defs hv
    exact ⟨v, x, rfl, h.defined_iff.mpr ⟨i, hv⟩, hx, hdef⟩
  source b hb i hi ins hins s hs := by
    have hins₁ := h.instr i
    rw [hins, Option.map_some] at hins₁
    obtain ⟨u, rfl, _, use, v, x, d, -, huse, hval, -, huser, hguards, -, -, hd, -⟩ :=
      h.fits.source _ (h.mem_placed hb hi) _ hins₁ s hs
    exact ⟨u, use, v, rfl, h.uses ▸ huse, hval, h.defined_iff.mpr ⟨d, mem_of_lookup hd⟩, huser,
      hguards⟩
  condition c hc := by
    rw [h.scope_ifs] at hc
    obtain ⟨p, hp, rfl⟩ := List.mem_map.mp hc
    obtain ⟨con, u, yes, no, use, v, x, d, hcon, hshape, huse, hval, -, hguards, huser, -, hd, -⟩ :=
      h.fits.condition p hp
    exact ⟨con, u, yes, no, use, v, constructs_of_code h.code ▸ hcon, hshape, h.uses ▸ huse, hval,
      h.defined_iff.mpr ⟨d, mem_of_lookup hd⟩, hguards, huser⟩
  value v hv := by
    obtain ⟨i, hd⟩ := h.defined_iff.mp hv
    obtain ⟨x, hx, -⟩ := h.value_of_mem_defs hd
    exact ⟨x, hx⟩

/-- No two places of the function have a definition in common. -/
theorem nodup_definitionsOf : (defs.map fun d => (some d.1, d.2)).Nodup := by
  refine List.Nodup.of_map Prod.fst ?_
  rw [List.map_map, show (Prod.fst ∘ fun d : ValueId × InstrId => (some d.1, d.2))
    = some ∘ Prod.fst from rfl, ← List.map_map]
  exact h.fits.lists.nodup.map (Option.some_injective _)

/-- An instruction that defines something stands in its block once, since its values would be
defined twice. -/
theorem count_eq_one (hb : b ∈ (a.scopeOf f).blocks) (hi : i ∈ a.body b)
    (hins : a.instrs[i.idx]? = some ins) (hdef : ins.definitions ≠ []) :
    (a.body b).count i = 1 := by
  have hpos : 0 < (a.body b).count i := List.count_pos_iff.mpr hi
  refine Nat.le_antisymm (Nat.le_of_not_lt fun htwo => hdef ?_) hpos
  have hnodup := h.nodup_definitionsOf
  rw [h.fits.lists.eq, List.nodup_flatMap] at hnodup
  have hpairs := (List.pairwise_map.mp ((List.pairwise_flatMap.mp hnodup.2).1 b
    (h.scope_blocks ▸ hb)))
  rw [h.body] at hpairs
  have htwice := hpairs.sublist (List.duplicate_iff_sublist.mp
    (List.duplicate_iff_two_le_count.mpr htwo))
  have hdisjoint := (List.pairwise_cons.mp htwice).1 i List.mem_cons_self
  rw [Function.onFun, h.definitionsOf_eq hins] at hdisjoint
  exact List.eq_nil_iff_forall_not_mem.mpr fun d hd =>
    hdisjoint (List.mem_map_of_mem hd) (List.mem_map_of_mem hd)

theorem homed : a.Homed (a.scopeOf f) where
  place b hb i hi ins hins := by
    obtain ⟨ins', hins', hblock⟩ := h.exists_instr hb hi
    cases hins.symm.trans hins'
    exact hblock
  once b hb i hi ins hins hdef := h.count_eq_one hb hi hins hdef
  definer v hv := by
    obtain ⟨i, hd⟩ := h.defined_iff.mp hv
    obtain ⟨x, hx, hdef, -⟩ := h.value_of_mem_defs hd
    obtain ⟨b, hb, hi, ins, hins, hv⟩ := h.mem_defs.mp hd
    refine ⟨x, i, ins, hx, hdef, hins, hv, fun b' hb' => ?_⟩
    obtain ⟨ins', hins', hblock⟩ := h.exists_instr hb hi
    cases hins.symm.trans hins'
    cases hblock.symm.trans hb'
    exact ⟨hb, hi⟩

/-- A use that the function reads stands in the use-list of its value. -/
theorem listed (hu : a.Reads (a.scopeOf f) u) : ∃ use v x k, a.uses[u.idx]? = some use
    ∧ use.value = some v ∧ (a.scopeOf f).defined v ∧ a.values[v.idx]? = some x
    ∧ use.slot = some k ∧ (x.usesOf use.guards.isSome)[k]? = some u := by
  rcases hu with ⟨b, hb, i, hi, ins, hins, hs⟩ | ⟨c, hc, con, yes, no, hcon, hshape⟩
  · have hins₁ := h.instr i
    rw [hins, Option.map_some] at hins₁
    obtain ⟨_, heq, _, use, v, x, d, -, huse, hval, hx, -, hguards, hslot, -, hd, -⟩ :=
      h.fits.source _ (h.mem_placed hb hi) _ hins₁ (some u) hs
    cases heq
    obtain ⟨k, hk, hxk⟩ := Option.bind_eq_some_iff.mp hslot
    exact ⟨use, v, x, k, h.uses ▸ huse, hval, h.defined_iff.mpr ⟨d, mem_of_lookup hd⟩,
      h.values ▸ hx, hk, by rw [hguards]; exact hxk⟩
  · rw [h.scope_ifs] at hc
    obtain ⟨p, hp, rfl⟩ := List.mem_map.mp hc
    obtain ⟨con', u', _, _, use, v, x, d, hcon', hshape', huse, hval, hx, hguards, -, hslot, hd, -⟩ :=
      h.fits.condition p hp
    rw [constructs_of_code h.code, hcon] at hcon'
    cases hcon'
    cases hshape.symm.trans hshape'
    obtain ⟨k, hk, hxk⟩ := Option.bind_eq_some_iff.mp hslot
    exact ⟨use, v, x, k, h.uses ▸ huse, hval, h.defined_iff.mpr ⟨d, mem_of_lookup hd⟩,
      h.values ▸ hx, hk, by rw [hguards]; exact hxk⟩

/-- The entries of a use-list know their places. -/
theorem slot_of_entry {x : Value} (hv : (a.scopeOf f).defined v) (hx : a.values[v.idx]? = some x)
    {c : Bool} {k : Nat} (hk : (x.usesOf c)[k]? = some u) :
    ∃ use, a.uses[u.idx]? = some use ∧ use.slot = some k := by
  obtain ⟨d, hd⟩ := h.defined_iff.mp hv
  obtain ⟨x', hx', huses, hconditions⟩ := h.fits.useLists _ hd
  rw [h.values, hx] at hx'
  cases hx'
  cases c with
  | false =>
    obtain ⟨use, _, _, huse, hslot, -⟩ := huses u k hk
    exact ⟨use, h.uses ▸ huse, hslot⟩
  | true =>
    obtain ⟨use, _, huse, hslot, -⟩ := hconditions u k hk
    exact ⟨use, h.uses ▸ huse, hslot⟩

end

end Checked

/-! ### The use-lists of functions that pass -/

section Lists

variable {fs : List FunctionId}

theorem definedBy_scopes {v : ValueId} :
    DefinedBy (fs.map a.scopeOf) v ↔ ∃ f ∈ fs, (a.scopeOf f).defined v := by
  simp [DefinedBy]

/-- If the lists of functions that pass the check hold only uses that read the value, then lists
and uses agree. -/
theorem useLists_of_accepted (hacc : ∀ f ∈ fs, a.Accepted f)
    (hlists : a.ListsRead (fs.map a.scopeOf)) :
    a.UseLists (DefinedBy (fs.map a.scopeOf)) (a.InUse (fs.map a.scopeOf)) := by
  have hentry : ∀ v x, DefinedBy (fs.map a.scopeOf) v → a.values[v.idx]? = some x →
      ∀ (c : Bool) (k : Nat) (u : UseId), (x.usesOf c)[k]? = some u → ∃ use,
        a.uses[u.idx]? = some use ∧ use.slot = some k ∧ use.value = some v
          ∧ use.guards.isSome = c := by
    intro v x hv hx c k u hk
    obtain ⟨f, hf, hdef⟩ := definedBy_scopes.mp hv
    obtain ⟨a₁, g, region, tree, defs, hc⟩ := (hacc f hf).checked
    obtain ⟨use, huse, hslot⟩ := hc.slot_of_entry hdef hx hk
    obtain ⟨use', huse', hval, hguards⟩ := hlists v hv x hx c u (List.mem_of_getElem? hk)
    cases huse.symm.trans huse'
    exact ⟨use, huse, hslot, hval, hguards⟩
  refine ⟨fun v hv => ?_, hentry, fun u hu => ?_, fun v x hv hx c u hu => Or.inr ⟨v, x, c, hv, hx, hu⟩⟩
  · obtain ⟨f, hf, hdef⟩ := definedBy_scopes.mp hv
    obtain ⟨a₁, g, region, tree, defs, hc⟩ := (hacc f hf).checked
    exact hc.wired.value v hdef
  · rcases hu with ⟨T, hT, hu⟩ | ⟨v, x, c, hv, hx, hu⟩
    · obtain ⟨f, hf, rfl⟩ := List.mem_map.mp hT
      obtain ⟨a₁, g, region, tree, defs, hc⟩ := (hacc f hf).checked
      obtain ⟨use, v, x, k, huse, hval, hdef, hx, hslot, hk⟩ := hc.listed hu
      refine ⟨use, v, x, huse, hval, definedBy_scopes.mpr ⟨f, hf, hdef⟩, hx, fun k' hk' => ?_⟩
      cases hslot.symm.trans hk'
      exact hk
    · obtain ⟨k, hk⟩ := List.mem_iff_getElem?.mp hu
      obtain ⟨use, huse, hslot, hval, hguards⟩ := hentry v x hv hx c k u hk
      refine ⟨use, v, x, huse, hval, hv, hx, fun k' hk' => ?_⟩
      cases hslot.symm.trans hk'
      exact hguards ▸ hk

end Lists

/-! ### Deciding the conditions -/

section Decidable

instance (f : FunctionId) : Decidable (a.Accepted f) :=
  match h : Edit.check f a with
  | .ok none a' => isTrue ⟨a', h⟩
  | .ok (some _) _ => isFalse fun ⟨_, h'⟩ => by simp [h] at h'
  | .error _ _ => isFalse fun ⟨_, h'⟩ => by simp [h] at h'

/-- The values that a function defines. -/
def valuesOf (a : Arena) (f : FunctionId) : List ValueId :=
  ((a.scopeOf f).blocks.flatMap a.body).flatMap fun i =>
    (a.instrs[i.idx]?).elim [] fun ins => ins.definitions.reduceOption

/-- The uses that a function reads. -/
def readsOf (a : Arena) (f : FunctionId) : List UseId :=
  (((a.scopeOf f).blocks.flatMap a.body).flatMap fun i =>
    (a.instrs[i.idx]?).elim [] fun ins => ins.sources.reduceOption)
  ++ (a.scopeOf f).ifs.flatMap fun c =>
    match (a.constructs[c.idx]?).map Construct.shape with
    | some (.branch (some u) _ _) => [u]
    | _ => []

theorem mem_flatMap_body {α : Type} {x : α} {k : Instr → List (Option α)} :
    (∃ i, (∃ b ∈ (a.scopeOf f).blocks, i ∈ a.body b)
      ∧ x ∈ (a.instrs[i.idx]?).elim [] fun ins => (k ins).reduceOption)
    ↔ ∃ b ∈ (a.scopeOf f).blocks, ∃ i ∈ a.body b, ∃ ins, a.instrs[i.idx]? = some ins
      ∧ some x ∈ k ins := by
  constructor
  · rintro ⟨i, ⟨b, hb, hi⟩, hx⟩
    cases hins : a.instrs[i.idx]? with
    | none => simp [hins] at hx
    | some ins =>
      rw [hins, Option.elim_some, List.reduceOption_mem_iff] at hx
      exact ⟨b, hb, i, hi, ins, hins, hx⟩
  · rintro ⟨b, hb, i, hi, ins, hins, hx⟩
    refine ⟨i, ⟨b, hb, hi⟩, ?_⟩
    rwa [hins, Option.elim_some, List.reduceOption_mem_iff]

theorem mem_valuesOf {v : ValueId} : v ∈ a.valuesOf f ↔ (a.scopeOf f).defined v := by
  simp only [valuesOf, List.mem_flatMap]
  exact mem_flatMap_body

theorem mem_readsOf {u : UseId} : u ∈ a.readsOf f ↔ a.Reads (a.scopeOf f) u := by
  simp only [readsOf, List.mem_append, List.mem_flatMap, Reads]
  refine or_congr mem_flatMap_body ⟨?_, ?_⟩
  · rintro ⟨c, hc, hu⟩
    split at hu
    case h_1 w yes no hshape =>
      obtain ⟨con, hcon, hshape⟩ := Option.map_eq_some_iff.mp hshape
      rw [List.mem_singleton.mp hu]
      exact ⟨c, hc, con, yes, no, hcon, hshape⟩
    case h_2 => simp at hu
  · rintro ⟨c, hc, con, yes, no, hcon, hshape⟩
    exact ⟨c, hc, by simp [hcon, hshape]⟩

instance (fs : List FunctionId) : Decidable (a.ListsRead (fs.map a.scopeOf)) :=
  decidable_of_iff (∀ f ∈ fs, ∀ v ∈ a.valuesOf f, ∀ x ∈ a.values[v.idx]?, ∀ c : Bool,
      ∀ u ∈ x.usesOf c, ∃ use ∈ a.uses[u.idx]?, use.value = some v ∧ use.guards.isSome = c) <| by
    simp only [ListsRead, definedBy_scopes, mem_valuesOf, Option.mem_def]
    exact ⟨fun h v ⟨f, hf, hv⟩ => h f hf v hv, fun h f hf v hv => h v ⟨f, hf, hv⟩⟩

instance (fs : List FunctionId) : Decidable (a.ListsOwn (fs.map a.scopeOf)) :=
  decidable_of_iff (∀ f ∈ fs, ∀ v ∈ a.valuesOf f, ∀ x ∈ a.values[v.idx]?, ∀ c : Bool,
      ∀ u ∈ x.usesOf c, ∃ f' ∈ fs, u ∈ a.readsOf f') <| by
    simp only [ListsOwn, definedBy_scopes, mem_valuesOf, mem_readsOf, Option.mem_def, List.mem_map,
      exists_exists_and_eq_and]
    exact ⟨fun h v ⟨f, hf, hv⟩ => h f hf v hv, fun h f hf v hv => h v ⟨f, hf, hv⟩⟩

instance : Decidable (a.ListsRead [a.scopeOf f]) :=
  inferInstanceAs (Decidable (a.ListsRead ([f].map a.scopeOf)))

instance : Decidable (a.ListsOwn [a.scopeOf f]) :=
  inferInstanceAs (Decidable (a.ListsOwn ([f].map a.scopeOf)))

end Decidable

end Arena

/-! ### A sample -/

namespace Edit

/-- The result of a run that succeeds. -/
def result? {α : Type} (x : Edit α) (a : Arena) : Option α :=
  match x a with
  | .ok y _ => some y
  | .error _ _ => none

theorem result?_eq_some {α : Type} {x : Edit α} {a : Arena} {y : α} :
    x.result? a = some y ↔ ∃ a', x a = .ok y a' := by
  unfold result?
  cases x a <;> simp

/-- What a run on the empty arena leaves. -/
def built {α : Type} (x : Edit α) : Arena :=
  match x .empty with
  | .ok _ a => a
  | .error _ a => a

/-- Stores a copy of a constant if the copy is not zero. -/
def guardedCopy : Edit Unit := do
  let c ← newFunction "main"
  let _ ← c.const [5]
  let _ ← c.mov (some ⟨0⟩) []
  let (_, c) ← c.openIf (some ⟨1⟩)
  let _ ← c.intrinsic ⟨5⟩ 0 [some ⟨1⟩]
  let (_, c) ← c.closeIf
  c.finish

example : guardedCopy.built.Accepted ⟨0⟩ := by decide +kernel

end Edit

end ShaderCompiler
