import ShaderCompiler.Proofs.Analysis
import ShaderCompiler.Proofs.Check.Values

/-!
# Uses that obey the rules

The part of the check that asks about dominance and use-lists. It runs on a function whose
analyses are all up to date, so that it never changes the arena.
-/

namespace ShaderCompiler

variable {y : Unit} {place : Option BlockId} {r : Bool} {i : InstrId} {u : UseId}
  {defs : Definitions} {v : ValueId} {k : Nat} {branches : List (ConstructId × Option BlockId)}

variable {a a' : Arena} {f : FunctionId} {g : Function} {tree : Dominance}

namespace Arena

/-- The analyses of a function are up to date. -/
structure Analysed (a : Arena) (f : FunctionId) (g : Function) (tree : Dominance) : Prop where
  function : a.functions[f.idx]? = some g
  valid : g.valid = .all
  dominance : g.dominance = some tree

/-- A definition comes before the end of a block, or before the instruction `reader` in it, or
the block can not be reached. -/
def Precedes (a : Arena) (tree : Dominance) (d : InstrId) (place : Option BlockId)
    (reader : Option InstrId) : Prop :=
  ∃ defining b bb depth, a.instrs[d.idx]? = some defining ∧ place = some b
    ∧ a.blocks[b.idx]? = some bb ∧ tree.depthAt bb.index = .ok depth
    ∧ (depth = none
      ∨ defining.block = some b ∧
        (∀ i, reader = some i → ∃ ins, a.instrs[i.idx]? = some ins ∧ defining.index < ins.index)
      ∨ defining.block ≠ some b ∧ ∃ home hb, defining.block = some home
        ∧ a.blocks[home.idx]? = some hb ∧ a.dominatesIn tree hb.index bb.index = .ok true)

/-- The lanes that a use reads are lanes of the value. -/
def LanesFit (a : Arena) (u : UseId) (comps : Nat) : Prop :=
  ∃ use n, a.uses[u.idx]? = some use ∧ a.reads u = .ok n ∧ n ≤ maxLanes
    ∧ ∀ lane ∈ use.swizzle.toList.take n, lane < comps

/-- A source belongs to its instruction, is listed by its value, reads lanes that are there, and
its value is defined before it is read. -/
def UseFits (a : Arena) (tree : Dominance) (defs : Edit.Definitions) (i : InstrId)
    (u : UseId) : Prop :=
  ∃ ins use v x d, a.instrs[i.idx]? = some ins ∧ a.uses[u.idx]? = some use ∧ use.value = some v
    ∧ a.values[v.idx]? = some x ∧ use.user = some i ∧ use.guards = none
    ∧ use.slot.bind (x.uses[·]?) = some u ∧ a.LanesFit u x.comps ∧ defs.lookup v = some d
    ∧ match ins.incoming u with
      | some pred => a.Precedes tree d (some pred) none
      | none => a.Precedes tree d ins.block (some i)

/-- A condition belongs to its `if`, is listed by its value, and its value is defined before the
end of the block in front of the `if`. -/
def ConditionFits (a : Arena) (tree : Dominance) (defs : Edit.Definitions) (c : ConstructId)
    (before : Option BlockId) : Prop :=
  ∃ con u yes no use v x d, a.constructs[c.idx]? = some con ∧ con.shape = .branch (some u) yes no
    ∧ a.uses[u.idx]? = some use ∧ use.value = some v ∧ a.values[v.idx]? = some x
    ∧ use.guards = some c ∧ use.user = none ∧ use.slot.bind (x.conditions[·]?) = some u
    ∧ defs.lookup v = some d ∧ ∀ b, before = some b → a.Precedes tree d (some b) none

/-- The entries of the use-lists of a value know their places and belong to instructions that
stand in blocks, and to known conditions. -/
def ListsFit (a : Arena) (branches : List (ConstructId × Option BlockId)) (v : ValueId) : Prop :=
  ∃ x, a.values[v.idx]? = some x
    ∧ (∀ (u : UseId) (k : Nat), x.uses[k]? = some u → ∃ use i ins,
      a.uses[u.idx]? = some use ∧ use.slot = some k ∧ use.user = some i
      ∧ a.instrs[i.idx]? = some ins ∧ ins.block.isSome = true ∧ some u ∈ ins.sources)
    ∧ ∀ (u : UseId) (k : Nat), x.conditions[k]? = some u → ∃ use c,
      a.uses[u.idx]? = some use ∧ use.slot = some k ∧ use.guards = some c
      ∧ c ∈ branches.map Prod.fst

/-- The instructions of blocks, each with its block. -/
def placed (a : Arena) (blocks : List BlockId) : List (BlockId × InstrId) :=
  blocks.flatMap fun b => (a.body b).map fun i => (b, i)

/-- What the check asks of the values of a function with the given region. -/
structure SsaFits (a : Arena) (g : Function) (tree : Dominance) (region : Region)
    (defs : Edit.Definitions) : Prop where
  block : ∀ b ∈ region.blocks ++ [g.finish], (a.blocks[b.idx]?).isSome = true
  lists : Edit.Lists a g.valueCount (a.placed (region.blocks ++ [g.finish])) defs
  instr : ∀ p ∈ a.placed (region.blocks ++ [g.finish]), a.InstrFits p.1 p.2
  source : ∀ p ∈ a.placed (region.blocks ++ [g.finish]), ∀ ins, a.instrs[p.2.idx]? = some ins →
    ∀ s ∈ ins.sources, ∃ u, s = some u ∧ a.UseFits tree defs p.2 u
  condition : ∀ p ∈ region.branches none, a.ConditionFits tree defs p.1 p.2
  useLists : ∀ d ∈ defs, a.ListsFit (region.branches none) d.1

end Arena

namespace Edit

theorem require_of_analysed (h : a.Analysed f g tree) (wanted : Analyses) :
    require f wanted a = .ok y a' ↔ a = a' := by
  simp [require, refresh, h.function, h.valid, Analyses.all]

theorem dominanceTree_of_analysed (h : a.Analysed f g tree) {t : Dominance} :
    dominanceTree f a = .ok t a' ↔ tree = t ∧ a = a' := by
  simp only [dominanceTree, bind_eq_ok, require_of_analysed h, look_eq_ok, Arena.function_eq_ok,
    liftM_eq_ok, present_eq_ok]
  constructor
  · rintro ⟨_, _, rfl, g', _, ⟨hg, rfl⟩, ht, rfl⟩
    cases h.function.symm.trans hg
    rw [h.dominance] at ht
    exact ⟨Option.some.inj ht, rfl⟩
  · rintro ⟨rfl, rfl⟩
    exact ⟨(), a, rfl, g, a, ⟨h.function, rfl⟩, h.dominance, rfl⟩

theorem isReachable_of_analysed (h : a.Analysed f g tree) :
    isReachable f place a = .ok r a' ↔
      (∃ b bb depth, place = some b ∧ a.blocks[b.idx]? = some bb
        ∧ tree.depthAt bb.index = .ok depth ∧ depth.isSome = r) ∧ a = a' := by
  simp only [isReachable, bind_eq_ok, dominanceTree_of_analysed h, look_eq_ok,
    except_bind_eq_ok, present_eq_ok, Arena.block_eq_ok, except_pure_eq_ok]
  constructor
  · rintro ⟨_, _, ⟨rfl, rfl⟩, ⟨b, hb, bb, hbb, depth, hd, hr⟩, rfl⟩
    exact ⟨⟨b, bb, depth, hb, hbb, hd, hr⟩, rfl⟩
  · rintro ⟨⟨b, bb, depth, hb, hbb, hd, hr⟩, rfl⟩
    exact ⟨tree, a, ⟨rfl, rfl⟩, ⟨b, hb, bb, hbb, depth, hd, hr⟩, rfl⟩

theorem dominates_of_analysed (h : a.Analysed f g tree) {x y : Option BlockId} :
    dominates f x y a = .ok r a' ↔
      (∃ d hb b bb, x = some d ∧ a.blocks[d.idx]? = some hb ∧ y = some b
        ∧ a.blocks[b.idx]? = some bb ∧ a.dominatesIn tree hb.index bb.index = .ok r)
        ∧ a = a' := by
  simp only [dominates, bind_eq_ok, dominanceTree_of_analysed h, look_eq_ok,
    except_bind_eq_ok, present_eq_ok, Arena.block_eq_ok]
  constructor
  · rintro ⟨_, _, ⟨rfl, rfl⟩, ⟨d, hd, hb, hhb, b, hy, bb, hbb, hr⟩, rfl⟩
    exact ⟨⟨d, hb, b, bb, hd, hhb, hy, hbb, hr⟩, rfl⟩
  · rintro ⟨⟨d, hb, b, bb, hd, hhb, hy, hbb, hr⟩, rfl⟩
    exact ⟨tree, a, ⟨rfl, rfl⟩, ⟨d, hd, hb, hhb, b, hy, bb, hbb, hr⟩, rfl⟩

theorem passes_dominanceProblems (h : a.Analysed f g tree) {d : InstrId}
    {reader : Option InstrId} {user : Edit String} :
    (dominanceProblems f d place reader user).Passes a (a.Precedes tree d place reader) := by
  refine (passes_look fun defining _ => passes_read (fun _ _ => isReachable_of_analysed h) fun r _ =>
    passes_ite passes_nil (passes_ite (?reads : Edit.Passes _ a (∀ i, reader = some i →
      ∃ ins, a.instrs[i.idx]? = some ins ∧ defining.index < ins.index))
      (passes_read (fun _ _ => dominates_of_analysed h)
        fun r' _ => passes_ite passes_nil (Reports.passes (by simp [Reports]))))).congr ?_
  case reads =>
    cases reader with
    | none => exact passes_nil.congr (by simp)
    | some i => exact (passes_look fun ins _ => passes_problemIf).congr (by simp)
  simp only [Arena.instr_eq_ok, Arena.Precedes]
  constructor
  · rintro ⟨defining, hdef, _, ⟨b, bb, depth, rfl, hbb, hdepth, rfl⟩, hcases⟩
    refine ⟨defining, b, bb, depth, hdef, rfl, hbb, hdepth, ?_⟩
    cases depth with
    | none => exact .inl rfl
    | some n =>
      by_cases hsame : defining.block = some b
      · exact .inr (.inl ⟨hsame, by simpa [hsame] using hcases⟩)
      · simp only [Option.isSome_some, Bool.not_true, Bool.false_eq_true, if_false, hsame] at hcases
        obtain ⟨r, ⟨home, hb, b', bb', hhome, hhb, hb', hbb', hdom⟩, hr⟩ := hcases
        cases hb'
        cases hbb.symm.trans hbb'
        obtain rfl : r = true := by simpa using hr
        exact .inr (.inr ⟨hsame, home, hb, hhome, hhb, hdom⟩)
  · rintro ⟨defining, b, bb, depth, hdef, rfl, hbb, hdepth, hcases⟩
    refine ⟨defining, hdef, depth.isSome, ⟨b, bb, depth, rfl, hbb, hdepth, rfl⟩, ?_⟩
    cases depth with
    | none => simp
    | some n =>
      rcases hcases with h0 | ⟨hsame, hreader⟩ | ⟨hother, home, hb, hhome, hhb, hdom⟩
      · cases h0
      · simpa [hsame] using hreader
      · simp only [Option.isSome_some, Bool.not_true, Bool.false_eq_true, if_false, hother]
        exact ⟨true, ⟨home, hb, b, bb, hhome, hhb, rfl, hbb, hdom⟩, by simp⟩

/-! ### Sources, conditions and use-lists -/

theorem passes_laneProblems {comps : Nat} : (laneProblems i u comps).Passes a (a.LanesFit u comps) := by
  refine (passes_look fun use _ => passes_look fun n _ => passes_unless (passes_ite passes_nil
    (Reports.passes (by simp [Reports])))).congr ?_
  simp only [Arena.use_eq_ok, Arena.LanesFit, List.any_eq_true, decide_eq_true_eq]
  grind

theorem passes_useProblems (h : a.Analysed f g tree) :
    (useProblems f defs i u).Passes a (a.UseFits tree defs i u) := by
  refine (passes_look fun ins _ => passes_look (R := fun use : Use => ∃ v x d, use.value = some v
    ∧ a.values[v.idx]? = some x ∧ use.user = some i ∧ use.guards = none
    ∧ use.slot.bind (x.uses[·]?) = some u ∧ a.LanesFit u x.comps ∧ defs.lookup v = some d
    ∧ match ins.incoming u with
      | some pred => a.Precedes tree d (some pred) none
      | none => a.Precedes tree d ins.block (some i)) fun use _ => ?_).congr ?_
  · cases hv : use.value with
    | none => exact (Reports.passes (by simp [Reports])).congr (by simp)
    | some v =>
      cases hd : defs.lookup v with
      | none => exact (Reports.passes (by simp [Reports, hd])).congr (by simp [hd])
      | some d =>
        -- Where the definition has to come first depends on the source, the rest does not.
        simp only [hd]
        cases hin : ins.incoming u
        all_goals
          refine (passes_look fun x _ => passes_problemIf.bind (passes_problemIf.bind
            (passes_laneProblems.bind (passes_dominanceProblems h).append))).congr ?_
          simp [hd, and_assoc]
  · simp only [Arena.UseFits, Arena.instr_eq_ok, Arena.use_eq_ok]
    grind

theorem passes_conditionProblems (h : a.Analysed f g tree) {c : ConstructId}
    {before : Option BlockId} :
    (conditionProblems f defs c before).Passes a (a.ConditionFits tree defs c before) := by
  refine (passes_look (R := fun con => ∃ u yes no use v x d, con.shape = .branch (some u) yes no
    ∧ a.uses[u.idx]? = some use ∧ use.value = some v ∧ a.values[v.idx]? = some x
    ∧ use.guards = some c ∧ use.user = none ∧ use.slot.bind (x.conditions[·]?) = some u
    ∧ defs.lookup v = some d ∧ ∀ b, before = some b → a.Precedes tree d (some b) none)
      fun con _ => ?_).congr ?_
  · rcases hshape : con.shape with ⟨_ | u, yes, no⟩ | body
    · exact (Reports.passes (by simp [Reports])).congr (by simp)
    · refine (passes_look (R := fun use => ∃ v x d, use.value = some v ∧ a.values[v.idx]? = some x
        ∧ use.guards = some c ∧ use.user = none ∧ use.slot.bind (x.conditions[·]?) = some u
        ∧ defs.lookup v = some d ∧ ∀ b, before = some b → a.Precedes tree d (some b) none)
          fun use _ => ?_).congr (by simp)
      cases hv : use.value with
      | none => exact (Reports.passes (by simp [Reports])).congr (by simp)
      | some v =>
        cases hd : defs.lookup v with
        | none => exact (Reports.passes (by simp [Reports, hd])).congr (by simp [hd])
        | some d =>
          simp only [hd]
          cases before with
          | none =>
            refine (passes_look fun x _ => passes_problemIf.bind (passes_problemIf.bind
              passes_nil)).congr ?_
            simp [hd, and_assoc]
          | some b =>
            refine (passes_look fun x _ => passes_problemIf.bind (passes_problemIf.bind
              (passes_dominanceProblems h).append)).congr ?_
            simp [hd, and_assoc]
    · exact (Reports.passes (by simp [Reports])).congr (by simp)
  · simp only [Arena.ConditionFits, Arena.construct_eq_ok]
    grind

theorem passes_useEntryProblems : (useEntryProblems v u k).Passes a
    (∃ use i ins, a.uses[u.idx]? = some use ∧ use.slot = some k ∧ use.user = some i
      ∧ a.instrs[i.idx]? = some ins ∧ ins.block.isSome = true ∧ some u ∈ ins.sources) := by
  refine (passes_look fun use _ => passes_unless (Q := ∃ i ins, use.user = some i
    ∧ a.instrs[i.idx]? = some ins ∧ ins.block.isSome = true ∧ some u ∈ ins.sources) ?_).congr ?_
  · cases hi : use.user with
    | none => exact (Reports.passes (by simp [Reports])).congr (by simp)
    | some i =>
      refine (passes_look fun ins _ => passes_unless passes_problemIf).congr ?_
      simp [Option.isSome_iff_ne_none]
  · simp only [Arena.use_eq_ok]
    grind

theorem passes_conditionEntryProblems : (conditionEntryProblems branches v u k).Passes a
    (∃ use c, a.uses[u.idx]? = some use ∧ use.slot = some k ∧ use.guards = some c
      ∧ c ∈ branches.map Prod.fst) := by
  refine (passes_look fun use _ => passes_unless passes_problemIf).congr ?_
  simp only [Arena.use_eq_ok, Bool.not_eq_true', Bool.not_eq_false, Option.any_eq_true,
    List.any_eq_true, decide_eq_true_eq, List.mem_map]
  grind

/-- A look at the entries of a list with their places. -/
theorem passes_zipIdx {x : UseId → Nat → Edit (List Problem)} {P : UseId → Nat → Prop}
    {l : List UseId} (h : ∀ u k, (x u k).Passes a (P u k)) :
    (l.zipIdx.flatMapM fun p => x p.1 p.2).Passes a
      (∀ (u : UseId) (k : Nat), l[k]? = some u → P u k) :=
  (passes_flatMapM fun p _ => h p.1 p.2).congr (by
    simp only [Prod.forall, List.mk_mem_zipIdx_iff_getElem?])

theorem passes_useListProblems : (useListProblems branches v).Passes a (a.ListsFit branches v) := by
  refine (passes_look fun x _ => ?_).congr (exists_congr fun x => and_congr_left' Arena.value_eq_ok)
  have huses := passes_zipIdx (a := a) (l := x.uses) (x := useEntryProblems v) fun _ _ =>
    passes_useEntryProblems
  have hconditions := passes_zipIdx (a := a) (l := x.conditions)
    (x := conditionEntryProblems branches v) fun _ _ => passes_conditionEntryProblems
  exact huses.bind hconditions.append

/-! ### The check of a function -/

theorem passes_sourceProblems (h : a.Analysed f g tree) :
    (do (← look (·.instr i)).sources.flatMapM fun u => do
      useProblems f defs i (← present u) : Edit (List Problem)).Passes a
      (∃ ins, a.instrs[i.idx]? = some ins ∧
        ∀ s ∈ ins.sources, ∃ u, s = some u ∧ a.UseFits tree defs i u) := by
  refine (passes_look fun ins _ => passes_flatMapM fun s _ =>
    passes_liftM fun u _ => passes_useProblems h).congr ?_
  simp only [Arena.instr_eq_ok, present_eq_ok]

/-- The analyses are up to date once they were computed. -/
theorem analysed_of_analyse (h : analyse f a = .ok y a') :
    ∃ g tree, a'.Analysed f g tree := by
  obtain ⟨blocks, tree, hb, -, -, -, rfl⟩ := analyse_eq_ok.mp h
  cases hg : a.functions[f.idx]? with
  | none => simp [Arena.blocksOf, hg] at hb
  | some g =>
    refine ⟨{ g with valid := .all, dominance := some tree }, tree, ?_, rfl, rfl⟩
    rw [Arena.modifyFunction_functions_get, if_pos rfl]
    exact congrArg (Option.map _) hg

theorem ssaProblems_eq_nil {region : Region} :
    ssaProblems f region a = .ok [] a' ↔
      analyse f a = .ok () a' ∧ ∃ g tree defs, a'.Analysed f g tree
        ∧ a'.SsaFits g tree region defs := by
  have hanalyse {a₁ : Arena} {y : Unit} : analyse f a = .ok y a₁ ↔
      ∃ y' a₀, preserve f .none a = .ok y' a₀ ∧ require f .all a₀ = .ok y a₁ := bind_eq_ok
  simp only [ssaProblems, bind_eq_ok, look_eq_ok, Arena.function_eq_ok, pure_eq_ok,
    List.append_eq_nil_iff]
  constructor
  · rintro ⟨_, a₀, h0, _, a₁, h1, h⟩
    have hrun : analyse f a = .ok () a₁ := hanalyse.mpr ⟨_, a₀, h0, h1⟩
    obtain ⟨g, tree, hg⟩ := analysed_of_analyse hrun
    obtain ⟨g', _, ⟨hg', rfl⟩, instrs, _, h2, ⟨own, defs⟩, _, h3, uses, _, h4, conditions, _, h5,
      lists, _, h6, ⟨⟨⟨rfl, rfl⟩, rfl⟩, rfl⟩, rfl⟩ := h
    cases hg.function.symm.trans hg'
    dsimp only at h4 h5 h6
    obtain ⟨⟨hblocks, rfl⟩, rfl⟩ := (flatMapM_block_eq_ok fun b l => l.map fun i => (b, i)).mp h2
    obtain ⟨⟨_, rfl, hlists, hfits, -⟩, rfl⟩ := instrProblems_eq_ok.mp h3
    obtain ⟨hsources, rfl⟩ := (passes_flatMapM (fun _ _ => passes_sourceProblems hg) _).mp h4
    obtain ⟨hconditions, rfl⟩ := (passes_flatMapM (fun _ _ => passes_conditionProblems hg) _).mp h5
    obtain ⟨huseLists, rfl⟩ := (passes_flatMapM (fun _ _ => passes_useListProblems) _).mp h6
    refine ⟨hrun, g, tree, defs, hg, hblocks, hlists, hfits, fun p hp ins hins => ?_,
      hconditions, huseLists⟩
    obtain ⟨ins', hins', hs⟩ := hsources p hp
    cases hins.symm.trans hins'
    exact hs
  · rintro ⟨hrun, g, tree, defs, hg, hblocks, hlists, hfits, hsources, hconditions, huseLists⟩
    obtain ⟨_, a₀, h0, h1⟩ := hanalyse.mp hrun
    refine ⟨_, a₀, h0, (), a', h1, g, a', ⟨hg.function, rfl⟩, _, a',
      (flatMapM_block_eq_ok fun b l => l.map fun i => (b, i)).mpr ⟨⟨hblocks, rfl⟩, rfl⟩,
      ([], defs), a', instrProblems_eq_ok.mpr ⟨⟨defs, rfl, hlists, hfits, by simp⟩, rfl⟩, [], a',
      (passes_flatMapM (fun _ _ => passes_sourceProblems hg) a').mpr ⟨fun p hp => ?_, rfl⟩, [], a',
      (passes_flatMapM (fun _ _ => passes_conditionProblems hg) a').mpr ⟨hconditions, rfl⟩, [], a',
      (passes_flatMapM (fun _ _ => passes_useListProblems) a').mpr ⟨huseLists, rfl⟩,
        ⟨⟨⟨rfl, rfl⟩, rfl⟩, rfl⟩, rfl⟩
    obtain ⟨bb, ins, -, hins, -⟩ := hfits p hp
    exact ⟨ins, hins, hsources p hp ins hins⟩

/-- A function passes the check exactly if its lists have the right shape, its analyses can be
computed, and its values obey the rules. -/
theorem check_eq_none :
    check f a = .ok none a' ↔
      ∃ region, a.bodyRegion f = .ok region ∧ region.Shaped a (.function f)
        ∧ analyse f a = .ok () a' ∧ ∃ g tree defs, a'.Analysed f g tree
        ∧ a'.SsaFits g tree region defs := by
  have hproblems : problems f a = .ok [] a' ↔
      ∃ region, a.bodyRegion f = .ok region ∧ region.Shaped a (.function f)
        ∧ ssaProblems f region a = .ok [] a' := by
    simp only [problems, bind_eq_ok, look_eq_ok]
    constructor
    · rintro ⟨region, _, ⟨hregion, rfl⟩, shape, _, h1, h2⟩
      split at h2
      case isTrue hempty =>
        obtain rfl := List.isEmpty_iff.mp hempty
        obtain ⟨hshape, rfl⟩ := (passes_shapeProblems _).mp h1
        exact ⟨region, hregion, hshape, h2⟩
      case isFalse hne =>
        obtain ⟨rfl, -⟩ := pure_eq_ok.mp h2
        exact absurd rfl hne
    · rintro ⟨region, hregion, hshape, h⟩
      exact ⟨region, a, ⟨hregion, rfl⟩, [], a, (passes_shapeProblems a).mpr ⟨hshape, rfl⟩, h⟩
  have hcheck : check f a = .ok none a' ↔ problems f a = .ok [] a' := by
    simp only [check, bind_eq_ok]
    constructor
    · rintro ⟨found, a₁, h1, h2⟩
      split at h2
      case isTrue hempty =>
        obtain rfl := List.isEmpty_iff.mp hempty
        obtain ⟨-, rfl⟩ := pure_eq_ok.mp h2
        exact h1
      case isFalse => simp at h2
    · exact fun h => ⟨[], a', h, pure_eq_ok.mpr ⟨rfl, rfl⟩⟩
  simp only [hcheck, hproblems, ssaProblems_eq_nil]

end Edit

end ShaderCompiler
