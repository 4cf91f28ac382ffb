import ShaderCompiler.Proofs.Region

/-!
# Computed analyses

Computing all analyses of a function afresh numbers its blocks and instructions by their
positions and keeps its dominator tree. Nothing else changes.
-/

namespace ShaderCompiler

variable {a a' : Arena} {f : FunctionId} {blocks : List BlockId} {instrs : List InstrId}
  {g : Function}

/-! ### Numbers by position -/

namespace Arena

/-- The arena in which each of the blocks has its position, counted from `k`, as number. -/
def numberBlocks (a : Arena) (blocks : List BlockId) (k : Nat) : Arena :=
  { a with
    blocks := (blocks.zipIdx k).foldl (fun t p => t.modify p.1.idx fun bb =>
      { bb with index := p.2 }) a.blocks }

/-- The arena in which each of the instructions has its position, counted from `k`, as number. -/
def numberInstrs (a : Arena) (instrs : List InstrId) (k : Nat) : Arena :=
  { a with
    instrs := (instrs.zipIdx k).foldl (fun t p => t.modify p.1.idx fun ins =>
      { ins with index := p.2 }) a.instrs }

/-- The last position of an entry, counted from `k`, or `n` if there is none. -/
def lastPosition {α : Type} [DecidableEq α] (x : α) : List α → Nat → Nat → Nat
  | [], _, n => n
  | y :: l, k, n => lastPosition x l (k + 1) (if y = x then k else n)

section Numbering

variable {α : Type} [DecidableEq α] {x y : α} {l : List α} {k n : Nat}

theorem lastPosition_of_notMem (h : x ∉ l) : lastPosition x l k n = n := by
  induction l generalizing k n with
  | nil => rfl
  | cons z l ih =>
    obtain ⟨hz, hl⟩ := List.ne_and_not_mem_of_not_mem_cons h
    rw [lastPosition, if_neg (Ne.symm hz), ih hl]

theorem lastPosition_of_nodup (hl : l.Nodup) {m : Nat} (h : l[m]? = some x) :
    lastPosition x l k n = k + m := by
  induction l generalizing k n m with
  | nil => simp at h
  | cons z l ih =>
    obtain ⟨hz, hl⟩ := List.nodup_cons.mp hl
    cases m with
    | zero =>
      obtain rfl : z = x := by simpa using h
      rw [lastPosition, if_pos rfl, lastPosition_of_notMem hz, Nat.add_zero]
    | succ m =>
      rw [List.getElem?_cons_succ] at h
      rw [lastPosition, ih hl h]
      omega

end Numbering

theorem numberBlocks_blocks (a : Arena) (blocks : List BlockId) (k : Nat) (b : BlockId) :
    (a.numberBlocks blocks k).blocks[b.idx]? =
      (a.blocks[b.idx]?).map fun bb => { bb with index := lastPosition b blocks k bb.index } := by
  induction blocks generalizing a k with
  | nil => simp [numberBlocks, lastPosition]
  | cons c blocks ih =>
    refine (ih (a.modifyBlock c fun bb => { bb with index := k }) (k + 1)).trans ?_
    rw [modifyBlock_blocks_get]
    by_cases hc : b = c
    · subst hc
      cases a.blocks[b.idx]? <;> simp [lastPosition]
    · rw [if_neg hc]
      cases a.blocks[b.idx]? <;> simp [lastPosition, Ne.symm hc]

theorem numberInstrs_instrs (a : Arena) (instrs : List InstrId) (k : Nat) (i : InstrId) :
    (a.numberInstrs instrs k).instrs[i.idx]? =
      (a.instrs[i.idx]?).map fun ins =>
        { ins with index := lastPosition i instrs k ins.index } := by
  induction instrs generalizing a k with
  | nil => simp [numberInstrs, lastPosition]
  | cons j instrs ih =>
    refine (ih (a.modifyInstr j fun ins => { ins with index := k }) (k + 1)).trans ?_
    rw [modifyInstr_instrs_get]
    by_cases hc : i = j
    · subst hc
      cases a.instrs[i.idx]? <;> simp [lastPosition]
    · rw [if_neg hc]
      cases a.instrs[i.idx]? <;> simp [lastPosition, Ne.symm hc]

/-- The arena with the numbers that computing the analyses of a function gives. -/
def numbered (a : Arena) (blocks : List BlockId) : Arena :=
  (a.numberBlocks blocks 0).numberInstrs (blocks.flatMap a.body) 0

theorem numberBlocks_body (a : Arena) (blocks : List BlockId) (k : Nat) :
    (a.numberBlocks blocks k).body = a.body := by
  funext b
  rw [body, body, numberBlocks_blocks]
  cases a.blocks[b.idx]? <;> rfl

/-- The blocks of a function depend on its lists and on its exit block. -/
theorem blocksOf_congr (hc : a'.constructs = a.constructs)
    (hf : (a'.functions[f.idx]?).map (fun g => (g.body, g.finish)) =
      (a.functions[f.idx]?).map fun g => (g.body, g.finish)) :
    a'.blocksOf f = a.blocksOf f := by
  simp only [blocksOf, function, blocksIn, region, hc, regionAt_congr hc]
  obtain ⟨hg', hg⟩ | ⟨g', g, hg', hg, hbody⟩ := map_eq_map_cases hf
  · rw [hg', hg]
  · obtain ⟨hb, hfin⟩ := Prod.mk.inj hbody
    simp only [hg', hg, present, bind, Except.bind, hb, hfin]

/-- The dominator tree depends on the table of blocks only. -/
theorem dominanceOf_congr (h : a'.blocks = a.blocks) :
    a'.dominanceOf blocks = a.dominanceOf blocks := by
  have hblock : a'.block = a.block := by simp only [funext_iff, block, h, implies_true]
  have hedges : a'.edgesFrom = a.edgesFrom := by simp only [funext_iff, edgesFrom, hblock, implies_true]
  have hkeep : a'.keepIdom = a.keepIdom := by simp only [funext_iff, keepIdom, hblock, implies_true]
  simp only [dominanceOf, flowGraph, hblock, hedges, hkeep]

theorem numberBlocks_isSome (k : Nat) (b : BlockId) :
    ((a.numberBlocks blocks k).blocks[b.idx]?).isSome = (a.blocks[b.idx]?).isSome := by
  rw [numberBlocks_blocks, Option.isSome_map]

theorem blocksOf_modifyFunction {h : Function → Function}
    (hh : ∀ g, (h g).body = g.body ∧ (h g).finish = g.finish) :
    (a.modifyFunction f h).blocksOf f = a.blocksOf f := by
  refine blocksOf_congr rfl ?_
  rw [modifyFunction_functions_get, if_pos rfl]
  cases a.functions[f.idx]? with
  | none => rfl
  | some g => simp [hh g]

theorem numberBlocks_blocksOf (k : Nat) :
    (a.numberBlocks blocks k).blocksOf f = a.blocksOf f :=
  blocksOf_congr rfl rfl

theorem numberInstrs_blocksOf (k : Nat) :
    (a.numberInstrs instrs k).blocksOf f = a.blocksOf f :=
  blocksOf_congr rfl rfl

end Arena

namespace Edit

/-- Computes all analyses of a function afresh. -/
def analyse (f : FunctionId) : Edit Unit := do
  preserve f .none
  require f .all

theorem forM_setBlock_eq_ok {k : Nat} {y : Unit} :
    ((blocks.zipIdx k).forM fun (b, n) => setBlock b fun bb => { bb with index := n }) a
      = .ok y a' ↔ a.numberBlocks blocks k = a' := by
  induction blocks generalizing a k with
  | nil => simp [pure_eq_ok, Arena.numberBlocks]
  | cons b blocks ih =>
    simp only [List.zipIdx_cons, List.forM_eq_forM, List.forM_cons, bind_eq_ok,
      setBlock_eq_ok] at ih ⊢
    constructor
    · rintro ⟨_, _, rfl, h⟩
      exact ih.mp h
    · exact fun h => ⟨(), _, rfl, ih.mpr h⟩

theorem forM_setInstr_eq_ok {k : Nat} {y : Unit} :
    ((instrs.zipIdx k).forM fun (i, n) => do
      discard <| look (·.instr i)
      setInstr i fun ins => { ins with index := n }) a = .ok y a' ↔
      (∀ i ∈ instrs, (a.instrs[i.idx]?).isSome = true) ∧ a.numberInstrs instrs k = a' := by
  induction instrs generalizing a k with
  | nil => simp [pure_eq_ok, Arena.numberInstrs]
  | cons i instrs ih =>
    simp only [List.zipIdx_cons, List.forM_eq_forM, List.forM_cons, bind_eq_ok, setInstr_eq_ok,
      discard_eq_ok, look_eq_ok, Arena.instr_eq_ok, List.mem_cons, forall_eq_or_imp] at ih ⊢
    have hkeep (j : InstrId) (n : Nat) :
        ((a.modifyInstr i fun ins => { ins with index := n }).instrs[j.idx]?).isSome
          = (a.instrs[j.idx]?).isSome := by
      rw [Arena.modifyInstr_instrs_get]
      split <;> simp
    constructor
    · rintro ⟨_, _, ⟨_, _, ⟨ins, hins, rfl⟩, rfl⟩, h⟩
      obtain ⟨hall, hrest⟩ := ih.mp h
      exact ⟨⟨by simp [hins], fun j hj => (hkeep j k) ▸ hall j hj⟩, hrest⟩
    · rintro ⟨⟨hi, hall⟩, h⟩
      obtain ⟨ins, hins⟩ := Option.isSome_iff_exists.mp hi
      exact ⟨(), _, ⟨(), a, ⟨ins, hins, rfl⟩, rfl⟩,
        ih.mpr ⟨fun j hj => (hkeep j k).symm ▸ hall j hj, h⟩⟩

/-- What is collected by looking at the instructions of each block. -/
theorem flatMapM_block_eq_ok {β : Type} (view : BlockId → List InstrId → List β)
    {ys : List β} :
    (blocks.flatMapM fun b => do return view b (← look (·.block b)).instrs) a = .ok ys a' ↔
      ((∀ b ∈ blocks, (a.blocks[b.idx]?).isSome = true)
        ∧ (blocks.flatMap fun b => view b (a.body b)) = ys) ∧ a = a' := by
  induction blocks generalizing ys with
  | nil => simp [pure_eq_ok]
  | cons b blocks ih =>
    simp only [List.flatMapM_cons, bind_eq_ok, look_eq_ok, Arena.block_eq_ok, pure_eq_ok,
      List.mem_cons, forall_eq_or_imp, List.flatMap_cons]
    constructor
    · rintro ⟨_, _, ⟨bb, _, ⟨hbb, rfl⟩, rfl, rfl⟩, zs, _, h, rfl, rfl⟩
      obtain ⟨⟨hall, rfl⟩, rfl⟩ := ih.mp h
      exact ⟨⟨⟨by simp [hbb], hall⟩, by rw [Arena.body_of_block hbb]⟩, rfl⟩
    · rintro ⟨⟨⟨hb, hall⟩, rfl⟩, rfl⟩
      obtain ⟨bb, hbb⟩ := Option.isSome_iff_exists.mp hb
      exact ⟨_, a, ⟨bb, a, ⟨hbb, rfl⟩, rfl, rfl⟩, _, a, ih.mpr ⟨⟨hall, rfl⟩, rfl⟩,
        by rw [Arena.body_of_block hbb], rfl⟩

theorem indexBlocks_eq_ok {y : Unit} :
    indexBlocks f a = .ok y a' ↔
      ∃ blocks, a.blocksOf f = .ok blocks ∧ a.numberBlocks blocks 0 = a' := by
  simp only [indexBlocks, bind_eq_ok, look_eq_ok]
  constructor
  · rintro ⟨blocks, _, ⟨hb, rfl⟩, h⟩
    exact ⟨blocks, hb, forM_setBlock_eq_ok.mp h⟩
  · rintro ⟨blocks, hb, h⟩
    exact ⟨blocks, a, ⟨hb, rfl⟩, forM_setBlock_eq_ok.mpr h⟩

theorem indexInstrs_eq_ok {y : Unit} :
    indexInstrs f a = .ok y a' ↔
      ∃ blocks, a.blocksOf f = .ok blocks ∧ (∀ b ∈ blocks, (a.blocks[b.idx]?).isSome = true)
        ∧ (∀ i ∈ blocks.flatMap a.body, (a.instrs[i.idx]?).isSome = true)
        ∧ a.numberInstrs (blocks.flatMap a.body) 0 = a' := by
  simp only [indexInstrs, bind_eq_ok, look_eq_ok]
  constructor
  · rintro ⟨blocks, _, ⟨hb, rfl⟩, instrs, _, h1, h2⟩
    obtain ⟨⟨hblocks, rfl⟩, rfl⟩ := (flatMapM_block_eq_ok fun _ l => l).mp
      (by simpa only [bind_eq_ok] using h1)
    obtain ⟨hinstrs, h⟩ := forM_setInstr_eq_ok.mp h2
    exact ⟨blocks, hb, hblocks, hinstrs, h⟩
  · rintro ⟨blocks, hb, hblocks, hinstrs, h⟩
    exact ⟨blocks, a, ⟨hb, rfl⟩, _, a, (flatMapM_block_eq_ok fun _ l => l).mpr
      ⟨⟨hblocks, rfl⟩, rfl⟩, forM_setInstr_eq_ok.mpr ⟨hinstrs, h⟩⟩

theorem refresh_of_stale {stale : Function → Bool} {compute : Edit Unit}
    (hg : a.functions[f.idx]? = some g) (hs : stale g = true) :
    refresh f stale compute a = compute a := by
  rw [refresh, bind_of_ok (look_eq_ok.mpr ⟨Arena.function_eq_ok.mpr hg, rfl⟩), if_pos hs]

theorem preserve_none_eq_ok {y : Unit} :
    preserve f .none a = .ok y a' ↔
      a.modifyFunction f (fun g => { g with valid := .none, dominance := none }) = a' := by
  simp [preserve, Analyses.inter, Analyses.none]

/-- Analyses that are all stale are computed one after the other. -/
theorem require_all_of_stale (hg : a.functions[f.idx]? = some g)
    (hv : g.valid = .none) {y : Unit} :
    require f .all a = .ok y a' ↔
      ∃ a₁ a₂ a₃ tree, indexBlocks f a = .ok () a₁
        ∧ indexInstrs f (a₁.modifyFunction f fun g =>
          { g with valid := { g.valid with blockOrder := true } }) = .ok () a₂
        ∧ (a₂.modifyFunction f fun g => { g with valid := { g.valid with instrOrder := true } })
          = a₃
        ∧ (do a₃.dominanceOf (← a₃.blocksOf f)) = .ok tree
        ∧ (a₃.modifyFunction f fun g =>
          { g with dominance := some tree, valid := { g.valid with dominance := true } }) = a' := by
  -- The flags that each stage finds are those that the stages before it left.
  have hg₁ {a₁ : Arena} (h1 : indexBlocks f a = .ok () a₁) :
      (a₁.modifyFunction f fun g =>
        { g with valid := { g.valid with blockOrder := true } }).functions[f.idx]?
        = some { g with valid := { g.valid with blockOrder := true } } := by
    obtain ⟨blocks, -, rfl⟩ := indexBlocks_eq_ok.mp h1
    rw [Arena.modifyFunction_functions_get, if_pos rfl]
    exact congrArg (Option.map _) hg
  have hg₂ {a₁ a₂ : Arena} (h1 : indexBlocks f a = .ok () a₁)
      (h2 : indexInstrs f (a₁.modifyFunction f fun g =>
        { g with valid := { g.valid with blockOrder := true } }) = .ok () a₂) :
      (a₂.modifyFunction f fun g =>
        { g with valid := { g.valid with instrOrder := true } }).functions[f.idx]?
        = some { g with valid := ⟨true, false, true⟩ } := by
    obtain ⟨blocks, -, -, -, rfl⟩ := indexInstrs_eq_ok.mp h2
    rw [Arena.modifyFunction_functions_get, if_pos rfl]
    refine (congrArg (Option.map _) (hg₁ h1)).trans ?_
    rw [hv]
    rfl
  rw [require, bind_eq_ok, refresh_of_stale hg (by simp [hv, Analyses.none, Analyses.all])]
  constructor
  · rintro ⟨_, _, horder, h⟩
    obtain ⟨_, a₁, h1, hset⟩ := bind_eq_ok.mp horder
    obtain rfl := setFunction_eq_ok.mp hset
    rw [bind_eq_ok, refresh_of_stale (hg₁ h1) (by simp [hv, Analyses.none, Analyses.all])] at h
    obtain ⟨_, _, hinstrs, h⟩ := h
    obtain ⟨_, a₂, h2, hset⟩ := bind_eq_ok.mp hinstrs
    obtain rfl := setFunction_eq_ok.mp hset
    rw [refresh_of_stale (hg₂ h1 h2) rfl] at h
    obtain ⟨tree, _, hlook, hset⟩ := bind_eq_ok.mp h
    obtain ⟨h3, rfl⟩ := look_eq_ok.mp hlook
    exact ⟨a₁, a₂, _, tree, h1, h2, rfl, h3, setFunction_eq_ok.mp hset⟩
  · rintro ⟨a₁, a₂, _, tree, h1, h2, rfl, h3, h4⟩
    refine ⟨(), _, bind_eq_ok.mpr ⟨(), a₁, h1, setFunction_eq_ok.mpr rfl⟩, ?_⟩
    rw [bind_eq_ok, refresh_of_stale (hg₁ h1) (by simp [hv, Analyses.none, Analyses.all])]
    refine ⟨(), _, bind_eq_ok.mpr ⟨(), a₂, h2, setFunction_eq_ok.mpr rfl⟩, ?_⟩
    rw [refresh_of_stale (hg₂ h1 h2) rfl]
    exact bind_eq_ok.mpr ⟨tree, _, look_eq_ok.mpr ⟨h3, rfl⟩, setFunction_eq_ok.mpr h4⟩

/-- Computing all analyses afresh numbers blocks and instructions and keeps the tree. -/
theorem analyse_eq_ok {y : Unit} :
    analyse f a = .ok y a' ↔
      ∃ blocks tree, a.blocksOf f = .ok blocks
        ∧ (∀ b ∈ blocks, (a.blocks[b.idx]?).isSome = true)
        ∧ (∀ i ∈ blocks.flatMap a.body, (a.instrs[i.idx]?).isSome = true)
        ∧ (a.numbered blocks).dominanceOf blocks = .ok tree
        ∧ (a.numbered blocks).modifyFunction f
          (fun g => { g with valid := .all, dominance := some tree }) = a' := by
  -- The changes of the function commute with the numbering, and add up.
  have hfinal (blocks : List BlockId) (tree : Dominance) :
      (((((a.numbered blocks).modifyFunction f fun g =>
        { g with valid := .none, dominance := none }).modifyFunction f fun g =>
        { g with valid := { g.valid with blockOrder := true } }).modifyFunction f fun g =>
        { g with valid := { g.valid with instrOrder := true } }).modifyFunction f fun g =>
        { g with dominance := some tree, valid := { g.valid with dominance := true } })
        = (a.numbered blocks).modifyFunction f fun g =>
          { g with valid := .all, dominance := some tree } := by
    rw [Arena.modifyFunction_modifyFunction, Arena.modifyFunction_modifyFunction,
      Arena.modifyFunction_modifyFunction]
    rfl
  have hbody (blocks : List BlockId) : (((a.modifyFunction f fun g =>
      { g with valid := .none, dominance := none }).numberBlocks blocks 0).modifyFunction f fun g =>
      { g with valid := { g.valid with blockOrder := true } }).body = a.body :=
    Arena.numberBlocks_body a blocks 0
  simp only [analyse, bind_eq_ok, preserve_none_eq_ok]
  cases hg : a.functions[f.idx]? with
  | none =>
    have hnone : (a.modifyFunction f fun g => { g with valid := .none, dominance := none }
        ).functions[f.idx]? = none := by
      rw [Arena.modifyFunction_functions_get, if_pos rfl, hg]
      rfl
    constructor
    · rintro ⟨_, _, rfl, h⟩
      simp [require, refresh, hnone] at h
    · rintro ⟨blocks, tree, hb, -⟩
      simp [Arena.blocksOf, hg] at hb
  | some g =>
    have h₀ : (a.modifyFunction f fun g => { g with valid := .none, dominance := none }
        ).functions[f.idx]? = some { g with valid := .none, dominance := none } := by
      rw [Arena.modifyFunction_functions_get, if_pos rfl, hg]
      rfl
    constructor
    · rintro ⟨_, _, rfl, h⟩
      obtain ⟨a₁, a₂, _, tree, h1, h2, rfl, h3, rfl⟩ := (require_all_of_stale h₀ rfl).mp h
      obtain ⟨blocks, hb, rfl⟩ := indexBlocks_eq_ok.mp h1
      rw [Arena.blocksOf_modifyFunction (by simp)] at hb
      obtain ⟨blocks', hb', hex, hins, rfl⟩ := indexInstrs_eq_ok.mp h2
      rw [Arena.blocksOf_modifyFunction (by simp), Arena.numberBlocks_blocksOf,
        Arena.blocksOf_modifyFunction (by simp), hb] at hb'
      cases hb'
      simp only [except_bind_eq_ok] at h3
      obtain ⟨blocks', hb', h3⟩ := h3
      rw [Arena.blocksOf_modifyFunction (by simp), Arena.numberInstrs_blocksOf,
        Arena.blocksOf_modifyFunction (by simp), Arena.numberBlocks_blocksOf,
        Arena.blocksOf_modifyFunction (by simp), hb] at hb'
      cases hb'
      refine ⟨blocks, tree, hb, fun b hm => ?_, fun i hi => ?_, ?_, ?_⟩
      · exact Arena.numberBlocks_isSome (a := a) 0 b ▸ hex b hm
      · exact hins i (by rwa [hbody])
      · rwa [Arena.dominanceOf_congr] at h3
        rfl
      · rw [← hfinal, Arena.numbered, ← hbody blocks]
        rfl
    · rintro ⟨blocks, tree, hb, hex, hins, h3, rfl⟩
      refine ⟨(), _, rfl, (require_all_of_stale h₀ rfl).mpr ⟨_, _, _, tree,
        indexBlocks_eq_ok.mpr ⟨blocks, ?_, rfl⟩,
        indexInstrs_eq_ok.mpr ⟨blocks, ?_, fun b hm => ?_, fun i hi => ?_, rfl⟩, rfl,
        except_bind_eq_ok.mpr ⟨blocks, ?_, ?_⟩, ?_⟩⟩
      · rw [Arena.blocksOf_modifyFunction (by simp), hb]
      · rw [Arena.blocksOf_modifyFunction (by simp), Arena.numberBlocks_blocksOf,
          Arena.blocksOf_modifyFunction (by simp), hb]
      · exact (Arena.numberBlocks_isSome (a := a) 0 b).symm ▸ hex b hm
      · exact hins i (by rwa [hbody] at hi)
      · rw [Arena.blocksOf_modifyFunction (by simp), Arena.numberInstrs_blocksOf,
          Arena.blocksOf_modifyFunction (by simp), Arena.numberBlocks_blocksOf,
          Arena.blocksOf_modifyFunction (by simp), hb]
      · rw [Arena.dominanceOf_congr, h3]
        rfl
      · rw [← hfinal, Arena.numbered, ← hbody blocks]
        rfl

end Edit

end ShaderCompiler
