import ShaderCompiler.Proofs.Dominance
import ShaderCompiler.Proofs.Wiring

/-!
# Execution of a function

A function is executed block by block along its control flow edges. An environment gives the
lanes of every value. The operations are left to a `Meaning`: copies move lanes, and everything
else produces results that are arbitrary functions of what is read. Instructions with an effect
leave an event behind with the operands they read, and their results may also depend on all
events before them. The φs of a block read their sources at once, for the block just left.

What can be observed is the sequence of events, and entering a block is one of them. A reduction
takes instructions without effect out of blocks and turns readings to other values. It is not
observed if no reading that is left refers to a value that was taken out, and if every reading
finds the same lanes as before in each environment that can arise at its place.
-/

namespace ShaderCompiler

variable {t : BlockId} {v : ValueId} {m : Meaning} {ins : Instr} {x : Lanes} {i : InstrId}

/-! ### Environments and operations -/

/-- The lanes of a value; lanes past its width are never read. -/
abbrev Lanes := Nat → UInt64

/-- The lanes of every value. -/
abbrev Env := ValueId → Lanes

/-- The environment after the results of an instruction were stored. -/
def Env.store (env : Env) (results : List (ValueId × Lanes)) : Env := fun v =>
  (results.lookup v).getD (env v)

/-- What an instruction gets to see of a source: its modifiers and the lanes read. -/
structure Operand where
  absolute : Bool
  negated : Bool
  lanes : List UInt64
deriving DecidableEq

/-- What can be observed of an execution. -/
inductive Event where
  | enter (b : BlockId)
  | intrinsic (i : InstrId) (op : Intrinsic) (base : Int) (operands : List (Option Operand))
  | call (i : InstrId) (callee : String) (operands : List (Option Operand))
  | jump (i : InstrId) (kind : JumpKind)
deriving DecidableEq

/-- What operations do, apart from copies. -/
structure Meaning where
  /-- The operation, whether it saturates, the width of the result, and the operands. -/
  alu : AluOp → Bool → Nat → List (Option Operand) → Lanes
  /-- An intrinsic without effect: its base and its operands. -/
  intrinsic : Intrinsic → Int → List (Option Operand) → Lanes
  /-- An intrinsic with an effect may depend on the events before it. -/
  effect : List Event → Intrinsic → Int → List (Option Operand) → Lanes
  /-- A texture instruction: its numbers, the roles of its sources and the operands. -/
  tex : TexOp → Int → Int → List TexRole → List (Option Operand) → Lanes
  undef : ValueId → Lanes
  /-- What φs and parallel copies pass on. -/
  pass : Option Operand → Lanes
  /-- Which way an `if` goes. -/
  test : List UInt64 → Bool

/-- Whether an intrinsic is known to have no effect of its own. -/
def Intrinsic.isEliminable (op : Intrinsic) : Bool :=
  match op.info with
  | .ok row => row.eliminable
  | .error _ => false

namespace Arena

/-- The width of a value. -/
def widthOf (a : Arena) (v : ValueId) : Nat :=
  (a.values[v.idx]?).elim 0 (·.comps)

/-- The lanes of a value that a use reads. -/
def operand (a : Arena) (env : Env) (u : UseId) : Option Operand := do
  let use ← a.uses[u.idx]?
  let v ← use.value
  let n ← (a.reads u).toOption
  return ⟨use.absolute, use.negated, (use.swizzle.toList.take n).map (env v)⟩

/-- The operands of an instruction in order. -/
def operands (a : Arena) (env : Env) (ins : Instr) : List (Option Operand) :=
  ins.sources.map fun s => s.bind (a.operand env)

/-- Whether a source has no modifier. -/
def isPlain (a : Arena) (s : Option UseId) : Bool :=
  (s.bind fun u => a.uses[u.idx]?).all fun use => !use.absolute && !use.negated

/-- Whether an arithmetic instruction only moves the lanes it reads: a `mov` or a gathering
operation that neither saturates nor modifies a source. -/
def movesLanes (a : Arena) (p : Alu) : Bool :=
  !p.saturate && (p.op = .mov || p.op.isGather) && p.srcs.all a.isPlain

/-- The lanes that the sources of an instruction read, one source after the other. -/
def moved (a : Arena) (env : Env) (srcs : List (Option UseId)) : Lanes := fun k =>
  (srcs.flatMap fun s => (s.bind (a.operand env)).elim [] (·.lanes)).getD k 0

/-- The results of an instruction after some events. Those of φs are stored on entry. -/
def results (a : Arena) (m : Meaning) (past : List Event) (env : Env) (ins : Instr) :
    List (ValueId × Lanes) :=
  match ins.action with
  | .alu p => p.dest.toList.map fun v =>
      (v, if a.movesLanes p then a.moved env p.srcs
        else m.alu p.op p.saturate (a.widthOf v) (a.operands env ins))
  | .intrinsic op dest _ base => dest.toList.map fun v =>
      (v, if op.isEliminable then m.intrinsic op base (a.operands env ins)
        else m.effect past op base (a.operands env ins))
  | .tex op dest srcs texture sampler => dest.toList.map fun v =>
      (v, m.tex op texture sampler (srcs.map Prod.fst) (a.operands env ins))
  | .const dest values => dest.toList.map fun v => (v, fun k => values.getD k 0)
  | .undef dest => dest.toList.map fun v => (v, m.undef v)
  | .parallelCopy entries => entries.map fun e => (e.1, m.pass (a.operand env e.2))
  | .phi .. | .jump _ | .call .. => []

/-- The events of an instruction. -/
def events (a : Arena) (env : Env) (i : InstrId) (ins : Instr) : List Event :=
  match ins.action with
  | .intrinsic op _ _ base =>
      if op.isEliminable then [] else [.intrinsic i op base (a.operands env ins)]
  | .call callee _ => [.call i callee (a.operands env ins)]
  | .jump kind => [.jump i kind]
  | _ => []

/-- Executes an instruction. -/
def exec (a : Arena) (m : Meaning) (s : Env × List Event) (i : InstrId) : Env × List Event :=
  match a.instrs[i.idx]? with
  | none => s
  | some ins => (s.1.store (a.results m s.2 s.1 ins), s.2 ++ a.events s.1 i ins)

/-! ### Blocks -/

/-- What a φ stores when its block is entered from `pred`. -/
def merged (a : Arena) (m : Meaning) (pred : BlockId) (env : Env) (i : InstrId) :
    List (ValueId × Lanes) :=
  match (a.instrs[i.idx]?).map Instr.action with
  | some (.phi (some v) srcs) =>
      (phiSourceFor srcs pred).toList.map fun u => (v, m.pass (a.operand env u))
  | _ => []

/-- The environment after the φs of a block were stored, all at once. -/
def enter (a : Arena) (m : Meaning) (pred : BlockId) (b : BlockId) (env : Env) : Env :=
  env.store ((a.body b).flatMap (a.merged m pred env))

/-- The condition that is tested at the end of a block. -/
def conditionAfter (a : Arena) (f : FunctionId) (b : BlockId) : Option UseId := do
  let region ← (a.bodyRegion f).toOption
  let p ← (region.branches none).find? (·.2 = some b)
  let con ← a.constructs[p.1.idx]?
  match con.shape with
  | .branch cond _ _ => cond
  | .loop _ => none

/-- All lanes of the value that a condition reads. -/
def conditionLanes (a : Arena) (env : Env) (u : UseId) : Option (List UInt64) := do
  let use ← a.uses[u.idx]?
  let v ← use.value
  return (List.range (a.widthOf v)).map (env v)

/-- The block that is entered after a block, unless the execution ends. -/
def next (a : Arena) (m : Meaning) (f : FunctionId) (env : Env) (b : BlockId) :
    Option BlockId := do
  let bb ← a.blocks[b.idx]?
  match bb.exits with
  | .nowhere => none
  | .goto t => some t
  | .fork yes no => do
      let u ← a.conditionAfter f b
      let lanes ← a.conditionLanes env u
      return if m.test lanes then yes else no

end Arena

/-- A stage of an execution between two blocks. -/
structure Progress where
  /-- The block to enter and the one just left, if the execution goes on. -/
  place : Option (Option BlockId × BlockId)
  env : Env
  trace : List Event

namespace Arena

/-- Executes the next block. -/
def execBlock (a : Arena) (m : Meaning) (f : FunctionId) (s : Progress) : Progress :=
  match s.place with
  | none => s
  | some (pred, b) =>
      let env := pred.elim s.env fun p => a.enter m p b s.env
      let out := (a.body b).foldl (a.exec m) (env, s.trace ++ [.enter b])
      ⟨(a.next m f out.1 b).map fun t => (some b, t), out.1, out.2⟩

/-- The block where a function starts. -/
def entryOf (a : Arena) (f : FunctionId) : Option BlockId := do
  (← (a.blocksOf f).toOption).head?

/-- The execution of a function before its first block. -/
def start (a : Arena) (f : FunctionId) (env : Env) : Progress :=
  ⟨(a.entryOf f).map fun b => (none, b), env, []⟩

/-- The events of the first `n` blocks of an execution. -/
def observe (a : Arena) (m : Meaning) (f : FunctionId) (env : Env) (n : Nat) : List Event :=
  ((a.execBlock m f)^[n] (a.start f env)).trace

/-! ### Reductions -/

/-- Control can get to a block. -/
def Reachable (a : Arena) (f : FunctionId) (b : BlockId) : Prop :=
  ∃ root, a.entryOf f = some root ∧ Reaches root a.Flows (fun _ => False) b

theorem Reachable.flow {a : Arena} {f : FunctionId} {b : BlockId} (hb : a.Reachable f b)
    (hbt : a.Flows b t) : a.Reachable f t := by
  obtain ⟨root, hroot, hreach⟩ := hb
  exact ⟨root, hroot, hreach.step hbt (by simp)⟩

/-- A value that an instruction outside `keep` defines at a place that control gets to. -/
def TakenOut (a : Arena) (f : FunctionId) (keep : InstrId → Bool) (v : ValueId) : Prop :=
  ∃ b i ins, a.Reachable f b ∧ i ∈ a.body b ∧ keep i = false ∧ a.instrs[i.idx]? = some ins
    ∧ some v ∈ ins.definitions

/-- In every such environment a use finds the same lanes in both arenas, and in `a'` it does not
read a value that was taken out. -/
structure SameReading (a a' : Arena) (taken : ValueId → Prop) (envs : Env → Prop) (u : UseId) :
    Prop where
  operand : ∀ env, envs env → a'.operand env u = a.operand env u
  kept : ∀ use v, a'.uses[u.idx]? = some use → use.value = some v → ¬ taken v

/-- The function in `a'` is the one in `a` without the instructions outside `keep`, and with
readings turned to other values. The environments `envs` are those that can arise in `a` before
an instruction of a block, given by its position, or at the end of the block. -/
structure Reduction (a a' : Arena) (f : FunctionId) (keep : InstrId → Bool)
    (envs : BlockId → Nat → Env → Prop) : Prop where
  blocksOf : a'.blocksOf f = a.blocksOf f
  bodyRegion : a'.bodyRegion f = a.bodyRegion f
  constructs : a'.constructs = a.constructs
  exits : ∀ b : BlockId, (a'.blocks[b.idx]?).map (·.exits) = (a.blocks[b.idx]?).map (·.exits)
  body : ∀ b, a.Reachable f b → a'.body b = (a.body b).filter keep
  instr : ∀ (i : InstrId) ins, a.instrs[i.idx]? = some ins → ∃ ins', a'.instrs[i.idx]? = some ins'
    ∧ ins'.action = ins.action ∧ ins'.indirect = ins.indirect
  listed : ∀ b, a.Reachable f b → ∀ i ∈ a.body b, ∃ ins, a.instrs[i.idx]? = some ins
  width : ∀ v, a'.widthOf v = a.widthOf v
  plain : ∀ u, a'.isPlain u = a.isPlain u
  silent : ∀ b, a.Reachable f b → ∀ i ∈ a.body b, keep i = false → ∀ ins,
    a.instrs[i.idx]? = some ins → ∀ env, a.events env i ins = []
  source : ∀ b, a.Reachable f b → ∀ (k : Nat) i, (a.body b)[k]? = some i → keep i = true →
    ∀ ins, a.instrs[i.idx]? = some ins → ins.isPhi = false → ∀ u, some u ∈ ins.sources →
      SameReading a a' (a.TakenOut f keep) (envs b k) u
  incoming : ∀ b, a.Reachable f b → ∀ t, a.Flows b t → ∀ i ∈ a.body t, keep i = true →
    ∀ ins dest srcs u, a.instrs[i.idx]? = some ins → ins.action = .phi dest srcs →
      phiSourceFor srcs b = some u →
      SameReading a a' (a.TakenOut f keep) (envs b (a.body b).length) u
  condition : ∀ b, a.Reachable f b → ∀ u, a.conditionAfter f b = some u →
    (∀ env, envs b (a.body b).length env → a'.conditionLanes env u = a.conditionLanes env u)
      ∧ ∀ use v, a'.uses[u.idx]? = some use → use.value = some v → ¬ a.TakenOut f keep v
  first : ∀ root env, a.entryOf f = some root → envs root 0 env
  step : ∀ b, a.Reachable f b → ∀ (k : Nat) i, (a.body b)[k]? = some i → ∀ env, envs b k env →
    ∀ m past, envs b (k + 1) (a.exec m (env, past) i).1
  flow : ∀ b, a.Reachable f b → ∀ t, a.Flows b t → ∀ env, envs b (a.body b).length env →
    ∀ m, envs t 0 (a.enter m b t env)

end Arena

/-! ### Storing results -/

theorem lookup_flatMap_filter {α β γ : Type} [BEq β] [LawfulBEq β] (l : List α) (keep : α → Bool)
    (g g' : α → List (β × γ)) (x : β) (hkeep : ∀ i ∈ l, keep i = true → g' i = g i)
    (hdrop : ∀ i ∈ l, keep i = false → (g i).lookup x = none) :
    ((l.filter keep).flatMap g').lookup x = (l.flatMap g).lookup x := by
  induction l with
  | nil => rfl
  | cons i l ih =>
    have ih' := ih (fun j hj => hkeep j (List.mem_cons_of_mem _ hj))
      fun j hj => hdrop j (List.mem_cons_of_mem _ hj)
    cases hi : keep i with
    | true =>
      rw [List.filter_cons_of_pos hi, List.flatMap_cons, List.flatMap_cons, List.lookup_append,
        List.lookup_append, hkeep i List.mem_cons_self hi, ih']
    | false =>
      rw [List.filter_cons_of_neg (by simp [hi]), List.flatMap_cons, List.lookup_append,
        hdrop i List.mem_cons_self hi, Option.none_or, ih']

theorem Env.store_of_notMem {env : Env} {results : List (ValueId × Lanes)}
    (h : ∀ x, (v, x) ∉ results) : env.store results v = env v := by
  have hnone : results.lookup v = none := by
    rw [List.lookup_eq_none_iff]
    intro p hp
    rw [bne_iff_ne]
    rintro rfl
    exact h p.2 hp
  rw [Env.store, hnone]
  rfl

namespace Arena

variable {a a' : Arena} {f : FunctionId} {keep : InstrId → Bool}
  {envs : BlockId → Nat → Env → Prop}

/-- Only what an instruction defines is stored. -/
theorem mem_definitions_of_mem_results {past : List Event} {env : Env}
    (h : (v, x) ∈ a.results m past env ins) :
    some v ∈ ins.definitions := by
  -- A single destination is stored as such, a parallel copy stores each of its entries.
  have single {dest : Option ValueId} {g : ValueId → Lanes}
      (h : (v, x) ∈ dest.toList.map fun w => (w, g w)) : some v = dest := by
    obtain ⟨w, hw, he⟩ := List.mem_map.mp h
    cases he
    exact (Option.mem_toList.mp hw).symm
  cases hact : ins.action with
  | alu p | tex _ _ _ _ _ | const _ _ | undef _ =>
    simp only [results, hact] at h
    simp [Instr.definitions, hact, ← single h]
  | intrinsic op dest srcs base =>
    simp only [results, hact] at h
    simp [Instr.definitions, hact, ← single h]
  | parallelCopy entries =>
    simp only [results, hact] at h
    obtain ⟨e, he, heq⟩ := List.mem_map.mp h
    cases heq
    simp only [Instr.definitions, hact]
    exact List.mem_map.mpr ⟨e, he, rfl⟩
  | phi _ _ | jump _ | call _ _ => simp [results, hact] at h

theorem mem_definitions_of_mem_merged {pred : BlockId} {env : Env}
    (h : (v, x) ∈ a.merged m pred env i) :
    ∃ ins, a.instrs[i.idx]? = some ins ∧ some v ∈ ins.definitions := by
  unfold merged at h
  split at h
  case h_1 w srcs hact =>
    obtain ⟨ins, hins, hact⟩ := Option.map_eq_some_iff.mp hact
    obtain ⟨u, -, hu⟩ := List.mem_map.mp h
    cases hu
    exact ⟨ins, hins, by simp [Instr.definitions, hact]⟩
  case h_2 => simp at h

/-! ### One instruction -/

/-- Two environments agree on all values that were not taken out. -/
def Agree (taken : ValueId → Prop) (env env' : Env) : Prop :=
  ∀ v, ¬ taken v → env' v = env v

theorem SameReading.operand_eq {taken : ValueId → Prop} {within : Env → Prop} {u : UseId}
    (h : SameReading a a' taken within u) {env env' : Env} (henv : within env)
    (hagree : Agree taken env env') : a'.operand env' u = a.operand env u := by
  rw [← h.operand env henv]
  unfold Arena.operand
  cases huse : a'.uses[u.idx]? with
  | none => rfl
  | some use =>
    cases hv : use.value with
    | none => simp [hv]
    | some v => simp [hv, hagree v (h.kept use v huse hv)]

/-- Instructions that do the same and read the same have the same results and events. -/
theorem results_congr (hwidth : ∀ v, a'.widthOf v = a.widthOf v)
    (hplain : ∀ u, a'.isPlain u = a.isPlain u) {ins' : Instr}
    (hact : ins'.action = ins.action) (hind : ins'.indirect = ins.indirect) {env env' : Env}
    (hread : ∀ u, some u ∈ ins.sources → a'.operand env' u = a.operand env u) (m : Meaning)
    (past : List Event) (i : InstrId) :
    a'.results m past env' ins' = a.results m past env ins
      ∧ a'.events env' i ins' = a.events env i ins := by
  have hbind : ∀ s ∈ ins.sources, s.bind (a'.operand env') = s.bind (a.operand env) := by
    rintro (_ | u) hs
    · rfl
    · exact hread u hs
  have hops : a'.operands env' ins' = a.operands env ins := by
    rw [operands, operands, Instr.sources_congr hact hind]
    exact List.map_congr_left hbind
  have hmoves (p : Alu) : a'.movesLanes p = a.movesLanes p := by
    rw [movesLanes, movesLanes, show a'.isPlain = a.isPlain from funext hplain]
  unfold results events
  rw [hact, hops]
  cases haction : ins.action with
  | alu p =>
    refine ⟨?_, rfl⟩
    have hmoved : a'.moved env' p.srcs = a.moved env p.srcs := by
      unfold moved
      rw [List.flatMap_congr fun s hs => by rw [hbind s (Instr.mem_sources_of_alu haction hs)]]
    simp only [hmoves, hmoved, hwidth]
  | parallelCopy entries =>
    refine ⟨List.map_congr_left fun e he => ?_, rfl⟩
    rw [hread e.2 (Instr.mem_sources_of_parallelCopy haction he)]
  | _ => exact ⟨rfl, rfl⟩

namespace Reduction

variable {b : BlockId} {env env' : Env}

theorem exec_kept (h : Reduction a a' f keep envs) (hb : a.Reachable f b) {k : Nat}
    (hi : (a.body b)[k]? = some i) (hkeep : keep i = true) (henv : envs b k env)
    (hagree : Agree (a.TakenOut f keep) env env') (m : Meaning) (past : List Event) :
    Agree (a.TakenOut f keep) (a.exec m (env, past) i).1 (a'.exec m (env', past) i).1
      ∧ (a'.exec m (env', past) i).2 = (a.exec m (env, past) i).2 := by
  obtain ⟨ins, hins⟩ := h.listed b hb i (List.mem_of_getElem? hi)
  obtain ⟨ins', hins', hact, hind⟩ := h.instr i ins hins
  have hsame : a'.results m past env' ins' = a.results m past env ins
      ∧ a'.events env' i ins' = a.events env i ins := by
    cases hphi : ins.isPhi with
    | false =>
      refine results_congr h.width h.plain hact hind (fun u hu => ?_) m past i
      exact (h.source b hb k i hi hkeep ins hins hphi u hu).operand_eq henv hagree
    | true =>
      -- A φ does nothing once its block is entered.
      unfold Instr.isPhi at hphi
      split at hphi
      case h_1 haction => simp [results, events, hact, haction]
      case h_2 => simp at hphi
  simp only [exec, hins, hins', hsame.1, hsame.2, and_true]
  intro v hv
  simp only [Env.store, hagree v hv]

theorem exec_dropped (h : Reduction a a' f keep envs) (hb : a.Reachable f b)
    (hi : i ∈ a.body b) (hkeep : keep i = false)
    (hagree : Agree (a.TakenOut f keep) env env') (m : Meaning) (past : List Event) :
    Agree (a.TakenOut f keep) (a.exec m (env, past) i).1 env'
      ∧ (a.exec m (env, past) i).2 = past := by
  obtain ⟨ins, hins⟩ := h.listed b hb i hi
  simp only [exec, hins, h.silent b hb i hi hkeep ins hins env, List.append_nil, and_true]
  intro v hv
  rw [hagree v hv, Env.store_of_notMem]
  intro x hx
  exact hv ⟨b, i, ins, hb, hi, hkeep, hins, mem_definitions_of_mem_results hx⟩

/-! ### Blocks and runs -/

theorem foldl_exec (h : Reduction a a' f keep envs) (hb : a.Reachable f b) (m : Meaning)
    (before rest : List InstrId) (hbody : a.body b = before ++ rest) (past : List Event)
    (henv : envs b before.length env) (hagree : Agree (a.TakenOut f keep) env env') :
    Agree (a.TakenOut f keep) (rest.foldl (a.exec m) (env, past)).1
        ((rest.filter keep).foldl (a'.exec m) (env', past)).1
      ∧ ((rest.filter keep).foldl (a'.exec m) (env', past)).2
        = (rest.foldl (a.exec m) (env, past)).2
      ∧ envs b (a.body b).length (rest.foldl (a.exec m) (env, past)).1 := by
  induction rest generalizing before env env' past with
  | nil =>
    rw [List.append_nil] at hbody
    exact ⟨hagree, rfl, hbody ▸ henv⟩
  | cons i rest ih =>
    have hi : (a.body b)[before.length]? = some i := by simp [hbody]
    have hnext := h.step b hb before.length i hi env henv m past
    have hsplit : a.body b = (before ++ [i]) ++ rest := by simp [hbody]
    have hlen : (before ++ [i]).length = before.length + 1 := by simp
    rw [List.foldl_cons]
    cases hkeep : keep i with
    | true =>
      obtain ⟨hagree', htrace⟩ := h.exec_kept hb hi hkeep henv hagree m past
      rw [List.filter_cons_of_pos hkeep, List.foldl_cons,
        ← Prod.eta (a'.exec m (env', past) i), htrace]
      exact ih (before ++ [i]) hsplit _ (hlen ▸ hnext) hagree'
    | false =>
      obtain ⟨hagree', htrace⟩ :=
        h.exec_dropped hb (List.mem_of_getElem? hi) hkeep hagree m past
      rw [List.filter_cons_of_neg (by simp [hkeep]), ← Prod.eta (a.exec m (env, past) i), htrace]
      exact ih (before ++ [i]) hsplit _ (hlen ▸ hnext) hagree'

theorem enter_agree (h : Reduction a a' f keep envs) (hb : a.Reachable f b)
    (hbt : a.Flows b t) (ht : a.Reachable f t) (henv : envs b (a.body b).length env)
    (hagree : Agree (a.TakenOut f keep) env env') (m : Meaning) :
    Agree (a.TakenOut f keep) (a.enter m b t env) (a'.enter m b t env') := by
  intro v hv
  unfold enter Env.store
  rw [hagree v hv, h.body t ht]
  congr 1
  refine lookup_flatMap_filter _ keep _ _ v (fun i hi hkeep => ?_) fun i hi hkeep => ?_
  · obtain ⟨ins, hins⟩ := h.listed t ht i hi
    obtain ⟨ins', hins', hact, -⟩ := h.instr i ins hins
    unfold merged
    simp only [hins, hins', Option.map_some, hact]
    cases haction : ins.action with
    | phi dest srcs =>
      cases dest with
      | none => rfl
      | some d =>
        refine List.map_congr_left fun u hu => ?_
        have hsame := h.incoming b hb t hbt i hi hkeep ins (some d) srcs u hins haction
          (Option.mem_toList.mp hu)
        rw [hsame.operand_eq henv hagree]
    | _ => rfl
  · rw [List.lookup_eq_none_iff]
    intro p hp
    rw [bne_iff_ne]
    rintro rfl
    obtain ⟨ins, hins, hdef⟩ := mem_definitions_of_mem_merged hp
    exact hv ⟨t, i, ins, ht, hi, hkeep, hins, hdef⟩

theorem next_eq (h : Reduction a a' f keep envs) (hb : a.Reachable f b)
    (henv : envs b (a.body b).length env) (hagree : Agree (a.TakenOut f keep) env env')
    (m : Meaning) : a'.next m f env' b = a.next m f env b := by
  have hcond : a'.conditionAfter f b = a.conditionAfter f b := by
    unfold conditionAfter
    rw [h.bodyRegion, h.constructs]
  unfold next
  obtain ⟨hbb', hbb⟩ | ⟨bb', bb, hbb', hbb, hexits⟩ := map_eq_map_cases (h.exits b)
  · simp [hbb', hbb]
  · simp only [hbb', hbb, hexits, Option.bind_eq_bind, Option.bind_some, hcond]
    cases bb.exits with
    | nowhere => rfl
    | goto t => rfl
    | fork yes no =>
      cases hu : a.conditionAfter f b with
      | none => rfl
      | some u =>
        obtain ⟨hlanes, hkept⟩ := h.condition b hb u hu
        have heq : a'.conditionLanes env' u = a.conditionLanes env u := by
          rw [← hlanes env henv]
          unfold conditionLanes
          cases huse : a'.uses[u.idx]? with
          | none => rfl
          | some use =>
            cases hv : use.value with
            | none => simp [hv]
            | some v => simp [hv, hagree v (hkept use v huse hv)]
        simp [heq]

theorem flows_of_next (h : a.next m f env b = some t) :
    a.Flows b t := by
  unfold next at h
  cases hbb : a.blocks[b.idx]? with
  | none => simp [hbb] at h
  | some bb =>
    refine ⟨bb, hbb, ?_⟩
    simp only [hbb, Option.bind_eq_bind, Option.bind_some] at h
    cases hexits : bb.exits with
    | nowhere => simp [hexits] at h
    | goto t' =>
      simp only [hexits, Option.some.injEq] at h
      simp [Exits.toList, h]
    | fork yes no =>
      simp only [hexits, Option.bind_eq_some_iff] at h
      obtain ⟨u, -, lanes, -, h⟩ := h
      split at h <;> cases h <;> simp [Exits.toList]

/-- Two executions side by side, the second one of a reduction. -/
structure Related (a : Arena) (f : FunctionId) (keep : InstrId → Bool)
    (envs : BlockId → Nat → Env → Prop) (s s' : Progress) : Prop where
  place : s'.place = s.place
  trace : s'.trace = s.trace
  agree : Agree (a.TakenOut f keep) s.env s'.env
  reachable : ∀ pred b, s.place = some (pred, b) → a.Reachable f b
  first : ∀ b, s.place = some (none, b) → envs b 0 s.env
  flow : ∀ p b, s.place = some (some p, b) →
    a.Reachable f p ∧ a.Flows p b ∧ envs p (a.body p).length s.env

theorem execBlock_related (h : Reduction a a' f keep envs) (m : Meaning) {s s' : Progress}
    (hs : Related a f keep envs s s') :
    Related a f keep envs (a.execBlock m f s) (a'.execBlock m f s') := by
  unfold execBlock
  rw [hs.place]
  cases hplace : s.place with
  | none => exact hs
  | some q =>
    obtain ⟨pred, b⟩ := q
    have hb := hs.reachable pred b hplace
    -- The environments agree once the φs of the block are stored.
    have hentered : Agree (a.TakenOut f keep) (pred.elim s.env fun p => a.enter m p b s.env)
          (pred.elim s'.env fun p => a'.enter m p b s'.env)
        ∧ envs b 0 (pred.elim s.env fun p => a.enter m p b s.env) := by
      cases pred with
      | none => exact ⟨hs.agree, hs.first b hplace⟩
      | some p =>
        obtain ⟨hp, hpb, henv⟩ := hs.flow p b hplace
        exact ⟨h.enter_agree hp hpb hb henv hs.agree m, h.flow p hp b hpb s.env henv m⟩
    obtain ⟨hagree, htrace, henv⟩ := h.foldl_exec hb m [] (a.body b) rfl
      (s.trace ++ [.enter b]) hentered.2 hentered.1
    rw [← h.body b hb, ← hs.trace] at hagree htrace
    rw [← hs.trace] at henv
    dsimp only
    have hnext := h.next_eq hb henv hagree m
    rw [hs.trace] at hnext hagree htrace henv ⊢
    refine ⟨by rw [hnext], htrace, hagree, ?_, ?_, ?_⟩
    · rintro p t ht
      obtain ⟨t', ht', heq⟩ := Option.map_eq_some_iff.mp ht
      cases heq
      exact hb.flow (flows_of_next ht')
    · rintro t ht
      obtain ⟨t', -, heq⟩ := Option.map_eq_some_iff.mp ht
      cases heq
    · rintro p t ht
      obtain ⟨t', ht', heq⟩ := Option.map_eq_some_iff.mp ht
      cases heq
      exact ⟨hb, flows_of_next ht', henv⟩

/-- A reduction is not observed. -/
theorem observe_eq (h : Reduction a a' f keep envs) (m : Meaning) (env : Env) (n : Nat) :
    a'.observe m f env n = a.observe m f env n := by
  have hentry : a'.entryOf f = a.entryOf f := by
    unfold entryOf
    rw [h.blocksOf]
  have hstart : Related a f keep envs (a.start f env) (a'.start f env) := by
    unfold start
    rw [hentry]
    refine ⟨rfl, rfl, fun _ _ => rfl, ?_, ?_, ?_⟩
    · intro pred b hb
      obtain ⟨root, hroot, heq⟩ := Option.map_eq_some_iff.mp hb
      cases heq
      exact ⟨b, hroot, .root (by simp)⟩
    · intro b hb
      obtain ⟨root, hroot, heq⟩ := Option.map_eq_some_iff.mp hb
      cases heq
      exact h.first b env hroot
    · intro p b hb
      obtain ⟨root, -, heq⟩ := Option.map_eq_some_iff.mp hb
      cases heq
  have hrun : Related a f keep envs ((a.execBlock m f)^[n] (a.start f env))
      ((a'.execBlock m f)^[n] (a'.start f env)) := by
    induction n with
    | zero => exact hstart
    | succ n ih =>
      rw [Function.iterate_succ_apply', Function.iterate_succ_apply']
      exact h.execBlock_related m ih
  exact hrun.trace

end Reduction

end Arena

end ShaderCompiler
