import ShaderCompiler.Proofs.Edit

/-!
# The code of an arena

Part of an arena is bookkeeping: the use-lists of values and the places that uses remember in
them, the numbers of blocks and instructions, the verdicts of liveness scans, the analyses of
functions and the counters. What remains is the code. Most of what passes do leaves the code
alone, and what a program means depends on the code only.
-/

namespace ShaderCompiler

variable {v : ValueId} {x : Value} {u : UseId} {i : InstrId} {b : BlockId} {f : FunctionId}
  {α : Type} {k : Nat}

/-- The value without its use-lists. -/
def Value.bare (x : Value) : Value := { x with uses := [], conditions := [] }

/-- The use without its place in a use-list. -/
def Use.bare (x : Use) : Use := { x with slot := none }

/-- The instruction without its number and verdict. -/
def Instr.bare (x : Instr) : Instr := { x with index := 0, live := false }

/-- The block without its number. -/
def Block.bare (x : Block) : Block := { x with index := 0 }

/-- The function without its analyses. -/
def Function.bare (x : Function) : Function := { x with valid := .none, dominance := none }

namespace Arena

/-- The arena without bookkeeping. -/
def code (a : Arena) : Arena where
  values := a.values.map Value.bare
  uses := a.uses.map Use.bare
  instrs := a.instrs.map Instr.bare
  blocks := a.blocks.map Block.bare
  constructs := a.constructs
  functions := a.functions.map Function.bare
  counters := ⟨0, 0, 0, 0⟩

variable {a a' : Arena}

section Lookups

variable (a)

@[simp] theorem code_values (k : Nat) : a.code.values[k]? = (a.values[k]?).map Value.bare :=
  Array.getElem?_map

@[simp] theorem code_uses (k : Nat) : a.code.uses[k]? = (a.uses[k]?).map Use.bare :=
  Array.getElem?_map

@[simp] theorem code_instrs (k : Nat) : a.code.instrs[k]? = (a.instrs[k]?).map Instr.bare :=
  Array.getElem?_map

@[simp] theorem code_blocks (k : Nat) : a.code.blocks[k]? = (a.blocks[k]?).map Block.bare :=
  Array.getElem?_map

@[simp] theorem code_functions (k : Nat) :
    a.code.functions[k]? = (a.functions[k]?).map Function.bare :=
  Array.getElem?_map

end Lookups

/-! ### Views of the code -/

section Views

variable (a)

theorem value_code (v : ValueId) : a.code.value v = Value.bare <$> a.value v := by
  unfold value
  rw [code_values]
  cases a.values[v.idx]? <;> rfl

theorem use_code (u : UseId) : a.code.use u = Use.bare <$> a.use u := by
  unfold Arena.use
  rw [code_uses]
  cases a.uses[u.idx]? <;> rfl

theorem instr_code (i : InstrId) : a.code.instr i = Instr.bare <$> a.instr i := by
  unfold instr
  rw [code_instrs]
  cases a.instrs[i.idx]? <;> rfl

@[simp] theorem alu?_bare (ins : Instr) : ins.bare.alu? = ins.alu? := rfl

@[simp] theorem valueOf_code (u : UseId) : a.code.valueOf u = a.valueOf u := by
  simp only [valueOf, use_code, bind_map_left, Use.bare]

@[simp] theorem aluPosition_code (u : UseId) : a.code.aluPosition u = a.aluPosition u := by
  simp only [aluPosition, use_code, instr_code, bind_map_left, Use.bare, alu?_bare]

@[simp] theorem sourceWidth_code (p : Alu) (k : Nat) :
    a.code.sourceWidth p k = a.sourceWidth p k := by
  simp only [sourceWidth, value_code, bind_map_left, Value.bare]

/-- What a use reads does not depend on bookkeeping. -/
@[simp] theorem reads_code (u : UseId) : a.code.reads u = a.reads u := by
  simp only [reads, aluPosition_code, sourceWidth_code, valueOf_code, value_code, bind_map_left,
    Value.bare]

end Views

/-! ### Arenas with the same code -/

theorem exists_of_map_eq {β : Type} {m : α → β} {t t' : Array α} {x : α} (h : t'.map m = t.map m)
    (hx : t[k]? = some x) : ∃ y, t'[k]? = some y ∧ m y = m x := by
  rw [← Option.map_eq_some_iff, ← Array.getElem?_map, h, Array.getElem?_map, hx, Option.map_some]

theorem value_of_values (h : a'.code.values = a.code.values)
    (hx : a.values[v.idx]? = some x) :
    ∃ l m, a'.values[v.idx]? = some { x with uses := l, conditions := m } := by
  obtain ⟨y, hy, hbare⟩ := exists_of_map_eq h hx
  refine ⟨y.uses, y.conditions, hy.trans (congrArg some ?_)⟩
  cases x
  cases y
  simp_all [Value.bare]

theorem Use.eq_of_bare {x y : Use} (h : y.bare = x.bare) : y = { x with slot := y.slot } := by
  cases x
  cases y
  simp_all [Use.bare]

theorem use_of_uses (h : a'.code.uses = a.code.uses) {x : Use}
    (hx : a.uses[u.idx]? = some x) : ∃ k, a'.uses[u.idx]? = some { x with slot := k } := by
  obtain ⟨y, hy, hbare⟩ := exists_of_map_eq h hx
  exact ⟨y.slot, hy.trans (congrArg some (Use.eq_of_bare hbare))⟩

theorem instr_of_instrs (h : a'.code.instrs = a.code.instrs) {x : Instr}
    (hx : a.instrs[i.idx]? = some x) :
    ∃ n v, a'.instrs[i.idx]? = some { x with index := n, live := v } := by
  obtain ⟨y, hy, hbare⟩ := exists_of_map_eq h hx
  refine ⟨y.index, y.live, hy.trans (congrArg some ?_)⟩
  cases x
  cases y
  simp_all [Instr.bare]

theorem block_of_blocks (h : a'.code.blocks = a.code.blocks) {x : Block}
    (hx : a.blocks[b.idx]? = some x) : ∃ n, a'.blocks[b.idx]? = some { x with index := n } := by
  obtain ⟨y, hy, hbare⟩ := exists_of_map_eq h hx
  refine ⟨y.index, hy.trans (congrArg some ?_)⟩
  cases x
  cases y
  simp_all [Block.bare]

theorem function_of_functions (h : a'.code.functions = a.code.functions)
    {x : Function} (hx : a.functions[f.idx]? = some x) :
    ∃ s d, a'.functions[f.idx]? = some { x with valid := s, dominance := d } := by
  obtain ⟨y, hy, hbare⟩ := exists_of_map_eq h hx
  refine ⟨y.valid, y.dominance, hy.trans (congrArg some ?_)⟩
  cases x
  cases y
  simp_all [Function.bare]

theorem exits_code (a : Arena) (b : BlockId) :
    (a.code.blocks[b.idx]?).map Block.exits = (a.blocks[b.idx]?).map Block.exits := by
  rw [code_blocks, Option.map_map]
  rfl

theorem body_of_blocks (h : a'.code.blocks = a.code.blocks) : a'.body = a.body := by
  funext b
  cases hb : a.blocks[b.idx]? with
  | none =>
    have hnone : (a'.blocks[b.idx]?).map Block.bare = none := by
      rw [← code_blocks, h, code_blocks, hb, Option.map_none]
    rw [Option.map_eq_none_iff] at hnone
    simp [body, hb, hnone]
  | some bb =>
    obtain ⟨n, hn⟩ := block_of_blocks h hb
    rw [body_of_block hb, body_of_block hn]

section SameCode

variable (h : a'.code = a.code)

include h

theorem constructs_of_code : a'.constructs = a.constructs :=
  congrArg (·.constructs) h

theorem value_of_code (hx : a.values[v.idx]? = some x) :
    ∃ l m, a'.values[v.idx]? = some { x with uses := l, conditions := m } :=
  value_of_values (congrArg (·.values) h) hx

theorem use_of_code {x : Use} (hx : a.uses[u.idx]? = some x) :
    ∃ k, a'.uses[u.idx]? = some { x with slot := k } :=
  use_of_uses (congrArg (·.uses) h) hx

theorem instr_of_code {x : Instr} (hx : a.instrs[i.idx]? = some x) :
    ∃ n v, a'.instrs[i.idx]? = some { x with index := n, live := v } :=
  instr_of_instrs (congrArg (·.instrs) h) hx

theorem block_of_code {x : Block} (hx : a.blocks[b.idx]? = some x) :
    ∃ n, a'.blocks[b.idx]? = some { x with index := n } :=
  block_of_blocks (congrArg (·.blocks) h) hx

theorem function_of_code {x : Function} (hx : a.functions[f.idx]? = some x) :
    ∃ s d, a'.functions[f.idx]? = some { x with valid := s, dominance := d } :=
  function_of_functions (congrArg (·.functions) h) hx

theorem body_of_code : a'.body = a.body :=
  body_of_blocks (congrArg (·.blocks) h)

end SameCode

/-! ### Changes of the code -/

theorem map_modify {t : Array α} {m f : α → α} (f' : α → α)
    (hf : ∀ x, m (f x) = f' (m x)) : (t.modify k f).map m = (t.map m).modify k f' := by
  refine Array.ext_getElem? fun n => ?_
  simp only [Array.getElem?_map, Array.getElem?_modify]
  split
  · cases t[n]? <;> simp [hf]
  · rfl

theorem map_modify_of_eq {β : Type} {t : Array α} {m : α → β} {f : α → α}
    (hf : ∀ x, m (f x) = m x) : (t.modify k f).map m = t.map m := by
  refine Array.ext_getElem? fun n => ?_
  simp only [Array.getElem?_map, Array.getElem?_modify]
  split
  · cases t[n]? <;> simp [hf]
  · rfl

theorem code_modifyValue {f : Value → Value} (hf : ∀ x, (f x).bare = x.bare) :
    (a.modifyValue v f).code = a.code := by
  simp only [code, modifyValue, map_modify_of_eq hf]

theorem code_modifyUse_of_bare {f : Use → Use} (hf : ∀ x, (f x).bare = x.bare) :
    (a.modifyUse u f).code = a.code := by
  simp only [code, modifyUse, map_modify_of_eq hf]

theorem code_modifyInstr_of_bare {f : Instr → Instr}
    (hf : ∀ x, (f x).bare = x.bare) : (a.modifyInstr i f).code = a.code := by
  simp only [code, modifyInstr, map_modify_of_eq hf]

theorem code_modifyBlock_of_bare {f : Block → Block}
    (hf : ∀ x, (f x).bare = x.bare) : (a.modifyBlock b f).code = a.code := by
  simp only [code, modifyBlock, map_modify_of_eq hf]

theorem code_modifyFunction_of_bare {k : Function → Function}
    (hk : ∀ x, (k x).bare = x.bare) : (a.modifyFunction f k).code = a.code := by
  simp only [code, modifyFunction, map_modify_of_eq hk]

theorem code_modifyUse {f f' : Use → Use} (hf : ∀ x, (f x).bare = f' x.bare) :
    (a.modifyUse u f).code = a.code.modifyUse u f' := by
  simp only [code, modifyUse, map_modify _ hf]

theorem code_modifyInstr {f f' : Instr → Instr}
    (hf : ∀ x, (f x).bare = f' x.bare) : (a.modifyInstr i f).code = a.code.modifyInstr i f' := by
  simp only [code, modifyInstr, map_modify _ hf]

theorem code_modifyBlock {f f' : Block → Block}
    (hf : ∀ x, (f x).bare = f' x.bare) : (a.modifyBlock b f).code = a.code.modifyBlock b f' := by
  simp only [code, modifyBlock, map_modify _ hf]

@[simp] theorem code_recount (k : Counters → Counters) : (a.recount k).code = a.code := rfl

end Arena

end ShaderCompiler
