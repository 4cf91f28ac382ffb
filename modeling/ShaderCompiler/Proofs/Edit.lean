import Mathlib
import ShaderCompiler.Analysis

/-!
# Runs of changes

A change of the arena is a function from an arena to an outcome. A statement about a change
says when its run at an arena succeeds, with which result and which arena. The lemmas of this
module take such a statement apart, one per building block, so that later modules never
unfold the monad.

The elementary changes of the tables have names of their own (`Arena.modifyUse` and its kin),
with lemmas on what is found in a table afterwards.
-/

namespace ShaderCompiler

variable {ε : Type} {y : Unit} {use : Use}

/-! ### Views that may fail -/

section Views

variable {α β : Type}

@[simp] theorem except_bind_eq_ok {x : Except ε α} {k : α → Except ε β} {z : β} :
    (x >>= k) = .ok z ↔ ∃ y, x = .ok y ∧ k y = .ok z := by
  cases x with
  | error e => simp [bind, Except.bind]
  | ok y => simp [bind, Except.bind]

@[simp] theorem except_pure_eq_ok {y z : α} :
    (pure y : Except ε α) = .ok z ↔ y = z := by
  simp [pure, Except.pure]

@[simp] theorem except_throw_eq_ok {e : ε} {z : α} :
    (throw e : Except ε α) = .ok z ↔ False := by
  simp [throw, throwThe, MonadExceptOf.throw]

@[simp] theorem except_map_eq_ok {x : Except ε α} {k : α → β} {z : β} :
    (k <$> x) = .ok z ↔ ∃ y, x = .ok y ∧ k y = z := by
  cases x with
  | error e => simp [Functor.map, Except.map]
  | ok y => simp [Functor.map, Except.map]

@[simp] theorem except_discard_eq_ok {x : Except ε α} {y : PUnit} :
    (discard x : Except ε PUnit) = .ok y ↔ ∃ z, x = .ok z := by
  cases x with
  | error e => simp [discard, Functor.discard, Functor.mapConst, Except.map]
  | ok z => simp [discard, Functor.discard, Functor.mapConst, Except.map]

theorem eq_ok_of_mem_toOption {x : Except ε α} {y : α} (h : y ∈ x.toOption) :
    x = .ok y := by
  cases x with
  | error e => simp [Except.toOption] at h
  | ok z => simpa [Except.toOption] using h

@[simp] theorem present_eq_ok {o : Option α} {x : α} : present o = .ok x ↔ o = some x := by
  cases o <;> simp [present]

@[simp] theorem entry_eq_ok {l : List α} {i : Nat} {x : α} : entry l i = .ok x ↔ l[i]? = some x := by
  unfold entry
  cases l[i]? <;> simp

/-- What is found at two places is absent at both or agrees in what is compared. -/
theorem map_eq_map_cases {o o' : Option α} {p : α → β} (h : o'.map p = o.map p) :
    (o' = none ∧ o = none) ∨ ∃ x' x, o' = some x' ∧ o = some x ∧ p x' = p x := by
  cases o' <;> cases o <;> simp_all

theorem exists_of_forall₂ {R : α → β → Prop} {l : List α} {ys : List β}
    (h : List.Forall₂ R l ys) {x : α} (hx : x ∈ l) : ∃ y ∈ ys, R x y := by
  induction h with
  | nil => simp at hx
  | @cons x' y l ys hxy _ ih =>
    rcases List.mem_cons.mp hx with rfl | hx
    · exact ⟨y, List.mem_cons_self, hxy⟩
    · obtain ⟨z, hz, hxz⟩ := ih hx
      exact ⟨z, List.mem_cons_of_mem y hz, hxz⟩

/-- What a list is taken to, entry by entry. -/
theorem except_mapM_eq_ok {k : α → Except ε β} {l : List α} {ys : List β} :
    l.mapM k = .ok ys ↔ List.Forall₂ (fun x y => k x = .ok y) l ys := by
  induction l generalizing ys with
  | nil => simp [pure, Except.pure, eq_comm]
  | cons x l ih =>
    simp only [List.mapM_cons, except_bind_eq_ok, except_pure_eq_ok, ih]
    constructor
    · rintro ⟨y, hy, zs, hzs, rfl⟩
      exact .cons hy hzs
    · intro h
      cases h with
      | cons hy hzs => exact ⟨_, hy, _, hzs, rfl⟩

/-- What is collected from the entries of a list. -/
theorem except_flatMapM_eq_ok {k : α → Except ε (List β)} {l : List α} {ys : List β} :
    l.flatMapM k = .ok ys ↔ ∃ yss, List.Forall₂ (fun x y => k x = .ok y) l yss
      ∧ yss.flatten = ys := by
  induction l generalizing ys with
  | nil => simp
  | cons x l ih =>
    simp only [List.flatMapM_cons, except_bind_eq_ok, except_pure_eq_ok, ih]
    constructor
    · rintro ⟨y, hy, zs, ⟨zss, hzss, rfl⟩, rfl⟩
      exact ⟨y :: zss, .cons hy hzss, rfl⟩
    · rintro ⟨yss, h, rfl⟩
      cases h with
      | cons hy hzss => exact ⟨_, hy, _, ⟨_, hzss, rfl⟩, rfl⟩

theorem exists_forall₂ {R : α → β → Prop} {l : List α} (h : ∀ x ∈ l, ∃ y, R x y) :
    ∃ ys, List.Forall₂ R l ys := by
  induction l with
  | nil => exact ⟨[], .nil⟩
  | cons x l ih =>
    obtain ⟨y, hy⟩ := h x List.mem_cons_self
    obtain ⟨ys, hys⟩ := ih fun x hx => h x (List.mem_cons_of_mem _ hx)
    exact ⟨y :: ys, .cons hy hys⟩

/-- A fold succeeds if each of its steps does. -/
theorem exists_foldlM {σ : Type} (step : σ → α → Except ε σ) {l : List α}
    (h : ∀ x ∈ l, ∀ s, ∃ s', step s x = .ok s') (s : σ) : ∃ s', l.foldlM step s = .ok s' := by
  induction l generalizing s with
  | nil => exact ⟨s, rfl⟩
  | cons x l ih =>
    obtain ⟨s₁, hs₁⟩ := h x List.mem_cons_self s
    obtain ⟨s₂, hs₂⟩ := ih (fun x hx => h x (List.mem_cons_of_mem _ hx)) s₁
    exact ⟨s₂, by rw [List.foldlM_cons, except_bind_eq_ok]; exact ⟨s₁, hs₁, hs₂⟩⟩

end Views

/-! ### Lookups -/

namespace Arena

variable {a : Arena}

@[simp] theorem value_eq_ok {v : ValueId} {x : Value} :
    a.value v = .ok x ↔ a.values[v.idx]? = some x := present_eq_ok

@[simp] theorem use_eq_ok {u : UseId} {x : Use} :
    a.use u = .ok x ↔ a.uses[u.idx]? = some x := present_eq_ok

@[simp] theorem instr_eq_ok {i : InstrId} {x : Instr} :
    a.instr i = .ok x ↔ a.instrs[i.idx]? = some x := present_eq_ok

@[simp] theorem block_eq_ok {b : BlockId} {x : Block} :
    a.block b = .ok x ↔ a.blocks[b.idx]? = some x := present_eq_ok

@[simp] theorem construct_eq_ok {c : ConstructId} {x : Construct} :
    a.construct c = .ok x ↔ a.constructs[c.idx]? = some x := present_eq_ok

@[simp] theorem function_eq_ok {f : FunctionId} {x : Function} :
    a.function f = .ok x ↔ a.functions[f.idx]? = some x := present_eq_ok

@[simp] theorem valueOf_eq_ok {u : UseId} {v : ValueId} :
    a.valueOf u = .ok v ↔ ∃ use, a.uses[u.idx]? = some use ∧ use.value = some v := by
  simp [valueOf]

/-- The instructions of a block. -/
def body (a : Arena) (b : BlockId) : List InstrId :=
  (a.blocks[b.idx]?).elim [] (·.instrs)

theorem body_of_block {b : BlockId} {bb : Block} (h : a.blocks[b.idx]? = some bb) :
    a.body b = bb.instrs := by
  simp [body, h]

/-! ### Elementary changes -/

/-- The arena with another value at a place. -/
def modifyValue (a : Arena) (v : ValueId) (f : Value → Value) : Arena :=
  { a with values := a.values.modify v.idx f }

/-- The arena with another use at a place. -/
def modifyUse (a : Arena) (u : UseId) (f : Use → Use) : Arena :=
  { a with uses := a.uses.modify u.idx f }

/-- The arena with another instruction at a place. -/
def modifyInstr (a : Arena) (i : InstrId) (f : Instr → Instr) : Arena :=
  { a with instrs := a.instrs.modify i.idx f }

/-- The arena with another block at a place. -/
def modifyBlock (a : Arena) (b : BlockId) (f : Block → Block) : Arena :=
  { a with blocks := a.blocks.modify b.idx f }

/-- The arena with another function at a place. -/
def modifyFunction (a : Arena) (f : FunctionId) (g : Function → Function) : Arena :=
  { a with functions := a.functions.modify f.idx g }

/-- The arena with other counters. -/
def recount (a : Arena) (f : Counters → Counters) : Arena :=
  { a with counters := f a.counters }

section Fields

variable (a : Arena) (v : ValueId) (u : UseId) (i : InstrId) (b : BlockId) (f : FunctionId)
  (fv : Value → Value) (fu : Use → Use) (fi : Instr → Instr) (fb : Block → Block)
  (ff : Function → Function) (fc : Counters → Counters)

@[simp] theorem modifyValue_uses : (a.modifyValue v fv).uses = a.uses := rfl

@[simp] theorem modifyUse_values : (a.modifyUse u fu).values = a.values := rfl

@[simp] theorem modifyInstr_blocks : (a.modifyInstr i fi).blocks = a.blocks := rfl

@[simp] theorem modifyBlock_instrs : (a.modifyBlock b fb).instrs = a.instrs := rfl

@[simp] theorem modifyFunction_values : (a.modifyFunction f ff).values = a.values := rfl

theorem modifyValue_values (w : ValueId) :
    (a.modifyValue v fv).values[w.idx]? =
      if w = v then a.values[w.idx]?.map fv else a.values[w.idx]? := by
  obtain ⟨v⟩ := v
  obtain ⟨w⟩ := w
  simp [modifyValue, Array.getElem?_modify, eq_comm]

theorem modifyUse_uses (t : UseId) :
    (a.modifyUse u fu).uses[t.idx]? =
      if t = u then a.uses[t.idx]?.map fu else a.uses[t.idx]? := by
  obtain ⟨u⟩ := u
  obtain ⟨t⟩ := t
  simp [modifyUse, Array.getElem?_modify, eq_comm]

theorem modifyInstr_instrs_get (j : InstrId) :
    (a.modifyInstr i fi).instrs[j.idx]? =
      if j = i then a.instrs[j.idx]?.map fi else a.instrs[j.idx]? := by
  obtain ⟨i⟩ := i
  obtain ⟨j⟩ := j
  simp [modifyInstr, Array.getElem?_modify, eq_comm]

theorem modifyBlock_blocks_get (c : BlockId) :
    (a.modifyBlock b fb).blocks[c.idx]? =
      if c = b then a.blocks[c.idx]?.map fb else a.blocks[c.idx]? := by
  obtain ⟨b⟩ := b
  obtain ⟨c⟩ := c
  simp [modifyBlock, Array.getElem?_modify, eq_comm]

theorem modifyFunction_functions_get (g : FunctionId) :
    (a.modifyFunction f ff).functions[g.idx]? =
      if g = f then a.functions[g.idx]?.map ff else a.functions[g.idx]? := by
  obtain ⟨f⟩ := f
  obtain ⟨g⟩ := g
  simp [modifyFunction, Array.getElem?_modify, eq_comm]

/-- Of two changes of a function, one after the other, the second sees what the first made. -/
theorem modifyFunction_modifyFunction (fh : Function → Function) :
    (a.modifyFunction f ff).modifyFunction f fh = a.modifyFunction f fun g => fh (ff g) := by
  simp only [modifyFunction, mk.injEq, true_and, and_true]
  refine Array.ext_getElem? fun n => ?_
  simp only [Array.getElem?_modify]
  split
  · simp [Function.comp_def]
  · rfl

theorem modifyFunction_eq_self (h : ∀ g ∈ a.functions[f.idx]?, ff g = g) :
    a.modifyFunction f ff = a := by
  have hfunctions : a.functions.modify f.idx ff = a.functions := by
    refine Array.ext_getElem? fun n => ?_
    rw [Array.getElem?_modify]
    split
    case isTrue heq =>
      subst heq
      cases hg : a.functions[f.idx]? with
      | none => rfl
      | some g => rw [Option.map_some, h g hg]
    case isFalse => rfl
  rw [modifyFunction, hfunctions]

end Fields

section SameUse

variable {a : Arena} {u : UseId} {fu : Use → Use}

theorem modifyUse_get (h : a.uses[u.idx]? = some use) :
    (a.modifyUse u fu).uses[u.idx]? = some (fu use) := by
  rw [modifyUse_uses, if_pos rfl, h]
  rfl

/-- Only what becomes of the use at the place matters. -/
theorem modifyUse_congr {fw : Use → Use} (h : a.uses[u.idx]? = some use)
    (hf : fu use = fw use) : a.modifyUse u fu = a.modifyUse u fw := by
  simp only [modifyUse, mk.injEq, true_and, and_true]
  refine Array.ext_getElem? fun n => ?_
  simp only [Array.getElem?_modify]
  split
  case isTrue hn => rw [← hn, h, Option.map_some, Option.map_some, hf]
  case isFalse => rfl

theorem modifyUse_of_eq (h : a.uses[u.idx]? = some use) (hf : fu use = use) :
    a.modifyUse u fu = a := by
  have hid : fu use = id use := hf
  rw [modifyUse_congr h hid]
  simp only [modifyUse]
  congr 1
  refine Array.ext_getElem? fun n => ?_
  simp [Array.getElem?_modify]

theorem modifyUse_modifyUse (fw : Use → Use) :
    (a.modifyUse u fu).modifyUse u fw = a.modifyUse u fun use => fw (fu use) := by
  simp only [modifyUse, mk.injEq, true_and, and_true]
  refine Array.ext_getElem? fun n => ?_
  simp only [Array.getElem?_modify]
  split <;> simp [Function.comp_def]

end SameUse

end Arena

/-! ### Successful runs -/

namespace Edit

variable {α β : Type} {a a' : Arena}

@[simp] theorem bind_eq_ok {x : Edit α} {k : α → Edit β} {z : β} :
    (x >>= k) a = .ok z a' ↔ ∃ y a₁, x a = .ok y a₁ ∧ k y a₁ = .ok z a' := by
  change EStateM.bind x k a = _ ↔ _
  unfold EStateM.bind
  cases h : x a with
  | ok y a₁ =>
    constructor
    · exact fun hk => ⟨y, a₁, rfl, hk⟩
    · rintro ⟨y', a₂, h', hk⟩
      cases h'
      exact hk
  | error e a₁ => simp

/-- A computation goes on from the result of its first part. -/
theorem bind_of_ok {x : Edit α} {k : α → Edit β} {y : α} (h : x a = .ok y a') :
    (x >>= k) a = k y a' := by
  change EStateM.bind x k a = _
  rw [EStateM.bind, h]

@[simp] theorem map_eq_ok {x : Edit α} {k : α → β} {z : β} :
    (k <$> x) a = .ok z a' ↔ ∃ y, x a = .ok y a' ∧ k y = z := by
  change EStateM.map k x a = _ ↔ _
  unfold EStateM.map
  cases h : x a with
  | ok y a₁ =>
    constructor
    · intro hk
      cases hk
      exact ⟨y, rfl, rfl⟩
    · rintro ⟨y', h', rfl⟩
      cases h'
      rfl
  | error e a₁ => simp

@[simp] theorem discard_eq_ok {x : Edit α} {y : PUnit} :
    (discard x : Edit PUnit) a = .ok y a' ↔ ∃ z, x a = .ok z a' := by
  change ((fun _ => PUnit.unit) <$> x : Edit PUnit) a = _ ↔ _
  simp

@[simp] theorem pure_eq_ok {y z : α} : (pure y : Edit α) a = .ok z a' ↔ y = z ∧ a = a' := by
  change EStateM.Result.ok y a = _ ↔ _
  simp

@[simp] theorem throw_eq_ok {e : Fault} {z : α} : (throw e : Edit α) a = .ok z a' ↔ False := by
  change EStateM.Result.error e a = _ ↔ _
  simp

@[simp] theorem get_eq_ok {y : Arena} : (get : Edit Arena) a = .ok y a' ↔ a = y ∧ a = a' := by
  change EStateM.Result.ok a a = _ ↔ _
  simp

@[simp] theorem look_eq_ok {view : Arena → Except Fault α} {y : α} :
    look view a = .ok y a' ↔ view a = .ok y ∧ a = a' := by
  unfold look
  cases h : view a with
  | ok y => simp
  | error e => simp

@[simp] theorem liftM_eq_ok {x : Except Fault α} {y : α} :
    (liftM x : Edit α) a = .ok y a' ↔ x = .ok y ∧ a = a' := by
  cases x with
  | ok z =>
    change EStateM.Result.ok z a = _ ↔ _
    simp
  | error e =>
    change EStateM.Result.error e a = _ ↔ _
    simp

@[simp] theorem setValue_eq_ok {v : ValueId} {f : Value → Value} :
    setValue v f a = .ok y a' ↔ a.modifyValue v f = a' := by
  change EStateM.Result.ok () (a.modifyValue v f) = _ ↔ _
  simp

@[simp] theorem setUse_eq_ok {u : UseId} {f : Use → Use} :
    setUse u f a = .ok y a' ↔ a.modifyUse u f = a' := by
  change EStateM.Result.ok () (a.modifyUse u f) = _ ↔ _
  simp

@[simp] theorem setInstr_eq_ok {i : InstrId} {f : Instr → Instr} :
    setInstr i f a = .ok y a' ↔ a.modifyInstr i f = a' := by
  change EStateM.Result.ok () (a.modifyInstr i f) = _ ↔ _
  simp

@[simp] theorem setBlock_eq_ok {b : BlockId} {f : Block → Block} :
    setBlock b f a = .ok y a' ↔ a.modifyBlock b f = a' := by
  change EStateM.Result.ok () (a.modifyBlock b f) = _ ↔ _
  simp

@[simp] theorem setFunction_eq_ok {f : FunctionId} {g : Function → Function} :
    setFunction f g a = .ok y a' ↔ a.modifyFunction f g = a' := by
  change EStateM.Result.ok () (a.modifyFunction f g) = _ ↔ _
  simp

@[simp] theorem count_eq_ok {f : Counters → Counters} :
    count f a = .ok y a' ↔ a.recount f = a' := by
  change EStateM.Result.ok () (a.recount f) = _ ↔ _
  simp

end Edit

end ShaderCompiler
