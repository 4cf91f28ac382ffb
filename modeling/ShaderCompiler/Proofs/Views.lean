import ShaderCompiler.Proofs.Edit
import ShaderCompiler.Pass.DeadCode
import ShaderCompiler.Pass.Forwarding

/-!
# Faults of views

A view of the arena may fail, but never because of a corrupt use-list: only taking a use out of
its list finds one. Nor does it refuse an argument, as the operations of a builder do. Only reading
off a region may go on forever.
-/

namespace ShaderCompiler

variable {α β : Type}

namespace Fault

/-- The faults by which a builder refuses an operation. -/
@[simp] def isRefusal : Fault → Bool
  | .componentCount _ | .sourceCount .. | .noVectorOp | .nothingOpen | .elseOutsideIf
  | .endIfOutsideIf | .endLoopOutsideLoop | .stillOpen _ => true
  | _ => false

/-- The faults that are neither refusals nor reports of a corrupt use-list or of what does not end. -/
@[simp] def isClean : Fault → Bool
  | .corruptUseList _ | .endless => false
  | e => !e.isRefusal

variable {e : Fault}

theorem ne_of_isClean (h : e.isClean = true) (text : String) : e ≠ .corruptUseList text := by
  rintro rfl
  cases h

theorem not_isRefusal_of_isClean (h : e.isClean = true) : ¬ e.isRefusal = true := by
  cases e <;> simp_all

end Fault

/-- A view that ends, neither reports a corrupt use-list nor refuses anything. -/
def Clean (x : Except Fault α) : Prop :=
  ∀ e, x = .error e → e.isClean = true

@[simp] theorem clean_ok (y : α) : Clean (.ok y : Except Fault α) := nofun

@[simp] theorem clean_pure (y : α) : Clean (pure y : Except Fault α) := nofun

@[simp] theorem clean_error {e : Fault} :
    Clean (.error e : Except Fault α) ↔ e.isClean = true := by
  simp [Clean]

@[simp] theorem clean_throw {e : Fault} :
    Clean (throw e : Except Fault α) ↔ e.isClean = true :=
  clean_error

@[simp] theorem clean_bind {x : Except Fault α} {k : α → Except Fault β} :
    Clean (x >>= k) ↔ Clean x ∧ ∀ y, x = .ok y → Clean (k y) := by
  cases x with
  | ok y => simp [bind, Except.bind]
  | error e => simp [bind, Except.bind]

@[simp] theorem clean_map {x : Except Fault α} {k : α → β} : Clean (k <$> x) ↔ Clean x := by
  cases x with
  | ok y => simp [Functor.map, Except.map]
  | error e => simp [Functor.map, Except.map]

@[simp] theorem clean_ite {c : Prop} [Decidable c] {x y : Except Fault α} :
    Clean (if c then x else y) ↔ (c → Clean x) ∧ (¬ c → Clean y) := by
  split <;> simp [*]

@[simp] theorem clean_present (x : Option α) : Clean (present x) := by
  cases x <;> simp [present]

@[simp] theorem clean_entry (l : List α) (k : Nat) : Clean (entry l k) := by
  unfold entry
  split <;> simp

theorem clean_mapM {k : α → Except Fault β} {l : List α} (h : ∀ x ∈ l, Clean (k x)) :
    Clean (l.mapM k) := by
  induction l with
  | nil => simp
  | cons x l ih =>
    simp only [List.mapM_cons, clean_bind, clean_pure, implies_true, and_true]
    exact ⟨h x List.mem_cons_self, fun _ _ => ih fun y hy => h y (List.mem_cons_of_mem _ hy)⟩

/-- A view that fails as a clean one does, or goes on forever. -/
def Walks (x : Except Fault α) : Prop :=
  ∀ e, x = .error e → e = .endless ∨ e.isClean = true

theorem Clean.walks {x : Except Fault α} (h : Clean x) : Walks x :=
  fun e he => .inr (h e he)

theorem Walks.bind {x : Except Fault α} {k : α → Except Fault β} (hx : Walks x)
    (hk : ∀ y, Walks (k y)) : Walks (x >>= k) := by
  cases x with
  | ok y => exact hk y
  | error e => exact fun e' he => hx e' (congrArg _ (Except.error.inj he))

/-! ### Operations -/

@[simp] theorem AluOp.clean_info (op : AluOp) : Clean op.info := clean_entry _ _

@[simp] theorem Intrinsic.clean_info (op : Intrinsic) : Clean op.info := clean_entry _ _

@[simp] theorem TexRole.clean_text (role : TexRole) : Clean role.text := clean_entry _ _

@[simp] theorem JumpKind.clean_text (kind : JumpKind) : Clean kind.text := by
  unfold text
  split <;> simp

@[simp] theorem JumpKind.clean_target (finish : BlockId) (around : Option LoopTargets)
    (kind : JumpKind) : Clean (kind.target finish around) := by
  unfold target
  split <;> simp

@[simp] theorem Swizzle.clean_lane (s : Swizzle) (k : Nat) : Clean (s.lane k) := by
  unfold lane
  split <;> simp

@[simp] theorem Swizzle.clean_isIdentity (s : Swizzle) (n : Nat) : Clean (s.isIdentity n) := by
  simp [isIdentity]

namespace LiveSet

@[simp] theorem clean_ofCount (n : Int) : Clean (ofCount n) := by
  simp [ofCount]

@[simp] theorem clean_place (s : LiveSet) (n : Int) : Clean (s.place n) := by
  simp [place]

@[simp] theorem clean_mark (s : LiveSet) (n : Int) : Clean (s.mark n) := by
  simp only [mark, clean_bind, clean_place, true_and]
  intro y _
  split <;> simp

@[simp] theorem clean_contains (s : LiveSet) (n : Int) : Clean (s.contains n) := by
  simp only [contains, clean_bind, clean_place, true_and]
  intro y _
  split <;> simp

end LiveSet

/-! ### Entries and texts -/

namespace Arena

variable (a : Arena)

@[simp] theorem clean_value (v : ValueId) : Clean (a.value v) := clean_present _

@[simp] theorem clean_use (u : UseId) : Clean (a.use u) := clean_present _

@[simp] theorem clean_instr (i : InstrId) : Clean (a.instr i) := clean_present _

@[simp] theorem clean_block (b : BlockId) : Clean (a.block b) := clean_present _

@[simp] theorem clean_construct (c : ConstructId) : Clean (a.construct c) := clean_present _

@[simp] theorem clean_function (f : FunctionId) : Clean (a.function f) := clean_present _

@[simp] theorem clean_valueOf (u : UseId) : Clean (a.valueOf u) := by
  simp [valueOf]

@[simp] theorem clean_items (r : ListRef) : Clean (a.items r) := by
  cases r with
  | body f => simp [items]
  | yes c =>
    simp only [items, clean_bind, clean_construct, true_and]
    intro y _
    split <;> simp
  | no c =>
    simp only [items, clean_bind, clean_construct, true_and]
    intro y _
    split <;> simp
  | loop c =>
    simp only [items, clean_bind, clean_construct, true_and]
    intro y _
    split <;> simp

@[simp] theorem clean_jumpOf (b : BlockId) : Clean (a.jumpOf b) := by
  simp only [jumpOf, clean_bind, clean_block, true_and]
  intro y _
  split <;> simp

@[simp] theorem clean_aluPosition (u : UseId) : Clean (a.aluPosition u) := by
  simp only [aluPosition, clean_bind, clean_use, true_and]
  intro use _
  split
  · simp
  · simp only [clean_bind, clean_instr, true_and]
    intro ins _
    split <;> simp

@[simp] theorem clean_sourceWidth (p : Alu) (k : Nat) : Clean (a.sourceWidth p k) := by
  simp [sourceWidth]

@[simp] theorem clean_reads (u : UseId) : Clean (a.reads u) := by
  simp only [reads, clean_bind, clean_aluPosition, true_and]
  intro position _
  split <;> simp

@[simp] theorem clean_useText (u : UseId) : Clean (a.useText u) := by
  simp only [useText, clean_bind, clean_use, true_and]
  intro use _
  split
  · simp
  · simp [valueText, clean_mapM]

@[simp] theorem clean_sourceText (u : Option UseId) : Clean (a.sourceText u) := by
  simp [sourceText]

@[simp] theorem clean_actionText (action : Action) : Clean (a.actionText action) := by
  cases action <;> simp [actionText, valueText, clean_mapM]

@[simp] theorem clean_instrText (i : InstrId) : Clean (a.instrText i) := by
  simp [instrText]

/-! ### Regions -/

theorem walks_layer {enter : List Item → Except Fault Region} (h : ∀ l, Walks (enter l))
    (items : List Item) : Walks (a.layer enter items) := by
  induction items with
  | nil => exact (clean_pure _).walks
  | cons item rest ih =>
    have hpure (r : Region) : Walks (pure r : Except Fault Region) := (clean_pure r).walks
    cases item with
    | block b => exact ih.bind fun _ => hpure _
    | construct c =>
      refine (a.clean_construct c).walks.bind fun x => ?_
      split
      · exact (h _).bind fun _ => (h _).bind fun _ => ih.bind fun _ => hpure _
      · exact (h _).bind fun _ => ih.bind fun _ => hpure _

theorem walks_regionAt (depth : Nat) (items : List Item) : Walks (a.regionAt depth items) := by
  induction depth generalizing items with
  | zero => exact a.walks_layer (fun _ _ he => .inl (Except.error.inj he).symm) items
  | succ depth ih => exact a.walks_layer ih items

theorem walks_bodyRegion (f : FunctionId) : Walks (a.bodyRegion f) :=
  (a.clean_function f).walks.bind fun _ => a.walks_regionAt _ _

theorem walks_blocksOf (f : FunctionId) : Walks (a.blocksOf f) :=
  (a.clean_function f).walks.bind fun _ => ((a.walks_regionAt _ _).bind fun _ =>
    (clean_pure _).walks).bind fun _ => (clean_pure _).walks

end Arena

@[simp] theorem Region.clean_entry (r : Region) : Clean r.entry := by
  fun_induction Region.entry r <;> simp_all

@[simp] theorem Region.clean_header (r : Region) : Clean r.header := by
  unfold header
  split <;> simp

/-! ### Copies -/

namespace Arena

variable (a : Arena)

@[simp] theorem clean_anyModified (srcs : List (Option UseId)) : Clean (a.anyModified srcs) := by
  induction srcs with
  | nil => simp [anyModified]
  | cons u rest ih => simp [anyModified, ih]

@[simp] theorem clean_isCopy (p : Alu) : Clean (a.isCopy p) := by
  simp [isCopy]

@[simp] theorem clean_gathersInOrder (srcs : List (Option UseId)) (source : ValueId)
    (lanes : List Nat) : Clean (a.gathersInOrder srcs source lanes) := by
  induction lanes with
  | nil => simp [gathersInOrder]
  | cons k rest ih => simp [gathersInOrder, ih]

@[simp] theorem clean_isExactCopy (p : Alu) : Clean (a.isExactCopy p) := by
  simp [isExactCopy]

@[simp] theorem clean_selectsOneValue (srcs : List (Option UseId)) (s : Swizzle)
    (source : Option ValueId) (lanes : List Nat) :
    Clean (a.selectsOneValue srcs s source lanes) := by
  induction lanes with
  | nil => simp [selectsOneValue]
  | cons k rest ih => simp [selectsOneValue, ih]

@[simp] theorem clean_copyAt (i : Option InstrId) : Clean (a.copyAt i) := by
  cases i with
  | none => simp [copyAt]
  | some i =>
    simp only [copyAt, clean_bind, clean_instr, true_and]
    intro ins _
    split <;> simp

@[simp] theorem clean_copiesAround (u : UseId) : Clean (a.copiesAround u) := by
  simp [copiesAround]

end Arena

end ShaderCompiler
