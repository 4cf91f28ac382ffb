import ShaderCompiler.Proofs.Conserves
import ShaderCompiler.Proofs.Exact.Lists

/-!
# Properties of building

An operation of a builder looks first whether it can be done, and refuses if it cannot. Then it makes
its changes. So a property of operations follows from what holds of looks, of refusals and of the
changes that building is made of, and every operation is taken apart once.
-/

namespace ShaderCompiler

variable {n : Int} {srcs : List (Option ValueId)} {v : Option ValueId}

namespace Edit

variable {α β : Type} {J K : (α : Type) → Edit α → Prop}

/-- Two properties of computations. `K` holds of the changes that building is made of, with values
that are `given`, and of what is put together from what has it. `J` holds of what looks at the arena,
may refuse to go on, and then does what has `K`. -/
structure HoldsOfBuilding (J K : (α : Type) → Edit α → Prop) (given : Option ValueId → Prop) : Prop
    extends HoldsOfLooks K where
  whole {α : Type} {x : Edit α} (hx : K α x) : J α x
  refuse {α : Type} {e : Fault} (he : e.isRefusal = true) : J α (MonadExcept.throw e)
  first {α β : Type} {x : Edit α} {k : α → Edit β} (hx : J α x) (hstill : x.Conserves id)
    (hk : ∀ y, J β (k y)) : J β (x >>= k)
  rest {α β : Type} {x : Edit α} {k : α → Edit β} (hx : J α x) (hk : ∀ y, K β (k y)) : J β (x >>= k)
  addInstr (x : Instr) : K InstrId (addInstr x)
  setInstr (i : InstrId) (f : Instr → Instr) : K Unit (setInstr i f)
  addBlock (x : Block) : K BlockId (addBlock x)
  setBlock (b : BlockId) (f : Block → Block) : K Unit (setBlock b f)
  addConstruct (x : Construct) : K ConstructId (addConstruct x)
  setConstruct (c : ConstructId) (f : Construct → Construct) : K Unit (setConstruct c f)
  addFunction (x : Function) : K FunctionId (addFunction x)
  setFunction (f : FunctionId) (g : Function → Function) : K Unit (setFunction f g)
  setUse (u : UseId) {f : Use → Use} (hf : ∀ use, (f use).tie = use.tie) : K Unit (setUse u f)
  newUse (i : InstrId) {v : Option ValueId} (hv : given v) : K UseId (newUse i v)
  guard {α : Type} {v : ValueId} (hv : given (some v)) (n : ConstructId) {k : UseId → Edit α}
    (hk : ∀ u, K α (k u)) :
    K α (addUse (Use.fresh v none (some n)) >>= fun u => link v u >>= fun _ => k u)
  newValue (f : FunctionId) {n : Int} (hn : 1 ≤ n ∧ n ≤ maxLanes) (i : Option InstrId) :
    K ValueId (newValue f n i)
  copyValue (f : FunctionId) (w : ValueId) (i : Option InstrId) :
    K ValueId (Edit.look (·.value w) >>= fun x => Edit.newValue f x.comps i)

namespace HoldsOfViews

variable (h : HoldsOfViews K)

include h

theorem block (c : Cursor) : K BlockId c.block := by
  refine h.bind (h.look fun a => a.clean_items c.list) fun l => ?_
  split
  · exact h.throw rfl
  · exact h.throw rfl
  · exact h.pure _

theorem isIf (n : ConstructId) : K Bool (Cursor.isIf n) := by
  refine h.bind (h.look fun a => a.clean_construct n) fun x => ?_
  split <;> exact h.pure _

end HoldsOfViews

namespace HoldsOfBuilding

variable {given : Option ValueId → Prop} (h : HoldsOfBuilding J K given)

include h

theorem look_bind {view : Arena → Except Fault α} {k : α → Edit β} (hview : ∀ a, Clean (view a))
    (hk : ∀ y, J β (k y)) : J β (look view >>= k) :=
  h.first (h.whole (h.look hview)) (conserves_look _) hk

theorem lift_bind {x : Except Fault α} {k : α → Edit β} (hx : Clean x) (hk : ∀ y, J β (k y)) :
    J β (liftM x >>= k) :=
  h.first (h.whole (h.lift hx)) (conserves_liftM _) hk

theorem edges : HoldsOfEdges K where
  toHoldsOfLooks := h.toHoldsOfLooks
  block b _ _ := h.setBlock b _
  function f _ _ := h.setFunction f _

/-! ### Lists of items -/

theorem discard {x : Edit α} (hx : J α x) : J Unit (discard x) := by
  change J Unit ((fun _ => ()) <$> x)
  rw [map_eq_pure_bind]
  exact h.rest hx fun _ => h.pure _

theorem appendItem (r : ListRef) (item : Item) : K Unit (appendItem r item) := by
  refine h.bind (h.look fun a => a.clean_items r) fun _ => ?_
  cases r with
  | body f => exact h.setFunction f _
  | yes c | no c | loop c => exact h.setConstruct c _

theorem openBlock (r : ListRef) (owner : Owner) : K Unit (openBlock r owner) :=
  h.bind (h.addBlock _) fun _ => h.appendItem r _

theorem newFunction (name : String) : K Cursor (newFunction name) :=
  h.bind (h.addBlock _) fun finish => h.bind (h.addFunction _) fun _ =>
    h.bind (h.setBlock finish _) fun _ => h.bind (h.openBlock _ _) fun _ => h.pure _

/-! ### Instructions -/

theorem setAction (i : InstrId) (f : Action → Action) : K Unit (setAction i f) :=
  h.setInstr i _

theorem insert (c : Cursor) (i : InstrId) : K InstrId (c.insert i) :=
  h.bind (h.block c) fun b => h.bind (h.bind (h.setInstr i _) fun _ => h.setBlock b _) fun _ =>
    h.pure i

theorem linkSources (i : InstrId) (action : List (Option UseId) → Action)
    (made : List (Option UseId)) {vs : List (Option ValueId)} (hvs : ∀ v ∈ vs, given v) :
    K Unit (linkSources i action made vs) := by
  induction vs generalizing made with
  | nil => exact h.pure _
  | cons v vs ih =>
    exact h.bind (h.newUse i (hvs v List.mem_cons_self)) fun u => h.bind (h.setAction i _) fun _ =>
      ih _ fun w hw => hvs w (List.mem_cons_of_mem _ hw)

theorem linkTexSources (i : InstrId) (action : List (TexRole × UseId) → Action)
    (made : List (TexRole × UseId)) {vs : List (TexRole × Option ValueId)}
    (hvs : ∀ v ∈ vs.map (·.2), given v) : K Unit (linkTexSources i action made vs) := by
  induction vs generalizing made with
  | nil => exact h.pure _
  | cons v vs ih =>
    exact h.bind (h.newUse i (hvs _ List.mem_cons_self)) fun u => h.bind (h.setAction i _) fun _ =>
      ih _ fun w hw => hvs w (List.mem_cons_of_mem _ hw)

/-- The number of lanes is looked at first. -/
theorem checkComps_bind {k : Unit → Edit α}
    (hk : (1 ≤ n ∧ n ≤ maxLanes) → J α (k ())) : J α (checkComps n >>= k) := by
  rw [checkComps]
  split
  case isTrue => exact h.refuse rfl
  case isFalse hn => exact hk (by omega)

/-- An instruction that defines a value, the lanes of which are looked at first. -/
theorem define (c : Cursor) {action : Action} {act : ValueId → Action → Action}
    {k : InstrId → ValueId → Edit InstrId} (hk : ∀ i v, K InstrId (k i v)) :
    J InstrId (checkComps n >>= fun _ => newInstr action >>= fun i => c.value i n >>= fun v =>
      Edit.setAction i (act v) >>= fun _ => k i v) :=
  h.checkComps_bind fun hn => h.whole <| h.bind (h.addInstr _) fun i =>
    h.bind (h.newValue _ hn _) fun v => h.bind (h.setAction i _) fun _ => hk i v

variable (c : Cursor)

theorem const (values : List UInt64) : J InstrId (c.const values) :=
  h.define c fun i _ => h.insert c i

theorem undef (n : Int) : J InstrId (c.undef n) :=
  h.define c fun i _ => h.insert c i

theorem alu (op : AluOp) (n : Int) (hsrcs : ∀ v ∈ srcs, given v) :
    J InstrId (c.alu op n srcs) :=
  h.lift_bind op.clean_info fun _ => holds_ite (h.refuse rfl) <| h.define c fun i _ =>
    h.bind (h.linkSources i _ _ hsrcs) fun _ => h.insert c i

theorem aluOfSources (op : AluOp) (hsrcs : ∀ v ∈ srcs, given v) :
    J InstrId (c.aluOfSources op srcs) :=
  h.lift_bind op.clean_info fun _ => holds_ite (h.alu c op _ hsrcs) <|
    h.lift_bind (clean_entry srcs 0) fun v => h.lift_bind (clean_present v) fun v =>
      h.look_bind (fun a => a.clean_value v) fun _ => h.alu c op _ hsrcs

theorem setSource (i : InstrId) (k : Nat) {f : Use → Use} (hf : ∀ use, (f use).tie = use.tie) :
    K Unit (Cursor.setSource i k f) :=
  h.bind (h.look fun a => a.clean_instr i) fun _ => h.bind (h.lift (clean_entry _ k)) fun u =>
    h.bind (h.present u) fun u => h.setUse u hf

theorem mov (hv : given v) (swizzle : List Nat) :
    J InstrId (c.mov v swizzle) := by
  have hsrcs : ∀ w ∈ [v], given w := by simpa using hv
  refine holds_ite ?_ (h.rest (h.alu c .mov _ hsrcs) fun i => h.bind (h.setSource i 0 ?_)
    fun _ => h.pure i)
  · exact h.lift_bind (clean_present v) fun w => h.look_bind (fun a => a.clean_value w) fun _ =>
      h.alu c .mov _ hsrcs
  · exact fun _ => rfl

theorem gather {lanes : List (Option ValueId × Nat)} (hlanes : ∀ v ∈ lanes.map (·.1), given v) :
    J InstrId (c.gather lanes) := by
  have hop {op : AluOp} : J InstrId (c.alu op lanes.length (lanes.map (·.1)) >>= fun i => do
      lanes.zipIdx.forM fun p =>
        Cursor.setSource i p.2 fun u => { u with swizzle := u.swizzle.overwrite [p.1.2] }
      return i) :=
    h.rest (h.alu c op _ hlanes) fun i =>
      h.bind (h.forM fun lane _ => h.setSource i lane.2 fun _ => by rfl) fun _ => h.pure i
  unfold Cursor.gather AluOp.gather
  split
  all_goals first | exact hop | exact h.refuse rfl

theorem intrinsic (op : Intrinsic) (n : Int)
    (hsrcs : ∀ v ∈ srcs, given v) (hvalue : ∀ info, op.info = .ok info →
      srcs.length = info.sources → info.hasDest = true → ∀ i, K ValueId (c.value i n)) :
    J InstrId (c.intrinsic op n srcs) := by
  rw [Cursor.intrinsic]
  cases hinfo : op.info with
  | error e => exact h.whole (h.throw (op.clean_info e hinfo))
  | ok info =>
    refine holds_ite_of (fun _ => h.refuse rfl) fun hlength => h.whole <| h.bind (h.addInstr _) fun i =>
      h.bind (h.linkSources i _ _ hsrcs) fun _ => holds_ite_of (fun hdest => ?_) fun _ => h.insert c i
    exact h.bind (hvalue info hinfo (by omega) hdest i) fun _ => h.bind (h.setAction i _) fun _ =>
      h.insert c i

theorem tex (op : TexOp) (n texture sampler : Int) {srcs : List (TexRole × Option ValueId)}
    (hsrcs : ∀ v ∈ srcs.map (·.2), given v) : J InstrId (c.tex op n texture sampler srcs) :=
  h.define c fun i _ => h.bind (h.linkTexSources i _ _ hsrcs) fun _ => h.insert c i

theorem call (callee : String) {params : List (Option ValueId)} (hparams : ∀ v ∈ params, given v) :
    K InstrId (c.call callee params) :=
  h.bind (h.addInstr _) fun i => h.bind (h.linkSources i _ _ hparams) fun _ => h.insert c i

theorem phi (n : Int) : J InstrId (c.phi n) :=
  h.first (h.whole (h.block c)) (conserves_looks.block c) fun b => h.checkComps_bind fun hn =>
    h.whole <| h.bind (h.addInstr _) fun i => h.bind (h.newValue _ hn _) fun _ =>
      h.bind (h.setInstr i _) fun _ => h.bind h.get fun _ =>
        h.bind (h.look fun a => a.clean_block b) fun _ => h.bind (h.setBlock b _) fun _ => h.pure i

theorem copyEntries (i : InstrId) (made : List (ValueId × UseId))
    (hsrcs : ∀ v ∈ srcs, given v) : K Unit (c.copyEntries i made srcs) := by
  induction srcs generalizing made with
  | nil => exact h.pure _
  | cons v vs ih =>
    refine h.bind (h.present v) fun w => ?_
    rw [← bind_assoc]
    exact h.bind (h.copyValue c.function w (some i)) fun _ =>
      h.bind (h.newUse i (hsrcs v List.mem_cons_self)) fun _ => h.bind (h.setAction i _) fun _ =>
        ih _ fun w hw => hsrcs w (List.mem_cons_of_mem _ hw)

theorem parallelCopy (hsrcs : ∀ v ∈ srcs, given v) :
    K InstrId (c.parallelCopy srcs) :=
  h.bind (h.addInstr _) fun i => h.bind (h.copyEntries c i _ hsrcs) fun _ => h.insert c i

theorem jump (kind : JumpKind) : K InstrId (c.jump kind) :=
  h.bind (h.addInstr _) fun i => h.insert c i

theorem addPhiSource (i : InstrId) (pred : BlockId) (hv : given v) :
    K Unit (addPhiSource i pred v) :=
  h.bind (h.newUse i hv) fun _ => h.setAction i _

/-! ### Control flow -/

theorem openIf {cond : Option ValueId} (hcond : given cond) :
    K (ConstructId × Cursor) (c.openIf cond) :=
  h.present_bind fun _ hv => h.bind (h.addConstruct _) fun n => h.guard (hv ▸ hcond) n fun _ =>
    h.bind (h.setConstruct n _) fun _ => h.bind (h.appendItem _ _) fun _ =>
      h.bind (h.openBlock _ _) fun _ => h.bind (h.openBlock _ _) fun _ => h.pure _

theorem openLoop : K (ConstructId × Cursor) c.openLoop :=
  h.bind (h.addConstruct _) fun _ => h.bind (h.appendItem _ _) fun _ =>
    h.bind (h.openBlock _ _) fun _ => h.pure _

/-- The innermost construct is looked at first. -/
theorem innermost_bind {k : Frame × List Frame → Bool → Edit α} (hk : ∀ fr isIf, J α (k fr isIf)) :
    J α (c.innermost >>= fun fr => Cursor.isIf fr.1.construct >>= k fr) := by
  rw [Cursor.innermost]
  split
  · exact h.refuse rfl
  · rw [pure_bind]
    exact h.first (h.whole (h.isIf _)) (conserves_looks.isIf _) (hk _)

theorem leave (fr : Frame) (frames : List Frame) : K (ConstructId × Cursor) (c.leave fr frames) :=
  h.bind (h.look fun a => a.clean_construct fr.construct) fun _ => h.bind (h.present _) fun _ =>
    h.bind (h.openBlock _ _) fun _ => h.pure _

theorem switchToElse : J Cursor c.switchToElse :=
  h.innermost_bind c fun _ _ => holds_ite (h.whole (h.pure _)) (h.refuse rfl)

theorem closeIf : J (ConstructId × Cursor) c.closeIf :=
  h.innermost_bind c fun _ _ => holds_ite (h.whole (h.leave c _ _)) (h.refuse rfl)

theorem closeLoop : J (ConstructId × Cursor) c.closeLoop :=
  h.innermost_bind c fun _ _ => holds_ite (h.refuse rfl) (h.whole (h.leave c _ _))

theorem finish : J Unit c.finish :=
  holds_ite (h.refuse rfl) <|
    h.whole (h.bind (h.edges.relink _) fun _ => h.edges.requireBlockOrder _)

end HoldsOfBuilding

end Edit

end ShaderCompiler
