import ShaderCompiler.Proofs.Flow
import ShaderCompiler.Proofs.Views

/-!
# Properties of computations

A computation on an arena is put together from looks at it and from changes. A property that holds
of looks, and of what is put together from computations that have it, holds of a computation if it
holds of the changes in it. So every computation is taken apart once, whatever is to be shown.
-/

namespace ShaderCompiler

variable {c : Prop}

theorem Region.clean_follow (rest : Region) (next : BlockId) : Clean (rest.follow next) := by
  unfold follow
  split <;> simp

/-- A property of computations that holds of what is put together from computations that have it. -/
structure HoldsOfBinds {m : Type → Type} [Monad m] (K : (α : Type) → m α → Prop) : Prop where
  pure {α : Type} (y : α) : K α (pure y)
  bind {α β : Type} {x : m α} {k : α → m β} (hx : K α x) (hk : ∀ y, K β (k y)) : K β (x >>= k)

section Binds

variable {α β γ : Type} {m : Type → Type} {J : (α : Type) → m α → Prop}

theorem holds_ite_of [Decidable c] {x y : m α} (hx : c → J α x) (hy : ¬ c → J α y) :
    J α (if c then x else y) := by
  split
  case isTrue h => exact hx h
  case isFalse h => exact hy h

theorem holds_ite [Decidable c] {x y : m α} (hx : J α x) (hy : J α y) :
    J α (if c then x else y) :=
  holds_ite_of (fun _ => hx) fun _ => hy

namespace HoldsOfBinds

variable [Monad m] (h : HoldsOfBinds J)

include h

theorem forM {k : γ → m Unit} {l : List γ} (hk : ∀ x ∈ l, J Unit (k x)) : J Unit (l.forM k) := by
  induction l with
  | nil => exact h.pure _
  | cons x l ih =>
    rw [List.forM_eq_forM, List.forM_cons]
    exact h.bind (hk x List.mem_cons_self) fun _ => ih fun y hy => hk y (List.mem_cons_of_mem _ hy)

theorem foldlM {k : β → γ → m β} {l : List γ} (hk : ∀ s, ∀ x ∈ l, J β (k s x)) (s : β) :
    J β (l.foldlM k s) := by
  induction l generalizing s with
  | nil => exact h.pure _
  | cons x l ih =>
    rw [List.foldlM_cons]
    exact h.bind (hk s x List.mem_cons_self) fun s' =>
      ih (fun s y hy => hk s y (List.mem_cons_of_mem _ hy)) s'

variable [LawfulMonad m]

theorem map {x : m α} (hx : J α x) (k : α → β) : J β (k <$> x) := by
  rw [map_eq_pure_bind]
  exact h.bind hx fun _ => h.pure _

theorem discard {x : m α} (hx : J α x) : J Unit (discard x) := by
  rw [Functor.discard, map_const]
  exact h.map hx _

end HoldsOfBinds

end Binds

namespace Edit

variable {α β γ : Type} {J : (α : Type) → Edit α → Prop}

/-- A property of computations that holds of looks at the arena that end, and of what is put together
from computations that have it. -/
structure HoldsOfViews (J : (α : Type) → Edit α → Prop) : Prop extends HoldsOfBinds J where
  throw {α : Type} {e : Fault} (he : e.isClean = true) : J α (throw e)
  look {α : Type} {view : Arena → Except Fault α} (hview : ∀ a, Clean (view a)) : J α (look view)
  lift {α : Type} {x : Except Fault α} (hx : Clean x) : J α (liftM x)

/-- A property of computations that holds of all looks at the arena, and of what is put together from
computations that have it. -/
structure HoldsOfLooks (J : (α : Type) → Edit α → Prop) : Prop extends HoldsOfViews J where
  endless (α : Type) : J α (MonadExcept.throw .endless)
  walk {α : Type} {view : Arena → Except Fault α} (hview : ∀ a, Walks (view a)) :
    J α (Edit.look view)

namespace HoldsOfViews

variable (h : HoldsOfViews J)

include h

theorem present_bind {x : Option α} {k : α → Edit β} (hk : ∀ y, x = some y → J β (k y)) :
    J β (liftM (ShaderCompiler.present x) >>= k) := by
  cases x with
  | none => exact h.throw rfl
  | some y => exact hk y rfl

theorem present (x : Option α) : J α (liftM (present x)) :=
  h.lift (clean_present x)

theorem get : J Arena get := by
  have hlook : (Edit.look fun a => .ok a) = (MonadState.get : Edit Arena) := rfl
  exact hlook ▸ h.look fun a => clean_ok a

end HoldsOfViews

/-! ### Use-lists -/

/-- A property of computations that holds of looks and of what changes use-lists and the places that
uses remember, and is kept when computations are put together. -/
structure HoldsOfLists (J : (α : Type) → Edit α → Prop) : Prop extends HoldsOfViews J where
  slot (u : UseId) (k : Option Nat) : J Unit (setUse u fun use => { use with slot := k })
  withUses (v : ValueId) (asCondition : Bool) (l : List UseId) :
    J Unit (setValue v (·.withUses asCondition l))
  corrupt (text : String) : J Unit (MonadExcept.throw (.corruptUseList text))

namespace HoldsOfLists

variable (h : HoldsOfLists J)

include h

theorem link (v : ValueId) (u : UseId) : J Unit (link v u) :=
  h.bind (h.look fun a => a.clean_use u) fun _ => h.bind (h.look fun a => a.clean_value v) fun _ =>
    h.bind (h.slot u _) fun _ => h.withUses v _ _

theorem unlink (v : ValueId) (u : UseId) : J Unit (unlink v u) := by
  have hcorrupt : J Unit (Edit.look (·.useText u) >>= fun text => throw (.corruptUseList text)) :=
    h.bind (h.look fun a => a.clean_useText u) h.corrupt
  refine h.bind (h.look fun a => a.clean_use u) fun use =>
    h.bind (h.look fun a => a.clean_value v) fun x => ?_
  dsimp only
  split
  · exact hcorrupt
  · refine holds_ite ?_ hcorrupt
    split
    · exact h.bind (h.slot _ _) fun _ => h.bind (h.slot u _) fun _ => h.withUses v _ _
    · exact h.bind (h.slot u _) fun _ => h.withUses v _ _

theorem dropSources (i : InstrId) : J Unit (dropSources i) := by
  refine h.bind (h.look fun a => a.clean_instr i) fun ins => h.forM fun u _ => ?_
  refine h.bind (h.present u) fun u => h.bind (h.look fun a => a.clean_use u) fun use =>
    holds_ite ?_ (h.pure _)
  exact h.bind (h.present _) fun v => h.unlink v u

theorem repoint (u : UseId) (v : Option ValueId)
    (hvalue : J Unit (setUse u fun use => { use with value := v })) : J Unit (repoint u v) := by
  have hlink : J Unit ((setUse u fun use => { use with value := v }) >>= fun _ => do
      Edit.link (← ShaderCompiler.present v) u) :=
    h.bind hvalue fun _ => h.bind (h.present v) fun w => h.link w u
  refine h.bind (h.look fun a => a.clean_use u) fun use => ?_
  split
  · exact h.bind (h.unlink _ u) fun _ => hlink
  · exact hlink

theorem newUse (i : InstrId) (v : Option ValueId) (hadd : ∀ x, J UseId (addUse x)) :
    J UseId (newUse i v) :=
  h.bind (h.present v) fun v => h.bind (hadd _) fun u => h.bind (h.link v u) fun _ => h.pure u

end HoldsOfLists

/-! ### Edges and numbers -/

/-- A property of computations that holds of looks and of what changes edges, numbers and analyses,
and is kept when computations are put together. -/
structure HoldsOfEdges (J : (α : Type) → Edit α → Prop) : Prop extends HoldsOfLooks J where
  block (b : BlockId) {k : Block → Block}
    (hk : ∀ bb : Block, (k bb).instrs = bb.instrs ∧ (k bb).parent = bb.parent) :
    J Unit (setBlock b k)
  function (f : FunctionId) {k : Function → Function}
    (hk : ∀ g : Function, (k g).body = g.body ∧ (k g).valueCount = g.valueCount
      ∧ (k g).finish = g.finish) : J Unit (setFunction f k)

namespace HoldsOfEdges

variable (h : HoldsOfEdges J)

include h

theorem linkBlock (finish b : BlockId) (rest : Region) (next : BlockId)
    (around : Option LoopTargets) : J Unit (linkBlock finish b rest next around) := by
  have hset {k : Exits → Exits} : J Unit (setBlock b fun bb => { bb with exits := k bb.exits }) :=
    h.block b fun _ => ⟨rfl, rfl⟩
  refine h.bind (h.lift (rest.clean_follow next)) fun follow =>
    h.bind (h.look fun a => a.clean_jumpOf b) fun jump => ?_
  split
  · exact h.bind (h.lift (JumpKind.clean_target _ _ _)) fun _ => hset
  · split
    · exact h.bind (h.lift (Region.clean_entry _)) fun _ =>
        h.bind (h.lift (Region.clean_entry _)) fun _ => h.block b fun _ => ⟨rfl, rfl⟩
    · exact hset

theorem linkRegion (finish : BlockId) (r : Region) (next : BlockId) (around : Option LoopTargets) :
    J Unit (linkRegion finish r next around) := by
  induction r generalizing next around with
  | done => exact h.pure _
  | block b rest ih =>
    rw [Edit.linkRegion]
    exact h.bind (h.linkBlock _ _ _ _ _) fun _ => ih _ _
  | branch x yes no rest ihyes ihno ih =>
    rw [Edit.linkRegion]
    exact h.bind (h.lift (rest.clean_follow next)) fun _ => h.bind (ihyes _ _) fun _ =>
      h.bind (ihno _ _) fun _ => ih _ _
  | loop x body rest ihbody ih =>
    rw [Edit.linkRegion]
    exact h.bind (h.lift (rest.clean_follow next)) fun _ => h.bind (h.lift body.clean_header) fun _ =>
      h.bind (ihbody _ _) fun _ => ih _ _

theorem relink (f : FunctionId) : J Unit (relink f) := by
  refine h.bind (h.walk fun a => a.walks_bodyRegion f) fun region =>
    h.bind (h.look fun a => a.clean_function f) fun g => h.bind (h.forM fun b _ => ?_) fun _ =>
      h.bind (h.linkRegion _ _ _ _) fun _ => h.bind (h.forM fun b _ =>
        h.bind (h.look fun a => a.clean_block b) fun _ => h.forM fun s _ => ?_) fun _ => ?_
  · exact h.block b fun _ => ⟨rfl, rfl⟩
  · exact h.block s fun _ => ⟨rfl, rfl⟩
  · exact h.function f fun _ => ⟨rfl, rfl, rfl⟩

theorem indexBlocks (f : FunctionId) : J Unit (indexBlocks f) :=
  h.bind (h.walk fun a => a.walks_blocksOf f) fun _ => h.forM fun p _ =>
    h.block p.1 fun _ => ⟨rfl, rfl⟩

theorem requireBlockOrder (f : FunctionId) : J Unit (requireBlockOrder f) := by
  simp only [Edit.requireBlockOrder, require, refresh, Bool.false_and, Bool.false_eq_true, if_false]
  have hlook := h.look fun a => a.clean_function f
  have hskip := h.bind hlook fun _ => h.pure ()
  refine h.bind (h.bind hlook fun _ => holds_ite ?_ (h.pure _)) fun _ => h.bind hskip fun _ => hskip
  exact h.bind (h.indexBlocks f) fun _ => h.function f fun _ => ⟨rfl, rfl, rfl⟩

theorem finish (c : Cursor) (hopen : ∀ n, J Unit (throw (.stillOpen n))) : J Unit c.finish :=
  have hend := h.bind (h.relink c.function) fun _ => h.requireBlockOrder c.function
  holds_ite (h.bind (hopen _) fun _ => hend) hend

end HoldsOfEdges

/-! ### Forwarding copies -/

namespace HoldsOfLooks

variable (h : HoldsOfLooks J) (hvisit : ∀ i p queue, J (Bool × List InstrId) (visitCopy i p queue))

include h hvisit

theorem visitInstr (b : BlockId) (st : Bool × List InstrId) (i : InstrId) :
    J (Bool × List InstrId) (visitInstr b st i) := by
  refine h.bind (h.look fun a => a.clean_instr i) fun ins => holds_ite ?_ (h.pure st)
  split
  · exact h.pure st
  · exact h.bind (h.look fun a => a.clean_isCopy _) fun _ =>
      holds_ite (h.bind (hvisit i _ _) fun _ => h.pure _) (h.pure st)

theorem visitBlock (st : Bool × List InstrId) (b : BlockId) :
    J (Bool × List InstrId) (visitBlock st b) :=
  h.bind (h.look fun a => a.clean_block b) fun _ => h.foldlM (fun st i _ => h.visitInstr hvisit b st i) st

theorem drainQueue (steps : Nat) (queue : List InstrId) (progress : Bool) :
    J Bool (drainQueue steps queue progress) := by
  induction steps generalizing queue progress with
  | zero =>
    cases queue with
    | nil => exact h.pure _
    | cons i queue => exact h.endless _
  | succ steps ih =>
    cases queue with
    | nil => exact h.pure _
    | cons i queue =>
      refine h.bind (h.look fun a => a.clean_instr i) fun ins => ?_
      split
      · exact h.bind (hvisit i _ queue) fun _ => ih _ _
      · exact ih _ _

theorem forwardCopies (f : FunctionId) (hpreserve : ∀ kept, J Unit (preserve f kept)) :
    J Bool (forwardCopies f) :=
  h.bind (h.walk fun a => a.walks_blocksOf f) fun _ =>
    h.bind (h.foldlM (fun st b _ => h.visitBlock hvisit st b) _) fun _ => h.bind h.get fun _ =>
      h.bind (h.drainQueue hvisit _ _ _) fun _ => h.bind (hpreserve _) fun _ => h.pure _

end HoldsOfLooks

end Edit

end ShaderCompiler
