import ShaderCompiler.Proofs.Steps

/-!
# Computations that keep a view of the arena

Much of what is computed on an arena leaves a part of it alone: use-lists are kept without a look at
blocks, and edges are linked without a look at values. A computation conserves a view of the arena
if every run that succeeds ends with the view it started from. What is put together from such
computations conserves the view too.
-/

namespace ShaderCompiler

/-- What a use is apart from what it reads and where it is listed. -/
def Use.fixed (use : Use) : Use :=
  { use with value := none, swizzle := Swizzle.identity, slot := none }

namespace Edit

variable {α β σ : Type} {q : Arena → σ}

/-- Every run that succeeds keeps a view of the arena. -/
def Conserves (q : Arena → σ) (x : Edit α) : Prop :=
  ∀ ⦃a y a'⦄, x a = .ok y a' → q a' = q a

theorem conserves_pure (y : α) : (pure y : Edit α).Conserves q := by
  intro a _ a' h
  rw [(pure_eq_ok.mp h).2]

theorem Conserves.bind {x : Edit α} {k : α → Edit β} (hx : x.Conserves q)
    (hk : ∀ y, (k y).Conserves q) : (x >>= k).Conserves q := by
  intro a _ a' h
  obtain ⟨y, b, hxy, hky⟩ := bind_eq_ok.mp h
  rw [hk y hky, hx hxy]

theorem conserves_throw (e : Fault) : (throw e : Edit α).Conserves q := by
  intro a y a' h
  cases h

theorem conserves_look (view : Arena → Except Fault α) : (look view).Conserves q := by
  intro a y a' h
  rw [(look_eq_ok.mp h).2]

theorem conserves_liftM (x : Except Fault α) : (liftM x : Edit α).Conserves q := by
  intro a y a' h
  rw [(liftM_eq_ok.mp h).2]

theorem conserves_modify {g : Arena → Arena} (hg : ∀ a, q (g a) = q a) :
    (modify g : Edit Unit).Conserves q := by
  intro a y a' h
  cases h
  exact hg a

theorem conserves_looks : HoldsOfLooks fun _ x => x.Conserves q where
  pure := conserves_pure
  bind := Conserves.bind
  throw _ := conserves_throw _
  look _ := conserves_look _
  lift _ := conserves_liftM _
  endless _ := conserves_throw _
  walk _ := conserves_look _

theorem conserves_ite {c : Prop} [Decidable c] {x y : Edit α} (hx : x.Conserves q)
    (hy : y.Conserves q) : (if c then x else y).Conserves q :=
  holds_ite (m := Edit) (J := fun _ x => x.Conserves q) hx hy

/-! ### Use-lists -/

/-- A view that use-lists and places in them have no part in. -/
structure Placeless (q : Arena → σ) : Prop where
  slot : ∀ a u k, q (a.modifyUse u fun use => { use with slot := k }) = q a
  withUses : ∀ a v asCondition l, q (a.modifyValue v (·.withUses asCondition l)) = q a

namespace Placeless

variable (h : Placeless q)

include h

theorem lists : HoldsOfLists fun _ x => x.Conserves q where
  toHoldsOfViews := conserves_looks.toHoldsOfViews
  slot u k := conserves_modify fun a => h.slot a u k
  withUses v asCondition l := conserves_modify fun a => h.withUses a v asCondition l
  corrupt _ := conserves_throw _

theorem conserves_dropSources (i : InstrId) : (dropSources i).Conserves q :=
  h.lists.dropSources i

end Placeless

/-- A view that what uses read and use-lists have no part in. -/
structure Unlisted (q : Arena → σ) : Prop where
  modify : ∀ a u f, (∀ use : Use, (f use).fixed = use.fixed) → q (a.modifyUse u f) = q a
  withUses : ∀ a v asCondition l, q (a.modifyValue v (·.withUses asCondition l)) = q a

namespace Unlisted

variable (h : Unlisted q)

include h

theorem placeless : Placeless q :=
  ⟨fun a u _ => h.modify a u _ fun _ => rfl, h.withUses⟩

theorem conserves_setUse (u : UseId) {f : Use → Use} (hf : ∀ use, (f use).fixed = use.fixed) :
    (setUse u f).Conserves q :=
  conserves_modify fun a => h.modify a u f hf

theorem conserves_repoint (u : UseId) (v : Option ValueId) : (repoint u v).Conserves q :=
  h.placeless.lists.repoint u v (h.conserves_setUse u fun _ => rfl)

end Unlisted

/-- A view that uses and use-lists have no part in. -/
structure Listless (q : Arena → σ) : Prop where
  push : ∀ a x, q { a with uses := a.uses.push x } = q a
  modify : ∀ a u f, q (a.modifyUse u f) = q a
  withUses : ∀ a v asCondition l, q (a.modifyValue v (·.withUses asCondition l)) = q a

namespace Listless

variable (h : Listless q)

include h

theorem unlisted : Unlisted q :=
  ⟨fun a u f _ => h.modify a u f, h.withUses⟩

theorem conserves_setUse (u : UseId) (f : Use → Use) : (setUse u f).Conserves q :=
  conserves_modify fun a => h.modify a u f

theorem conserves_addUse (x : Use) : (addUse x).Conserves q := by
  intro a y a' hrun
  cases hrun
  exact h.push a x

theorem conserves_newUse (i : InstrId) (v : Option ValueId) : (newUse i v).Conserves q :=
  h.unlisted.placeless.lists.newUse i v h.conserves_addUse

end Listless

end Edit

end ShaderCompiler
