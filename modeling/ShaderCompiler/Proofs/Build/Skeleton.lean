import Mathlib.Logic.Function.Basic
import ShaderCompiler.Proofs.Conserves

/-!
# The skeleton of an arena

What a builder puts together is a skeleton: lists of items with their owners, blocks with their
instructions, and instructions with the values that they define. Sources, use-lists, edges, numbers
of blocks and analyses are no part of it. Every change of an arena that building is made of either
leaves the skeleton alone or changes it at one place, which is new more often than not.
-/

namespace ShaderCompiler

variable {r : ListRef} {item : Item} {b : BlockId} {bb : Block} {f : FunctionId} {g : Function}
  {l₀ : List Item}

/-- The owner of a list. -/
def ListRef.owner : ListRef → Owner
  | .body f => .function f
  | .yes c | .no c | .loop c => .construct c

/-- What an instruction is to the function it stands in: its block, whether it is a φ, and what it
defines. -/
structure Role where
  block : Option BlockId
  isPhi : Bool
  defs : List (Option ValueId)

/-- The role of an instruction. -/
def Instr.role (ins : Instr) : Role :=
  ⟨ins.block, ins.isPhi, ins.definitions⟩

/-- What a builder puts together. -/
@[ext] structure Skeleton where
  /-- The number of a value, and the instruction that it says defines it. -/
  value : ValueId → Option (Int × Option InstrId)
  instr : InstrId → Option Role
  body : BlockId → List InstrId
  parent : Item → Option (Option Owner)
  items : ListRef → Option (List Item)
  /-- The number of the next value of a function. -/
  count : FunctionId → Option Int
  /-- The exit block of a function. -/
  finish : FunctionId → Option BlockId

/-- The list of a shape at a place, if the shape has one there. -/
def Shape.items? (r : ListRef) : Shape → Option (List Item)
  | .branch _ yes no =>
      match r with
      | .yes _ => some yes
      | .no _ => some no
      | _ => none
  | .loop body =>
      match r with
      | .loop _ => some body
      | _ => none

namespace Skeleton

variable {s : Skeleton} {n : ConstructId} {p : Option Owner} {shape : Shape}

/-- The skeleton with a construct. -/
def withConstruct (s : Skeleton) (n : ConstructId) (p : Option Owner) (shape : Shape) : Skeleton :=
  { s with
    parent := Function.update s.parent (.construct n) (some p)
    items := fun r => if r.owner = .construct n then shape.items? r else s.items r }

theorem withConstruct_items_of_ne (h : r.owner ≠ .construct n) :
    (s.withConstruct n p shape).items r = s.items r :=
  if_neg h

theorem withConstruct_idem {q : Option Owner} {other : Shape} :
    (s.withConstruct n p shape).withConstruct n q other = s.withConstruct n q other := by
  refine Skeleton.ext rfl rfl rfl (Function.update_idem _ _ _) (funext fun r => ?_) rfl rfl
  by_cases hr : r.owner = .construct n <;> simp [withConstruct, hr]

theorem withConstruct_parent_of_ne (h : item ≠ .construct n) :
    (s.withConstruct n p shape).parent item = s.parent item :=
  Function.update_of_ne h _ _

end Skeleton

theorem ValueId.idx_injective : Function.Injective ValueId.idx := by
  rintro ⟨_⟩ ⟨_⟩ rfl
  rfl

theorem InstrId.idx_injective : Function.Injective InstrId.idx := by
  rintro ⟨_⟩ ⟨_⟩ rfl
  rfl

theorem BlockId.idx_injective : Function.Injective BlockId.idx := by
  rintro ⟨_⟩ ⟨_⟩ rfl
  rfl

theorem ConstructId.idx_injective : Function.Injective ConstructId.idx := by
  rintro ⟨_⟩ ⟨_⟩ rfl
  rfl

theorem FunctionId.idx_injective : Function.Injective FunctionId.idx := by
  rintro ⟨_⟩ ⟨_⟩ rfl
  rfl

namespace Arena

/-- The skeleton of the arena. -/
def skeleton (a : Arena) : Skeleton where
  value v := a.values[v.idx]?.map fun x => (x.index, x.definedBy)
  instr i := a.instrs[i.idx]?.map Instr.role
  body := a.body
  parent item := (a.parentOf item).toOption
  items r := (a.items r).toOption
  count f := a.functions[f.idx]?.map (·.valueCount)
  finish f := a.functions[f.idx]?.map (·.finish)

variable {a : Arena}

theorem toOption_eq_some {α ε : Type} {x : Except ε α} {y : α} :
    x.toOption = some y ↔ x = .ok y := by
  cases x <;> simp [Except.toOption]

theorem skeleton_items_eq_some {l : List Item} :
    a.skeleton.items r = some l ↔ a.items r = .ok l :=
  toOption_eq_some

theorem skeleton_parent_eq_some {p : Option Owner} :
    a.skeleton.parent item = some p ↔ a.parentOf item = .ok p :=
  toOption_eq_some

theorem body_eq_getD (b : BlockId) : a.body b = (a.blocks[b.idx]?.map (·.instrs)).getD [] := by
  cases h : a.blocks[b.idx]? <;> simp [body, h]

/-! ### What parents and lists depend on -/

theorem skeleton_parent_block (b : BlockId) :
    a.skeleton.parent (.block b) = a.blocks[b.idx]?.map (·.parent) :=
  Option.ext fun p => by simp [skeleton_parent_eq_some, parentOf]

theorem skeleton_parent_construct (n : ConstructId) :
    a.skeleton.parent (.construct n) = a.constructs[n.idx]?.map (·.parent) :=
  Option.ext fun p => by simp [skeleton_parent_eq_some, parentOf]

theorem skeleton_items_body (f : FunctionId) :
    a.skeleton.items (.body f) = a.functions[f.idx]?.map (·.body) :=
  Option.ext fun l => by simp [skeleton_items_eq_some, items]

theorem skeleton_items_construct {n : ConstructId} (hr : r.owner = .construct n) :
    a.skeleton.items r = a.constructs[n.idx]?.bind fun x => x.shape.items? r := by
  refine Option.ext fun l => ?_
  rw [skeleton_items_eq_some]
  cases r with
  | body f => cases hr
  | yes c | no c | loop c =>
    obtain rfl : c = n := Owner.construct.inj hr
    simp only [items, except_bind_eq_ok, construct_eq_ok, Option.bind_eq_some_iff]
    refine exists_congr fun x => and_congr_right fun _ => ?_
    cases x.shape <;> simp [Shape.items?]

/-! ### Elementary changes -/

section Tables

variable {ι α β : Type} {idx : ι → Nat} {t t' : Array α} {n : ι} {x : α}

/-- A table has an entry at a place, and what another table has at all others. -/
def Entered (idx : ι → Nat) (n : ι) (x : α) (t t' : Array α) : Prop :=
  t'[idx n]? = some x ∧ ∀ k, k ≠ n → t'[idx k]? = t[idx k]?

theorem entered_push (hidx : Function.Injective idx) (hn : idx n = t.size) (x : α) :
    Entered idx n x t (t.push x) := by
  refine ⟨by rw [hn, Array.getElem?_push_size], fun k hk => ?_⟩
  rw [Array.getElem?_push, if_neg fun h => hk (hidx (h.trans hn.symm))]

theorem entered_modify (hidx : Function.Injective idx) (hx : t[idx n]? = some x) (f : α → α) :
    Entered idx n (f x) t (t.modify (idx n) f) := by
  refine ⟨by rw [Array.getElem?_modify, if_pos rfl, hx, Option.map_some], fun k hk => ?_⟩
  rw [Array.getElem?_modify, if_neg fun h => hk (hidx h.symm)]

/-- A view of the entries of the table. -/
theorem Entered.map [DecidableEq ι] (h : Entered idx n x t t') (view : α → β) :
    (fun k => t'[idx k]?.map view) = Function.update (fun k => t[idx k]?.map view) n (some (view x)) := by
  funext k
  rw [Function.update_apply]
  split
  · next hk => rw [hk, h.1, Option.map_some]
  · next hk => rw [h.2 k hk]

/-- A view that does not show a change of an entry. -/
theorem map_getElem?_modify {view : α → β} {f : α → α} (h : ∀ x, view (f x) = view x) (n k : Nat) :
    (t.modify n f)[k]?.map view = t[k]?.map view := by
  rw [Array.getElem?_modify]
  split
  · rw [Option.map_map]
    exact Option.map_congr fun x _ => h x
  · rfl

end Tables

section Changes

variable (a : Arena)

theorem skeleton_pushValue (x : Value) : ({ a with values := a.values.push x } : Arena).skeleton
    = { a.skeleton with
        value := Function.update a.skeleton.value ⟨a.values.size⟩ (some (x.index, x.definedBy)) } :=
  Skeleton.ext ((entered_push ValueId.idx_injective rfl x).map _) rfl rfl rfl rfl rfl rfl

theorem skeleton_pushInstr (x : Instr) : ({ a with instrs := a.instrs.push x } : Arena).skeleton
    = { a.skeleton with
        instr := Function.update a.skeleton.instr ⟨a.instrs.size⟩ (some x.role) } :=
  Skeleton.ext rfl ((entered_push InstrId.idx_injective rfl x).map _) rfl rfl rfl rfl rfl

theorem skeleton_modifyInstr {i : InstrId} {ins : Instr} (h : a.instrs[i.idx]? = some ins)
    (f : Instr → Instr) : (a.modifyInstr i f).skeleton
      = { a.skeleton with
          instr := Function.update a.skeleton.instr i (some (f ins).role) } :=
  Skeleton.ext rfl ((entered_modify InstrId.idx_injective h f).map _) rfl rfl rfl rfl rfl

theorem skeleton_block {blocks : Array Block}
    (h : Entered BlockId.idx b bb a.blocks blocks) : ({ a with blocks := blocks } : Arena).skeleton
      = { a.skeleton with
          body := Function.update a.skeleton.body b bb.instrs
          parent := Function.update a.skeleton.parent (.block b) (some bb.parent) } := by
  refine Skeleton.ext rfl rfl (funext fun c => ?_) (funext fun item => ?_) rfl rfl rfl
  · change body { a with blocks := blocks } c = Function.update a.body b _ c
    rw [Function.update_apply]
    split
    · next hc =>
      subst hc
      exact body_of_block h.1
    · next hc => rw [body, h.2 c hc, body]
  · cases item with
    | construct n => rfl
    | block c =>
      have hparent := congrFun (h.map (·.parent)) c
      rw [Function.update_apply] at hparent
      simp [skeleton_parent_block, Function.update_apply, hparent]

theorem skeleton_modifyBlock (h : a.blocks[b.idx]? = some bb)
    (f : Block → Block) : (a.modifyBlock b f).skeleton
      = { a.skeleton with
          body := Function.update a.skeleton.body b (f bb).instrs
          parent := Function.update a.skeleton.parent (.block b) (some (f bb).parent) } :=
  a.skeleton_block (entered_modify BlockId.idx_injective h f)

theorem skeleton_pushBlock (p : Option Owner) :
    ({ a with blocks := a.blocks.push (Block.empty p) } : Arena).skeleton
      = { a.skeleton with
          parent := Function.update a.skeleton.parent (.block ⟨a.blocks.size⟩) (some p) } := by
  have hempty : a.body ⟨a.blocks.size⟩ = [] := by simp [body]
  rw [a.skeleton_block (b := ⟨a.blocks.size⟩) (entered_push BlockId.idx_injective rfl _)]
  exact Skeleton.ext rfl rfl (Function.update_eq_self_iff.mpr hempty.symm) rfl rfl rfl rfl

theorem skeleton_construct {n : ConstructId} {x : Construct} {constructs : Array Construct}
    (h : Entered ConstructId.idx n x a.constructs constructs) :
    ({ a with constructs := constructs } : Arena).skeleton
      = a.skeleton.withConstruct n x.parent x.shape := by
  refine Skeleton.ext rfl rfl rfl (funext fun item => ?_) (funext fun r => ?_) rfl rfl
  · cases item with
    | block b => rfl
    | construct m =>
      have hparent := congrFun (h.map (·.parent)) m
      rw [Function.update_apply] at hparent
      simp [skeleton_parent_construct, Skeleton.withConstruct, Function.update_apply, hparent]
  · cases hr : r.owner with
    | function f =>
      cases r with
      | body g => rfl
      | yes c | no c | loop c => cases hr
    | construct m =>
      dsimp only [Skeleton.withConstruct]
      rw [skeleton_items_construct hr, skeleton_items_construct hr, hr]
      by_cases hm : m = n
      · subst hm
        simp [h.1]
      · simp [h.2 m hm, hm]

theorem skeleton_pushConstruct (x : Construct) :
    ({ a with constructs := a.constructs.push x } : Arena).skeleton
      = a.skeleton.withConstruct ⟨a.constructs.size⟩ x.parent x.shape :=
  a.skeleton_construct (entered_push ConstructId.idx_injective rfl x)

theorem skeleton_modifyConstruct {n : ConstructId} {x : Construct} (h : a.constructs[n.idx]? = some x)
    (f : Construct → Construct) :
    ({ a with constructs := a.constructs.modify n.idx f } : Arena).skeleton
      = a.skeleton.withConstruct n (f x).parent (f x).shape :=
  a.skeleton_construct (entered_modify ConstructId.idx_injective h f)

theorem skeleton_function {functions : Array Function}
    (h : Entered FunctionId.idx f g a.functions functions) :
    ({ a with functions := functions } : Arena).skeleton
      = { a.skeleton with
          items := Function.update a.skeleton.items (.body f) (some g.body)
          count := Function.update a.skeleton.count f (some g.valueCount)
          finish := Function.update a.skeleton.finish f (some g.finish) } := by
  refine Skeleton.ext rfl rfl rfl rfl (funext fun r => ?_) (h.map _) (h.map _)
  cases r with
  | yes c | no c | loop c => rfl
  | body e =>
    have hbody := congrFun (h.map (·.body)) e
    rw [Function.update_apply] at hbody
    simp [skeleton_items_body, Function.update_apply, hbody]

theorem skeleton_modifyFunction (h : a.functions[f.idx]? = some g)
    (k : Function → Function) (hfinish : (k g).finish = g.finish) : (a.modifyFunction f k).skeleton
      = { a.skeleton with
          items := Function.update a.skeleton.items (.body f) (some (k g).body)
          count := Function.update a.skeleton.count f (some (k g).valueCount) } := by
  have hsame : a.skeleton.finish f = some (k g).finish := by simp [skeleton, h, hfinish]
  rw [modifyFunction, a.skeleton_function (entered_modify FunctionId.idx_injective h k), ← hsame,
    Function.update_eq_self]

end Changes

/-! ### Lists -/

/-- The arena with another list at a place. -/
def withItems (a : Arena) (r : ListRef) (l : List Item) : Arena :=
  match r with
  | .body f => a.modifyFunction f fun g => { g with body := l }
  | .yes c | .no c | .loop c =>
      { a with
        constructs := a.constructs.modify c.idx fun x => { x with shape := x.shape.withItems r l } }

end Arena

theorem Shape.items?_withItems {e : ListRef} {x : Shape} (h : x.items? r = some l₀)
    (hre : e.owner = r.owner) (l : List Item) :
    (x.withItems r l).items? e = if e = r then some l else x.items? e := by
  cases x <;> cases r <;> cases e <;> simp_all [Shape.items?, Shape.withItems, ListRef.owner]

namespace Arena

variable {a : Arena}

theorem skeleton_withItems (h : a.skeleton.items r = some l₀)
    (l : List Item) : (a.withItems r l).skeleton
      = { a.skeleton with items := Function.update a.skeleton.items r (some l) } := by
  cases hr : r.owner with
  | function f =>
    cases r with
    | yes c | no c | loop c => cases hr
    | body e =>
      rw [skeleton_items_body, Option.map_eq_some_iff] at h
      obtain ⟨g, hg, -⟩ := h
      rw [withItems, skeleton_modifyFunction a hg _ rfl]
      refine Skeleton.ext rfl rfl rfl rfl rfl ?_ rfl
      exact Function.update_eq_self_iff.mpr (by simp [skeleton, hg])
  | construct n =>
    have hwith : a.withItems r l = { a with
        constructs := a.constructs.modify n.idx fun x => { x with shape := x.shape.withItems r l } } := by
      cases r with
      | body f => cases hr
      | yes c | no c | loop c =>
        obtain rfl : c = n := Owner.construct.inj hr
        rfl
    rw [skeleton_items_construct hr, Option.bind_eq_some_iff] at h
    obtain ⟨x, hx, hitems⟩ := h
    rw [hwith, skeleton_modifyConstruct a hx]
    refine Skeleton.ext rfl rfl rfl ?_ (funext fun e => ?_) rfl rfl
    · exact Function.update_eq_self_iff.mpr (by rw [skeleton_parent_construct, hx, Option.map_some])
    · dsimp only [Skeleton.withConstruct]
      rw [Function.update_apply]
      by_cases he : e.owner = .construct n
      · rw [if_pos he, Shape.items?_withItems hitems (he.trans hr.symm) l, skeleton_items_construct he,
          hx, Option.bind_some]
      · rw [if_neg he, if_neg (by rintro rfl; exact he hr)]

end Arena

/-! ### What leaves the skeleton alone -/

namespace Edit

open Arena

/-- Uses and use-lists are no part of the skeleton. -/
theorem listless_skeleton : Listless skeleton where
  push _ _ := rfl
  modify _ _ _ := rfl
  withUses a v asCondition l := by
    refine Skeleton.ext (funext fun w => ?_) rfl rfl rfl rfl rfl rfl
    refine map_getElem?_modify (fun x => ?_) v.idx w.idx
    rw [Value.withUses]
    split <;> rfl

theorem conserves_setInstr (i : InstrId) {f : Instr → Instr} (hf : ∀ ins, (f ins).role = ins.role) :
    (setInstr i f).Conserves skeleton :=
  conserves_modify fun _ => Skeleton.ext rfl (funext fun j => map_getElem?_modify hf i.idx j.idx)
    rfl rfl rfl rfl rfl

theorem conserves_setBlock (b : BlockId) {f : Block → Block}
    (hf : ∀ bb, (f bb).instrs = bb.instrs ∧ (f bb).parent = bb.parent) :
    (setBlock b f).Conserves skeleton := by
  refine conserves_modify fun a => ?_
  change (a.modifyBlock b f).skeleton = _
  refine Skeleton.ext rfl rfl (funext fun c => ?_) (funext fun item => ?_) rfl rfl rfl
  · change (a.modifyBlock b f).body c = a.body c
    rw [body_eq_getD, body_eq_getD, modifyBlock, map_getElem?_modify fun bb => (hf bb).1]
  · cases item with
    | construct n => rfl
    | block c =>
      rw [skeleton_parent_block, skeleton_parent_block, modifyBlock,
        map_getElem?_modify fun bb => (hf bb).2]

theorem conserves_setFunction (f : FunctionId) {k : Function → Function}
    (hk : ∀ g, (k g).body = g.body ∧ (k g).valueCount = g.valueCount ∧ (k g).finish = g.finish) :
    (setFunction f k).Conserves skeleton := by
  refine conserves_modify fun a => Skeleton.ext rfl rfl rfl rfl (funext fun r => ?_)
    (funext fun g => map_getElem?_modify (fun g => (hk g).2.1) _ _)
    (funext fun g => map_getElem?_modify (fun g => (hk g).2.2) _ _)
  cases r with
  | yes c | no c | loop c => rfl
  | body g =>
    rw [skeleton_items_body, skeleton_items_body]
    exact map_getElem?_modify (fun g => (hk g).1) _ _

/-- Edges, numbers and analyses have no part in the skeleton. -/
theorem edgeless_skeleton : HoldsOfEdges fun _ x => x.Conserves skeleton where
  toHoldsOfLooks := conserves_looks
  block b _ := conserves_setBlock b
  function f _ := conserves_setFunction f

end Edit

end ShaderCompiler
