import ShaderCompiler.Arena.Text

/-!
# Use-lists

A value lists its uses by instructions and, apart from them, its uses as a
condition. A linked use remembers its place in that list, so that it is unlinked
without a search: the last entry of the list takes its place.
-/

namespace ShaderCompiler

/-- The list in which a value keeps uses of one sort. -/
def Value.usesOf (asCondition : Bool) (v : Value) : List UseId :=
  if asCondition then v.conditions else v.uses

/-- The value with another list of uses of one sort. -/
def Value.withUses (asCondition : Bool) (l : List UseId) (v : Value) : Value :=
  if asCondition then { v with conditions := l } else { v with uses := l }

/-- Whether anything refers to the value. -/
def Value.isUnused (v : Value) : Bool :=
  v.uses.isEmpty && v.conditions.isEmpty

/-- A use of a value that is not linked, with all lanes in their places. -/
def Use.fresh (v : ValueId) (user : Option InstrId) (guards : Option ConstructId) : Use :=
  ⟨some v, user, guards, Swizzle.identity, false, false, none⟩

/-- The list without its entry at place `i`, which the last entry takes over. -/
def swapRemove (l : List UseId) (i : Nat) : List UseId :=
  match l.getLast? with
  | some last => (l.set i last).dropLast
  | none => []

namespace Edit

/-- Enters a use at the end of the use-list of a value. -/
def link (v : ValueId) (u : UseId) : Edit Unit := do
  let asCondition := (← look (·.use u)).guards.isSome
  let l := (← look (·.value v)).usesOf asCondition
  setUse u fun use => { use with slot := some l.length }
  setValue v (·.withUses asCondition (l ++ [u]))

/-- Takes a use out of the use-list of a value. The place the use remembers has to be its own. -/
def unlink (v : ValueId) (u : UseId) : Edit Unit := do
  let use ← look (·.use u)
  let asCondition := use.guards.isSome
  let l := (← look (·.value v)).usesOf asCondition
  let corrupt : Edit Unit := do throw (.corruptUseList (← look (·.useText u)))
  match use.slot with
  | none => corrupt
  | some i =>
      if l[i]? = some u then do
        if let some last := l.getLast? then
          setUse last fun use => { use with slot := some i }
        setUse u fun use => { use with slot := none }
        setValue v (·.withUses asCondition (swapRemove l i))
      else corrupt

/-- Lets a use read another value. A missing value is a fault, found after the use has left
its old value. -/
def repoint (u : UseId) (v : Option ValueId) : Edit Unit := do
  if let some old := (← look (·.use u)).value then
    unlink old u
  setUse u fun use => { use with value := v }
  link (← present v) u

/-- Unlinks a use if it is linked. -/
def drop (u : UseId) : Edit Unit := do
  let use ← look (·.use u)
  if use.slot.isSome then
    unlink (← present use.value) u

/-- A fresh linked use of a value by an instruction. -/
def newUse (user : InstrId) (v : Option ValueId) : Edit UseId := do
  let v ← present v
  let u ← addUse (Use.fresh v (some user) none)
  link v u
  return u

/-- Lets the instruction address through a value, which replaces an indirect source it has. -/
def setIndirect (i : InstrId) (v : Option ValueId) : Edit Unit := do
  match (← look (·.instr i)).indirect with
  | some u => repoint u v
  | none =>
      let u ← newUse i v
      setInstr i fun ins => { ins with indirect := some u }

/-- Unlinks the sources of an instruction. -/
def dropSources (i : InstrId) : Edit Unit := do
  (← look (·.instr i)).sources.forM fun u => do drop (← present u)

/-- Takes an instruction out of a block and unlinks its sources. The values it defines must
not be referred to any more. -/
def removeInstr (b : BlockId) (i : InstrId) : Edit Unit := do
  let instrs := (← look (·.block b)).instrs
  if i ∈ instrs then
    dropSources i
    setBlock b fun bb => { bb with instrs := bb.instrs.erase i }
    setInstr i fun ins => { ins with block := none }
  else
    throw (.notInBlock (← look (·.instrText i)))

end Edit

end ShaderCompiler
