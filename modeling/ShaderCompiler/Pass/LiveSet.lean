import ShaderCompiler.Fault

/-!
# Sets of live values

A live set marks value numbers. It has room for whole groups of 64 numbers. A number
past its room is a fault. Of the negative numbers, those of the first group below
zero are never marked and always count as new, the others are a fault.
-/

namespace ShaderCompiler

/-- The marks of value numbers. -/
structure LiveSet where
  marks : Array Bool
deriving DecidableEq

namespace LiveSet

/-- The empty set with room for `n` values. -/
def ofCount (n : Int) : Except Fault LiveSet :=
  let groups := (n + 63).tdiv 64
  if groups < 0 then .error .negativeLength
  else .ok ⟨Array.replicate (64 * groups.toNat) false⟩

/-- The place of the mark of a number, which ignored numbers do not have. -/
def place (s : LiveSet) (n : Int) : Except Fault (Option Nat) :=
  if n < 0 then
    if -64 < n ∧ 0 < s.marks.size then .ok none else .error .outOfRange
  else if n.toNat < s.marks.size then .ok (some n.toNat)
  else .error .outOfRange

/-- Marks a number, and tells whether it was not marked before. -/
def mark (s : LiveSet) (n : Int) : Except Fault (Bool × LiveSet) := do
  match ← s.place n with
  | none => return (true, s)
  | some k => return (!s.marks.getD k false, ⟨s.marks.setIfInBounds k true⟩)

/-- Whether a number is marked. -/
def contains (s : LiveSet) (n : Int) : Except Fault Bool := do
  match ← s.place n with
  | none => return false
  | some k => return s.marks.getD k false

end LiveSet

end ShaderCompiler
