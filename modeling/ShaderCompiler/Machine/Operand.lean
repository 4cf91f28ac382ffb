import ShaderCompiler.Fault

/-!
# Operands of machine instructions

An operand is a physical register, a slot of the table of fast-access values, or
nothing. The table holds uniforms, constants and special values, and is addressed in
pages. Modifiers are carried with the operand; which of them can be encoded is up to
the instruction.
-/

namespace ShaderCompiler.Machine

/-- What is malformed about an instruction, so that it has no text. -/
inductive Malformed where
  | opcode (code : UInt8)
  | operandKind
deriving DecidableEq

/-- The wording of what is malformed. -/
def Malformed.message : Malformed → String
  | .opcode code => "valhall: invalid opcode " ++ toString code.toNat
  | .operandKind => "valhall: invalid operand kind"

/-- The kind of an operand. -/
inductive OperandKind where
  | null
  | register
  | uniform
  | constant
  | special
  | unknown (code : UInt8)
deriving DecidableEq

/-- The kind with a given code. -/
def OperandKind.ofCode (code : UInt8) : OperandKind :=
  match code with
  | 0 => .null
  | 1 => .register
  | 2 => .uniform
  | 3 => .constant
  | 4 => .special
  | n => .unknown n

/-- A choice of 16-bit halves of a 32-bit operand; `h01` takes both in order. -/
inductive Halves where
  | h01
  | h00
  | h10
  | h11
  | unknown (code : UInt8)
deriving DecidableEq

/-- The choice of halves with a given code. -/
def Halves.ofCode (code : UInt8) : Halves :=
  match code with
  | 0 => .h01
  | 1 => .h00
  | 2 => .h10
  | 3 => .h11
  | n => .unknown n

/-- The text of a choice of halves. -/
def Halves.text : Halves → String
  | .h01 => ""
  | .h00 => ".h00"
  | .h10 => ".h10"
  | .h11 => ".h11"
  | .unknown code => ".swizzle(" ++ toString code.toNat ++ ")"

/-- The page of a special value, by its number. -/
def specialPage (number : UInt8) : Nat :=
  match number with
  | 1 | 3 => 1
  | 7 | 8 | 10 => 3
  | _ => 0

/-- An operand with its modifiers. -/
structure Operand where
  kind : OperandKind
  /-- The number of the register or slot. -/
  value : UInt32
  /-- Whether the upper word of a 64-bit slot is meant. -/
  upper : Bool
  /-- Whether the register is not needed any more. -/
  discard : Bool
  negate : Bool
  absolute : Bool
  invert : Bool
  halves : Halves
deriving DecidableEq

namespace Operand

/-- An operand without modifiers. -/
def plain (kind : OperandKind) (value : UInt32) (upper : Bool) : Operand :=
  ⟨kind, value, upper, false, false, false, false, .h01⟩

/-- The missing operand. -/
def null : Operand := plain .null 0 false

/-- A register. -/
def register (n : UInt32) : Operand := plain .register n false

/-- A word of a 64-bit uniform. -/
def uniform (slot : UInt32) (upper : Bool) : Operand := plain .uniform slot upper

/-- An entry of the table of constants. -/
def constant (n : UInt32) (upper : Bool) : Operand := plain .constant n upper

/-- A special value. -/
def special (number : UInt8) (upper : Bool) : Operand := plain .special number.toUInt32 upper

/-- The constant that always reads as zero. -/
def zero : Operand := constant 0 false

/-- The operand as its last use. -/
def discarded (s : Operand) : Operand := { s with discard := true }

/-- The operand with the opposite sign. -/
def negated (s : Operand) : Operand := { s with negate := !s.negate }

/-- The absolute value of the operand; a sign is lost. -/
def absoluted (s : Operand) : Operand := { s with absolute := true, negate := false }

/-- The operand with opposite bits. -/
def inverted (s : Operand) : Operand := { s with invert := !s.invert }

/-- The operand with another choice of halves. -/
def withHalves (s : Operand) (h : Halves) : Operand := { s with halves := h }

/-- One half of the operand in both places. -/
def half (s : Operand) (high : Bool) : Operand :=
  s.withHalves (if high then .h11 else .h00)

/-- Whether the operand is missing. -/
def isNull (s : Operand) : Bool := s.kind = .null

/-- Whether the operand is a fast-access value. -/
def isFastAccess (s : Operand) : Bool :=
  match s.kind with
  | .uniform | .constant | .special => true
  | _ => false

/-- The page that the operand addresses: 32 uniforms make a page, and special values have
pages of their own. -/
def page (s : Operand) : Nat :=
  match s.kind with
  | .uniform => s.value.toNat / 32 % 256
  | .special => specialPage s.value.toUInt8
  | _ => 0

/-- The text of an operand. -/
def text (s : Operand) : Except Malformed String := do
  let word := if s.upper then ".w1" else ""
  let number := toString s.value.toNat
  let body ←
    match s.kind with
    | .null => pure "_"
    | .register => pure ("r" ++ number)
    | .uniform => pure ("u" ++ number ++ word)
    | .constant => pure ("#" ++ number ++ word)
    | .special => pure ("s" ++ number ++ word)
    | .unknown _ => throw .operandKind
  let bar := if s.absolute then "|" else ""
  return (if s.discard then "^" else "") ++ (if s.invert then "~" else "")
    ++ (if s.negate then "-" else "") ++ bar ++ body ++ s.halves.text ++ bar

/-- The text of an operand as part of a larger one. -/
def shown (s : Operand) : String :=
  shownBy Malformed.message s.text

end Operand

end ShaderCompiler.Machine
