import ShaderCompiler.Machine.Opcode

/-!
# Machine instructions

A machine instruction is scheduled and has its registers assigned. It has a destination,
up to four sources, the staging registers of memory and texture instructions, and the
fields of its class: an inline constant, a memory offset, a branch distance or target,
flags, and the state of a texture access. A target is the label of a block, whose
distance is known once the program is laid out.
-/

namespace ShaderCompiler.Machine

/-- A block of a program as the target of branches. -/
structure Label where
  id : Nat
  name : String
deriving DecidableEq

/-- A machine instruction. -/
structure Instr where
  op : Opcode
  dest : Operand
  src : Vector Operand 4
  /-- The register window of memory and texture instructions. -/
  staging : Operand
  /-- The number of staging registers. -/
  count : UInt8
  /-- The inline constant. -/
  imm : UInt32
  /-- The byte offset of loads and stores. -/
  offset : Int16
  /-- The branch distance in instructions, for branches without a target. -/
  branch : Int32
  target : Option Label
  /-- The flow-control action. -/
  flow : UInt8
  clamp : UInt8
  round : UInt8
  compare : UInt8
  resultType : UInt8
  mux : UInt8
  dimension : UInt8
  lodMode : UInt8
  /-- Whether helper invocations are skipped. -/
  skip : Bool
deriving DecidableEq

/-- A number with its sign. -/
def signedText (n : Int) : String :=
  if 0 ≤ n then "+" ++ toString n else toString n

namespace Instr

/-- An instruction that has an operation and nothing else. -/
def bare (op : Opcode) : Instr :=
  ⟨op, .null, Vector.replicate 4 .null, .null, 0, 0, 0, 0, none, 0, 0, 0, 0, 0, 0, 0, 0, false⟩

/-- The instruction that does nothing. -/
def nop : Instr := bare .nop

/-- The text of an instruction: its name, then the destination, the staging registers, the
sources and the field of its class. -/
def text (ins : Instr) : Except Malformed String := do
  let info ← ins.op.info
  let dest ← if info.hasDest then pure [← ins.dest.text] else pure []
  let staging ← if ins.staging.isNull then pure [] else pure ["@" ++ (← ins.staging.text)]
  let srcs ← (ins.src.toList.take info.srcs.length).mapM Operand.text
  let own :=
    match info.opClass with
    | .immediate => ["0x" ++ String.ofList (Nat.toDigits 16 ins.imm.toNat)]
    | .load | .store => [signedText ins.offset.toInt]
    | .branch =>
        match ins.target with
        | some label => [label.name]
        | none => [signedText ins.branch.toInt]
    | _ => []
  match dest ++ staging ++ srcs ++ own with
  | [] => return info.name
  | args => return info.name ++ " " ++ String.intercalate ", " args

end Instr

end ShaderCompiler.Machine
