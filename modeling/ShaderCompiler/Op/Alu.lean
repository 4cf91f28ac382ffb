import ShaderCompiler.Fault

/-!
# Arithmetic operations

An arithmetic operation is a code of a fixed table. Its row gives the name, the
number of lanes each source contributes and the number of lanes of the result.
A lane count of `0` stands for the width of the destination, so that the
operation works lane by lane.

The gathering operations `vec2` to `vec16` take one lane of each source. The
operation `mov` and the gathering operations are the copies that forwarding
looks through.
-/

namespace ShaderCompiler

/-- An arithmetic operation code. -/
structure AluOp where
  code : Nat
deriving DecidableEq

/-- A row of the operation table; a lane count of `0` follows the destination. -/
structure AluInfo where
  name : String
  inputs : List Nat
  output : Nat
deriving DecidableEq

namespace AluOp

/-- The operation table, in the order of the codes. -/
def table : List AluInfo :=
  [ ⟨"mov", [0], 0⟩,
    ⟨"vec2", [1, 1], 2⟩,
    ⟨"vec3", [1, 1, 1], 3⟩,
    ⟨"vec4", [1, 1, 1, 1], 4⟩,
    ⟨"vec8", List.replicate 8 1, 8⟩,
    ⟨"vec16", List.replicate 16 1, 16⟩,
    ⟨"fadd", [0, 0], 0⟩,
    ⟨"fmul", [0, 0], 0⟩,
    ⟨"ffma", [0, 0, 0], 0⟩,
    ⟨"fneg", [0], 0⟩,
    ⟨"fabs", [0], 0⟩,
    ⟨"fsat", [0], 0⟩,
    ⟨"fmin", [0, 0], 0⟩,
    ⟨"fmax", [0, 0], 0⟩,
    ⟨"fround", [0], 0⟩,
    ⟨"iadd", [0, 0], 0⟩,
    ⟨"imul", [0, 0], 0⟩,
    ⟨"ineg", [0], 0⟩,
    ⟨"iand", [0, 0], 0⟩,
    ⟨"ior", [0, 0], 0⟩,
    ⟨"ixor", [0, 0], 0⟩,
    ⟨"inot", [0], 0⟩,
    ⟨"ishl", [0, 0], 0⟩,
    ⟨"flt", [0, 0], 0⟩,
    ⟨"fge", [0, 0], 0⟩,
    ⟨"feq", [0, 0], 0⟩,
    ⟨"ilt", [0, 0], 0⟩,
    ⟨"ieq", [0, 0], 0⟩,
    ⟨"bcsel", [0, 0, 0], 0⟩,
    ⟨"f2i", [0], 0⟩,
    ⟨"i2f", [0], 0⟩,
    ⟨"fdot2", [2, 2], 1⟩,
    ⟨"fdot3", [3, 3], 1⟩,
    ⟨"fdot4", [4, 4], 1⟩ ]

/-- The plain copy. -/
def mov : AluOp := ⟨0⟩

/-- The row of an operation. -/
def info (op : AluOp) : Except Fault AluInfo :=
  entry table op.code

/-- The name of an operation. -/
def text (op : AluOp) : Except Fault String :=
  match table[op.code]? with
  | some row => .ok row.name
  | none => .error .unknownAluOp

/-- The operation of a name. -/
def ofName? (name : String) : Option AluOp :=
  (table.findIdx? (·.name = name)).map AluOp.mk

/-- Whether the operation gathers one lane from each source. -/
def isGather (op : AluOp) : Bool :=
  1 ≤ op.code && op.code ≤ 5

/-- The gathering operation with `n` sources. -/
def gather : Nat → Except Fault AluOp
  | 2 => .ok ⟨1⟩
  | 3 => .ok ⟨2⟩
  | 4 => .ok ⟨3⟩
  | 8 => .ok ⟨4⟩
  | 16 => .ok ⟨5⟩
  | _ => .error .noVectorOp

end AluOp

end ShaderCompiler
