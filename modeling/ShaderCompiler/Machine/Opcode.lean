import ShaderCompiler.Machine.Operand

/-!
# Machine operations

A machine operation is a code of a fixed table. Its row gives the class, which selects
the layout of the instruction word, the bits of the operation, and what its sources and
flags can express.
-/

namespace ShaderCompiler.Machine

/-- The layouts of an instruction word. -/
inductive OpClass where
  | nop
  | alu
  | immediate
  | load
  | store
  | texture
  | branch
deriving DecidableEq

/-- How a source selects 16-bit halves. -/
inductive LaneMode where
  | none
  | swizzle
  | widen
deriving DecidableEq

/-- What a source can express. -/
structure SourceInfo where
  absneg : Bool
  notted : Bool
  lanes : LaneMode
  /-- The position of the bits that select halves. -/
  lanePos : Nat
  registerOnly : Bool
deriving DecidableEq

/-- A row of the operation table. -/
structure OpInfo where
  name : String
  opClass : OpClass
  /-- The bits of the operation. -/
  exact : Nat
  /-- The bits that tell unary operations apart, or `0`. -/
  secondary : Nat
  hasDest : Bool
  srcs : List SourceInfo
  clamp : Bool
  round : Bool
  compare : Bool
  resultType : Bool
  mux : Bool
deriving DecidableEq

/-- A machine operation code. -/
structure Opcode where
  code : UInt8
deriving DecidableEq

namespace SourceInfo

/-- The position of the bits that select halves of source `i` in the common layout. -/
def halvesPos (i : Nat) : Nat := 24 + (2 - i) * 2

/-- A source without modifiers. -/
def plain : SourceInfo := ⟨false, false, .none, 0, false⟩

/-- A source that has to be a register. -/
def register : SourceInfo := ⟨false, false, .none, 0, true⟩

/-- A source with a sign whose halves can be widened. -/
def widened (i : Nat) : SourceInfo := ⟨true, false, .widen, halvesPos i, false⟩

/-- A source with a sign whose halves can be chosen. -/
def swizzled (i : Nat) : SourceInfo := ⟨true, false, .swizzle, halvesPos i, false⟩

/-- A source without a sign whose halves can be chosen at a position. -/
def chosen (pos : Nat) : SourceInfo := ⟨false, false, .swizzle, pos, false⟩

/-- A source that can be inverted. -/
def invertible : SourceInfo := ⟨false, true, .none, 0, false⟩

end SourceInfo

/-- A row without flags and without a secondary code. -/
def OpInfo.simple (name : String) (opClass : OpClass) (exact : Nat) (hasDest : Bool)
    (srcs : List SourceInfo) : OpInfo :=
  ⟨name, opClass, exact, 0, hasDest, srcs, false, false, false, false, false⟩

namespace Opcode

open SourceInfo

/-- The operation table, in the order of the codes. -/
def table : List OpInfo :=
  [ .simple "nop" .nop 0 false [],
    .simple "mov.i32" .alu 0x91 true [plain],
    { OpInfo.simple "fadd.f32" .alu 0xa4 true [widened 0, widened 1] with
      clamp := true, round := true },
    { OpInfo.simple "fadd.v2f16" .alu 0xa5 true [swizzled 0, swizzled 1] with
      clamp := true, round := true },
    { OpInfo.simple "fma.f32" .alu 0xb2 true [widened 0, widened 1, widened 2] with
      clamp := true, round := true },
    { OpInfo.simple "fround.f32" .alu 0x90 true [widened 0] with
      secondary := 0x0d, clamp := true, round := true },
    { OpInfo.simple "fround.v2f16" .alu 0x90 true [swizzled 0] with
      secondary := 0x0f, clamp := true, round := true },
    { OpInfo.simple "v2s16_to_v2f16" .alu 0x90 true [chosen 36] with
      secondary := 0x07, round := true },
    .simple "fadd_imm.f32" .immediate 0x114 true [plain],
    .simple "fadd_imm.v2f16" .immediate 0x115 true [plain],
    { OpInfo.simple "icmp.v2s16" .alu 0xf9 true [chosen 36, chosen (halvesPos 1), plain] with
      compare := true, resultType := true },
    { OpInfo.simple "fcmp.v2f16" .alu 0xf5 true [swizzled 0, swizzled 1, plain] with
      compare := true, resultType := true },
    { OpInfo.simple "mux.i32" .alu 0xb8 true [plain, plain, plain] with mux := true },
    .simple "lshift_and.i32" .alu 0x3e true [plain, invertible, plain],
    .simple "load.i32" .load 0x60 true [register],
    .simple "store.i32" .store 0x78 false [register],
    .simple "tex" .texture 0x128 true [plain],
    { OpInfo.simple "branchz.i16" .branch 0x1f false [⟨false, false, .widen, 37, false⟩] with
      compare := true } ]

/-- The operation that does nothing. -/
def nop : Opcode := ⟨0⟩

/-- The row of an operation. -/
def info (op : Opcode) : Except Malformed OpInfo :=
  match table[op.code.toNat]? with
  | some row => .ok row
  | none => .error (.opcode op.code)

/-- The name of an operation. -/
def text (op : Opcode) : String :=
  match table[op.code.toNat]? with
  | some row => row.name
  | none => "OpCode(" ++ toString op.code.toNat ++ ")"

/-- The operation of a name. -/
def ofName? (name : String) : Option Opcode :=
  (table.findIdx? (·.name = name)).map fun k => ⟨k.toUInt8⟩

end Opcode

end ShaderCompiler.Machine
