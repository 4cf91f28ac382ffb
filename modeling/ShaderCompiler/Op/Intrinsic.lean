import ShaderCompiler.Fault

/-!
# Intrinsics

An intrinsic reads or writes something outside the values of the shader: inputs,
outputs, buffers, shared memory, or the fate of the invocation. An intrinsic that
is not eliminable has an effect of its own and is always kept.
-/

namespace ShaderCompiler

/-- An intrinsic code. -/
structure Intrinsic where
  code : Nat
deriving DecidableEq

/-- A row of the intrinsic table. -/
structure IntrinsicInfo where
  name : String
  sources : Nat
  hasDest : Bool
  eliminable : Bool
deriving DecidableEq

namespace Intrinsic

/-- The intrinsic table, in the order of the codes. -/
def table : List IntrinsicInfo :=
  [ ⟨"load_input", 1, true, true⟩,
    ⟨"load_uniform", 1, true, true⟩,
    ⟨"load_ubo", 2, true, true⟩,
    ⟨"load_ssbo", 2, true, false⟩,
    ⟨"load_shared", 1, true, false⟩,
    ⟨"store_output", 1, false, false⟩,
    ⟨"store_ssbo", 3, false, false⟩,
    ⟨"store_shared", 2, false, false⟩,
    ⟨"discard", 0, false, false⟩,
    ⟨"discard_if", 1, false, false⟩,
    ⟨"barrier", 0, false, false⟩,
    ⟨"load_frag_coord", 0, true, true⟩,
    ⟨"load_instance_id", 0, true, true⟩ ]

/-- The row of an intrinsic. -/
def info (op : Intrinsic) : Except Fault IntrinsicInfo :=
  entry table op.code

/-- The name of an intrinsic. -/
def text (op : Intrinsic) : Except Fault String :=
  match table[op.code]? with
  | some row => .ok row.name
  | none => .error .unknownIntrinsic

/-- The intrinsic of a name. -/
def ofName? (name : String) : Option Intrinsic :=
  (table.findIdx? (·.name = name)).map Intrinsic.mk

end Intrinsic

end ShaderCompiler
