import ShaderCompiler.Fault

/-!
# Texture operations

A texture instruction has an operation (sample, sample at a level, fetch, size)
and sources that play a role each: the coordinate, the level of detail, its bias,
an offset, or the reference of a comparison.
-/

namespace ShaderCompiler

/-- A texture operation code. -/
structure TexOp where
  code : Nat
deriving DecidableEq

/-- The name of a texture operation. -/
def TexOp.text (op : TexOp) : Except Fault String :=
  match ["tex", "txl", "txf", "txs"][op.code]? with
  | some name => .ok name
  | none => .error .unreachable

/-- The code of the role a texture source plays. -/
structure TexRole where
  code : Nat
deriving DecidableEq

/-- The name of a role. -/
def TexRole.text (role : TexRole) : Except Fault String :=
  entry ["coord", "lod", "bias", "offset", "comparator"] role.code

end ShaderCompiler
