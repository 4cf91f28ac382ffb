import ShaderCompiler.Analysis

/-!
# Shaders and their listings

A shader is a name, a pipeline stage and functions of an arena. Its listing shows the
blocks of every function, indented by nesting. Listing a function numbers its blocks
first, unless their numbers are up to date.
-/

namespace ShaderCompiler

/-- A pipeline stage, by its code. -/
structure Stage where
  code : UInt8
deriving DecidableEq

/-- The name of a stage. -/
def Stage.text (s : Stage) : String :=
  match s.code with
  | 0 => "vertex"
  | 1 => "fragment"
  | 2 => "compute"
  | n => "stage(" ++ toString n.toNat ++ ")"

/-- A shader: functions of an arena under a name. -/
structure Shader where
  name : String
  stage : Stage
  functions : List FunctionId
deriving DecidableEq

/-- A line at a depth of nesting. -/
def indented (depth : Nat) (line : String) : String :=
  String.join (List.replicate depth "    ") ++ line ++ "\n"

/-- The listing of a region at a depth of nesting. -/
def Region.listing (a : Arena) : Nat → Region → Except Fault String
  | _, .done => return ""
  | depth, .block b rest => do
      let lines := (← a.blockText b).splitOn "\n"
      return String.join (lines.map (indented depth)) ++ (← rest.listing a depth)
  | depth, .branch c yes no rest => do
      let head ← a.constructText c
      let yes ← yes.listing a (depth + 1)
      let no ← no.listing a (depth + 1)
      return indented depth (head ++ " \x7b") ++ yes ++ indented depth "\x7d else \x7b" ++ no
        ++ indented depth "\x7d" ++ (← rest.listing a depth)
  | depth, .loop _ body rest => do
      let body ← body.listing a (depth + 1)
      return indented depth "loop \x7b" ++ body ++ indented depth "\x7d"
        ++ (← rest.listing a depth)

namespace Edit

/-- The listing of a function. -/
def functionText (f : FunctionId) : Edit String := do
  requireBlockOrder f
  look fun a => do (← a.bodyRegion f).listing a 1

/-- How the shader sees a function; a function without a declaration is a fault. -/
def declarationOf (f : FunctionId) : Edit Declaration := do
  present (← look (·.function f)).declaration

/-- The listing of a shader. -/
def shaderText (s : Shader) : Edit String := do
  let functions ← s.functions.mapM fun f => do
    let d ← declarationOf f
    let head := "impl " ++ d.name ++ " \x7b"
    if d.hasBody then
      return [head, ← functionText f, "\x7d"]
    else
      return [head, "\x7d"]
  return String.intercalate "\n"
    (("shader: " ++ s.name ++ " (" ++ s.stage.text ++ ")") :: functions.flatten)

/-- Runs a change on every function of a shader that has a body, and tells whether one of
them reported progress. -/
def forEachBody (s : Shader) (change : FunctionId → Edit Bool) : Edit Bool :=
  s.functions.foldlM (fun progress f => do
    if (← declarationOf f).hasBody then
      return (← change f) || progress
    else
      return progress) false

end Edit

namespace Arena

/-- The instructions of a function in program order, as far as they belong to the block that
lists them. -/
def instrsOf (a : Arena) (f : FunctionId) : Except Fault (List InstrId) := do
  (← a.blocksOf f).flatMapM fun b => do
    (← a.block b).instrs.filterM fun i => return (← a.instr i).block = some b

end Arena

/-- The number of instructions of the functions of a shader that have a body. -/
def Edit.instrCount (s : Shader) : Edit Nat := do
  let instrs ← s.functions.flatMapM fun f => do
    if (← declarationOf f).hasBody then look (·.instrsOf f) else return []
  return instrs.length

end ShaderCompiler
