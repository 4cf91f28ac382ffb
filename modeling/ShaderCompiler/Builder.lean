import ShaderCompiler.Shader

/-!
# Building functions

A function is built in program order. A `Cursor` says where: it knows the function, the
list that grows, its owner, and the constructs that are open, innermost first. Every
instruction goes to the end of the last block of the list; a φ goes after the φs that
are there already.

Operations that move the cursor return the new one. An operation that stops leaves in
the arena what it did before, in the order given here: an arithmetic instruction gets
its value before its sources are linked, an intrinsic links its sources first.
-/

namespace ShaderCompiler

/-- An open construct, and the list that grows again once it is closed. -/
structure Frame where
  construct : ConstructId
  outer : ListRef
deriving DecidableEq

/-- The place where a function grows. -/
structure Cursor where
  function : FunctionId
  list : ListRef
  owner : Owner
  /-- The open constructs, innermost first. -/
  frames : List Frame
deriving DecidableEq

namespace Edit

/-- Adds an item at the end of a list. -/
def appendItem (r : ListRef) (item : Item) : Edit Unit := do
  let l ← look (·.items r)
  setItems r (l ++ [item])

/-- Adds an empty block at the end of a list. -/
def openBlock (r : ListRef) (owner : Owner) : Edit Unit := do
  let b ← addBlock (Block.empty (some owner))
  appendItem r (.block b)

/-- A new function whose body is one empty block, and the cursor in it. -/
def newFunction (name : String) : Edit Cursor := do
  let finish ← addBlock (Block.empty none)
  let f ← addFunction ⟨some ⟨name, true⟩, [], finish, 0, .none, none⟩
  setBlock finish fun bb => { bb with parent := some (.function f) }
  openBlock (.body f) (.function f)
  return ⟨f, .body f, .function f, []⟩

/-- Refuses numbers of lanes that no value has. -/
def checkComps (n : Int) : Edit Unit :=
  if n < 1 ∨ n > maxLanes then throw (.componentCount n) else pure ()

/-- A new value of a function. -/
def newValue (f : FunctionId) (comps : Int) (definedBy : Option InstrId) : Edit ValueId := do
  checkComps comps
  let index := (← look (·.function f)).valueCount
  setFunction f fun g => { g with valueCount := index + 1 }
  addValue ⟨index, comps.toNat, definedBy, [], []⟩

/-- A new instruction that is in no block yet. -/
def newInstr (action : Action) : Edit InstrId :=
  addInstr ⟨none, 0, false, none, action⟩

/-- Adds an instruction at the end of a block. -/
def appendInstr (b : BlockId) (i : InstrId) : Edit Unit := do
  setInstr i fun ins => { ins with block := some b }
  setBlock b fun bb => { bb with instrs := bb.instrs ++ [i] }

/-- Links sources of an instruction one after the other behind the uses made so far. The
action of the instruction is given by the list of its uses, in which those to come are
missing. -/
def linkSources (i : InstrId) (action : List (Option UseId) → Action) :
    List (Option UseId) → List (Option ValueId) → Edit Unit
  | _, [] => pure ()
  | made, v :: vs => do
      let u ← newUse i v
      setAction i fun _ => action (made ++ some u :: vs.map fun _ => none)
      linkSources i action (made ++ [some u]) vs

/-- Links texture sources of an instruction one after the other behind those made so far. -/
def linkTexSources (i : InstrId) (action : List (TexRole × UseId) → Action) :
    List (TexRole × UseId) → List (TexRole × Option ValueId) → Edit Unit
  | _, [] => pure ()
  | made, (role, v) :: vs => do
      let u ← newUse i v
      setAction i fun _ => action (made ++ [(role, u)])
      linkTexSources i action (made ++ [(role, u)]) vs

/-- Adds an incoming value to a φ. Other instructions are left as they are. -/
def addPhiSource (i : InstrId) (pred : BlockId) (v : Option ValueId) : Edit Unit := do
  let u ← newUse i v
  setAction i fun
    | .phi dest srcs => .phi dest (srcs ++ [(pred, u)])
    | other => other

/-- Makes an arithmetic instruction clamp its result, or not. Other instructions are left as
they are. -/
def setSaturate (i : InstrId) (saturate : Bool) : Edit Unit :=
  setAction i fun
    | .alu p => .alu { p with saturate := saturate }
    | other => other

/-- Sets the base offset of an intrinsic. Other instructions are left as they are. -/
def setBase (i : InstrId) (base : Int) : Edit Unit :=
  setAction i fun
    | .intrinsic op dest srcs _ => .intrinsic op dest srcs base
    | other => other

/-- Sets the modifiers of a use: the first lanes of its swizzle, and how it changes signs. -/
def setModifiers (u : UseId) (lanes : List Nat) (absolute negated : Bool) : Edit Unit :=
  setUse u fun use =>
    { use with swizzle := use.swizzle.overwrite lanes, absolute := absolute, negated := negated }

end Edit

/-- The incoming use of a φ from a predecessor. -/
def phiSourceFor (srcs : List (BlockId × UseId)) (pred : BlockId) : Option UseId :=
  srcs.lookup pred

namespace Cursor

open Edit

/-- The block at the end of the list. -/
def block (c : Cursor) : Edit BlockId := do
  match (← look (·.items c.list)).getLast? with
  | none => throw .outOfRange
  | some (.construct _) => throw .notABlock
  | some (.block b) => return b

/-- Adds an instruction at the end of the current block. -/
def insert (c : Cursor) (i : InstrId) : Edit InstrId := do
  appendInstr (← c.block) i
  return i

/-- A new value of the function, defined by an instruction. -/
def value (c : Cursor) (i : InstrId) (comps : Int) : Edit ValueId :=
  newValue c.function comps (some i)

/-! ### Instructions -/

/-- A constant. -/
def const (c : Cursor) (values : List UInt64) : Edit InstrId := do
  checkComps values.length
  let i ← newInstr (.const none values)
  let v ← c.value i values.length
  setAction i fun _ => .const (some v) values
  c.insert i

/-- An undefined value. -/
def undef (c : Cursor) (comps : Int) : Edit InstrId := do
  checkComps comps
  let i ← newInstr (.undef none)
  let v ← c.value i comps
  setAction i fun _ => .undef (some v)
  c.insert i

/-- An arithmetic instruction with a result of `comps` lanes. Its sources read all lanes in
order and have no modifiers. -/
def alu (c : Cursor) (op : AluOp) (comps : Int) (srcs : List (Option ValueId)) :
    Edit InstrId := do
  let expected := (← op.info).inputs.length
  if srcs.length ≠ expected then
    throw (.sourceCount (shown op.text) expected srcs.length)
  checkComps comps
  let i ← newInstr (.alu ⟨op, none, false, srcs.map fun _ => none⟩)
  let v ← c.value i comps
  setAction i fun _ => .alu ⟨op, some v, false, srcs.map fun _ => none⟩
  linkSources i (fun uses => .alu ⟨op, some v, false, uses⟩) [] srcs
  c.insert i

/-- An arithmetic instruction whose result is as wide as the operation says, or else as its
first source. -/
def aluOfSources (c : Cursor) (op : AluOp) (srcs : List (Option ValueId)) : Edit InstrId := do
  let output := (← op.info).output
  if output ≠ 0 then
    c.alu op output srcs
  else
    let v ← present (← entry srcs 0)
    c.alu op (← look (·.value v)).comps srcs

/-- Changes source `k` of an instruction. -/
def setSource (i : InstrId) (k : Nat) (f : Use → Use) : Edit Unit := do
  let srcs := (← look (·.instr i)).sources
  setUse (← present (← entry srcs k)) f

/-- A copy of a value, through a swizzle if one is given. -/
def mov (c : Cursor) (v : Option ValueId) (swizzle : List Nat) : Edit InstrId := do
  if swizzle.isEmpty then
    let source ← present v
    c.alu .mov (← look (·.value source)).comps [v]
  else
    let i ← c.alu .mov swizzle.length [v]
    setSource i 0 fun u => { u with swizzle := u.swizzle.overwrite swizzle }
    return i

/-- A vector of single lanes of values. -/
def gather (c : Cursor) (lanes : List (Option ValueId × Nat)) : Edit InstrId := do
  let op ← AluOp.gather lanes.length
  let i ← c.alu op lanes.length (lanes.map (·.1))
  lanes.zipIdx.forM fun (lane, k) =>
    setSource i k fun u => { u with swizzle := u.swizzle.overwrite [lane.2] }
  return i

/-- An intrinsic. The number of lanes is ignored if it has no result. -/
def intrinsic (c : Cursor) (op : Intrinsic) (comps : Int) (srcs : List (Option ValueId)) :
    Edit InstrId := do
  let info ← op.info
  if srcs.length ≠ info.sources then
    throw (.sourceCount ("@" ++ shown op.text) info.sources srcs.length)
  let i ← newInstr (.intrinsic op none (srcs.map fun _ => none) 0)
  linkSources i (fun uses => .intrinsic op none uses 0) [] srcs
  if info.hasDest then
    let v ← c.value i comps
    setAction i fun
      | .intrinsic op _ srcs base => .intrinsic op (some v) srcs base
      | other => other
  c.insert i

/-- A texture instruction. -/
def tex (c : Cursor) (op : TexOp) (comps : Int) (texture sampler : Int)
    (srcs : List (TexRole × Option ValueId)) : Edit InstrId := do
  checkComps comps
  let i ← newInstr (.tex op none [] texture sampler)
  let v ← c.value i comps
  setAction i fun _ => .tex op (some v) [] texture sampler
  linkTexSources i (fun uses => .tex op (some v) uses texture sampler) [] srcs
  c.insert i

/-- A call. -/
def call (c : Cursor) (callee : String) (params : List (Option ValueId)) : Edit InstrId := do
  let i ← newInstr (.call callee (params.map fun _ => none))
  linkSources i (fun uses => .call callee uses) [] params
  c.insert i

/-- A φ without sources, after the φs of the current block. -/
def phi (c : Cursor) (comps : Int) : Edit InstrId := do
  let b ← c.block
  checkComps comps
  let i ← newInstr (.phi none [])
  let v ← c.value i comps
  setInstr i fun ins => { ins with block := some b, action := .phi (some v) [] }
  let a ← get
  let instrs := (← look (·.block b)).instrs
  let isPhi (j : InstrId) : Bool := a.instrs[j.idx]?.any (·.isPhi)
  setBlock b fun bb =>
    { bb with instrs := instrs.takeWhile isPhi ++ i :: instrs.dropWhile isPhi }
  return i

/-- Entries of a parallel copy, one after the other behind those made so far. -/
def copyEntries (c : Cursor) (i : InstrId) :
    List (ValueId × UseId) → List (Option ValueId) → Edit Unit
  | _, [] => pure ()
  | made, v :: vs => do
      let source ← present v
      let dest ← c.value i (← look (·.value source)).comps
      let u ← newUse i v
      setAction i fun _ => .parallelCopy (made ++ [(dest, u)])
      c.copyEntries i (made ++ [(dest, u)]) vs

/-- A copy of several values at once. -/
def parallelCopy (c : Cursor) (srcs : List (Option ValueId)) : Edit InstrId := do
  let i ← newInstr (.parallelCopy [])
  c.copyEntries i [] srcs
  c.insert i

/-- A jump. -/
def jump (c : Cursor) (kind : JumpKind) : Edit InstrId := do
  let i ← newInstr (.jump kind)
  c.insert i

/-! ### Control flow -/

/-- Opens an `if` on a condition; its first branch grows. -/
def openIf (c : Cursor) (cond : Option ValueId) : Edit (ConstructId × Cursor) := do
  let v ← present cond
  let n ← addConstruct ⟨.branch none [] [], some c.owner⟩
  let u ← addUse (Use.fresh v none (some n))
  link v u
  setConstruct n fun x => { x with shape := .branch (some u) [] [] }
  appendItem c.list (.construct n)
  openBlock (.no n) (.construct n)
  openBlock (.yes n) (.construct n)
  return (n, { c with list := .yes n, owner := .construct n, frames := ⟨n, c.list⟩ :: c.frames })

/-- Opens a loop; its body grows. -/
def openLoop (c : Cursor) : Edit (ConstructId × Cursor) := do
  let n ← addConstruct ⟨.loop [], some c.owner⟩
  appendItem c.list (.construct n)
  openBlock (.loop n) (.construct n)
  return (n, { c with list := .loop n, owner := .construct n, frames := ⟨n, c.list⟩ :: c.frames })

/-- The innermost open construct. -/
def innermost (c : Cursor) : Edit (Frame × List Frame) :=
  match c.frames with
  | [] => throw .nothingOpen
  | fr :: frames => pure (fr, frames)

/-- Whether a construct is an `if`. -/
def isIf (n : ConstructId) : Edit Bool := do
  match (← look (·.construct n)).shape with
  | .branch .. => return true
  | .loop _ => return false

/-- Lets the second branch of the innermost `if` grow. -/
def switchToElse (c : Cursor) : Edit Cursor := do
  let (fr, _) ← c.innermost
  if ← isIf fr.construct then return { c with list := .no fr.construct }
  else throw .elseOutsideIf

/-- Goes on after the innermost construct, with an empty block. -/
def leave (c : Cursor) (fr : Frame) (frames : List Frame) : Edit (ConstructId × Cursor) := do
  let owner ← present (← look (·.construct fr.construct)).parent
  openBlock fr.outer owner
  return (fr.construct, { c with list := fr.outer, owner := owner, frames := frames })

/-- Closes the innermost construct, an `if`. -/
def closeIf (c : Cursor) : Edit (ConstructId × Cursor) := do
  let (fr, frames) ← c.innermost
  if ← isIf fr.construct then c.leave fr frames else throw .endIfOutsideIf

/-- Closes the innermost construct, a loop. -/
def closeLoop (c : Cursor) : Edit (ConstructId × Cursor) := do
  let (fr, frames) ← c.innermost
  if ← isIf fr.construct then throw .endLoopOutsideLoop else c.leave fr frames

/-- Ends the function: no construct may be open, and the edges are linked. -/
def finish (c : Cursor) : Edit Unit := do
  if !c.frames.isEmpty then
    throw (.stillOpen c.frames.length)
  relink c.function
  requireBlockOrder c.function

end Cursor

end ShaderCompiler
