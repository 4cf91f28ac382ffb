import ShaderCompiler.Region
import ShaderCompiler.Arena.UseList

/-!
# Control flow edges

The edges between blocks follow from the region of a function. A block ends with a
jump, or it falls through: into the branches of the `if` after it, into the next
construct or block, or, at the end of its list, to what follows the list. Falling off
the end of a loop body leads back to the header.

`Edit.relink` computes all edges afresh. Predecessors are listed in program order,
once for each edge. Analyses derived from the edges are dropped.
-/

namespace ShaderCompiler

/-- Where jumps inside a loop lead. -/
structure LoopTargets where
  header : BlockId
  after : BlockId
deriving DecidableEq

/-- Where control goes in front of a region that is followed by `next`. -/
def Region.follow (next : BlockId) : Region → Except Fault BlockId
  | .done => .ok next
  | r => r.entry

/-- The block a jump leads to. Jumps to the ends of a loop need one around them. -/
def JumpKind.target (finish : BlockId) (around : Option LoopTargets) (kind : JumpKind) :
    Except Fault BlockId := do
  match kind, around with
  | .leaveFunction, _ => return finish
  | .leaveLoop, some l => return l.after
  | .nextIteration, some l => return l.header
  | .unknown _, _ => throw .unreachable
  | kind, none => throw (.outsideLoop (← kind.text))

/-- No analysis. -/
def Analyses.none : Analyses := ⟨false, false, false⟩

/-- Every analysis. -/
def Analyses.all : Analyses := ⟨true, true, true⟩

namespace Edit

/-- Sets the first exit of a block. -/
def setFirstExit (b next : BlockId) : Edit Unit :=
  setBlock b fun bb => { bb with exits := bb.exits.withFirst next }

/-- Sets the exits of a block in front of a region that is followed by `next`. -/
def linkBlock (finish b : BlockId) (rest : Region) (next : BlockId) (around : Option LoopTargets) :
    Edit Unit := do
  let follow ← rest.follow next
  match ← look (·.jumpOf b) with
  | some (_, kind) => setFirstExit b (← kind.target finish around)
  | none =>
      match rest with
      | .branch _ yes no _ => do
          let exits := Exits.fork (← yes.entry) (← no.entry)
          setBlock b fun bb => { bb with exits := exits }
      | _ => setFirstExit b follow

/-- Sets the exits of all blocks of a region that is followed by `next`. -/
def linkRegion (finish : BlockId) : Region → BlockId → Option LoopTargets → Edit Unit
  | .done, _, _ => pure ()
  | .block b rest, next, around => do
      linkBlock finish b rest next around
      linkRegion finish rest next around
  | .branch _ yes no rest, next, around => do
      let follow ← rest.follow next
      linkRegion finish yes follow around
      linkRegion finish no follow around
      linkRegion finish rest next around
  | .loop _ body rest, next, around => do
      let follow ← rest.follow next
      let header ← body.header
      linkRegion finish body header (some ⟨header, follow⟩)
      linkRegion finish rest next around

/-- Takes all edges away from blocks. -/
def clearEdges (blocks : List BlockId) : Edit Unit :=
  blocks.forM fun b => setBlock b fun bb => { bb with preds := [], exits := .nowhere }

/-- Enters blocks as predecessors where their exits lead. -/
def linkPreds (blocks : List BlockId) : Edit Unit :=
  blocks.forM fun b => do
    (← look (·.block b)).exits.toList.forM fun s =>
      setBlock s fun bb => { bb with preds := bb.preds ++ [b] }

/-- Computes all edges of a function from its region, and drops every analysis. -/
def relink (f : FunctionId) : Edit Unit := do
  let region ← look (·.bodyRegion f)
  let finish := (← look (·.function f)).finish
  let blocks := region.blocks ++ [finish]
  clearEdges blocks
  linkRegion finish region finish none
  linkPreds blocks
  setFunction f fun g => { g with valid := .none, dominance := none }

end Edit

end ShaderCompiler
