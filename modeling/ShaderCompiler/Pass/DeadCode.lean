import ShaderCompiler.Pass.LiveSet
import ShaderCompiler.Shader

/-!
# Removing dead code

An instruction is dead if it has no effect of its own and its results are never used.
Liveness flows backwards, from effects and conditions to the definitions of what they
read, so a function is scanned from its end to its start.

A loop with a back edge is scanned in rounds. As long as a round marks a new value as
the source of a φ of the header that comes around the loop, another round follows. Inside
such a loop only verdicts are recorded; the outermost loop then removes what is dead.
A loop whose header is entered from the block before it alone is scanned once, unless
rounds are asked for.
-/

namespace ShaderCompiler

namespace Edit

/-- Takes an instruction out of a block, and counts it. -/
def eliminate (b : BlockId) (i : InstrId) : Edit Unit := do
  removeInstr b i
  count fun c => { c with instrsEliminated := c.instrsEliminated + 1 }

/-- What is done about an instruction with a verdict. It tells whether the instruction was taken
out. -/
def conclude (preheader : Option BlockId) (b : BlockId) (i : InstrId) (live : Bool) : Edit Bool :=
  if preheader.isSome then do
    setInstr i fun ins => { ins with live := live }
    return false
  else if live then return false
  else do
    eliminate b i
    return true

end Edit

/-- A backward scan, with the values known to be live. -/
abbrev Scan := StateT LiveSet Edit

namespace Scan

open Edit

/-- A look at the arena. -/
def look {α : Type} (view : Arena → Except Fault α) : Scan α :=
  liftM (Edit.look view)

/-- Marks the value of a use as live, and tells whether it was not marked before. -/
def markUse (u : UseId) : Scan Bool := do
  let index := (← look fun a => do a.value (← a.valueOf u)).index
  let (isNew, live) ← liftM (m := Edit) ((← get).mark index)
  set live
  return isNew

/-- Whether a destination is live. -/
def isDestLive (dest : Option ValueId) : Scan Bool := do
  let index := (← look fun a => do a.value (← present dest)).index
  liftM (m := Edit) ((← get).contains index)

/-- Whether one of the destinations is live. -/
def isAnyLive : List ValueId → Scan Bool
  | [] => return false
  | v :: rest => do
      if ← isDestLive (some v) then return true else isAnyLive rest

/-- Whether an instruction has an effect or a live result. -/
def isLive (ins : Instr) : Scan Bool := do
  match ins.action with
  | .alu p => isDestLive p.dest
  | .tex _ dest _ _ _ => isDestLive dest
  | .phi dest _ => isDestLive dest
  | .const dest _ => isDestLive dest
  | .undef dest => isDestLive dest
  | .call .. => return true
  | .jump _ => return true
  | .intrinsic op dest _ _ =>
      if (← liftM (m := Edit) op.info).eliminable then
        match dest with
        | some _ => isDestLive dest
        | none => return false
      else
        return true
  | .parallelCopy entries => isAnyLive (entries.map (·.1))

/-- Marks the sources of a φ, and tells whether one was new that does not come from the
block before the loop. -/
def markIncoming (preheader : Option BlockId) : List (BlockId × UseId) → Scan Bool
  | [] => return false
  | (pred, u) :: rest => do
      let isNew ← markUse u
      let later ← markIncoming preheader rest
      return (isNew && some pred ≠ preheader) || later

/-- Marks the sources of a live instruction, and tells whether something new comes around
the loop. -/
def markSources (preheader : Option BlockId) (ins : Instr) : Scan Bool := do
  match ins.action with
  | .phi _ srcs =>
      let changed ← markIncoming preheader srcs
      ins.indirect.toList.forM fun u => discard <| markUse u
      return changed
  | _ =>
      ins.sources.forM fun u => do
        discard <| markUse (← liftM (m := Edit) (present u))
      return false

/-- Scans an instruction of a block. Inside rounds the verdict is recorded, otherwise a dead
instruction is removed. The results tell whether it was, and whether something new comes
around the loop. -/
def instr (preheader : Option BlockId) (b : BlockId) (i : InstrId) : Scan (Bool × Bool) := do
  let ins ← look (·.instr i)
  let live ← isLive ins
  let changed ← (if live then markSources preheader ins else pure false)
  let removed ← liftM (conclude preheader b i live)
  return (removed, changed)

/-- Scans the instructions of a block at the positions below `n`, the last one first. -/
def instrsBelow (preheader : Option BlockId) (b : BlockId) : Nat → Scan (Bool × Bool)
  | 0 => return (false, false)
  | n + 1 => do
      let i ← look fun a => do entry (← a.block b).instrs n
      let (removed, changed) ← instr preheader b i
      let (removed', changed') ← instrsBelow preheader b n
      return (removed || removed', changed || changed')

/-- Scans a block. -/
def block (preheader : Option BlockId) (b : BlockId) : Scan (Bool × Bool) := do
  let n := (← look (·.block b)).instrs.length
  instrsBelow preheader b n

/-- Makes rounds until one brings nothing new, and at most `n` of them. -/
def rounds (round : Scan Bool) : Nat → Scan Unit
  | 0 => throw .endless
  | n + 1 => do
      liftM <| count fun c => { c with loopRounds := c.loopRounds + 1 }
      if ← round then rounds round n else return ()

/-- Removes an instruction if its recorded verdict is dead, and tells whether one was removed up to
here. -/
def sweepInstr (b : BlockId) (removed : Bool) (i : InstrId) : Scan Bool := do
  let ins ← look (·.instr i)
  let taken ← liftM (conclude none b i ins.live)
  return taken || removed

/-- Removes the instructions of a block whose recorded verdict is dead. -/
def sweepBlock (b : BlockId) : Scan Bool := do
  (← look (·.block b)).instrs.foldlM (sweepInstr b) false

/-- Removes what rounds found dead in the body of a loop. -/
def sweep (body : Region) : Scan Bool :=
  body.blocks.foldlM (fun removed b => return (← sweepBlock b) || removed) false

/-- Marks the condition of an `if`. -/
def markCondition (c : ConstructId) : Scan Unit := do
  match (← look (·.construct c)).shape with
  | .branch cond _ _ => discard <| markUse (← liftM (m := Edit) (present cond))
  | .loop _ => return ()

/-- Scans a region from its end to its start, and tells whether something was removed.
`before` is the block in front of the region, if there is one. A round that brings something
new marks a value, so there are at most as many rounds as there is room in the live set, and
one more. -/
def region (always : Bool) (preheader : Option BlockId) :
    Except Fault BlockId → Region → Scan Bool
  | _, .done => return false
  | _, .block b rest => do
      let later ← region always preheader (.ok b) rest
      let (here, _) ← block preheader b
      return later || here
  | _, .branch c yes no rest => do
      let later ← region always preheader (.error .notABlock) rest
      let inNo ← region always preheader (.error .outOfRange) no
      let inYes ← region always preheader (.error .outOfRange) yes
      markCondition c
      return later || inNo || inYes
  | before, .loop _ (.block header inner) rest => do
      let later ← region always preheader (.error .notABlock) rest
      let before ← liftM (m := Edit) before
      if !always && (← look (·.block header)).preds = [before] then
        let inBody ← region always preheader (.ok header) inner
        let (inHeader, _) ← block preheader header
        return later || inBody || inHeader
      else
        let room := (← get).marks.size
        rounds (do
          discard <| region always (some before) (.ok header) inner
          return (← block (some before) header).2) (room + 1)
        if preheader.isSome then
          return later
        else
          return (← sweep (.block header inner)) || later
  | before, .loop _ .done rest => do
      discard <| region always preheader (.error .notABlock) rest
      discard <| liftM (m := Edit) before
      throw .outOfRange
  | before, .loop _ _ rest => do
      discard <| region always preheader (.error .notABlock) rest
      discard <| liftM (m := Edit) before
      throw .notABlock

end Scan

namespace Edit

/-- Removes the dead code of a function, and tells whether there was any. With `always`, every
loop is scanned in rounds. The blocks are not touched. -/
def removeDead (f : FunctionId) (always : Bool) : Edit Bool := do
  let live ← LiveSet.ofCount (← look (·.function f)).valueCount
  let region ← look (·.bodyRegion f)
  let progress ← (Scan.region always none (.error .outOfRange) region).run' live
  preserve f (if progress then ⟨true, true, false⟩ else .all)
  return progress

end Edit

end ShaderCompiler
