import ShaderCompiler.Shader

/-!
# Forwarding copies

A copy is an unsaturated `mov` or gathering operation without modifiers on its
sources. Forwarding lets the users of a copy read what it copies, and removes the
copies that nobody reads any more.

A source of an arithmetic instruction selects lanes, so it can look through every
`mov`, and through a gathering operation if all lanes it reads come from one value.
Every other use looks only through a copy that reproduces its source lane for lane.

Copies are visited in program order. A use that moved may stand before a copy that was
visited already, and its user may have become a new chance; such copies are queued and
visited again until the queue is empty.
-/

namespace ShaderCompiler

namespace Arena

/-- Whether one of the sources has a modifier. -/
def anyModified (a : Arena) : List (Option UseId) → Except Fault Bool
  | [] => return false
  | u :: rest => do
      let use ← a.use (← present u)
      if use.absolute || use.negated then return true else a.anyModified rest

/-- Whether an arithmetic instruction only moves lanes. -/
def isCopy (a : Arena) (p : Alu) : Except Fault Bool := do
  if p.saturate then
    return false
  else if p.op = .mov then
    let use ← a.use (← present (← entry p.srcs 0))
    return !use.absolute && !use.negated
  else if p.op.isGather then
    return !(← a.anyModified p.srcs)
  else
    return false

/-- Whether the sources at the given positions take the lanes of these numbers from one
value. -/
def gathersInOrder (a : Arena) (srcs : List (Option UseId)) (source : ValueId) :
    List Nat → Except Fault Bool
  | [] => return true
  | i :: rest => do
      let use ← a.use (← present (← entry srcs i))
      if use.swizzle[0] = i ∧ use.value = some source then a.gathersInOrder srcs source rest
      else return false

/-- Whether a copy reproduces its source lane for lane. -/
def isExactCopy (a : Arena) (p : Alu) : Except Fault Bool := do
  let width := (← a.value (← present p.dest)).comps
  let use ← a.use (← present (← entry p.srcs 0))
  let source ← present use.value
  if (← a.value source).comps ≠ width then
    return false
  else if p.op = .mov then
    use.swizzle.isIdentity width
  else
    a.gathersInOrder p.srcs source (List.range width)

/-- Whether the sources that the given lanes of a swizzle select all read one value. -/
def selectsOneValue (a : Arena) (srcs : List (Option UseId)) (s : Swizzle)
    (source : Option ValueId) : List Nat → Except Fault Bool
  | [] => return true
  | i :: rest => do
      let use ← a.use (← present (← entry srcs (← s.lane i)))
      if use.value = source then a.selectsOneValue srcs s source rest else return false

/-- The instruction at a place, if it is a copy. -/
def copyAt (a : Arena) (i : Option InstrId) : Except Fault (List InstrId) := do
  match i with
  | none => return []
  | some i =>
      match (← a.instr i).alu? with
      | none => return []
      | some p => return if ← a.isCopy p then [i] else []

/-- The copies to visit after a use moved: the one that defines the value it now reads, and
its own user. -/
def copiesAround (a : Arena) (u : UseId) : Except Fault (List InstrId) := do
  let value ← a.value (← a.valueOf u)
  let above ← a.copyAt value.definedBy
  let below ← a.copyAt (← a.use u).user
  return above ++ below

end Arena

namespace Edit

/-- Lets lane `i` of a use select the lane that `choose` gives for the lane it selects. -/
def composeLane (u : UseId) (choose : Arena → Nat → Except Fault Nat) (i : Nat) : Edit Unit := do
  let lane ← look fun a => do (← a.use u).swizzle.lane i
  let selected ← look (choose · lane)
  setUse u fun use => { use with swizzle := use.swizzle.setIfInBounds i selected }

/-- Lets a use look through a copy that reproduces its source. -/
def forwardExact (copy : Alu) (u : UseId) : Edit Bool := do
  if ← look (·.isExactCopy copy) then
    let source ← look fun a => do a.use (← present (← entry copy.srcs 0))
    repoint u source.value
    return true
  else
    return false

/-- Lets source `k` of an arithmetic instruction look through a copy: its lanes go through
the lanes of the copy. -/
def forwardLanes (copy user : Alu) (k : Nat) (u : UseId) : Edit Bool := do
  let width ← look (·.sourceWidth user k)
  if copy.op = .mov then
    (List.range width).forM <| composeLane u fun a lane => do
      (← a.use (← present (← entry copy.srcs 0))).swizzle.lane lane
    let source ← look fun a => do a.use (← present (← entry copy.srcs 0))
    repoint u source.value
    return true
  else
    let lanes := (← look (·.use u)).swizzle
    let source ← look fun a => do a.use (← present (← entry copy.srcs lanes[0]))
    if ← look (·.selectsOneValue copy.srcs lanes source.value (List.range' 1 (width - 1))) then
      (List.range width).forM <| composeLane u fun a lane => do
        return (← a.use (← present (← entry copy.srcs lane))).swizzle[0]
      repoint u source.value
      return true
    else
      return false

/-- Lets a use by an instruction look through a copy. -/
def forwardUse (copy : Alu) (u : UseId) : Edit Bool := do
  match ← look (·.aluPosition u) with
  | some (user, k) => forwardLanes copy user k u
  | none => forwardExact copy u

/-- Lets uses look through a copy one after the other. The result tells whether one did, and
extends the queue by the copies to visit again. -/
def forwardEach (forward : UseId → Edit Bool) :
    List UseId → Bool × List InstrId → Edit (Bool × List InstrId)
  | [], st => return st
  | u :: rest, st => do
      if ← forward u then
        count fun c => { c with copiesFolded := c.copiesFolded + 1 }
        let more ← look (·.copiesAround u)
        forwardEach forward rest (true, st.2 ++ more)
      else
        forwardEach forward rest st

/-- Lets all users of a copy look through it, and removes it if that left it unused. -/
def visitCopy (i : InstrId) (p : Alu) (queue : List InstrId) : Edit (Bool × List InstrId) := do
  let dest ← present p.dest
  let st ← forwardEach (forwardUse p) (← look (·.value dest)).uses (false, queue)
  let st ← forwardEach (forwardExact p) (← look (·.value dest)).conditions st
  if st.1 && (← look (·.value dest)).isUnused then
    removeInstr (← present (← look (·.instr i)).block) i
    count fun c => { c with copiesRemoved := c.copiesRemoved + 1 }
  return st

/-- Visits the instruction of a block if it is a copy that belongs to the block. -/
def visitInstr (b : BlockId) (st : Bool × List InstrId) (i : InstrId) :
    Edit (Bool × List InstrId) := do
  let ins ← look (·.instr i)
  if ins.block = some b then
    match ins.alu? with
    | none => return st
    | some p =>
        if ← look (·.isCopy p) then
          let (progress, queue) ← visitCopy i p st.2
          return (st.1 || progress, queue)
        else
          return st
  else
    return st

/-- Visits all copies of a block. -/
def visitBlock (st : Bool × List InstrId) (b : BlockId) : Edit (Bool × List InstrId) := do
  (← look (·.block b)).instrs.foldlM (visitInstr b) st

/-- Visits queued copies that are still in a block until the queue is empty, with at most
`steps` entries taken from it. The result tells whether a use moved. -/
def drainQueue : Nat → List InstrId → Bool → Edit Bool
  | _, [], progress => return progress
  | 0, _ :: _, _ => throw .endless
  | steps + 1, i :: queue, progress => do
      let ins ← look (·.instr i)
      match ins.block, ins.alu? with
      | some _, some p =>
          let (moved, queue) ← visitCopy i p queue
          drainQueue steps queue (progress || moved)
      | _, _ => drainQueue steps queue progress

end Edit

/-- A number of queue entries that suffices unless copies read each other in a circle. A use
passes each copy at most once and queues at most two copies each time; the factor leaves room
for circles that end at a lane that is not there. -/
def Arena.queueBound (a : Arena) : Nat :=
  2 * maxLanes * (a.uses.size + 1) * (a.instrs.size + 1)

namespace Edit

/-- Forwards the copies of a function, with a bound on the number of queue entries. -/
def forwardCopiesWithin (bound : Arena → Nat) (f : FunctionId) : Edit Bool := do
  let blocks ← look (·.blocksOf f)
  let (progress, queue) ← blocks.foldlM visitBlock (false, [])
  let progress ← drainQueue (bound (← get)) queue progress
  preserve f (if progress then ⟨true, true, false⟩ else .all)
  return progress

/-- Forwards the copies of a function, and tells whether a use moved. The blocks are not
touched. -/
def forwardCopies (f : FunctionId) : Edit Bool :=
  forwardCopiesWithin Arena.queueBound f

end Edit

end ShaderCompiler
