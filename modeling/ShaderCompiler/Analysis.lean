import ShaderCompiler.Dominators
import ShaderCompiler.Flow

/-!
# Cached analyses

A function can have three analyses cached: the numbers of its blocks, the numbers of
its instructions, and its dominator tree. `Edit.require` computes those that are
asked for and not known to be up to date; `Edit.preserve` declares the others stale.

The dominator tree is kept by block number. A query looks up numbers as they are, so
on a graph that was changed behind the analyses it may fail or answer by the old tree.
-/

namespace ShaderCompiler

namespace Analyses

/-- The bits by which a set of analyses is written as a number. -/
def toMask (s : Analyses) : Nat :=
  (if s.blockOrder then 1 else 0) + (if s.dominance then 2 else 0)
    + (if s.instrOrder then 4 else 0)

/-- The set of analyses written as a number; other bits are ignored. -/
def ofMask (mask : Nat) : Analyses :=
  ⟨mask.testBit 0, mask.testBit 1, mask.testBit 2⟩

/-- Whether all bits of a number are bits of the set. -/
def hasMask (s : Analyses) (mask : Nat) : Bool :=
  s.toMask &&& mask = mask

/-- The analyses in both sets. -/
def inter (s t : Analyses) : Analyses :=
  ⟨s.blockOrder && t.blockOrder, s.dominance && t.dominance, s.instrOrder && t.instrOrder⟩

end Analyses

namespace Arena

/-- The edges of the flow graph that leave a block. An edge back to the block itself changes no
dominator and is left out. -/
def edgesFrom (a : Arena) (b : BlockId) : Except Fault (List (Nat × Nat)) := do
  let bb ← a.block b
  let others := bb.exits.toList.filter (· ≠ b)
  others.mapM fun s => do
    let n := (← a.block s).index
    if n = bb.index then throw .selfEdge
    return (bb.index, n)

/-- The flow graph of a list of blocks, by block number. Blocks with the same number are a
fault. -/
def flowGraph (a : Arena) (blocks : List BlockId) : Except Fault FlowGraph := do
  let numbers ← blocks.mapM fun b => return (← a.block b).index
  let root ← ShaderCompiler.entry numbers 0
  discard <| numbers.foldlM (fun seen n =>
    if n ∈ seen then throw (.sameNumber n) else return n :: seen) ([] : List Nat)
  return ⟨root, ← blocks.flatMapM a.edgesFrom⟩

/-- Keeps the immediate dominator that was found for a block. -/
def keepIdom (a : Arena) (blocks : List BlockId) (idoms : List (Nat × Nat))
    (idom : Array (Option BlockId)) (b : BlockId) : Except Fault (Array (Option BlockId)) := do
  let k := (← a.block b).index
  match idoms.lookup k with
  | none => return idom
  | some d =>
      let dominator ← ShaderCompiler.entry blocks d
      if k < blocks.length then return idom.setIfInBounds k (some dominator)
      else throw .outOfRange

/-- The dominator tree of a list of blocks, by block number. -/
def dominanceOf (a : Arena) (blocks : List BlockId) : Except Fault Dominance := do
  let g ← a.flowGraph blocks
  let n := blocks.length
  let idom ← blocks.foldlM (a.keepIdom blocks g.immediateDominators) (Array.replicate n none)
  let depth ← g.treeDepths.foldlM (fun (depth : Array (Option Nat)) p =>
    if p.1 < n then return depth.setIfInBounds p.1 (some p.2)
    else throw .outOfRange) (Array.replicate n none)
  return ⟨idom, depth⟩

end Arena

namespace Edit

/-- Numbers the blocks of a function in program order. -/
def indexBlocks (f : FunctionId) : Edit Unit := do
  let blocks ← look (·.blocksOf f)
  blocks.zipIdx.forM fun (b, n) => setBlock b fun bb => { bb with index := n }

/-- Numbers the instructions of a function in program order. -/
def indexInstrs (f : FunctionId) : Edit Unit := do
  let blocks ← look (·.blocksOf f)
  let instrs ← blocks.flatMapM fun b => return (← look (·.block b)).instrs
  instrs.zipIdx.forM fun (i, n) => do
    discard <| look (·.instr i)
    setInstr i fun ins => { ins with index := n }

/-- Computes an analysis of a function if it is stale. -/
def refresh (f : FunctionId) (stale : Function → Bool) (compute : Edit Unit) : Edit Unit := do
  if stale (← look (·.function f)) then compute

/-- Numbers the blocks of a function and marks the numbers as up to date. -/
def renewOrder (f : FunctionId) : Edit Unit := do
  indexBlocks f
  setFunction f fun g => { g with valid := { g.valid with blockOrder := true } }

/-- Numbers the instructions of a function and marks the numbers as up to date. -/
def renewInstrs (f : FunctionId) : Edit Unit := do
  indexInstrs f
  setFunction f fun g => { g with valid := { g.valid with instrOrder := true } }

/-- Computes the tree of a function and marks it as up to date. -/
def renewTree (f : FunctionId) : Edit Unit := do
  let tree ← look fun a => do a.dominanceOf (← a.blocksOf f)
  setFunction f fun g =>
    { g with dominance := some tree, valid := { g.valid with dominance := true } }

/-- Computes the analyses that are asked for and not up to date. The dominator tree needs the
numbers of the blocks. -/
def require (f : FunctionId) (wanted : Analyses) : Edit Unit := do
  refresh f (fun g => (wanted.blockOrder || wanted.dominance) && !g.valid.blockOrder) (renewOrder f)
  refresh f (fun g => wanted.instrOrder && !g.valid.instrOrder) (renewInstrs f)
  refresh f (fun g => wanted.dominance && !g.valid.dominance) (renewTree f)

/-- Declares every analysis stale that is not in the set. -/
def preserve (f : FunctionId) (kept : Analyses) : Edit Unit :=
  setFunction f fun g =>
    let valid := g.valid.inter kept
    { g with valid := valid, dominance := if valid.dominance then g.dominance else none }

/-- Computes the numbers of the blocks. -/
def requireBlockOrder (f : FunctionId) : Edit Unit :=
  require f ⟨true, false, false⟩

/-- The dominator tree, computed if needed. -/
def dominanceTree (f : FunctionId) : Edit Dominance := do
  require f ⟨false, true, false⟩
  present (← look (·.function f)).dominance

end Edit

/-- The depth kept for a block number. -/
def Dominance.depthAt (d : Dominance) (n : Nat) : Except Fault (Option Nat) :=
  match d.depth[n]? with
  | some x => .ok x
  | none => .error .outOfRange

/-- The immediate dominator kept for a block number. -/
def Dominance.idomAt (d : Dominance) (n : Nat) : Except Fault (Option BlockId) :=
  match d.idom[n]? with
  | some x => .ok x
  | none => .error .outOfRange

/-- The number reached from `n` by going to immediate dominators until the depth is at most
`goal`, in at most `steps` steps. -/
def Arena.climb (a : Arena) (d : Dominance) (goal : Nat) : Nat → Nat → Except Fault Nat
  | 0, _ => throw .endless
  | steps + 1, n => do
      match ← d.depthAt n with
      | none => return n
      | some depth =>
          if depth ≤ goal then return n
          else
            let up ← present (← d.idomAt n)
            a.climb d goal steps (← a.block up).index

/-- Whether block number `x` dominates block number `y` in the tree. Every number is passed
at most once on the way up. -/
def Arena.dominatesIn (a : Arena) (d : Dominance) (x y : Nat) : Except Fault Bool := do
  match ← d.depthAt x with
  | none => return false
  | some goal =>
      match ← d.depthAt y with
      | none => return false
      | some _ => return (← a.climb d goal (d.depth.size + 1) y) = x

namespace Edit

/-- Whether block `x` dominates block `y`. A block dominates itself. -/
def dominates (f : FunctionId) (x y : Option BlockId) : Edit Bool := do
  let d ← dominanceTree f
  look fun a => do
    let nx := (← a.block (← present x)).index
    let ny := (← a.block (← present y)).index
    a.dominatesIn d nx ny

/-- Whether a block can be reached from the first block. -/
def isReachable (f : FunctionId) (b : Option BlockId) : Edit Bool := do
  let d ← dominanceTree f
  look fun a => do
    return (← d.depthAt (← a.block (← present b)).index).isSome

/-- The immediate dominator of a block, which the first block and unreachable blocks do not
have. -/
def immediateDominator (f : FunctionId) (b : BlockId) : Edit (Option BlockId) := do
  let d ← dominanceTree f
  look fun a => do d.idomAt (← a.block b).index

end Edit

end ShaderCompiler
