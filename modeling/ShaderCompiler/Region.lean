import ShaderCompiler.Arena.Text

/-!
# Regions

A region is a list of control flow with everything nested in it: a sequence of
blocks, two-way branches and loops. It is the tree behind the item lists of the
arena, read off once, so that every traversal is a recursion on the tree.

The blocks of a region in program order come from a walk with an explicit stack of
pending nodes. `Region.preorder` is the same sequence by recursion.

Lists of the arena may be entangled so that a construct contains itself. Such a
list has no region, and reading one off is the fault `Fault.endless`.
-/

namespace ShaderCompiler

/-- A list of control flow, with the lists its constructs own. -/
inductive Region where
  /-- Nothing follows. -/
  | done
  /-- A block and what follows it. -/
  | block (b : BlockId) (rest : Region)
  /-- An `if` with its two branches, and what follows it. -/
  | branch (c : ConstructId) (yes no rest : Region)
  /-- A loop with its body, and what follows it. -/
  | loop (c : ConstructId) (body rest : Region)
deriving DecidableEq

namespace Arena

/-- The region of a list whose constructs are entered by `enter`. -/
def layer (a : Arena) (enter : List Item → Except Fault Region) :
    List Item → Except Fault Region
  | [] => return .done
  | .block b :: rest => return .block b (← a.layer enter rest)
  | .construct c :: rest => do
      match (← a.construct c).shape with
      | .branch _ yes no =>
          return .branch c (← enter yes) (← enter no) (← a.layer enter rest)
      | .loop body => return .loop c (← enter body) (← a.layer enter rest)

/-- The region of a list in which constructs nest at most `depth` deep. -/
def regionAt (a : Arena) : Nat → List Item → Except Fault Region
  | 0 => a.layer fun _ => throw .endless
  | depth + 1 => a.layer (a.regionAt depth)

/-- The region of a list. Constructs that do not contain themselves nest at most as deep as
there are constructs. -/
def region (a : Arena) (items : List Item) : Except Fault Region :=
  a.regionAt a.constructs.size items

/-- The region of the body of a function. -/
def bodyRegion (a : Arena) (f : FunctionId) : Except Fault Region := do
  a.region (← a.function f).body

end Arena

namespace Region

/-- The number of constructors a region is made of. -/
def size : Region → Nat
  | .done => 1
  | .block _ rest => rest.size + 1
  | .branch _ yes no rest => yes.size + no.size + rest.size + 1
  | .loop _ body rest => body.size + rest.size + 1

/-- A node of a list: a block, or a construct with its lists. -/
inductive Node where
  | block (b : BlockId)
  | branch (yes no : Region)
  | loop (body : Region)

/-- The nodes of a list. -/
def nodes : Region → List Node
  | .done => []
  | .block b rest => .block b :: rest.nodes
  | .branch _ yes no rest => .branch yes no :: rest.nodes
  | .loop _ body rest => .loop body :: rest.nodes

/-- The blocks of a stack of nodes, top first, after at most `steps` steps. -/
def unstack : Nat → List Node → List BlockId
  | 0, _ => []
  | _ + 1, [] => []
  | n + 1, .block b :: stack => b :: unstack n stack
  | n + 1, .branch yes no :: stack => unstack n (yes.nodes ++ (no.nodes ++ stack))
  | n + 1, .loop body :: stack => unstack n (body.nodes ++ stack)

/-- The blocks of a region in program order. -/
def blocks (r : Region) : List BlockId :=
  unstack r.size r.nodes

/-- The blocks of a region in program order: a branch taken comes before the other one. -/
def preorder : Region → List BlockId
  | .done => []
  | .block b rest => b :: rest.preorder
  | .branch _ yes no rest => yes.preorder ++ no.preorder ++ rest.preorder
  | .loop _ body rest => body.preorder ++ rest.preorder

/-- The block where control enters a region that is not empty. The body of a loop has to
start with a block. -/
def entry : Region → Except Fault BlockId
  | .done => .error .outOfRange
  | .block b _ => .ok b
  | .branch _ yes _ _ => yes.entry
  | .loop _ (.block b _) _ => .ok b
  | .loop _ .done _ => .error .outOfRange
  | .loop .. => .error .notABlock

/-- The header of a loop with this body. -/
def header : Region → Except Fault BlockId
  | .block b _ => .ok b
  | .done => .error .outOfRange
  | _ => .error .notABlock

end Region

namespace Arena

/-- The blocks of a list in program order. -/
def blocksIn (a : Arena) (items : List Item) : Except Fault (List BlockId) :=
  return (← a.region items).blocks

/-- The blocks of a function in program order, the exit block last. -/
def blocksOf (a : Arena) (f : FunctionId) : Except Fault (List BlockId) := do
  let g ← a.function f
  return (← a.blocksIn g.body) ++ [g.finish]

/-! ### Neighbours of a loop -/

/-- The list an item stands in, according to its parent. -/
def siblings (a : Arena) (item : Item) : Except Fault (List Item) := do
  match ← a.parentOf item with
  | none => throw .unreachable
  | some (.function f) => return (← a.function f).body
  | some (.construct c) =>
      match (← a.construct c).shape with
      | .loop body => return body
      | .branch _ yes no => return if item ∈ yes then yes else no

/-- The block at a position of a list. -/
def blockAt (items : List Item) (k : Nat) : Except Fault BlockId :=
  match items[k]? with
  | none => .error .outOfRange
  | some (.construct _) => .error .notABlock
  | some (.block b) => .ok b

/-- The block right before a loop. -/
def preheader (a : Arena) (c : ConstructId) : Except Fault BlockId := do
  let l ← a.siblings (.construct c)
  match l.idxOf? (.construct c) with
  | none => throw .loopNotInParent
  | some 0 => throw .outOfRange
  | some (k + 1) => blockAt l k

/-- The block right after a loop. -/
def afterLoop (a : Arena) (c : ConstructId) : Except Fault BlockId := do
  let l ← a.siblings (.construct c)
  match l.idxOf? (.construct c) with
  | none => throw .loopNotInParent
  | some k => blockAt l (k + 1)

end Arena

end ShaderCompiler
