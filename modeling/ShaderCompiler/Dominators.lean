/-!
# Dominators of a flow graph

A flow graph has numbered nodes, a root and edges. Node `d` dominates node `b` if
every path from the root to `b` passes through `d`. This is computed from its
definition: `b` is reachable, and no longer reachable once `d` is closed. A node has at
most one immediate dominator, so a faster algorithm finds the same tree.

The dominators of a node form a chain. So the depth of a node in the dominator tree
is the number of its strict dominators, and its immediate dominator is the strict
dominator that is one step less deep.
-/

namespace ShaderCompiler

/-- A graph of numbered nodes with a root. -/
structure FlowGraph where
  root : Nat
  edges : List (Nat × Nat)
deriving DecidableEq

namespace FlowGraph

/-- The nodes that edges from a node lead to. -/
def targets (g : FlowGraph) (x : Nat) : List Nat :=
  g.edges.filterMap fun e => if e.1 = x then some e.2 else none

/-- The nodes seen after visiting the pending nodes and all that follow from them, except a
closed node, in at most `steps` steps. -/
def explore (g : FlowGraph) (closed : Option Nat) : Nat → List Nat → List Nat → List Nat
  | 0, _, seen => seen
  | _ + 1, [], seen => seen
  | n + 1, x :: pending, seen =>
      if closed = some x ∨ x ∈ seen then g.explore closed n pending seen
      else g.explore closed n (g.targets x ++ pending) (x :: seen)

/-- The nodes that can be reached from the root without passing the closed node. Every edge
is followed at most once. -/
def reachable (g : FlowGraph) (closed : Option Nat) : List Nat :=
  g.explore closed (g.edges.length + 1) [g.root] []

/-- The strict dominators of all reachable nodes. -/
def strictDominators (g : FlowGraph) : List (Nat × List Nat) :=
  let nodes := g.reachable none
  let cuts := nodes.map fun d => (d, g.reachable (some d))
  nodes.map fun b => (b, (cuts.filter fun cut => cut.1 ≠ b ∧ b ∉ cut.2).map (·.1))

/-- The depth of every reachable node in the dominator tree. -/
def depths (g : FlowGraph) : List (Nat × Nat) :=
  g.strictDominators.map fun p => (p.1, p.2.length)

/-- The immediate dominator of every reachable node except the root. -/
def immediateDominators (g : FlowGraph) : List (Nat × Nat) :=
  let depths := g.depths
  g.strictDominators.filterMap fun p =>
    (p.2.find? fun d => (depths.lookup d).map (· + 1) = some p.2.length).map fun d => (p.1, d)

/-- The nodes of a tree below a node, with their depths, if no branch has more than so many edges. -/
def fill (tree : List (Nat × Nat)) : Nat → Nat → Nat → List (Nat × Nat)
  | 0, n, depth => [(n, depth)]
  | edges + 1, n, depth => (n, depth) ::
      (tree.filter (·.2 = n)).flatMap fun child => fill tree edges child.1 (depth + 1)

/-- The depths of nodes in the tree of immediate dominators, by a walk from the root. -/
def treeDepths (g : FlowGraph) : List (Nat × Nat) :=
  fill g.immediateDominators (g.reachable none).length g.root 0

end FlowGraph

end ShaderCompiler
