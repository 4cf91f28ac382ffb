import ShaderCompiler.Op.Alu
import ShaderCompiler.Op.Intrinsic
import ShaderCompiler.Op.Texture

/-!
# The arena of a shader graph

A shader is a graph in static single assignment form. Values, uses, instructions,
blocks, constructs (`if` and loop) and functions live in the tables of one `Arena`
and refer to each other by their places in these tables. Several functions may
share an arena.

A *use* is one reading of a value, either by an instruction or as the condition of
an `if`. Each value lists its uses, and each use remembers its place in that list.
Control flow is structured: a function owns a list of items, an `if` owns two and a
loop owns one, and an item is a block or a construct.

References that may be missing are optional, and a lookup of a missing reference
is the fault `Fault.absent`. Changes to the arena are written in `Edit`, which keeps
everything done before a fault.
-/

namespace ShaderCompiler

/-! ### References -/

/-- The place of a value. -/
structure ValueId where
  idx : Nat
deriving DecidableEq

/-- The place of a use. -/
structure UseId where
  idx : Nat
deriving DecidableEq

/-- The place of an instruction. -/
structure InstrId where
  idx : Nat
deriving DecidableEq

/-- The place of a block. -/
structure BlockId where
  idx : Nat
deriving DecidableEq

/-- The place of a construct. -/
structure ConstructId where
  idx : Nat
deriving DecidableEq

/-- The place of a function. -/
structure FunctionId where
  idx : Nat
deriving DecidableEq

/-! ### Values and uses -/

/-- The greatest number of lanes of a value. -/
def maxLanes : Nat := 16

/-- The lanes a use selects: entry `i` is the lane of the value that is read as lane `i`. -/
abbrev Swizzle := Vector Nat 16

/-- The swizzle that selects every lane in its own place. -/
def Swizzle.identity : Swizzle := Vector.ofFn fun i => i.val

/-- The swizzle with other first lanes; lanes past the last one are ignored. -/
def Swizzle.overwrite (s : Swizzle) (lanes : List Nat) : Swizzle :=
  lanes.zipIdx.foldl (fun s p => s.setIfInBounds p.2 p.1) s

/-- A definition in static single assignment form. -/
structure Value where
  /-- The number of the value, which its text shows. -/
  index : Int
  /-- The number of lanes. -/
  comps : Nat
  /-- The instruction that defines the value. -/
  definedBy : Option InstrId
  /-- The uses by instructions. -/
  uses : List UseId
  /-- The uses as a condition. -/
  conditions : List UseId
deriving DecidableEq

/-- One reading of a value, by an instruction or as the condition of an `if`. -/
structure Use where
  value : Option ValueId
  /-- The instruction that reads the value. -/
  user : Option InstrId
  /-- The `if` whose condition this is. -/
  guards : Option ConstructId
  swizzle : Swizzle
  absolute : Bool
  negated : Bool
  /-- The place in the use-list of the value, if the use is linked. -/
  slot : Option Nat
deriving DecidableEq

/-! ### Instructions -/

/-- How a jump leaves its block. -/
inductive JumpKind where
  /-- To the block after the innermost loop. -/
  | leaveLoop
  /-- To the header of the innermost loop. -/
  | nextIteration
  /-- To the end of the function. -/
  | leaveFunction
  /-- A kind outside the closed set. -/
  | unknown (code : Nat)
deriving DecidableEq

/-- The kind of a jump with a given code. -/
def JumpKind.ofCode : Nat → JumpKind
  | 0 => .leaveLoop
  | 1 => .nextIteration
  | 2 => .leaveFunction
  | n => .unknown n

/-- An arithmetic instruction. -/
structure Alu where
  op : AluOp
  dest : Option ValueId
  saturate : Bool
  srcs : List (Option UseId)
deriving DecidableEq

/-- What an instruction does. -/
inductive Action where
  | alu (alu : Alu)
  | intrinsic (op : Intrinsic) (dest : Option ValueId) (srcs : List (Option UseId)) (base : Int)
  | tex (op : TexOp) (dest : Option ValueId) (srcs : List (TexRole × UseId))
      (texture sampler : Int)
  | jump (kind : JumpKind)
  | call (callee : String) (params : List (Option UseId))
  | phi (dest : Option ValueId) (srcs : List (BlockId × UseId))
  | const (dest : Option ValueId) (values : List UInt64)
  | undef (dest : Option ValueId)
  | parallelCopy (entries : List (ValueId × UseId))
deriving DecidableEq

/-- An instruction of a block. -/
structure Instr where
  /-- The block the instruction belongs to, until it is removed. -/
  block : Option BlockId
  /-- The position in the function, as of the last numbering. -/
  index : Nat
  /-- The verdict of the last liveness scan inside a loop. -/
  live : Bool
  /-- An addressing source that is kept alive with the instruction. -/
  indirect : Option UseId
  action : Action
deriving DecidableEq

/-- The arithmetic instruction behind an instruction, if it is one. -/
def Instr.alu? (ins : Instr) : Option Alu :=
  match ins.action with
  | .alu p => some p
  | _ => none

/-- Whether the instruction merges values at a join. -/
def Instr.isPhi (ins : Instr) : Bool :=
  match ins.action with
  | .phi .. => true
  | _ => false

/-- The jump behind an instruction, if it is one. -/
def Instr.jump? (ins : Instr) : Option JumpKind :=
  match ins.action with
  | .jump kind => some kind
  | _ => none

/-- The sources of an instruction in order, its indirect source last. Jumps and constants have none. -/
def Instr.sources (ins : Instr) : List (Option UseId) :=
  let withIndirect (srcs : List (Option UseId)) :=
    match ins.indirect with
    | some u => srcs ++ [some u]
    | none => srcs
  match ins.action with
  | .alu p => withIndirect p.srcs
  | .intrinsic _ _ srcs _ => withIndirect srcs
  | .tex _ _ srcs _ _ => withIndirect (srcs.map fun s => some s.2)
  | .call _ params => withIndirect params
  | .phi _ srcs => withIndirect (srcs.map fun s => some s.2)
  | .parallelCopy entries => withIndirect (entries.map fun e => some e.2)
  | .jump _ | .const .. | .undef _ => []

/-- The values an instruction defines; a missing destination counts as a missing value,
except that an intrinsic may have no result. -/
def Instr.definitions (ins : Instr) : List (Option ValueId) :=
  match ins.action with
  | .alu p => [p.dest]
  | .intrinsic _ dest _ _ => dest.toList.map some
  | .tex _ dest _ _ _ => [dest]
  | .phi dest _ => [dest]
  | .const dest _ => [dest]
  | .undef dest => [dest]
  | .parallelCopy entries => entries.map fun e => some e.1
  | .jump _ | .call .. => []

/-! ### Control flow -/

/-- Who owns a list of items. -/
inductive Owner where
  | function (f : FunctionId)
  | construct (c : ConstructId)
deriving DecidableEq

/-- An item of a list of control flow. -/
inductive Item where
  | block (b : BlockId)
  | construct (c : ConstructId)
deriving DecidableEq

/-- Where control goes at the end of a block. -/
inductive Exits where
  | nowhere
  | goto (next : BlockId)
  | fork (yes no : BlockId)
deriving DecidableEq

/-- The blocks control can go to. -/
def Exits.toList : Exits → List BlockId
  | .nowhere => []
  | .goto next => [next]
  | .fork yes no => [yes, no]

/-- The same exits with another first block. -/
def Exits.withFirst (next : BlockId) : Exits → Exits
  | .fork _ no => .fork next no
  | _ => .goto next

/-- A straight run of instructions. -/
structure Block where
  instrs : List InstrId
  preds : List BlockId
  exits : Exits
  /-- The position in the function, as of the last numbering. -/
  index : Nat
  parent : Option Owner
deriving DecidableEq

/-- The lists a construct owns, and the condition of an `if`. -/
inductive Shape where
  | branch (condition : Option UseId) (yes no : List Item)
  | loop (body : List Item)
deriving DecidableEq

/-- An `if` or a loop. -/
structure Construct where
  shape : Shape
  parent : Option Owner
deriving DecidableEq

/-- The place of a list of items. -/
inductive ListRef where
  | body (f : FunctionId)
  | yes (c : ConstructId)
  | no (c : ConstructId)
  | loop (c : ConstructId)
deriving DecidableEq

/-! ### Functions -/

/-- A set of the analyses that a function can have cached. -/
structure Analyses where
  /-- The numbers of the blocks. -/
  blockOrder : Bool
  /-- The dominator tree. -/
  dominance : Bool
  /-- The numbers of the instructions. -/
  instrOrder : Bool
deriving DecidableEq

/-- The dominator tree of a function, by block number: the immediate dominator, and the
depth, which unreachable blocks do not have. -/
structure Dominance where
  idom : Array (Option BlockId)
  depth : Array (Option Nat)
deriving DecidableEq

/-- How the shader sees a function: under a name, and with or without its body. -/
structure Declaration where
  name : String
  hasBody : Bool
deriving DecidableEq

/-- The body of a function. -/
structure Function where
  declaration : Option Declaration
  body : List Item
  /-- The exit block, which every return leads to. -/
  finish : BlockId
  /-- The number of the next value. -/
  valueCount : Int
  /-- The analyses known to be up to date. -/
  valid : Analyses
  dominance : Option Dominance
deriving DecidableEq

/-- What the passes did so far. The numbers are exact; 64 bits hold them up to multiples of their
range. -/
structure Counters where
  copiesFolded : Nat
  copiesRemoved : Nat
  instrsEliminated : Nat
  loopRounds : Nat
deriving DecidableEq

/-! ### The arena -/

/-- The tables of a shader graph. -/
structure Arena where
  values : Array Value
  uses : Array Use
  instrs : Array Instr
  blocks : Array Block
  constructs : Array Construct
  functions : Array Function
  counters : Counters
deriving DecidableEq

/-- The arena without entries. -/
def Arena.empty : Arena :=
  ⟨#[], #[], #[], #[], #[], #[], ⟨0, 0, 0, 0⟩⟩

namespace Arena

/-- The value at a place. -/
def value (a : Arena) (v : ValueId) : Except Fault Value :=
  present a.values[v.idx]?

/-- The use at a place. -/
def use (a : Arena) (u : UseId) : Except Fault Use :=
  present a.uses[u.idx]?

/-- The instruction at a place. -/
def instr (a : Arena) (i : InstrId) : Except Fault Instr :=
  present a.instrs[i.idx]?

/-- The block at a place. -/
def block (a : Arena) (b : BlockId) : Except Fault Block :=
  present a.blocks[b.idx]?

/-- The construct at a place. -/
def construct (a : Arena) (c : ConstructId) : Except Fault Construct :=
  present a.constructs[c.idx]?

/-- The function at a place. -/
def function (a : Arena) (f : FunctionId) : Except Fault Function :=
  present a.functions[f.idx]?

/-- The value a use reads, which has to be there. -/
def valueOf (a : Arena) (u : UseId) : Except Fault ValueId := do
  present (← a.use u).value

/-- The owner of an item. -/
def parentOf (a : Arena) : Item → Except Fault (Option Owner)
  | .block b => return (← a.block b).parent
  | .construct c => return (← a.construct c).parent

/-- The items of a list. -/
def items (a : Arena) : ListRef → Except Fault (List Item)
  | .body f => return (← a.function f).body
  | .yes c => do
      match (← a.construct c).shape with
      | .branch _ yes _ => return yes
      | .loop _ => throw .absent
  | .no c => do
      match (← a.construct c).shape with
      | .branch _ _ no => return no
      | .loop _ => throw .absent
  | .loop c => do
      match (← a.construct c).shape with
      | .loop body => return body
      | .branch .. => throw .absent

end Arena

/-- The shape with another list in the place `r`. A place that the shape does not have is
ignored. -/
def Shape.withItems (r : ListRef) (l : List Item) : Shape → Shape
  | .branch cond yes no =>
      match r with
      | .yes _ => .branch cond l no
      | .no _ => .branch cond yes l
      | _ => .branch cond yes no
  | .loop body =>
      match r with
      | .loop _ => .loop l
      | _ => .loop body

/-! ### Changes -/

/-- A change of an arena; what was done before a fault stays done. -/
abbrev Edit := EStateM Fault Arena

instance : MonadLift (Except Fault) Edit where
  monadLift x := fun a =>
    match x with
    | .ok y => .ok y a
    | .error f => .error f a

namespace Edit

/-- A look at the arena. -/
def look {α : Type} (view : Arena → Except Fault α) : Edit α := fun a =>
  match view a with
  | .ok x => .ok x a
  | .error f => .error f a

/-- Changes the value at a place. -/
def setValue (v : ValueId) (f : Value → Value) : Edit Unit :=
  modify fun a => { a with values := a.values.modify v.idx f }

/-- Changes the use at a place. -/
def setUse (u : UseId) (f : Use → Use) : Edit Unit :=
  modify fun a => { a with uses := a.uses.modify u.idx f }

/-- Changes the instruction at a place. -/
def setInstr (i : InstrId) (f : Instr → Instr) : Edit Unit :=
  modify fun a => { a with instrs := a.instrs.modify i.idx f }

/-- Changes what the instruction at a place does. -/
def setAction (i : InstrId) (f : Action → Action) : Edit Unit :=
  setInstr i fun ins => { ins with action := f ins.action }

/-- Changes the block at a place. -/
def setBlock (b : BlockId) (f : Block → Block) : Edit Unit :=
  modify fun a => { a with blocks := a.blocks.modify b.idx f }

/-- Changes the construct at a place. -/
def setConstruct (c : ConstructId) (f : Construct → Construct) : Edit Unit :=
  modify fun a => { a with constructs := a.constructs.modify c.idx f }

/-- Changes the function at a place. -/
def setFunction (f : FunctionId) (g : Function → Function) : Edit Unit :=
  modify fun a => { a with functions := a.functions.modify f.idx g }

/-- Changes the counters. -/
def count (f : Counters → Counters) : Edit Unit :=
  modify fun a => { a with counters := f a.counters }

/-- Replaces a list of items. -/
def setItems (r : ListRef) (l : List Item) : Edit Unit :=
  match r with
  | .body f => setFunction f fun g => { g with body := l }
  | .yes c | .no c | .loop c =>
      setConstruct c fun n => { n with shape := n.shape.withItems r l }

/-- A new entry of the value table. -/
def addValue (x : Value) : Edit ValueId :=
  modifyGet fun a => (⟨a.values.size⟩, { a with values := a.values.push x })

/-- A new entry of the use table. -/
def addUse (x : Use) : Edit UseId :=
  modifyGet fun a => (⟨a.uses.size⟩, { a with uses := a.uses.push x })

/-- A new entry of the instruction table. -/
def addInstr (x : Instr) : Edit InstrId :=
  modifyGet fun a => (⟨a.instrs.size⟩, { a with instrs := a.instrs.push x })

/-- A new entry of the block table. -/
def addBlock (x : Block) : Edit BlockId :=
  modifyGet fun a => (⟨a.blocks.size⟩, { a with blocks := a.blocks.push x })

/-- A new entry of the construct table. -/
def addConstruct (x : Construct) : Edit ConstructId :=
  modifyGet fun a => (⟨a.constructs.size⟩, { a with constructs := a.constructs.push x })

/-- A new entry of the function table. -/
def addFunction (x : Function) : Edit FunctionId :=
  modifyGet fun a => (⟨a.functions.size⟩, { a with functions := a.functions.push x })

end Edit

/-- A block without instructions and edges. -/
def Block.empty (parent : Option Owner) : Block :=
  ⟨[], [], .nowhere, 0, parent⟩

/-- The last instruction of a block, if it is a jump. -/
def Arena.jumpOf (a : Arena) (b : BlockId) : Except Fault (Option (InstrId × JumpKind)) := do
  match (← a.block b).instrs.getLast? with
  | none => return none
  | some i => return (← a.instr i).jump?.map fun kind => (i, kind)

end ShaderCompiler
