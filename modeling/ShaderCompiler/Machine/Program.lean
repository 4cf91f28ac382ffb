import ShaderCompiler.Machine.Word

/-!
# Machine programs

A listing holds labelled blocks of machine instructions with at most two successors
each. A program is a sequence of blocks of a listing. Emitting it lays the blocks out
one after the other, packs every instruction, and pads the words with instructions that
do nothing up to the alignment of the instruction cache.

While a program is emitted, its blocks are placed: each knows the position of its first
instruction, which branch targets are measured by. No block stays placed afterwards,
whether emitting succeeded or not.

The last instruction of a block ends the program if control can reach no instruction
after it; its flow-control action is then the end of the program.
-/

namespace ShaderCompiler.Machine

/-- A block of a listing. -/
structure Block where
  label : Label
  instrs : List Instr
  /-- The labels of the blocks control can go to. -/
  succ : List Nat
  /-- The position of the first instruction, while a program with the block is emitted. -/
  position : Option Nat
deriving DecidableEq

/-- What emitting did so far. The numbers are exact; 64 bits hold them up to multiples of their
range. -/
structure EmitCounters where
  words : Nat
  programs : Nat
deriving DecidableEq

/-- Blocks by the number of their label. -/
structure Listing where
  blocks : Array Block
  counters : EmitCounters
deriving DecidableEq

/-- The blocks of a program by the numbers of their labels, in the order of emission. -/
abbrev Program := List Nat

namespace Listing

/-- The listing without blocks. -/
def empty : Listing := ⟨#[], ⟨0, 0⟩⟩

/-- The listing with an empty block for each name. -/
def ofNames (names : List String) : Listing :=
  ⟨(names.zipIdx.map fun (name, k) => ⟨⟨k, name⟩, [], [], none⟩).toArray, ⟨0, 0⟩⟩

/-- The instructions of a block. -/
def instrsOf (l : Listing) (b : Nat) : List Instr :=
  match l.blocks[b]? with
  | some bb => bb.instrs
  | none => []

/-- The successors of a block. -/
def succOf (l : Listing) (b : Nat) : List Nat :=
  match l.blocks[b]? with
  | some bb => bb.succ
  | none => []

/-- The position of a block, if it is placed. -/
def positionOf (l : Listing) (b : Nat) : Option Nat :=
  l.blocks[b]?.bind (·.position)

/-- Adds instructions at the end of a block. -/
def append (l : Listing) (b : Nat) (instrs : List Instr) : Listing :=
  { l with blocks := l.blocks.modify b fun bb => { bb with instrs := bb.instrs ++ instrs } }

/-- Sets the successors of a block. -/
def setSuccessors (l : Listing) (b : Nat) (succ : List Nat) : Except Fault Listing :=
  if 2 < succ.length then .error .tooManySuccessors
  else .ok { l with blocks := l.blocks.modify b fun bb => { bb with succ := succ } }

/-! ### The end of a program -/

/-- Whether only empty blocks are found from the pending ones on, in at most `steps` steps. -/
def onlyEmpty (l : Listing) : Nat → List Nat → List Nat → Bool
  | 0, _, _ => true
  | _ + 1, [], _ => true
  | n + 1, b :: pending, visited =>
      if b ∈ visited then l.onlyEmpty n pending visited
      else if (l.instrsOf b).isEmpty then
        l.onlyEmpty n (l.succOf b ++ pending) (b :: visited)
      else false

/-- Whether control that reaches a block reaches no instruction. Every edge is followed at
most once. -/
def isTerminal (l : Listing) (b : Nat) : Bool :=
  l.onlyEmpty ((l.blocks.toList.flatMap (·.succ)).length + 1) [b] []

/-- Whether the instruction at a position of a block is the last one of the program. -/
def endsProgram (l : Listing) (b : Nat) (i : Nat) : Bool :=
  i + 1 = (l.instrsOf b).length && (l.succOf b).all l.isTerminal

/-! ### Emitting -/

/-- The flow-control action that ends a program. -/
def endFlow : UInt8 := 0xb

/-- The number of instructions of a program. -/
def length (l : Listing) (p : Program) : Nat :=
  (p.flatMap l.instrsOf).length

/-- Sets the position of a block. -/
def setPosition (l : Listing) (b : Nat) (position : Option Nat) : Listing :=
  { l with blocks := l.blocks.modify b fun bb => { bb with position := position } }

/-- Places the blocks of a program one after the other, from a position on. -/
def place (l : Listing) (start : Nat) : Program → Listing
  | [] => l
  | b :: rest => (l.setPosition b (some start)).place (start + (l.instrsOf b).length) rest

/-- Takes the positions of the blocks of a program away. -/
def unplace (l : Listing) (p : Program) : Listing :=
  p.foldl (fun l b => l.setPosition b none) l

/-- The position of a labelled block, which has to be placed. -/
def evaluate (l : Listing) (label : Label) : Except Unplaced Nat :=
  match l.positionOf label.id with
  | none => .error ⟨label.name⟩
  | some position => .ok position

/-- The distance of a branch at a position: to its target, counted from the next instruction,
or as given if it has none. -/
def distance (l : Listing) (ins : Instr) (position : Nat) : Except Fault Int :=
  match ins.target with
  | none => .ok ins.branch.toInt
  | some label =>
      match l.evaluate label with
      | .error e => .error (.unplaced e)
      | .ok target => .ok ((target : Int) - (position + 1))

/-- The words of instructions of a block, given with their positions in it, from a position
of the program on. -/
def blockWords (l : Listing) (b : Nat) (position : Nat) :
    List (Instr × Nat) → Except Fault (List Word)
  | [] => return []
  | (ins, i) :: rest => do
      let flow := if l.endsProgram b i then endFlow else ins.flow
      let word ← ins.packWith flow (← l.distance ins position)
      return word :: (← l.blockWords b (position + 1) rest)

/-- The words of a program, from a position on. -/
def words (l : Listing) (position : Nat) : Program → Except Fault (List Word)
  | [] => return []
  | b :: rest => do
      let here ← l.blockWords b position (l.instrsOf b).zipIdx
      return here ++ (← l.words (position + (l.instrsOf b).length) rest)

/-- The word of the instruction that does nothing. -/
def nopWord : Word := field 0xc0 40

/-- The number of words in a line of the instruction cache. -/
def wordsPerLine : Nat := 16

/-- Words padded to full lines of the instruction cache. -/
def pad (ws : List Word) : List Word :=
  ws ++ List.replicate ((wordsPerLine - ws.length % wordsPerLine) % wordsPerLine) nopWord

/-- The bytes of a word, the lowest first. -/
def wordBytes (w : Word) : List UInt8 :=
  (List.range 8).map fun k => (w.toNat >>> (8 * k)).toUInt8

/-- Emits a program: its bytes, and the listing afterwards, in which no block of the program
is placed. A program without instructions has no bytes and is not counted. -/
def emit (l : Listing) (p : Program) : Except Fault (List UInt8) × Listing :=
  let n := l.length p
  if n = 0 then (.ok [], l)
  else
    let placed := l.place 0 p
    match placed.words 0 p with
    | .ok ws =>
        let counters := ⟨l.counters.words + n, l.counters.programs + 1⟩
        (.ok ((pad ws).flatMap wordBytes), { placed.unplace p with counters := counters })
    | .error fault => (.error fault, placed.unplace p)

/-! ### Texts -/

/-- The text of a program: labels, and under each its instructions. -/
def text (l : Listing) (p : Program) : Except Malformed String := do
  let blocks ← p.mapM fun b => do
    let name := (l.blocks[b]?.map (·.label.name)).getD ""
    let instrs ← (l.instrsOf b).mapM fun ins => return "    " ++ (← ins.text) ++ "\n"
    return name ++ ":\n" ++ String.join instrs
  return String.join blocks

end Listing

end ShaderCompiler.Machine
