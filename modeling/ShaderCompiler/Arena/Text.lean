import ShaderCompiler.Arena.Basic

/-!
# Texts of the shader graph

Every value, use, instruction, block and construct has a text. A text may stop
with a fault on a damaged graph. Where a text is part of a larger one, either the
fault stops the larger text too, or it is shown in place; which of the two holds
is part of the format and is said at each definition.
-/

namespace ShaderCompiler

/-- A number in base sixteen, with its mark. -/
def hexText (n : Nat) : String :=
  "0x" ++ String.ofList (Nat.toDigits 16 n)

/-- The letter of a lane. -/
def laneLetter (lane : Nat) : Char :=
  "xyzwefghijklmnop".toList.getD (lane % maxLanes) 'x'

/-- The lane that a swizzle selects as lane `i`. -/
def Swizzle.lane (s : Swizzle) (i : Nat) : Except Fault Nat :=
  match s[i]? with
  | some lane => .ok lane
  | none => .error .outOfRange

/-- Whether the first `n` lanes are selected in their own places. The search stops at the
first lane that is not, and is a fault if it goes past the last lane. -/
def Swizzle.isIdentity (s : Swizzle) (n : Nat) : Except Fault Bool :=
  if (List.range (min n maxLanes)).all fun i => s[i]? = some i then
    if n ≤ maxLanes then .ok true else .error .outOfRange
  else .ok false

namespace Arena

/-- The arithmetic instruction that reads through a use, and the position of the use among
its sources. Other users have none. -/
def aluPosition (a : Arena) (u : UseId) : Except Fault (Option (Alu × Nat)) := do
  match (← a.use u).user with
  | none => return none
  | some i =>
      match (← a.instr i).alu? with
      | none => return none
      | some p => return (p.srcs.findIdx? (· = some u)).map fun k => (p, k)

/-- The number of lanes source `k` of an arithmetic instruction reads. -/
def sourceWidth (a : Arena) (p : Alu) (k : Nat) : Except Fault Nat := do
  let n ← entry (← p.op.info).inputs k
  if n ≠ 0 then
    return n
  else
    return (← a.value (← present p.dest)).comps

/-- The number of lanes a use consumes: what the operation says for a source of an
arithmetic instruction, and the whole value otherwise. -/
def reads (a : Arena) (u : UseId) : Except Fault Nat := do
  match ← a.aluPosition u with
  | some (p, k) => a.sourceWidth p k
  | none => return (← a.value (← a.valueOf u)).comps

/-- The text of a value. -/
def valueText (a : Arena) (v : ValueId) : Except Fault String :=
  return "%" ++ toString (← a.value v).index

/-- The text of a use: sign, bars for the absolute value, the value, and the lanes read
unless they are all lanes of the value in order. -/
def useText (a : Arena) (u : UseId) : Except Fault String := do
  let use ← a.use u
  match use.value with
  | none => return "<nil>"
  | some v =>
      let n ← a.reads u
      let comps := (← a.value v).comps
      let name ← a.valueText v
      let plain ← use.swizzle.isIdentity n
      let lanes ←
        if plain && n = comps then pure ""
        else do
          let selected ← (List.range n).mapM use.swizzle.lane
          pure ("." ++ String.ofList (selected.map laneLetter))
      let bar := if use.absolute then "|" else ""
      return (if use.negated then "-" else "") ++ bar ++ name ++ lanes ++ bar

/-- The text of a use that may be missing; a missing use is a fault. -/
def sourceText (a : Arena) (u : Option UseId) : Except Fault String := do
  a.useText (← present u)

/-- The text of a destination inside a larger text. -/
def destText (a : Arena) (dest : Option ValueId) : String :=
  shownOption a.valueText dest

end Arena

/-- The text of a jump. -/
def JumpKind.text : JumpKind → Except Fault String
  | .leaveLoop => .ok "break"
  | .nextIteration => .ok "continue"
  | .leaveFunction => .ok "return"
  | .unknown _ => .error .unreachable

/-- The names of the kinds of instructions, by number. -/
def instrKindNames : List String :=
  ["alu", "intrinsic", "tex", "jump", "call", "phi", "load_const", "undef", "parallel_copy"]

/-- The name of the kind of instruction with a given number. -/
def instrKindText (n : Nat) : Except Fault String :=
  match instrKindNames[n]? with
  | some name => .ok name
  | none => .error .unreachable

/-- The number of the kind of an action. -/
def Action.kind : Action → Nat
  | .alu _ => 0
  | .intrinsic .. => 1
  | .tex .. => 2
  | .jump _ => 3
  | .call .. => 4
  | .phi .. => 5
  | .const .. => 6
  | .undef _ => 7
  | .parallelCopy _ => 8

/-- Texts joined by a comma. -/
def commaList (texts : List String) : String :=
  String.intercalate ", " texts

namespace Arena

/-- The text of an instruction. Sources of arithmetic instructions, intrinsics and calls,
entries of a parallel copy, roles of texture sources and predecessors of a φ stop the text
if they fail; destinations, operation names and the remaining sources are shown in place. -/
def actionText (a : Arena) : Action → Except Fault String
  | .alu p => do
      let srcs ← p.srcs.mapM a.sourceText
      let saturate := if p.saturate then ".sat" else ""
      return a.destText p.dest ++ " = " ++ shown p.op.text ++ saturate ++ " " ++ commaList srcs
  | .intrinsic op dest srcs base => do
      let srcs ← srcs.mapM a.sourceText
      let result :=
        match dest with
        | some _ => a.destText dest ++ " = "
        | none => ""
      return result ++ "@" ++ shown op.text ++ "(" ++ commaList srcs ++ ") (base="
        ++ toString base ++ ")"
  | .tex op dest srcs texture sampler => do
      let srcs ← srcs.mapM fun s => do
        return (← s.1.text) ++ "(" ++ shown (a.useText s.2) ++ ")"
      return a.destText dest ++ " = " ++ shown op.text ++ " " ++ commaList srcs ++ ", texture="
        ++ toString texture ++ ", sampler=" ++ toString sampler
  | .jump kind => kind.text
  | .call callee params => do
      let params ← params.mapM a.sourceText
      return "call " ++ callee ++ "(" ++ commaList params ++ ")"
  | .phi dest srcs => do
      let srcs ← srcs.mapM fun s => do
        return "bb_" ++ toString (← a.block s.1).index ++ ": " ++ shown (a.useText s.2)
      return a.destText dest ++ " = φ(" ++ commaList srcs ++ ")"
  | .const dest values =>
      return a.destText dest ++ " = load_const ("
        ++ commaList (values.map fun v => hexText v.toNat) ++ ")"
  | .undef dest => return a.destText dest ++ " = undefined"
  | .parallelCopy entries => do
      let texts ← entries.mapM fun e => return (← a.valueText e.1, ← a.useText e.2)
      return commaList (texts.map (·.1)) ++ " = pcopy " ++ commaList (texts.map (·.2))

/-- The text of the instruction at a place. -/
def instrText (a : Arena) (i : InstrId) : Except Fault String := do
  a.actionText (← a.instr i).action

/-- The text of a block: its number, its instructions and its exits, one to a line. -/
def blockText (a : Arena) (b : BlockId) : Except Fault String := do
  let bb ← a.block b
  let instrs ← bb.instrs.mapM fun i => return "    " ++ (← a.instrText i)
  let exits ← bb.exits.toList.mapM fun s => return "bb_" ++ toString (← a.block s).index
  let edges := if exits.isEmpty then [] else ["    # succs: " ++ String.intercalate " " exits]
  return String.intercalate "\n" (("bb_" ++ toString bb.index ++ ":") :: instrs ++ edges)

/-- The first block of a loop. -/
def header (a : Arena) (c : ConstructId) : Except Fault BlockId := do
  match ← a.items (.loop c) with
  | [] => throw .outOfRange
  | .block b :: _ => return b
  | .construct _ :: _ => throw .notABlock

/-- The text of an `if` shows its condition, the text of a loop the number of its header. -/
def constructText (a : Arena) (c : ConstructId) : Except Fault String := do
  match (← a.construct c).shape with
  | .branch cond _ _ => return "if " ++ shownOption a.useText cond
  | .loop _ => return "loop (header bb_" ++ toString (← a.block (← a.header c)).index ++ ")"

/-- The text of an item. -/
def itemText (a : Arena) : Item → Except Fault String
  | .block b => a.blockText b
  | .construct c => a.constructText c

end Arena

end ShaderCompiler
