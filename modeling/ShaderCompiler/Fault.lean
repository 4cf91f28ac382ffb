/-!
# Faults

A computation on the shader graph may stop: a reference is missing, a position
is outside its list, or an operation refuses its arguments. A `Fault` names the
cause, and `Fault.message` is the one place where a cause is put into words.

Texts of graph objects can stop as well, for instance when an operation code is
unknown. Inside a larger text such a failure is shown in place by `shown` and
`shownOption`, so that a report about a damaged graph is still a text.
-/

namespace ShaderCompiler

/-- The causes for which a computation on the graph stops. -/
inductive Fault where
  /-- A reference that has to be there is missing. -/
  | absent
  /-- A position lies outside its list or table. -/
  | outOfRange
  /-- An `if` or a loop stands where a block is needed. -/
  | notABlock
  /-- A table of negative length was asked for. -/
  | negativeLength
  /-- The computation would go on forever. -/
  | endless
  /-- A kind outside the closed set of kinds was met. -/
  | unreachable
  /-- The arithmetic operation code is not in its table. -/
  | unknownAluOp
  /-- The intrinsic code is not in its table. -/
  | unknownIntrinsic
  /-- The place a use remembers in its use-list is not its own. -/
  | corruptUseList (use : String)
  /-- The instruction to remove is not in the block. -/
  | notInBlock (instr : String)
  /-- A value cannot have this many lanes. -/
  | componentCount (n : Int)
  /-- The operation takes another number of sources. -/
  | sourceCount (op : String) (expected got : Nat)
  /-- No gathering operation has this many sources. -/
  | noVectorOp
  /-- There is no construct to continue or to close. -/
  | nothingOpen
  /-- The innermost open construct has no second branch. -/
  | elseOutsideIf
  /-- The innermost open construct is not an `if`. -/
  | endIfOutsideIf
  /-- The innermost open construct is not a loop. -/
  | endLoopOutsideLoop
  /-- The function cannot be finished while constructs are open. -/
  | stillOpen (n : Nat)
  /-- A jump that needs a loop stands outside of one. -/
  | outsideLoop (jump : String)
  /-- The loop does not occur in the list its parent has for it. -/
  | loopNotInParent
  /-- Two blocks of the flow graph carry the same number. -/
  | sameNumber (n : Nat)
  /-- An edge joins two blocks that carry the same number. -/
  | selfEdge
  /-- The round limit is negative. -/
  | iterationCount (n : Int)
  /-- The number of workers is not positive. -/
  | workerCount (n : Int)
  /-- The text of a setting cannot be read. -/
  | settingInvalid (key : String)
  /-- The number of a setting is below its least value. -/
  | settingTooSmall (key : String)
deriving DecidableEq

/-- The wording of a cause. -/
def Fault.message : Fault → String
  | .absent => "a reference is missing"
  | .outOfRange => "a position is out of range"
  | .notABlock => "a block is needed"
  | .negativeLength => "a table cannot have a negative length"
  | .endless => "the computation does not end"
  | .unreachable => "unreachable"
  | .unknownAluOp => "nir: invalid ALU opcode"
  | .unknownIntrinsic => "nir: invalid intrinsic"
  | .corruptUseList use => "nir: use-list corrupted: " ++ use
  | .notInBlock instr => "nir: instruction is not in this block: " ++ instr
  | .componentCount n => "nir: invalid number of components: " ++ toString n
  | .sourceCount op expected got =>
      "nir: " ++ op ++ " takes " ++ toString expected ++ " sources, got " ++ toString got
  | .noVectorOp => "nir: no vec opcode with that many sources"
  | .nothingOpen => "nir: no open control flow construct"
  | .elseOutsideIf => "nir: PushElse outside of an if"
  | .endIfOutsideIf => "nir: PopIf outside of an if"
  | .endLoopOutsideLoop => "nir: PopLoop outside of a loop"
  | .stillOpen n => "nir: " ++ toString n ++ " unclosed control flow constructs"
  | .outsideLoop jump => "nir: " ++ jump ++ " outside of a loop"
  | .loopNotInParent => "nir: loop is not in its parent"
  | .sameNumber n => "simple: node ID collision: " ++ toString n
  | .selfEdge => "simple: adding self edge"
  | .iterationCount n => "nirgo: invalid iteration count: " ++ toString n
  | .workerCount n => "nirgo: invalid worker count: " ++ toString n
  | .settingInvalid key => "nirgo: invalid value for " ++ key
  | .settingTooSmall key => "nirgo: value too small for " ++ key

/-- The value of an optional reference, which has to be there. -/
def present {α : Type} : Option α → Except Fault α
  | some x => .ok x
  | none => .error .absent

/-- The entry at a position, which has to be inside the list. -/
def entry {α : Type} (l : List α) (i : Nat) : Except Fault α :=
  match l[i]? with
  | some x => .ok x
  | none => .error .outOfRange

/-- A text as part of a larger one: a failing text is replaced by its cause. -/
def shownBy {ε : Type} (message : ε → String) : Except ε String → String
  | .ok s => s
  | .error e => "%!s(PANIC=String method: " ++ message e ++ ")"

/-- A text about the shader graph as part of a larger one. -/
def shown : Except Fault String → String :=
  shownBy Fault.message

/-- The text of an optional thing as part of a larger one. -/
def shownOption {α : Type} (text : α → Except Fault String) : Option α → String
  | some x => shown (text x)
  | none => "<nil>"

end ShaderCompiler
