import ShaderCompiler.Builder

/-!
# Checking functions

A function is well formed if its lists have the right shape and its values obey the
rules of static single assignment. The check collects every problem it finds.

The shape comes first, since nothing else makes sense without it: each list starts and
ends with a block, blocks are separated by constructs, and everything points to its
parent. A function of the right shape gets its analyses computed afresh. Then each
instruction, each source, each condition and each use-list is checked.
-/

namespace ShaderCompiler

/-- What can be wrong with a function. The texts are those of the things concerned, as they
were when the problem was found. -/
inductive Problem where
  | emptyList (owner : String)
  | startsWithConstruct (owner : String)
  | endsWithConstruct (owner : String)
  | wrongParent (item : String)
  | adjacentBlocks (owner : String)
  | otherBlock (instr : String) (block : Nat)
  | jumpNotLast (instr : String) (block : Nat)
  | sourceCount (instr : String) (expected got : Nat)
  | resultWidth (instr : String) (expected : Nat)
  | latePhi (phi : String) (block : Nat)
  | phiSourceCount (phi : String) (sources predecessors : Nat)
  | phiSourceMissing (phi : String) (predecessor : Nat)
  | missingDestination (instr : String)
  | definedTwice (instr value earlier : String)
  | otherDefinition (instr value : String)
  | valueIndex (instr value : String)
  | missingValue (instr : String)
  | otherUser (instr use : String)
  | notInUseList (instr use value : String)
  | laneOutside (instr use : String) (comps : Nat)
  | undefinedValue (user value : String)
  | missingCondition (construct : String)
  | otherCondition (construct : String)
  | notInConditions (construct value : String)
  | useBeforeDefinition (user : String) (values : List String)
  | notDominated (user : String) (definition block : Nat)
  | useSlot (value use : String)
  | danglingUse (value use : String)
  | notASource (value use instr : String)
  | conditionSlot (value : String)
  | danglingCondition (value : String)
deriving DecidableEq

/-- The wording of a problem. -/
def Problem.message : Problem → String
  | .emptyList o => "empty CF list in " ++ o
  | .startsWithConstruct o => "CF list in " ++ o ++ " does not start with a block"
  | .endsWithConstruct o => "CF list in " ++ o ++ " does not end with a block"
  | .wrongParent n => n ++ " has a wrong parent"
  | .adjacentBlocks o => "adjacent blocks in CF list of " ++ o
  | .otherBlock i b =>
      i ++ ": instruction is in bb_" ++ toString b ++ " but points to another block"
  | .jumpNotLast i b => i ++ ": jump is not the last instruction of bb_" ++ toString b
  | .sourceCount i n k =>
      i ++ ": expected " ++ toString n ++ " sources, got " ++ toString k
  | .resultWidth i n => i ++ ": expected a " ++ toString n ++ "-component result"
  | .latePhi i b => i ++ ": φ after a non-φ instruction in bb_" ++ toString b
  | .phiSourceCount i n k =>
      i ++ ": " ++ toString n ++ " sources for " ++ toString k ++ " predecessors"
  | .phiSourceMissing i b => i ++ ": no source for predecessor bb_" ++ toString b
  | .missingDestination i => i ++ ": missing destination"
  | .definedTwice i v e => i ++ ": " ++ v ++ " is already defined by " ++ e
  | .otherDefinition i v => i ++ ": " ++ v ++ " points to another definition"
  | .valueIndex i v => i ++ ": " ++ v ++ " has an index out of range"
  | .missingValue i => i ++ ": source without a value"
  | .otherUser i u => i ++ ": source " ++ u ++ " has a wrong parent"
  | .notInUseList i u v => i ++ ": source " ++ u ++ " is not in the use-list of " ++ v
  | .laneOutside i u n =>
      i ++ ": swizzle of " ++ u ++ " reads beyond " ++ toString n ++ " components"
  | .undefinedValue i v => i ++ ": " ++ v ++ " is used but not defined"
  | .missingCondition c => c ++ ": missing condition"
  | .otherCondition c => c ++ ": condition has a wrong parent"
  | .notInConditions c v => c ++ ": condition is not in the if-use-list of " ++ v
  | .useBeforeDefinition i vs =>
      i ++ ": uses [" ++ String.intercalate " " vs ++ "] before its definition"
  | .notDominated i d b =>
      i ++ ": definition in bb_" ++ toString d ++ " does not dominate bb_" ++ toString b
  | .useSlot v u => v ++ ": use-list slot mismatch for " ++ u
  | .danglingUse v u => v ++ ": dangling use " ++ u
  | .notASource v u i => v ++ ": " ++ u ++ " is not a source of " ++ i
  | .conditionSlot v => v ++ ": if-use-list slot mismatch"
  | .danglingCondition v => v ++ ": dangling if-use"

/-- The outcome of checking an ill-formed function. -/
structure Invalid where
  function : String
  problems : List Problem
deriving DecidableEq

/-- The wording of an ill-formed function: each problem on a line of its own. -/
def Invalid.message (e : Invalid) : String :=
  "invalid IR in function " ++ e.function ++ ":"
    ++ String.join (e.problems.map fun p => "\n    " ++ p.message)

namespace Edit

/-- The problem, if a condition holds. -/
def problemIf (c : Prop) [Decidable c] (problem : Edit Problem) : Edit (List Problem) :=
  if c then do return [← problem] else return []

/-! ### Texts inside problems -/

/-- The text of an instruction inside a problem. -/
def instrShown (i : InstrId) : Edit String :=
  return shown ((← get).instrText i)

/-- The text of a use inside a problem. -/
def useShown (u : UseId) : Edit String :=
  return shown ((← get).useText u)

/-- The text of a value inside a problem. -/
def valueShown (v : ValueId) : Edit String :=
  return shown ((← get).valueText v)

/-- The text of a construct inside a problem. -/
def constructShown (c : ConstructId) : Edit String :=
  return shown ((← get).constructText c)

/-- The text of an item inside a problem. -/
def itemShown (item : Item) : Edit String :=
  return shown ((← get).itemText item)

/-- The text of an owner inside a problem. The text of a function is its listing, which
numbers its blocks. -/
def ownerShown : Owner → Edit String
  | .construct c => constructShown c
  | .function f => fun a =>
      match functionText f a with
      | .ok text a => .ok text a
      | .error fault a => .ok (shown (.error fault)) a

end Edit

/-- The predecessor from which a φ takes a source. -/
def Instr.incoming (ins : Instr) (u : UseId) : Option BlockId :=
  match ins.action with
  | .phi _ srcs => (srcs.find? fun s => s.2 = u).map (·.1)
  | _ => none

/-! ### The shape of lists -/

/-- Whether an item is a block. -/
def Item.isBlock : Item → Bool
  | .block _ => true
  | .construct _ => false

/-- The items of a region. -/
def Region.items : Region → List Item
  | .done => []
  | .block b rest => .block b :: rest.items
  | .branch c _ _ rest => .construct c :: rest.items
  | .loop c _ rest => .construct c :: rest.items

namespace Edit

/-- Problems of the items of a list; `afterBlock` tells whether a block stands before them. -/
def itemProblems (owner : Owner) : Bool → List Item → Edit (List Problem)
  | _, [] => return []
  | afterBlock, item :: rest => do
      let parent ← look (·.parentOf item)
      let wrong ← problemIf (parent ≠ some owner) do
        return .wrongParent (← itemShown item)
      let adjacent ← problemIf (afterBlock && item.isBlock) do
        return .adjacentBlocks (← ownerShown owner)
      return wrong ++ adjacent ++ (← itemProblems owner item.isBlock rest)

/-- Problems of a list. -/
def listProblems (owner : Owner) (items : List Item) : Edit (List Problem) :=
  if items.isEmpty then do
    return [.emptyList (← ownerShown owner)]
  else do
    let start ← problemIf (!items.head?.any (·.isBlock)) do
      return .startsWithConstruct (← ownerShown owner)
    let finish ← problemIf (!items.getLast?.any (·.isBlock)) do
      return .endsWithConstruct (← ownerShown owner)
    return start ++ finish ++ (← itemProblems owner false items)

/-- Problems of the lists that the constructs of a region own. -/
def nestedProblems : Region → Edit (List Problem)
  | .done => return []
  | .block _ rest => nestedProblems rest
  | .branch c yes no rest => do
      let here ← listProblems (.construct c) yes.items
      let there ← listProblems (.construct c) no.items
      return here ++ there ++ (← nestedProblems yes) ++ (← nestedProblems no)
        ++ (← nestedProblems rest)
  | .loop c body rest => do
      let here ← listProblems (.construct c) body.items
      return here ++ (← nestedProblems body) ++ (← nestedProblems rest)

/-- Problems of the shape of a function. -/
def shapeProblems (f : FunctionId) (region : Region) : Edit (List Problem) := do
  let outer ← listProblems (.function f) region.items
  return outer ++ (← nestedProblems region)

/-! ### Instructions -/

/-- Problems of the number of sources and of the width of an arithmetic instruction. -/
def aluProblems (i : InstrId) (p : Alu) : Edit (List Problem) := do
  let info ← p.op.info
  if p.srcs.length ≠ info.inputs.length then
    return [.sourceCount (← instrShown i) info.inputs.length p.srcs.length]
  else if info.output = 0 then
    return []
  else
    let dest ← present p.dest
    let comps := (← look (·.value dest)).comps
    problemIf (comps ≠ info.output) do
      return .resultWidth (← instrShown i) info.output

/-- Problems of the place and of the sources of a φ. -/
def phiProblems (bb : Block) (i : InstrId) (srcs : List (BlockId × UseId)) :
    Edit (List Problem) := do
  let earlier ← (bb.instrs.takeWhile (· ≠ i)).mapM fun j => look (·.instr j)
  let late ← problemIf (!earlier.all (·.isPhi)) do
    return .latePhi (← instrShown i) bb.index
  let number ← problemIf (srcs.length ≠ bb.preds.length) do
    return .phiSourceCount (← instrShown i) srcs.length bb.preds.length
  let missing ← (bb.preds.filter fun p => (phiSourceFor srcs p).isNone).mapM fun p => do
    let text ← instrShown i
    return .phiSourceMissing text (← look (·.block p)).index
  return late ++ number ++ missing

/-- The definitions found so far: each value with its instruction. -/
abbrev Definitions := List (ValueId × InstrId)

/-- Problems of one definition of an instruction. -/
def definitionProblems (valueCount : Int) (i : InstrId) (defs : Definitions) :
    Option ValueId → Edit (List Problem)
  | none => do return [.missingDestination (← instrShown i)]
  | some v => do
      let value ← look (·.value v)
      match defs.lookup v with
      | some j =>
          return [.definedTwice (← instrShown i) (← valueShown v) (← instrShown j)]
      | none =>
          if value.definedBy ≠ some i then
            return [.otherDefinition (← instrShown i) (← valueShown v)]
          else
            problemIf (value.index < 0 ∨ value.index ≥ valueCount) do
              return .valueIndex (← instrShown i) (← valueShown v)

/-- Checks definitions of an instruction one after the other, and enters those without a
problem. -/
def enterDefinitions (valueCount : Int) (i : InstrId) :
    Definitions → List (Option ValueId) → Edit (List Problem × Definitions)
  | defs, [] => return ([], defs)
  | defs, d :: rest => do
      let here ← definitionProblems valueCount i defs d
      let entered := if here.isEmpty then d.toList.map fun v => (v, i) else []
      let (there, defs) ← enterDefinitions valueCount i (defs ++ entered) rest
      return (here ++ there, defs)

/-- Problems of the place of an instruction in its block, and of its own kind. -/
def placeProblems (b : BlockId) (i : InstrId) : Edit (List Problem) := do
  let bb ← look (·.block b)
  let ins ← look (·.instr i)
  let place ← problemIf (ins.block ≠ some b) do
    return .otherBlock (← instrShown i) bb.index
  match ins.action with
  | .phi _ srcs => return place ++ (← phiProblems bb i srcs)
  | .jump _ =>
      return place ++ (← problemIf (bb.instrs.getLast? ≠ some i) do
        return .jumpNotLast (← instrShown i) bb.index)
  | .alu p => return place ++ (← aluProblems i p)
  | _ => return place

/-- Checks all instructions, given with their blocks, and collects the definitions. -/
def instrProblems (valueCount : Int) :
    Definitions → List (BlockId × InstrId) → Edit (List Problem × Definitions)
  | defs, [] => return ([], defs)
  | defs, (b, i) :: rest => do
      let place ← placeProblems b i
      let (here, defs) ← enterDefinitions valueCount i defs (← look (·.instr i)).definitions
      let (there, defs) ← instrProblems valueCount defs rest
      return (place ++ here ++ there, defs)

/-! ### Uses -/

/-- The problem, if any, that a definition does not come before a place: the end of a block,
or an instruction `reader` in it. Places that control cannot reach have none. -/
def dominanceProblems (f : FunctionId) (definition : InstrId) (b : Option BlockId)
    (reader : Option InstrId) (user : Edit String) : Edit (List Problem) := do
  let defining ← look (·.instr definition)
  if !(← isReachable f b) then
    return []
  else if defining.block = b then
    match reader with
    | none => return []
    | some i =>
        let position := (← look (·.instr i)).index
        problemIf (position ≤ defining.index) do
          let a ← get
          return .useBeforeDefinition (← user)
            (defining.definitions.map (shownOption a.valueText))
  else if ← dominates f defining.block b then
    return []
  else
    let home ← present defining.block
    let place ← present b
    return [.notDominated (← user) (← look (·.block home)).index (← look (·.block place)).index]

/-- The first problem of the lanes of a use: one that the value does not have. -/
def laneProblems (i : InstrId) (u : UseId) (comps : Nat) : Edit (List Problem) := do
  let use ← look (·.use u)
  let n ← look (·.reads u)
  if (use.swizzle.toList.take n).any (comps ≤ ·) then
    return [.laneOutside (← instrShown i) (← useShown u) comps]
  else if n ≤ maxLanes then
    return []
  else
    throw .outOfRange

/-- Problems of a source of an instruction. A φ reads its sources at the ends of the
predecessors, except its indirect source. -/
def useProblems (f : FunctionId) (defs : Definitions) (i : InstrId) (u : UseId) :
    Edit (List Problem) := do
  let ins ← look (·.instr i)
  let use ← look (·.use u)
  match use.value with
  | none => return [.missingValue (← instrShown i)]
  | some v =>
      let value ← look (·.value v)
      let user ← problemIf (use.user ≠ some i ∨ use.guards.isSome) do
        return .otherUser (← instrShown i) (← useShown u)
      let slot ← problemIf (use.slot.bind (value.uses[·]?) ≠ some u) do
        return .notInUseList (← instrShown i) (← useShown u) (← valueShown v)
      let lanes ← laneProblems i u value.comps
      let found := user ++ slot ++ lanes
      match defs.lookup v with
      | none => return found ++ [.undefinedValue (← instrShown i) (← valueShown v)]
      | some d =>
          match ins.incoming u with
          | some pred =>
              return found ++ (← dominanceProblems f d (some pred) none (instrShown i))
          | none =>
              return found ++ (← dominanceProblems f d ins.block (some i) (instrShown i))

/-- Problems of the condition of an `if` that stands after a block. -/
def conditionProblems (f : FunctionId) (defs : Definitions) (c : ConstructId)
    (before : Option BlockId) : Edit (List Problem) := do
  let cond :=
    match (← look (·.construct c)).shape with
    | .branch cond _ _ => cond
    | .loop _ => none
  match cond with
  | none => return [.missingCondition (← constructShown c)]
  | some u =>
      let use ← look (·.use u)
      match use.value with
      | none => return [.missingCondition (← constructShown c)]
      | some v =>
          let value ← look (·.value v)
          let user ← problemIf (use.guards ≠ some c ∨ use.user.isSome) do
            return .otherCondition (← constructShown c)
          let slot ← problemIf (use.slot.bind (value.conditions[·]?) ≠ some u) do
            return .notInConditions (← constructShown c) (← valueShown v)
          let found := user ++ slot
          match defs.lookup v, before with
          | none, _ => return found ++ [.undefinedValue (← constructShown c) (← valueShown v)]
          | some _, none => return found
          | some d, some b =>
              return found ++ (← dominanceProblems f d (some b) none (constructShown c))

/-- Problems of an entry of the use-list of a value. -/
def useEntryProblems (v : ValueId) (u : UseId) (place : Nat) : Edit (List Problem) := do
  let use ← look (·.use u)
  if use.slot ≠ some place then
    return [.useSlot (← valueShown v) (← useShown u)]
  else
    match use.user with
    | none => return [.danglingUse (← valueShown v) (← useShown u)]
    | some i =>
        let ins ← look (·.instr i)
        if ins.block.isNone then
          return [.danglingUse (← valueShown v) (← useShown u)]
        else
          problemIf (some u ∉ ins.sources) do
            return .notASource (← valueShown v) (← useShown u) (← instrShown i)

/-- Problems of an entry of the list of conditions of a value. -/
def conditionEntryProblems (branches : List (ConstructId × Option BlockId)) (v : ValueId)
    (u : UseId) (place : Nat) : Edit (List Problem) := do
  let use ← look (·.use u)
  if use.slot ≠ some place then
    return [.conditionSlot (← valueShown v)]
  else
    let known := use.guards.any fun c => branches.any (·.1 = c)
    problemIf (!known) do
      return .danglingCondition (← valueShown v)

/-- Problems of the use-lists of a value. -/
def useListProblems (branches : List (ConstructId × Option BlockId)) (v : ValueId) :
    Edit (List Problem) := do
  let value ← look (·.value v)
  let uses ← value.uses.zipIdx.flatMapM fun (u, k) => useEntryProblems v u k
  let conditions ← value.conditions.zipIdx.flatMapM fun (u, k) =>
    conditionEntryProblems branches v u k
  return uses ++ conditions

end Edit

/-- The conditions of a region: every `if` with the block right before it. -/
def Region.branches : Option BlockId → Region → List (ConstructId × Option BlockId)
  | _, .done => []
  | _, .block b rest => rest.branches (some b)
  | before, .branch c yes no rest =>
      (c, before) :: (yes.branches none ++ no.branches none ++ rest.branches none)
  | _, .loop _ body rest => body.branches none ++ rest.branches none

namespace Edit

/-! ### The check -/

/-- Problems of the values of a function of the right shape. All analyses are computed
afresh. -/
def ssaProblems (f : FunctionId) (region : Region) : Edit (List Problem) := do
  preserve f .none
  require f .all
  let g ← look (·.function f)
  let blocks := region.blocks ++ [g.finish]
  let instrs ← blocks.flatMapM fun b => do
    return (← look (·.block b)).instrs.map fun i => (b, i)
  let branches := region.branches none
  let (own, defs) ← instrProblems g.valueCount [] instrs
  let uses ← instrs.flatMapM fun (_, i) => do
    (← look (·.instr i)).sources.flatMapM fun u => do useProblems f defs i (← present u)
  let conditions ← branches.flatMapM fun (c, before) => conditionProblems f defs c before
  let lists ← defs.flatMapM fun (v, _) => useListProblems branches v
  return own ++ uses ++ conditions ++ lists

/-- All problems of a function. -/
def problems (f : FunctionId) : Edit (List Problem) := do
  let region ← look (·.bodyRegion f)
  let shape ← shapeProblems f region
  if shape.isEmpty then ssaProblems f region else return shape

/-- Checks a function. -/
def check (f : FunctionId) : Edit (Option Invalid) := do
  let found ← problems f
  if found.isEmpty then
    return none
  else
    let name :=
      match (← look (·.function f)).declaration with
      | some d => d.name
      | none => "<anonymous>"
    return some ⟨name, found⟩

/-- Checks functions that have a body one after the other, up to the first ill-formed one. -/
def checkAll : List FunctionId → Edit (Option Invalid)
  | [] => return none
  | f :: rest => do
      if (← declarationOf f).hasBody then
        match ← check f with
        | some e => return some e
        | none => checkAll rest
      else
        checkAll rest

/-- Checks a shader. -/
def checkShader (s : Shader) : Edit (Option Invalid) :=
  checkAll s.functions

end Edit

end ShaderCompiler
