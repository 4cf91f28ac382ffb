import ShaderCompiler.Machine.Instr

/-!
# Instruction words

An instruction is packed into a word of 64 bits. Every class of operations has its own
layout below bit 48. Above it stand the operation, the page of the fast-access sources
and the flow-control action. An instruction that its operation cannot express is refused.

| bits | content |
|---|---|
| 0 to 31 | sources, a byte each; other fields take the place of unused sources |
| 32 to 39 | flags and source modifiers |
| 40 to 47 | destination or staging registers |
| 48 to 56 | operation |
| 57 to 58 | page |
| 59 to 62 | flow-control action |
-/

namespace ShaderCompiler.Machine

/-- An instruction word. -/
abbrev Word := BitVec 64

/-- A number placed at a bit position. -/
def field (n : Nat) (pos : Nat) : Word :=
  BitVec.ofNat 64 n <<< pos

/-! ### Refusals -/

/-- Why an instruction cannot be packed. -/
inductive Refusal where
  | flow (flow : UInt8)
  | wordSelect (s : Operand)
  | registerRange (s : Operand)
  | uniformRange (s : Operand)
  | constantRange (s : Operand)
  | specialRange (s : Operand)
  | missingSource
  | destination (d : Operand)
  | destinationModifiers (d : Operand)
  | destinationHalves (d : Operand)
  | widening (s : Operand)
  | halves (s : Operand)
  | sign (source : Nat)
  | inversion (source : Nat)
  | tooManySources
  | registerOnly (source : Nat)
  | clamp
  | rounding
  | resultType
  | comparison
  | mux
  | flags
  | unexpectedDestination
  | unexpectedConstant
  | unexpectedOffset
  | unexpectedTarget
  | unexpectedTexture
  | unexpectedStaging
  | staging (r : Operand)
  | stagingModifiers (r : Operand)
  | stagingCount (n : UInt8)
  | lodMode (n : UInt8)
  | branchTest (n : UInt8)
  | branchRange (offset : Int)
  | pages (p q : Nat)
deriving DecidableEq

/-- The wording of a refusal. -/
def Refusal.message : Refusal → String
  | .flow n => "invalid flow 0x" ++ String.ofList (Nat.toDigits 16 n.toNat)
  | .wordSelect s => "word select on " ++ s.shown
  | .registerRange s => "register " ++ s.shown ++ " out of range"
  | .uniformRange s => "uniform " ++ s.shown ++ " out of range"
  | .constantRange s => "constant " ++ s.shown ++ " out of range"
  | .specialRange s => "special " ++ s.shown ++ " out of range"
  | .missingSource => "missing source"
  | .destination d => "invalid destination " ++ d.shown
  | .destinationModifiers d => "modifiers on destination " ++ d.shown
  | .destinationHalves d => "cannot write " ++ d.shown
  | .widening s => "cannot widen " ++ s.shown
  | .halves s => "swizzle on " ++ s.shown ++ " is not supported"
  | .sign k => "source " ++ toString k ++ " cannot be negated or absoluted"
  | .inversion k => "source " ++ toString k ++ " cannot be inverted"
  | .tooManySources => "too many sources"
  | .registerOnly k => "source " ++ toString k ++ " must be a register"
  | .clamp => "clamp is not supported"
  | .rounding => "rounding mode is not supported"
  | .resultType => "result type is not supported"
  | .comparison => "comparison is not supported"
  | .mux => "mux is not supported"
  | .flags => "flags are not supported"
  | .unexpectedDestination => "unexpected destination"
  | .unexpectedConstant => "unexpected inline constant"
  | .unexpectedOffset => "unexpected memory offset"
  | .unexpectedTarget => "unexpected branch target"
  | .unexpectedTexture => "unexpected texture fields"
  | .unexpectedStaging => "unexpected staging register"
  | .staging r => "invalid staging register " ++ r.shown
  | .stagingModifiers r => "modifiers on staging register " ++ r.shown
  | .stagingCount n => "invalid staging register count " ++ toString n.toNat
  | .lodMode n => "invalid LOD mode " ++ toString n.toNat
  | .branchTest n => "branch cannot test " ++ toString n.toNat
  | .branchRange n => "branch offset " ++ toString n ++ " out of range"
  | .pages p q => "FAU sources from pages " ++ toString p ++ " and " ++ toString q

/-- A label whose block is not placed. -/
structure Unplaced where
  name : String
deriving DecidableEq

/-- The wording for a label whose block is not placed. -/
def Unplaced.message (e : Unplaced) : String :=
  "block " ++ e.name ++ " is not part of the program"

/-- Why packing an instruction or emitting a program stops. -/
inductive Fault where
  /-- The operation is unknown. -/
  | malformed (what : Malformed)
  /-- The choice of halves has no code. -/
  | halvesCode
  /-- The operation cannot express the instruction. -/
  | unpackable (ins : Instr) (why : Refusal)
  /-- A block has at most two successors. -/
  | tooManySuccessors
  /-- The target of a branch is not a block of the program. -/
  | unplaced (label : Unplaced)
deriving DecidableEq

/-- The wording of a fault. -/
def Fault.message : Fault → String
  | .malformed what => what.message
  | .halvesCode => "the choice of halves has no code"
  | .unpackable ins why =>
      "valhall: " ++ shownBy Malformed.message ins.text ++ ": " ++ why.message
  | .tooManySuccessors => "valhall: too many successors"
  | .unplaced label => "valhall: " ++ label.message

/-- The row of the operation of an instruction. -/
def Instr.info (ins : Instr) : Except Fault OpInfo :=
  match ins.op.info with
  | .ok info => .ok info
  | .error what => .error (.malformed what)

namespace Instr

/-- Stops, because the instruction cannot be packed. -/
def refuse {α : Type} (ins : Instr) (why : Refusal) : Except Fault α :=
  .error (.unpackable ins why)

/-- Refuses the instruction if a condition holds. -/
def refuseIf (ins : Instr) (c : Prop) [Decidable c] (why : Refusal) : Except Fault Unit :=
  if c then ins.refuse why else .ok ()

/-! ### Operands -/

/-- The byte of a source: a tag of its kind, and its number. -/
def sourceBits (ins : Instr) (s : Operand) : Except Fault Nat := do
  ins.refuseIf (s.upper ∧ !s.isFastAccess) (.wordSelect s)
  let number := s.value.toNat
  let upper := s.upper.toNat
  match s.kind with
  | .register =>
      ins.refuseIf (64 ≤ number) (.registerRange s)
      return number + 64 * s.discard.toNat
  | .uniform =>
      ins.refuseIf (128 ≤ number) (.uniformRange s)
      return 0x80 + 2 * (number % 32) + upper
  | .constant =>
      ins.refuseIf (16 ≤ number) (.constantRange s)
      return 0xc0 + 2 * number + upper
  | .special =>
      ins.refuseIf (16 ≤ number) (.specialRange s)
      return 0xe0 + 2 * number + upper
  | .null | .unknown _ => ins.refuse .missingSource

/-- The byte of a destination: its register, and a mask of the halves it writes. -/
def destBits (ins : Instr) (d : Operand) : Except Fault Nat := do
  ins.refuseIf (d.kind ≠ .register ∨ 64 ≤ d.value.toNat) (.destination d)
  ins.refuseIf (d.negate || d.absolute || d.invert || d.discard || d.upper)
    (.destinationModifiers d)
  match d.halves with
  | .h01 => return d.value.toNat + 64 * 3
  | .h00 => return d.value.toNat + 64 * 1
  | .h11 => return d.value.toNat + 64 * 2
  | .h10 | .unknown _ => ins.refuse (.destinationHalves d)

/-- The byte of staging registers: the first one, and whether they are written or read. -/
def stagingBits (ins : Instr) (r : Operand) (write : Bool) : Except Fault Nat := do
  ins.refuseIf (r.kind ≠ .register ∨ 64 ≤ r.value.toNat) (.staging r)
  ins.refuseIf (r.negate || r.absolute || r.invert || r.discard || r.upper || r.halves ≠ .h01)
    (.stagingModifiers r)
  return r.value.toNat + (if write then 128 else 64)

/-- The bits that select the halves of a source. -/
def laneBits (ins : Instr) (si : SourceInfo) (s : Operand) : Except Fault Word :=
  match si.lanes with
  | .swizzle =>
      match s.halves with
      | .h00 => .ok (field 0 si.lanePos)
      | .h10 => .ok (field 1 si.lanePos)
      | .h01 => .ok (field 2 si.lanePos)
      | .h11 => .ok (field 3 si.lanePos)
      | .unknown _ => .error .halvesCode
  | .widen =>
      match s.halves with
      | .h01 => .ok 0
      | .h00 => .ok (field 1 si.lanePos)
      | .h11 => .ok (field 2 si.lanePos)
      | .h10 | .unknown _ => ins.refuse (.widening s)
  | .none => if s.halves = .h01 then .ok 0 else ins.refuse (.halves s)

/-- The position of the sign bits of source `i`. -/
def signPos (i : Nat) : Nat := 38 - 2 * i

/-- The bits of the modifiers of source `i`. -/
def modifierBits (ins : Instr) (i : Nat) (si : SourceInfo) (s : Operand) : Except Fault Word := do
  ins.refuseIf ((s.negate || s.absolute) && !si.absneg) (.sign i)
  ins.refuseIf (s.invert && !si.notted) (.inversion i)
  let lanes ← ins.laneBits si s
  return field s.negate.toNat (signPos i) ||| field s.absolute.toNat (signPos i + 1)
    ||| field s.invert.toNat 35 ||| lanes

/-- The bits of the sources at the given positions. Positions past the sources of the
operation have to be empty. -/
def sourcesBits (ins : Instr) (info : OpInfo) : List (Operand × Nat) → Except Fault Word
  | [] => return 0
  | (s, i) :: rest => do
      match info.srcs[i]? with
      | none =>
          ins.refuseIf (!s.isNull) .tooManySources
          ins.sourcesBits info rest
      | some si =>
          ins.refuseIf (si.registerOnly ∧ s.kind ≠ .register) (.registerOnly i)
          let byte ← ins.sourceBits s
          let modifiers ← ins.modifierBits i si s
          return field byte (8 * i) ||| modifiers ||| (← ins.sourcesBits info rest)

/-- The bits of all sources. -/
def allSourcesBits (ins : Instr) (info : OpInfo) : Except Fault Word :=
  ins.sourcesBits info ins.src.toList.zipIdx

/-- The bits of the only source of an operation with a field in place of the others. -/
def firstSourceBits (ins : Instr) (info : OpInfo) : Except Fault Word := do
  let byte ← ins.sourceBits ins.src[0]
  let modifiers ← ins.modifierBits 0 (info.srcs.headD .plain) ins.src[0]
  return field byte 0 ||| modifiers

/-! ### Flags and checks -/

/-- The bits of the flags. Zero is a value of every flag, and is taken by every operation. -/
def flagBits (ins : Instr) (info : OpInfo) : Except Fault Word := do
  ins.refuseIf (ins.clamp ≠ 0 ∧ !info.clamp) .clamp
  ins.refuseIf (ins.round ≠ 0 ∧ !info.round) .rounding
  ins.refuseIf (ins.resultType ≠ 0 ∧ !info.resultType) .resultType
  ins.refuseIf (ins.compare ≠ 0 ∧ !info.compare) .comparison
  ins.refuseIf (ins.mux ≠ 0 ∧ !info.mux) .mux
  return field ins.clamp.toNat 32 ||| field ins.round.toNat 30 ||| field ins.resultType.toNat 30
    ||| field ins.compare.toNat 32 ||| field ins.mux.toNat 32

/-- Refuses flags, where a class has no bits for them. -/
def checkNoFlags (ins : Instr) (mayCompare : Bool) : Except Fault Unit := do
  ins.refuseIf (ins.clamp ≠ 0 ∨ ins.round ≠ 0 ∨ ins.resultType ≠ 0 ∨ ins.mux ≠ 0) .flags
  ins.refuseIf (!mayCompare ∧ ins.compare ≠ 0) .comparison

/-- Refuses fields of other classes. -/
def checkUnused (ins : Instr) (info : OpInfo) : Except Fault Unit := do
  let cls := info.opClass
  ins.refuseIf (!info.hasDest ∧ !ins.dest.isNull) .unexpectedDestination
  ins.refuseIf (cls ≠ .immediate ∧ ins.imm ≠ 0) .unexpectedConstant
  ins.refuseIf (cls ≠ .load ∧ cls ≠ .store ∧ ins.offset ≠ 0) .unexpectedOffset
  ins.refuseIf (cls ≠ .branch ∧ (ins.branch ≠ 0 ∨ ins.target.isSome)) .unexpectedTarget
  ins.refuseIf (cls ≠ .texture ∧
    (ins.skip ∨ ins.count ≠ 0 ∨ ins.lodMode ≠ 0 ∨ ins.dimension ≠ 0)) .unexpectedTexture
  ins.refuseIf (cls ≠ .store ∧ cls ≠ .texture ∧ !ins.staging.isNull) .unexpectedStaging

/-! ### Layouts -/

/-- The position of the destination. -/
def destPos : Nat := 40

/-- The layout of an operation without operands. -/
def packNop (ins : Instr) (info : OpInfo) : Except Fault Word := do
  ins.checkUnused info
  ins.checkNoFlags false
  ins.refuseIf (!ins.src.toList.all (·.isNull)) .tooManySources
  return field 0xc0 destPos

/-- The layout of arithmetic operations. Unary ones have a secondary code in the place of an
unused source. -/
def packAlu (ins : Instr) (info : OpInfo) : Except Fault Word := do
  ins.checkUnused info
  let sources ← ins.allSourcesBits info
  let flags ← ins.flagBits info
  let dest ← ins.destBits ins.dest
  return sources ||| flags ||| field info.secondary 16 ||| field dest destPos

/-- The layout of operations with an inline constant. -/
def packImmediate (ins : Instr) (info : OpInfo) : Except Fault Word := do
  ins.checkUnused info
  let source ← ins.firstSourceBits info
  ins.refuseIf (!(ins.src.toList.drop 1).all (·.isNull)) .tooManySources
  ins.checkNoFlags false
  let dest ← ins.destBits ins.dest
  return source ||| field ins.imm.toNat 8 ||| field dest destPos

/-- The layout of loads, which write their staging registers. -/
def packLoad (ins : Instr) (info : OpInfo) : Except Fault Word := do
  ins.checkUnused info
  let sources ← ins.allSourcesBits info
  ins.checkNoFlags false
  let staging ← ins.stagingBits ins.dest true
  return sources ||| field ins.offset.toBitVec.toNat 8 ||| field staging destPos

/-- The layout of stores, which read their staging registers. -/
def packStore (ins : Instr) (info : OpInfo) : Except Fault Word := do
  ins.checkUnused info
  let sources ← ins.allSourcesBits info
  ins.checkNoFlags false
  let staging ← ins.stagingBits ins.staging false
  return sources ||| field ins.offset.toBitVec.toNat 8 ||| field staging destPos

/-- The layout of texture operations, whose staging registers hold the coordinates. -/
def packTexture (ins : Instr) (info : OpInfo) : Except Fault Word := do
  ins.checkUnused info
  let sources ← ins.allSourcesBits info
  ins.refuseIf (ins.count = 0 ∨ 4 < ins.count) (.stagingCount ins.count)
  ins.refuseIf (6 < ins.lodMode ∨ ins.lodMode = 2 ∨ ins.lodMode = 3) (.lodMode ins.lodMode)
  ins.checkNoFlags false
  let dest ← ins.destBits ins.dest
  let staging ← ins.stagingBits ins.staging false
  return sources ||| field ins.lodMode.toNat 13 ||| field ins.dimension.toNat 28
    ||| field ins.count.toNat 33 ||| field ins.skip.toNat 39 ||| field dest 16
    ||| field staging destPos

/-- The number of instructions that a branch can go back; it can go forward by one less. -/
def branchReach : Int := 0x4000000

/-- The layout of branches, which go a signed number of instructions if the source is zero,
or if it is not. -/
def packBranch (ins : Instr) (info : OpInfo) (distance : Int) : Except Fault Word := do
  ins.checkUnused info
  ins.refuseIf (ins.compare ≠ 0 ∧ ins.compare ≠ 3) (.branchTest ins.compare)
  ins.refuseIf (distance < -branchReach ∨ branchReach ≤ distance) (.branchRange distance)
  ins.checkNoFlags true
  let source ← ins.firstSourceBits info
  let ifZero := if ins.compare = 0 then 1 else 0
  return source ||| field (BitVec.ofInt 27 distance).toNat 8 ||| field ifZero 36
    ||| field 0xc0 destPos

/-- The page that the fast-access sources share, given the page of those before. -/
def sharedPage (ins : Instr) : Option Nat → List Operand → Except Fault Nat
  | page, [] => return page.getD 0
  | page, s :: rest => do
      if s.isFastAccess then
        match page with
        | none => ins.sharedPage (some s.page) rest
        | some p =>
            ins.refuseIf (p ≠ s.page) (.pages p s.page)
            ins.sharedPage page rest
      else
        ins.sharedPage page rest

/-- The layout of the class of an instruction. -/
def packClass (ins : Instr) (info : OpInfo) (distance : Int) : Except Fault Word :=
  match info.opClass with
  | .nop => ins.packNop info
  | .alu => ins.packAlu info
  | .immediate => ins.packImmediate info
  | .load => ins.packLoad info
  | .store => ins.packStore info
  | .texture => ins.packTexture info
  | .branch => ins.packBranch info distance

/-- The word of an instruction with a flow-control action and a branch distance. -/
def packWith (ins : Instr) (flow : UInt8) (distance : Int) : Except Fault Word := do
  let info ← ins.info
  ins.refuseIf (13 < flow) (.flow flow)
  let bits ← ins.packClass info distance
  let page ← ins.sharedPage none (ins.src.toList.take info.srcs.length)
  return bits ||| field info.exact 48 ||| field page 57 ||| field flow.toNat 59

/-- The word of an instruction with a flow-control action. -/
def pack (ins : Instr) (flow : UInt8) : Except Fault Word :=
  ins.packWith flow ins.branch.toInt

end Instr

end ShaderCompiler.Machine
