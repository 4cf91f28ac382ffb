import ShaderCompiler.Fault

/-!
# Settings

Compilation has three settings: the limit of rounds of passes, whether shaders are
checked, and the number of workers. Defaults come from texts of the environment, and
callers override them one by one.

A number in the environment is written in base ten, or in base two, eight or sixteen
with a mark in front. Underscores may separate digits, one at a time.
-/

namespace ShaderCompiler

/-- The settings of a compilation. -/
structure Settings where
  /-- The limit of rounds; none if it is not positive. -/
  maxIterations : Int
  /-- Whether shaders are checked before and after the passes. -/
  validate : Bool
  maxWorkers : Int
deriving DecidableEq

namespace Settings

/-- The number of workers for a number of jobs. -/
def workers (s : Settings) (jobs : Int) : Int :=
  if jobs < s.maxWorkers then jobs else s.maxWorkers

/-- The settings with another limit of rounds, which must not be negative. -/
def withMaxIterations (n : Int) (s : Settings) : Except Fault Settings :=
  if n < 0 then .error (.iterationCount n) else .ok { s with maxIterations := n }

/-- The settings with checks turned on or off. -/
def withValidation (on : Bool) (s : Settings) : Settings :=
  { s with validate := on }

/-- The settings with another number of workers, which has to be positive. -/
def withWorkers (n : Int) (s : Settings) : Except Fault Settings :=
  if n < 1 then .error (.workerCount n) else .ok { s with maxWorkers := n }

end Settings

/-! ### Texts of the environment -/

/-- The value of a digit. -/
def digitValue? (c : Char) : Option Nat :=
  if '0' ≤ c ∧ c ≤ '9' then some (c.toNat - '0'.toNat)
  else if 'a' ≤ c ∧ c ≤ 'z' then some (c.toNat - 'a'.toNat + 10)
  else if 'A' ≤ c ∧ c ≤ 'Z' then some (c.toNat - 'A'.toNat + 10)
  else none

/-- Whether every underscore has digits on both sides; `digit` tells whether one stands
before. -/
def underscoresSeparate : Bool → List Char → Bool
  | _, [] => true
  | digit, '_' :: rest =>
      match rest with
      | [] => false
      | c :: _ => digit && c ≠ '_' && underscoresSeparate false rest
  | _, _ :: rest => underscoresSeparate true rest

/-- The number that digits of a base spell. There has to be a digit. -/
def digitsValue? (base : Nat) (digits : List Char) : Option Nat :=
  if digits.isEmpty then none
  else
    digits.foldlM (fun n c => do
      let d ← digitValue? c
      if d < base then some (n * base + d) else none) 0

/-- The digits of a number and their base. A mark counts as a digit before an underscore. -/
def splitBase : List Char → Nat × List Char × Bool
  | '0' :: 'x' :: rest | '0' :: 'X' :: rest => (16, rest, true)
  | '0' :: 'b' :: rest | '0' :: 'B' :: rest => (2, rest, true)
  | '0' :: 'o' :: rest | '0' :: 'O' :: rest => (8, rest, true)
  | '0' :: c :: rest => (8, c :: rest, true)
  | cs => (10, cs, false)

/-- The number of 64 bits that a text spells. -/
def parseNumber? (text : String) : Option Nat := do
  let (base, digits, marked) := splitBase text.toList
  if underscoresSeparate marked digits then
    let n ← digitsValue? base (digits.filter (· ≠ '_'))
    if n < UInt64.size then some n else none
  else none

/-- The truth value that a text spells. -/
def parseSwitch? (text : String) : Option Bool :=
  if text ∈ ["1", "t", "T", "TRUE", "true", "True"] then some true
  else if text ∈ ["0", "f", "F", "FALSE", "false", "False"] then some false
  else none

/-- A number setting: the default for an empty text, and otherwise the number that the text
spells, as a signed number of 64 bits. -/
def numberSetting (key text : String) (default least : Int) : Except Fault Int :=
  if text = "" then .ok default
  else
    match parseNumber? text with
    | none => .error (.settingInvalid key)
    | some n =>
        let value := (BitVec.ofNat 64 n).toInt
        if value < least then .error (.settingTooSmall key) else .ok value

/-- A switch setting: the default for an empty text. -/
def switchSetting (key text : String) (default : Bool) : Except Fault Bool :=
  if text = "" then .ok default
  else
    match parseSwitch? text with
    | none => .error (.settingInvalid key)
    | some value => .ok value

end ShaderCompiler
