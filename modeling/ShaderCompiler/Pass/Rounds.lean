import ShaderCompiler.Pass.DeadCode
import ShaderCompiler.Pass.Forwarding

/-!
# Rounds of passes

The passes run in turn, round after round, until a round makes no progress or the
limit of rounds is reached. Every pass run is written down in a log.
-/

namespace ShaderCompiler

/-- The passes. -/
inductive Pass where
  | forwardCopies
  | removeDead
deriving DecidableEq

/-- The name of a pass. -/
def Pass.name : Pass → String
  | .forwardCopies => "Copy Propagation"
  | .removeDead => "Dead Code Elimination"

/-- The passes of a round. -/
def Pass.all : List Pass := [.forwardCopies, .removeDead]

/-- Runs a pass on all functions of a shader, and tells whether it made progress. -/
def Pass.run (s : Shader) : Pass → Edit Bool
  | .forwardCopies => Edit.forEachBody s Edit.forwardCopies
  | .removeDead => Edit.forEachBody s fun f => Edit.removeDead f false

/-- A pass run: the round, the pass, and whether it made progress. -/
structure PassRun where
  round : Nat
  pass : Pass
  progress : Bool
deriving DecidableEq

namespace Edit

/-- One round of passes. -/
def passRound (s : Shader) (round : Nat) : Edit (List PassRun) :=
  Pass.all.mapM fun p => return ⟨round, p, ← p.run s⟩

/-- Rounds of passes from round number `round` on, at most `fuel` of them; with a positive
`limit`, rounds from that number on are not made. -/
def roundsFrom (s : Shader) (limit : Int) (round : Nat) : Nat → Edit (List PassRun)
  | 0 => throw .endless
  | fuel + 1 => do
      if limit ≤ 0 ∨ (round : Int) < limit then
        let runs ← passRound s round
        if runs.any (·.progress) then
          return runs ++ (← roundsFrom s limit (round + 1) fuel)
        else
          return runs
      else
        return []

end Edit

/-- A number of rounds that suffices: each round but the last moves a use past a copy, where
no lane of a use passes a copy twice, or removes an instruction. -/
def Arena.roundBound (a : Arena) : Nat :=
  maxLanes * (a.uses.size + 1) * (a.instrs.size + 1) + a.instrs.size + 2

namespace Edit

/-- Runs the passes on a shader until they make no progress, or for at most `limit` rounds if
the limit is positive. The result is the log of pass runs. -/
def optimize (s : Shader) (limit : Int) : Edit (List PassRun) := do
  roundsFrom s limit 0 (← get).roundBound

end Edit

/-- Whether a log records a change. -/
def madeProgress (log : List PassRun) : Bool :=
  log.any (·.progress)

end ShaderCompiler
