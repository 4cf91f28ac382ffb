import ShaderCompiler.Check
import ShaderCompiler.Envelope.Binary
import ShaderCompiler.Machine.Program
import ShaderCompiler.Pass.Rounds
import ShaderCompiler.Settings

/-!
# Compiling shaders

Compiling a shader checks it, runs the passes, checks it again, lowers it with a backend
and emits the machine program. A backend is given by the caller.

A batch compiles shaders of one workspace. Jobs run in some order, one step each. All of
them run, also after a failure, and the first failure in that order is the outcome of the
batch. A job that is aborted is a failure that names its shader, unless its backend gave up
without a message. If a job does not end, the batch does not end either.
-/

namespace ShaderCompiler

/-- Why a compilation stops without an outcome. -/
inductive Abort where
  | graph (fault : Fault)
  | machine (fault : Machine.Fault)
  /-- The backend gave up, with a message or without one. -/
  | backend (message : Option String)
deriving DecidableEq

/-- The wording of an abort. -/
def Abort.message : Abort → String
  | .graph fault => fault.message
  | .machine fault => fault.message
  | .backend message => message.getD "<nil>"

/-- The ways in which a compilation fails. -/
inductive CompileError where
  | invalidInput (shader : String) (invalid : Invalid)
  | invalidOutput (shader : String) (invalid : Invalid)
  | backend (message : String)
  | noProgram
  | cancelled
  | aborted (shader : String) (cause : Abort)
deriving DecidableEq

/-- The wording of a failed compilation. -/
def CompileError.message : CompileError → String
  | .invalidInput shader invalid => "input shader " ++ shader ++ ": " ++ invalid.message
  | .invalidOutput shader invalid => "optimized shader " ++ shader ++ ": " ++ invalid.message
  | .backend message => "backend: " ++ message
  | .noProgram => "backend returned no program"
  | .cancelled => "context canceled"
  | .aborted shader cause => "CompileError(" ++ shader ++ "): " ++ cause.message

/-- What a compilation works on: the shader graph, and the counters of emitting. -/
structure Workspace where
  arena : Arena
  emitted : Machine.EmitCounters
deriving DecidableEq

/-- A computation on a workspace. -/
abbrev Compile := EStateM Abort Workspace

/-- A change of the shader graph of a workspace. -/
def Compile.edit {α : Type} (x : Edit α) : Compile α := fun w =>
  match x w.arena with
  | .ok y a => .ok y { w with arena := a }
  | .error f a => .error (.graph f) { w with arena := a }

/-- What a backend makes of a shader: a program, an error, or nothing. -/
inductive Lowered where
  | program (listing : Machine.Listing) (program : Machine.Program)
  | error (message : String)
  | nothing
deriving DecidableEq

/-- A backend lowers an optimised shader to the machine. -/
abbrev Backend := Shader → Compile Lowered

namespace Compile

/-- Emits a machine program, and counts it. -/
def emit (listing : Machine.Listing) (program : Machine.Program) : Compile (List UInt8) := fun w =>
  match ({ listing with counters := w.emitted } : Machine.Listing).emit program with
  | (.ok bytes, listing) => .ok bytes { w with emitted := listing.counters }
  | (.error f, listing) => .error (.machine f) { w with emitted := listing.counters }

/-- Checks a shader, if checks are turned on. -/
def checked (settings : Settings) (s : Shader) : Compile (Option Invalid) :=
  if settings.validate then edit (Edit.checkShader s) else return none

/-- Lowers and emits a shader whose passes are done. -/
def lower (s : Shader) (backend : Option Backend) (changed : Bool) :
    Compile (Except CompileError Binary) := do
  match backend with
  | none => throw (.graph .absent)
  | some backend =>
      match ← backend s with
      | .error message => return .error (.backend message)
      | .nothing => return .error .noProgram
      | .program listing program =>
          let code ← emit listing program
          return .ok ⟨s.name.toUTF8.toList, s.stage, code, listing.length program, changed⟩

end Compile

/-- Compiles a shader. A missing shader is a fault. -/
def compile (settings : Settings) (shader : Option Shader) (backend : Option Backend) :
    Compile (Except CompileError Binary) := do
  match shader with
  | none => throw (.graph .absent)
  | some s =>
      match ← Compile.checked settings s with
      | some invalid => return .error (.invalidInput s.name invalid)
      | none =>
          let log ← Compile.edit (Edit.optimize s settings.maxIterations)
          match ← Compile.checked settings s with
          | some invalid => return .error (.invalidOutput s.name invalid)
          | none => Compile.lower s backend (madeProgress log)

/-! ### Batches -/

/-- A shader to compile. -/
structure Job where
  shader : Option Shader
  backend : Option Backend

namespace Job

/-- The name of the shader of a job. -/
def name (j : Job) : String :=
  match j.shader with
  | some s => s.name
  | none => "<nil>"

/-- What becomes of a job whose compilation ended this way: its binary or its failure, and the
workspace afterwards. An abort without a message leaves no binary and no failure. -/
def settle (j : Job) : EStateM.Result Abort Workspace (Except CompileError Binary) →
    Option (Except CompileError (Option Binary) × Workspace)
  | .ok (.ok bin) w => some (.ok (some bin), w)
  | .ok (.error e) w => some (.error e, w)
  | .error (.graph .endless) _ => none
  | .error (.backend none) w => some (.ok none, w)
  | .error cause w => some (.error (.aborted j.name cause), w)

/-- Runs a job in a workspace, unless it was cancelled. -/
def run (settings : Settings) (cancelled : Bool) (j : Job) (w : Workspace) :
    Option (Except CompileError (Option Binary) × Workspace) :=
  if cancelled then some (.error .cancelled, w)
  else j.settle (compile settings j.shader j.backend w)

end Job

/-- A batch: the workspace of all shaders, the binaries made so far, and the first failure. -/
structure Batch where
  workspace : Workspace
  binaries : List (Option Binary)
  failure : Option CompileError

namespace Batch

/-- The batch before any job ran. -/
def start (jobs : List Job) (w : Workspace) : Batch :=
  ⟨w, jobs.map fun _ => none, none⟩

/-- The batch after job `k` ran, if it ends. -/
def step (settings : Settings) (cancelled : Bool) (jobs : List Job) (batch : Batch) (k : Nat) :
    Option Batch := do
  match jobs[k]? with
  | none => return batch
  | some j =>
      match ← j.run settings cancelled batch.workspace with
      | (.ok bin, w) => return { batch with workspace := w, binaries := batch.binaries.set k bin }
      | (.error e, w) => return { batch with workspace := w, failure := batch.failure.or (some e) }

/-- The outcome of a batch: the first failure, or all binaries in the order of the jobs. -/
def outcome (batch : Batch) : Except CompileError (List (Option Binary)) :=
  match batch.failure with
  | some e => .error e
  | none => .ok batch.binaries

end Batch

/-- Compiles the shaders of a workspace, running the jobs in the given order. There is no result
if a job does not end. -/
def compileAll (settings : Settings) (cancelled : Bool) (order : List Nat) (jobs : List Job)
    (w : Workspace) : Option Batch :=
  order.foldlM (Batch.step settings cancelled jobs) (Batch.start jobs w)

end ShaderCompiler
