import ShaderCompiler.Pipeline
import ShaderCompiler.Proofs.Adjacency
import ShaderCompiler.Proofs.Build.Refusals
import ShaderCompiler.Proofs.DeadCode.Again
import ShaderCompiler.Proofs.DeadCode.Exact
import ShaderCompiler.Proofs.Envelope.Rewriting
import ShaderCompiler.Proofs.Forwarding.Circles
import ShaderCompiler.Proofs.LoopEntry
import ShaderCompiler.Proofs.Machine.Endings
import ShaderCompiler.Proofs.Machine.Histories
import ShaderCompiler.Proofs.Machine.Modifiers
import ShaderCompiler.Proofs.Nesting
import ShaderCompiler.Proofs.Passes.Settling
