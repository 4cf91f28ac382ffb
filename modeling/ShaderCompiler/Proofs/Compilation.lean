import ShaderCompiler.Pipeline
import ShaderCompiler.Proofs.Edit

/-!
# Runs on a workspace

A computation on a workspace that succeeds is taken apart step by step.
-/

namespace ShaderCompiler

namespace Compile

variable {α β : Type} {w w' : Workspace}

theorem bind_eq_ok {x : Compile α} {k : α → Compile β} {z : β} :
    (x >>= k) w = .ok z w' ↔ ∃ y w₁, x w = .ok y w₁ ∧ k y w₁ = .ok z w' := by
  change EStateM.bind x k w = _ ↔ _
  unfold EStateM.bind
  cases x w with
  | ok y w₁ => simp
  | error e w₁ => simp

theorem pure_eq_ok {y z : α} : (pure y : Compile α) w = .ok z w' ↔ y = z ∧ w = w' := by
  change EStateM.Result.ok y w = _ ↔ _
  simp

end Compile

end ShaderCompiler
