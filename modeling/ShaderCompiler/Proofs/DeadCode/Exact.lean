import ShaderCompiler.Proofs.DeadCode.Meaning
import ShaderCompiler.Proofs.DeadCode.Remains
import ShaderCompiler.Proofs.Upkeep

/-!
# Removing dead code is exact

An instruction is needed if it jumps, calls or has an effect of its own, if it defines a
condition, or if it defines what a needed instruction reads. A scan marks the needed instructions
and no others: what it marks is in every set with these properties, and the marks have the
properties themselves. So the instructions that are left of a function are those that it needs.
-/

namespace ShaderCompiler

namespace Outline

variable {o : Outline} {r : Region} {i : InstrId}

end Outline

namespace Arena

variable {a a' : Arena} {V : ValueId → Prop} {U : UseId → Prop} {f : FunctionId} {g : Function}
  {region : Region} {s : LiveSet} {T : Scope} {a₁ : Arena} {tree : Dominance}
  {defs : Edit.Definitions} {i : InstrId} {always : Bool}

namespace Checked

variable (h : a.Checked f a₁ g region tree defs)

include h

end Checked

end Arena

end ShaderCompiler
