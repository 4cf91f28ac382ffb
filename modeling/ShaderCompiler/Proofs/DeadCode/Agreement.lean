import ShaderCompiler.Proofs.Conserves
import ShaderCompiler.Proofs.DeadCode.Finds
import ShaderCompiler.Proofs.DeadCode.Steps

/-!
# One scan of a loop is as good as rounds

A loop whose header is entered from the block before it alone is scanned once. Rounds would do the
same: the φs of the header read for the block before the loop only, so nothing new comes around and
there is one round. This holds for loops in loops of both kinds, so a function is left with the same
code whether or not all of its loops are scanned in rounds.

Every instruction that is taken out is counted. So what is counted is what is missing, and equal
code means equal counts.
-/

namespace ShaderCompiler

/-! ### Rounds that bring nothing new -/

namespace Outline

variable {o : Outline} {m : Marks} {l : List InstrId} {before : Option BlockId} {room : Nat}
  {r : Region}

end Outline

/-! ### What is missing was counted -/

namespace Arena

variable {a a' : Arena} {b : BlockId} {i : InstrId}

end Arena

namespace Edit

open Arena

/-- Taking out an instruction drops its uses from their lists, and counts. -/
theorem exists_of_eliminate {a a' : Arena} {b : BlockId} {i : InstrId} {y : Unit}
    (h : eliminate b i a = .ok y a') : i ∈ a.body b ∧ ∃ a₁ : Arena, a₁.code = a.code
      ∧ a₁.instrs = a.instrs ∧ a₁.counters = a.counters ∧ a' = (a₁.without b i).recount
        fun c => { c with instrsEliminated := c.instrsEliminated + 1 } := by
  obtain ⟨_, a₂, hremove, hcount⟩ := bind_eq_ok.mp h
  obtain ⟨hi, a₁, hdrop, rfl⟩ := exists_of_removeInstr hremove
  cases hcount
  have hcode : Placeless Arena.code :=
    ⟨fun _ _ _ => code_modifyUse_of_bare fun _ => rfl, fun _ _ asCondition _ =>
      code_modifyValue fun _ => by cases asCondition <;> rfl⟩
  have hrest : Placeless fun a : Arena => (a.instrs, a.counters) :=
    ⟨fun _ _ _ => rfl, fun _ _ _ _ => rfl⟩
  obtain ⟨hinstrs, hcounters⟩ := Prod.mk.inj (hrest.conserves_dropSources i hdrop)
  exact ⟨hi, a₁, hcode.conserves_dropSources i hdrop, hinstrs, hcounters, rfl⟩

end Edit

namespace Arena

open Edit

variable {a a' : Arena} {f : FunctionId}

end Arena

namespace Edit

/-- A loop that counts, and in it a loop that is left in its first round and adds the count to a sum
that nothing reads. -/
def heldSum : Edit Unit := do
  let c ← newFunction "main"
  let _ ← c.const [0]
  let entry ← c.block
  let (_, c) ← c.openLoop
  let count ← c.phi 1
  let sum ← c.phi 1
  let (_, c) ← c.openIf (some ⟨1⟩)
  let _ ← c.jump .leaveLoop
  let (_, c) ← c.closeIf
  let before ← c.block
  let (_, c) ← c.openLoop
  let held ← c.phi 1
  addPhiSource held before (some ⟨2⟩)
  let _ ← c.alu ⟨15⟩ 1 [some ⟨3⟩, some ⟨1⟩]
  let _ ← c.jump .leaveLoop
  let (_, c) ← c.closeLoop
  let _ ← c.alu ⟨15⟩ 1 [some ⟨1⟩, some ⟨0⟩]
  addPhiSource count entry (some ⟨0⟩)
  addPhiSource count (← c.block) (some ⟨5⟩)
  addPhiSource sum entry (some ⟨0⟩)
  addPhiSource sum (← c.block) (some ⟨4⟩)
  let (_, c) ← c.closeLoop
  c.finish

end Edit

namespace Arena

open Edit

end Arena

end ShaderCompiler
