import ShaderCompiler.Proofs.DeadCode.Function
import ShaderCompiler.Proofs.Forwarding.Sound

/-!
# What removing dead code leaves

Dead instructions are taken out of the blocks of one function. Any scope sees this the same way:
it reads what it read before, apart from the sources of dead instructions, and these are not
listed any more. So references still lead somewhere, instructions are at home and use-lists agree
with the uses. This holds of the scope of the function and of those of other functions alike.
-/

namespace ShaderCompiler

namespace Arena

/-- What is left of `a` after the instructions of a region outside `live` were taken out. -/
abbrev Swept (V : ValueId → Prop) (U : UseId → Prop) (a : Arena) (region : Region)
    (live : Finset InstrId) (a' : Arena) : Prop :=
  Pruned V U a (a.keptIn region.preorder.toFinset live) (a.deadIn region.preorder.toFinset live) a'

variable {a a' : Arena} {V : ValueId → Prop} {U : UseId → Prop} {S T : Scope} {f : FunctionId}
  {g : Function} {region : Region} {s : LiveSet} {live : Finset InstrId} {b : BlockId}
  {i : InstrId} {u : UseId} {v : ValueId}

namespace Swept

section Lists

variable (h : Swept V U a region live a')

include h

theorem mem_body_iff : i ∈ a'.body b ↔ i ∈ a.body b ∧ (b ∈ region.preorder → i ∈ live) := by
  rw [h.body, keptIn]
  by_cases hb : b ∈ region.preorder <;> simp [hb]

theorem body_eq_of_notMem (hb : b ∉ region.preorder) : a'.body b = a.body b := by
  rw [h.body, keptIn, if_neg (by simpa using hb)]

/-- If nothing is dead, the code is what it was. -/
theorem code_eq (hall : ∀ i, a.outline.Stands region i → i ∈ live) : a'.code = a.code := by
  have hdead : a.deadIn region.preorder.toFinset live = ∅ := by
    refine Finset.eq_empty_of_forall_notMem fun i hi => ?_
    obtain ⟨⟨b, hb, hib⟩, hi⟩ := mem_deadIn.mp hi
    exact hi (hall i ⟨b, List.mem_toFinset.mp hb, hib⟩)
  have hbody : a'.body = a.body := by
    funext b
    rw [h.body, keptIn]
    split
    case isTrue hb =>
      exact List.filter_eq_self.mpr fun i hi =>
        decide_eq_true (hall i ⟨b, List.mem_toFinset.mp hb, hi⟩)
    case isFalse => rfl
  rw [h.code, hdead, hbody, relisted_self]

theorem use_eq {use : Use} (huse : a.uses[u.idx]? = some use) :
    ∃ k, a'.uses[u.idx]? = some { use with slot := k } :=
  use_of_uses h.uses huse

end Lists

/-! ### What a scope sees -/

variable (h : Swept V U a region live a') (hp : a.Prunable V U T f g region s) (hw : a.Wired S)
  (hh : a.Homed S)

include h hp hw hh

/-- What still stands in a block is not dead. -/
theorem notMem_dead : ∀ b ∈ S.blocks, ∀ i ∈ a'.body b,
    i ∉ a.deadIn region.preorder.toFinset live := by
  intro b hb i hi hdead
  obtain ⟨⟨c, hc, hic⟩, hlive⟩ := mem_deadIn.mp hdead
  obtain ⟨hib, hkept⟩ := h.mem_body_iff.mp hi
  obtain ⟨ins, hins⟩ := hw.instr b hb i hib
  have hplace := hp.homed.place c (hp.blocks (List.mem_toFinset.mp hc)) i hic ins hins
  rw [hh.place b hb i hib ins hins, Option.some.injEq] at hplace
  exact hlive (hkept (hplace ▸ List.mem_toFinset.mp hc))

theorem exists_instr (hb : b ∈ S.blocks) (hi : i ∈ a'.body b) :
    i ∈ a.body b ∧ ∃ ins, a.instrs[i.idx]? = some ins
      ∧ ∃ n l, a'.instrs[i.idx]? = some { ins with index := n, live := l } :=
  h.toLoses.exists_instr hw (h.notMem_dead hp hw hh) hb hi

omit h hw hh in
theorem exists_of_dead (live : Finset InstrId) : ∀ i ∈ a.deadIn region.preorder.toFinset live,
    ∃ T, a.Wired T ∧ ∃ b ∈ T.blocks, i ∈ a.body b := by
  intro i hi
  obtain ⟨⟨b, hb, hib⟩, -⟩ := mem_deadIn.mp hi
  exact ⟨T, hp.wired, b, hp.blocks (List.mem_toFinset.mp hb), hib⟩

/-- What is still read remembers its place, and what was read and remembers it is still read. -/
theorem reads_iff_attached (hatt : a.Reads S u → a.Attached u) :
    a'.Reads S u ↔ a.Reads S u ∧ a'.Attached u := by
  rw [h.reads_iff hw (h.notMem_dead hp hw hh) (exists_of_dead hp live), h.attached u]
  exact ⟨fun ⟨hread, hnot⟩ => ⟨hread, hatt hread, hnot⟩, fun ⟨hread, _, hnot⟩ => ⟨hread, hnot⟩⟩

end Swept

/-! ### Sound scopes -/

section Sound

variable {Ts : List Scope} (h : Swept (DefinedBy Ts) U a region live a')
  (hp : a.Prunable (DefinedBy Ts) U T f g region s) (hs : a.Sound Ts U)

include h hp hs

/-- Sound scopes stay sound when the dead code of a function is taken out. -/
theorem Sound.sweep : a'.Sound Ts U :=
  hs.lose h.toLoses (fun S hS => h.notMem_dead hp (hs.wired S hS) (hs.homed S hS))
    (Swept.exists_of_dead hp live) h.useLists h.attached

/-- Taking out dead code brings no pair of a copy and a use back. -/
theorem Pending.sweep {P : BlockId → InstrId → Bool → UseId → Prop} (hP : a.Pending Ts P) :
    a'.Pending Ts P :=
  hP.lose hs (hs.sweep h hp) h.toLoses fun t ht => ((h.attached t).mp ht).1

end Sound

end Arena

end ShaderCompiler
