import ShaderCompiler.Proofs.DeadCode.Liveness
import ShaderCompiler.Proofs.Execution

/-!
# Arenas with instructions taken out

Removing dead code takes instructions out of blocks and unlinks their sources. The rest of the
code stays as it is, so what is left can be described by the new lists of the blocks and the set
of instructions that were taken out. In particular the outline of what is left is the old one
with other lists.

A scan in rounds records verdicts and counts rounds. Apart from that it leaves the arena alone.
-/

namespace ShaderCompiler

variable {ins : Instr} {bb : Block} {S : Scope}

/-- Whether an instruction has an effect of its own. -/
def Instr.hasEffect (ins : Instr) : Bool :=
  match ins.action with
  | .call .. | .jump _ => true
  | .intrinsic op _ _ _ => !op.isEliminable
  | _ => false

namespace Arena

/-- The number of a value. -/
def number? (a : Arena) (v : ValueId) : Option Int :=
  (a.values[v.idx]?).map Value.index

/-- The number of the value that a use reads. -/
def readNumber? (a : Arena) (u : UseId) : Option Int :=
  (a.uses[u.idx]?).bind fun use => use.value.bind a.number?

/-- The numbers that an instruction reads, those of a φ with the block for which it reads them. -/
def readings (a : Arena) (ins : Instr) : List (Option BlockId × Int) :=
  match ins.action with
  | .phi _ srcs =>
      srcs.filterMap (fun s => (a.readNumber? s.2).map (some s.1, ·))
        ++ ins.indirect.toList.filterMap fun u => (a.readNumber? u).map (none, ·)
  | _ => ins.sources.reduceOption.filterMap fun u => (a.readNumber? u).map (none, ·)

/-- What a scan sees of an arena. -/
def outline (a : Arena) : Outline where
  body := a.body
  preds b := (a.blocks[b.idx]?).elim [] Block.preds
  effect i := (a.instrs[i.idx]?).any Instr.hasEffect
  defs i := (a.instrs[i.idx]?).elim [] fun ins => ins.definitions.reduceOption.filterMap a.number?
  reads i := (a.instrs[i.idx]?).elim [] a.readings
  tests c := match (a.constructs[c.idx]?).map Construct.shape with
    | some (.branch cond _ _) => (cond.bind a.readNumber?).toList
    | _ => []

/-- The arena without verdicts and counters. -/
def unmarked (a : Arena) : Arena :=
  { a with
    instrs := a.instrs.map fun ins => { ins with live := false }
    counters := ⟨0, 0, 0, 0⟩ }

/-- The verdict on an instruction. -/
def verdict (a : Arena) (i : InstrId) : Bool :=
  (a.instrs[i.idx]?).any Instr.live

/-- The arena `a` is what is left of `a₀` after instructions were taken out one by one. Their
sources are not listed any more, and the use-lists of the values `V` still agree with the
uses `U`. -/
structure Pruned (V : ValueId → Prop) (U : UseId → Prop) (a₀ : Arena)
    (lists : BlockId → List InstrId) (gone : Finset InstrId) (a : Arena) : Prop
    extends Loses gone a₀ a where
  body : a.body = lists
  useLists : a.UseLists V U
  attached : ∀ u, a.Attached u ↔ a₀.Attached u
    ∧ ∀ i ∈ gone, ∀ ins, a₀.instrs[i.idx]? = some ins → some u ∉ ins.sources
  untouched : gone = ∅ → a.values = a₀.values ∧ a.uses = a₀.uses

variable {a a' a₀ : Arena} {lists : BlockId → List InstrId} {gone : Finset InstrId}
  {V : ValueId → Prop} {U : UseId → Prop} {b : BlockId} {i : InstrId}

theorem readings_of_phi {dest : Option ValueId} {srcs : List (BlockId × UseId)}
    (h : ins.action = .phi dest srcs) : a.readings ins
      = srcs.filterMap (fun s => (a.readNumber? s.2).map (some s.1, ·))
        ++ ins.indirect.toList.filterMap fun u => (a.readNumber? u).map (none, ·) := by
  rw [readings, h]

theorem readings_of_not_phi (h : ∀ dest srcs, ins.action ≠ .phi dest srcs) :
    a.readings ins = ins.sources.reduceOption.filterMap fun u => (a.readNumber? u).map (none, ·) := by
  unfold readings
  split
  case h_1 dest srcs hact => exact absurd hact (h dest srcs)
  case h_2 => rfl

/-- What an instruction reads for a block is a source of a φ. -/
theorem exists_of_mem_readings {x : Option BlockId × Int} (hx : x ∈ a.readings ins) :
    ∃ u, some u ∈ ins.sources ∧ a.readNumber? u = some x.2
      ∧ ∀ p ∈ x.1, ∃ dest srcs, ins.action = .phi dest srcs ∧ (p, u) ∈ srcs := by
  by_cases hphi : ∃ dest srcs, ins.action = .phi dest srcs
  · obtain ⟨dest, srcs, hact⟩ := hphi
    rw [readings_of_phi hact, List.mem_append, List.mem_filterMap, List.mem_filterMap] at hx
    rcases hx with ⟨s, hs, hx⟩ | ⟨u, hu, hx⟩
    · obtain ⟨n, hn, rfl⟩ := Option.map_eq_some_iff.mp hx
      refine ⟨s.2, Instr.mem_sources_of_phi hact hs, hn, fun p hp => ⟨dest, srcs, hact, ?_⟩⟩
      cases hp
      exact hs
    · obtain ⟨n, hn, rfl⟩ := Option.map_eq_some_iff.mp hx
      refine ⟨u, ?_, hn, by simp⟩
      simp [Instr.sources, hact, Option.mem_toList.mp hu]
  · rw [readings_of_not_phi (by simpa using hphi), List.mem_filterMap] at hx
    obtain ⟨u, hu, hx⟩ := hx
    obtain ⟨n, hn, rfl⟩ := Option.map_eq_some_iff.mp hx
    exact ⟨u, List.reduceOption_mem_iff.mp hu, hn, by simp⟩

/-! ### The outline depends on the code -/

theorem number?_code (a : Arena) (v : ValueId) : a.code.number? v = a.number? v := by
  rw [number?, code_values, Option.map_map]
  rfl

theorem number?_of_values (h : a'.code.values = a.code.values) (v : ValueId) :
    a'.number? v = a.number? v := by
  rw [← number?_code a', ← number?_code a, number?, number?, h]

theorem readNumber?_code (a : Arena) (u : UseId) : a.code.readNumber? u = a.readNumber? u := by
  rw [readNumber?, code_uses, readNumber?, funext a.number?_code]
  cases a.uses[u.idx]? <;> rfl

theorem readNumber?_of_uses (hv : a'.code.values = a.code.values)
    (hu : a'.code.uses = a.code.uses) (u : UseId) : a'.readNumber? u = a.readNumber? u := by
  have hnumber : a'.code.number? = a.code.number? := by
    funext v
    rw [number?, number?, hv]
  rw [← readNumber?_code a', ← readNumber?_code a, readNumber?, readNumber?, hu, hnumber]

theorem readings_code (a : Arena) : a.code.readings = a.readings := by
  funext ins
  rw [readings, readings, funext a.readNumber?_code]

theorem outline_code (a : Arena) : a.code.outline = a.outline := by
  have hbody : a.code.body = a.body := by
    funext b
    rw [body, body, code_blocks]
    cases a.blocks[b.idx]? <;> rfl
  simp only [outline, Outline.mk.injEq]
  refine ⟨hbody, ?_, ?_, ?_, ?_, ?_⟩
  · funext b
    rw [code_blocks]
    cases a.blocks[b.idx]? <;> rfl
  · funext i
    rw [code_instrs]
    cases a.instrs[i.idx]? <;> rfl
  · funext i
    rw [code_instrs, funext a.number?_code]
    cases a.instrs[i.idx]? <;> rfl
  · funext i
    rw [code_instrs, readings_code]
    cases a.instrs[i.idx]? <;> rfl
  · funext c
    rw [funext a.readNumber?_code]
    rfl

theorem outline_congr (h : a'.code = a.code) : a'.outline = a.outline := by
  rw [← outline_code a', h, outline_code]

/-! ### Other lists -/

/-- The outline of an arena with other lists is the old one with other lists. -/
theorem outline_relisted (a : Arena) (lists : BlockId → List InstrId) (gone : Finset InstrId) :
    (a.relisted lists gone).outline
      = { a.outline with body := (a.relisted lists gone).body } := by
  simp only [outline, Outline.mk.injEq, true_and]
  refine ⟨?_, ?_, ?_, ?_, rfl⟩
  · funext b
    rw [relisted_blocks]
    cases a.blocks[b.idx]? <;> rfl
  all_goals
    funext i
    rw [relisted_instrs]
    cases a.instrs[i.idx]? with
    | none => rfl
    | some ins =>
      rw [Option.map_some]
      split <;> rfl

theorem Loses.outline_eq (h : Loses gone a a') : a'.outline = { a.outline with body := a'.body } := by
  rw [outline_congr h.code, outline_relisted, ← body_of_code h.code]

namespace Pruned

theorem refl (h : a.UseLists V U) : Pruned V U a a.body ∅ a :=
  ⟨.of_code rfl, rfl, h, by simp, fun _ => ⟨rfl, rfl⟩⟩

theorem block (h : Pruned V U a₀ lists gone a) (hbb : a₀.blocks[b.idx]? = some bb) :
    ∃ bb', a.blocks[b.idx]? = some bb' := by
  obtain ⟨n, hbb'⟩ := block_of_code h.code (by rw [relisted_blocks, hbb, Option.map_some])
  exact ⟨_, hbb'⟩

/-- Verdicts, numbers and counters play no role. -/
theorem congr (h : Pruned V U a₀ lists gone a) (hcode : a'.code = a.code)
    (hvalues : a'.values = a.values) (huses : a'.uses = a.uses) : Pruned V U a₀ lists gone a' where
  toLoses := by simpa using h.toLoses.trans (.of_code hcode)
  body := (body_of_code hcode).trans h.body
  useLists := by
    have hl := h.useLists
    constructor
    · rw [hvalues]
      exact hl.value
    · rw [hvalues, huses]
      exact hl.entry
    · rw [hvalues, huses]
      exact hl.slot
    · rw [hvalues]
      exact hl.member
  attached u := by
    rw [← h.attached u, Attached, Attached, huses]
  untouched hnone := by
    rw [hvalues, huses]
    exact h.untouched hnone

theorem recount (h : Pruned V U a₀ lists gone a) (k : Counters → Counters) :
    Pruned V U a₀ lists gone (a.recount k) :=
  h.congr rfl rfl rfl

/-- Taking out one more instruction. -/
theorem remove (h : Pruned V U a₀ lists gone a) (hbb : a₀.blocks[b.idx]? = some bb)
    (hi : i ∈ lists b) (hins : a₀.instrs[i.idx]? = some ins)
    (hU : ∀ s ∈ ins.sources, ∃ u, s = some u ∧ U u) :
    ∃ a', Edit.removeInstr b i a = .ok () a'
      ∧ Pruned V U a₀ (Function.update lists b ((lists b).erase i)) (insert i gone) a'
      ∧ ∀ j, a'.verdict j = a.verdict j := by
  obtain ⟨bb', hbb'⟩ := h.block hbb
  obtain ⟨ins', hins', hact, hind⟩ := h.exists_action hins
  have hsources := Instr.sources_congr hact hind
  obtain ⟨a', hrun, hcode, hinstrs, hlists, hattached⟩ := Edit.removeInstr_spec h.useLists hbb'
    (by rwa [← body_of_block hbb', h.body]) hins' (by rwa [hsources])
  refine ⟨a', hrun, ⟨?_, ?_, hlists, fun u => ?_, by simp⟩, fun j => ?_⟩
  · rw [Finset.insert_eq, Finset.union_comm]
    exact h.toLoses.trans (.of_without hcode)
  · funext c
    rw [body_of_code hcode, body_without, h.body, Function.update_apply]
    split
    case isTrue hc => rw [hc]
    case isFalse => rfl
  · rw [hattached u, h.attached u, hsources, and_assoc]
    simp only [Finset.mem_insert, forall_eq_or_imp, hins, Option.some.injEq, forall_eq', and_comm]
  · rw [verdict, verdict, hinstrs, instrs_without]
    split
    · cases a.instrs[j.idx]? <;> rfl
    · rfl

end Pruned

/-! ### Without verdicts and counters -/

section Unmarked

variable (h : a'.unmarked = a.unmarked)

include h

theorem values_of_unmarked : a'.values = a.values :=
  congrArg (·.values) h

theorem uses_of_unmarked : a'.uses = a.uses :=
  congrArg (·.uses) h

theorem code_of_unmarked : a'.code = a.code := by
  have hcode (x : Arena) : x.code = x.unmarked.code := by
    simp only [code, unmarked, Array.map_map]
    rfl
  rw [hcode a', hcode a, h]

end Unmarked

theorem unmarked_record (a : Arena) (i : InstrId) (live : Bool) :
    (a.modifyInstr i fun ins => { ins with live := live }).unmarked = a.unmarked := by
  have hinstrs : (a.instrs.modify i.idx fun ins => { ins with live := live }).map
      (fun ins => { ins with live := false }) = a.instrs.map fun ins => { ins with live := false } :=
    map_modify_of_eq fun _ => rfl
  simp only [unmarked, modifyInstr, hinstrs]

theorem verdict_record (hins : a.instrs[i.idx]? = some ins) (live : Bool)
    (j : InstrId) : (a.modifyInstr i fun ins => { ins with live := live }).verdict j
      = if j = i then live else a.verdict j := by
  rw [verdict, verdict, modifyInstr_instrs_get]
  split
  case isTrue hj =>
    subst hj
    rw [hins]
    rfl
  case isFalse => rfl

end Arena

end ShaderCompiler
