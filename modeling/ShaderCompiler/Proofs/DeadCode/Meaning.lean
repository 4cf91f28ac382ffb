import ShaderCompiler.Proofs.DeadCode.Finds
import ShaderCompiler.Proofs.Forwarding.Meaning

/-!
# Removing dead code is not observed

What is taken out has no effect, and no reading that is left refers to it. So the function enters
the same blocks as before, and its effects read the same operands.
-/

namespace ShaderCompiler

variable {ins : Instr} {b : BlockId} {i : InstrId} {use : Use} {v : ValueId}

namespace Arena

variable {a a' : Arena} {V : ValueId → Prop} {U : UseId → Prop} {f : FunctionId} {g : Function}
  {region : Region} {s : LiveSet} {T : Scope} {lists : BlockId → List InstrId}
  {gone : Finset InstrId} {u : UseId} {env : Env}

/-! ### Readings -/

namespace Loses

variable (h : Loses gone a a')

include h

theorem operand_eq : a'.operand env u = a.operand env u := by
  rw [← operand_code a', h.code, operand_code, operand, reads_relisted]
  rfl

theorem conditionLanes_eq : a'.conditionLanes env u = a.conditionLanes env u := by
  rw [← conditionLanes_code a', h.code, conditionLanes_code]
  rfl

theorem isPlain_eq (t : Option UseId) : a'.isPlain t = a.isPlain t := by
  rw [← isPlain_code a', h.code, isPlain_code]
  rfl

end Loses

/-- An instruction without effect leaves no event. -/
theorem events_eq_nil (h : ins.hasEffect = false) (env : Env) (i : InstrId) :
    a.events env i ins = [] := by
  unfold events
  split
  case h_1 op dest srcs base hact =>
    rw [if_pos]
    simpa [Instr.hasEffect, hact] using h
  case h_2 callee params hact => simp [Instr.hasEffect, hact] at h
  case h_3 kind hact => simp [Instr.hasEffect, hact] at h
  case h_4 => rfl

/-! ### The whole function -/

namespace Checked

variable {a₁ : Arena} {tree : Dominance} {defs : Edit.Definitions} {always : Bool}
  (h : a.Checked f a₁ g region tree defs) (hp : a.Prunable V U T f g region s)
  (he : a.EdgesCurrent f) (hempty : a.FinishEmpty f)
  (hfinds : a.outline.Finds region (a.scanned always region s))

include h he hempty

/-- Control gets to instructions of the body only. -/
theorem mem_preorder_of_reachable (hb : a.Reachable f b)
    (hi : i ∈ a.body b) : b ∈ region.preorder :=
  h.mem_preorder_of_mem_body hempty ((h.flowsWithin he).mem_of_reachable hb) hi

include hfinds

/-- What defines a source of an instruction that is left was not taken out. -/
theorem not_takenOut_of_source (huse : a.uses[u.idx]? = some use)
    (hval : use.value = some v) (hi : i ∈ (a.scanned always region s).instrs)
    (hins : a.instrs[i.idx]? = some ins) (hu : some u ∈ ins.sources) :
    ¬ a.TakenOut f (fun i => decide (i ∈ (a.scanned always region s).instrs)) v := by
  rintro ⟨home, d, dns, hhome, hd, hgone, hdns, hdef⟩
  have hmem := (h.flowsWithin he).mem_of_reachable hhome
  obtain ⟨-, x, hx, -⟩ := h.wired.value_of_definition hmem hd hdns hdef
  exact (decide_eq_false_iff_not.mp hgone) (mem_scanned_of_source hfinds huse hval
    (h.mem_preorder_of_reachable he hempty hhome hd) hd hdns hdef hx hi hins hu)

theorem not_takenOut_of_condition (huse : a.uses[u.idx]? = some use)
    (hval : use.value = some v) (hu : a.conditionAfter f b = some u) :
    ¬ a.TakenOut f (fun i => decide (i ∈ (a.scanned always region s).instrs)) v := by
  rintro ⟨home, d, dns, hhome, hd, hgone, hdns, hdef⟩
  have hmem := (h.flowsWithin he).mem_of_reachable hhome
  obtain ⟨-, x, hx, -⟩ := h.wired.value_of_definition hmem hd hdns hdef
  obtain ⟨c, hc, con, yes, no, hcon, hshape⟩ := conditionAfter_spec hu
  rw [h.scope_ifs, ← Region.ifs_eq_branches] at hc
  exact (decide_eq_false_iff_not.mp hgone) (mem_scanned_of_condition hfinds huse hval
    (h.mem_preorder_of_reachable he hempty hhome hd) hd hdns hdef hx hc hcon hshape)

/-- Removing dead code takes out instructions without effect that nothing refers to, and does
nothing else. -/
theorem reduction (hpruned : Pruned V U a
      (a.keptIn region.preorder.toFinset (a.scanned always region s).instrs)
      (a.deadIn region.preorder.toFinset (a.scanned always region s).instrs) a') :
    Reduction a a' f (fun i => decide (i ∈ (a.scanned always region s).instrs))
      fun _ _ _ => True where
  blocksOf := blocksOf_congr hpruned.constructs
    (map_of_functions hpruned.functions f _ fun _ => rfl)
  bodyRegion := bodyRegion_congr hpruned.constructs
    (map_of_functions hpruned.functions f _ fun _ => rfl)
  constructs := hpruned.constructs
  exits := hpruned.exits_eq
  body b hb := by
    rw [hpruned.body, keptIn]
    split
    case isTrue => rfl
    case isFalse hnot =>
      have hnil : a.body b = [] := List.eq_nil_iff_forall_not_mem.mpr fun i hi =>
        hnot (List.mem_toFinset.mpr (h.mem_preorder_of_reachable he hempty hb hi))
      rw [hnil, List.filter_nil]
  instr i ins hins := hpruned.exists_action hins
  listed b hb := h.wired.instr b ((h.flowsWithin he).mem_of_reachable hb)
  width := widthOf_of_values hpruned.values
  plain := hpruned.isPlain_eq
  silent b hb i hi hgone ins hins env := by
    refine events_eq_nil (Bool.eq_false_iff.mpr fun heffect => ?_) env i
    refine (decide_eq_false_iff_not.mp hgone) ((covers_scanned always).1 i
      ⟨b, h.mem_preorder_of_reachable he hempty hb hi, hi⟩ ?_)
    simpa [outline, hins] using heffect
  source b hb k i hi hkeep ins hins hphi u hu := by
    refine ⟨fun env _ => hpruned.operand_eq, fun use' v huse' hval => ?_⟩
    obtain ⟨use, huse, hval⟩ := hpruned.exists_use huse' hval
    exact h.not_takenOut_of_source he hempty hfinds huse hval (of_decide_eq_true hkeep) hins hu
  incoming b hb t hbt i hi hkeep ins dest srcs u hins hact hu := by
    refine ⟨fun env _ => hpruned.operand_eq, fun use' v huse' hval => ?_⟩
    obtain ⟨use, huse, hval⟩ := hpruned.exists_use huse' hval
    exact h.not_takenOut_of_source he hempty hfinds huse hval (of_decide_eq_true hkeep) hins
      (Instr.mem_sources_of_phi hact (mem_of_lookup hu))
  condition b hb u hu := by
    refine ⟨fun env _ => hpruned.conditionLanes_eq, fun use' v huse' hval => ?_⟩
    obtain ⟨use, huse, hval⟩ := hpruned.exists_use huse' hval
    exact h.not_takenOut_of_condition he hempty hfinds huse hval hu
  first _ _ _ := trivial
  step _ _ _ _ _ _ _ _ _ := trivial
  flow _ _ _ _ _ _ _ := trivial

end Checked

end Arena

namespace Edit

end Edit

namespace Arena

open Edit

end Arena

end ShaderCompiler
