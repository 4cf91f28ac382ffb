import ShaderCompiler.Proofs.Forwarding.Fold
import ShaderCompiler.Proofs.Placement

/-!
# Copies along executions

A copy that is done holds: its destination has the lanes that its sources read, in the current
environment and not only in the one in which it was executed. For its destination is defined
nowhere else, and whatever defines a value that it reads was done before it and can not come
again without the copy coming again as well.

A lane of a copy that holds is the lane of a source that `Arena.laneOf` names.
-/

namespace ShaderCompiler

variable {ins : Instr} {n : Nat} {g : Use → Use} {use : Use} {v d : ValueId} {x : Value}
  {a' : Arena}

namespace Arena

variable {a : Arena} {f : FunctionId} {b : BlockId} {k : Nat} {i : InstrId} {u : UseId}
  {env env' : Env} {p : Alu}

/-- All copies that are done in front of a position hold in the environment. -/
def CopiesHold (a : Arena) (f : FunctionId) (b : BlockId) (k : Nat) (env : Env) : Prop :=
  ∀ d ins p v, a.DoneBefore f d b k → a.instrs[d.idx]? = some ins → ins.action = .alu p →
    p.dest = some v → a.movesLanes p = true → env v = a.moved env p.srcs

theorem operand_congr
    (h : ∀ use v, a.uses[u.idx]? = some use → use.value = some v → env' v = env v) :
    a.operand env' u = a.operand env u := by
  unfold operand
  cases huse : a.uses[u.idx]? with
  | none => rfl
  | some use =>
    cases hv : use.value with
    | none => simp [hv]
    | some v => simp [hv, h use v huse hv]

theorem moved_congr {srcs : List (Option UseId)}
    (h : ∀ u, some u ∈ srcs → a'.operand env' u = a.operand env u) :
    a'.moved env' srcs = a.moved env srcs := by
  unfold moved
  rw [List.flatMap_congr (g := fun s => (s.bind (a.operand env)).elim [] (·.lanes))]
  rintro (_ | u) hs
  · rfl
  · exact congrArg (fun o => Option.elim o [] (·.lanes)) (h u hs)

/-! ### Copies hold -/

theorem copiesHold_first {root : BlockId} (hroot : a.entryOf f = some root) :
    a.CopiesHold f root 0 env :=
  fun _ _ _ _ hd => absurd hd (not_doneBefore_entry hroot)

namespace Laid

variable (h : a.Laid f)

include h

/-- What the sources of a copy read is defined before the copy. -/
theorem moved_of_agree {p : Alu} (hb : a.Reachable f b)
    (hi : (a.body b)[k]? = some i) (hins : a.instrs[i.idx]? = some ins)
    (hact : ins.action = .alu p)
    (hsame : ∀ w x e, (a.scopeOf f).defined w → a.values[w.idx]? = some x → x.definedBy = some e →
      a.DoneBefore f e b k → env' w = env w) : a.moved env' p.srcs = a.moved env p.srcs := by
  refine moved_congr fun u hu => operand_congr fun use w huse hval => ?_
  have hphi : ins.isPhi = false := by simp [Instr.isPhi, hact]
  obtain ⟨use', w', x, e, huse', hval', hw, hx, hby, hdone, -⟩ :=
    h.read u b k hb (.source hi hins hphi (Instr.mem_sources_of_alu hact hu))
  cases huse.symm.trans huse'
  cases hval.symm.trans hval'
  exact hsame w x e hw hx hby hdone

/-- Copies go on to hold if the values that are defined already are not changed. -/
theorem copiesHold_of_agree (hb : a.Reachable f b) (hold : a.CopiesHold f b k env)
    (hsame : ∀ w x e, (a.scopeOf f).defined w → a.values[w.idx]? = some x → x.definedBy = some e →
      a.DoneBefore f e b k → env' w = env w) : a.CopiesHold f b k env' := by
  intro d ins p v hd hins hact hdest hmoves
  obtain ⟨home, m, hhome, hm⟩ := place_of_done hb hd
  have hdef : some v ∈ ins.definitions := by simp [Instr.definitions, hact, hdest]
  obtain ⟨hdefined, x, hx, hby⟩ := h.wired.value_of_definition (h.reachable home hhome)
    (List.mem_of_getElem? hm) hins hdef
  rw [hsame v x d hdefined hx hby hd, hold d ins p v hd hins hact hdest hmoves]
  refine (h.moved_of_agree hhome hm hins hact fun w x e hw hx hby he => ?_).symm
  exact hsame w x e hw hx hby (h.trans hb hd hhome hm he)

/-- An instruction changes no value that was defined before it. -/
theorem store_results (hb : a.Reachable f b) (hi : (a.body b)[k]? = some i)
    (hins : a.instrs[i.idx]? = some ins) (env : Env) (m : Meaning) (past : List Event) :
    ∀ w x e, (a.scopeOf f).defined w → a.values[w.idx]? = some x → x.definedBy = some e →
      a.DoneBefore f e b k → env.store (a.results m past env ins) w = env w := by
  intro w x e _ hx hby hdone
  refine Env.store_of_notMem fun y hy => ?_
  obtain ⟨-, x', hx', hby'⟩ := h.wired.value_of_definition (h.reachable b hb)
    (List.mem_of_getElem? hi) hins (mem_definitions_of_mem_results hy)
  cases hx.symm.trans hx'
  cases hby.symm.trans hby'
  exact h.irrefl hb hi hdone

theorem copiesHold_step (hb : a.Reachable f b) (hi : (a.body b)[k]? = some i)
    (hold : a.CopiesHold f b k env) (m : Meaning) (past : List Event) :
    a.CopiesHold f b (k + 1) (a.exec m (env, past) i).1 := by
  obtain ⟨ins, hins⟩ := h.wired.instr b (h.reachable b hb) i (List.mem_of_getElem? hi)
  have hexec : (a.exec m (env, past) i).1 = env.store (a.results m past env ins) := by
    simp [exec, hins]
  have hsame := h.store_results hb hi hins env m past
  rw [hexec]
  intro d dns p v hd hdns hact hdest hmoves
  rcases (doneBefore_succ hi).mp hd with hd | rfl
  · exact h.copiesHold_of_agree hb hold hsame d dns p v hd hdns hact hdest hmoves
  · cases hins.symm.trans hdns
    rw [h.moved_of_agree hb hi hins hact hsame]
    simp [Env.store, results, hact, hdest, hmoves]

theorem copiesHold_flow {t : BlockId} (hb : a.Reachable f b) (hbt : a.Flows b t)
    (hold : a.CopiesHold f b (a.body b).length env) (m : Meaning) :
    a.CopiesHold f t 0 (a.enter m b t env) := by
  have ht := hb.flow hbt
  have hold' : a.CopiesHold f t 0 env := fun d ins p v hd =>
    hold d ins p v (doneBefore_of_flows hbt hd)
  refine h.copiesHold_of_agree ht hold' fun w x e _ hx hby hdone => ?_
  -- A φ of the block is not done in front of it.
  refine Env.store_of_notMem fun y hy => ?_
  obtain ⟨i, hi, hmem⟩ := List.mem_flatMap.mp hy
  obtain ⟨ins, hins, hdef⟩ := mem_definitions_of_mem_merged hmem
  obtain ⟨-, x', hx', hby'⟩ := h.wired.value_of_definition (h.reachable t ht) hi hins hdef
  cases hx.symm.trans hx'
  cases hby.symm.trans hby'
  obtain ⟨k, hk⟩ := List.mem_iff_getElem?.mp hi
  refine h.irrefl ht hk (hdone.imp (fun hnil => ?_) id)
  simp at hnil

end Laid

/-! ### What a use reads -/

section Reads

variable {t : UseId}

@[simp] theorem lanesFit_code : a.code.LanesFit u n ↔ a.LanesFit u n := by
  unfold LanesFit
  rw [reads_code]
  constructor
  · rintro ⟨use', m, huse', hrest⟩
    rw [code_uses, Option.map_eq_some_iff] at huse'
    obtain ⟨use, huse, rfl⟩ := huse'
    exact ⟨use, m, huse, hrest⟩
  · rintro ⟨use, m, huse, hrest⟩
    exact ⟨use.bare, m, by rw [code_uses, huse]; rfl, hrest⟩

/-- A use reads the same if its own code and the kinds of instructions are the same. -/
theorem reads_modifyUse_of_ne (hg : ∀ use, (g use).user = use.user) (ht : t ≠ u) :
    (a.modifyUse u g).reads t = a.reads t := by
  have hvalue : (a.modifyUse u g).valueOf t = a.valueOf t := by
    unfold valueOf
    rw [use_modifyUse, if_neg ht]
  simp only [reads, aluPosition_modifyUse a hg, hvalue]
  rfl

theorem lanesFit_modifyUse_of_ne (hg : ∀ use, (g use).user = use.user)
    (ht : t ≠ u) : (a.modifyUse u g).LanesFit t n ↔ a.LanesFit t n := by
  unfold LanesFit
  rw [reads_modifyUse_of_ne hg ht, modifyUse_uses, if_neg ht]

theorem Loses.lanesFit_iff {gone : Finset InstrId} (h : Loses gone a a') :
    a'.LanesFit u n ↔ a.LanesFit u n := by
  rw [← lanesFit_code (a := a'), h.code, lanesFit_code]
  simp only [LanesFit, reads_relisted]
  rfl

theorem reads_of_none (hpos : a.aluPosition u = .ok none)
    (huse : a.uses[u.idx]? = some use) (hval : use.value = some v)
    (hx : a.values[v.idx]? = some x) : a.reads u = .ok x.comps := by
  unfold reads
  rw [hpos]
  simp [valueOf, Arena.use, value, present, huse, hval, hx]

theorem Turned.aluPosition {v : ValueId} {z : Swizzle} (ht : Turned a a' u v z) :
    a'.aluPosition t = a.aluPosition t := by
  rw [← aluPosition_code a', show a'.code = _ from ht,
    aluPosition_modifyUse _ (by exact fun _ => rfl), aluPosition_code]

end Reads

/-! ### The lanes of a copy -/

theorem reads_of_alu (huse : a.uses[u.idx]? = some use)
    (huser : use.user = some i) (hins : a.instrs[i.idx]? = some ins) (hact : ins.action = .alu p)
    (hu : some u ∈ p.srcs) :
    ∃ k < p.srcs.length, a.aluPosition u = .ok (some (p, k)) ∧ a.reads u = a.sourceWidth p k := by
  obtain ⟨k, hk⟩ : ∃ k, p.srcs.findIdx? (· = some u) = some k :=
    Option.isSome_iff_exists.mp (by simpa using hu)
  have hpos : a.aluPosition u = .ok (some (p, k)) := by
    simp [aluPosition, Arena.use, instr, huse, huser, hins, Instr.alu?, hact, hk, present]
  refine ⟨k, (List.findIdx?_eq_some_iff_findIdx_eq.mp hk).1, hpos, ?_⟩
  unfold reads
  rw [hpos]
  rfl

theorem sourceWidth_of_mov (hfits : a.AluFits p) (hop : p.op = .mov)
    (hdest : p.dest = some d) (hx : a.values[d.idx]? = some x) :
    p.srcs.length = 1 ∧ a.sourceWidth p 0 = .ok x.comps := by
  obtain ⟨info, hinfo, hlen, -⟩ := hfits
  have hmov : AluOp.mov.info = .ok ⟨"mov", [0], 0⟩ := rfl
  rw [hop, hmov] at hinfo
  cases hinfo
  refine ⟨hlen, ?_⟩
  simp [sourceWidth, hop, hmov, ShaderCompiler.entry, hdest, hx, value, present]

/-- A gathering operation reads one lane of each source. -/
theorem info_of_isGather {op : AluOp} (h : op.isGather = true) :
    ∃ info, op.info = .ok info ∧ info.inputs = List.replicate info.output 1 ∧ info.output ≠ 0
      ∧ info.output ≤ 16 := by
  obtain ⟨code⟩ := op
  simp only [AluOp.isGather, Bool.and_eq_true, decide_eq_true_eq] at h
  obtain ⟨hlo, hhi⟩ := h
  interval_cases code <;> exact ⟨_, rfl, rfl, by decide, by decide⟩

theorem sourceWidth_of_gather (hfits : a.AluFits p)
    (hop : p.op.isGather = true) (hdest : p.dest = some d) (hx : a.values[d.idx]? = some x) :
    p.srcs.length = x.comps ∧ ∀ k < p.srcs.length, a.sourceWidth p k = .ok 1 := by
  obtain ⟨info, hinfo, hlen, hout⟩ := hfits
  obtain ⟨info', hinfo', hinputs, hne, -⟩ := info_of_isGather hop
  cases hinfo.symm.trans hinfo'
  obtain ⟨d', x', hd', hx', hcomps⟩ := hout hne
  cases hdest.symm.trans hd'
  cases hx.symm.trans hx'
  rw [hinputs, List.length_replicate] at hlen
  refine ⟨hlen.trans hcomps.symm, fun k hk => ?_⟩
  have hentry : info.inputs[k]? = some 1 := by
    rw [hinputs, List.getElem?_replicate, if_pos (hlen ▸ hk)]
  simp [sourceWidth, hinfo, hentry]

/-- The sources of an arithmetic instruction belong to it and read values. -/
def SourcesOf (a : Arena) (i : InstrId) (p : Alu) : Prop :=
  (∃ ins, a.instrs[i.idx]? = some ins ∧ ins.action = .alu p) ∧ ∀ s ∈ p.srcs, ∃ u use w,
    s = some u ∧ a.uses[u.idx]? = some use ∧ use.value = some w ∧ use.user = some i

theorem operand_of_reads {w : ValueId} (huse : a.uses[u.idx]? = some use)
    (hval : use.value = some w) (hn : a.reads u = .ok n) (env : Env) : a.operand env u
      = some ⟨use.absolute, use.negated, (use.swizzle.toList.take n).map (env w)⟩ := by
  simp [operand, huse, hval, hn, Except.toOption]

/-- Where a lane of a copy comes from: the lane is one that a source reads. -/
theorem laneOf_spec (hfits : a.AluFits p) (hsrcs : a.SourcesOf i p)
    (hop : p.op = .mov ∨ p.op.isGather = true) (hdest : p.dest = some d)
    (hx : a.values[d.idx]? = some x) {lane target : Nat} (hlane : lane < x.comps)
    (hl : a.laneOf p lane = some (v, target)) :
    (∃ u use n, some u ∈ p.srcs ∧ a.uses[u.idx]? = some use ∧ use.value = some v
      ∧ a.reads u = .ok n ∧ target ∈ use.swizzle.toList.take n)
      ∧ ∀ env, a.moved env p.srcs lane = env v target := by
  obtain ⟨⟨ins, hins, hact⟩, hsrcs⟩ := hsrcs
  unfold laneOf at hl
  simp only [Option.bind_eq_bind, Option.bind_eq_some_iff, Option.pure_def, Option.some.injEq,
    Prod.mk.injEq] at hl
  obtain ⟨s, hs, u, rfl, use, huse, w, hval, target', htarget, rfl, rfl⟩ := hl
  have hmem := List.mem_of_getElem? hs
  obtain ⟨_, use', w', heq, huse', hval', huser⟩ := hsrcs _ hmem
  cases heq
  cases huse.symm.trans huse'
  cases hval.symm.trans hval'
  obtain ⟨j, hj, -, hreads⟩ := reads_of_alu huse huser hins hact hmem
  by_cases hmov : p.op = .mov
  · simp only [hmov, if_true] at hs htarget
    obtain ⟨hlen, hwidth⟩ := sourceWidth_of_mov hfits hmov hdest hx
    obtain rfl : j = 0 := by omega
    rw [hwidth] at hreads
    have hget : (use.swizzle.toList.take x.comps)[lane]? = some target' := by
      rw [List.getElem?_take, if_pos hlane, Vector.getElem?_toList, htarget]
    refine ⟨⟨u, use, x.comps, hmem, huse, hval, hreads, List.mem_of_getElem? hget⟩, fun env => ?_⟩
    have hsingle : p.srcs = [some u] := by
      obtain ⟨s, hs'⟩ := List.length_eq_one_iff.mp hlen
      rw [hs'] at hs ⊢
      simpa using hs
    have hmoved : a.moved env p.srcs lane
        = ((use.swizzle.toList.take x.comps).map (env w)).getD lane 0 := by
      simp only [moved, hsingle, List.flatMap_singleton, Option.bind_some,
        operand_of_reads huse hval hreads, Option.elim_some]
    rw [hmoved, List.getD_eq_getElem?_getD, List.getElem?_map, hget]
    rfl
  · have hgather := hop.resolve_left hmov
    simp only [hmov, if_false] at hs htarget
    obtain ⟨hlen, hwidth⟩ := sourceWidth_of_gather hfits hgather hdest hx
    rw [hwidth j hj] at hreads
    have htake (z : Swizzle) : z.toList.take 1 = [z[0]] := by
      rw [List.take_one, List.head?_eq_getElem?, Vector.getElem?_toList]
      simp
    obtain rfl : use.swizzle[0] = target' := by simpa using htarget
    refine ⟨⟨u, use, 1, hmem, huse, hval, hreads, by simp [htake]⟩, fun env => ?_⟩
    -- Every source contributes one lane, so lanes and sources correspond.
    let lanesOf : Option UseId → List UInt64 := fun s => (s.bind (a.operand env)).elim [] (·.lanes)
    have hone : ∀ s ∈ p.srcs, lanesOf s = [(lanesOf s).headD 0] := by
      intro s hs
      obtain ⟨u, use, w, rfl, huse, hval, huser⟩ := hsrcs s hs
      obtain ⟨j, hj, -, hreads⟩ := reads_of_alu huse huser hins hact hs
      rw [hwidth j hj] at hreads
      simp [lanesOf, operand_of_reads huse hval hreads, htake]
    have hmoved : a.moved env p.srcs lane = (p.srcs.map fun s => (lanesOf s).headD 0).getD lane 0 := by
      rw [List.map_eq_flatMap]
      exact congrArg (fun l => List.getD l lane 0) (List.flatMap_congr hone)
    rw [hmoved, List.getD_eq_getElem?_getD, List.getElem?_map, hs]
    simp [lanesOf, operand_of_reads huse hval hreads, htake]

theorem all_isPlain_of_anyModified {l : List (Option UseId)} (h : a.anyModified l = .ok false) :
    l.all a.isPlain = true := by
  induction l with
  | nil => rfl
  | cons s l ih =>
    simp only [anyModified, except_bind_eq_ok, present_eq_ok, use_eq_ok] at h
    obtain ⟨u, rfl, use, huse, h⟩ := h
    split at h
    case isTrue => simp at h
    case isFalse hplain =>
      simp only [Bool.or_eq_true, not_or, Bool.not_eq_true] at hplain
      rw [List.all_cons, ih h]
      simp [isPlain, huse, hplain]

/-- What is found to be a copy only moves lanes. -/
theorem movesLanes_of_isCopy (hfits : a.AluFits p) (h : a.isCopy p = .ok true) :
    a.movesLanes p = true ∧ (p.op = .mov ∨ p.op.isGather = true) := by
  unfold isCopy at h
  unfold movesLanes
  split at h
  case isTrue => simp at h
  case isFalse hsat =>
    split at h
    case isTrue hmov =>
      simp only [except_bind_eq_ok, entry_eq_ok, present_eq_ok, use_eq_ok, except_pure_eq_ok,
        Bool.and_eq_true, Bool.not_eq_true'] at h
      obtain ⟨s, hs, u, rfl, use, huse, habs, hneg⟩ := h
      obtain ⟨info, hinfo, hlen, -⟩ := hfits
      have hrow : AluOp.mov.info = .ok ⟨"mov", [0], 0⟩ := rfl
      rw [hmov, hrow] at hinfo
      cases hinfo
      obtain ⟨s', hs'⟩ := List.length_eq_one_iff.mp hlen
      obtain rfl : s' = some u := by simpa [hs'] using hs
      exact ⟨by simp [hsat, hmov, hs', isPlain, huse, habs, hneg], .inl hmov⟩
    case isFalse hmov =>
      split at h
      case isTrue hgather =>
        simp only [except_bind_eq_ok, except_pure_eq_ok, Bool.not_eq_true'] at h
        obtain ⟨r, hr, rfl⟩ := h
        exact ⟨by simp [hsat, hgather, all_isPlain_of_anyModified hr], .inr hgather⟩
      case isFalse => simp at h

end Arena

end ShaderCompiler
