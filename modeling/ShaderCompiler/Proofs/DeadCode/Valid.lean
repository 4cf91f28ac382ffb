import ShaderCompiler.Proofs.DeadCode.Remains
import ShaderCompiler.Proofs.Passes.Orderly

/-!
# Removing dead code keeps functions valid

A scan marks the definitions of whatever it marks, if readings that the check does not look at
come behind their definitions. So what is left reads nothing that was taken out, and the function
passes the check again.
-/

namespace ShaderCompiler

namespace Arena

variable {a a' : Arena} {V : ValueId → Prop} {U : UseId → Prop} {S T : Scope} {e f : FunctionId}
  {g g' : Function} {region r : Region} {s : LiveSet} {live : Finset InstrId} {b : BlockId}
  {d i : InstrId} {u : UseId} {v : ValueId}

/-! ### Use-lists -/

namespace Swept

section Lists

variable (h : Swept V U a region live a') (hlists : a.UseLists V U)

include h hlists

/-- A use that is still listed was listed by the same value. -/
theorem listed_before (hv : V v) {x' : Value} (hx' : a'.values[v.idx]? = some x') {c : Bool}
    {k : Nat} (hk : (x'.usesOf c)[k]? = some u) : a'.Attached u ∧ ∃ use x, ∃ m : Nat,
      a.uses[u.idx]? = some use ∧ a'.uses[u.idx]? = some { use with slot := some k }
        ∧ a.values[v.idx]? = some x ∧ (x.usesOf c)[m]? = some u := by
  obtain ⟨use', huse', hslot', hval', hguards'⟩ := h.useLists.entry v x' hv hx' c k u hk
  obtain ⟨use, w, x, huse, hval, -, hx, hlisted⟩ :=
    hlists.slot u (h.useLists.member v x' hv hx' c u (List.mem_of_getElem? hk))
  obtain ⟨m, huse''⟩ := h.use_eq huse
  cases huse'.symm.trans huse''
  obtain rfl : w = v := Option.some.inj (hval.symm.trans hval')
  obtain rfl : m = some k := hslot'
  have hatt : a'.Attached u := ⟨_, huse', rfl⟩
  obtain ⟨⟨use₀, huse₀, hsome⟩, -⟩ := (h.attached u).mp hatt
  cases huse.symm.trans huse₀
  obtain ⟨m, hm⟩ := Option.isSome_iff_exists.mp hsome
  exact ⟨hatt, use, x, m, huse, huse', hx, hguards' ▸ hlisted m hm⟩

/-- What is still listed is a source or a condition as before. -/
theorem listsFit {branches : List (ConstructId × Option BlockId)} (hv : V v)
    (hfit : a.ListsFit branches v) : a'.ListsFit branches v := by
  obtain ⟨x, hx, huses, hconditions⟩ := hfit
  obtain ⟨l, m, hx'⟩ := value_of_values h.values hx
  refine ⟨_, hx', fun u k hk => ?_, fun u k hk => ?_⟩
  · obtain ⟨hatt, use, x₀, k', huse, huse', hx₀, hk'⟩ := h.listed_before hlists hv hx' (c := false) hk
    cases hx.symm.trans hx₀
    obtain ⟨use₀, i, ins, huse₀, -, huser, hins, hblock, hsrc⟩ := huses u k' hk'
    cases huse.symm.trans huse₀
    -- The instruction that reads it was not taken out, or the use would not be listed.
    have hi : i ∉ a.deadIn region.preorder.toFinset live := fun hdead =>
      ((h.attached u).mp hatt).2 i hdead ins hins hsrc
    obtain ⟨n, l, hins'⟩ := h.instr_of_notMem hi hins
    exact ⟨_, i, _, huse', rfl, huser, hins', hblock, hsrc⟩
  · obtain ⟨-, use, x₀, k', huse, huse', hx₀, hk'⟩ := h.listed_before hlists hv hx' (c := true) hk
    cases hx.symm.trans hx₀
    obtain ⟨use₀, c, huse₀, -, hguards, hc⟩ := hconditions u k' hk'
    cases huse.symm.trans huse₀
    exact ⟨_, c, huse', rfl, hguards, hc⟩

end Lists

/-! ### The rules -/

/-- Taking out dead code sees to what a pass has to see to for a function, if the definitions of
what the function still reads are left. -/
theorem upholds (h : Swept V U a region live a') (hp : a.Prunable V U T f g region s)
    (hr : a.Obeys e g' r) (hh : a.Homed (a.scopeOf e)) (hV : ∀ v, (a.scopeOf e).defined v → V v)
    (hU : ∀ u, a.Reads (a.scopeOf e) u → U u)
    (hstands : ∀ u, a'.Reads (a.scopeOf e) u → ∀ use v, a.uses[u.idx]? = some use →
      use.value = some v → ∃ d, a'.StandsFor e d v) : Upholds a a' e r where
  evolves := h.evolves
  place := (h.homed hr.wired (h.notMem_dead hp hr.wired hh) hh).place
  stands u hu use' v huse' hval := by
    obtain ⟨use, huse, hval₀⟩ := h.exists_use huse' hval
    exact hstands u hu use v huse hval₀
  lanes b hb i hi ins' hins' u hu use' v x' huse' hval hx' := by
    obtain ⟨hib, ins, hins, hact, hind⟩ := h.evolves.exists_before hr.wired hb hi hins'
    obtain ⟨use, huse, hval₀⟩ := h.exists_use huse' hval
    obtain ⟨l, m, hx⟩ := value_of_values h.values.symm hx'
    have hfit := hr.readings.lanes b hb i hib ins hins u (Instr.sources_congr hact hind ▸ hu) use v _
      huse hval₀ hx
    rwa [h.lanesFit_iff]
  order u b reader hasked _ use' v d huse' hval hd hreach := by
    obtain ⟨use, huse, hval₀⟩ := h.exists_use huse' hval
    exact hr.readings.order u b reader hasked use v d huse hval₀
      (h.evolves.standsFor hr.function hr.wired hd) hreach
  listed u hu := by
    have hatt (hread : a.Reads (a.scopeOf e) u) : a.Attached u := by
      obtain ⟨use, -, -, k, huse, -, -, hslot, -⟩ := hr.listed u hread
      exact ⟨use, huse, by simp [hslot]⟩
    obtain ⟨hread, use, huse, hsome⟩ := (h.reads_iff_attached hp hr.wired hh hatt).mp hu
    obtain ⟨use', v, x, huse', hval, -, hx, hlisted⟩ := h.useLists.slot u (hU u hread)
    cases huse.symm.trans huse'
    obtain ⟨k, hk⟩ := Option.isSome_iff_exists.mp hsome
    exact ⟨use, v, x, k, huse, hval, hx, hk, hlisted k hk⟩
  lists v hv := by
    obtain ⟨d, hd⟩ := defined_iff_standsFor.mp hv
    have hv₀ := defined_iff_standsFor.mpr ⟨d, h.evolves.standsFor hr.function hr.wired hd⟩
    exact h.listsFit hp.lists (hV v hv₀) (hr.lists v hv₀)

end Swept

/-- What is left of a function that was swept reads values that are defined by what is left. -/
theorem Checked.stands_of_swept {a₁ : Arena} {tree : Dominance} {defs : Edit.Definitions}
    {always : Bool} (hc : a.Checked f a₁ g region tree defs) (hempty : a.FinishEmpty f)
    (hp : a.Prunable V U T f g region s)
    (hfinds : a.outline.Finds region (a.scanned always region s))
    (h : Swept V U a region (a.scanned always region s).instrs a')
    (hu : a'.Reads (a.scopeOf f) u) {use : Use} (huse : a.uses[u.idx]? = some use)
    (hval : use.value = some v) : ∃ d, a'.StandsFor f d v := by
  have hread := h.reads_of_reads hu
  obtain ⟨d, home, hhome, hd, dns, hdns, hdef⟩ :=
    defined_iff_standsFor.mp (hc.wired.defined_of_reads hread huse hval)
  have hregion := hc.mem_preorder_of_mem_body hempty hhome hd
  obtain ⟨-, x, hx, -⟩ := hc.wired.value_of_definition hhome hd hdns hdef
  have hlive : d ∈ (a.scanned always region s).instrs := by
    rcases hu with ⟨b, hb, j, hj, jns', hjns', hmem⟩ | ⟨c, hcS, con, yes, no, hcon, hshape⟩
    · obtain ⟨hjb, jns, hjns, n, l, hjns''⟩ := h.exists_instr hp hc.wired hc.homed hb hj
      cases hjns'.symm.trans hjns''
      have hjlive := (h.mem_body_iff.mp hj).2 (hc.mem_preorder_of_mem_body hempty hb hjb)
      exact mem_scanned_of_source hfinds huse hval hregion hd hdns hdef hx hjlive hjns hmem
    · rw [hc.scope_ifs, ← Region.ifs_eq_branches] at hcS
      exact mem_scanned_of_condition hfinds huse hval hregion hd hdns hdef hx hcS
        (h.constructs ▸ hcon) hshape
  obtain ⟨dns', hdns', hact, -⟩ := h.exists_action hdns
  refine ⟨d, home, ?_, h.mem_body_iff.mpr ⟨hd, fun _ => hlive⟩, dns', hdns',
    Instr.definitions_congr hact ▸ hdef⟩
  rwa [h.evolves.scope_blocks (S := a.scopeOf f) hc.function]

/-! ### Functions stay in order -/

namespace Swept

variable {always : Bool} {a₁ : Arena} {tree : Dominance} {defs : Edit.Definitions}
  (h : Swept V U a region (a.scanned always region s).instrs a')
  (hp : a.Prunable V U T f g region s) (hc : a.Checked e a₁ g' r tree defs)
  (hV : ∀ v, (a.scopeOf e).defined v → V v)

include h

/-- Jumps have an effect, so they are left. -/
theorem mem_body_of_jump (hi : i ∈ a.body b)
    {ins : Instr} {kind : JumpKind} (hins : a.instrs[i.idx]? = some ins)
    (hact : ins.action = .jump kind) : i ∈ a'.body b := by
  refine h.mem_body_iff.mpr ⟨hi, fun hb => (covers_scanned always).1 i ⟨b, hb, hi⟩ ?_⟩
  simp [outline, hins, Instr.hasEffect, hact]

include hp hc hV

/-- A function passes the check again and stays in order, if the definitions of what it still
reads are left. -/
theorem keeps (hs : a.Sweepable e) (hU : ∀ u, a.Reads (a.scopeOf e) u → U u)
    (hstands : ∀ u, a'.Reads (a.scopeOf e) u → ∀ use v, a.uses[u.idx]? = some use →
      use.value = some v → ∃ d, a'.StandsFor e d v) :
    Upholds a a' e r ∧ a'.Accepted e ∧ a'.Sweepable e := by
  have hr := hc.obeys hs.edges hs.distinct
  have hw := hc.flowsWithin hs.edges
  have hup := h.upholds hp hr hc.homed hV hU hstands
  refine ⟨hup, hup.accepted hr hw hs.distinct, hup.sweepable hr hs ?_ ?_ ?_ hw⟩
  · intro b hb i hi ins kind hins hact
    exact h.mem_body_of_jump hi hins hact
  · intro u b k hun _ use' v d huse' hval hd
    obtain ⟨use, huse, hval₀⟩ := h.exists_use huse' hval
    exact hs.unchecked u b k hun use v d huse hval₀ (hup.evolves.standsFor hr.function hr.wired hd)
  · intro v hv x hx c u hu
    obtain ⟨k, hk⟩ := List.mem_iff_getElem?.mp hu
    have hv₀ := hup.defined_of_defined hr (definedBy_singleton.mp hv)
    obtain ⟨use, huse, -, hval, hguards⟩ := h.useLists.entry v x (hV v hv₀) hx c k u hk
    exact ⟨use, huse, hval, hguards⟩

/-- What is still listed is still read, if all that was listed was read. -/
theorem listsOwn (hr : a.Obeys e g' r) (hown : a.ListsOwn [a.scopeOf e]) :
    a'.ListsOwn [a'.scopeOf e] := by
  intro v hv x' hx' c u hu
  obtain ⟨d, hd⟩ := defined_iff_standsFor.mp (definedBy_singleton.mp hv)
  have hv₀ := defined_iff_standsFor.mpr ⟨d, h.evolves.standsFor hr.function hr.wired hd⟩
  obtain ⟨k, hk⟩ := List.mem_iff_getElem?.mp hu
  obtain ⟨hatt', use, x, m, huse, -, hx, hm⟩ := h.listed_before hp.lists (hV v hv₀) hx' hk
  obtain ⟨S, hS, hread⟩ :=
    hown v (definedBy_singleton.mpr hv₀) x hx c u (List.mem_of_getElem? hm)
  obtain rfl := List.mem_singleton.mp hS
  have hread' : a'.Reads (a.scopeOf e) u := (h.reads_iff_attached hp hr.wired hc.homed fun _ =>
    ((h.attached u).mp hatt').1).mpr ⟨hread, hatt'⟩
  refine ⟨a'.scopeOf e, List.mem_singleton_self _, ?_⟩
  unfold Reads at hread' ⊢
  rwa [h.evolves.scope_blocks (S := a.scopeOf e) hr.function,
    h.evolves.scope_ifs (S := a.scopeOf e) hr.function]

end Swept

end Arena

end ShaderCompiler
