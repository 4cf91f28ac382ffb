import ShaderCompiler.Proofs.DeadCode.Valid
import ShaderCompiler.Proofs.Forwarding.Order

/-!
# Functions that a pass does not work on

A pass works on one function at a time. Another function shares neither instructions nor values
with it, so its code is left alone. All that can change are the places that its uses have in
use-lists, since these are arrays from which entries are taken out by a swap.
-/

namespace ShaderCompiler

namespace Arena

variable {a a' : Arena} {e f : FunctionId} {g : Function} {region r : Region} {S T : Scope}
  {V : ValueId → Prop} {U : UseId → Prop} {b : BlockId} {i : InstrId} {u : UseId} {v : ValueId}

/-- A scope is left alone: its instructions stand where they stood, and what it reads is the same,
apart from the places in use-lists. -/
structure Spares (S : Scope) (a a' : Arena) : Prop where
  evolves : Evolves S a a'
  body : ∀ b ∈ S.blocks, a'.body b = a.body b
  instr : ∀ b ∈ S.blocks, ∀ i ∈ a.body b, ∀ ins, a.instrs[i.idx]? = some ins →
    ∃ n l, a'.instrs[i.idx]? = some { ins with index := n, live := l }
  use : ∀ u, a.Reads S u → (∀ use, a.uses[u.idx]? = some use →
    ∃ k, a'.uses[u.idx]? = some { use with slot := k }) ∧ ∀ n, a'.LanesFit u n ↔ a.LanesFit u n

theorem Spares.of_code (hcode : a'.code = a.code) : Spares S a a' where
  evolves := .of_code hcode
  body b _ := by rw [body_of_code hcode]
  instr b _ i _ ins hins := instr_of_code hcode hins
  use u _ := ⟨fun use huse => use_of_code hcode huse, fun n => by
    rw [← lanesFit_code (a := a'), hcode, lanesFit_code]⟩

theorem Spares.reads_iff (h : Spares S a a') (hw : a.Wired S) : a'.Reads S u ↔ a.Reads S u := by
  refine or_congr ⟨?_, ?_⟩ (by rw [h.evolves.constructs])
  · rintro ⟨b, hb, i, hi, ins', hins', hmem⟩
    rw [h.body b hb] at hi
    obtain ⟨ins, hins⟩ := hw.instr b hb i hi
    obtain ⟨n, l, hins''⟩ := h.instr b hb i hi ins hins
    cases hins'.symm.trans hins''
    exact ⟨b, hb, i, hi, ins, hins, hmem⟩
  · rintro ⟨b, hb, i, hi, ins, hins, hmem⟩
    obtain ⟨n, l, hins'⟩ := h.instr b hb i hi ins hins
    exact ⟨b, hb, i, h.body b hb ▸ hi, _, hins', hmem⟩

theorem Spares.trans {a₁ a₂ a₃ : Arena} (h : Spares S a₁ a₂) (h' : Spares S a₂ a₃)
    (hw : a₁.Wired S) : Spares S a₁ a₃ where
  evolves := h.evolves.trans h'.evolves
  body b hb := (h'.body b hb).trans (h.body b hb)
  instr b hb i hi ins hins := by
    obtain ⟨n, l, hins₂⟩ := h.instr b hb i hi ins hins
    obtain ⟨n', l', hins₃⟩ := h'.instr b hb i (h.body b hb ▸ hi) _ hins₂
    exact ⟨n', l', hins₃⟩
  use u hu := by
    obtain ⟨huse, hlanes⟩ := h.use u hu
    obtain ⟨huse', hlanes'⟩ := h'.use u ((h.reads_iff hw).mpr hu)
    refine ⟨fun use hu => ?_, fun n => (hlanes' n).trans (hlanes n)⟩
    obtain ⟨k, hk⟩ := huse use hu
    obtain ⟨k', hk'⟩ := huse' _ hk
    exact ⟨k', hk'⟩

/-- A scope that shares neither values nor instructions with the one that a run works on is
spared. -/
theorem Forwards.spares (h : Forwards [T] U a a') (hwT : a.Wired T) (hw : a.Wired S)
    (hh : a.Homed S) (hvalues : ∀ v, T.defined v → ¬ S.defined v)
    (hblocks : ∀ b ∈ T.blocks, ∀ i ∈ a.body b, b ∉ S.blocks) : Spares S a a' := by
  induction h with
  | refl => exact .of_code rfl
  | @tail x y hsteps hstep ih =>
    refine ih.trans ?_ hw
    have hwx : x.Wired S := hw.evolve ih.evolves
    cases hstep with
    | @turn i c p d w t tuse z hs hi htuse htval hf ho ht =>
      obtain ⟨hd, -⟩ := hs.dest hi
      have hnot : ¬ S.defined d := hvalues d (definedBy_singleton.mp hd)
      have hne {u : UseId} (hu : x.Reads S u) : u ≠ t := by
        rintro rfl
        exact hnot (hwx.defined_of_reads hu htuse htval)
      refine ⟨.turned ht fun use' w' huse' hw' hdef => ?_, fun b _ => by rw [body_of_blocks ht.blocks],
        fun b _ i _ ins hins => instr_of_instrs ht.instrs hins,
        fun u hu => ⟨fun use huse => ht.use_other (hne hu) huse, fun n => ?_⟩⟩
      · cases htuse.symm.trans huse'
        cases htval.symm.trans hw'
        exact absurd hdef hnot
      · rw [← lanesFit_code (a := y), show y.code = _ from ht,
          lanesFit_modifyUse_of_ne (by exact fun _ => rfl) (hne hu), lanesFit_code]
    | @take i c p d xx hs hi hx hfree hcode =>
      obtain ⟨T', hT', hc, hmem, ins, hins, hblock, -⟩ := hi
      obtain rfl := List.mem_singleton.mp hT'
      obtain ⟨cb, hcb⟩ := hwT.block c hc
      have hmem₀ := ((Forwards.evolves hsteps).body_sublist hcb).subset hmem
      have hcS := hblocks c hc i hmem₀
      have hne {b : BlockId} (hb : b ∈ S.blocks) : b ≠ c := fun heq => hcS (heq ▸ hb)
      have hloses := Loses.of_without hcode
      refine ⟨hloses.evolves, fun b hb => ?_,
        fun b hb j hj jns hjns => ?_, fun u _ => ⟨fun use huse => use_of_code hcode huse, fun n => ?_⟩⟩
      · rw [body_of_code hcode, body_without, if_neg (hne hb)]
      · -- It stands in another block, so it is not the one that is taken out.
        have hji : j ≠ i := by
          rintro rfl
          obtain ⟨ins₀, hins₀⟩ := hw.instr b hb j (ih.body b hb ▸ hj)
          obtain ⟨n, l, hins₁⟩ := ih.instr b hb j (ih.body b hb ▸ hj) ins₀ hins₀
          cases hins.symm.trans hins₁
          rw [hh.place b hb j (ih.body b hb ▸ hj) ins₀ hins₀, Option.some.injEq] at hblock
          exact hne hb hblock
        exact hloses.instr_of_notMem (by simpa using hji) hjns
      · exact hloses.lanesFit_iff
    | same hcode => exact .of_code hcode

/-- A scope whose instructions stand outside the region that dead code is taken out of is
spared. -/
theorem Swept.spares {s : LiveSet} {live : Finset InstrId} (h : Swept V U a region live a')
    (hp : a.Prunable V U T f g region s) (hw : a.Wired S) (hh : a.Homed S)
    (hblocks : ∀ b ∈ S.blocks, ∀ i ∈ a.body b, b ∉ region.preorder) : Spares S a a' := by
  have hbody {b : BlockId} (hb : b ∈ S.blocks) {i : InstrId} (hi : i ∈ a.body b) :
      a'.body b = a.body b :=
    h.body_eq_of_notMem (hblocks b hb i hi)
  refine ⟨h.evolves, fun b hb => ?_, fun b hb i hi ins hins => ?_,
    fun u _ => ⟨fun use huse => h.use_eq huse, fun n => h.lanesFit_iff⟩⟩
  · cases hnil : a.body b with
    | nil => exact List.sublist_nil.mp (hnil ▸ h.sublist b)
    | cons i l =>
      rw [← hnil]
      exact hbody hb (hnil ▸ List.mem_cons_self)
  · exact h.instr_of_notMem (h.notMem_dead hp hw hh b hb i (hbody hb hi ▸ hi)) hins

/-! ### Functions that were spared -/

namespace Spares

variable (h : Spares (a.scopeOf e) a a') (hr : a.Obeys e g r)

include h hr

theorem exists_use (hu : a.Reads (a.scopeOf e) u) {use' : Use} (huse' : a'.uses[u.idx]? = some use') :
    ∃ use, a.uses[u.idx]? = some use ∧ use.value = use'.value := by
  obtain ⟨use, -, -, -, huse, -⟩ := hr.listed u hu
  obtain ⟨k, hk⟩ := (h.use u hu).1 use huse
  cases huse'.symm.trans hk
  exact ⟨use, huse, rfl⟩

theorem standsFor_iff {d : InstrId} : a'.StandsFor e d v ↔ a.StandsFor e d v := by
  refine ⟨h.evolves.standsFor hr.function hr.wired, ?_⟩
  rintro ⟨home, hhome, hd, dns, hdns, hdef⟩
  obtain ⟨n, l, hdns'⟩ := h.instr home hhome d hd dns hdns
  refine ⟨home, ?_, h.body home hhome ▸ hd, _, hdns', hdef⟩
  rwa [h.evolves.scope_blocks (S := a.scopeOf e) hr.function]

theorem place (hh : a.Homed (a.scopeOf e)) : ∀ b ∈ (a.scopeOf e).blocks, ∀ i ∈ a'.body b, ∀ ins,
    a'.instrs[i.idx]? = some ins → ins.block = some b := by
  intro b hb i hi ins' hins'
  rw [h.body b hb] at hi
  obtain ⟨ins, hins⟩ := hr.wired.instr b hb i hi
  obtain ⟨n, l, hins''⟩ := h.instr b hb i hi ins hins
  cases hins'.symm.trans hins''
  exact hh.place b hb i hi ins hins

/-- A function that was spared keeps the rules if use-lists still fit. -/
theorem upholds (hh : a.Homed (a.scopeOf e))
    (hlisted : ∀ u, a'.Reads (a.scopeOf e) u → a'.Listed u)
    (hlists : ∀ v, (a.scopeOf e).defined v → a'.ListsFit (r.branches none) v) :
    Upholds a a' e r := by
  refine ⟨h.evolves, h.place hr hh, fun u hu use' v huse' hval => ?_,
    fun b hb i hi ins' hins' u hu use' v x' huse' hval hx' => ?_,
    fun u b reader hasked hu use' v d huse' hval hd hreach => ?_, hlisted, fun v hv => ?_⟩
  · have hu₀ := (h.reads_iff hr.wired).mp hu
    obtain ⟨use, huse, hsame⟩ := h.exists_use hr hu₀ huse'
    obtain ⟨d, hd⟩ := defined_iff_standsFor.mp
      (hr.wired.defined_of_reads hu₀ huse (hsame.trans hval))
    exact ⟨d, (h.standsFor_iff hr).mpr hd⟩
  · have hu₀ := (h.reads_iff hr.wired).mp (.inl ⟨b, hb, i, hi, ins', hins', hu⟩)
    obtain ⟨use, huse, hsame⟩ := h.exists_use hr hu₀ huse'
    obtain ⟨x, hx⟩ := hr.wired.value v (hr.wired.defined_of_reads hu₀ huse (hsame.trans hval))
    obtain ⟨-, hcomps, -⟩ := h.evolves.value_eq hx hx'
    obtain ⟨hi₀, ins, hins, hact, hind⟩ := h.evolves.exists_before hr.wired hb hi hins'
    rw [hcomps, (h.use u hu₀).2]
    exact hr.readings.lanes b hb i hi₀ ins hins u (Instr.sources_congr hact hind ▸ hu) use v x huse
      (hsame.trans hval) hx
  · obtain ⟨use, huse, hsame⟩ := h.exists_use hr ((h.reads_iff hr.wired).mp hu) huse'
    exact hr.readings.order u b reader hasked use v d huse (hsame.trans hval)
      ((h.standsFor_iff hr).mp hd) hreach
  · obtain ⟨d, hd⟩ := defined_iff_standsFor.mp hv
    exact hlists v (defined_iff_standsFor.mpr ⟨d, (h.standsFor_iff hr).mp hd⟩)

omit hr in
/-- A function that was spared passes the check again and stays in order. -/
theorem keeps (hacc : a.Accepted e) (ho : a.Orderly e)
    (hlisted : ∀ u, a'.Reads (a.scopeOf e) u → a'.Listed u)
    (hexact : a'.ListsExact (a.scopeOf e)) : a'.Accepted e ∧ a'.Orderly e := by
  obtain ⟨_, g, r, _, _, hc⟩ := hacc.checked
  have hr := hc.obeys ho.edges ho.distinct
  have hw := hc.flowsWithin ho.edges
  have hup := h.upholds hr hc.homed hlisted fun v => hexact.listsFit (hr.wired.evolve h.evolves)
    (h.place hr hc.homed) (scopeOf_ifs hr.bodyRegion)
  refine ⟨hup.accepted hr hw ho.distinct, hup.sweepable hr ho.toSweepable
    (fun b hb i hi _ _ _ _ => h.body b hb ▸ hi) (fun u b k hun hu use' v d huse' hval hd => ?_)
    (hexact.listsRead h.evolves hr.function hr.wired) hw,
    hexact.listsOwn h.evolves hr.function hr.wired, hup.valuesHaveLanes hr ho.wide⟩
  obtain ⟨use, huse, hsame⟩ := h.exists_use hr ((h.reads_iff hr.wired).mp hu) huse'
  exact ho.unchecked u b k hun use v d huse (hsame.trans hval) ((h.standsFor_iff hr).mp hd)

end Spares

/-! ### Arenas with the same code -/

/-- Two arenas differ in numbers, verdicts, analyses and counters at most. -/
structure Renumbered (a a' : Arena) : Prop where
  code : a'.code = a.code
  values : a'.values = a.values
  uses : a'.uses = a.uses

namespace Renumbered

theorem refl (a : Arena) : Renumbered a a :=
  ⟨rfl, rfl, rfl⟩

theorem symm (h : Renumbered a a') : Renumbered a' a :=
  ⟨h.code.symm, h.values.symm, h.uses.symm⟩

theorem trans {a'' : Arena} (h : Renumbered a a') (h' : Renumbered a' a'') : Renumbered a a'' :=
  ⟨h'.code.trans h.code, h'.values.trans h.values, h'.uses.trans h.uses⟩

variable (h : Renumbered a a')

include h

theorem listed (hu : a.Listed u) : a'.Listed u := by
  unfold Listed
  rwa [h.values, h.uses]

theorem reads_iff : a'.Reads S u ↔ a.Reads S u :=
  reads_congr (body_of_code h.code) (congrArg (·.instrs) h.code) (constructs_of_code h.code)

/-- Whether a function passes the check is a matter of code and use-lists. -/
theorem accepted (hacc : a.Accepted e) (he : a'.EdgesCurrent e) (hdistinct : a'.InstrsDistinct e) :
    a'.Accepted e := by
  obtain ⟨_, g, r, _, _, hc⟩ := hacc.checked
  have hsp : Spares (a.scopeOf e) a a' := .of_code h.code
  have he₀ := he.of_code hc.function hc.bodyRegion hc.nodup_blocks
    hc.shaped.2.structured hc.present h.code.symm
  have hdistinct₀ : a.InstrsDistinct e := by
    unfold InstrsDistinct at hdistinct ⊢
    rwa [hsp.evolves.scope_blocks hc.function, body_of_code h.code] at hdistinct
  have hr := hc.obeys he₀ hdistinct₀
  have hup := hsp.upholds hr hc.homed (fun u hu => h.listed (hr.listed u (h.reads_iff.mp hu)))
    fun v hv => (hr.lists v hv).congr h.values h.uses (congrArg (·.instrs) h.code)
  exact hup.accepted hr (hc.flowsWithin he₀) hdistinct₀

/-- A function that passes the check and is in order does and is so if all that changes are
numbers. -/
theorem keeps (hacc : a.Accepted e) (ho : a.Orderly e) : a'.Accepted e ∧ a'.Orderly e := by
  obtain ⟨_, g, r, _, _, hc⟩ := hacc.checked
  have hr := hc.obeys ho.edges ho.distinct
  refine Spares.keeps (.of_code h.code) hacc ho
    (fun u hu => h.listed (hr.listed u (h.reads_iff.mp hu))) fun v hv x hx c k u hk => ?_
  rw [h.values] at hx
  have hmem := List.mem_of_getElem? hk
  obtain ⟨T, hT, hread⟩ := ho.own v (definedBy_singleton.mpr hv) x hx c u hmem
  obtain ⟨use, huse, hslot⟩ := hc.slot_of_entry hv hx hk
  obtain ⟨use', huse', hval, hguards⟩ := ho.lists v (definedBy_singleton.mpr hv) x hx c u hmem
  cases huse.symm.trans huse'
  exact ⟨h.reads_iff.mpr (List.mem_singleton.mp hT ▸ hread), use, h.uses ▸ huse, hslot, hval, hguards⟩

end Renumbered

end Arena

end ShaderCompiler
