import ShaderCompiler.Proofs.Forwarding.Cost
import ShaderCompiler.Proofs.Upkeep

/-!
# Forwarding keeps functions valid

A use that looks through a copy comes to read what a source of the copy reads. That value is done
before the copy, and the copy before the use, so it is done before the use. The lanes that the use
selects are lanes of that value, since the copy found them there. And a copy is only taken out if
nobody reads it. So a run can not go wrong, and what it leaves passes the check.

A run may go on for ever if copies read each other in a circle. This is no fault of a step: with
any bound on the number of queue entries that are taken, a run ends well or meets the bound.
-/

namespace ShaderCompiler

variable {ins : Instr} {x : Value} {q queue : List InstrId} {c : Bool} {st : Bool × List InstrId}
  {T : Scope} {use : Use}

namespace Arena

variable {a₀ a a' : Arena} {f : FunctionId} {g : Function} {region : Region} {b : BlockId}
  {i : InstrId} {p : Alu} {d v : ValueId} {u : UseId}

/-- All values of a function have a lane. -/
def ValuesHaveLanes (a : Arena) (f : FunctionId) : Prop :=
  ∀ v x, (a.scopeOf f).defined v → a.values[v.idx]? = some x → 1 ≤ x.comps

instance : Decidable (a.ValuesHaveLanes f) :=
  decidable_of_iff (∀ v ∈ a.valuesOf f, ∀ x ∈ a.values[v.idx]?, 1 ≤ x.comps) <| by
    simp only [ValuesHaveLanes, mem_valuesOf, Option.mem_def]
    exact ⟨fun h v x hv hx => h v hv x hx, fun h v hv x hx => h v x hv hx⟩

/-- What a run needs to go on: references lead somewhere, operations fit, sources read lanes that
are there, and values have lanes. -/
structure Runnable (a : Arena) (f : FunctionId) : Prop where
  blocksOf : a.blocksOf f = .ok (a.scopeOf f).blocks
  fits : ∀ b ∈ (a.scopeOf f).blocks, ∀ i ∈ a.body b, a.InstrFits b i
  lanes : ∀ b ∈ (a.scopeOf f).blocks, ∀ i ∈ a.body b, ∀ ins, a.instrs[i.idx]? = some ins →
    ∀ u, some u ∈ ins.sources → ∀ use v x, a.uses[u.idx]? = some use → use.value = some v →
      a.values[v.idx]? = some x → a.LanesFit u x.comps
  sound : a.Sound [a.scopeOf f] (a.Reads (a.scopeOf f))
  wide : a.ValuesHaveLanes f

/-- What a function has to fulfil for a run to leave it valid: it also obeys the rules. -/
structure Forwardable (a : Arena) (f : FunctionId) (g : Function) (region : Region) : Prop
    extends a.Runnable f where
  obeys : a.Obeys f g region
  within : a.FlowsWithin f
  distinct : a.InstrsDistinct f

/-- What every step of a run that began at `a₀` keeps. Uses that remember a place are read, what is
read is defined by an instruction that was not taken out, and all sources that there were find
their lanes. If `a₀` obeys the rules they find their definitions in its order. -/
structure Kept (a₀ : Arena) (f : FunctionId) (a : Arena) : Prop where
  sound : a.Sound [a₀.scopeOf f] (a₀.Reads (a₀.scopeOf f))
  evolves : Evolves (a₀.scopeOf f) a₀ a
  values : a.code.values = a₀.code.values
  own : ∀ u, a₀.Reads (a₀.scopeOf f) u → a.Attached u → a.Reads (a₀.scopeOf f) u
  stands : ∀ u, a.Reads (a₀.scopeOf f) u → ∀ use v, a.uses[u.idx]? = some use →
    use.value = some v → ∃ e, ∃ home ∈ (a₀.scopeOf f).blocks, e ∈ a.body home ∧ a₀.StandsFor f e v
  lanes : ∀ b ∈ (a₀.scopeOf f).blocks, ∀ i ∈ a₀.body b, ∀ ins, a₀.instrs[i.idx]? = some ins →
    ∀ u, some u ∈ ins.sources → ∀ use v x, a.uses[u.idx]? = some use → use.value = some v →
      a.values[v.idx]? = some x → a.LanesFit u x.comps
  order : ∀ g region, a₀.Forwardable f g region → ∀ u b reader, a₀.AskedAt f u b reader →
    ∀ use v e, a.uses[u.idx]? = some use → use.value = some v → a₀.StandsFor f e v →
      a₀.Reachable f b → a₀.DoneBefore f e b (a₀.placeOf b reader)

theorem definedBy_singleton {S : Scope} : DefinedBy [S] v ↔ S.defined v := by
  simp [DefinedBy]

theorem Runnable.wired (h : a.Runnable f) : a.Wired (a.scopeOf f) :=
  h.sound.wired _ (List.mem_singleton_self _)

theorem Runnable.kept (h : a.Runnable f) : Kept a f a where
  sound := h.sound
  evolves := .refl _ a
  values := rfl
  own _ hu _ := hu
  stands u hu use v huse hval := by
    obtain ⟨use', w, x, huse', hval', hw, -⟩ := h.sound.lists.slot u hu
    cases huse.symm.trans huse'
    cases hval.symm.trans hval'
    obtain ⟨e, he⟩ := defined_iff_standsFor.mp (definedBy_singleton.mp hw)
    obtain ⟨home, hhome, hmem, -⟩ := id he
    exact ⟨e, home, hhome, hmem, he⟩
  lanes := h.lanes
  order _ _ hf := hf.obeys.readings.order

/-! ### What is kept of instructions -/

namespace Kept

variable (h : Kept a₀ f a) (hf : a₀.Runnable f)

include h hf

theorem aluFits (hb : b ∈ (a₀.scopeOf f).blocks) (hi : i ∈ a₀.body b)
    (hins : a₀.instrs[i.idx]? = some ins) (hact : ins.action = .alu p) : a.AluFits p := by
  obtain ⟨bb, ins', hbb, hins', -, hfits⟩ := hf.fits b hb i hi
  cases hins.symm.trans hins'
  rw [hact] at hfits
  exact AluFits.congr hfits h.values

/-- A copy that stands stood there from the beginning. -/
theorem stood (hi : a.StandsAs [a₀.scopeOf f] i b p d) : b ∈ (a₀.scopeOf f).blocks
    ∧ i ∈ a₀.body b ∧ ∃ ins, a₀.instrs[i.idx]? = some ins ∧ ins.action = .alu p
      ∧ p.dest = some d := by
  obtain ⟨T, hT, hb, hmem, ins, hins, -, hact, hdest, -⟩ := hi
  obtain rfl := List.mem_singleton.mp hT
  obtain ⟨hmem₀, ins₀, hins₀, hact₀, -⟩ := h.evolves.exists_before hf.wired hb hmem hins
  exact ⟨hb, hmem₀, ins₀, hins₀, hact₀ ▸ hact, hdest⟩

/-- The sources of a copy that stands read lanes that are there. -/
theorem copyFits (hi : a.StandsAs [a₀.scopeOf f] i b p d) : ∃ x, a.CopyFits i p d x := by
  obtain ⟨hb, hmem₀, ins₀, hins₀, hact₀, hdest⟩ := h.stood hf hi
  obtain ⟨-, x, hx, -⟩ := h.sound.dest hi
  have hfits := h.aluFits hf hb hmem₀ hins₀ hact₀
  obtain ⟨-, -, -, -, ins, hins, -, hact, -, hcopy⟩ := id hi
  refine ⟨x, hfits, ⟨⟨ins, hins, hact⟩, fun s hs => ?_⟩, (movesLanes_of_isCopy hfits hcopy).2,
    hdest, hx, fun u hu use w huse hval => ?_⟩
  · obtain ⟨u, -, -, rfl, -⟩ := hf.wired.source b hb i hmem₀ ins₀ hins₀ s
      (Instr.mem_sources_of_alu hact₀ hs)
    obtain ⟨use, w, huse, hval, -, huser⟩ := h.sound.source hi hs
    exact ⟨u, use, w, rfl, huse, hval, huser⟩
  · obtain ⟨use', w', huse', hval', hw, -⟩ := h.sound.source hi hu
    cases huse.symm.trans huse'
    cases hval.symm.trans hval'
    obtain ⟨y, hy⟩ := h.sound.value hw
    exact ⟨y, hy, h.lanes b hb i hmem₀ ins₀ hins₀ u (Instr.mem_sources_of_alu hact₀ hu) use w y
      huse hval hy⟩

theorem copiesFit : a.CopiesFit [a₀.scopeOf f] :=
  fun _ _ _ _ hi => h.copyFits hf hi

/-- Whether an instruction that there was is a copy can be found out. -/
theorem exists_isCopy {ins : Instr} (hb : b ∈ (a₀.scopeOf f).blocks) (hi : i ∈ a₀.body b)
    (hins : a₀.instrs[i.idx]? = some ins) (hact : ins.action = .alu p) :
    ∃ r, a.isCopy p = .ok r := by
  refine Arena.exists_isCopy (h.aluFits hf hb hi hins hact) fun s hs => ?_
  obtain ⟨u, use, w, rfl, huse, -⟩ := hf.wired.source b hb i hi ins hins s
    (Instr.mem_sources_of_alu hact hs)
  obtain ⟨use', huse', -⟩ := h.evolves.use u use huse
  exact ⟨u, use', rfl, huse'⟩

/-- The copies around a use can be found. -/
theorem exists_copiesAround (hu : a₀.Reads (a₀.scopeOf f) u) : ∃ l, a.copiesAround u = .ok l := by
  -- What there was is still known as the same instruction.
  have hfound {home : BlockId} {j : InstrId} (hhome : home ∈ (a₀.scopeOf f).blocks)
      (hj : j ∈ a₀.body home) : ∃ ins, a.instrs[j.idx]? = some ins
        ∧ ∀ p, ins.action = .alu p → ∃ r, a.isCopy p = .ok r := by
    obtain ⟨jns₀, hjns₀⟩ := hf.wired.instr home hhome j hj
    obtain ⟨jns, hjns, hact, -⟩ := h.evolves.instr j jns₀ hjns₀
    exact ⟨jns, hjns, fun p hp => h.exists_isCopy hf hhome hj hjns₀ (hact ▸ hp)⟩
  obtain ⟨use, w, x, huse, hval, hw, hx, -⟩ := h.sound.lists.slot u hu
  obtain ⟨above, habove⟩ := exists_copyAt (a := a) (o := x.definedBy) fun j hj => by
    obtain ⟨e, he⟩ := defined_iff_standsFor.mp (definedBy_singleton.mp hw)
    obtain ⟨x₀, hx₀, hby⟩ := he.definedBy hf.wired
    obtain ⟨-, -, hby'⟩ := h.evolves.value_eq hx₀ hx
    obtain rfl : j = e := Option.some.inj (hj.symm.trans (hby'.trans hby))
    obtain ⟨home, hhome, hmem, -⟩ := he
    exact hfound hhome hmem
  obtain ⟨below, hbelow⟩ := exists_copyAt (a := a) (o := use.user) fun j hj => by
    rcases hu with ⟨home, hhome, k, hk, kns, hkns, hmem⟩ | ⟨c, hc, con, yes, no, hcon, hshape⟩
    · obtain ⟨use₀, -, huse₀, -, -, huser₀, -⟩ := hf.wired.use_of_source hhome hk hkns hmem
      obtain ⟨huser, -⟩ := h.evolves.reader_eq huse₀ huse
      obtain rfl : j = k := Option.some.inj (hj.symm.trans (huser.trans huser₀))
      exact hfound hhome hk
    · obtain ⟨use₀, -, huse₀, -, -, -, huser₀⟩ := hf.wired.use_of_condition hc hcon hshape
      obtain ⟨huser, -⟩ := h.evolves.reader_eq huse₀ huse
      simp [huser, huser₀] at hj
  simp only [Arena.copiesAround, except_bind_eq_ok, valueOf_eq_ok, value_eq_ok, use_eq_ok,
    except_pure_eq_ok]
  exact ⟨_, w, ⟨use, huse, hval⟩, x, hx, above, habove, use, huse, below, hbelow, rfl⟩

/-- What the function defines has a lane. -/
theorem one_le_comps (hv : (a₀.scopeOf f).defined v)
    (hx : a.values[v.idx]? = some x) : 1 ≤ x.comps := by
  obtain ⟨x₀, hx₀⟩ := hf.wired.value v hv
  obtain ⟨-, hcomps, -⟩ := h.evolves.value_eq hx₀ hx
  exact hcomps ▸ hf.wide v x₀ hv hx₀

/-- A source that there was reads a lane at all. -/
theorem one_le_reads (hb : b ∈ (a₀.scopeOf f).blocks) (hi : i ∈ a₀.body b)
    (hins : a₀.instrs[i.idx]? = some ins) (hu : some u ∈ ins.sources) {n : Nat}
    (hn : a.reads u = .ok n) : 1 ≤ n := by
  have hread : a₀.Reads (a₀.scopeOf f) u := .inl ⟨b, hb, i, hi, ins, hins, hu⟩
  obtain ⟨use, w, x, huse, hval, hw, hx, -⟩ := h.sound.lists.slot u hread
  simp only [reads, except_bind_eq_ok] at hn
  obtain ⟨position, hpos, hn⟩ := hn
  cases position with
  | none =>
    simp only [except_bind_eq_ok, valueOf_eq_ok, value_eq_ok, except_pure_eq_ok] at hn
    obtain ⟨w', ⟨use', huse', hval'⟩, x', hx', rfl⟩ := hn
    cases huse.symm.trans huse'
    cases hval.symm.trans hval'
    exact h.one_le_comps hf (definedBy_singleton.mp hw) hx'
  | some position =>
    obtain ⟨q, k⟩ := position
    -- The instruction that reads is the one that there was, so it defines a value with lanes.
    obtain ⟨use₀, -, huse₀, -, -, huser₀, -⟩ := hf.wired.use_of_source hb hi hins hu
    obtain ⟨huser, -⟩ := h.evolves.reader_eq huse₀ huse
    obtain ⟨ins', hins', hact, -⟩ := h.evolves.instr i ins hins
    have hq : ins'.alu? = some q := by
      simp only [aluPosition, except_bind_eq_ok, use_eq_ok] at hpos
      obtain ⟨use', huse', hpos⟩ := hpos
      cases huse.symm.trans huse'
      simp only [huser.trans huser₀, except_bind_eq_ok, instr_eq_ok] at hpos
      obtain ⟨ins'', hins'', hpos⟩ := hpos
      cases hins'.symm.trans hins''
      cases halu : ins'.alu? with
      | none => simp [halu] at hpos
      | some q' =>
        simp only [halu, except_pure_eq_ok, Option.map_eq_some_iff, Prod.mk.injEq] at hpos
        obtain ⟨-, -, rfl, -⟩ := hpos
        rfl
    have hdef : q.dest ∈ ins.definitions := by
      simp [Instr.definitions, ← hact, Instr.alu?_eq_some.mp hq]
    obtain ⟨e, y, he, hdefined, -⟩ := hf.wired.definition b hb i hi ins hins _ hdef
    simp only [sourceWidth, except_bind_eq_ok, entry_eq_ok] at hn
    obtain ⟨info, -, m, -, hn⟩ := hn
    split at hn
    case isTrue hne =>
      obtain rfl := except_pure_eq_ok.mp hn
      omega
    case isFalse =>
      simp only [except_bind_eq_ok, present_eq_ok, value_eq_ok, except_pure_eq_ok] at hn
      obtain ⟨e', he', y, hy, rfl⟩ := hn
      cases he.symm.trans he'
      exact h.one_le_comps hf hdefined hy

/-! ### The two steps -/

/-- A use of a standing copy is turned to a value that the copy reads. -/
theorem turn (hi : a.StandsAs [a₀.scopeOf f] i b p d) {x : Value} (hx : a.values[d.idx]? = some x)
    (hu : a₀.Reads (a₀.scopeOf f) u) (hatt : a.Attached u)
    (huse : a.uses[u.idx]? = some use) (hval : use.value = some d)
    (hredirected : a.Redirected p x.comps u a') :
    Kept a₀ f a' ∧ (∀ t, a'.Attached t ↔ a.Attached t) := by
  obtain ⟨v, z, y, hoffers, hy, hlanes, hrun⟩ := hredirected
  obtain ⟨ht, hsound, hatt'⟩ := h.sound.turn hi hu hatt huse hval hoffers hrun
  obtain ⟨hb, hmem₀, ins₀, hins₀, hact₀, hdest⟩ := h.stood hf hi
  have hv : (a₀.scopeOf f).defined v := definedBy_singleton.mp (h.sound.offered hi hoffers)
  obtain ⟨src, suse, hsrc, hsuse, hsval⟩ := id hoffers
  have hsrc₀ := Instr.mem_sources_of_alu hact₀ hsrc
  have hd : a₀.StandsFor f i d :=
    ⟨b, hb, hmem₀, ins₀, hins₀, by simp [Instr.definitions, hact₀, hdest]⟩
  have hcode : a'.code = (a.modifyUse u fun use => { use with value := some v, swizzle := z }).code := by
    rw [show a'.code = _ from ht, eq_comm]
    exact code_modifyUse fun _ => rfl
  have hbody : a'.body = a.body := body_of_blocks ht.blocks
  -- A use reads what it read before, or it is the one that was turned.
  have hbefore {t : UseId} {tuse : Use} {w : ValueId} (htuse : a'.uses[t.idx]? = some tuse)
      (htval : tuse.value = some w) : t = u ∧ w = v ∨ t ≠ u ∧ ∃ tuse₀,
        a.uses[t.idx]? = some tuse₀ ∧ tuse₀.value = some w := by
    by_cases htu : t = u
    · subst htu
      obtain ⟨k, hk⟩ := ht.use_self huse
      cases htuse.symm.trans hk
      exact .inl ⟨rfl, (Option.some.inj htval).symm⟩
    · have hget := ht.uses_get t
      rw [if_neg htu, htuse, Option.map_some, eq_comm, Option.map_eq_some_iff] at hget
      obtain ⟨tuse₀, htuse₀, hbare⟩ := hget
      exact .inr ⟨htu, tuse₀, htuse₀, (congrArg Use.value hbare).trans htval⟩
  refine ⟨⟨hsound, h.evolves.trans (.turned ht fun _ _ _ _ _ => hv), ht.values.trans h.values,
    fun t htr hta => ht.reads.mpr (h.own t htr ((hatt' t).mp hta)), fun t htr tuse w htuse htval => ?_,
    fun c hc j hj jns hjns t htj tuse w y' htuse htval hy' => ?_,
    fun g region hg t c reader hasked tuse w e htuse htval he hreach => ?_⟩, hatt'⟩
  · rw [hbody]
    rcases hbefore htuse htval with ⟨rfl, rfl⟩ | ⟨-, tuse₀, htuse₀, htval₀⟩
    · -- The value is read by the copy, which stands.
      obtain ⟨T, hT, hb', hmem, ins, hins, -, hact, -⟩ := hi
      obtain rfl := List.mem_singleton.mp hT
      exact h.stands src (.inl ⟨b, hb, i, hmem, ins, hins, Instr.mem_sources_of_alu hact hsrc⟩)
        suse w hsuse hsval
    · exact h.stands t (ht.reads.mp htr) tuse₀ w htuse₀ htval₀
  · obtain ⟨l, m, hy₀⟩ := value_of_values ht.values.symm hy'
    rw [← lanesFit_code, hcode, lanesFit_code]
    rcases hbefore htuse htval with ⟨rfl, rfl⟩ | ⟨htu, tuse₀, htuse₀, htval₀⟩
    · cases hy.symm.trans hy₀
      exact hlanes (h.lanes c hc j hj jns hjns t htj use d x huse hval hx)
    · rw [lanesFit_modifyUse_of_ne (by exact fun _ => rfl) htu]
      have hfit := h.lanes c hc j hj jns hjns t htj tuse₀ w _ htuse₀ htval₀ hy₀
      exact hfit
  · rcases hbefore htuse htval with ⟨rfl, rfl⟩ | ⟨-, tuse₀, htuse₀, htval₀⟩
    · -- What the copy reads is done before the copy, and the copy before the use.
      have hcopy := h.order g region hg t c reader hasked use d i huse hval hd hreach
      have hown : ins₀.incoming src = none := by simp [Instr.incoming, hact₀]
      exact hcopy.trans (hg.distinct.nodup_body hb)
        (fun home hhome hmem => hg.distinct.home_eq (hg.within.mem_of_reachable hhome) hb hmem hmem₀)
        hreach (getElem?_idxOf_of_mem hmem₀) (h.order g region hg src b (some i)
          (.source hb hmem₀ hins₀ hsrc₀ hown) suse w e hsuse hsval he)
    · exact h.order g region hg t c reader hasked tuse₀ w e htuse₀ htval₀ he hreach

/-- A standing copy that nobody reads is taken out. -/
theorem take (hi : a.StandsAs [a₀.scopeOf f] i b p d) {x : Value} (hx : a.values[d.idx]? = some x)
    (hfree : x.isUnused = true) : ∃ a', Edit.removeInstr b i a = .ok () a'
      ∧ a'.code = (a.without b i).code ∧ Kept a₀ f a' := by
  obtain ⟨a', hrun, hcode, hsound, hdropped, hatt⟩ := h.sound.take hi
  obtain ⟨hb, hmem₀, ins₀, hins₀, hact₀, hdest⟩ := h.stood hf hi
  obtain ⟨-, -, -, -, ins, hins, -⟩ := id hi
  have hloses := Loses.of_without hcode
  have hkept {c : BlockId} {j : InstrId} (hj : j ∈ a.body c) (hji : j ≠ i) : j ∈ a'.body c :=
    hloses.kept c j hj (by simpa using hji)
  have hvalue {t : UseId} {tuse : Use} (htuse : a'.uses[t.idx]? = some tuse) :
      ∃ tuse₀, a.uses[t.idx]? = some tuse₀ ∧ tuse₀.value = tuse.value := by
    obtain ⟨k, hk⟩ := use_of_code hcode.symm htuse
    exact ⟨_, hk, rfl⟩
  refine ⟨a', hrun, hcode, hsound, h.evolves.trans hloses.evolves,
    (congrArg (·.values) hcode).trans h.values, fun t htr hta => ?_,
    fun t htr tuse w htuse htval => ?_, fun c hc j hj jns hjns t htj tuse w y htuse htval hy => ?_,
    fun g region hg t c reader hasked tuse w e htuse htval he hreach => ?_⟩
  · -- A source of the copy does not remember a place, and others are read as before.
    rcases h.own t htr (hatt t hta) with ⟨c, hc, j, hj, jns, hjns, hmem⟩
      | ⟨c, hc, con, yes, no, hcon, hshape⟩
    · have hji : j ≠ i := by
        rintro rfl
        exact hdropped t jns hjns hmem hta
      obtain ⟨n, l, hjns'⟩ := hloses.instr_of_notMem (by simpa using hji) hjns
      exact .inl ⟨c, hc, j, hkept hj hji, _, hjns', hmem⟩
    · exact .inr ⟨c, hc, con, yes, no, hloses.constructs ▸ hcon, hshape⟩
  · have htr₀ := hloses.reads_of_reads htr
    obtain ⟨tuse₀, htuse₀, hsame⟩ := hvalue htuse
    obtain ⟨e, home, hhome, he, hstands⟩ := h.stands t htr₀ tuse₀ w htuse₀ (hsame.trans htval)
    refine ⟨e, home, hhome, hkept he ?_, hstands⟩
    rintro rfl
    refine h.sound.value_ne_of_isUnused (List.mem_singleton_self _) htr₀ htuse₀ (hsame.trans htval)
      hx hfree ?_
    obtain ⟨-, -, -, ins₁, hins₁, hdef⟩ := hstands
    cases hins₀.symm.trans hins₁
    simpa [Instr.definitions, hact₀, hdest] using hdef
  · obtain ⟨tuse₀, htuse₀, hsame⟩ := hvalue htuse
    obtain ⟨l, m, hy₀⟩ := value_of_code hcode.symm hy
    rw [hloses.lanesFit_iff]
    have hfit := h.lanes c hc j hj jns hjns t htj tuse₀ w _ htuse₀ (hsame.trans htval) hy₀
    exact hfit
  · obtain ⟨tuse₀, htuse₀, hsame⟩ := hvalue htuse
    exact h.order g region hg t c reader hasked tuse₀ w e htuse₀ (hsame.trans htval) he hreach

/-- A use that there was and that guards nothing is a source. -/
theorem source_of_guards (hu : a₀.Reads (a₀.scopeOf f) u)
    (huse : a.uses[u.idx]? = some use) (hguards : use.guards.isSome = false) :
    ∃ b ∈ (a₀.scopeOf f).blocks, ∃ i ∈ a₀.body b, ∃ ins, a₀.instrs[i.idx]? = some ins
      ∧ some u ∈ ins.sources := by
  refine hu.resolve_right ?_
  rintro ⟨c, hc, con, yes, no, hcon, hshape⟩
  obtain ⟨use₀, -, huse₀, -, -, hguards₀, -⟩ := hf.wired.use_of_condition hc hcon hshape
  obtain ⟨-, hsame⟩ := h.evolves.reader_eq huse₀ huse
  simp [hsame, hguards₀] at hguards

omit hf in
/-- What is kept depends on the code and on the places that uses remember. -/
theorem congr (hcode : a'.code = a.code) (huses : a'.uses = a.uses)
    (hsound : a'.Sound [a₀.scopeOf f] (a₀.Reads (a₀.scopeOf f))) : Kept a₀ f a' := by
  have hreads {t : UseId} : a'.Reads (a₀.scopeOf f) t ↔ a.Reads (a₀.scopeOf f) t :=
    reads_congr (body_of_code hcode) (congrArg (·.instrs) hcode) (constructs_of_code hcode)
  refine ⟨hsound, h.evolves.trans (.of_code hcode), (congrArg (·.values) hcode).trans h.values,
    fun t htr hta => hreads.mpr (h.own t htr (by rwa [Attached, ← huses])), fun t htr => ?_,
    fun c hc j hj jns hjns t htj tuse w y htuse htval hy => ?_, huses ▸ h.order⟩
  · rw [body_of_code hcode, huses]
    exact h.stands t (hreads.mp htr)
  · obtain ⟨l, m, hy₀⟩ := value_of_code hcode.symm hy
    rw [← lanesFit_code, hcode, lanesFit_code]
    have hfit := h.lanes c hc j hj jns hjns t htj tuse w _ (huses ▸ htuse) htval hy₀
    exact hfit

omit hf in
theorem recount (k : Counters → Counters) : Kept a₀ f (a.recount k) :=
  h.congr rfl rfl (h.sound.update a.functions (k a.counters))

end Kept

end Arena

namespace Edit

open Arena

variable {a₀ a a' : Arena} {f : FunctionId} {b : BlockId} {i : InstrId} {p : Alu} {d : ValueId}

/-! ### Runs go on -/

/-- A later stage of a run, with its queue: what has to be kept is kept, the queue fits, circles are
not broken, ranks stay good, and turns pay for what came to the queue. -/
structure Onward (a₀ : Arena) (f : FunctionId) (a : Arena) (q : List InstrId) (a' : Arena)
    (q' : List InstrId) : Prop where
  kept : Kept a₀ f a'
  queue : a'.QueueFits [a₀.scopeOf f] q'
  circling : a.Circling [a₀.scopeOf f] → a'.Circling [a₀.scopeOf f]
  pays : ∀ rank, a.Falling [a₀.scopeOf f] rank → a'.Falling [a₀.scopeOf f] rank
    ∧ q'.length + 2 * a'.toll rank ≤ q.length + 2 * a.toll rank

theorem Onward.refl (hk : Kept a₀ f a) (hq : a.QueueFits [a₀.scopeOf f] q) :
    Onward a₀ f a q a q :=
  ⟨hk, hq, id, fun _ hr => ⟨hr, le_rfl⟩⟩

theorem Onward.trans {a₁ a₂ a₃ : Arena} {q₁ q₂ q₃ : List InstrId} (h : Onward a₀ f a₁ q₁ a₂ q₂)
    (h' : Onward a₀ f a₂ q₂ a₃ q₃) : Onward a₀ f a₁ q₁ a₃ q₃ where
  kept := h'.kept
  queue := h'.queue
  circling hc := h'.circling (h.circling hc)
  pays rank hr := by
    obtain ⟨hr₂, hle⟩ := h.pays rank hr
    obtain ⟨hr₃, hle'⟩ := h'.pays rank hr₂
    exact ⟨hr₃, hle'.trans hle⟩

/-- A turn pays for the copies around the use. -/
theorem Onward.turn {a' : Arena} {q more : List InstrId} {u : UseId} {v : ValueId}
    {x : Value} {z : Swizzle} (hf : a₀.Runnable f) (hk : Kept a₀ f a)
    (hi : a.StandsAs [a₀.scopeOf f] i b p d) (hx : a.values[d.idx]? = some x)
    (hq : a.QueueFits [a₀.scopeOf f] q) (hu : a₀.Reads (a₀.scopeOf f) u)
    (huse : a.uses[u.idx]? = some use) (hval : use.value = some d) (hfolds : a.Folds p u v z)
    (ho : a.Offers p v) (ht : Turned a a' u v z) (hk' : Kept a₀ f a')
    (hlanes : ∀ position, a.aluPosition u = .ok (some position) →
      a.LanesFit u x.comps ∧ ∀ n, a.reads u = .ok n → 1 ≤ n)
    (hmore : a'.copiesAround u = .ok more) : Onward a₀ f a q a' (q ++ more) where
  kept := hk'
  queue := (hq.turned ht).append (hk'.sound.copiesAround hu hmore).1
  circling := .turn (hk.copiesFit hf) (hk'.copiesFit hf) hi huse hval hfolds ho ht hk.sound
  pays rank hr := by
    refine ⟨hr.turn (hk.copiesFit hf) (hk'.copiesFit hf) hi huse hval hfolds ho ht, ?_⟩
    have hd := definedBy_singleton.mp (hk.sound.dest hi).1
    have htoll : a'.toll rank < a.toll rank :=
      toll_turned_lt (fare_turned_lt hr (hk.copiesFit hf) hi hx (hk.one_le_comps hf hd hx) huse hval
        hfolds ht hlanes) ht (Array.getElem?_eq_some_iff.mp huse).1
    have hlength := length_copiesAround_le hmore
    rw [List.length_append]
    omega

/-- What is asked of a change that lets a use of one sort look through a copy: it works if the copy
and the use read lanes that are there. -/
def Works (p : Alu) (c : Bool) (forward : UseId → Edit Bool) : Prop :=
  ∀ a i d x u use, a.CopyFits i p d x → a.uses[u.idx]? = some use → use.value = some d →
    (∀ v z, a.Offers p v → ∃ a',
      repoint u (some v) (a.modifyUse u fun use => { use with swizzle := z }) = .ok () a') →
    (c = true → use.user = none) →
    (c = false → a.LanesFit u x.comps ∧ ∀ n, a.reads u = .ok n → 1 ≤ n) →
    ∃ r a', forward u a = .ok r a' ∧ (r = false → a' = a)
      ∧ (r = true → a.Redirected p x.comps u a')

theorem works_forwardUse (p : Alu) : Works p false (forwardUse p) := by
  intro a i d x u use hfits huse hval hpoint _ hlanes
  obtain ⟨hfit, hwide⟩ := hlanes rfl
  exact exists_forwardUse hfits huse hval hpoint hfit hwide

theorem works_forwardExact (p : Alu) : Works p true (forwardExact p) := by
  intro a i d x u use hfits huse hval hpoint huser _
  exact exists_forwardExact hfits huse hpoint hval (aluPosition_of_user huse (huser rfl))

/-- Uses of one sort look through a copy one after the other. -/
theorem exists_forwardEach {forward : UseId → Edit Bool} (hworks : Works p c forward)
    (hturns : Turns p c forward) (hf : a₀.Runnable f) {rest : List UseId} (st : Bool × List InstrId)
    (hk : Kept a₀ f a) (hi : a.StandsAs [a₀.scopeOf f] i b p d)
    (hq : a.QueueFits [a₀.scopeOf f] st.2) (hnodup : rest.Nodup)
    (hrest : ∀ u ∈ rest, a₀.Reads (a₀.scopeOf f) u ∧ a.Attached u ∧ ∃ use,
      a.uses[u.idx]? = some use ∧ use.value = some d ∧ use.guards.isSome = c) :
    ∃ st' a', forwardEach forward rest st a = .ok st' a' ∧ Onward a₀ f a st.2 a' st'.2
      ∧ a'.StandsAs [a₀.scopeOf f] i b p d := by
  induction rest generalizing a st with
  | nil => exact ⟨st, a, rfl, .refl hk hq, hi⟩
  | cons u rest ih =>
    obtain ⟨hu, hatt, use, huse, hval, hguards⟩ := hrest u List.mem_cons_self
    obtain ⟨hu_rest, hnodup'⟩ := List.nodup_cons.mp hnodup
    obtain ⟨x, hfits⟩ := hk.copyFits hf hi
    have hlanes : c = false → a.LanesFit u x.comps ∧ ∀ n, a.reads u = .ok n → 1 ≤ n := by
      rintro rfl
      obtain ⟨home, hhome, j, hj, jns, hjns, hmem⟩ := hk.source_of_guards hf hu huse hguards
      exact ⟨hk.lanes home hhome j hj jns hjns u hmem use d x huse hval hfits.value,
        fun n hn => hk.one_le_reads hf hhome hj hjns hmem hn⟩
    have huser : c = true → use.user = none := fun hc =>
      (hk.sound.user u hu use huse).1 (hguards.trans hc)
    obtain ⟨r, a₁, hrun, hsame, hmoved⟩ := hworks a i d x u use hfits huse hval
      (fun v z ho => hk.sound.exists_repoint hi hu hatt ho z) huser hlanes
    simp only [forwardEach, bind_eq_ok]
    cases r with
    | false =>
      obtain rfl := hsame rfl
      obtain ⟨st', a', hrun', hrest'⟩ :=
        ih st hk hi hq hnodup' fun t ht => hrest t (List.mem_cons_of_mem _ ht)
      exact ⟨st', a', ⟨false, a₁, hrun, hrun'⟩, hrest'⟩
    | true =>
      obtain ⟨hk₁, hatt'⟩ := hk.turn hf hi hfits.value hu hatt huse hval (hmoved rfl)
      obtain ⟨v, z, hfolds, ho, hpoint⟩ := (hturns a a₁ u use true huse huser hrun).2.2 rfl
      obtain ⟨ht, -, -⟩ := hk.sound.turn hi hu hatt huse hval ho hpoint
      let a₂ := a₁.recount fun c => { c with copiesFolded := c.copiesFolded + 1 }
      have ht₂ : Turned a a₂ u v z := ht
      have hk₂ : Kept a₀ f a₂ := hk₁.recount _
      obtain ⟨more, hmore⟩ := hk₂.exists_copiesAround hf hu
      have hsource (position) (hpos : a.aluPosition u = .ok (some position)) : c = false := by
        by_contra hc
        rw [aluPosition_of_user huse (huser (Bool.not_eq_false c ▸ hc))] at hpos
        cases hpos
      have hturn := Onward.turn hf hk hi hfits.value hq hu huse hval hfolds ho ht₂ hk₂
        (fun position hpos => hlanes (hsource position hpos)) hmore
      obtain ⟨st', a', hrun', honward, hi'⟩ := ih (a := a₂) (true, st.2 ++ more) hk₂
        (ht₂.standsAs.mpr hi) hturn.queue hnodup' fun t htr => by
          obtain ⟨hU, hatt_t, tuse, htuse, htval, htguards⟩ := hrest t (List.mem_cons_of_mem _ htr)
          have htu : t ≠ u := fun e => hu_rest (e ▸ htr)
          obtain ⟨k, hk⟩ := ht₂.use_other htu htuse
          exact ⟨hU, (hatt' t).mpr hatt_t, _, hk, htval, htguards⟩
      refine ⟨st', a', ⟨true, a₁, hrun, ?_⟩, hturn.trans honward, hi'⟩
      simp only [if_true, bind_eq_ok, count_eq_ok, look_eq_ok]
      exact ⟨(), a₂, rfl, more, a₂, ⟨hmore, rfl⟩, hrun'⟩

/-- A visit of a standing copy goes well. -/
theorem exists_visitCopy (hf : a₀.Runnable f) (hk : Kept a₀ f a)
    (hi : a.StandsAs [a₀.scopeOf f] i b p d) (hq : a.QueueFits [a₀.scopeOf f] queue) :
    ∃ st a', visitCopy i p queue a = .ok st a' ∧ Onward a₀ f a queue a' st.2 := by
  have hdest : p.dest = some d := by
    obtain ⟨-, -, -, -, -, -, -, -, hdest, -⟩ := hi
    exact hdest
  obtain ⟨hd, x, hx, -⟩ := hk.sound.dest hi
  obtain ⟨st₁, a₁, hrun₁, hon₁, hi₁⟩ := exists_forwardEach (works_forwardUse p)
    (turns_forwardUse p) hf (false, queue) hk hi hq (hk.sound.nodup_usesOf hd hx false)
    fun u hu => hk.sound.entry hd hx hu
  obtain ⟨-, x₁, hx₁, -⟩ := hon₁.kept.sound.dest hi₁
  obtain ⟨st₂, a₂, hrun₂, hon₂, hi₂⟩ := exists_forwardEach (works_forwardExact p)
    (turns_forwardExact p) hf st₁ hon₁.kept hi₁ hon₁.queue (hon₁.kept.sound.nodup_usesOf hd hx₁ true)
    fun u hu => hon₁.kept.sound.entry hd hx₁ hu
  obtain ⟨-, x₂, hx₂, -⟩ := hon₂.kept.sound.dest hi₂
  simp only [visitCopy, bind_eq_ok, liftM_eq_ok, present_eq_ok, look_eq_ok, value_eq_ok]
  by_cases hfree : (st₂.1 && x₂.isUnused) = true
  · have hunused : x₂.isUnused = true := (Bool.and_eq_true _ _ ▸ hfree).2
    obtain ⟨a₃, hremove, hcode, hk₃⟩ := hon₂.kept.take hf hi₂ hx₂ hunused
    have htake : Onward a₀ f a₂ st₂.2
        (a₃.recount fun c => { c with copiesRemoved := c.copiesRemoved + 1 }) st₂.2 :=
      ⟨hk₃.recount _, hon₂.queue.lose (.of_without hcode),
        fun hc => (hc.take hon₂.kept.sound hi₂ hx₂ hunused hcode).congr rfl,
        fun rank hr => ⟨hr.lose (.of_without hcode),
          Nat.add_le_add_left (Nat.mul_le_mul_left 2 (toll_taken hcode rank).le) _⟩⟩
    obtain ⟨-, -, -, -, ins, hins, hblock, -⟩ := hi₂
    refine ⟨st₂, a₃.recount fun c => { c with copiesRemoved := c.copiesRemoved + 1 }, ⟨d, a,
      ⟨hdest, rfl⟩, x, a, ⟨hx, rfl⟩, st₁, a₁, hrun₁, x₁, a₁, ⟨hx₁, rfl⟩, st₂, a₂, hrun₂, x₂, a₂,
      ⟨hx₂, rfl⟩, ?_⟩, (hon₁.trans hon₂).trans htake⟩
    rw [if_pos hfree]
    simp only [bind_eq_ok, look_eq_ok, instr_eq_ok, liftM_eq_ok, present_eq_ok, count_eq_ok,
      pure_eq_ok]
    exact ⟨ins, a₂, ⟨hins, rfl⟩, b, a₂, ⟨hblock, rfl⟩, (), a₃, hremove, (), _, rfl, trivial, rfl⟩
  · refine ⟨st₂, a₂, ⟨d, a, ⟨hdest, rfl⟩, x, a, ⟨hx, rfl⟩, st₁, a₁, hrun₁, x₁, a₁, ⟨hx₁, rfl⟩, st₂, a₂,
      hrun₂, x₂, a₂, ⟨hx₂, rfl⟩, ?_⟩, hon₁.trans hon₂⟩
    rw [if_neg hfree]
    rfl

/-! ### Blocks and the queue -/

/-- A copy of the function that knows a block stands in it. -/
theorem standsAs_of_block (hf : a₀.Runnable f) (hk : Kept a₀ f a) {home : BlockId}
    (hhome : home ∈ (a₀.scopeOf f).blocks) (hi : i ∈ a₀.body home)
    (hins : a.instrs[i.idx]? = some ins) (hb : ins.block = some b) (halu : ins.alu? = some p)
    (hcopy : a.isCopy p = .ok true) : ∃ d, a.StandsAs [a₀.scopeOf f] i b p d := by
  refine hk.sound.standsAs_of_resident (List.mem_singleton_self _) ?_ hins hb halu hcopy
  -- What it defines leads back to it.
  obtain ⟨ins₀, hins₀⟩ := hf.wired.instr home hhome i hi
  obtain ⟨hact, -⟩ := hk.evolves.action_eq hins₀ hins
  have hdef : p.dest ∈ ins₀.definitions := by
    simp [Instr.definitions, ← hact, Instr.alu?_eq_some.mp halu]
  obtain ⟨d, x₀, -, hdefined, hx₀, hby₀⟩ :=
    hf.wired.definition home hhome i hi ins₀ hins₀ _ hdef
  obtain ⟨x, j, jns, hx, hby, hjns, -, hhomes⟩ :=
    (hk.sound.homed _ (List.mem_singleton_self _)).definer d hdefined
  obtain ⟨-, -, hby'⟩ := hk.evolves.value_eq hx₀ hx
  obtain rfl : j = i := Option.some.inj (hby.symm.trans (hby'.trans hby₀))
  exact ⟨jns, hjns, hhomes⟩

/-- A visit of an instruction goes well. -/
theorem exists_visitInstr (hf : a₀.Runnable f) (hk : Kept a₀ f a)
    (hq : a.QueueFits [a₀.scopeOf f] st.2)
    (hb : b ∈ (a₀.scopeOf f).blocks) (hi : i ∈ a₀.body b) :
    ∃ st' a', visitInstr b st i a = .ok st' a' ∧ Onward a₀ f a st.2 a' st'.2 := by
  obtain ⟨ins₀, hins₀⟩ := hf.wired.instr b hb i hi
  obtain ⟨ins, hins, hact, -⟩ := hk.evolves.instr i ins₀ hins₀
  have hidle : Onward a₀ f a st.2 a st.2 := .refl hk hq
  simp only [visitInstr, bind_eq_ok, look_eq_ok, instr_eq_ok]
  by_cases hblock : ins.block = some b
  · cases halu : ins.alu? with
    | none =>
      refine ⟨st, a, ⟨ins, a, ⟨hins, rfl⟩, ?_⟩, hidle⟩
      simp only [hblock, halu, if_true]
      rfl
    | some p =>
      have hp : ins₀.action = .alu p := hact.symm.trans (Instr.alu?_eq_some.mp halu)
      obtain ⟨r, hr⟩ := hk.exists_isCopy hf hb hi hins₀ hp
      cases r with
      | false =>
        refine ⟨st, a, ⟨ins, a, ⟨hins, rfl⟩, ?_⟩, hidle⟩
        simp only [hblock, halu, if_true, bind_eq_ok, look_eq_ok]
        exact ⟨false, a, ⟨hr, rfl⟩, rfl⟩
      | true =>
        obtain ⟨d, hd⟩ := standsAs_of_block hf hk hb hi hins hblock halu hr
        obtain ⟨st', a', hrun, honward⟩ := exists_visitCopy hf hk hd hq
        refine ⟨(st.1 || st'.1, st'.2), a', ⟨ins, a, ⟨hins, rfl⟩, ?_⟩, honward⟩
        simp only [hblock, halu, if_true, bind_eq_ok, look_eq_ok]
        exact ⟨true, a, ⟨hr, rfl⟩, by simpa only [if_true, bind_eq_ok] using ⟨st', a', hrun, rfl⟩⟩
  · refine ⟨st, a, ⟨ins, a, ⟨hins, rfl⟩, ?_⟩, hidle⟩
    rw [if_neg hblock]
    rfl

/-- If every step of a fold goes well, the fold does. -/
theorem exists_foldlM {α : Type} {step : Bool × List InstrId → α → Edit (Bool × List InstrId)}
    {l : List α} (hstep : ∀ x ∈ l, ∀ a st, Kept a₀ f a → a.QueueFits [a₀.scopeOf f] st.2 →
      ∃ st' a', step st x a = .ok st' a' ∧ Onward a₀ f a st.2 a' st'.2)
    (hk : Kept a₀ f a) (hq : a.QueueFits [a₀.scopeOf f] st.2) :
    ∃ st' a', l.foldlM step st a = .ok st' a' ∧ Onward a₀ f a st.2 a' st'.2 := by
  induction l generalizing a st with
  | nil => exact ⟨st, a, rfl, .refl hk hq⟩
  | cons x l ih =>
    obtain ⟨st₁, a₁, hrun₁, hon₁⟩ := hstep x List.mem_cons_self a st hk hq
    obtain ⟨st', a', hrun, hon⟩ :=
      ih (fun y hy => hstep y (List.mem_cons_of_mem _ hy)) hon₁.kept hon₁.queue
    refine ⟨st', a', ?_, hon₁.trans hon⟩
    rw [List.foldlM_cons, bind_eq_ok]
    exact ⟨st₁, a₁, hrun₁, hrun⟩

/-- A visit of a whole block goes well. -/
theorem exists_visitBlock (hf : a₀.Runnable f) (hk : Kept a₀ f a)
    (hq : a.QueueFits [a₀.scopeOf f] st.2)
    (hb : b ∈ (a₀.scopeOf f).blocks) :
    ∃ st' a', visitBlock st b a = .ok st' a' ∧ Onward a₀ f a st.2 a' st'.2 := by
  obtain ⟨bb₀, hbb₀⟩ := hf.wired.block b hb
  obtain ⟨bb, hbb, hsub, -⟩ := hk.evolves.block b bb₀ hbb₀
  obtain ⟨st', a', hrun, hrest⟩ := exists_foldlM (fun i hi _ _ hk hq =>
    exists_visitInstr hf hk hq hb (body_of_block hbb₀ ▸ hsub.subset hi)) hk hq
  refine ⟨st', a', ?_, hrest⟩
  simp only [visitBlock, bind_eq_ok, look_eq_ok, block_eq_ok]
  exact ⟨bb, a, ⟨hbb, rfl⟩, hrun⟩

/-- A later stage without an entry of the queue is one with the entry. -/
theorem Onward.of_tail {a' : Arena} {q' : List InstrId} (h : Onward a₀ f a q a' q') :
    Onward a₀ f a (i :: q) a' q' :=
  ⟨h.kept, h.queue, h.circling, fun rank hr => ⟨(h.pays rank hr).1,
    (h.pays rank hr).2.trans (Nat.add_le_add_right (Nat.le_succ _) _)⟩⟩

/-- Visiting queued copies goes well until there are none, or meets the bound. It does not meet a
bound that covers the queue and the turns that are left. -/
theorem exists_drainQueue (hf : a₀.Runnable f) (steps : Nat)
    (progress : Bool) (hk : Kept a₀ f a) (hq : a.QueueFits [a₀.scopeOf f] queue) :
    (∃ a', drainQueue steps queue progress a = .error .endless a' ∧ ∀ rank,
        a.Falling [a₀.scopeOf f] rank → steps < queue.length + 2 * a.toll rank)
      ∨ ∃ moved a', drainQueue steps queue progress a = .ok moved a'
        ∧ Onward a₀ f a queue a' [] := by
  induction steps generalizing a queue progress with
  | zero =>
    cases queue with
    | nil => exact .inr ⟨progress, a, rfl, .refl hk hq⟩
    | cons i queue => exact .inl ⟨a, rfl, fun _ _ => by rw [List.length_cons]; omega⟩
  | succ steps ih =>
    cases queue with
    | nil => exact .inr ⟨progress, a, rfl, .refl hk hq⟩
    | cons i queue =>
      obtain ⟨⟨T, hT, hres⟩, hcopy⟩ := hq i List.mem_cons_self
      have hq' : a.QueueFits [a₀.scopeOf f] queue := fun j hj => hq j (List.mem_cons_of_mem _ hj)
      obtain ⟨ins, hins, -⟩ := id hres
      have hlook : look (·.instr i) a = .ok ins a := look_eq_ok.mpr ⟨instr_eq_ok.mpr hins, rfl⟩
      -- One entry is taken from the queue, and turns pay for those that come to it.
      have hlater {a₁ : Arena} {queue' : List InstrId} (progress : Bool)
          (hon : Onward a₀ f a queue a₁ queue') :
          (∃ a', drainQueue steps queue' progress a₁ = .error .endless a' ∧ ∀ rank,
            a.Falling [a₀.scopeOf f] rank → steps + 1 < (i :: queue).length + 2 * a.toll rank)
          ∨ ∃ moved a', drainQueue steps queue' progress a₁ = .ok moved a'
            ∧ Onward a₀ f a (i :: queue) a' [] := by
        rcases ih progress hon.kept hon.queue with ⟨a', hrun, hbound⟩ | ⟨moved, a', hrun, hrest⟩
        · refine .inl ⟨a', hrun, fun rank hr => ?_⟩
          obtain ⟨hr₁, hpays⟩ := hon.pays rank hr
          have := hbound rank hr₁
          rw [List.length_cons]
          omega
        · exact .inr ⟨moved, a', hrun, (hon.trans hrest).of_tail⟩
      rw [drainQueue, bind_of_ok hlook]
      cases hblock : ins.block with
      | none => exact hlater progress (.refl hk hq')
      | some b =>
        cases halu : ins.alu? with
        | none => exact hlater progress (.refl hk hq')
        | some p =>
          obtain ⟨d, hd⟩ := hk.sound.standsAs_of_resident hT hres hins hblock halu
            (hcopy ins p hins halu)
          obtain ⟨⟨moved, queue'⟩, a₁, hrun, hon⟩ := exists_visitCopy hf hk hd hq'
          simp only [bind_of_ok hrun]
          exact hlater _ hon

/-- A run ends well or meets the bound, and it does not meet a bound that covers the turns. If it
ends well it has broken no circles. -/
theorem exists_forwardCopiesWithin (hf : a.Runnable f) (bound : Arena → Nat) :
    (∃ a', forwardCopiesWithin bound f a = .error .endless a' ∧ ∃ a₁, Kept a f a₁ ∧ ∀ rank,
        a.Falling [a.scopeOf f] rank → bound a₁ < 2 * a.toll rank)
      ∨ ∃ progress a', forwardCopiesWithin bound f a = .ok progress a' ∧ Kept a f a'
        ∧ (a.Circling [a.scopeOf f] → a'.Circling [a.scopeOf f]) := by
  obtain ⟨⟨progress, queue⟩, a₁, hvisits, hon⟩ := exists_foldlM
    (l := (a.scopeOf f).blocks) (fun b hb _ _ hk hq => exists_visitBlock hf hk hq hb) hf.kept
    (show a.QueueFits _ (false, []).2 by simp [QueueFits])
  have hlook : look (·.blocksOf f) a = .ok (a.scopeOf f).blocks a :=
    look_eq_ok.mpr ⟨hf.blocksOf, rfl⟩
  have hget : (get : Edit Arena) a₁ = .ok a₁ a₁ := rfl
  rw [forwardCopiesWithin, bind_of_ok hlook, bind_of_ok hvisits]
  simp only [bind_of_ok hget]
  rcases exists_drainQueue hf (bound a₁) progress hon.kept hon.queue with
    ⟨a₂, hendless, hbound⟩ | ⟨moved, a₂, hdrain, hrest⟩
  · left
    refine ⟨a₂, ?_, a₁, hon.kept, fun rank hr => ?_⟩
    · change EStateM.bind _ _ _ = _
      rw [EStateM.bind, hendless]
    · obtain ⟨hr₁, hpays⟩ := hon.pays rank hr
      simpa using (hbound rank hr₁).trans_le hpays
  · right
    rw [bind_of_ok hdrain]
    refine ⟨moved, _, bind_of_ok (y := ()) rfl, hrest.kept.congr ?_ rfl ?_, fun hc =>
      ((hon.trans hrest).circling hc).congr ?_⟩
    · exact code_modifyFunction_of_bare fun _ => rfl
    · exact hrest.kept.sound.update _ a₂.counters
    · exact code_modifyFunction_of_bare fun _ => rfl

end Edit

namespace Arena

variable {a₀ a : Arena} {f : FunctionId} {g : Function} {region : Region} {b : BlockId}
  {i : InstrId} {d v : ValueId} {u : UseId}

/-! ### Exact use-lists -/

/-- The lists of the values of a scope hold uses that the scope reads, at the places that these
remember. -/
def ListsExact (a : Arena) (T : Scope) : Prop :=
  ∀ v, T.defined v → ∀ x, a.values[v.idx]? = some x → ∀ c (k : Nat) u, (x.usesOf c)[k]? = some u →
    a.Reads T u ∧ ∃ use, a.uses[u.idx]? = some use ∧ use.slot = some k ∧ use.value = some v
      ∧ use.guards.isSome = c

/-- What a sound scope reads is listed. -/
theorem Sound.listed_of_reads {Ts : List Scope} {U : UseId → Prop} (h : a.Sound Ts U)
    (hT : T ∈ Ts) (hu : a.Reads T u) : a.Listed u := by
  obtain ⟨hU, use, huse, hslot⟩ := h.reads T hT u hu
  obtain ⟨use', v, x, huse', hval, -, hx, hlisted⟩ := h.lists.slot u hU
  cases huse.symm.trans huse'
  obtain ⟨k, hk⟩ := Option.isSome_iff_exists.mp hslot
  exact ⟨use, v, x, k, huse, hval, hx, hk, hlisted k hk⟩

namespace ListsExact

/-- Exact use-lists fit. -/
theorem listsFit (h : a.ListsExact T) (hw : a.Wired T)
    (hplace : ∀ b ∈ T.blocks, ∀ i ∈ a.body b, ∀ ins, a.instrs[i.idx]? = some ins →
      ins.block = some b)
    {branches : List (ConstructId × Option BlockId)} (hifs : T.ifs = branches.map Prod.fst)
    (hv : T.defined v) : a.ListsFit branches v := by
  obtain ⟨x, hx⟩ := hw.value v hv
  refine ⟨x, hx, fun u k hk => ?_, fun u k hk => ?_⟩
  · obtain ⟨hread, use, huse, hslot, -, hguards⟩ := h v hv x hx false k u hk
    rcases hread with ⟨b, hb, i, hi, ins, hins, hmem⟩ | ⟨c, hc, con, yes, no, hcon, hshape⟩
    · obtain ⟨huser, -⟩ := hw.reader_of_source hb hi hins hmem huse
      exact ⟨use, i, ins, huse, hslot, huser, hins, by simp [hplace b hb i hi ins hins], hmem⟩
    · simp [(hw.reader_of_condition hc hcon hshape huse).1] at hguards
  · obtain ⟨hread, use, huse, hslot, -, hguards⟩ := h v hv x hx true k u hk
    rcases hread with ⟨b, hb, i, hi, ins, hins, hmem⟩ | ⟨c, hc, con, yes, no, hcon, hshape⟩
    · simp [(hw.reader_of_source hb hi hins hmem huse).2] at hguards
    · obtain ⟨hguards', -⟩ := hw.reader_of_condition hc hcon hshape huse
      exact ⟨use, c, huse, hslot, hguards', hifs ▸ hc⟩

variable (h : a.ListsExact (a₀.scopeOf f)) (he : Evolves (a₀.scopeOf f) a₀ a)
  (hg : a₀.functions[f.idx]? = some g) (hw : a₀.Wired (a₀.scopeOf f))

include h he hg hw

/-- Lists that are exact for the scope before a pass are so for what is left of it. -/
theorem entry (hv : DefinedBy [a.scopeOf f] v) (hx : a.values[v.idx]? = some x)
    (hu : u ∈ x.usesOf c) : a.Reads (a.scopeOf f) u ∧ ∃ use, a.uses[u.idx]? = some use
      ∧ use.value = some v ∧ use.guards.isSome = c := by
  obtain ⟨d, hd⟩ := defined_iff_standsFor.mp (definedBy_singleton.mp hv)
  obtain ⟨k, hk⟩ := List.mem_iff_getElem?.mp hu
  obtain ⟨hread, use, huse, -, hval, hguards⟩ :=
    h v (defined_iff_standsFor.mpr ⟨d, he.standsFor hg hw hd⟩) x hx c k u hk
  refine ⟨?_, use, huse, hval, hguards⟩
  unfold Reads at hread ⊢
  rwa [he.scope_blocks hg, he.scope_ifs hg]

theorem listsRead : a.ListsRead [a.scopeOf f] :=
  fun _ hv _ hx _ _ hu => (h.entry he hg hw hv hx hu).2

theorem listsOwn : a.ListsOwn [a.scopeOf f] :=
  fun _ hv _ hx _ _ hu => ⟨_, List.mem_singleton_self _, (h.entry he hg hw hv hx hu).1⟩

end ListsExact

/-! ### What a run leaves -/

section Left

variable (h : Kept a₀ f a) (hf : a₀.Forwardable f g region)

include h hf

namespace Kept

/-- What defines a value after a run defined it before and was not taken out. -/
theorem standsFor_iff {e : InstrId} : a.StandsFor f e v ↔
    a₀.StandsFor f e v ∧ ∃ home ∈ (a₀.scopeOf f).blocks, e ∈ a.body home := by
  have hblocks := h.evolves.scope_blocks hf.obeys.function
  constructor
  · rintro ⟨home, hhome, he, ens, hens, hv⟩
    rw [hblocks] at hhome
    obtain ⟨he₀, ens₀, hens₀, hact, -⟩ := h.evolves.exists_before hf.obeys.wired hhome he hens
    exact ⟨⟨home, hhome, he₀, ens₀, hens₀, Instr.definitions_congr hact ▸ hv⟩, home, hhome, he⟩
  · rintro ⟨⟨-, -, -, ens₀, hens₀, hv⟩, home, hhome, he⟩
    obtain ⟨ens, hens, hact, -⟩ := h.evolves.instr e ens₀ hens₀
    exact ⟨home, hblocks ▸ hhome, he, ens, hens, Instr.definitions_congr hact ▸ hv⟩

theorem defined_of_defined (hv : (a.scopeOf f).defined v) : (a₀.scopeOf f).defined v := by
  obtain ⟨e, he⟩ := defined_iff_standsFor.mp hv
  exact defined_iff_standsFor.mpr ⟨e, ((h.standsFor_iff hf).mp he).1⟩

theorem reads_scope : a.Reads (a.scopeOf f) u ↔ a.Reads (a₀.scopeOf f) u := by
  unfold Reads
  rw [h.evolves.scope_blocks hf.obeys.function, h.evolves.scope_ifs hf.obeys.function]

omit hf in
/-- A run leaves exact use-lists. -/
theorem listsExact : a.ListsExact (a₀.scopeOf f) := by
  intro v hv x hx c k u hk
  have hV := definedBy_singleton.mpr hv
  obtain ⟨hU, hatt, -⟩ := h.sound.entry hV hx (List.mem_of_getElem? hk)
  exact ⟨h.own u hU hatt, h.sound.lists.entry v x hV hx c k u hk⟩

/-- A run sees to what a pass has to see to. -/
theorem upholds : Upholds a₀ a f region where
  evolves := h.evolves
  place := (h.sound.homed _ (List.mem_singleton_self _)).place
  stands u hu use v huse hval := by
    obtain ⟨e, home, hhome, he, hstands⟩ := h.stands u hu use v huse hval
    exact ⟨e, (h.standsFor_iff hf).mpr ⟨hstands, home, hhome, he⟩⟩
  lanes b hb i hi ins hins u hu := by
    obtain ⟨hi₀, ins₀, hins₀, hact, hind⟩ := h.evolves.exists_before hf.obeys.wired hb hi hins
    exact h.lanes b hb i hi₀ ins₀ hins₀ u (Instr.sources_congr hact hind ▸ hu)
  order u b reader hasked _ use v e huse hval he hreach :=
    h.order g region hf u b reader hasked use v e huse hval ((h.standsFor_iff hf).mp he).1 hreach
  listed _ hu := h.sound.listed_of_reads (List.mem_singleton_self _) hu
  lists v hv := h.listsExact.listsFit (h.sound.wired _ (List.mem_singleton_self _))
    (h.sound.homed _ (List.mem_singleton_self _)).place (scopeOf_ifs hf.obeys.bodyRegion)
    (h.defined_of_defined hf hv)

theorem listsRead : a.ListsRead [a.scopeOf f] :=
  h.listsExact.listsRead h.evolves hf.obeys.function hf.obeys.wired

theorem listsOwn : a.ListsOwn [a.scopeOf f] :=
  h.listsExact.listsOwn h.evolves hf.obeys.function hf.obeys.wired

/-- Nobody reads what was taken out. -/
theorem isUnused_of_gone (hb : b ∈ (a₀.scopeOf f).blocks) (hi : i ∈ a₀.body b)
    (hgone : i ∉ a.body b) (hins : a₀.instrs[i.idx]? = some ins)
    (hd : some d ∈ ins.definitions) (hx : a.values[d.idx]? = some x) :
    x.isUnused = true := by
  have hdefined : (a₀.scopeOf f).defined d := ⟨b, hb, i, hi, ins, hins, hd⟩
  have hnone (c : Bool) (u : UseId) : u ∉ x.usesOf c := by
    intro hu
    obtain ⟨k, hk⟩ := List.mem_iff_getElem?.mp hu
    obtain ⟨hread, use, huse, -, hval, -⟩ := h.listsExact d hdefined x hx c k u hk
    obtain ⟨e, home, hhome, he, hstands⟩ := h.stands u hread use d huse hval
    obtain rfl := hstands.eq ⟨b, hb, hi, ins, hins, hd⟩ hf.obeys.wired
    obtain ⟨bb, hbb⟩ := hf.obeys.wired.block home hhome
    obtain rfl := hf.distinct.home_eq hhome hb ((h.evolves.body_sublist hbb).subset he) hi
    exact hgone he
  have huses : x.uses = [] := List.eq_nil_iff_forall_not_mem.mpr (hnone false)
  have hconditions : x.conditions = [] := List.eq_nil_iff_forall_not_mem.mpr (hnone true)
  simp [Value.isUnused, huses, hconditions]

end Kept

end Left

theorem inUse_eq_reads (h : a.ListsOwn [a.scopeOf f]) :
    a.InUse [a.scopeOf f] = a.Reads (a.scopeOf f) := by
  have hsingle {u : UseId} (hu : ∃ T ∈ [a.scopeOf f], a.Reads T u) : a.Reads (a.scopeOf f) u := by
    obtain ⟨T, hT, hu⟩ := hu
    exact List.mem_singleton.mp hT ▸ hu
  funext u
  refine propext ⟨?_, fun hu => .inl ⟨_, List.mem_singleton_self _, hu⟩⟩
  rintro (hu | ⟨v, x, c, hv, hx, hu⟩)
  · exact hsingle hu
  · exact hsingle (h v hv x hx c u hu)

theorem sound_scope (hacc : a.Accepted f) (hlists : a.ListsRead [a.scopeOf f])
    (hown : a.ListsOwn [a.scopeOf f]) : a.Sound [a.scopeOf f] (a.Reads (a.scopeOf f)) := by
  rw [← inUse_eq_reads hown]
  exact sound_of_accepted [f] (by simpa using hacc) hlists hown

theorem runnable_of_accepted (hacc : a.Accepted f) (hlists : a.ListsRead [a.scopeOf f])
    (hown : a.ListsOwn [a.scopeOf f]) (hwide : a.ValuesHaveLanes f) : a.Runnable f := by
  obtain ⟨_, g, region, _, _, hc⟩ := hacc.checked
  exact ⟨hc.scope_blocks ▸ hc.blocksOf, fun b hb i hi => hc.instrFits hb hi,
    fun b hb i hi ins hins u hu use v x huse hval hx => hc.lanesFit hb hi hins hu huse hval hx,
    sound_scope hacc hlists hown, hwide⟩

theorem forwardable_of_accepted (hacc : a.Accepted f) (he : a.EdgesCurrent f)
    (hdistinct : a.InstrsDistinct f) (hlists : a.ListsRead [a.scopeOf f])
    (hown : a.ListsOwn [a.scopeOf f]) (hwide : a.ValuesHaveLanes f) :
    ∃ g region, a.Forwardable f g region := by
  obtain ⟨_, g, region, _, _, hc⟩ := hacc.checked
  exact ⟨g, region, runnable_of_accepted hacc hlists hown hwide, hc.obeys he hdistinct,
    hc.flowsWithin he, hdistinct⟩

/-- A run on a function that passes the check goes on until it ends or meets the bound, whichever
bound it is. If it ends the function passes the check: readings find their lanes and definitions,
use-lists list just what reads their values, and nobody reads what was taken out. -/
theorem forwardCopies_keeps_valid (hacc : a.Accepted f) (he : a.EdgesCurrent f)
    (hdistinct : a.InstrsDistinct f) (hlists : a.ListsRead [a.scopeOf f])
    (hown : a.ListsOwn [a.scopeOf f]) (hwide : a.ValuesHaveLanes f) :
    Edit.forwardCopies f = Edit.forwardCopiesWithin queueBound f
      ∧ ∀ bound, (∃ a', Edit.forwardCopiesWithin bound f a = .error .endless a')
        ∨ ∃ progress a', Edit.forwardCopiesWithin bound f a = .ok progress a' ∧ a'.Accepted f
          ∧ a'.ReadingsObey f ∧ (∀ u, a'.Reads (a'.scopeOf f) u → a'.Listed u)
          ∧ a'.ListsRead [a'.scopeOf f] ∧ a'.ListsOwn [a'.scopeOf f]
          ∧ ∀ b ∈ (a.scopeOf f).blocks, ∀ i ∈ a.body b, i ∉ a'.body b →
            ∀ ins d x, a.instrs[i.idx]? = some ins → some d ∈ ins.definitions →
              a'.values[d.idx]? = some x → x.isUnused = true := by
  obtain ⟨g, region, hf⟩ := forwardable_of_accepted hacc he hdistinct hlists hown hwide
  refine ⟨Edit.forwardCopies_eq_within f, fun bound => ?_⟩
  refine (Edit.exists_forwardCopiesWithin hf.toRunnable bound).imp
    (Exists.imp fun _ => And.left) ?_
  rintro ⟨progress, a', hrun, hk, -⟩
  have hup := hk.upholds hf
  exact ⟨progress, a', hrun, hup.accepted hf.obeys hf.within hf.distinct,
    hup.readingsObey hf.obeys hf.within hf.distinct,
    fun u hu => hup.listed u ((hk.reads_scope hf).mp hu), hk.listsRead hf, hk.listsOwn hf,
    fun b hb i hi hgone ins d x hins hd hx => hk.isUnused_of_gone hf hb hi hgone hins hd hx⟩

/-- The copy of the sample is taken out, and the sample is valid still. -/
theorem forwardCopies_keeps_valid_guardedCopy :
    ∃ a', Edit.forwardCopies ⟨0⟩ Edit.guardedCopy.built = .ok true a' ∧ a'.Accepted ⟨0⟩ := by
  obtain ⟨a₁, hrun⟩ := Edit.result?_eq_some.mp
    (show (Edit.forwardCopies ⟨0⟩).result? Edit.guardedCopy.built = some true by decide +kernel)
  obtain ⟨hwithin, hall⟩ := forwardCopies_keeps_valid (a := Edit.guardedCopy.built) (f := ⟨0⟩)
    (by decide +kernel) (by decide +kernel) (by decide +kernel) (by decide +kernel)
    (by decide +kernel) (by decide +kernel)
  rcases hall queueBound with ⟨a', hendless⟩ | ⟨progress, a', hrun', hacc, -⟩
  · rw [← hwithin, hrun] at hendless
    cases hendless
  · rw [← hwithin, hrun] at hrun'
    cases hrun'
    exact ⟨a₁, hrun, hacc⟩

end Arena

end ShaderCompiler
