import ShaderCompiler.Proofs.Forwarding.Ends

/-!
# When runs of forwarding end

A run of forwarding ends if and only if the lanes that copies move do not go round in a circle. Lanes
that do are looked through for ever: as long as there are any, some copy among them can look
through the next one. Otherwise a lane is ranked by the copies through which it comes, and every
turn goes down.

The check makes sure of this where control gets to. It does not look at the order of definitions and
readings elsewhere, so a function with a circle of copies in a place that control does not get to
passes the check.
-/

namespace ShaderCompiler

variable {s : ValueId × Nat}

namespace Arena

open Relation (TransGen ReflTransGen)

variable {a : Arena} {Ts : List Scope} {U : UseId → Prop} {f : FunctionId} {i : InstrId}
  {p : Alu} {d : ValueId} {x : Value}

/-! ### Circles -/

/-- Lanes on the way from a lane to itself are moved into one another without an end. -/
theorem circling_of_transGen (h : TransGen (a.Moves Ts) s s) :
    a.Circling Ts := by
  refine ⟨{t | TransGen (a.Moves Ts) s t ∧ TransGen (a.Moves Ts) t s}, ⟨s, h, h⟩, ?_⟩
  rintro t ⟨hst, hts⟩
  obtain ⟨r, htr, hrs⟩ := TransGen.head'_iff.mp hts
  exact ⟨r, ⟨hst.tail htr, TransGen.trans_right hrs h⟩, htr⟩

/-- A source of a gathering operation reads one lane, so it finds its lanes in one value. -/
theorem gathersOne_of_gather {j : InstrId} {q : Alu} {e : ValueId} {y : Value} {u : UseId}
    {use : Use} {k m : Nat} {t : ValueId × Nat} (hq : a.CopyFits j q e y) (hqop : q.op ≠ .mov)
    (hu : some u ∈ q.srcs) (huse : a.uses[u.idx]? = some use)
    (hpos : a.aluPosition u = .ok (some (q, k))) (hm : use.swizzle[0]? = some m)
    (hpop : p.op ≠ .mov) (hlane : a.laneOf p m = some t) : a.GathersOne p u t.1 := by
  obtain ⟨-, -, -, -, k', -, -, -, hk', hpos', -⟩ := hq.source hu
  cases hpos.symm.trans hpos'
  have hone := (sourceWidth_of_gather hq.alu (hq.op.resolve_left hqop) hq.dest hq.value).2 k hk'
  simp only [laneOf, hpop, if_false, Option.bind_eq_bind, Option.bind_eq_some_iff, Option.pure_def,
    Option.some.injEq] at hlane
  obtain ⟨_, hs, src, rfl, suse, hsuse, w, hval, -, -, rfl⟩ := hlane
  refine ⟨use, 1, huse, (reads_of_position hpos).trans hone, fun l hl => ?_⟩
  obtain rfl : l = 0 := by omega
  exact ⟨m, src, suse, hm, hs, hsuse, hval⟩

/-- As long as lanes go round in a circle, some copy could look through another. -/
theorem Circling.not_settled (h : a.Circling Ts) (hs : a.Sound Ts U) (hfits : a.CopiesFit Ts) :
    ¬ a.Settled Ts := by
  intro hset
  obtain ⟨S, ⟨s, hsS⟩, hS⟩ := h
  -- What a copy of the circle reads is a gathering operation, and the copy itself is not.
  have hstuck (s) (hsS : s ∈ S) (j c q) (hj : a.StandsAs Ts j c q s.1) : q.op = .mov
      ∧ ∃ t ∈ S, ∃ i b p, a.StandsAs Ts i b p t.1 ∧ p.op ≠ .mov := by
    obtain ⟨t, htS, j', c', q', x, hj', hx, hl, hlane⟩ := hS s hsS
    obtain ⟨-, rfl⟩ := hj.unique hj' hs
    obtain ⟨r, -, i, b, p, -, hi, -, -, hnext⟩ := hS t htS
    obtain ⟨x', hq⟩ := hfits j c q s.1 hj
    obtain rfl : x' = x := Option.some.inj (hq.value.symm.trans hx)
    obtain ⟨src, use, w, -, k, n, m, hsrc, huse, hval, -, hpos, -, -, hfirst, -⟩ :=
      hq.exists_lane hl
    obtain rfl : (w, m) = t := Option.some.inj ((laneOf_eq hsrc huse hval hfirst).symm.trans hlane)
    have hmem := List.mem_of_getElem? hsrc
    obtain ⟨T, hT, hread⟩ := hj.exists_reads hmem
    have hnot := hset.not_foldable hs hT hi hread huse hval
    have halu := aluPosition_eq_some hpos
    have hpop : p.op ≠ .mov := fun hop => hnot (.inl ⟨halu, .inl hop⟩)
    refine ⟨?_, (w, m), htS, i, b, p, hi, hpop⟩
    by_contra hqop
    rw [if_neg hqop] at hfirst
    exact hnot (.inl ⟨halu, .inr ⟨hpop, r.1,
      gathersOne_of_gather hq hqop hmem huse hpos hfirst hpop hnext⟩⟩)
  obtain ⟨-, -, j, c, q, -, hj, -⟩ := hS s hsS
  obtain ⟨-, t, htS, i, b, p, hi, hpop⟩ := hstuck s hsS j c q hj
  exact hpop (hstuck t htS i b p hi).1

/-! ### Ranks without circles -/

/-- A copy has sixteen lanes at most. -/
theorem CopyFits.comps_le (h : a.CopyFits i p d x) : x.comps ≤ maxLanes := by
  by_cases hop : p.op = .mov
  · obtain ⟨-, -, -, -, -, -, -, -, -, -, hmax, -⟩ := h.of_mov hop
    exact hmax
  · have hgather := h.op.resolve_left hop
    obtain ⟨hlen, -⟩ := sourceWidth_of_gather h.alu hgather h.dest h.value
    obtain ⟨info, hinfo, hinputs, -, hle⟩ := info_of_isGather hgather
    obtain ⟨info', hinfo', hlen', -⟩ := h.alu
    cases hinfo.symm.trans hinfo'
    rw [hinputs, List.length_replicate] at hlen'
    exact hlen ▸ hlen' ▸ hle

open Classical in
/-- The lanes of copies through which a lane comes: numbers of lanes, with the instructions. -/
noncomputable def course (a : Arena) (Ts : List Scope) (s : ValueId × Nat) : Finset (Nat × Nat) :=
  {k ∈ Finset.range maxLanes ×ˢ Finset.range a.instrs.size |
    ∃ t b p, ReflTransGen (a.Moves Ts) s t ∧ t.2 = k.1 ∧ a.StandsAs Ts ⟨k.2⟩ b p t.1}

theorem mem_course {k : Nat × Nat} : k ∈ a.course Ts s ↔
    (k.1 < maxLanes ∧ k.2 < a.instrs.size)
      ∧ ∃ t b p, ReflTransGen (a.Moves Ts) s t ∧ t.2 = k.1 ∧ a.StandsAs Ts ⟨k.2⟩ b p t.1 := by
  simp [course]

theorem card_course_le (a : Arena) (Ts : List Scope) (s : ValueId × Nat) :
    (a.course Ts s).card ≤ maxLanes * a.instrs.size := by
  calc (a.course Ts s).card
      ≤ (Finset.range maxLanes ×ˢ Finset.range a.instrs.size).card :=
        Finset.card_le_card fun k hk => by simpa using (mem_course.mp hk).1
    _ = maxLanes * a.instrs.size := by simp

/-- Without circles moved lanes come through fewer copies. -/
theorem falling_card_course (hfits : a.CopiesFit Ts)
    (hacyclic : ∀ s, ¬ TransGen (a.Moves Ts) s s) :
    a.Falling Ts fun s => (a.course Ts s).card := by
  intro s t hmove
  refine Finset.card_lt_card (Finset.ssubset_iff_subset_ne.mpr ⟨fun k hk => ?_, fun heq => ?_⟩)
  · obtain ⟨hlt, r, b, p, htr, hr⟩ := mem_course.mp hk
    exact mem_course.mpr ⟨hlt, r, b, p, .head hmove htr, hr⟩
  · -- The lane itself is a lane of a copy, and what is moved into it does not come through it.
    obtain ⟨i, b, p, x, hi, hx, hl, -⟩ := id hmove
    obtain ⟨x', hp⟩ := hfits i b p s.1 hi
    obtain rfl : x' = x := Option.some.inj (hp.value.symm.trans hx)
    have hsize : i.idx < a.instrs.size := by
      obtain ⟨⟨ins, hins, -⟩, -⟩ := hp.sources
      exact (Array.getElem?_eq_some_iff.mp hins).1
    have hmem : (s.2, i.idx) ∈ a.course Ts t := by
      rw [heq]
      exact mem_course.mpr ⟨⟨hl.trans_le hp.comps_le, hsize⟩, s, b, p, .refl, rfl, hi⟩
    obtain ⟨-, r, c, q, htr, hlane, hj⟩ := mem_course.mp hmem
    obtain rfl : r = s := by
      refine Prod.ext ?_ hlane
      obtain rfl := hi.alu_eq hj
      exact Option.some.inj (hj.dest.symm.trans hi.dest)
    exact hacyclic r (TransGen.head' hmove htr)

/-! ### Runs on circles -/

/-- A run on a function whose lanes go round in a circle goes beyond every bound. -/
theorem endless_of_circling (hacc : a.Accepted f) (hlists : a.ListsRead [a.scopeOf f])
    (hown : a.ListsOwn [a.scopeOf f]) (hwide : a.ValuesHaveLanes f)
    (hcircling : a.Circling [a.scopeOf f]) (bound : Arena → Nat) :
    ∃ a', Edit.forwardCopiesWithin bound f a = .error .endless a' := by
  have hf := runnable_of_accepted hacc hlists hown hwide
  rcases Edit.exists_forwardCopiesWithin hf bound with
    ⟨a', hrun, -⟩ | ⟨progress, a', hrun, hkept, hcircles⟩
  · exact ⟨a', hrun⟩
  · -- A run that ends has settled all copies.
    obtain ⟨-, -, hpending, -⟩ := Edit.forwardCopiesWithin_spec (List.mem_singleton_self _)
      hf.blocksOf hf.sound (pending_scope a _) hrun
    exact ((hcircles hcircling).not_settled hkept.sound (hkept.copiesFit hf) hpending).elim

/-- Lanes that fall in rank do not go round in a circle. -/
theorem Falling.not_transGen {rank : ValueId × Nat → Nat} (h : a.Falling Ts rank)
    (s : ValueId × Nat) : ¬ TransGen (a.Moves Ts) s s := by
  have hlt {s t : ValueId × Nat} (hst : TransGen (a.Moves Ts) s t) : rank t < rank s := by
    induction hst with
    | single hmove => exact h _ _ hmove
    | tail _ hmove ih => exact (h _ _ hmove).trans ih
  exact fun hs => lt_irrefl _ (hlt hs)

/-- A run on a function that passes the check ends if and only if no lanes of copies go round in a
circle. If some do, the run goes beyond every bound: there is always something left in the queue.
No lanes do if control gets to all blocks of the function. -/
theorem forwardCopies_ends_iff (hacc : a.Accepted f) (hlists : a.ListsRead [a.scopeOf f])
    (hown : a.ListsOwn [a.scopeOf f]) (hwide : a.ValuesHaveLanes f) :
    ((∃ progress a', Edit.forwardCopies f a = .ok progress a')
        ↔ ∀ s, ¬ TransGen (a.Moves [a.scopeOf f]) s s)
      ∧ ((∃ s, TransGen (a.Moves [a.scopeOf f]) s s) → ∀ bound,
        ∃ a', Edit.forwardCopiesWithin bound f a = .error .endless a')
      ∧ (a.Connected f → ∀ s, ¬ TransGen (a.Moves [a.scopeOf f]) s s) := by
  have hendless (hcircle : ∃ s, TransGen (a.Moves [a.scopeOf f]) s s) (bound : Arena → Nat) :
      ∃ a', Edit.forwardCopiesWithin bound f a = .error .endless a' := by
    obtain ⟨s, hs⟩ := hcircle
    exact endless_of_circling hacc hlists hown hwide (circling_of_transGen hs) bound
  refine ⟨⟨?_, fun hacyclic => ?_⟩, hendless, fun hconn => ?_⟩
  · rintro ⟨progress, a', hrun⟩ s hs
    obtain ⟨a₁, hlate⟩ := hendless ⟨s, hs⟩ queueBound
    rw [Edit.forwardCopies_eq_within] at hrun
    cases hrun.symm.trans hlate
  · have hf := runnable_of_accepted hacc hlists hown hwide
    exact exists_forwardCopies_of_falling hf
      (falling_card_course (hf.kept.copiesFit hf) hacyclic) (a.card_course_le _)
  · obtain ⟨_, _, _, _, _, hc⟩ := hacc.checked
    exact (hc.falling hconn).not_transGen

end Arena

namespace Edit

/-- Leaves in front of an `if` that control does not get to, with two copies of one another. -/
def circledCopies : Edit Unit := do
  let c ← newFunction "main"
  let _ ← c.const [5]
  let _ ← c.jump .leaveFunction
  let (_, c) ← c.openIf (some ⟨0⟩)
  let _ ← c.mov (some ⟨0⟩) []
  let _ ← c.mov (some ⟨1⟩) []
  let (_, c) ← c.closeIf
  c.finish
  repoint ⟨1⟩ (some ⟨2⟩)

end Edit

namespace Arena

open Edit

/-- The copies of the sample move their lanes into one another. -/
theorem moves_circledCopies : ∀ s ∈ [(1, 2), (2, 1)],
    circledCopies.built.Moves [circledCopies.built.scopeOf ⟨0⟩] (⟨s.1⟩, 0) (⟨s.2⟩, 0) := by
  have hplaces : ∀ s ∈ [(1, 2), (2, 1)], (⟨3⟩ : BlockId) ∈ (circledCopies.built.scopeOf ⟨0⟩).blocks
      ∧ (⟨s.1 + 1⟩ : InstrId) ∈ circledCopies.built.body ⟨3⟩
      ∧ ∃ x ∈ circledCopies.built.values[s.1]?, 0 < x.comps := by
    decide +kernel
  have hcopies : ∀ s ∈ [(1, 2), (2, 1)], ∃ ins ∈ circledCopies.built.instrs[s.1 + 1]?,
      ins.block = some ⟨3⟩ ∧ ∃ p ∈ ins.alu?, p.dest = some ⟨s.1⟩
        ∧ circledCopies.built.isCopy p = .ok true
        ∧ circledCopies.built.laneOf p 0 = some (⟨s.2⟩, 0) := by
    decide +kernel
  intro s hs
  obtain ⟨hb, hi, x, hx, hl⟩ := hplaces s hs
  obtain ⟨ins, hins, hblock, p, hp, hdest, hcopy, hlane⟩ := hcopies s hs
  exact ⟨⟨s.1 + 1⟩, ⟨3⟩, p, x, ⟨_, List.mem_singleton_self _, hb, hi, ins, hins, hblock,
    Instr.alu?_eq_some.mp hp, hdest, hcopy⟩, hx, hl, hlane⟩

/-- The sample passes the check, and a run on it goes beyond every bound. -/
theorem forwardCopies_ends_iff_circledCopies : circledCopies.built.Accepted ⟨0⟩ ∧ ∀ bound,
    ∃ a', Edit.forwardCopiesWithin bound ⟨0⟩ circledCopies.built = .error .endless a' := by
  have hacc : circledCopies.built.Accepted ⟨0⟩ := by decide +kernel
  obtain ⟨-, hendless, -⟩ := forwardCopies_ends_iff hacc (by decide +kernel) (by decide +kernel)
    (by decide +kernel)
  have hthere := moves_circledCopies (1, 2) (by simp)
  have hback := moves_circledCopies (2, 1) (by simp)
  exact ⟨hacc, hendless ⟨_, .tail (.single hthere) hback⟩⟩

end Arena

end ShaderCompiler
