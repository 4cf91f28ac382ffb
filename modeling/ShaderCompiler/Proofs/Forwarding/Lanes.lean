import ShaderCompiler.Proofs.Forwarding.Run
import ShaderCompiler.Proofs.Forwarding.Total

/-!
# The lanes that copies move

A copy takes each lane of its result from a lane of a value that it reads. Looking through a copy
follows such a move: where the copy that is turned moved a lane of the other copy, it moves what
the other one moves there. So moves are composed, and never lead anywhere new. If lanes go down in
rank when they are moved they do so afterwards, and lanes that went round in a circle still do. A
copy that nobody reads is on no circle, so taking it out breaks none.

The one exception is a `mov` that reads its own result, whose lanes change while they are composed.
All lanes of it go round in a circle before and after.
-/

namespace ShaderCompiler

variable {s t : ValueId × Nat}

namespace Arena

variable {a a' : Arena} {Ts : List Scope} {T : Scope} {U : UseId → Prop}
  {rank : ValueId × Nat → Nat} {i j : InstrId} {b c : BlockId} {p q : Alu} {d e v : ValueId}
  {u : UseId} {use : Use} {x : Value} {z : Swizzle} {l : Nat}

/-- A standing copy moves the second lane into the first. -/
def Moves (a : Arena) (Ts : List Scope) (s t : ValueId × Nat) : Prop :=
  ∃ i b p x, a.StandsAs Ts i b p s.1 ∧ a.values[s.1.idx]? = some x ∧ s.2 < x.comps
    ∧ a.laneOf p s.2 = some t

/-- Moved lanes go down in rank. -/
def Falling (a : Arena) (Ts : List Scope) (rank : ValueId × Nat → Nat) : Prop :=
  ∀ s t, a.Moves Ts s t → rank t < rank s

/-- Some lanes are moved into one another without an end. -/
def Circling (a : Arena) (Ts : List Scope) : Prop :=
  ∃ S : Set (ValueId × Nat), S.Nonempty ∧ ∀ s ∈ S, ∃ t ∈ S, a.Moves Ts s t

/-- The sources of all standing copies read lanes that are there. -/
def CopiesFit (a : Arena) (Ts : List Scope) : Prop :=
  ∀ i b p d, a.StandsAs Ts i b p d → ∃ x, a.CopyFits i p d x

/-! ### Moves -/

theorem StandsAs.dest (h : a.StandsAs Ts i b p d) : p.dest = some d := by
  obtain ⟨-, -, -, -, -, -, -, -, hdest, -⟩ := h
  exact hdest

/-- A value is the result of one copy at most. -/
theorem StandsAs.unique (h : a.StandsAs Ts i b p d) (h' : a.StandsAs Ts j c q d)
    (hs : a.Sound Ts U) : i = j ∧ p = q := by
  obtain ⟨-, x, hx, hby⟩ := hs.dest h
  obtain ⟨-, y, hy, hby'⟩ := hs.dest h'
  cases hx.symm.trans hy
  obtain rfl : i = j := Option.some.inj (hby.symm.trans hby')
  exact ⟨rfl, h.alu_eq h'⟩

/-- A lane is moved from one lane at most. -/
theorem Moves.unique {t' : ValueId × Nat} (h : a.Moves Ts s t) (h' : a.Moves Ts s t')
    (hs : a.Sound Ts U) : t = t' := by
  obtain ⟨i, b, p, x, hi, -, -, ht⟩ := h
  obtain ⟨j, c, q, y, hj, -, -, ht'⟩ := h'
  obtain ⟨-, rfl⟩ := hi.unique hj hs
  exact Option.some.inj (ht.symm.trans ht')

/-- The source from which a copy moves a lane. -/
theorem CopyFits.exists_lane (h : a.CopyFits i p d x) (hl : l < x.comps) : ∃ src use w y k n m,
    p.srcs[if p.op = .mov then 0 else l]? = some (some src) ∧ a.uses[src.idx]? = some use
      ∧ use.value = some w ∧ a.values[w.idx]? = some y ∧ a.aluPosition src = .ok (some (p, k))
      ∧ a.sourceWidth p k = .ok n ∧ (if p.op = .mov then l else 0) < n
      ∧ use.swizzle[if p.op = .mov then l else 0]? = some m ∧ m < y.comps := by
  by_cases hop : p.op = .mov
  · obtain ⟨src, use, w, y, hsrcs, huse, hval, hy, hpos, hn, -, hlanes⟩ := h.of_mov hop
    obtain ⟨m, hm, hlane⟩ := hlanes l hl
    exact ⟨src, use, w, y, 0, x.comps, m, by simp [hop, hsrcs], huse, hval, hy, hpos, hn,
      by simpa [hop] using hl, by simpa [hop] using hlane, hm⟩
  · obtain ⟨src, use, w, y, k, hsrc, huse, hval, hy, hpos, hn, hm⟩ := h.of_gather hop hl
    exact ⟨src, use, w, y, k, 1, use.swizzle[0], by simpa [hop] using hsrc, huse, hval, hy, hpos,
      hn, by simp [hop], by simp [hop], hm⟩

theorem laneOf_eq {src : UseId} {m : Nat}
    (hsrc : p.srcs[if p.op = .mov then 0 else l]? = some (some src))
    (huse : a.uses[src.idx]? = some use) (hval : use.value = some v)
    (hlane : use.swizzle[if p.op = .mov then l else 0]? = some m) :
    a.laneOf p l = some (v, m) := by
  simp [laneOf, hsrc, huse, hval, hlane]

/-- A copy moves lanes of values that it reads. -/
theorem offers_of_laneOf (h : a.laneOf p l = some t) : a.Offers p t.1 := by
  simp only [laneOf, Option.bind_eq_bind, Option.bind_eq_some_iff, Option.pure_def,
    Option.some.injEq] at h
  obtain ⟨_, hs, src, rfl, use, huse, v, hval, m, -, rfl⟩ := h
  exact ⟨src, use, List.mem_of_getElem? hs, huse, hval⟩

/-- A source of a copy that reads several lanes is the source of a `mov`. -/
theorem CopyFits.of_several (h : a.CopyFits i p d x) (hu : some u ∈ p.srcs) {k n : Nat}
    (hpos : a.aluPosition u = .ok (some (q, k))) (hn : a.sourceWidth q k = .ok n) (hmany : 1 < n) :
    q = p ∧ p.op = .mov ∧ p.srcs = [some u] := by
  obtain ⟨-, -, -, -, k', -, -, -, hk', hpos', -⟩ := h.source hu
  cases hpos.symm.trans hpos'
  have hop : p.op = .mov := by
    by_contra hne
    have hone := (sourceWidth_of_gather h.alu (h.op.resolve_left hne) h.dest h.value).2 k hk'
    cases hn.symm.trans hone
    omega
  obtain ⟨src, -, -, -, hsrcs, -⟩ := h.of_mov hop
  rw [hsrcs] at hu ⊢
  exact ⟨rfl, hop, by rw [List.mem_singleton.mp hu]⟩

/-- A `mov` of its own result moves its own lanes. -/
theorem CopyFits.exists_lane_self (h : a.CopyFits i p d x) (hop : p.op = .mov)
    (hsrcs : p.srcs = [some u]) (huse : a.uses[u.idx]? = some use) (hval : use.value = some d)
    (hl : l < x.comps) : ∃ m < x.comps, a.laneOf p l = some (d, m) := by
  obtain ⟨src, use', w, y, -, -, m, hsrc, huse', hval', hy, -, -, -, hlane, hm⟩ :=
    h.exists_lane hl
  obtain rfl : u = src := by simpa [hop, hsrcs] using hsrc
  cases huse.symm.trans huse'
  cases hval.symm.trans hval'
  cases h.value.symm.trans hy
  exact ⟨m, hm, laneOf_eq hsrc huse hval hlane⟩

/-- If moved lanes fall in rank, no copy moves all its lanes from its own. -/
theorem Falling.not_self (h : a.Falling Ts rank) (hi : a.StandsAs Ts i b p d)
    (hx : a.values[d.idx]? = some x) (hpos : 0 < x.comps)
    (hself : ∀ l < x.comps, ∃ m < x.comps, a.laneOf p l = some (d, m)) : False := by
  -- The lowest of these lanes can not fall.
  obtain ⟨l, hl, hmin⟩ := Finset.exists_min_image (Finset.range x.comps) (fun l => rank (d, l))
    ⟨0, Finset.mem_range.mpr hpos⟩
  have hl := Finset.mem_range.mp hl
  obtain ⟨m, hm, hlane⟩ := hself l hl
  have hlt := h (d, l) (d, m) ⟨i, b, p, x, hi, hx, hl, hlane⟩
  exact absurd (hmin m (Finset.mem_range.mpr hm)) (not_le.mpr hlt)

/-! ### Turning a use -/

section Turn

variable (hfits : a.CopiesFit Ts) (hfits' : a'.CopiesFit Ts) (hi : a.StandsAs Ts i b p d)
  (huse : a.uses[u.idx]? = some use) (hval : use.value = some d) (hf : a.Folds p u v z)
  (ho : a.Offers p v) (ht : Turned a a' u v z)

include hfits hfits' hi huse hval hf ho ht

/-- After a turn a copy moves a lane as before, or what the copy that was looked through moved to
where it came from. A `mov` that looks through itself moves its own lanes before and after. -/
theorem laneOf_turned (hj : a.StandsAs Ts j c q e) (hx : a.values[e.idx]? = some x)
    (hl : l < x.comps) :
    (∃ t, a.laneOf q l = some t ∧ a'.laneOf q l = some t)
    ∨ (∃ m t, a.laneOf q l = some (d, m) ∧ a.Moves Ts (d, m) t ∧ a'.laneOf q l = some t)
    ∨ d = e ∧ ∀ l < x.comps, ∃ m < x.comps, ∃ m' < x.comps, a.laneOf q l = some (e, m)
      ∧ a'.laneOf q l = some (e, m') := by
  obtain ⟨x', hq⟩ := hfits j c q e hj
  obtain rfl : x' = x := Option.some.inj (hq.value.symm.trans hx)
  obtain ⟨src, suse, w, y, k, n, m, hsrc, hsuse, hsval, hy, hpos, hn, hlt, hlane, hm⟩ :=
    hq.exists_lane hl
  by_cases hsu : src = u
  · subst hsu
    cases huse.symm.trans hsuse
    cases hval.symm.trans hsval
    obtain ⟨slot, huse'⟩ := ht.use_self huse
    cases hf with
    | exact huse₁ hpos₁ h =>
      cases hpos.symm.trans hpos₁
    | @lanes use₁ user k₁ n₁ _ huse₁ hpos₁ hn₁ hz =>
      cases hpos.symm.trans hpos₁
      cases hn.symm.trans hn₁
      cases huse.symm.trans huse₁
      by_cases hself : some src ∉ p.srcs ∨ n ≤ 1
      · obtain ⟨m', target, hm', htarget, hztarget⟩ := hz hself _ hlt
        cases hlane.symm.trans hm'
        exact .inr (.inl ⟨m, (v, target), laneOf_eq hsrc huse hval hlane,
          ⟨i, b, p, y, hi, hy, hm, htarget⟩, laneOf_eq hsrc huse' rfl hztarget⟩)
      · -- Only a `mov` reads several lanes, and it is the copy that was looked through.
        obtain ⟨hmem, hmany⟩ : some src ∈ p.srcs ∧ 1 < n := by
          simpa only [not_or, not_not, not_le] using hself
        obtain ⟨_, hp⟩ := hfits i b p d hi
        obtain ⟨rfl, hop, hsrcs⟩ := hp.of_several hmem hpos hn hmany
        obtain rfl : d = e := Option.some.inj (hi.dest.symm.trans hj.dest)
        obtain rfl : v = d := by
          obtain ⟨t, tuse, htmem, htuse, htval⟩ := ho
          obtain rfl : t = src := by simpa [hsrcs] using htmem
          cases huse.symm.trans htuse
          exact Option.some.inj (htval.symm.trans hval)
        obtain ⟨x'', hq'⟩ := hfits' j c q v (ht.standsAs.mpr hj)
        obtain ⟨l₁, l₂, hx''⟩ := value_of_values ht.values hx
        cases hq'.value.symm.trans hx''
        refine .inr (.inr ⟨rfl, fun l hl => ?_⟩)
        obtain ⟨m, hm, hmove⟩ := hq.exists_lane_self hop hsrcs huse hval hl
        obtain ⟨m', hm', hmove'⟩ := hq'.exists_lane_self hop hsrcs huse' rfl hl
        exact ⟨m, hm, m', hm', hmove, hmove'⟩
  · obtain ⟨slot, hsuse'⟩ := ht.use_other hsu hsuse
    exact .inl ⟨(w, m), laneOf_eq hsrc hsuse hsval hlane, laneOf_eq hsrc hsuse' hsval hlane⟩

theorem Falling.turn (h : a.Falling Ts rank) : a'.Falling Ts rank := by
  rintro ⟨e, l⟩ t ⟨j, c, q, x', hj', hx', hl, hlane'⟩
  have hj := ht.standsAs.mp hj'
  obtain ⟨l₁, l₂, hx⟩ := value_of_values ht.values.symm hx'
  rcases laneOf_turned hfits hfits' hi huse hval hf ho ht hj hx hl with
    ⟨t', hlane, hsame⟩ | ⟨m, t', hlane, hmove, hcomposed⟩ | ⟨-, hself⟩
  · cases hlane'.symm.trans hsame
    exact h _ _ ⟨j, c, q, _, hj, hx, hl, hlane⟩
  · cases hlane'.symm.trans hcomposed
    exact (h _ _ hmove).trans (h _ _ ⟨j, c, q, _, hj, hx, hl, hlane⟩)
  · refine (h.not_self hj hx (Nat.zero_lt_of_lt hl) fun l hl => ?_).elim
    obtain ⟨m, hm, -, -, hlane, -⟩ := hself l hl
    exact ⟨m, hm, hlane⟩

/-- Turning a use does not break circles. -/
theorem Circling.turn (hs : a.Sound Ts U) (h : a.Circling Ts) : a'.Circling Ts := by
  obtain ⟨S, hne, hS⟩ := h
  by_cases hself : ∃ j c q x, a.StandsAs Ts j c q d ∧ a.values[d.idx]? = some x ∧ 0 < x.comps
      ∧ ∀ l < x.comps, ∃ m < x.comps, a'.laneOf q l = some (d, m)
  · obtain ⟨j, c, q, x, hj, hx, hpos, hlanes⟩ := hself
    obtain ⟨l₁, l₂, hx'⟩ := value_of_values ht.values hx
    refine ⟨{s | s.1 = d ∧ s.2 < x.comps}, ⟨(d, 0), rfl, hpos⟩, ?_⟩
    rintro ⟨e, l⟩ ⟨rfl, hl⟩
    obtain ⟨m, hm, hlane⟩ := hlanes l hl
    exact ⟨(e, m), ⟨rfl, hm⟩, j, c, q, _, ht.standsAs.mpr hj, hx', hl, hlane⟩
  · refine ⟨S, hne, ?_⟩
    rintro ⟨e, l⟩ hmem
    obtain ⟨t, htS, hmove⟩ := hS _ hmem
    obtain ⟨j, c, q, x, hj, hx, hl, hlane⟩ := id hmove
    obtain ⟨l₁, l₂, hx'⟩ := value_of_values ht.values hx
    have hmoves {t' : ValueId × Nat} (hlane' : a'.laneOf q l = some t') : a'.Moves Ts (e, l) t' :=
      ⟨j, c, q, _, ht.standsAs.mpr hj, hx', hl, hlane'⟩
    rcases laneOf_turned hfits hfits' hi huse hval hf ho ht hj hx hl with
      ⟨t', hlane', hsame⟩ | ⟨m, t', hlane', hmove', hcomposed⟩ | ⟨rfl, hlanes⟩
    · cases hlane.symm.trans hlane'
      exact ⟨t, htS, hmoves hsame⟩
    · cases hlane.symm.trans hlane'
      obtain ⟨r, hr, hmove''⟩ := hS _ htS
      obtain rfl := hmove'.unique hmove'' hs
      exact ⟨t', hr, hmoves hcomposed⟩
    · refine absurd ⟨j, c, q, x, hj, hx, Nat.zero_lt_of_lt hl, fun l hl => ?_⟩ hself
      obtain ⟨-, -, m', hm', -, hlane'⟩ := hlanes l hl
      exact ⟨m', hm', hlane'⟩

end Turn

/-! ### Taking out a copy -/

@[simp] theorem laneOf_code (a : Arena) (p : Alu) (l : Nat) : a.code.laneOf p l = a.laneOf p l := by
  simp only [laneOf, code_uses, Option.bind_eq_bind, Option.bind_map]
  rfl

theorem laneOf_of_code (hcode : a'.code = a.code) (p : Alu) (l : Nat) :
    a'.laneOf p l = a.laneOf p l := by
  rw [← laneOf_code, hcode, laneOf_code]

theorem Loses.laneOf_eq {gone : Finset InstrId} (h : Loses gone a a') (q : Alu) (l : Nat) :
    a'.laneOf q l = a.laneOf q l :=
  laneOf_of_code (a := a.relisted a'.body gone) h.code q l

theorem StandsAs.exists_reads (h : a.StandsAs Ts i b p d) (hu : some u ∈ p.srcs) :
    ∃ T ∈ Ts, a.Reads T u := by
  obtain ⟨T, hT, hb, hmem, ins, hins, -, hact, -⟩ := h
  exact ⟨T, hT, .inl ⟨b, hb, i, hmem, ins, hins, Instr.mem_sources_of_alu hact hu⟩⟩

/-- A lane that is moved somewhere belongs to a value that is read. -/
theorem Moves.exists_reads (h : a.Moves Ts s t) : ∃ T ∈ Ts, ∃ u use,
    a.Reads T u ∧ a.uses[u.idx]? = some use ∧ use.value = some t.1 := by
  obtain ⟨i, b, p, x, hi, -, -, hlane⟩ := h
  obtain ⟨u, use, hu, huse, hval⟩ := offers_of_laneOf hlane
  obtain ⟨T, hT, hread⟩ := hi.exists_reads hu
  exact ⟨T, hT, u, use, hread, huse, hval⟩

theorem Moves.of_loses {gone : Finset InstrId} (h : a'.Moves Ts s t) (hl : Loses gone a a') :
    a.Moves Ts s t := by
  obtain ⟨i, b, p, x, hi, hx, hlt, hlane⟩ := h
  obtain ⟨l₁, l₂, hx₀⟩ := value_of_values hl.values.symm hx
  exact ⟨i, b, p, _, hl.standsAs_before hi, hx₀, hlt, (hl.laneOf_eq p s.2).symm.trans hlane⟩

theorem Falling.lose {gone : Finset InstrId} (h : a.Falling Ts rank) (hl : Loses gone a a') :
    a'.Falling Ts rank :=
  fun s t hmove => h s t (hmove.of_loses hl)

/-- Taking out a copy that nobody reads does not break circles. -/
theorem Circling.take (h : a.Circling Ts) (hs : a.Sound Ts U) (hi : a.StandsAs Ts i b p d)
    (hx : a.values[d.idx]? = some x) (hfree : x.isUnused = true)
    (hcode : a'.code = (a.without b i).code) : a'.Circling Ts := by
  obtain ⟨S, ⟨s, hsS⟩, hS⟩ := h
  -- No lane of the copy is moved anywhere.
  have hother {s t : ValueId × Nat} (hmove : a.Moves Ts s t) : t.1 ≠ d := by
    obtain ⟨T, hT, u, use, hread, huse, hval⟩ := hmove.exists_reads
    exact hs.value_ne_of_isUnused hT hread huse hval hx hfree
  refine ⟨{s ∈ S | s.1 ≠ d}, ?_, ?_⟩
  · obtain ⟨t, htS, hmove⟩ := hS s hsS
    exact ⟨t, htS, hother hmove⟩
  · rintro s ⟨hsS, hsd⟩
    obtain ⟨t, htS, hmove⟩ := hS s hsS
    refine ⟨t, ⟨htS, hother hmove⟩, ?_⟩
    obtain ⟨j, c, q, y, hj, hy, hl, hlane⟩ := hmove
    obtain ⟨l₁, l₂, hy'⟩ := value_of_code hcode hy
    have hji : j ≠ i := by
      rintro rfl
      exact hsd (Option.some.inj (hj.dest.symm.trans ((hi.alu_eq hj) ▸ hi.dest)))
    have hloses := Loses.of_without hcode
    exact ⟨j, c, q, _, hloses.standsAs hj (by simpa using hji), hy', hl,
      (hloses.laneOf_eq q s.2).trans hlane⟩

theorem Circling.congr (h : a.Circling Ts) (hcode : a'.code = a.code) : a'.Circling Ts := by
  obtain ⟨S, hne, hS⟩ := h
  refine ⟨S, hne, fun s hs => ?_⟩
  obtain ⟨t, ht, hmove⟩ := hS s hs
  exact ⟨t, ht, hmove.of_loses (.of_code hcode.symm)⟩

end Arena

end ShaderCompiler
