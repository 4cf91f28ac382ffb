import ShaderCompiler.Proofs.Forwarding.Lanes

/-!
# What the steps of forwarding cost

A turn lets a use read the lanes that a copy moves in place of those of the copy. If moved lanes go
down in rank, every turn lowers the sum of the ranks of the lanes that uses read first. So there are
only as many turns as this sum allows, and each of them brings at most two copies to the queue.
-/

namespace ShaderCompiler

variable {l : List InstrId}

namespace Arena

variable {a a' : Arena} {Ts : List Scope} {rank : ValueId × Nat → Nat} {i : InstrId} {b : BlockId}
  {p : Alu} {d v : ValueId} {u t : UseId} {use : Use} {x : Value} {z : Swizzle}

/-- The lane that a use reads first: a source of an arithmetic instruction selects it, and others
read all lanes in order. -/
def firstLane (a : Arena) (u : UseId) (use : Use) : Nat :=
  match a.aluPosition u with
  | .ok (some _) => use.swizzle[0]?.getD 0
  | _ => 0

/-- The rank of the lane that a use reads first. -/
def fare (a : Arena) (rank : ValueId × Nat → Nat) (u : UseId) : Nat :=
  (a.uses[u.idx]?).elim 0 fun use => use.value.elim 0 fun v => rank (v, a.firstLane u use)

/-- The sum of the ranks of the lanes that uses read first. -/
def toll (a : Arena) (rank : ValueId × Nat → Nat) : Nat :=
  ∑ k ∈ Finset.range a.uses.size, a.fare rank ⟨k⟩

/-! ### The sum of the ranks -/

theorem fare_eq (huse : a.uses[u.idx]? = some use) (hval : use.value = some v)
    (rank : ValueId × Nat → Nat) : a.fare rank u = rank (v, a.firstLane u use) := by
  simp only [fare, huse, hval, Option.elim_some]

theorem fare_congr (hpos : a'.aluPosition u = a.aluPosition u)
    (huses : (a'.uses[u.idx]?).map Use.bare = (a.uses[u.idx]?).map Use.bare)
    (rank : ValueId × Nat → Nat) : a'.fare rank u = a.fare rank u := by
  have hfare (a : Arena) : a.fare rank u = ((a.uses[u.idx]?).map Use.bare).elim 0 fun use =>
      use.value.elim 0 fun v => rank (v, a.firstLane u use) := by
    unfold fare
    cases a.uses[u.idx]? <;> rfl
  rw [hfare a', hfare a, huses]
  simp only [firstLane, hpos]

theorem toll_congr (huses : a'.code.uses = a.code.uses)
    (hpos : ∀ u, a'.aluPosition u = a.aluPosition u) (rank : ValueId × Nat → Nat) :
    a'.toll rank = a.toll rank := by
  have hsize : a'.uses.size = a.uses.size := by
    simpa [code] using congrArg Array.size huses
  unfold toll
  rw [hsize]
  refine Finset.sum_congr rfl fun k _ => fare_congr (hpos _) ?_ rank
  rw [← code_uses, huses, code_uses]

theorem toll_taken (hcode : a'.code = (a.without b i).code) (rank : ValueId × Nat → Nat) :
    a'.toll rank = a.toll rank :=
  toll_congr (congrArg (·.uses) hcode) (Loses.of_without hcode).aluPosition_eq rank

theorem toll_le {n : Nat} (hrank : ∀ s, rank s ≤ n) : a.toll rank ≤ a.uses.size * n := by
  refine (Finset.sum_le_card_nsmul _ _ n fun k _ => ?_).trans (by simp)
  unfold fare
  cases a.uses[k]? with
  | none => exact Nat.zero_le n
  | some use =>
    cases hval : use.value with
    | none => simp [hval]
    | some v => simpa [hval] using hrank _

/-- A use that is turned reads a lane of lower rank first. -/
theorem fare_turned_lt (h : a.Falling Ts rank) (hfits : a.CopiesFit Ts)
    (hi : a.StandsAs Ts i b p d) (hx : a.values[d.idx]? = some x) (hwide : 1 ≤ x.comps)
    (huse : a.uses[u.idx]? = some use) (hval : use.value = some d) (hf : a.Folds p u v z)
    (ht : Turned a a' u v z) (hlanes : ∀ position, a.aluPosition u = .ok (some position) →
      a.LanesFit u x.comps ∧ ∀ n, a.reads u = .ok n → 1 ≤ n) :
    a'.fare rank u < a.fare rank u := by
  obtain ⟨slot, huse'⟩ := ht.use_self huse
  rw [fare_eq huse hval, fare_eq huse' rfl]
  refine h _ _ ⟨i, b, p, x, hi, hx, ?_⟩
  cases hf with
  | exact huse₁ hpos hrep =>
    obtain ⟨d', x', y, hd', hx', -, -, hsame⟩ := hrep
    obtain rfl : d = d' := Option.some.inj (hi.dest.symm.trans hd')
    cases hx.symm.trans hx'
    simp only [firstLane, ht.aluPosition, hpos]
    exact ⟨hwide, hsame 0 hwide⟩
  | @lanes use₁ user k n _ huse₁ hpos hn hz =>
    cases huse.symm.trans huse₁
    obtain ⟨hfit, hreads⟩ := hlanes _ hpos
    have hreadsn : a.reads u = .ok n := (reads_of_position hpos).trans hn
    have hsome := hreads n hreadsn
    obtain ⟨-, hbound⟩ := (lanesFit_iff_lane_lt huse hreadsn).mp hfit
    obtain ⟨lane, hlt, hfirst⟩ := hbound 0 hsome
    simp only [firstLane, ht.aluPosition, hpos]
    by_cases hself : some u ∉ p.srcs ∨ n ≤ 1
    · obtain ⟨lane', target, hlane', htarget, hztarget⟩ := hz hself 0 hsome
      cases hfirst.symm.trans hlane'
      rw [hfirst, hztarget]
      exact ⟨hlt, htarget⟩
    · obtain ⟨hmem, hmany⟩ : some u ∈ p.srcs ∧ 1 < n := by
        simpa only [not_or, not_not, not_le] using hself
      obtain ⟨x', hp⟩ := hfits i b p d hi
      obtain rfl : x' = x := Option.some.inj (hp.value.symm.trans hx)
      obtain ⟨rfl, hop, hsrcs⟩ := hp.of_several hmem hpos hn hmany
      exact (h.not_self hi hx hwide fun l hl =>
        hp.exists_lane_self hop hsrcs huse hval hl).elim

/-- A turn lowers the sum of the ranks. -/
theorem toll_turned_lt (hfare : a'.fare rank u < a.fare rank u) (ht : Turned a a' u v z)
    (hu : u.idx < a.uses.size) : a'.toll rank < a.toll rank := by
  have hsize : a'.uses.size = a.uses.size := by
    simpa [code, modifyUse] using congrArg (·.uses.size) (show a'.code = _ from ht)
  have hother (k : Nat) (hk : k ≠ u.idx) : a'.fare rank ⟨k⟩ = a.fare rank ⟨k⟩ := by
    refine fare_congr ht.aluPosition ?_ rank
    rw [ht.uses_get, if_neg fun h => hk (congrArg UseId.idx h)]
  unfold toll
  rw [hsize]
  refine Finset.sum_lt_sum (fun k _ => ?_) ⟨u.idx, Finset.mem_range.mpr hu, hfare⟩
  by_cases hk : k = u.idx
  · exact hk ▸ hfare.le
  · exact (hother k hk).le

/-! ### The queue -/

theorem length_copyAt_le {o : Option InstrId} (h : a.copyAt o = .ok l) :
    l.length ≤ 1 := by
  cases o with
  | none =>
    obtain rfl : [] = l := except_pure_eq_ok.mp h
    simp
  | some i =>
    simp only [copyAt, except_bind_eq_ok, instr_eq_ok] at h
    obtain ⟨ins, -, h⟩ := h
    cases halu : ins.alu? with
    | none =>
      simp only [halu, except_pure_eq_ok] at h
      simp [← h]
    | some p =>
      simp only [halu, except_bind_eq_ok, except_pure_eq_ok] at h
      obtain ⟨r, -, rfl⟩ := h
      cases r <;> simp

/-- There is at most one copy on each side of a use. -/
theorem length_copiesAround_le (h : a.copiesAround u = .ok l) :
    l.length ≤ 2 := by
  simp only [copiesAround, except_bind_eq_ok, except_pure_eq_ok] at h
  obtain ⟨_, -, _, -, above, habove, _, -, below, hbelow, rfl⟩ := h
  have := length_copyAt_le habove
  have := length_copyAt_le hbelow
  rw [List.length_append]
  omega

end Arena

end ShaderCompiler
