import ShaderCompiler.Proofs.Forwarding.Copies
import ShaderCompiler.Proofs.Forwarding.Sound

/-!
# Looking through a copy succeeds

A use looks through a copy by indexing: into the sources of the copy with a lane of the use, and
into the swizzle of a source with a lane of the use or with the first lane. None of this goes
wrong if the copy and the use read lanes that are there, and the lanes that the use selects
afterwards are there as well. This includes a copy that reads its own result, whose swizzle is
changed while it is looked through.
-/

namespace ShaderCompiler

variable {a a' : Arena} {i : InstrId} {u : UseId} {p : Alu} {d v : ValueId} {x : Value} {N : Nat}

namespace Arena

/-- A copy whose sources read lanes that are there. -/
structure CopyFits (a : Arena) (i : InstrId) (p : Alu) (d : ValueId) (x : Value) : Prop where
  alu : a.AluFits p
  sources : a.SourcesOf i p
  op : p.op = .mov ∨ p.op.isGather = true
  dest : p.dest = some d
  value : a.values[d.idx]? = some x
  lanes : ∀ u, some u ∈ p.srcs → ∀ use w, a.uses[u.idx]? = some use → use.value = some w →
    ∃ y, a.values[w.idx]? = some y ∧ a.LanesFit u y.comps

/-- A use finds its lanes if each lane that it reads is selected within bounds. -/
theorem lanesFit_iff_lane_lt {use : Use} {n k : Nat} (huse : a.uses[u.idx]? = some use)
    (hn : a.reads u = .ok n) :
    a.LanesFit u k ↔ n ≤ 16 ∧ ∀ j < n, ∃ lane < k, use.swizzle[j]? = some lane := by
  constructor
  · rintro ⟨use', n', huse', hn', hmax, hbound⟩
    cases huse.symm.trans huse'
    cases hn.symm.trans hn'
    refine ⟨hmax, fun j hj => ?_⟩
    have hlt : j < 16 := lt_of_lt_of_le hj hmax
    refine ⟨use.swizzle[j], hbound _ (List.mem_of_getElem? (i := j) ?_), by simp⟩
    rw [List.getElem?_take, if_pos hj, Vector.getElem?_toList]
    simp
  · rintro ⟨hmax, hbound⟩
    refine ⟨use, n, huse, hn, hmax, fun lane hlane => ?_⟩
    obtain ⟨j, hj⟩ := List.mem_iff_getElem?.mp hlane
    rw [List.getElem?_take] at hj
    split at hj
    case isTrue hjn =>
      obtain ⟨lane', hlt, hlane'⟩ := hbound j hjn
      rw [Vector.getElem?_toList, hlane'] at hj
      cases hj
      exact hlt
    case isFalse => simp at hj

namespace CopyFits

variable (h : a.CopyFits i p d x)

include h

/-- A source of a copy, with the number of lanes that it reads. -/
theorem source (hu : some u ∈ p.srcs) : ∃ use w y n k, a.uses[u.idx]? = some use
    ∧ use.value = some w ∧ a.values[w.idx]? = some y ∧ k < p.srcs.length
    ∧ a.aluPosition u = .ok (some (p, k)) ∧ a.sourceWidth p k = .ok n ∧ n ≤ 16
    ∧ ∀ j < n, ∃ lane < y.comps, use.swizzle[j]? = some lane := by
  obtain ⟨⟨ins, hins, hact⟩, hsources⟩ := h.sources
  obtain ⟨_, use, w, heq, huse, hval, huser⟩ := hsources _ hu
  cases heq
  obtain ⟨y, hy, hlanes⟩ := h.lanes u hu use w huse hval
  obtain ⟨k, hk, hpos, hreads⟩ := reads_of_alu huse huser hins hact hu
  obtain ⟨-, n, -, hn, -⟩ := id hlanes
  obtain ⟨hmax, hbound⟩ := (lanesFit_iff_lane_lt huse hn).mp hlanes
  exact ⟨use, w, y, n, k, huse, hval, hy, hk, hpos, hreads ▸ hn, hmax, hbound⟩

/-- A move has one source, which reads as many lanes as there are. -/
theorem of_mov (hop : p.op = .mov) : ∃ src use w y, p.srcs = [some src]
    ∧ a.uses[src.idx]? = some use ∧ use.value = some w ∧ a.values[w.idx]? = some y
    ∧ a.aluPosition src = .ok (some (p, 0)) ∧ a.sourceWidth p 0 = .ok x.comps ∧ x.comps ≤ 16
    ∧ ∀ j < x.comps, ∃ lane < y.comps, use.swizzle[j]? = some lane := by
  obtain ⟨hlen, hwidth⟩ := sourceWidth_of_mov h.alu hop h.dest h.value
  obtain ⟨s, hs⟩ := List.length_eq_one_iff.mp hlen
  obtain ⟨src, -, -, rfl, -⟩ := h.sources.2 s (by simp [hs])
  obtain ⟨use, w, y, n, k, huse, hval, hy, hk, hpos, hn, hmax, hbound⟩ :=
    h.source (u := src) (by simp [hs])
  obtain rfl : k = 0 := by omega
  cases hwidth.symm.trans hn
  exact ⟨src, use, w, y, hs, huse, hval, hy, hpos, hwidth, hmax, hbound⟩

/-- A gathering operation has a source for each lane, which reads one lane. -/
theorem of_gather (hop : p.op ≠ .mov) {lane : Nat} (hlane : lane < x.comps) : ∃ src use w y k,
    p.srcs[lane]? = some (some src) ∧ a.uses[src.idx]? = some use ∧ use.value = some w
      ∧ a.values[w.idx]? = some y ∧ a.aluPosition src = .ok (some (p, k))
      ∧ a.sourceWidth p k = .ok 1 ∧ use.swizzle[0] < y.comps := by
  obtain ⟨hlen, hwidth⟩ :=
    sourceWidth_of_gather h.alu (h.op.resolve_left hop) h.dest h.value
  have hget := List.getElem?_eq_getElem (hlen ▸ hlane : lane < p.srcs.length)
  obtain ⟨src, -, -, hsrc, -⟩ := h.sources.2 _ (List.mem_of_getElem? hget)
  rw [hsrc] at hget
  obtain ⟨use, w, y, n, k, huse, hval, hy, hk, hpos, hn, hmax, hbound⟩ :=
    h.source (List.mem_of_getElem? hget)
  rw [hwidth k hk] at hn
  cases hn
  obtain ⟨lane', hlt, hlane'⟩ := hbound 0 (by omega)
  refine ⟨src, use, w, y, k, hget, huse, hval, hy, hpos, hwidth k hk, ?_⟩
  obtain rfl : use.swizzle[0] = lane' := by simpa using hlane'
  exact hlt

/-- A copy has a source. -/
theorem exists_first : ∃ src use w y, p.srcs[0]? = some (some src) ∧ a.uses[src.idx]? = some use
    ∧ use.value = some w ∧ a.values[w.idx]? = some y := by
  by_cases hop : p.op = .mov
  · obtain ⟨src, use, w, y, hs, huse, hval, hy, -⟩ := h.of_mov hop
    exact ⟨src, use, w, y, by simp [hs], huse, hval, hy⟩
  · obtain ⟨hlen, -⟩ := sourceWidth_of_gather h.alu (h.op.resolve_left hop) h.dest h.value
    have hpos : 0 < x.comps := by
      obtain ⟨info', hinfo', hinputs, hne, -⟩ := info_of_isGather (h.op.resolve_left hop)
      obtain ⟨info, hinfo, hlength, -⟩ := h.alu
      cases hinfo.symm.trans hinfo'
      rw [← hlen, hlength, hinputs, List.length_replicate]
      exact Nat.pos_of_ne_zero hne
    obtain ⟨src, use, w, y, -, hs, huse, hval, hy, -⟩ := h.of_gather hop hpos
    exact ⟨src, use, w, y, hs, huse, hval, hy⟩

/-- It can be found out whether a copy reproduces its source. -/
theorem exists_isExactCopy : ∃ r, a.isExactCopy p = .ok r := by
  obtain ⟨src, use, w, y, hs, huse, hval, hy⟩ := h.exists_first
  simp only [isExactCopy, except_bind_eq_ok, entry_eq_ok, present_eq_ok, use_eq_ok, value_eq_ok]
  by_cases hcomps : y.comps = x.comps
  · suffices hlast : ∃ r, (if p.op = .mov then use.swizzle.isIdentity x.comps
        else a.gathersInOrder p.srcs w (List.range x.comps)) = .ok r by
      obtain ⟨r, hr⟩ := hlast
      exact ⟨r, d, h.dest, x, h.value, _, hs, src, rfl, use, huse, w, hval, y,
        hy, by simpa [hcomps] using hr⟩
    by_cases hop : p.op = .mov
    · obtain ⟨-, -, -, -, -, -, -, -, -, -, hmax, -⟩ := h.of_mov hop
      rw [if_pos hop, Swizzle.isIdentity, maxLanes, if_pos hmax]
      split <;> exact ⟨_, rfl⟩
    · rw [if_neg hop]
      suffices hall : ∀ l : List Nat, (∀ k ∈ l, k < x.comps) →
          ∃ r, a.gathersInOrder p.srcs w l = .ok r from
        hall _ fun k hk => List.mem_range.mp hk
      intro l hl
      induction l with
      | nil => exact ⟨true, rfl⟩
      | cons k l ih =>
        obtain ⟨src', use', w', y', -, hs', huse', -⟩ := h.of_gather hop (hl k List.mem_cons_self)
        obtain ⟨r, hr⟩ := ih fun j hj => hl j (List.mem_cons_of_mem _ hj)
        simp only [gathersInOrder, except_bind_eq_ok, entry_eq_ok, present_eq_ok, use_eq_ok]
        by_cases hin : use'.swizzle[0] = k ∧ use'.value = some w
        · exact ⟨r, _, hs', src', rfl, use', huse', by rw [if_pos hin, hr]⟩
        · exact ⟨false, _, hs', src', rfl, use', huse', by rw [if_neg hin]; rfl⟩
  · exact ⟨false, d, h.dest, x, h.value, _, hs, src, rfl, use, huse, w, hval, y, hy, by
      rw [if_pos hcomps]; rfl⟩

end CopyFits

/-- A use was turned to a value that the copy reads. If it found its lanes among the `n` lanes of
the copy, it finds them in the value. -/
def Redirected (a : Arena) (p : Alu) (n : Nat) (u : UseId) (a' : Arena) : Prop :=
  ∃ v z y, a.Offers p v ∧ a.values[v.idx]? = some y
    ∧ (a.LanesFit u n →
      (a.modifyUse u fun use => { use with value := some v, swizzle := z }).LanesFit u y.comps)
    ∧ Edit.repoint u (some v) (a.modifyUse u fun use => { use with swizzle := z }) = .ok () a'

/-! ### Finding copies -/

theorem exists_anyModified {srcs : List (Option UseId)}
    (h : ∀ s ∈ srcs, ∃ u use, s = some u ∧ a.uses[u.idx]? = some use) :
    ∃ r, a.anyModified srcs = .ok r := by
  induction srcs with
  | nil => exact ⟨false, rfl⟩
  | cons s srcs ih =>
    obtain ⟨u, use, rfl, huse⟩ := h s List.mem_cons_self
    obtain ⟨r, hr⟩ := ih fun s hs => h s (List.mem_cons_of_mem _ hs)
    simp only [anyModified, except_bind_eq_ok, present_eq_ok, use_eq_ok]
    by_cases hmod : (use.absolute || use.negated) = true
    · exact ⟨true, u, rfl, use, huse, by rw [if_pos hmod]; rfl⟩
    · exact ⟨r, u, rfl, use, huse, by rw [if_neg hmod, hr]⟩

/-- It can be found out whether an arithmetic instruction only moves lanes. -/
theorem exists_isCopy (hfits : a.AluFits p)
    (hsrcs : ∀ s ∈ p.srcs, ∃ u use, s = some u ∧ a.uses[u.idx]? = some use) :
    ∃ r, a.isCopy p = .ok r := by
  unfold isCopy
  by_cases hsat : p.saturate = true
  · exact ⟨false, by rw [if_pos hsat]; rfl⟩
  rw [if_neg hsat]
  by_cases hop : p.op = .mov
  · rw [if_pos hop]
    obtain ⟨info, hinfo, hlen, -⟩ := hfits
    have hmov : AluOp.mov.info = .ok ⟨"mov", [0], 0⟩ := rfl
    rw [hop, hmov] at hinfo
    cases hinfo
    obtain ⟨s, hs⟩ := List.length_eq_one_iff.mp hlen
    obtain ⟨u, use, rfl, huse⟩ := hsrcs s (by simp [hs])
    simp only [except_bind_eq_ok, entry_eq_ok, present_eq_ok, use_eq_ok, except_pure_eq_ok]
    exact ⟨_, some u, by simp [hs], u, rfl, use, huse, rfl⟩
  · rw [if_neg hop]
    by_cases hgather : p.op.isGather = true
    · rw [if_pos hgather]
      obtain ⟨r, hr⟩ := exists_anyModified hsrcs
      exact ⟨!r, by rw [hr]; rfl⟩
    · exact ⟨false, by rw [if_neg hgather]; rfl⟩

/-- It can be found out whether there is a copy at a place. -/
theorem exists_copyAt {o : Option InstrId}
    (h : ∀ j, o = some j → ∃ ins, a.instrs[j.idx]? = some ins
      ∧ ∀ p, ins.action = .alu p → ∃ r, a.isCopy p = .ok r) :
    ∃ l, a.copyAt o = .ok l := by
  cases o with
  | none => exact ⟨[], rfl⟩
  | some j =>
    obtain ⟨ins, hins, hcopy⟩ := h j rfl
    simp only [copyAt, except_bind_eq_ok, instr_eq_ok]
    cases hact : ins.action with
    | alu p =>
      obtain ⟨r, hr⟩ := hcopy p hact
      refine ⟨if r then [j] else [], ins, hins, ?_⟩
      simp only [Instr.alu?, hact, hr]
      rfl
    | _ => exact ⟨[], ins, hins, by simp only [Instr.alu?, hact]; rfl⟩

theorem reads_of_position {k : Nat} (h : a.aluPosition u = .ok (some (p, k))) :
    a.reads u = a.sourceWidth p k := by
  unfold reads
  rw [h]
  rfl

end Arena

namespace Edit

open Arena

/-- Lanes that are composed one after the other stay within bounds, if every lane that the use
selected before is given one within bounds, whichever of the lanes are composed already. -/
theorem exists_composeLanes (choose : Arena → Nat → Except Fault Nat) {use : Use} {n : Nat}
    (huse : a.uses[u.idx]? = some use) (hn : n ≤ 16)
    (hchoose : ∀ z : Swizzle, (∀ j < n, z[j]? = use.swizzle[j]? ∨ ∃ m < N, z[j]? = some m) →
      ∀ j < n, ∀ lane, use.swizzle[j]? = some lane →
        ∃ target < N, choose (a.modifyUse u fun use => { use with swizzle := z }) lane
          = .ok target) :
    ∃ z : Swizzle, (List.range n).forM (composeLane u choose) a
        = .ok () (a.modifyUse u fun use => { use with swizzle := z })
      ∧ ∀ j < n, ∃ m < N, z[j]? = some m := by
  -- After `k` lanes, these are within bounds and the others are as before.
  suffices hpart : ∀ k ≤ n, ∃ z : Swizzle, (List.range k).forM (composeLane u choose) a
        = .ok () (a.modifyUse u fun use => { use with swizzle := z })
      ∧ (∀ j < k, ∃ m < N, z[j]? = some m) ∧ ∀ j, k ≤ j → z[j]? = use.swizzle[j]? by
    obtain ⟨z, hrun, hin, -⟩ := hpart n le_rfl
    exact ⟨z, hrun, hin⟩
  intro k hk
  induction k with
  | zero =>
    refine ⟨use.swizzle, ?_, by simp, fun _ _ => rfl⟩
    rw [modifyUse_of_eq huse rfl]
    rfl
  | succ k ih =>
    obtain ⟨z, hrun, hin, hout⟩ := ih (by omega)
    have hlt : k < 16 := by omega
    have hlane : use.swizzle[k]? = some use.swizzle[k] := by simp
    obtain ⟨target, htarget, hchosen⟩ := hchoose z (fun j hj => (lt_or_ge j k).elim
      (fun hjk => .inr (hin j hjk)) fun hkj => .inl (hout j hkj)) k (by omega) _ hlane
    refine ⟨z.setIfInBounds k target, ?_, fun j hj => ?_, fun j hj => ?_⟩
    · rw [List.range_succ, List.forM_eq_forM, List.forM_append, bind_eq_ok]
      refine ⟨(), _, hrun, ?_⟩
      rw [List.forM_cons, bind_eq_ok]
      refine ⟨(), _, composeLane_eq_ok.mpr ⟨_, _, target, modifyUse_get huse,
        (hout k le_rfl).trans hlane, hchosen, rfl⟩, ?_⟩
      rw [modifyUse_modifyUse]
      rfl
    · by_cases hjk : j = k
      · subst hjk
        exact ⟨target, htarget, Vector.getElem?_setIfInBounds_self_of_lt hlt⟩
      · rw [Vector.getElem?_setIfInBounds_ne (Ne.symm hjk)]
        exact hin j (by omega)
    · rw [Vector.getElem?_setIfInBounds_ne (by omega)]
      exact hout j (by omega)

section Forward

variable {use : Use} (h : a.CopyFits i p d x) (huse : a.uses[u.idx]? = some use)
  (hpoint : ∀ v z, a.Offers p v →
    ∃ a', repoint u (some v) (a.modifyUse u fun use => { use with swizzle := z }) = .ok () a')

include h huse hpoint

/-- A use that is not a source of an arithmetic instruction looks through a copy. -/
theorem exists_forwardExact (hval : use.value = some d) (hpos : a.aluPosition u = .ok none) :
    ∃ r a', forwardExact p u a = .ok r a' ∧ (r = false → a' = a)
      ∧ (r = true → a.Redirected p x.comps u a') := by
  obtain ⟨r, hr⟩ := h.exists_isExactCopy
  cases r with
  | false => exact ⟨false, a, forwardExact_false.mpr ⟨hr, rfl⟩, fun _ => rfl, by simp⟩
  | true =>
    obtain ⟨src, suse, v, hs, hsuse, hv, d', x', y, hd', hx', hy, hcomps, -⟩ :=
      reproduces_of_isExactCopy hr
    cases h.dest.symm.trans hd'
    cases h.value.symm.trans hx'
    have hoffers : a.Offers p v := ⟨src, suse, List.mem_of_getElem? hs, hsuse, hv⟩
    obtain ⟨a', hrun⟩ := hpoint v use.swizzle hoffers
    refine ⟨true, a', ?_, by simp, fun _ => ⟨v, use.swizzle, y, hoffers, hy, fun hfit => ?_, hrun⟩⟩
    · rw [modifyUse_of_eq huse rfl] at hrun
      simp only [forwardExact, bind_eq_ok, look_eq_ok]
      refine ⟨true, a, ⟨hr, rfl⟩, ?_⟩
      simp only [if_true, bind_eq_ok, look_eq_ok, except_bind_eq_ok, entry_eq_ok, present_eq_ok,
        use_eq_ok, pure_eq_ok]
      exact ⟨suse, a, ⟨⟨_, hs, src, rfl, hsuse⟩, rfl⟩, (), a', hv ▸ hrun, trivial, rfl⟩
    · -- The use goes on to read the whole value, which has as many lanes as the copy.
      rw [lanesFit_iff_lane_lt huse (reads_of_none hpos huse hval h.value)] at hfit
      rw [hcomps, lanesFit_iff_lane_lt (modifyUse_get huse) (reads_of_none (x := y)
        (by rw [aluPosition_modifyUse a (by exact fun _ => rfl), hpos]) (modifyUse_get huse) rfl hy),
        hcomps]
      exact hfit

variable {q : Alu} {k n : Nat} (hpos : a.aluPosition u = .ok (some (q, k)))
  (hn : a.sourceWidth q k = .ok n) (hmax : n ≤ 16)
  (hbound : ∀ j < n, ∃ lane < x.comps, use.swizzle[j]? = some lane)

include hpos hn hmax hbound

omit h hpoint hbound in
/-- A source that was turned finds its lanes if its new swizzle selects them within bounds. -/
theorem redirected_of_lanes {v : ValueId} {z : Swizzle} {y : Value}
    (hoffers : a.Offers p v) (hy : a.values[v.idx]? = some y)
    (hz : ∀ j < n, ∃ m < y.comps, z[j]? = some m)
    (hrun : repoint u (some v) (a.modifyUse u fun use => { use with swizzle := z }) = .ok () a') :
    a.Redirected p N u a' := by
  refine ⟨v, z, y, hoffers, hy, fun _ => ?_, hrun⟩
  rw [lanesFit_iff_lane_lt (n := n) (modifyUse_get huse)]
  · exact ⟨hmax, hz⟩
  · rw [reads_of_position (p := q) (k := k)]
    · exact hn
    · rw [aluPosition_modifyUse a (by exact fun _ => rfl), hpos]

/-- A source of an arithmetic instruction looks through a move. -/
theorem exists_forwardLanes_mov (hop : p.op = .mov) :
    ∃ a', forwardLanes p q k u a = .ok true a' ∧ a.Redirected p x.comps u a' := by
  obtain ⟨src, suse, w, y, hs, hsuse, hsval, hy, hspos, hswidth, -, hslanes⟩ := h.of_mov hop
  -- The source of the move selects lanes of its value, also if it is the use that is changed.
  have hchoose (z : Swizzle)
      (hz : ∀ j < n, z[j]? = use.swizzle[j]? ∨ ∃ m < y.comps, z[j]? = some m) :
      ∀ j < n, ∀ lane, use.swizzle[j]? = some lane → ∃ target < y.comps,
        (do (← (a.modifyUse u fun use => { use with swizzle := z }).use
          (← present (← entry p.srcs 0))).swizzle.lane lane) = .ok target := by
    intro j hj lane hlane
    obtain ⟨lane', hlt, hlane'⟩ := hbound j hj
    cases hlane.symm.trans hlane'
    simp only [except_bind_eq_ok, entry_eq_ok, present_eq_ok, use_eq_ok, lane_eq_ok]
    obtain ⟨target, htarget, hsel⟩ := hslanes lane hlt
    by_cases hsu : src = u
    · subst hsu
      cases hsuse.symm.trans huse
      cases hspos.symm.trans hpos
      cases hswidth.symm.trans hn
      have hzlane : ∃ m < y.comps, z[lane]? = some m :=
        (hz lane hlt).elim (fun heq => ⟨target, htarget, heq.trans hsel⟩) id
      obtain ⟨m, hm, hzm⟩ := hzlane
      exact ⟨m, hm, some src, by simp [hs], src, rfl, _, modifyUse_get hsuse, hzm⟩
    · refine ⟨target, htarget, some src, by simp [hs], src, rfl, suse, ?_, hsel⟩
      rw [modifyUse_uses, if_neg hsu, hsuse]
  obtain ⟨z, hlanes, hz⟩ := exists_composeLanes (fun a lane => do
    (← a.use (← present (← entry p.srcs 0))).swizzle.lane lane) huse hmax hchoose
  have hoffers : a.Offers p w := ⟨src, suse, by simp [hs], hsuse, hsval⟩
  obtain ⟨a', hrun⟩ := hpoint w z hoffers
  refine ⟨a', ?_, redirected_of_lanes huse hpos hn hmax hoffers hy hz hrun⟩
  -- The value of the source is looked up after its swizzle may have changed.
  obtain ⟨suse', hsuse', hsval'⟩ : ∃ suse', (a.modifyUse u fun use =>
      { use with swizzle := z }).uses[src.idx]? = some suse' ∧ suse'.value = some w := by
    by_cases hsu : src = u
    · subst hsu
      exact ⟨_, modifyUse_get hsuse, hsval⟩
    · exact ⟨suse, by rw [modifyUse_uses, if_neg hsu, hsuse], hsval⟩
  simp only [forwardLanes, bind_eq_ok, look_eq_ok]
  refine ⟨n, a, ⟨hn, rfl⟩, ?_⟩
  simp only [hop, if_true, bind_eq_ok, look_eq_ok, except_bind_eq_ok, entry_eq_ok, present_eq_ok,
    use_eq_ok, pure_eq_ok]
  exact ⟨(), _, hlanes, suse', _, ⟨⟨some src, by simp [hs], src, rfl, hsuse'⟩, rfl⟩, (), a',
    hsval' ▸ hrun, trivial, rfl⟩

/-- A source of an arithmetic instruction looks through a gathering operation, if it reads a
lane at all. -/
theorem exists_forwardLanes_gather (hop : p.op ≠ .mov) (hwide : 1 ≤ n) :
    ∃ r a', forwardLanes p q k u a = .ok r a' ∧ (r = false → a' = a)
      ∧ (r = true → a.Redirected p x.comps u a') := by
  -- Every lane that the use selects is that of a source.
  have hselect {j lane : Nat} (hj : j < n) (hlane : use.swizzle[j]? = some lane) :
      lane < x.comps := by
    obtain ⟨lane', hlt, hlane'⟩ := hbound j hj
    cases hlane.symm.trans hlane'
    exact hlt
  have hfirst : use.swizzle[0]? = some use.swizzle[0] := by simp
  obtain ⟨src, suse, w, y, -, hs, hsuse, hsval, hy, -⟩ :=
    h.of_gather hop (hselect (j := 0) (by omega) hfirst)
  have hone : ∀ l : List Nat, (∀ j ∈ l, j < n) →
      ∃ r, a.selectsOneValue p.srcs use.swizzle suse.value l = .ok r := by
    intro l hl
    induction l with
    | nil => exact ⟨true, rfl⟩
    | cons j l ih =>
      obtain ⟨lane, hlt, hlane⟩ := hbound j (hl j List.mem_cons_self)
      obtain ⟨src', suse', -, -, -, hs', hsuse', -⟩ := h.of_gather hop hlt
      obtain ⟨r, hr⟩ := ih fun m hm => hl m (List.mem_cons_of_mem _ hm)
      simp only [selectsOneValue, except_bind_eq_ok, lane_eq_ok, entry_eq_ok, present_eq_ok,
        use_eq_ok]
      by_cases hin : suse'.value = suse.value
      · exact ⟨r, lane, hlane, _, hs', src', rfl, suse', hsuse', by rw [if_pos hin, hr]⟩
      · exact ⟨false, lane, hlane, _, hs', src', rfl, suse', hsuse', by rw [if_neg hin]; rfl⟩
  obtain ⟨r, hr⟩ := hone (List.range' 1 (n - 1)) fun j hj => by
    obtain ⟨m, hm, rfl⟩ := List.mem_range'.mp hj
    omega
  have hsource : (entry p.srcs use.swizzle[0] >>= fun s => present s >>= a.use) = .ok suse := by
    simp only [except_bind_eq_ok, entry_eq_ok, present_eq_ok, use_eq_ok]
    exact ⟨_, hs, src, rfl, hsuse⟩
  cases r with
  | false =>
    exact ⟨false, a, forwardLanes_false.mpr
      ⟨⟨n, use, _, suse, hn, hop, huse, hfirst, hsource, hr⟩, rfl⟩, fun _ => rfl, by simp⟩
  | true =>
    -- The source for each lane reads the value of the first one.
    have hsame {j lane : Nat} (hj : j < n) (hlane : use.swizzle[j]? = some lane) :
        ∃ src' suse', p.srcs[lane]? = some (some src') ∧ a.uses[src'.idx]? = some suse'
          ∧ suse'.value = some w := by
      rcases Nat.eq_zero_or_pos j with rfl | hpos
      · cases hfirst.symm.trans hlane
        exact ⟨src, suse, hs, hsuse, hsval⟩
      · obtain ⟨lane', src', suse', hlane', hs', hsuse', hvalue⟩ :=
          selectsOneValue_eq_true hr j (List.mem_range'.mpr ⟨j - 1, by omega, by omega⟩)
        cases hlane.symm.trans hlane'
        exact ⟨src', suse', hs', hsuse', hvalue.trans hsval⟩
    have hchoose (z : Swizzle)
        (hz : ∀ j < n, z[j]? = use.swizzle[j]? ∨ ∃ m < y.comps, z[j]? = some m) :
        ∀ j < n, ∀ lane, use.swizzle[j]? = some lane → ∃ target < y.comps, (do
          return (← (a.modifyUse u fun use => { use with swizzle := z }).use
            (← present (← entry p.srcs lane))).swizzle[0] : Except Fault Nat) = .ok target := by
      intro j hj lane hlane
      simp only [except_bind_eq_ok, entry_eq_ok, present_eq_ok, use_eq_ok, except_pure_eq_ok]
      obtain ⟨src', suse', hs', hsuse', hvalue'⟩ := hsame hj hlane
      obtain ⟨src'', suse'', w', y', k', hs'', hsuse'', hval'', hy', hspos, hswidth, hlt⟩ :=
        h.of_gather hop (hselect hj hlane)
      cases hs'.symm.trans hs''
      cases hsuse'.symm.trans hsuse''
      cases hvalue'.symm.trans hval''
      cases hy.symm.trans hy'
      by_cases hsu : src' = u
      · -- The use is a source of the operation itself, and reads one lane.
        subst hsu
        cases hsuse'.symm.trans huse
        cases hspos.symm.trans hpos
        cases hswidth.symm.trans hn
        have hz0 : z[0] < y.comps := by
          rcases hz 0 (by omega) with heq | ⟨m, hm, heq⟩
          · have : z[0] = use.swizzle[0] := by simpa using heq
            omega
          · have : z[0] = m := by simpa using heq
            omega
        exact ⟨z[0], hz0, _, hs', src', rfl, _, modifyUse_get hsuse', rfl⟩
      · exact ⟨_, hlt, _, hs', src', rfl, suse', by rw [modifyUse_uses, if_neg hsu, hsuse'], rfl⟩
    obtain ⟨z, hlanes, hz⟩ := exists_composeLanes (fun a lane => do
      return (← a.use (← present (← entry p.srcs lane))).swizzle[0]) huse hmax hchoose
    have hoffers : a.Offers p w := ⟨src, suse, List.mem_of_getElem? hs, hsuse, hsval⟩
    obtain ⟨a', hrun⟩ := hpoint w z hoffers
    refine ⟨true, a', ?_, by simp, fun _ =>
      redirected_of_lanes huse hpos hn hmax hoffers hy hz hrun⟩
    simp only [forwardLanes, bind_eq_ok, look_eq_ok]
    refine ⟨n, a, ⟨hn, rfl⟩, ?_⟩
    rw [if_neg hop]
    simp only [bind_eq_ok, look_eq_ok, use_eq_ok]
    refine ⟨use, a, ⟨huse, rfl⟩, suse, a, ⟨hsource, rfl⟩, true, a, ⟨hr, rfl⟩, ?_⟩
    simp only [if_true, bind_eq_ok, pure_eq_ok]
    exact ⟨(), _, hlanes, (), a', hsval ▸ hrun, trivial, rfl⟩

end Forward

/-- A use by an instruction looks through a copy, if it finds its lanes and reads a lane at
all. -/
theorem exists_forwardUse {use : Use} (h : a.CopyFits i p d x) (huse : a.uses[u.idx]? = some use)
    (hval : use.value = some d)
    (hpoint : ∀ v z, a.Offers p v →
      ∃ a', repoint u (some v) (a.modifyUse u fun use => { use with swizzle := z }) = .ok () a')
    (hfit : a.LanesFit u x.comps) (hwide : ∀ n, a.reads u = .ok n → 1 ≤ n) :
    ∃ r a', forwardUse p u a = .ok r a' ∧ (r = false → a' = a)
      ∧ (r = true → a.Redirected p x.comps u a') := by
  obtain ⟨-, n, -, hn, -⟩ := id hfit
  obtain ⟨hmax, hbound⟩ := (lanesFit_iff_lane_lt huse hn).mp hfit
  obtain ⟨position, hpos⟩ : ∃ position, a.aluPosition u = .ok position := by
    simp only [reads, except_bind_eq_ok] at hn
    obtain ⟨position, hpos, -⟩ := hn
    exact ⟨position, hpos⟩
  rw [forwardUse, bind_of_ok (look_eq_ok.mpr ⟨hpos, rfl⟩)]
  cases position with
  | none => exact exists_forwardExact h huse hpoint hval hpos
  | some position =>
    obtain ⟨q, k⟩ := position
    have hn' := (reads_of_position hpos).symm.trans hn
    by_cases hop : p.op = .mov
    · obtain ⟨a', hrun, hredirected⟩ :=
        exists_forwardLanes_mov h huse hpoint hpos hn' hmax hbound hop
      exact ⟨true, a', hrun, by simp, fun _ => hredirected⟩
    · exact exists_forwardLanes_gather h huse hpoint hpos hn' hmax hbound hop (hwide n hn)

end Edit

end ShaderCompiler
