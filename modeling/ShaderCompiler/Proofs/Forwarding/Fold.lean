import ShaderCompiler.Proofs.Wiring
import ShaderCompiler.Pass.Forwarding

/-!
# Looking through a copy

A use that looks through a copy is turned to a source of the copy. Each lane that it reads
comes from a lane of that source, and its swizzle is changed so that it reads this lane.
`Arena.laneOf` is the source of a lane and `Arena.Folds` says that a use may be turned.

A use that may not be turned is stuck. This depends on the code of the use and of the sources
of the copy only, so a stuck use stays stuck until one of them changes.
-/

namespace ShaderCompiler

variable {srcs : List (Option UseId)} {use : Use} {v : ValueId} {s : Swizzle} {l : List Nat}
  {i k : Nat} {y : Unit} {choose : Arena → Nat → Except Fault Nat} {user : Alu}

variable {a a' : Arena} {u w : UseId} {p : Alu}

namespace Arena

/-! ### Copies depend on the code -/

section Code

variable (a)

@[simp] theorem anyModified_code (l : List (Option UseId)) :
    a.code.anyModified l = a.anyModified l := by
  induction l with
  | nil => rfl
  | cons s l ih =>
    simp only [anyModified, use_code, bind_map_left, Use.bare, ih]
    rfl

@[simp] theorem isCopy_code (p : Alu) : a.code.isCopy p = a.isCopy p := by
  simp only [isCopy, use_code, bind_map_left, Use.bare, anyModified_code]

@[simp] theorem gathersInOrder_code (srcs : List (Option UseId)) (source : ValueId)
    (l : List Nat) : a.code.gathersInOrder srcs source l = a.gathersInOrder srcs source l := by
  induction l with
  | nil => rfl
  | cons i l ih =>
    simp only [gathersInOrder, use_code, bind_map_left, Use.bare, ih]
    rfl

@[simp] theorem isExactCopy_code (p : Alu) : a.code.isExactCopy p = a.isExactCopy p := by
  simp only [isExactCopy, use_code, value_code, bind_map_left, Use.bare, Value.bare,
    gathersInOrder_code]
  rfl

@[simp] theorem selectsOneValue_code (srcs : List (Option UseId)) (s : Swizzle)
    (source : Option ValueId) (l : List Nat) :
    a.code.selectsOneValue srcs s source l = a.selectsOneValue srcs s source l := by
  induction l with
  | nil => rfl
  | cons i l ih =>
    simp only [selectsOneValue, use_code, bind_map_left, Use.bare, ih]
    rfl

end Code

/-! ### Copies after a use was changed -/

section Changed

variable {g : Use → Use}

theorem use_modifyUse (a : Arena) (w : UseId) (g : Use → Use) (u : UseId) :
    (a.modifyUse w g).use u = if u = w then g <$> a.use u else a.use u := by
  unfold Arena.use
  rw [modifyUse_uses]
  split
  · cases a.uses[u.idx]? <;> rfl
  · rfl

/-- What is a copy depends on the modifiers of uses. -/
theorem isCopy_congr (h : ∀ u : UseId, (a'.uses[u.idx]?).map (fun use => (use.absolute, use.negated))
    = (a.uses[u.idx]?).map fun use => (use.absolute, use.negated)) (p : Alu) :
    a'.isCopy p = a.isCopy p := by
  have hlook {β : Type} (u : UseId) (k : Bool → Bool → Except Fault β) :
      (a'.use u >>= fun use => k use.absolute use.negated)
        = a.use u >>= fun use => k use.absolute use.negated := by
    unfold Arena.use
    obtain ⟨huse', huse⟩ | ⟨use', use, huse', huse, heq⟩ := map_eq_map_cases (h u)
    · rw [huse', huse]
    · obtain ⟨habs, hneg⟩ := Prod.mk.inj heq
      rw [huse', huse]
      change k use'.absolute use'.negated = k use.absolute use.negated
      rw [habs, hneg]
  have hany (l : List (Option UseId)) : a'.anyModified l = a.anyModified l := by
    induction l with
    | nil => rfl
    | cons s l ih =>
      simp only [anyModified, ih]
      cases s with
      | none => rfl
      | some u => exact hlook u fun x y => if (x || y) = true then pure true else a.anyModified l
  simp only [isCopy, hany]
  cases entry p.srcs 0 with
  | error e => rfl
  | ok s =>
    cases s with
    | none => rfl
    | some u =>
      have := hlook u fun x y => (pure (!x && !y) : Except Fault Bool)
      simp only [present, bind_pure_comp] at this ⊢
      split
      · rfl
      · split
        · exact this
        · rfl

/-- A change that keeps the modifiers of a use keeps what is a copy. -/
theorem isCopy_modifyUse (a : Arena) (hg : ∀ use, (g use).absolute = use.absolute
    ∧ (g use).negated = use.negated) (p : Alu) : (a.modifyUse w g).isCopy p = a.isCopy p := by
  refine isCopy_congr (fun u => ?_) p
  rw [modifyUse_uses]
  split
  · rw [Option.map_map]
    exact Option.map_congr fun use _ => Prod.ext (hg use).1 (hg use).2
  · rfl

/-- A source of a list of sources is read as before if another use changes. -/
theorem use_entry_modifyUse {β : Type} (hw : some w ∉ srcs) (i : Nat)
    (k : Use → Except Fault β) :
    (entry srcs i >>= fun s => present s >>= fun t => (a.modifyUse w g).use t >>= k)
      = entry srcs i >>= fun s => present s >>= fun t => a.use t >>= k := by
  cases he : entry srcs i with
  | error e => rfl
  | ok s =>
    cases s with
    | none => rfl
    | some u =>
      have hne : u ≠ w := by
        rintro rfl
        exact hw (List.mem_of_getElem? (entry_eq_ok.mp he))
      change ((a.modifyUse w g).use u >>= k) = (a.use u >>= k)
      rw [use_modifyUse, if_neg hne]

theorem gathersInOrder_modifyUse (hw : some w ∉ srcs)
    (source : ValueId) (l : List Nat) :
    (a.modifyUse w g).gathersInOrder srcs source l = a.gathersInOrder srcs source l := by
  induction l with
  | nil => rfl
  | cons i l ih =>
    simp only [gathersInOrder, ih]
    exact use_entry_modifyUse hw i fun use => if use.swizzle[0] = i ∧ use.value = some source
      then a.gathersInOrder srcs source l else pure false

theorem isExactCopy_modifyUse (hw : some w ∉ p.srcs) :
    (a.modifyUse w g).isExactCopy p = a.isExactCopy p := by
  simp only [isExactCopy, gathersInOrder_modifyUse hw]
  congr 1
  funext d
  congr 1
  funext x
  exact use_entry_modifyUse hw 0 fun use => do
    let source ← present use.value
    if (← a.value source).comps ≠ x.comps then
      return false
    else if p.op = .mov then
      use.swizzle.isIdentity x.comps
    else
      a.gathersInOrder p.srcs source (List.range x.comps)

theorem selectsOneValue_modifyUse (hw : some w ∉ srcs) (s : Swizzle)
    (source : Option ValueId) (l : List Nat) :
    (a.modifyUse w g).selectsOneValue srcs s source l = a.selectsOneValue srcs s source l := by
  induction l with
  | nil => rfl
  | cons i l ih =>
    simp only [selectsOneValue, ih]
    congr 1
    funext lane
    exact use_entry_modifyUse hw lane fun use => if use.value = source
      then a.selectsOneValue srcs s source l else pure false

theorem aluPosition_modifyUse (a : Arena) (hg : ∀ use, (g use).user = use.user) (u : UseId) :
    (a.modifyUse w g).aluPosition u = a.aluPosition u := by
  simp only [aluPosition, use_modifyUse]
  split
  · simp only [bind_map_left, hg]
    rfl
  · rfl

end Changed

theorem aluPosition_of_user (huse : a.uses[u.idx]? = some use)
    (huser : use.user = none) : a.aluPosition u = .ok none := by
  simp [aluPosition, Arena.use, present, huse, huser]

/-! ### Which uses may be turned -/

/-- Whether a use by an instruction may look through a copy. -/
def mayTurn (a : Arena) (p : Alu) (u : UseId) : Except Fault Bool := do
  match ← a.aluPosition u with
  | some (user, k) =>
      let n ← a.sourceWidth user k
      if p.op = .mov then
        return true
      else
        let lanes := (← a.use u).swizzle
        let source ← a.use (← present (← entry p.srcs (← lanes.lane 0)))
        a.selectsOneValue p.srcs lanes source.value (List.range' 1 (n - 1))
  | none => a.isExactCopy p

@[simp] theorem mayTurn_code (a : Arena) (p : Alu) (u : UseId) :
    a.code.mayTurn p u = a.mayTurn p u := by
  simp only [mayTurn, aluPosition_code, sourceWidth_code, use_code, bind_map_left, Use.bare,
    selectsOneValue_code, isExactCopy_code]

theorem mayTurn_modifyUse (a : Arena) {g : Use → Use} (hg : ∀ use, (g use).user = use.user)
    (hu : u ≠ w) (hw : some w ∉ p.srcs) : (a.modifyUse w g).mayTurn p u = a.mayTurn p u := by
  simp only [mayTurn, aluPosition_modifyUse a hg, isExactCopy_modifyUse hw,
    selectsOneValue_modifyUse hw]
  congr 1
  funext position
  cases position with
  | none => rfl
  | some q =>
    have hwidth : (a.modifyUse w g).sourceWidth q.1 q.2 = a.sourceWidth q.1 q.2 := rfl
    have huse : (a.modifyUse w g).use u = a.use u := by rw [use_modifyUse, if_neg hu]
    simp only [hwidth, huse]
    congr 1
    funext n
    split
    · rfl
    · congr 1
      funext use
      congr 1
      funext lane
      exact use_entry_modifyUse hw lane fun source =>
        a.selectsOneValue p.srcs use.swizzle source.value (List.range' 1 (n - 1))

/-- A use that is turned elsewhere changes nothing for others, unless it is a source of the
copy. -/
theorem mayTurn_turned (h : Turned a a' w v s) (hu : u ≠ w)
    (hw : some w ∉ p.srcs) : a'.mayTurn p u = a.mayTurn p u := by
  rw [← mayTurn_code a', show a'.code = _ from h, mayTurn_modifyUse _ (by exact fun _ => rfl) hu hw,
    mayTurn_code]

theorem isExactCopy_turned (h : Turned a a' w v s)
    (hw : some w ∉ p.srcs) : a'.isExactCopy p = a.isExactCopy p := by
  rw [← isExactCopy_code a', show a'.code = _ from h, isExactCopy_modifyUse hw, isExactCopy_code]

theorem isCopy_turned (h : Turned a a' w v s) :
    a'.isCopy p = a.isCopy p := by
  rw [← isCopy_code a', show a'.code = _ from h,
    isCopy_modifyUse _ (by exact fun _ => ⟨rfl, rfl⟩), isCopy_code]

/-! ### What a turned use reads -/

/-- The value and the lane of it that a lane of the result of a copy comes from. -/
def laneOf (a : Arena) (p : Alu) (lane : Nat) : Option (ValueId × Nat) := do
  let s ← p.srcs[if p.op = .mov then 0 else lane]?
  let src ← s
  let use ← a.uses[src.idx]?
  let v ← use.value
  let from_ ← use.swizzle[if p.op = .mov then lane else 0]?
  return (v, from_)

/-- A source of a copy reads the value. -/
def Offers (a : Arena) (p : Alu) (v : ValueId) : Prop :=
  ∃ src use, some src ∈ p.srcs ∧ a.uses[src.idx]? = some use ∧ use.value = some v

/-- A copy reproduces a value lane for lane. -/
def Reproduces (a : Arena) (p : Alu) (v : ValueId) : Prop :=
  ∃ d x y, p.dest = some d ∧ a.values[d.idx]? = some x ∧ a.values[v.idx]? = some y
    ∧ y.comps = x.comps ∧ ∀ lane < x.comps, a.laneOf p lane = some (v, lane)

/-- A use of a copy may read the value `v` through a swizzle instead: it finds every lane there,
unless it is a source of the copy itself that reads several lanes. -/
inductive Folds (a : Arena) (p : Alu) (u : UseId) (v : ValueId) : Swizzle → Prop
  | lanes {use : Use} {user : Alu} {k n : Nat} {z : Swizzle} (huse : a.uses[u.idx]? = some use)
      (hpos : a.aluPosition u = .ok (some (user, k))) (hn : a.sourceWidth user k = .ok n)
      (hz : some u ∉ p.srcs ∨ n ≤ 1 → ∀ i < n, ∃ lane target, use.swizzle[i]? = some lane
        ∧ a.laneOf p lane = some (v, target) ∧ z[i]? = some target) : Folds a p u v z
  | exact {use : Use} (huse : a.uses[u.idx]? = some use) (hpos : a.aluPosition u = .ok none)
      (h : a.Reproduces p v) : Folds a p u v use.swizzle

theorem gathersInOrder_eq_true
    (h : a.gathersInOrder srcs v l = .ok true) :
    ∀ i ∈ l, ∃ src use, srcs[i]? = some (some src) ∧ a.uses[src.idx]? = some use
      ∧ use.value = some v ∧ use.swizzle[0]? = some i := by
  induction l with
  | nil => simp
  | cons i l ih =>
    simp only [gathersInOrder, except_bind_eq_ok, entry_eq_ok, present_eq_ok, use_eq_ok] at h
    obtain ⟨s, hs, src, rfl, use, huse, h⟩ := h
    split at h
    case isTrue hin =>
      intro j hj
      rcases List.mem_cons.mp hj with rfl | hj
      · exact ⟨src, use, hs, huse, hin.2, by simp [hin.1]⟩
      · exact ih h j hj
    case isFalse => simp at h

theorem lane_eq_ok {lane : Nat} : s.lane i = .ok lane ↔ s[i]? = some lane := by
  unfold Swizzle.lane
  cases s[i]? <;> simp

theorem selectsOneValue_eq_true
    {source : Option ValueId} (h : a.selectsOneValue srcs s source l = .ok true) :
    ∀ i ∈ l, ∃ lane src use, s[i]? = some lane ∧ srcs[lane]? = some (some src)
      ∧ a.uses[src.idx]? = some use ∧ use.value = source := by
  induction l with
  | nil => simp
  | cons i l ih =>
    simp only [selectsOneValue, except_bind_eq_ok, lane_eq_ok, entry_eq_ok, present_eq_ok,
      use_eq_ok] at h
    obtain ⟨lane, hlane, _, hsrc, src, rfl, use, huse, h⟩ := h
    split at h
    case isTrue hv =>
      intro j hj
      rcases List.mem_cons.mp hj with rfl | hj
      · exact ⟨lane, src, use, hlane, hsrc, huse, hv⟩
      · exact ih h j hj
    case isFalse => simp at h

theorem isIdentity_eq_true {n : Nat} (h : s.isIdentity n = .ok true) :
    ∀ i < n, s[i]? = some i := by
  unfold Swizzle.isIdentity at h
  split at h
  case isTrue hall =>
    split at h
    case isTrue hn =>
      intro i hi
      rw [List.all_eq_true] at hall
      exact of_decide_eq_true (hall i (List.mem_range.mpr (by omega)))
    case isFalse => simp at h
  case isFalse => simp at h

/-- What is found to be an exact copy reproduces the value of its first source. -/
theorem reproduces_of_isExactCopy (h : a.isExactCopy p = .ok true) :
    ∃ src use v, p.srcs[0]? = some (some src) ∧ a.uses[src.idx]? = some use
      ∧ use.value = some v ∧ a.Reproduces p v := by
  simp only [isExactCopy, except_bind_eq_ok, entry_eq_ok, present_eq_ok, use_eq_ok,
    value_eq_ok] at h
  obtain ⟨d, hd, x, hx, s, hs, src, rfl, use, huse, v, hv, y, hy, h⟩ := h
  split at h
  case isTrue => simp at h
  case isFalse hcomps =>
    refine ⟨src, use, v, hs, huse, hv, d, x, y, hd, hx, hy, not_not.mp hcomps, fun lane hlane => ?_⟩
    split at h
    case isTrue hmov => simp [laneOf, hmov, hs, huse, hv, isIdentity_eq_true h lane hlane]
    case isFalse hmov =>
      obtain ⟨src', use', hs', huse', hv', hlane'⟩ :=
        gathersInOrder_eq_true h lane (List.mem_range.mpr hlane)
      have hfirst : use'.swizzle[0] = lane := by simpa using hlane'
      simp [laneOf, hmov, hs', huse', hv', hfirst]

end Arena

namespace Edit

open Arena

/-! ### Turning a use -/

theorem repoint_isSome {v : Option ValueId} (h : repoint u v a = .ok y a') :
    ∃ w, v = some w := by
  simp only [repoint, bind_eq_ok, look_eq_ok, use_eq_ok] at h
  obtain ⟨use, _, -, h⟩ := h
  cases hv : use.value with
  | none =>
    simp only [hv, bind_eq_ok, liftM_eq_ok, present_eq_ok] at h
    obtain ⟨_, _, -, w, _, ⟨hw, -⟩, -⟩ := h
    exact ⟨w, hw⟩
  | some old =>
    simp only [hv, bind_eq_ok, liftM_eq_ok, present_eq_ok] at h
    obtain ⟨_, _, -, _, _, -, w, _, ⟨hw, -⟩, -⟩ := h
    exact ⟨w, hw⟩

theorem composeLane_eq_ok :
    composeLane u choose i a = .ok y a' ↔ ∃ use lane target, a.uses[u.idx]? = some use
      ∧ use.swizzle[i]? = some lane ∧ choose a lane = .ok target
      ∧ a.modifyUse u (fun use =>
        { use with swizzle := use.swizzle.setIfInBounds i target }) = a' := by
  simp only [composeLane, bind_eq_ok, look_eq_ok, except_bind_eq_ok, use_eq_ok, lane_eq_ok,
    setUse_eq_ok]
  constructor
  · rintro ⟨lane, _, ⟨⟨use, huse, hl⟩, rfl⟩, target, _, ⟨ht, rfl⟩, rfl⟩
    exact ⟨use, lane, target, huse, hl, ht, rfl⟩
  · rintro ⟨use, lane, target, huse, hl, ht, rfl⟩
    exact ⟨lane, a, ⟨⟨use, huse, hl⟩, rfl⟩, target, a, ⟨ht, rfl⟩, rfl⟩

/-- Lanes that are composed one after the other make up a swizzle. If there is one lane at most, or
the choice does not depend on the use itself, it is made for the lanes that the use selected
before. -/
theorem forM_composeLane (hl : l.Nodup)
    (huse : a.uses[u.idx]? = some use)
    (h : l.forM (composeLane u choose) a = .ok y a') :
    ∃ z : Swizzle, a' = a.modifyUse u (fun use => { use with swizzle := z })
      ∧ ((l.length ≤ 1 ∨ ∀ z lane, choose (a.modifyUse u fun use => { use with swizzle := z }) lane
          = choose a lane) →
        (∀ i ∈ l, ∃ lane target, use.swizzle[i]? = some lane ∧ choose a lane = .ok target
          ∧ z[i]? = some target) ∧ ∀ i ∉ l, z[i]? = use.swizzle[i]?) := by
  induction l generalizing a use with
  | nil =>
    obtain ⟨-, rfl⟩ := pure_eq_ok.mp h
    refine ⟨use.swizzle, ?_, fun _ => ⟨by simp, fun _ _ => rfl⟩⟩
    rw [modifyUse_of_eq huse rfl]
  | cons i l ih =>
    rw [List.forM_eq_forM, List.forM_cons, bind_eq_ok] at h
    obtain ⟨_, a₁, h1, h⟩ := h
    obtain ⟨use', lane, target, huse', hlane, htarget, rfl⟩ := composeLane_eq_ok.mp h1
    cases huse.symm.trans huse'
    obtain ⟨hi, hl'⟩ := List.nodup_cons.mp hl
    -- Each lane is composed once, so the others still select what they did.
    have hfirst : a.modifyUse u (fun use => { use with
          swizzle := use.swizzle.setIfInBounds i target })
        = a.modifyUse u fun use' => { use' with swizzle := use.swizzle.setIfInBounds i target } :=
      modifyUse_congr huse rfl
    rw [hfirst] at h
    obtain ⟨z, rfl, hz⟩ := ih hl' (modifyUse_get huse) h
    refine ⟨z, modifyUse_modifyUse _, fun hstable => ?_⟩
    obtain ⟨hin, hout⟩ := hz <| hstable.imp (fun hlen => (Nat.le_succ _).trans hlen)
      fun hstable z lane' => by rw [modifyUse_modifyUse, hstable, hstable]
    have hlt : i < 16 := (Vector.getElem?_eq_some_iff.mp hlane).1
    refine ⟨fun j hj => ?_, fun j hj => ?_⟩
    · rcases List.mem_cons.mp hj with rfl | hj
      · refine ⟨lane, target, hlane, htarget, ?_⟩
        rw [hout j hi, Vector.getElem?_setIfInBounds_self_of_lt hlt]
      · obtain ⟨lane', target', hlane', htarget', hzj⟩ := hin j hj
        have hne : i ≠ j := fun e => hi (e ▸ hj)
        have hpos := List.length_pos_of_mem hj
        have hstable := hstable.resolve_left (by rw [List.length_cons]; omega)
        rw [Vector.getElem?_setIfInBounds_ne hne] at hlane'
        rw [hstable] at htarget'
        exact ⟨lane', target', hlane', htarget', hzj⟩
    · obtain ⟨hne, hjl⟩ := List.ne_and_not_mem_of_not_mem_cons hj
      rw [hout j hjl, Vector.getElem?_setIfInBounds_ne (Ne.symm hne)]

theorem forwardExact_false :
    forwardExact p u a = .ok false a' ↔ a.isExactCopy p = .ok false ∧ a = a' := by
  simp only [forwardExact, bind_eq_ok, look_eq_ok]
  constructor
  · rintro ⟨r, _, ⟨hr, rfl⟩, h⟩
    cases r with
    | true => simp at h
    | false => exact ⟨hr, (pure_eq_ok.mp h).2⟩
  · rintro ⟨hr, rfl⟩
    exact ⟨false, a, ⟨hr, rfl⟩, pure_eq_ok.mpr ⟨rfl, rfl⟩⟩

theorem forwardExact_true (h : forwardExact p u a = .ok true a') :
    a.isExactCopy p = .ok true ∧ ∃ v, a.Reproduces p v ∧ a.Offers p v
      ∧ repoint u (some v) a = .ok () a' := by
  simp only [forwardExact, bind_eq_ok, look_eq_ok] at h
  obtain ⟨r, _, ⟨hr, rfl⟩, h⟩ := h
  cases r with
  | false => simp at h
  | true =>
    simp only [if_true, bind_eq_ok, look_eq_ok, except_bind_eq_ok, entry_eq_ok, present_eq_ok,
      use_eq_ok, pure_eq_ok] at h
    obtain ⟨use, _, ⟨⟨s, hs, src, rfl, huse⟩, rfl⟩, _, _, hrun, -, rfl⟩ := h
    obtain ⟨src', use', v, hs', huse', hv, hrep⟩ := reproduces_of_isExactCopy hr
    cases hs.symm.trans hs'
    cases huse.symm.trans huse'
    rw [hv] at hrun
    exact ⟨hr, v, hrep, ⟨src, use, List.mem_of_getElem? hs, huse, hv⟩, hrun⟩

theorem forwardLanes_false :
    forwardLanes p user k u a = .ok false a' ↔ (∃ n use lane source, a.sourceWidth user k = .ok n
      ∧ p.op ≠ .mov ∧ a.uses[u.idx]? = some use ∧ use.swizzle[0]? = some lane
      ∧ (entry p.srcs lane >>= fun s => present s >>= a.use) = .ok source
      ∧ a.selectsOneValue p.srcs use.swizzle source.value (List.range' 1 (n - 1)) = .ok false)
      ∧ a = a' := by
  simp only [forwardLanes, bind_eq_ok, look_eq_ok]
  constructor
  · rintro ⟨n, _, ⟨hn, rfl⟩, h⟩
    split at h
    case isTrue => simp at h
    case isFalse hmov =>
      simp only [bind_eq_ok, look_eq_ok, use_eq_ok] at h
      obtain ⟨use, _, ⟨huse, rfl⟩, source, _, ⟨hsource, rfl⟩, r, _, ⟨hr, rfl⟩, h⟩ := h
      cases r with
      | true => simp at h
      | false =>
        exact ⟨⟨n, use, _, source, hn, hmov, huse, by simp, hsource, hr⟩, (pure_eq_ok.mp h).2⟩
  · rintro ⟨⟨n, use, lane, source, hn, hmov, huse, hlane, hsource, hr⟩, rfl⟩
    obtain rfl : use.swizzle[0] = lane := by simpa using hlane
    refine ⟨n, a, ⟨hn, rfl⟩, ?_⟩
    rw [if_neg hmov]
    simp only [bind_eq_ok, look_eq_ok, use_eq_ok]
    exact ⟨use, a, ⟨huse, rfl⟩, source, a, ⟨hsource, rfl⟩, false, a, ⟨hr, rfl⟩,
      pure_eq_ok.mpr ⟨rfl, rfl⟩⟩

/-- A use by an instruction is left alone exactly if it may not be turned. -/
theorem forwardUse_false :
    forwardUse p u a = .ok false a' ↔ a.mayTurn p u = .ok false ∧ a = a' := by
  simp only [forwardUse, mayTurn, bind_eq_ok, look_eq_ok, except_bind_eq_ok]
  constructor
  · rintro ⟨position, _, ⟨hpos, rfl⟩, h⟩
    cases position with
    | none =>
      obtain ⟨hr, rfl⟩ := forwardExact_false.mp h
      exact ⟨⟨none, hpos, hr⟩, rfl⟩
    | some q =>
      obtain ⟨⟨n, use, lane, source, hn, hmov, huse, hlane, hsource, hr⟩, rfl⟩ :=
        forwardLanes_false.mp h
      refine ⟨⟨some q, hpos, ?_⟩, rfl⟩
      simp only [except_bind_eq_ok, hmov, if_false, use_eq_ok, lane_eq_ok] at hsource ⊢
      obtain ⟨s, hs, t, ht, hsource⟩ := hsource
      exact ⟨n, hn, use, huse, lane, hlane, s, hs, t, ht, source, hsource, hr⟩
  · rintro ⟨⟨position, hpos, h⟩, rfl⟩
    refine ⟨position, a, ⟨hpos, rfl⟩, ?_⟩
    cases position with
    | none => exact forwardExact_false.mpr ⟨h, rfl⟩
    | some q =>
      refine forwardLanes_false.mpr ⟨?_, rfl⟩
      simp only [except_bind_eq_ok] at h
      obtain ⟨n, hn, h⟩ := h
      split at h
      case isTrue => simp at h
      case isFalse hmov =>
        simp only [except_bind_eq_ok, use_eq_ok, lane_eq_ok] at h
        obtain ⟨use, huse, lane, hlane, s, hs, t, ht, source, hsource, hr⟩ := h
        refine ⟨n, use, lane, source, hn, hmov, huse, hlane, ?_, hr⟩
        simp only [except_bind_eq_ok, use_eq_ok]
        exact ⟨s, hs, t, ht, hsource⟩

/-- Changing the swizzle of a use does not change which values others read. -/
theorem value_of_reswizzled {z : Swizzle} {t : UseId}
    (h : (a.modifyUse u fun use => { use with swizzle := z }).uses[t.idx]? = some use) :
    ∃ use₀, a.uses[t.idx]? = some use₀ ∧ use₀.value = use.value := by
  rw [modifyUse_uses] at h
  split at h
  · obtain ⟨use₀, huse₀, rfl⟩ := Option.map_eq_some_iff.mp h
    exact ⟨use₀, huse₀, rfl⟩
  · exact ⟨use, h, rfl⟩

theorem forwardLanes_true (huse : a.uses[u.idx]? = some use)
    (hpos : a.aluPosition u = .ok (some (user, k)))
    (h : forwardLanes p user k u a = .ok true a') :
    ∃ v z, a.Folds p u v z ∧ a.Offers p v
      ∧ repoint u (some v) (a.modifyUse u fun use => { use with swizzle := z }) = .ok () a' := by
  simp only [forwardLanes, bind_eq_ok, look_eq_ok] at h
  obtain ⟨n, _, ⟨hn, rfl⟩, h⟩ := h
  split at h
  case isTrue hmov =>
    simp only [bind_eq_ok, look_eq_ok, except_bind_eq_ok, entry_eq_ok, present_eq_ok, use_eq_ok,
      pure_eq_ok] at h
    obtain ⟨_, _, hlanes, source, _, ⟨⟨_, hs, src, rfl, hsource⟩, rfl⟩, _, _, hrun, -, rfl⟩ := h
    obtain ⟨z, rfl, hz⟩ := forM_composeLane List.nodup_range huse hlanes
    obtain ⟨v, hv⟩ := repoint_isSome hrun
    obtain ⟨source₀, hsource₀, hv₀⟩ := value_of_reswizzled hsource
    rw [hv] at hrun
    refine ⟨v, z, .lanes huse hpos hn fun hu i hi => ?_,
      ⟨src, source₀, List.mem_of_getElem? hs, hsource₀, hv₀.trans hv⟩, hrun⟩
    obtain ⟨hin, -⟩ := hz <| hu.symm.imp (fun hn => by rwa [List.length_range])
      fun hu z lane => use_entry_modifyUse hu 0 fun source => source.swizzle.lane lane
    obtain ⟨lane, target, hlane, htarget, hzi⟩ := hin i (List.mem_range.mpr hi)
    simp only [except_bind_eq_ok, entry_eq_ok, present_eq_ok, use_eq_ok, lane_eq_ok] at htarget
    obtain ⟨_, hs', src', rfl, use', huse', htarget⟩ := htarget
    cases hs.symm.trans hs'
    cases hsource₀.symm.trans huse'
    exact ⟨lane, target, hlane, by simp [laneOf, hmov, hs, hsource₀, hv₀, hv, htarget], hzi⟩
  case isFalse hmov =>
    simp only [bind_eq_ok, look_eq_ok, except_bind_eq_ok, entry_eq_ok, present_eq_ok,
      use_eq_ok] at h
    obtain ⟨use', _, ⟨huse', rfl⟩, source, _, ⟨⟨_, hs, src, rfl, hsource⟩, rfl⟩, r, _, ⟨hr, rfl⟩,
      h⟩ := h
    cases huse.symm.trans huse'
    cases r with
    | false => simp at h
    | true =>
      simp only [if_true, bind_eq_ok, pure_eq_ok] at h
      obtain ⟨_, _, hlanes, _, _, hrun, -, rfl⟩ := h
      obtain ⟨z, rfl, hz⟩ := forM_composeLane List.nodup_range huse hlanes
      obtain ⟨v, hv⟩ := repoint_isSome hrun
      rw [hv] at hrun
      refine ⟨v, z, .lanes huse hpos hn fun hu i hi => ?_,
        ⟨src, source, List.mem_of_getElem? hs, hsource, hv⟩, hrun⟩
      obtain ⟨hin, -⟩ := hz <| hu.symm.imp (fun hn => by rwa [List.length_range])
        fun hu z lane => use_entry_modifyUse hu lane fun source => pure source.swizzle[0]
      obtain ⟨lane, target, hlane, htarget, hzi⟩ := hin i (List.mem_range.mpr hi)
      simp only [except_bind_eq_ok, entry_eq_ok, present_eq_ok, use_eq_ok,
        except_pure_eq_ok] at htarget
      obtain ⟨_, hs', src', rfl, use', huse', rfl⟩ := htarget
      -- The source that this lane selects reads the same value as the one for the first lane.
      have hvalue : use'.value = some v := by
        by_cases h0 : i = 0
        · subst h0
          have : lane = use.swizzle[0] := by simpa using hlane.symm
          rw [this, hs] at hs'
          cases hs'
          cases hsource.symm.trans huse'
          exact hv
        · obtain ⟨lane', src'', use'', hlane', hs'', huse'', hv''⟩ :=
            selectsOneValue_eq_true hr i (List.mem_range'.mpr ⟨i - 1, by omega, by omega⟩)
          cases hlane.symm.trans hlane'
          cases hs'.symm.trans hs''
          cases huse'.symm.trans huse''
          exact hv''.trans hv
      exact ⟨lane, _, hlane, by simp [laneOf, hmov, hs', huse', hvalue], hzi⟩

theorem mayTurn_of_forwardUse (h : forwardUse p u a = .ok true a') :
    a.mayTurn p u = .ok true := by
  simp only [forwardUse, bind_eq_ok, look_eq_ok] at h
  obtain ⟨position, _, ⟨hpos, rfl⟩, h⟩ := h
  simp only [mayTurn, except_bind_eq_ok]
  refine ⟨position, hpos, ?_⟩
  cases position with
  | none => exact (forwardExact_true h).1
  | some q =>
    simp only [forwardLanes, bind_eq_ok, look_eq_ok] at h
    obtain ⟨n, _, ⟨hn, rfl⟩, h⟩ := h
    simp only [except_bind_eq_ok]
    refine ⟨n, hn, ?_⟩
    split at h
    case isTrue hmov => rw [if_pos hmov, except_pure_eq_ok]
    case isFalse hmov =>
      rw [if_neg hmov]
      simp only [bind_eq_ok, look_eq_ok, except_bind_eq_ok, use_eq_ok, lane_eq_ok] at h ⊢
      obtain ⟨use, _, ⟨huse, rfl⟩, source, _, ⟨⟨s, hs, t, ht, hsource⟩, rfl⟩, r, _, ⟨hr, rfl⟩,
        h⟩ := h
      cases r with
      | false => simp at h
      | true => exact ⟨use, huse, _, by simp, s, hs, t, ht, source, hsource, hr⟩

/-- A use by an instruction that is not left alone is turned. -/
theorem forwardUse_true (h : forwardUse p u a = .ok true a') :
    ∃ v z, a.Folds p u v z ∧ a.Offers p v
      ∧ repoint u (some v) (a.modifyUse u fun use => { use with swizzle := z }) = .ok () a' := by
  simp only [forwardUse, bind_eq_ok, look_eq_ok] at h
  obtain ⟨position, _, ⟨hpos, rfl⟩, h⟩ := h
  obtain ⟨use, huse⟩ : ∃ use, a.uses[u.idx]? = some use := by
    simp only [aluPosition, except_bind_eq_ok, use_eq_ok] at hpos
    obtain ⟨use, huse, -⟩ := hpos
    exact ⟨use, huse⟩
  cases position with
  | none =>
    obtain ⟨-, v, hrep, hoffer, hrun⟩ := forwardExact_true h
    refine ⟨v, use.swizzle, .exact huse hpos hrep, hoffer, ?_⟩
    rwa [modifyUse_of_eq huse rfl]
  | some q => exact forwardLanes_true huse hpos h

end Edit

end ShaderCompiler
