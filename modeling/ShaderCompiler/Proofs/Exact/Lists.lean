import ShaderCompiler.Proofs.UseLists

/-!
# Exact use-lists

Use-lists are exact if entries and places match throughout the arena: each entry reads the value
that lists it, in the role of the list, and remembers its place, and each use that remembers a place
stands there. In a tidy arena, moreover, a use reads no value outside of the arena.

Between two states of an arena a use can come, turn to another value, lose its value, or be dropped
from its list while it still reads the value. Which of these may happen distinguishes building,
turning uses and removing instructions.
-/

namespace ShaderCompiler

variable {a a' a'' : Arena} {u t : UseId} {v w : ValueId} {x : Value} {c : Bool}

namespace Arena

/-- All use-lists are exact: entry `k` of a list remembers place `k`, reads the value whose list it
is and has the role that the list is for, and a use that remembers a place is the entry there. -/
structure Exact (a : Arena) : Prop where
  entry : ∀ (v : ValueId) (x : Value), a.values[v.idx]? = some x →
    ∀ (c : Bool) (k : Nat) (u : UseId), (x.usesOf c)[k]? = some u → ∃ use, a.uses[u.idx]? = some use
      ∧ use.slot = some k ∧ use.value = some v ∧ use.guards.isSome = c
  slot : ∀ (u : UseId) (use : Use) (k : Nat), a.uses[u.idx]? = some use → use.slot = some k →
    ∃ v x, use.value = some v ∧ a.values[v.idx]? = some x
      ∧ (x.usesOf use.guards.isSome)[k]? = some u

/-- No use stands in two places. -/
theorem Exact.unique (h : a.Exact) {y : Value} (hx : a.values[v.idx]? = some x)
    (hy : a.values[w.idx]? = some y) {d : Bool} {m n : Nat} (hm : (x.usesOf c)[m]? = some u)
    (hn : (y.usesOf d)[n]? = some u) : v = w ∧ c = d ∧ m = n := by
  obtain ⟨use, huse, hslot, hval, hc⟩ := h.entry v x hx c m u hm
  obtain ⟨use', huse', hslot', hval', hd⟩ := h.entry w y hy d n u hn
  cases huse.symm.trans huse'
  exact ⟨Option.some.inj (hval.symm.trans hval'), hc.symm.trans hd,
    Option.some.inj (hslot.symm.trans hslot')⟩

/-- There is a value at a place. -/
def There (a : Arena) (v : ValueId) : Prop :=
  ∃ x, a.values[v.idx]? = some x

/-- A use reads a value. -/
def Names (a : Arena) (u : UseId) : Prop :=
  ∃ use v, a.uses[u.idx]? = some use ∧ use.value = some v

/-- A use reads a value, but has no place in its list any more. -/
def Dropped (a : Arena) (u : UseId) : Prop :=
  a.Names u ∧ ¬ a.Attached u

/-- Use-lists are exact, and uses read values of the arena. -/
structure Tidy (a : Arena) : Prop where
  exact : a.Exact
  there : ∀ (u : UseId) (use : Use) (v : ValueId), a.uses[u.idx]? = some use →
    use.value = some v → a.There v

theorem there_iff : a.There v ↔ v.idx < a.values.size := by
  simp [There, Array.getElem?_eq_some_iff]

theorem Tidy.names (h : a.Tidy) (hu : a.Attached u) : a.Names u := by
  obtain ⟨use, huse, hslot⟩ := hu
  obtain ⟨k, hk⟩ := Option.isSome_iff_exists.mp hslot
  obtain ⟨v, x, hval, -⟩ := h.exact.slot u use k huse hk
  exact ⟨use, v, huse, hval⟩

/-- The entries of a use-list have places. -/
theorem Tidy.attached_of_mem (h : a.Tidy) (hx : a.values[v.idx]? = some x)
    (hu : u ∈ x.usesOf c) : a.Attached u := by
  obtain ⟨k, hk⟩ := List.mem_iff_getElem?.mp hu
  obtain ⟨use, huse, hslot, -⟩ := h.exact.entry v x hx c k u hk
  exact ⟨use, huse, by simp [hslot]⟩

theorem Tidy.useLists (h : a.Tidy) : a.UseLists a.There a.Names where
  value v hv := hv
  entry v x _ hx c k u hu := h.exact.entry v x hx c k u hu
  slot u hu := by
    obtain ⟨use, v, huse, hval⟩ := hu
    obtain ⟨x, hx⟩ := h.there u use v huse hval
    refine ⟨use, v, x, huse, hval, ⟨x, hx⟩, hx, fun k hk => ?_⟩
    obtain ⟨w, y, hval', hy, hentry⟩ := h.exact.slot u use k huse hk
    cases hval.symm.trans hval'
    cases hx.symm.trans hy
    exact hentry
  member v x _ hx c u hu := by
    obtain ⟨k, hk⟩ := List.mem_iff_getElem?.mp hu
    obtain ⟨use, huse, -, hval, -⟩ := h.exact.entry v x hx c k u hk
    exact ⟨use, v, huse, hval⟩

theorem tidy_of_useLists (h : a.UseLists a.There a.Names)
    (hatt : ∀ u, a.Attached u → a.Names u) : a.Tidy where
  exact :=
    { entry := fun v x hx c k u hu => h.entry v x ⟨x, hx⟩ hx c k u hu
      slot := fun u use k huse hk => by
        obtain ⟨use', v, x, huse', hval, -, hx, hslot⟩ := h.slot u (hatt u ⟨use, huse, by simp [hk]⟩)
        cases huse.symm.trans huse'
        exact ⟨v, x, hval, hx, hslot k hk⟩ }
  there u use v huse hval := by
    obtain ⟨use', v', x, huse', hval', hv, -⟩ := h.slot u ⟨use, v, huse, hval⟩
    cases huse.symm.trans huse'
    cases hval.symm.trans hval'
    exact hv

/-! ### Arenas with the same code -/

theorem there_of_code (h : a'.code = a.code) : a'.There = a.There := by
  have himp {a a' : Arena} (h : a'.code = a.code) {v : ValueId} (hv : a.There v) : a'.There v := by
    obtain ⟨x, hx⟩ := hv
    obtain ⟨l, m, hx'⟩ := value_of_code h hx
    exact ⟨_, hx'⟩
  exact funext fun v => propext ⟨himp h.symm, himp h⟩

theorem names_of_code (h : a'.code = a.code) : a'.Names = a.Names := by
  have himp {a a' : Arena} (h : a'.code = a.code) {u : UseId} (hu : a.Names u) : a'.Names u := by
    obtain ⟨use, v, huse, hval⟩ := hu
    obtain ⟨k, huse'⟩ := use_of_code h huse
    exact ⟨_, v, huse', hval⟩
  exact funext fun u => propext ⟨himp h.symm, himp h⟩

theorem size_of_code (h : a'.code = a.code) : a'.values.size = a.values.size := by
  have hsize : a'.code.values.size = a.code.values.size := by rw [h]
  simpa [code] using hsize

theorem Tidy.of_code (h : a'.UseLists a.There a.Names) (hcode : a'.code = a.code)
    (hatt : ∀ u, a'.Attached u → a.Names u) : a'.Tidy := by
  rw [← there_of_code hcode, ← names_of_code hcode] at h
  rw [← names_of_code hcode] at hatt
  exact tidy_of_useLists h hatt

/-! ### Changes that use-lists do not see -/

end Arena

/-- What use-lists are about: the value that a use reads, its place and its role. -/
def Use.tie (use : Use) : Option ValueId × Option Nat × Option ConstructId :=
  (use.value, use.slot, use.guards)

namespace Arena

/-- Two arenas with the same values, and with uses that differ in lanes and signs at most. -/
structure SameTies (a a' : Arena) : Prop where
  values : a'.values = a.values
  uses : a'.uses.map Use.tie = a.uses.map Use.tie

namespace SameTies

theorem symm (h : SameTies a a') : SameTies a' a := ⟨h.values.symm, h.uses.symm⟩

theorem get_use (h : SameTies a a') {use : Use} (huse : a.uses[u.idx]? = some use) : ∃ use',
    a'.uses[u.idx]? = some use' ∧ use'.value = use.value ∧ use'.slot = use.slot
      ∧ use'.guards = use.guards := by
  have hmap : (a'.uses.map Use.tie)[u.idx]? = some use.tie := by
    rw [h.uses, Array.getElem?_map, huse, Option.map_some]
  rw [Array.getElem?_map] at hmap
  obtain ⟨use', huse', htie⟩ := Option.map_eq_some_iff.mp hmap
  simp only [Use.tie, Prod.mk.injEq] at htie
  exact ⟨use', huse', htie⟩

theorem attached (h : SameTies a a') (hu : a.Attached u) : a'.Attached u := by
  obtain ⟨use, huse, hslot⟩ := hu
  obtain ⟨use', huse', -, hslot', -⟩ := h.get_use huse
  exact ⟨use', huse', hslot' ▸ hslot⟩

theorem names (h : SameTies a a') (hu : a.Names u) : a'.Names u := by
  obtain ⟨use, v, huse, hval⟩ := hu
  obtain ⟨use', huse', hval', -⟩ := h.get_use huse
  exact ⟨use', v, huse', hval'.trans hval⟩

theorem tidy (h : SameTies a a') (ha : a.Tidy) : a'.Tidy where
  exact :=
    { entry := fun v x hx c k u hu => by
        obtain ⟨use, huse, hslot, hval, hc⟩ := ha.exact.entry v x (h.values ▸ hx) c k u hu
        obtain ⟨use', huse', hval', hslot', hguards'⟩ := h.get_use huse
        exact ⟨use', huse', hslot'.trans hslot, hval'.trans hval, hguards' ▸ hc⟩
      slot := fun u use k huse hk => by
        obtain ⟨use', huse', hval', hslot', hguards'⟩ := h.symm.get_use huse
        obtain ⟨v, x, hval, hx, hentry⟩ := ha.exact.slot u use' k huse' (hslot'.trans hk)
        exact ⟨v, x, hval'.symm.trans hval, h.values ▸ hx, hguards' ▸ hentry⟩ }
  there u use v huse hval := by
    obtain ⟨use', huse', hval', -⟩ := h.symm.get_use huse
    obtain ⟨x, hx⟩ := ha.there u use' v huse' (hval'.trans hval)
    exact ⟨x, h.values ▸ hx⟩

theorem modifyUse {f : Use → Use} (hf : ∀ use, (f use).tie = use.tie) (a : Arena) (u : UseId) :
    SameTies a (a.modifyUse u f) where
  values := rfl
  uses := map_modify_of_eq hf

end SameTies

end Arena

/-! ### Kinds of changes -/

/-- What a change of the arena is made for. -/
inductive Change where
  /-- Uses may come, and turn to other values. -/
  | building
  /-- Uses turn to other values. -/
  | turning
  /-- Uses turn to other values, and are dropped from lists. -/
  | removing
deriving DecidableEq

namespace Arena

/-- What becomes of uses between two states: only removing leaves new uses without their places,
and these had one before. -/
structure Drift (kind : Change) (a a' : Arena) : Prop where
  size : a.values.size ≤ a'.values.size
  gain : kind ≠ .building → ∀ u, a'.Attached u → a.Attached u
  loss : kind = .turning → ∀ u, a.Attached u → a'.Attached u
  dropped : ∀ u, a'.Dropped u → a.Dropped u ∨ kind = .removing ∧ a.Attached u

namespace Drift

variable {kind : Change}

theorem of_sameTies (h : SameTies a a') : a.Drift kind a' where
  size := h.values ▸ le_rfl
  gain _ _ hu := h.symm.attached hu
  loss _ _ hu := h.attached hu
  dropped _ hu := .inl ⟨h.symm.names hu.1, fun hatt => hu.2 (h.attached hatt)⟩

theorem there (h : a.Drift kind a') (hv : a.There v) : a'.There v :=
  there_iff.mpr ((there_iff.mp hv).trans_le h.size)

theorem trans (h : a.Drift kind a') (h' : a'.Drift kind a'') : a.Drift kind a'' where
  size := h.size.trans h'.size
  gain hk u hu := h.gain hk u (h'.gain hk u hu)
  loss hk u hu := h'.loss hk u (h.loss hk u hu)
  dropped u hu := by
    rcases h'.dropped u hu with hu | ⟨hk, hu⟩
    · exact h.dropped u hu
    · exact .inr ⟨hk, h.gain (by simp [hk]) u hu⟩

/-- Building leaves no new use without its place. -/
theorem of_building (hsize : a.values.size ≤ a'.values.size)
    (h : ∀ u, a'.Dropped u → a.Dropped u) : a.Drift .building a' where
  size := hsize
  gain hk := absurd rfl hk
  loss hk := by cases hk
  dropped u hu := .inl (h u hu)

/-- Turning uses is part of every kind of change. -/
theorem of_turning (h : a.Drift .turning a') : a.Drift kind a' where
  size := h.size
  gain _ := h.gain (by simp)
  loss _ := h.loss rfl
  dropped u hu := .inl ((h.dropped u hu).resolve_right (by simp))

end Drift

namespace Tidy

variable {use : Use}

/-- Taking a use with a place out of the list of its value. -/
theorem unlink (h : a.Tidy) (huse : a.uses[u.idx]? = some use) (hval : use.value = some v)
    (hslot : use.slot.isSome = true) : ∃ a', Edit.unlink v u a = .ok () a' ∧ a'.Tidy
      ∧ a'.code = a.code ∧ a'.uses[u.idx]? = some { use with slot := none }
      ∧ ∀ t, a'.Attached t ↔ a.Attached t ∧ t ≠ u := by
  obtain ⟨a', hrun, hlists, hcode, -, huse', hatt⟩ :=
    Edit.unlink_spec h.useLists ⟨use, v, huse, hval⟩ huse hval hslot
  have hatt' (t : UseId) : a'.Attached t ↔ a.Attached t ∧ t ≠ u := by
    by_cases ht : t = u
    · subst ht
      simp [Attached, huse']
    · simp [hatt t ht, ht]
  exact ⟨a', hrun, .of_code hlists hcode fun t ht => h.names ((hatt' t).mp ht).1, hcode, huse',
    hatt'⟩

/-- Entering a use without a place into the list of its value. -/
theorem link (h : a.Tidy) (huse : a.uses[u.idx]? = some use) (hval : use.value = some v)
    (hslot : use.slot = none) : ∃ a', Edit.link v u a = .ok () a' ∧ a'.Tidy ∧ a'.code = a.code
      ∧ ∀ t, a'.Attached t ↔ a.Attached t ∨ t = u := by
  have hu : a.Names u := ⟨use, v, huse, hval⟩
  obtain ⟨a', hrun, hlists, hcode, -, hatt_u, hatt⟩ :=
    Edit.link_spec h.useLists hu huse hval (h.there u use v huse hval) hslot
  have hatt' (t : UseId) : a'.Attached t ↔ a.Attached t ∨ t = u := by
    by_cases ht : t = u
    · subst ht
      simp [hatt_u]
    · simp [hatt t ht, ht]
  refine ⟨a', hrun, .of_code hlists hcode fun t ht => ?_, hcode, hatt'⟩
  rcases (hatt' t).mp ht with ht | rfl
  · exact h.names ht
  · exact hu

/-- A use without a place may turn to another value, or to none. -/
theorem retarget (h : a.Tidy) (huse : a.uses[u.idx]? = some use) (hslot : use.slot = none)
    {v : Option ValueId} (hv : ∀ w, v = some w → a.There w) :
    (a.modifyUse u fun use => { use with value := v }).Tidy where
  exact :=
    { entry := fun w x hx c k t ht => by
        obtain ⟨tuse, htuse, htslot, htval, hc⟩ := h.exact.entry w x hx c k t ht
        have htu : t ≠ u := by
          rintro rfl
          cases huse.symm.trans htuse
          simp [hslot] at htslot
        exact ⟨tuse, by rw [modifyUse_uses, if_neg htu, htuse], htslot, htval, hc⟩
      slot := fun t tuse k htuse hk => by
        rw [modifyUse_uses] at htuse
        split at htuse
        case isTrue htu =>
          subst htu
          rw [huse, Option.map_some, Option.some.injEq] at htuse
          subst htuse
          simp [hslot] at hk
        case isFalse => exact h.exact.slot t tuse k htuse hk }
  there t tuse w htuse hval := by
    rw [modifyUse_uses] at htuse
    split at htuse
    case isTrue htu =>
      subst htu
      rw [huse, Option.map_some, Option.some.injEq] at htuse
      subst htuse
      exact hv w hval
    case isFalse => exact h.there t tuse w htuse hval

end Tidy

theorem attached_retarget (v : Option ValueId) :
    (a.modifyUse u fun use => { use with value := v }).Attached t ↔ a.Attached t := by
  unfold Attached
  rw [modifyUse_uses]
  split
  · cases a.uses[t.idx]? <;> simp
  · rfl

theorem names_retarget {use : Use} (huse : a.uses[u.idx]? = some use) (v : Option ValueId) :
    (a.modifyUse u fun use => { use with value := v }).Names t ↔
      (t ≠ u ∧ a.Names t) ∨ (t = u ∧ v.isSome = true) := by
  unfold Names
  rw [modifyUse_uses]
  by_cases ht : t = u
  · subst ht
    simp [huse, Option.isSome_iff_exists]
  · simp [ht]

/-! ### New entries -/

/-- The arena with one more use. -/
def pushUse (a : Arena) (use : Use) : Arena :=
  { a with uses := a.uses.push use }

/-- The arena with one more value. -/
def pushValue (a : Arena) (x : Value) : Arena :=
  { a with values := a.values.push x }

theorem pushUse_uses (use : Use) : (a.pushUse use).uses[t.idx]? =
    if t = ⟨a.uses.size⟩ then some use else a.uses[t.idx]? := by
  obtain ⟨t⟩ := t
  simp [pushUse, Array.getElem?_push]

theorem pushValue_values (x : Value) : (a.pushValue x).values[w.idx]? =
    if w = ⟨a.values.size⟩ then some x else a.values[w.idx]? := by
  obtain ⟨w⟩ := w
  simp [pushValue, Array.getElem?_push]

/-- A use that is already there is none of the new ones. -/
theorem ne_size_of_use {use : Use} (h : a.uses[t.idx]? = some use) : t ≠ ⟨a.uses.size⟩ := by
  rintro rfl
  simp at h

theorem ne_size_of_value (h : a.values[w.idx]? = some x) : w ≠ ⟨a.values.size⟩ := by
  rintro rfl
  simp at h

namespace Tidy

variable {use : Use}

/-- A new use without a place. -/
theorem pushUse (h : a.Tidy) (hslot : use.slot = none)
    (hval : ∀ w, use.value = some w → a.There w) : (a.pushUse use).Tidy where
  exact :=
    { entry := fun w x hx c k t ht => by
        obtain ⟨tuse, htuse, hrest⟩ := h.exact.entry w x hx c k t ht
        exact ⟨tuse, by rw [pushUse_uses, if_neg (ne_size_of_use htuse), htuse], hrest⟩
      slot := fun t tuse k htuse hk => by
        rw [pushUse_uses] at htuse
        split at htuse
        · cases htuse
          simp [hslot] at hk
        · exact h.exact.slot t tuse k htuse hk }
  there t tuse w htuse hw := by
    rw [pushUse_uses] at htuse
    split at htuse
    · cases htuse
      exact hval w hw
    · exact h.there t tuse w htuse hw

/-- A new value without uses. -/
theorem pushValue (h : a.Tidy) (hx : ∀ c, x.usesOf c = []) : (a.pushValue x).Tidy where
  exact :=
    { entry := fun w y hy c k t ht => by
        rw [pushValue_values] at hy
        split at hy
        · cases hy
          simp [hx] at ht
        · exact h.exact.entry w y hy c k t ht
      slot := fun t tuse k htuse hk => by
        obtain ⟨w, y, hval, hy, hentry⟩ := h.exact.slot t tuse k htuse hk
        exact ⟨w, y, hval, by rw [pushValue_values, if_neg (ne_size_of_value hy), hy], hentry⟩ }
  there t tuse w htuse hw := by
    obtain ⟨y, hy⟩ := h.there t tuse w htuse hw
    exact ⟨y, by rw [pushValue_values, if_neg (ne_size_of_value hy), hy]⟩

end Tidy

theorem Drift.pushValue {kind : Change} (a : Arena) (x : Value) :
    a.Drift kind (a.pushValue x) where
  size := by simp [Arena.pushValue]
  gain _ _ hu := hu
  loss _ _ hu := hu
  dropped _ hu := .inl hu

theorem names_pushUse {use : Use} (h : (a.pushUse use).Names t) :
    t = ⟨a.uses.size⟩ ∨ a.Names t := by
  obtain ⟨tuse, w, htuse, hw⟩ := h
  rw [pushUse_uses] at htuse
  split at htuse
  · next ht => exact .inl ht
  · exact .inr ⟨tuse, w, htuse, hw⟩

theorem attached_pushUse {use : Use} (h : a.Attached t) : (a.pushUse use).Attached t := by
  obtain ⟨tuse, htuse, hslot⟩ := h
  exact ⟨tuse, by rw [pushUse_uses, if_neg (ne_size_of_use htuse), htuse], hslot⟩

/-! ### Changes of uses -/

namespace Tidy

/-- A new use of a value is entered into its list. -/
theorem enter (h : a.Tidy) (hv : a.There v) (user : Option InstrId) (guards : Option ConstructId) :
    ∃ a', Edit.link v ⟨a.uses.size⟩ (a.pushUse (Use.fresh v user guards)) = .ok () a' ∧ a'.Tidy
      ∧ a.Drift .building a' := by
  have hpush : (a.pushUse (Use.fresh v user guards)).Tidy :=
    h.pushUse rfl fun w hw => by cases hw; exact hv
  have hnew : (a.pushUse (Use.fresh v user guards)).uses[a.uses.size]? =
      some (Use.fresh v user guards) := by simp [Arena.pushUse]
  obtain ⟨a', hrun, htidy, hcode, hatt⟩ := hpush.link hnew rfl rfl
  refine ⟨a', hrun, htidy, .of_building (size_of_code hcode).ge fun t ht => ?_⟩
  obtain ⟨hnames, hnot⟩ := ht
  rw [names_of_code hcode] at hnames
  rw [hatt, not_or] at hnot
  exact ⟨(names_pushUse hnames).resolve_left hnot.2, fun hatt => hnot.1 (attached_pushUse hatt)⟩

variable {use : Use}

/-- A use without a place turns to a value and is entered into its list. -/
theorem relink (h : a.Tidy) (huse : a.uses[u.idx]? = some use) (hslot : use.slot = none)
    (hv : a.There v) : ∃ a', Edit.link v u (a.modifyUse u fun use => { use with value := some v })
      = .ok () a' ∧ a'.Tidy ∧ a'.values.size = a.values.size
      ∧ (∀ t, a'.Attached t ↔ a.Attached t ∨ t = u) ∧ ∀ t, a'.Names t ↔ a.Names t ∨ t = u := by
  have hturn := h.retarget huse hslot (v := some v) fun w hw => by cases hw; exact hv
  obtain ⟨a', hrun, htidy, hcode, hatt⟩ := hturn.link (modifyUse_get huse) rfl hslot
  refine ⟨a', hrun, htidy, (size_of_code hcode).trans (by simp), fun t => ?_, fun t => ?_⟩
  · rw [hatt, attached_retarget]
  · rw [names_of_code hcode, names_retarget huse]
    by_cases ht : t = u <;> simp [ht]

/-- A use with a place turns to another value. -/
theorem turn (h : a.Tidy) (hu : a.Attached u) (hv : a.There v) :
    ∃ a', Edit.repoint u (some v) a = .ok () a' ∧ a'.Tidy ∧ a.Drift .turning a' := by
  obtain ⟨use, huse, hslot⟩ := hu
  obtain ⟨k, hk⟩ := Option.isSome_iff_exists.mp hslot
  obtain ⟨old, x, hval, -⟩ := h.exact.slot u use k huse hk
  obtain ⟨a₁, hunlink, htidy₁, hcode₁, huse₁, hatt₁⟩ := h.unlink huse hval hslot
  obtain ⟨a', hlink, htidy, hsize, hatt, hnames⟩ :=
    htidy₁.relink huse₁ rfl (by rw [there_of_code hcode₁]; exact hv)
  have hattached (t : UseId) : a'.Attached t ↔ a.Attached t := by
    rw [hatt, hatt₁]
    by_cases ht : t = u
    · subst ht
      exact iff_of_true (.inr rfl) ⟨use, huse, hslot⟩
    · simp [ht]
  have hnamed (t : UseId) (ht : a'.Names t) : a.Names t := by
    rw [hnames, names_of_code hcode₁] at ht
    rcases ht with ht | rfl
    · exact ht
    · exact ⟨use, old, huse, hval⟩
  refine ⟨a', ?_, htidy, (hsize.trans (size_of_code hcode₁)).ge, fun _ t => (hattached t).mp,
    fun _ t => (hattached t).mpr, fun t ht => .inl ⟨hnamed t ht.1, ?_⟩⟩
  · simp only [Edit.repoint, Edit.bind_eq_ok, Edit.look_eq_ok, use_eq_ok]
    refine ⟨use, a, ⟨huse, rfl⟩, ?_⟩
    simp only [hval, Edit.bind_eq_ok, Edit.setUse_eq_ok, Edit.liftM_eq_ok, present_eq_ok]
    exact ⟨(), a₁, hunlink, (), _, rfl, v, _, ⟨rfl, rfl⟩, hlink⟩
  · exact fun hatt => ht.2 ((hattached t).mpr hatt)

/-- A use with a place leaves the list of its value and reads none any more. -/
theorem detach (h : a.Tidy) (huse : a.uses[u.idx]? = some use) (hval : use.value = some v)
    (hslot : use.slot.isSome = true) {kind : Change} (hkind : kind ≠ .turning) :
    ∃ a₁, Edit.unlink v u a = .ok () a₁
      ∧ (a₁.modifyUse u fun use => { use with value := none }).Tidy
      ∧ a.Drift kind (a₁.modifyUse u fun use => { use with value := none }) := by
  obtain ⟨a₁, hrun, htidy, hcode, huse₁, hatt⟩ := h.unlink huse hval hslot
  refine ⟨a₁, hrun, htidy.retarget huse₁ rfl (by simp), ?_, fun _ t ht => ?_, fun hk => absurd hk hkind,
    fun t ht => .inl ?_⟩
  · rw [modifyUse_values]
    exact (size_of_code hcode).ge
  · rw [attached_retarget, hatt] at ht
    exact ht.1
  · obtain ⟨hnames, hnot⟩ := ht
    rw [names_retarget huse₁, names_of_code hcode] at hnames
    obtain ⟨hne, hnames⟩ := hnames.resolve_right (by simp)
    rw [attached_retarget, hatt] at hnot
    exact ⟨hnames, fun hold => hnot ⟨hold, hne⟩⟩

/-- A use is dropped from the list of its value, if it has a place there. -/
theorem drop (h : a.Tidy) (huse : a.uses[u.idx]? = some use) :
    ∃ a', Edit.drop u a = .ok () a' ∧ a'.Tidy ∧ a.Drift .removing a' := by
  by_cases hslot : use.slot.isSome = true
  · obtain ⟨k, hk⟩ := Option.isSome_iff_exists.mp hslot
    obtain ⟨v, x, hval, -⟩ := h.exact.slot u use k huse hk
    obtain ⟨a', hrun, htidy, hcode, -, hatt⟩ := h.unlink huse hval hslot
    refine ⟨a', ?_, htidy, (size_of_code hcode).ge, fun _ t ht => ((hatt t).mp ht).1, by simp,
      fun t ht => ?_⟩
    · simp only [Edit.drop, Edit.bind_eq_ok, Edit.look_eq_ok, use_eq_ok]
      refine ⟨use, a, ⟨huse, rfl⟩, ?_⟩
      rw [if_pos hslot]
      simp only [Edit.bind_eq_ok, Edit.liftM_eq_ok, present_eq_ok]
      exact ⟨v, a, ⟨hval, rfl⟩, hrun⟩
    · by_cases hold : a.Attached t
      · exact .inr ⟨rfl, hold⟩
      · exact .inl ⟨names_of_code hcode ▸ ht.1, hold⟩
  · refine ⟨a, ?_, h, .of_sameTies ⟨rfl, rfl⟩⟩
    simp only [Edit.drop, Edit.bind_eq_ok, Edit.look_eq_ok, use_eq_ok]
    exact ⟨use, a, ⟨huse, rfl⟩, by rw [if_neg hslot]; exact Edit.pure_eq_ok.mpr ⟨rfl, rfl⟩⟩

end Tidy

end Arena

end ShaderCompiler
