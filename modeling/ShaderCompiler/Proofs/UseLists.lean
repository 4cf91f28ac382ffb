import ShaderCompiler.Proofs.Code

/-!
# Use-lists that agree with the uses

A use-list agrees with the uses if each entry reads the value that lists it, in the role that
the list is for, and remembers its place. A use that remembers a place stands there. Both are
kept when a use is dropped from its list or moves to another value, and both operations succeed.
-/

namespace ShaderCompiler

variable {a a' : Arena} {u t : UseId} {v w : ValueId} {V : ValueId → Prop} {U : UseId → Prop}
  {c : Bool} {l : List UseId} {i : InstrId} {ins : Instr} {b : BlockId}

namespace Arena

/-- The use-lists of the values `V` agree with the uses: entries read the value that lists them
and remember their places, and the uses `U`, to which all entries belong, remember right places. -/
structure UseLists (a : Arena) (V : ValueId → Prop) (U : UseId → Prop) : Prop where
  value : ∀ v, V v → ∃ x, a.values[v.idx]? = some x
  entry : ∀ v x, V v → a.values[v.idx]? = some x →
    ∀ (c : Bool) (k : Nat) (u : UseId), (x.usesOf c)[k]? = some u → ∃ use,
      a.uses[u.idx]? = some use ∧ use.slot = some k ∧ use.value = some v ∧ use.guards.isSome = c
  slot : ∀ u, U u → ∃ use v x, a.uses[u.idx]? = some use ∧ use.value = some v ∧ V v
    ∧ a.values[v.idx]? = some x
    ∧ ∀ k, use.slot = some k → (x.usesOf use.guards.isSome)[k]? = some u
  member : ∀ v x, V v → a.values[v.idx]? = some x → ∀ c, ∀ u ∈ x.usesOf c, U u

/-- A use remembers a place in a list. -/
def Attached (a : Arena) (u : UseId) : Prop :=
  ∃ use, a.uses[u.idx]? = some use ∧ use.slot.isSome = true

/-- The arena without an instruction of a block. -/
def without (a : Arena) (b : BlockId) (i : InstrId) : Arena :=
  (a.modifyBlock b fun bb => { bb with instrs := bb.instrs.erase i }).modifyInstr i
    fun ins => { ins with block := none }

/-- Two arenas that differ in values and uses at most. -/
structure SameRest (a a' : Arena) : Prop where
  instrs : a'.instrs = a.instrs
  blocks : a'.blocks = a.blocks
  constructs : a'.constructs = a.constructs
  functions : a'.functions = a.functions
  counters : a'.counters = a.counters

theorem without_code (a : Arena) (b : BlockId) (i : InstrId) :
    (a.without b i).code = a.code.without b i := by
  have hblock : (a.modifyBlock b fun bb => { bb with instrs := bb.instrs.erase i }).code
      = a.code.modifyBlock b fun bb => { bb with instrs := bb.instrs.erase i } :=
    code_modifyBlock fun _ => rfl
  unfold without
  rw [← hblock]
  exact code_modifyInstr fun _ => rfl

theorem SameRest.refl (a : Arena) : SameRest a a := ⟨rfl, rfl, rfl, rfl, rfl⟩

theorem SameRest.trans {a₁ a₂ a₃ : Arena} (h : SameRest a₁ a₂) (h' : SameRest a₂ a₃) :
    SameRest a₁ a₃ :=
  ⟨h'.instrs.trans h.instrs, h'.blocks.trans h.blocks, h'.constructs.trans h.constructs,
    h'.functions.trans h.functions, h'.counters.trans h.counters⟩

end Arena

/-! ### Lists -/

@[simp] theorem usesOf_withUses_same (c : Bool) (l : List UseId) (x : Value) :
    (x.withUses c l).usesOf c = l := by
  cases c <;> rfl

theorem usesOf_withUses_ne {d : Bool} (h : d ≠ c) (l : List UseId) (x : Value) :
    (x.withUses c l).usesOf d = x.usesOf d := by
  cases c <;> cases d <;> first | rfl | exact absurd rfl h

@[simp] theorem bare_withUses (c : Bool) (l : List UseId) (x : Value) :
    (x.withUses c l).bare = x.bare := by
  cases c <;> rfl

theorem getElem?_swapRemove {i : Nat} (hi : i < l.length) (k : Nat) :
    (swapRemove l i)[k]? =
      if k + 1 < l.length then (if k = i then l.getLast? else l[k]?) else none := by
  obtain ⟨last, hlast⟩ : ∃ last, l.getLast? = some last := by
    refine Option.ne_none_iff_exists'.mp fun hnone => ?_
    rw [List.getLast?_eq_none_iff] at hnone
    simp [hnone] at hi
  rw [swapRemove, hlast]
  simp only [List.getElem?_dropLast, List.length_set, List.getElem?_set]
  have hiff : k < l.length - 1 ↔ k + 1 < l.length := by omega
  simp only [hiff]
  by_cases hk : k + 1 < l.length
  · simp only [hk, if_true]
    by_cases hki : k = i
    · simp [hki, hi]
    · simp [hki, Ne.symm hki]
  · simp [hk]

theorem mem_of_mem_swapRemove {i : Nat} (hi : i < l.length)
    (h : u ∈ swapRemove l i) : u ∈ l := by
  obtain ⟨k, hk⟩ := List.mem_iff_getElem?.mp h
  rw [getElem?_swapRemove hi] at hk
  split at hk
  case isFalse => simp at hk
  case isTrue =>
    split at hk
    · exact List.mem_of_getLast? hk
    · exact List.mem_of_getElem? hk

namespace Arena.UseLists

variable {x : Value} {use : Use} {k : Nat} {last : UseId}

/-- Places in the lists of values are different for different entries. -/
theorem entry_inj (h : a.UseLists V U) (hv : V v) (hx : a.values[v.idx]? = some x)
    {m n : Nat} (hm : (x.usesOf c)[m]? = some u) (hn : (x.usesOf c)[n]? = some u) : m = n := by
  obtain ⟨use, huse, hslot, -⟩ := h.entry v x hv hx c m u hm
  obtain ⟨use', huse', hslot', -⟩ := h.entry v x hv hx c n u hn
  cases huse.symm.trans huse'
  rw [hslot] at hslot'
  exact Option.some.inj hslot'

theorem nodup_usesOf (h : a.UseLists V U) (hv : V v) (hx : a.values[v.idx]? = some x) (c : Bool) :
    (x.usesOf c).Nodup := by
  rw [List.nodup_iff_getElem?_ne_getElem?]
  intro m n hmn hn heq
  have hsome : (x.usesOf c)[n]? = some (x.usesOf c)[n] := List.getElem?_eq_getElem hn
  have := h.entry_inj hv hx (heq.trans hsome) hsome
  omega

/-- One list of a value is replaced. Its entries are uses that stood in it or had no place, they
remember their new places, and what is no longer listed has none. -/
theorem relisted (h : a.UseLists V U) (hv : V v) (hx : a.values[v.idx]? = some x)
    (hvalues : ∀ w : ValueId, a'.values[w.idx]?
      = if w = v then some (x.withUses c l) else a.values[w.idx]?)
    (hold : ∀ t ∈ l, t ∈ x.usesOf c ∨ ∀ use, a.uses[t.idx]? = some use → use.slot = none)
    (hlisted : ∀ (k : Nat) t, l[k]? = some t → U t ∧ ∃ use, a'.uses[t.idx]? = some use
      ∧ use.slot = some k ∧ use.value = some v ∧ use.guards.isSome = c)
    (hgone : ∀ t ∈ x.usesOf c, t ∉ l → ∃ use, a'.uses[t.idx]? = some use ∧ use.slot = none
      ∧ use.value = some v)
    (hother : ∀ t, t ∉ x.usesOf c → t ∉ l → a'.uses[t.idx]? = a.uses[t.idx]?) :
    a'.UseLists V U := by
  have hself : a'.values[v.idx]? = some (x.withUses c l) := (hvalues v).trans (if_pos rfl)
  -- The entries of all other lists are neither in the old list nor in the new one.
  have helse {w : ValueId} {y : Value} (hw : V w) (hy : a.values[w.idx]? = some y) {d : Bool}
      {m : Nat} {t : UseId} (ht : (y.usesOf d)[m]? = some t) (hne : ¬ (w = v ∧ d = c)) :
      ∃ use, a'.uses[t.idx]? = some use ∧ use.slot = some m ∧ use.value = some w
        ∧ use.guards.isSome = d := by
    obtain ⟨use, huse, hslot, hval, hcond⟩ := h.entry w y hw hy d m t ht
    have hout : t ∉ x.usesOf c := fun hin => by
      obtain ⟨n, hn⟩ := List.mem_iff_getElem?.mp hin
      obtain ⟨use', huse', -, hval', hcond'⟩ := h.entry v x hv hx c n t hn
      grind
    refine ⟨use, (hother t hout fun hl => ?_).trans huse, hslot, hval, hcond⟩
    exact (hold t hl).elim hout fun hnone => by simp [hnone use huse] at hslot
  refine ⟨fun w hw => ?_, fun w y hw hy d m t ht => ?_, fun t ht => ?_, fun w y hw hy d t ht => ?_⟩
  · rw [hvalues]
    split
    · exact ⟨_, rfl⟩
    · exact h.value w hw
  · rw [hvalues] at hy
    split at hy
    case isFalse hwv => exact helse hw hy ht fun he => hwv he.1
    case isTrue hwv =>
      cases hy
      by_cases hd : d = c
      · subst hwv hd
        rw [usesOf_withUses_same] at ht
        exact (hlisted m t ht).2
      · rw [usesOf_withUses_ne hd] at ht
        exact helse hw (hwv ▸ hx) ht fun he => hd he.2
  · by_cases hl : t ∈ l
    · obtain ⟨k, hk⟩ := List.mem_iff_getElem?.mp hl
      obtain ⟨-, use, huse, hslot, hval, hcond⟩ := hlisted k t hk
      exact ⟨use, v, _, huse, hval, hv, hself, by simp [hcond, hslot, hk]⟩
    by_cases hin : t ∈ x.usesOf c
    · obtain ⟨use, huse, hslot, hval⟩ := hgone t hin hl
      exact ⟨use, v, _, huse, hval, hv, hself, by simp [hslot]⟩
    · obtain ⟨use, w, y, huse, hval, hw, hy, hslot⟩ := h.slot t ht
      refine ⟨use, w, if w = v then x.withUses c l else y, (hother t hin hl).trans huse, hval, hw, ?_, ?_⟩
      · rw [hvalues, hy]
        split <;> rfl
      · intro k hk
        have hplace := hslot k hk
        split
        case isFalse => exact hplace
        case isTrue hwv =>
          obtain rfl : x = y := by grind
          have hd : use.guards.isSome ≠ c := fun hd => hin (List.mem_of_getElem? (hd ▸ hplace))
          rwa [usesOf_withUses_ne hd]
  · rw [hvalues] at hy
    split at hy
    case isFalse => exact h.member w y hw hy d t ht
    case isTrue hwv =>
      cases hy
      by_cases hd : d = c
      · subst hd
        rw [usesOf_withUses_same] at ht
        obtain ⟨k, hk⟩ := List.mem_iff_getElem?.mp ht
        exact (hlisted k t hk).1
      · rw [usesOf_withUses_ne hd] at ht
        exact h.member v x hv hx d t ht

/-- What is left after a use was taken out of its list, whose last entry took its place. -/
theorem unlinked (h : a.UseLists V U) (hv : V v) (hx : a.values[v.idx]? = some x)
    (hk : (x.usesOf c)[k]? = some u) (hlast : (x.usesOf c).getLast? = some last) :
    (((a.modifyUse last fun use => { use with slot := some k }).modifyUse u fun use =>
      { use with slot := none }).modifyValue v
        (·.withUses c (swapRemove (x.usesOf c) k))).UseLists V U := by
  have hklt : k < (x.usesOf c).length := (List.getElem?_eq_some_iff.mp hk).1
  have hlast' : (x.usesOf c)[(x.usesOf c).length - 1]? = some last := by
    rw [← hlast, List.getLast?_eq_getElem?]
  -- An entry of the new list stood in the old one, at the same place or at its end.
  have hentry {m : Nat} {t : UseId} (ht : (swapRemove (x.usesOf c) k)[m]? = some t) :
      t ≠ u ∧ (m = k ∧ t = last ∨ t ≠ last ∧ (x.usesOf c)[m]? = some t) := by
    rw [getElem?_swapRemove hklt, hlast] at ht
    have hinj {n : Nat} (hm : (x.usesOf c)[m]? = some t) (hn : (x.usesOf c)[n]? = some t) : m = n :=
      h.entry_inj hv hx hm hn
    grind
  refine h.relisted hv hx (c := c) (l := swapRemove (x.usesOf c) k) (fun w => ?_)
    (fun t ht => .inl (mem_of_mem_swapRemove hklt ht))
    (fun m t ht => ?_) (fun t ht hl => ?_) (fun t ht hl => ?_)
  · rw [modifyValue_values, modifyUse_values, modifyUse_values]
    split
    case isTrue hwv => rw [hwv, hx, Option.map_some]
    case isFalse => rfl
  · have hin := mem_of_mem_swapRemove hklt (List.mem_of_getElem? ht)
    refine ⟨h.member v x hv hx c t hin, ?_⟩
    obtain ⟨htu, ⟨rfl, rfl⟩ | ⟨htl, hm⟩⟩ := hentry ht
    · obtain ⟨use, huse, -, hval, hcond⟩ := h.entry v x hv hx c _ t hlast'
      refine ⟨{ use with slot := some m }, ?_, rfl, hval, hcond⟩
      rw [modifyValue_uses, modifyUse_uses, if_neg htu, modifyUse_uses, if_pos rfl, huse, Option.map_some]
    · rw [modifyValue_uses, modifyUse_uses, if_neg htu, modifyUse_uses, if_neg htl]
      exact h.entry v x hv hx c m t hm
  · obtain ⟨n, hn⟩ := List.mem_iff_getElem?.mp ht
    have hmoved : t = u := by
      by_contra htu
      have hnew := getElem?_swapRemove hklt
      refine hl (if htl : t = last then List.mem_of_getElem? (i := k) ?_
        else List.mem_of_getElem? (i := n) ?_) <;> grind
    subst hmoved
    obtain ⟨use, huse, -, hval, -⟩ := h.entry v x hv hx c k t hk
    refine ⟨{ use with slot := none }, ?_, rfl, hval⟩
    rw [modifyValue_uses, modifyUse_uses, if_pos rfl, modifyUse_uses]
    split <;> rw [huse] <;> rfl
  · have htu : t ≠ u := fun e => ht (e ▸ List.mem_of_getElem? hk)
    have htl : t ≠ last := fun e => ht (e ▸ List.mem_of_getElem? hlast')
    rw [modifyValue_uses, modifyUse_uses, if_neg htu, modifyUse_uses, if_neg htl]

/-- A use without a place may turn to another value. -/
theorem retargeted (h : a.UseLists V U) (huse : a.uses[u.idx]? = some use)
    (hslot : use.slot = none) (hv : V v) :
    (a.modifyUse u fun use => { use with value := some v }).UseLists V U := by
  refine ⟨h.value, fun w y hw hy d m t ht => ?_, fun t ht => ?_, h.member⟩
  · obtain ⟨tuse, htuse, htslot, htval, htcond⟩ := h.entry w y hw hy d m t ht
    have htu : t ≠ u := by
      rintro rfl
      cases huse.symm.trans htuse
      simp [hslot] at htslot
    exact ⟨tuse, by rw [modifyUse_uses, if_neg htu, htuse], htslot, htval, htcond⟩
  · obtain ⟨tuse, w, y, htuse, htval, hw, hy, htslot⟩ := h.slot t ht
    by_cases htu : t = u
    · subst htu
      cases huse.symm.trans htuse
      obtain ⟨x, hx⟩ := h.value v hv
      refine ⟨{ use with value := some v }, v, x, ?_, rfl, hv, hx, by simp [hslot]⟩
      rw [modifyUse_uses, if_pos rfl, huse]
      rfl
    · exact ⟨tuse, w, y, by rw [modifyUse_uses, if_neg htu, htuse], htval, hw, hy, htslot⟩

/-- What there is after a use was entered at the end of the list of its value. -/
theorem linked (h : a.UseLists V U) (hu : U u) (huse : a.uses[u.idx]? = some use)
    (hslot : use.slot = none) (hval : use.value = some v) (hv : V v) (hx : a.values[v.idx]? = some x)
    (hc : use.guards.isSome = c) :
    ((a.modifyUse u fun use => { use with slot := some (x.usesOf c).length }).modifyValue v
      (·.withUses c (x.usesOf c ++ [u]))).UseLists V U := by
  refine h.relisted hv hx (c := c) (l := x.usesOf c ++ [u]) (fun w => ?_)
    (fun t ht => ?_) (fun m t ht => ?_)
    (fun t ht hl => absurd (List.mem_append_left _ ht) hl) (fun t _ hl => ?_)
  · rw [modifyValue_values, modifyUse_values]
    split
    case isTrue hwv => rw [hwv, hx, Option.map_some]
    case isFalse => rfl
  · rcases List.mem_append.mp ht with ht | ht
    · exact .inl ht
    · obtain rfl := List.mem_singleton.mp ht
      exact .inr fun use' huse' => by grind
  · rw [List.getElem?_append] at ht
    split at ht
    · obtain ⟨tuse, htuse, htslot, hrest⟩ := h.entry v x hv hx c m t ht
      have htu : t ≠ u := by
        rintro rfl
        grind
      refine ⟨h.member v x hv hx c t (List.mem_of_getElem? ht), tuse, ?_, htslot, hrest⟩
      rw [modifyValue_uses, modifyUse_uses, if_neg htu, htuse]
    · obtain ⟨hm, rfl⟩ : m = (x.usesOf c).length ∧ u = t := by grind
      refine ⟨hu, { use with slot := some m }, ?_, rfl, hval, hc⟩
      rw [modifyValue_uses, modifyUse_uses, if_pos rfl, huse, hm, Option.map_some]
  · have htu : t ≠ u := fun e => hl (by simp [e])
    rw [modifyValue_uses, modifyUse_uses, if_neg htu]

/-- Swizzles play no role. -/
theorem reswizzled (h : a.UseLists V U) (z : Swizzle) :
    (a.modifyUse u fun use => { use with swizzle := z }).UseLists V U := by
  have hget {t : UseId} {use : Use} (huse : a.uses[t.idx]? = some use) :
      ∃ use', (a.modifyUse u fun use => { use with swizzle := z }).uses[t.idx]? = some use'
        ∧ use'.slot = use.slot ∧ use'.value = use.value ∧ use'.guards = use.guards := by
    rw [modifyUse_uses]
    split
    · exact ⟨{ use with swizzle := z }, by rw [huse]; rfl, rfl, rfl, rfl⟩
    · exact ⟨use, huse, rfl, rfl, rfl⟩
  refine ⟨h.value, fun w y hw hy d m t ht => ?_, fun t ht => ?_, h.member⟩
  · obtain ⟨use, huse, hslot, hval, hcond⟩ := h.entry w y hw hy d m t ht
    obtain ⟨use', huse', hslot', hval', hguards'⟩ := hget huse
    exact ⟨use', huse', hslot'.trans hslot, hval'.trans hval, hguards' ▸ hcond⟩
  · obtain ⟨use, w, y, huse, hval, hw, hy, hslot⟩ := h.slot t ht
    obtain ⟨use', huse', hslot', hval', hguards'⟩ := hget huse
    exact ⟨use', w, y, huse', hval'.trans hval, hw, hy, fun k hk =>
      hguards' ▸ hslot k (hslot' ▸ hk)⟩

end Arena.UseLists

/-! ### The changes -/

namespace Edit

open Arena

theorem unlink_run {use : Use} {x : Value} {k : Nat} (huse : a.uses[u.idx]? = some use)
    (hx : a.values[v.idx]? = some x) (hslot : use.slot = some k)
    (hk : (x.usesOf use.guards.isSome)[k]? = some u) :
    ∃ last, (x.usesOf use.guards.isSome).getLast? = some last ∧
      unlink v u a = .ok () (((a.modifyUse last fun use =>
        { use with slot := some k }).modifyUse u fun use =>
        { use with slot := none }).modifyValue v
          (·.withUses use.guards.isSome (swapRemove (x.usesOf use.guards.isSome) k))) := by
  obtain ⟨last, hlast⟩ : ∃ last, (x.usesOf use.guards.isSome).getLast? = some last := by
    refine Option.ne_none_iff_exists'.mp fun hnone => ?_
    rw [List.getLast?_eq_none_iff] at hnone
    simp [hnone] at hk
  refine ⟨last, hlast, ?_⟩
  simp only [unlink, bind_eq_ok, look_eq_ok, use_eq_ok, value_eq_ok]
  refine ⟨use, a, ⟨huse, rfl⟩, x, a, ⟨hx, rfl⟩, ?_⟩
  simp only [hslot, hk, if_true, hlast, bind_eq_ok, setUse_eq_ok, setValue_eq_ok]
  exact ⟨(), _, rfl, (), _, rfl, rfl⟩

/-- Taking a listed use out of its list. -/
theorem unlink_spec (h : a.UseLists V U) (hu : U u) {use : Use}
    (huse : a.uses[u.idx]? = some use) (hval : use.value = some v)
    (hslot : use.slot.isSome = true) :
    ∃ a', unlink v u a = .ok () a' ∧ a'.UseLists V U ∧ a'.code = a.code ∧ a.SameRest a'
      ∧ a'.uses[u.idx]? = some { use with slot := none }
      ∧ ∀ t, t ≠ u → (a'.Attached t ↔ a.Attached t) := by
  obtain ⟨use', v', x, huse', hval', hv, hx, hlist⟩ := h.slot u hu
  cases huse.symm.trans huse'
  cases hval.symm.trans hval'
  obtain ⟨k, hk⟩ := Option.isSome_iff_exists.mp hslot
  obtain ⟨last, hlast, hrun⟩ := unlink_run huse hx hk (hlist k hk)
  obtain ⟨luse, hluse, hlslot, -⟩ := h.entry v x hv hx _ _ last
    (by rw [← hlast, List.getLast?_eq_getElem?])
  refine ⟨_, hrun, h.unlinked hv hx (hlist k hk) hlast, ?_, ⟨rfl, rfl, rfl, rfl, rfl⟩, ?_,
    fun t ht => ?_⟩
  · rw [code_modifyValue fun x => bare_withUses _ _ x,
      code_modifyUse_of_bare (by exact fun _ => rfl),
      code_modifyUse_of_bare (by exact fun _ => rfl)]
  · rw [modifyValue_uses, modifyUse_uses, if_pos rfl, modifyUse_uses]
    split
    · rw [huse]
      rfl
    · rw [huse]
      rfl
  · unfold Attached
    rw [modifyValue_uses, modifyUse_uses, if_neg ht, modifyUse_uses]
    split
    case isTrue htl =>
      subst htl
      simp [hluse, hlslot]
    case isFalse => rfl

/-- Entering a use without a place into the list of its value. -/
theorem link_spec (h : a.UseLists V U) (hu : U u) {use : Use} (huse : a.uses[u.idx]? = some use)
    (hval : use.value = some v) (hv : V v) (hslot : use.slot = none) :
    ∃ a', link v u a = .ok () a' ∧ a'.UseLists V U ∧ a'.code = a.code ∧ a.SameRest a'
      ∧ a'.Attached u ∧ ∀ t, t ≠ u → (a'.Attached t ↔ a.Attached t) := by
  obtain ⟨x, hx⟩ := h.value v hv
  refine ⟨_, ?_, h.linked hu huse hslot hval hv hx rfl, ?_, ⟨rfl, rfl, rfl, rfl, rfl⟩, ?_,
    fun t ht => ?_⟩
  · simp only [link, bind_eq_ok, look_eq_ok, use_eq_ok, value_eq_ok, setUse_eq_ok,
      setValue_eq_ok]
    exact ⟨use, a, ⟨huse, rfl⟩, x, a, ⟨hx, rfl⟩, (), _, rfl, rfl⟩
  · rw [code_modifyValue fun x => bare_withUses _ _ x,
      code_modifyUse_of_bare (by exact fun _ => rfl)]
  · refine ⟨{ use with slot := some (x.usesOf use.guards.isSome).length }, ?_, rfl⟩
    rw [modifyValue_uses, modifyUse_uses, if_pos rfl, huse]
    rfl
  · unfold Attached
    rw [modifyValue_uses, modifyUse_uses, if_neg ht]

/-- Unlinking a use if it is linked. -/
theorem drop_spec (h : a.UseLists V U) (hu : U u) :
    ∃ a', drop u a = .ok () a' ∧ a'.UseLists V U ∧ a'.code = a.code ∧ a.SameRest a'
      ∧ ¬ a'.Attached u ∧ ∀ t, t ≠ u → (a'.Attached t ↔ a.Attached t) := by
  obtain ⟨use, v, x, huse, hval, hv, hx, -⟩ := h.slot u hu
  simp only [drop, bind_eq_ok, look_eq_ok, use_eq_ok]
  by_cases hslot : use.slot.isSome = true
  · obtain ⟨a', hrun, hlists, hcode, hrest, huse', hatt⟩ := unlink_spec h hu huse hval hslot
    refine ⟨a', ⟨use, a, ⟨huse, rfl⟩, ?_⟩, hlists, hcode, hrest, ?_, hatt⟩
    · rw [if_pos hslot]
      simp only [bind_eq_ok, liftM_eq_ok, present_eq_ok]
      exact ⟨v, a, ⟨hval, rfl⟩, hrun⟩
    · rintro ⟨use'', huse'', hsome⟩
      cases huse'.symm.trans huse''
      simp at hsome
  · refine ⟨a, ⟨use, a, ⟨huse, rfl⟩, ?_⟩, h, rfl, .refl a, ?_, fun _ _ => Iff.rfl⟩
    · rw [if_neg hslot]
      exact pure_eq_ok.mpr ⟨rfl, rfl⟩
    · rintro ⟨use', huse', hsome⟩
      cases huse.symm.trans huse'
      exact hslot hsome

/-- Letting a listed use read another value. -/
theorem repoint_spec (h : a.UseLists V U) (hu : U u) (hatt : a.Attached u) (hv : V v) :
    ∃ a', repoint u (some v) a = .ok () a' ∧ a'.UseLists V U
      ∧ a'.code = a.code.modifyUse u (fun use => { use with value := some v }) ∧ a.SameRest a'
      ∧ ∀ t, a'.Attached t ↔ a.Attached t := by
  obtain ⟨use, w, x, huse, hval, -⟩ := h.slot u hu
  obtain ⟨use', huse', hslot⟩ := hatt
  cases huse.symm.trans huse'
  obtain ⟨a₁, h1, hlists₁, hcode₁, hrest₁, huse₁, hatt₁⟩ := unlink_spec h hu huse hval hslot
  have hlists₂ := hlists₁.retargeted huse₁ rfl hv
  have huse₂ : (a₁.modifyUse u fun use => { use with value := some v }).uses[u.idx]?
      = some { use with slot := none, value := some v } := by
    rw [modifyUse_uses, if_pos rfl, huse₁]
    rfl
  obtain ⟨a₃, h3, hlists₃, hcode₃, hrest₃, hatt_u, hatt₃⟩ := link_spec hlists₂ hu huse₂ rfl hv rfl
  have hrest : a.SameRest (a₁.modifyUse u fun use => { use with value := some v }) :=
    ⟨hrest₁.instrs, hrest₁.blocks, hrest₁.constructs, hrest₁.functions, hrest₁.counters⟩
  refine ⟨a₃, ?_, hlists₃, ?_, hrest.trans hrest₃, fun t => ?_⟩
  · simp only [repoint, bind_eq_ok, look_eq_ok, use_eq_ok]
    refine ⟨use, a, ⟨huse, rfl⟩, ?_⟩
    simp only [hval, bind_eq_ok, setUse_eq_ok, liftM_eq_ok, present_eq_ok]
    exact ⟨(), a₁, h1, (), _, rfl, v, _, ⟨rfl, rfl⟩, h3⟩
  · calc a₃.code
        = (a₁.modifyUse u fun use => { use with value := some v }).code := hcode₃
      _ = a₁.code.modifyUse u (fun use => { use with value := some v }) :=
          code_modifyUse fun _ => rfl
      _ = _ := by rw [hcode₁]
  · by_cases ht : t = u
    · subst ht
      exact iff_of_true hatt_u ⟨use, huse, hslot⟩
    · refine (hatt₃ t ht).trans (Iff.trans ?_ (hatt₁ t ht))
      unfold Attached
      rw [modifyUse_uses, if_neg ht]

/-- Unlinking uses one after the other. -/
theorem forM_drop_spec (h : a.UseLists V U) {l : List (Option UseId)}
    (hl : ∀ s ∈ l, ∃ u, s = some u ∧ U u) :
    ∃ a', (l.forM fun u => (do drop (← present u) : Edit Unit)) a = .ok () a' ∧ a'.UseLists V U
      ∧ a'.code = a.code ∧ a.SameRest a'
      ∧ (∀ u, some u ∈ l → ¬ a'.Attached u) ∧ ∀ t, some t ∉ l → (a'.Attached t ↔ a.Attached t) := by
  induction l generalizing a with
  | nil => exact ⟨a, rfl, h, rfl, .refl a, by simp, fun _ _ => Iff.rfl⟩
  | cons s l ih =>
    obtain ⟨u, rfl, hu⟩ := hl s List.mem_cons_self
    obtain ⟨a₁, h1, hlists₁, hcode₁, hrest₁, hnot, hatt₁⟩ := drop_spec h hu
    obtain ⟨a₂, h2, hlists₂, hcode₂, hrest₂, hdropped, hatt₂⟩ :=
      ih hlists₁ fun s hs => hl s (List.mem_cons_of_mem _ hs)
    refine ⟨a₂, ?_, hlists₂, hcode₂.trans hcode₁, hrest₁.trans hrest₂, fun t ht => ?_,
      fun t ht => ?_⟩
    · rw [List.forM_eq_forM, List.forM_cons, bind_eq_ok]
      refine ⟨(), a₁, ?_, h2⟩
      simp only [bind_eq_ok, liftM_eq_ok, present_eq_ok]
      exact ⟨u, a, ⟨rfl, rfl⟩, h1⟩
    · by_cases htl : some t ∈ l
      · exact hdropped t htl
      · obtain rfl : t = u := by simpa [htl] using ht
        exact fun hatt => hnot ((hatt₂ t htl).mp hatt)
    · obtain ⟨hne, htl⟩ := List.ne_and_not_mem_of_not_mem_cons ht
      exact (hatt₂ t htl).trans (hatt₁ t fun e => hne (congrArg some e))

/-- Unlinking the sources of an instruction. -/
theorem dropSources_spec (h : a.UseLists V U)
    (hins : a.instrs[i.idx]? = some ins) (hl : ∀ s ∈ ins.sources, ∃ u, s = some u ∧ U u) :
    ∃ a', dropSources i a = .ok () a' ∧ a'.UseLists V U ∧ a'.code = a.code ∧ a.SameRest a'
      ∧ (∀ u, some u ∈ ins.sources → ¬ a'.Attached u)
      ∧ ∀ t, some t ∉ ins.sources → (a'.Attached t ↔ a.Attached t) := by
  obtain ⟨a', hrun, hspec⟩ := forM_drop_spec h hl
  refine ⟨a', ?_, hspec⟩
  simp only [dropSources, bind_eq_ok, look_eq_ok, instr_eq_ok]
  exact ⟨ins, a, ⟨hins, rfl⟩, hrun⟩

/-- Taking an instruction out of its block: apart from the use-lists, the arena is the one
without the instruction. Its sources are not listed any more. -/
theorem removeInstr_spec (h : a.UseLists V U) {bb : Block}
    (hbb : a.blocks[b.idx]? = some bb) (hi : i ∈ bb.instrs)
    (hins : a.instrs[i.idx]? = some ins) (hl : ∀ s ∈ ins.sources, ∃ u, s = some u ∧ U u) :
    ∃ a', removeInstr b i a = .ok () a' ∧ a'.code = (a.without b i).code
      ∧ a'.instrs = (a.without b i).instrs ∧ a'.UseLists V U
      ∧ ∀ u, a'.Attached u ↔ a.Attached u ∧ some u ∉ ins.sources := by
  obtain ⟨a₁, h1, hlists, hcode, hrest, hdropped, hother⟩ := dropSources_spec h hins hl
  refine ⟨a₁.without b i, ?_, by rw [without_code, hcode, ← without_code],
    congrArg (fun l => l.modify i.idx fun ins => { ins with block := none }) hrest.instrs,
    ⟨hlists.value, hlists.entry, hlists.slot, hlists.member⟩, fun u => ?_⟩
  · simp only [removeInstr, bind_eq_ok, look_eq_ok, block_eq_ok]
    refine ⟨bb, a, ⟨hbb, rfl⟩, ?_⟩
    rw [if_pos hi]
    simp only [bind_eq_ok, setBlock_eq_ok, setInstr_eq_ok]
    exact ⟨(), a₁, h1, (), _, rfl, rfl⟩
  · by_cases hu : some u ∈ ins.sources
    · exact iff_of_false (hdropped u hu) fun hatt => hatt.2 hu
    · exact (hother u hu).trans (and_iff_left hu).symm

theorem exists_of_removeInstr {y : Unit}
    (h : removeInstr b i a = .ok y a') :
    i ∈ a.body b ∧ ∃ a₁, dropSources i a = .ok () a₁ ∧ a' = a₁.without b i := by
  simp only [removeInstr, bind_eq_ok, look_eq_ok, block_eq_ok] at h
  obtain ⟨bb, _, ⟨hbb, rfl⟩, h⟩ := h
  split at h
  case isTrue hi =>
    simp only [bind_eq_ok, setBlock_eq_ok, setInstr_eq_ok] at h
    obtain ⟨_, a₁, hdrop, _, _, rfl, rfl⟩ := h
    exact ⟨body_of_block hbb ▸ hi, a₁, hdrop, rfl⟩
  case isFalse => simp at h

end Edit

end ShaderCompiler
