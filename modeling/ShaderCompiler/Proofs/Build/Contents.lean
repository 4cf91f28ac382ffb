import ShaderCompiler.Proofs.Build.Lists

/-!
# Blocks and values under construction

While functions are built, every instruction stands in one place, in the block that it points to, and
the φs of a block come first. Every value is defined by the one instruction that it points to, and has
a number below the next one of its function, which no other value of the function has.
-/

namespace ShaderCompiler

variable {v : ValueId} {k n : Int} {c' : Cursor}

namespace Skeleton

variable {s t : Skeleton} {f g : FunctionId} {b : BlockId} {i j : InstrId} {isPhi : Bool}
  {vs : List ValueId}

/-! ### What a new instruction changes -/

theorem insert_instr_of_ne (hj : j ≠ i) : (s.insert f b i isPhi vs).instr j = s.instr j :=
  Function.update_of_ne hj _ _

theorem insert_instr_self :
    (s.insert f b i isPhi vs).instr i = some ⟨some b, isPhi, vs.map some⟩ :=
  Function.update_self _ _ _

theorem insert_isPhi_of_ne (hj : j ≠ i) : (s.insert f b i isPhi vs).isPhi j = s.isPhi j := by
  rw [Skeleton.isPhi, insert_instr_of_ne hj, Skeleton.isPhi]

theorem insert_isPhi_self : (s.insert f b i isPhi vs).isPhi i = isPhi := by
  rw [Skeleton.isPhi, insert_instr_self]
  rfl

theorem insert_body_of_ne {b' : BlockId} (hb : b' ≠ b) :
    (s.insert f b i isPhi vs).body b' = s.body b' :=
  Function.update_of_ne hb _ _

theorem insert_body_self : (s.insert f b i isPhi vs).body b
    = (s.drafted f i ⟨some b, isPhi, vs.map some⟩ vs).withNew b i isPhi :=
  Function.update_self _ _ _

theorem withNew_perm (s : Skeleton) (b : BlockId) (i : InstrId) (isPhi : Bool) :
    (s.withNew b i isPhi).Perm (i :: s.body b) := by
  unfold withNew
  split
  · refine List.perm_middle.trans (List.Perm.cons i ?_)
    rw [List.takeWhile_append_dropWhile]
  · exact List.perm_append_singleton i _

/-! ### Instructions in blocks -/

/-- The φs of a block come first. -/
def PhisFirst (s : Skeleton) (b : BlockId) : Prop :=
  ∃ front back, s.body b = front ++ back ∧ (∀ i ∈ front, s.isPhi i = true)
    ∧ ∀ i ∈ back, s.isPhi i = false

/-- What holds of blocks and instructions. -/
structure Filled (s : Skeleton) : Prop where
  home : ∀ i role, s.instr i = some role → ∃ b, role.block = some b ∧ i ∈ s.body b
  held : ∀ b i, i ∈ s.body b → ∃ role, s.instr i = some role ∧ role.block = some b
  listed : ∀ b i, i ∈ s.body b → ∃ r l, s.items r = some l ∧ .block b ∈ l
  nodup : ∀ b, (s.body b).Nodup
  phis : ∀ b, s.PhisFirst b

theorem Filled.congr (h : s.Filled) (hinstr : t.instr = s.instr) (hbody : t.body = s.body)
    (hitems : ∀ r l, s.items r = some l → ∀ item ∈ l, ∃ l', t.items r = some l' ∧ item ∈ l') :
    t.Filled where
  home := hinstr ▸ hbody ▸ h.home
  held := hinstr ▸ hbody ▸ h.held
  listed b i hi := by
    obtain ⟨r, l, hl, hb⟩ := h.listed b i (hbody ▸ hi)
    exact ⟨r, hitems r l hl _ hb⟩
  nodup := hbody ▸ h.nodup
  phis b := by
    have hphi : t.isPhi = s.isPhi := funext fun i => by rw [Skeleton.isPhi, hinstr, Skeleton.isPhi]
    rw [PhisFirst, hbody, hphi]
    exact h.phis b

/-- A φ goes behind the φs, and other instructions behind everything. -/
theorem PhisFirst.withNew (h : s.PhisFirst b) (hsame : ∀ j ∈ s.body b, t.isPhi j = s.isPhi j)
    (hbody : t.body b = s.body b) (hi : t.isPhi i = isPhi) :
    ∃ front back, t.withNew b i isPhi = front ++ back ∧ (∀ j ∈ front, t.isPhi j = true)
      ∧ ∀ j ∈ back, t.isPhi j = false := by
  obtain ⟨front, back, hsplit, hfront, hback⟩ := h
  rw [hsplit] at hsame
  have hfront' : ∀ j ∈ front, t.isPhi j = true := fun j hj =>
    (hsame j (List.mem_append_left _ hj)).trans (hfront j hj)
  have hback' : ∀ j ∈ back, t.isPhi j = false := fun j hj =>
    (hsame j (List.mem_append_right _ hj)).trans (hback j hj)
  unfold Skeleton.withNew
  rw [hbody, hsplit]
  cases isPhi with
  | false =>
    refine ⟨front, back ++ [i], by simp, hfront', fun j hj => ?_⟩
    rcases List.mem_append.mp hj with hj | hj
    · exact hback' j hj
    · rw [List.mem_singleton.mp hj, hi]
  | true =>
    refine ⟨(front ++ back).takeWhile t.isPhi ++ [i], (front ++ back).dropWhile t.isPhi, by simp,
      fun j hj => ?_, fun j hj => ?_⟩
    · rcases List.mem_append.mp hj with hj | hj
      · exact List.mem_takeWhile_imp hj
      · rw [List.mem_singleton.mp hj, hi]
    · rw [List.dropWhile_append_of_pos hfront'] at hj
      exact hback' j (List.dropWhile_subset _ hj)

/-- A new instruction keeps blocks and instructions in order. -/
theorem Filled.insert (h : s.Filled) (hi : s.instr i = none)
    (hb : ∃ r l, s.items r = some l ∧ .block b ∈ l) : (s.insert f b i isPhi vs).Filled := by
  have hne {b' : BlockId} {j : InstrId} (hj : j ∈ s.body b') : j ≠ i := by
    rintro rfl
    obtain ⟨role, hrole, -⟩ := h.held b' j hj
    cases hi.symm.trans hrole
  have hmem {j : InstrId} : j ∈ (s.insert f b i isPhi vs).body b ↔ j = i ∨ j ∈ s.body b := by
    rw [insert_body_self, (withNew_perm _ _ _ _).mem_iff, List.mem_cons]
    rfl
  have hcases {b' : BlockId} {j : InstrId} (hj : j ∈ (s.insert f b i isPhi vs).body b') :
      j = i ∧ b' = b ∨ j ≠ i ∧ j ∈ s.body b' := by
    by_cases hb' : b' = b
    · subst hb'
      rcases hmem.mp hj with rfl | hj
      · exact .inl ⟨rfl, rfl⟩
      · exact .inr ⟨hne hj, hj⟩
    · rw [insert_body_of_ne hb'] at hj
      exact .inr ⟨hne hj, hj⟩
  refine ⟨fun j role hrole => ?_, fun b' j hj => ?_, fun b' j hj => ?_, fun b' => ?_, fun b' => ?_⟩
  · by_cases hj : j = i
    · subst hj
      cases insert_instr_self.symm.trans hrole
      exact ⟨b, rfl, hmem.mpr (.inl rfl)⟩
    · rw [insert_instr_of_ne hj] at hrole
      obtain ⟨b', hblock, hmem'⟩ := h.home j role hrole
      refine ⟨b', hblock, ?_⟩
      by_cases hb' : b' = b
      · subst hb'
        exact hmem.mpr (.inr hmem')
      · rwa [insert_body_of_ne hb']
  · rcases hcases hj with ⟨rfl, rfl⟩ | ⟨hji, hj⟩
    · exact ⟨_, insert_instr_self, rfl⟩
    · rw [insert_instr_of_ne hji]
      exact h.held b' j hj
  · rcases hcases hj with ⟨rfl, rfl⟩ | ⟨-, hj⟩
    · exact hb
    · exact h.listed b' j hj
  · by_cases hb' : b' = b
    · subst hb'
      rw [insert_body_self]
      exact (withNew_perm _ _ _ _).nodup_iff.mpr
        (List.nodup_cons.mpr ⟨fun hmem => hne hmem rfl, h.nodup b'⟩)
    · rw [insert_body_of_ne hb']
      exact h.nodup b'
  · by_cases hb' : b' = b
    · subst hb'
      rw [PhisFirst, insert_body_self]
      exact (h.phis b').withNew (fun j hj => insert_isPhi_of_ne (f := f) (hne hj)) rfl
        (insert_isPhi_self (f := f))
    · obtain ⟨front, back, hsplit, hfront, hback⟩ := h.phis b'
      have hsame {j : InstrId} (hj : j ∈ front ++ back) :
          (s.insert f b i isPhi vs).isPhi j = s.isPhi j :=
        insert_isPhi_of_ne (hne (hsplit ▸ hj))
      refine ⟨front, back, by rw [insert_body_of_ne hb', hsplit], fun j hj => ?_, fun j hj => ?_⟩
      · rw [hsame (List.mem_append_left _ hj), hfront j hj]
      · rw [hsame (List.mem_append_right _ hj), hback j hj]

/-! ### Values -/

/-- An instruction defines a value. -/
def Defines (s : Skeleton) (i : InstrId) (v : ValueId) : Prop :=
  ∃ role, s.instr i = some role ∧ some v ∈ role.defs

/-- An instruction stands in a block of a function. -/
def Holds (s : Skeleton) (f : FunctionId) (i : InstrId) : Prop :=
  ∃ role b o, s.instr i = some role ∧ role.block = some b ∧ s.parent (.block b) = some (some o)
    ∧ s.Within f o

/-- What holds of values. -/
structure Numbered (s : Skeleton) : Prop where
  counted : ∀ f b, s.finish f = some b → ∃ n, s.count f = some n ∧ 0 ≤ n
  defined : ∀ v k d, s.value v = some (k, d) → ∃ i f n, d = some i ∧ s.Defines i v ∧ s.Holds f i
    ∧ s.count f = some n ∧ 0 ≤ k ∧ k < n
  points : ∀ i v, s.Defines i v → ∃ k, s.value v = some (k, some i)
  once : ∀ i role, s.instr i = some role → none ∉ role.defs ∧ role.defs.Nodup
  distinct : ∀ f v w k i j, s.value v = some (k, some i) → s.value w = some (k, some j) →
    s.Holds f i → s.Holds f j → v = w

theorem Holds.function_eq (hf : s.Holds f i) (hg : s.Holds g i) : f = g := by
  obtain ⟨role, b, o, hrole, hb, ho, hwithin⟩ := hf
  obtain ⟨role', b', o', hrole', hb', ho', hwithin'⟩ := hg
  cases hrole.symm.trans hrole'
  cases hb.symm.trans hb'
  cases ho.symm.trans ho'
  exact hwithin.function_eq hwithin'

theorem Holds.mono (h : s.Holds f i) (hinstr : ∀ role, s.instr i = some role → t.instr i = some role)
    (hkeeps : ∀ item p, s.parent item = some p → t.parent item = some p) : t.Holds f i := by
  obtain ⟨role, b, o, hrole, hb, ho, hwithin⟩ := h
  exact ⟨role, b, o, hinstr role hrole, hb, hkeeps _ _ ho, hwithin.mono hkeeps⟩

theorem Numbered.exists_holds (h : s.Numbered)
    (hv : s.value v = some (k, some i)) : ∃ f n, s.Holds f i ∧ s.count f = some n ∧ 0 ≤ k ∧ k < n := by
  obtain ⟨i', f, n, hi, -, hholds, hn, hk⟩ := h.defined v k _ hv
  cases hi
  exact ⟨f, n, hholds, hn, hk⟩

/-- New items and new functions leave values as they are. -/
theorem Numbered.congr (h : s.Numbered) (hvalue : t.value = s.value) (hinstr : t.instr = s.instr)
    (hcount : ∀ f n, s.count f = some n → t.count f = some n)
    (hfinish : ∀ f b, t.finish f = some b → ∃ n, t.count f = some n ∧ 0 ≤ n)
    (hkeeps : ∀ item p, s.parent item = some p → t.parent item = some p) : t.Numbered := by
  have hholds {f : FunctionId} {i : InstrId} (hi : s.Holds f i) : t.Holds f i :=
    hi.mono (fun _ hrole => hinstr ▸ hrole) hkeeps
  refine ⟨hfinish, fun v k d hv => ?_, fun i v hd => ?_, hinstr ▸ h.once,
    fun f v w k i j hv hw hi hj => ?_⟩
  · rw [hvalue] at hv
    obtain ⟨i, f, n, hd, hdef, hi, hn, hk⟩ := h.defined v k d hv
    exact ⟨i, f, n, hd, by rwa [Defines, hinstr], hholds hi, hcount f n hn, hk⟩
  · rw [hvalue]
    exact h.points i v (by rwa [Defines, hinstr] at hd)
  · rw [hvalue] at hv hw
    obtain ⟨f₁, -, hi₁, -⟩ := h.exists_holds hv
    obtain ⟨f₂, -, hj₂, -⟩ := h.exists_holds hw
    obtain rfl := (hholds hi₁).function_eq hi
    obtain rfl := (hholds hj₂).function_eq hj
    exact h.distinct _ v w k i j hv hw hi₁ hj₂

theorem insert_value_of_notMem (hv : v ∉ vs) :
    (s.insert f b i isPhi vs).value v = s.value v :=
  if_neg hv

theorem insert_value_of_mem (hv : v ∈ vs) (hn : s.count f = some n) :
    (s.insert f b i isPhi vs).value v = some (n + vs.idxOf v, some i) := by
  refine (if_pos hv).trans ?_
  rw [hn, Option.map_some]

theorem insert_count_self (hn : s.count f = some n) :
    (s.insert f b i isPhi vs).count f = some (n + vs.length) := by
  refine (if_pos rfl).trans ?_
  rw [hn, Option.map_some]

theorem insert_count_of_ne (hg : g ≠ f) : (s.insert f b i isPhi vs).count g = s.count g :=
  if_neg hg

theorem insert_count_le {m : Int} (hm : s.count g = some m) :
    ∃ m', (s.insert f b i isPhi vs).count g = some m' ∧ m ≤ m' := by
  by_cases hg : g = f
  · subst hg
    exact ⟨_, insert_count_self hm, by omega⟩
  · exact ⟨m, (insert_count_of_ne hg).trans hm, le_rfl⟩

/-- A value is one of the new ones, or was there before. -/
theorem insert_value_cases {d : Option InstrId}
    (hn : s.count f = some n) (hv : (s.insert f b i isPhi vs).value v = some (k, d)) :
    v ∈ vs ∧ k = n + vs.idxOf v ∧ d = some i ∨ v ∉ vs ∧ s.value v = some (k, d) := by
  by_cases hmem : v ∈ vs
  · rw [insert_value_of_mem hmem hn, Option.some.injEq, Prod.mk.injEq] at hv
    exact .inl ⟨hmem, hv.1.symm, hv.2.symm⟩
  · rw [insert_value_of_notMem hmem] at hv
    exact .inr ⟨hmem, hv⟩

theorem Holds.of_insert (h : (s.insert f b i isPhi vs).Holds g j) (hj : j ≠ i) : s.Holds g j :=
  h.mono (fun _ hrole => (insert_instr_of_ne hj).symm.trans hrole) fun _ _ hp => hp

/-- A new instruction gives its values the next numbers. -/
theorem Numbered.insert (h : s.Numbered) (hi : s.instr i = none) (hvs : ∀ v ∈ vs, s.value v = none)
    (hnodup : vs.Nodup) (hn : s.count f = some n) (hpos : 0 ≤ n) {o : Owner}
    (hb : s.parent (.block b) = some (some o)) (ho : s.Within f o) :
    (s.insert f b i isPhi vs).Numbered := by
  have hne {j : InstrId} {role : Role} (hrole : s.instr j = some role) : j ≠ i := by
    rintro rfl
    cases hi.symm.trans hrole
  have hholds {g : FunctionId} {j : InstrId} (hj : s.Holds g j) :
      (s.insert f b i isPhi vs).Holds g j :=
    hj.mono (fun _ hrole => (insert_instr_of_ne (hne hrole)).trans hrole) fun _ _ hp => hp
  have hself : (s.insert f b i isPhi vs).Holds f i :=
    ⟨_, b, o, insert_instr_self, rfl, hb, ho.mono fun _ _ hp => hp⟩
  have hold {v : ValueId} {k : Int} {j : InstrId} (hv : s.value v = some (k, some j)) : j ≠ i := by
    obtain ⟨_, _, ⟨_, _, _, hrole, -⟩, -⟩ := h.exists_holds hv
    exact hne hrole
  -- A value that was there has a smaller number than the new ones, if it is one of the function.
  have hsmall {v : ValueId} {k : Int} {j : InstrId} (hv : s.value v = some (k, some j))
      (hj : (s.insert f b i isPhi vs).Holds f j) : k < n := by
    obtain ⟨g, m, hg, hm, -, hk⟩ := h.exists_holds hv
    obtain rfl := (hj.of_insert (hold hv)).function_eq hg
    cases hn.symm.trans hm
    exact hk
  refine ⟨fun g e hg => ?_, fun v k d hv => ?_, fun j v hd => ?_, fun j role hrole => ?_,
    fun g v w k j₁ j₂ hv hw hj₁ hj₂ => ?_⟩
  · obtain ⟨m, hm, hm0⟩ := h.counted g e hg
    obtain ⟨m', hm', hle⟩ := insert_count_le hm
    exact ⟨m', hm', hm0.trans hle⟩
  · rcases insert_value_cases hn hv with ⟨hmem, rfl, rfl⟩ | ⟨-, hv⟩
    · have hlt : vs.idxOf v < vs.length := List.idxOf_lt_length_of_mem hmem
      exact ⟨i, f, _, rfl, ⟨_, insert_instr_self, List.mem_map_of_mem hmem⟩, hself,
        insert_count_self hn, by omega, by omega⟩
    · obtain ⟨j, g, m, rfl, ⟨role, hrole, hdef⟩, hj, hm, hk0, hk⟩ := h.defined v k d hv
      obtain ⟨m', hm', hle⟩ : ∃ m', (s.insert f b i isPhi vs).count g = some m' ∧ m ≤ m' :=
        insert_count_le hm
      exact ⟨j, g, m', rfl, ⟨role, (insert_instr_of_ne (hne hrole)).trans hrole, hdef⟩, hholds hj, hm',
        hk0, hk.trans_le hle⟩
  · obtain ⟨role, hrole, hdef⟩ := hd
    by_cases hj : j = i
    · subst hj
      cases insert_instr_self.symm.trans hrole
      exact ⟨_, insert_value_of_mem (by simpa using hdef) hn⟩
    · rw [insert_instr_of_ne hj] at hrole
      obtain ⟨k, hk⟩ := h.points j v ⟨role, hrole, hdef⟩
      refine ⟨k, (insert_value_of_notMem fun hmem => ?_).trans hk⟩
      rw [hvs v hmem] at hk
      cases hk
  · by_cases hj : j = i
    · subst hj
      cases insert_instr_self.symm.trans hrole
      exact ⟨by simp, hnodup.map (Option.some_injective _)⟩
    · rw [insert_instr_of_ne hj] at hrole
      exact h.once j role hrole
  · rcases insert_value_cases hn hv with ⟨hmem, hk, hd⟩ | ⟨-, hv⟩ <;>
      rcases insert_value_cases hn hw with ⟨hmem', hk', hd'⟩ | ⟨-, hw⟩
    · exact (List.idxOf_inj hmem).mp (by omega)
    · cases hd
      obtain rfl := hself.function_eq hj₁
      have := hsmall hw hj₂
      omega
    · cases hd'
      obtain rfl := hself.function_eq hj₂
      have := hsmall hv hj₁
      omega
    · exact h.distinct g v w k j₁ j₂ hv hw (hj₁.of_insert (hold hv)) (hj₂.of_insert (hold hw))

/-! ### Everything together -/

variable {cs : FunctionId → Option Cursor} {c : Cursor} {a : Arena}

/-- What holds while functions are built. -/
structure Coherent (s : Skeleton) (cs : FunctionId → Option Cursor) : Prop where
  nested : s.Nested cs
  filled : s.Filled
  numbered : s.Numbered

theorem Coherent.ready (h : s.Coherent cs) (c : Cursor) : s.Ready c := by
  rintro b ⟨l, hl, hlast⟩
  exact ⟨_, h.nested.lists.parent _ l hl _ (List.mem_of_getLast? hlast)⟩

/-- A builder does not have to move. -/
theorem Coherent.stays (h : s.Coherent cs) (hc : cs c.function = some c) :
    s.Coherent (Function.update cs c.function (some c)) := by
  rwa [← hc, Function.update_eq_self]

theorem Coherent.inserted (h : s.Coherent cs) (hc : cs f = some c) (hi : s.Inserted c a) :
    a.skeleton.Coherent cs := by
  obtain ⟨b, i, isPhi, vs, ⟨l, hl, hlast⟩, hi, hvs, hnodup, ha⟩ := hi
  have hp := h.nested.points f c hc
  have hb : .block b ∈ l := List.mem_of_getLast? hlast
  obtain ⟨body, hbody⟩ := hp.chain.exists_body ⟨l, hl⟩
  obtain ⟨finish, hfinish⟩ := h.nested.lists.owner _ body hbody
  obtain ⟨n, hn, hpos⟩ := h.numbered.counted f finish hfinish
  rw [ha, hp.function]
  exact ⟨h.nested.congr rfl rfl rfl, h.filled.insert hi ⟨_, l, hl, hb⟩,
    h.numbered.insert hi hvs hnodup hn hpos (h.nested.lists.parent _ l hl _ hb)
      (hp.chain.within h.nested.lists).1⟩

/-- A list that grows changes nothing about blocks and values. -/
theorem Coherent.grows {cs' : FunctionId → Option Cursor} (h : s.Coherent cs) {r : ListRef}
    {x : Item} (hg : s.Grows r x t) (hnested : t.Nested cs') : t.Coherent cs' where
  nested := hnested
  filled := h.filled.congr hg.instr hg.body fun _ _ hl _ hitem => hg.mem_items hl hitem
  numbered := h.numbered.congr hg.value hg.instr (fun _ _ hn => hg.count ▸ hn)
    (hg.count ▸ hg.finish ▸ h.numbered.counted) hg.keeps

theorem Coherent.opens (h : s.Coherent cs) (hc : cs f = some c)
    (ho : c.Opens s c' a) : a.skeleton.Coherent (Function.update cs f (some c')) := by
  obtain ⟨n, r, b, hn, hg, rfl, hfull, hr, hstart⟩ := ho
  exact h.grows hg (h.nested.opens hc hn hg hfull hr hstart)

theorem Coherent.closes (h : s.Coherent cs) (hc : cs f = some c)
    (ho : c.Closes s c' a) : a.skeleton.Coherent (Function.update cs f (some c')) := by
  obtain ⟨fr, frames, b, hframes, rfl, hg⟩ := ho
  exact h.grows hg (h.nested.closes hc hframes hg)

theorem Coherent.switches (h : s.Coherent cs) (hc : cs f = some c) {fr : Frame}
    {frames : List Frame} (hframes : c.frames = fr :: frames) {l : List Item}
    (hl : s.items (.no fr.construct) = some l) :
    s.Coherent (Function.update cs f (some { c with list := .no fr.construct })) :=
  ⟨h.nested.switches hc hframes hl, h.filled, h.numbered⟩

theorem Coherent.founds (h : s.Coherent cs) {finish : BlockId} (hbody : s.items (.body f) = none)
    (hcount : s.count f = none) (hfinish : s.parent (.block finish) = none)
    (hb : s.parent (.block b) = none) :
    (s.founded f finish b).Coherent (Function.update cs f (some ⟨f, .body f, .function f, []⟩)) := by
  have hcounts {g : FunctionId} {n : Int} (hn : s.count g = some n) :
      (s.founded f finish b).count g = some n := by
    rw [← hn]
    exact Function.update_of_ne (by rintro rfl; simp [hcount] at hn) _ _
  refine ⟨h.nested.founds hbody hfinish hb,
    h.filled.congr rfl rfl fun r l hl item hitem => ⟨l, founded_items hbody hl, hitem⟩,
    h.numbered.congr rfl rfl (fun g n hn => hcounts hn) (founded_finish_cases ?_ fun g b' hb' => ?_)
      (founded_keeps hfinish hb)⟩
  · exact ⟨0, Function.update_self _ _ _, le_rfl⟩
  · obtain ⟨n, hn, hpos⟩ := h.numbered.counted g b' hb'
    exact ⟨n, hcounts hn, hpos⟩

end Skeleton

end ShaderCompiler
