import ShaderCompiler.Proofs.Exact.Lists
import ShaderCompiler.Proofs.Steps

/-!
# Runs that keep use-lists exact

A run of a change ends well or with a fault, and in both cases it leaves an arena. It is sound if
this arena is tidy again, if uses have drifted as the kind of the change allows, and if the fault is
not that of a corrupt use-list. Sound runs are closed under everything that changes are put together
with.
-/

namespace ShaderCompiler

variable {e : Fault}

namespace Edit

open Arena

variable {α β γ : Type} {a a' : Arena} {kind : Change} {n : Nat}

/-- The arena that a run leaves. -/
def after (x : Edit α) (a : Arena) : Arena :=
  match x a with
  | .ok _ a' => a'
  | .error _ a' => a'

/-- A run leaves a tidy arena, makes changes of a kind only, and finds no corrupt use-list. -/
structure Runs (kind : Change) (x : Edit α) (a : Arena) : Prop where
  tidy : (x.after a).Tidy
  drift : a.Drift kind (x.after a)
  clean : ∀ text a', x a ≠ .error (.corruptUseList text) a'

theorem after_of_ok {x : Edit α} {y : α} (h : x a = .ok y a') : x.after a = a' := by
  rw [after, h]

theorem after_of_error {x : Edit α} (h : x a = .error e a') : x.after a = a' := by
  rw [after, h]

/-- A computation whose first part stops, stops there. -/
theorem bind_of_error {x : Edit α} {k : α → Edit β} (h : x a = .error e a') :
    (x >>= k) a = .error e a' := by
  change EStateM.bind x k a = _
  rw [EStateM.bind, h]

namespace Runs

theorem of_ok {x : Edit α} {y : α} (h : x a = .ok y a') (htidy : a'.Tidy)
    (hdrift : a.Drift kind a') : x.Runs kind a :=
  ⟨after_of_ok h ▸ htidy, after_of_ok h ▸ hdrift, fun _ _ he => by cases h.symm.trans he⟩

theorem of_error {x : Edit α} (h : x a = .error e a') (htidy : a'.Tidy)
    (hdrift : a.Drift kind a') (he : ∀ text, e ≠ .corruptUseList text) : x.Runs kind a :=
  ⟨after_of_error h ▸ htidy, after_of_error h ▸ hdrift,
    fun text _ h' => by cases h.symm.trans h'; exact he text rfl⟩

/-- A run that stops because a reference is missing. -/
theorem of_absent {x : Edit α} (h : x a = .error .absent a') (htidy : a'.Tidy)
    (hdrift : a.Drift kind a') : x.Runs kind a :=
  of_error h htidy hdrift (by simp)

theorem congr {x y : Edit α} (h : x a = y a) (hy : y.Runs kind a) : x.Runs kind a := by
  have hafter : x.after a = y.after a := by rw [after, after, h]
  exact ⟨hafter ▸ hy.tidy, hafter ▸ hy.drift, h ▸ hy.clean⟩

/-- A run that goes on in the arena that its first part leaves. -/
theorem bind {x : Edit α} {k : α → Edit β} (hx : x.Runs kind a)
    (hk : ∀ y a', x a = .ok y a' → a'.Tidy → a.Drift kind a' → (k y).Runs kind a') :
    (x >>= k).Runs kind a := by
  cases h : x a with
  | ok y a' =>
    have htidy := hx.tidy
    have hdrift := hx.drift
    rw [after_of_ok h] at htidy hdrift
    obtain ⟨htidy', hdrift', hclean⟩ := hk y a' h htidy hdrift
    have hbind : (x >>= k) a = k y a' := bind_of_ok h
    have hafter : (x >>= k).after a = (k y).after a' := by rw [after, hbind, after]
    exact ⟨hafter ▸ htidy', hafter ▸ hdrift.trans hdrift', fun text a₂ he =>
      hclean text a₂ (hbind ▸ he)⟩
  | error e a' =>
    refine of_error (bind_of_error h) (after_of_error h ▸ hx.tidy) (after_of_error h ▸ hx.drift) ?_
    exact fun text he => hx.clean text a' (he ▸ h)

end Runs

/-- All runs from tidy arenas with at least `n` values are sound. -/
def Keeps (kind : Change) (n : Nat) (x : Edit α) : Prop :=
  ∀ a : Arena, a.Tidy → n ≤ a.values.size → x.Runs kind a

theorem Keeps.bind {x : Edit α} {k : α → Edit β} (hx : x.Keeps kind n)
    (hk : ∀ y, (k y).Keeps kind n) : (x >>= k).Keeps kind n :=
  fun a ha hn => (hx a ha hn).bind fun y a' _ ha' hdrift => hk y a' ha' (hn.trans hdrift.size)

theorem Keeps.mono {x : Edit α} {m : Nat} (hx : x.Keeps kind m) (hm : m ≤ n) : x.Keeps kind n :=
  fun a ha hn => hx a ha (hm.trans hn)

/-! ### Steps that use-lists do not see -/

theorem keeps_of_sameTies {x : Edit α} (h : ∀ a, ∃ y a', x a = .ok y a' ∧ a.SameTies a') :
    x.Keeps kind n := by
  intro a ha _
  obtain ⟨y, a', hrun, hties⟩ := h a
  exact .of_ok hrun (hties.tidy ha) (.of_sameTies hties)

theorem keeps_pure (y : α) : (pure y : Edit α).Keeps kind n :=
  keeps_of_sameTies fun a => ⟨y, a, rfl, rfl, rfl⟩

theorem keeps_throw (he : ∀ text, e ≠ .corruptUseList text) :
    (throw e : Edit α).Keeps kind n :=
  fun _ ha _ => .of_error rfl ha (.of_sameTies ⟨rfl, rfl⟩) he

theorem keeps_walk {view : Arena → Except Fault α} (h : ∀ a, Walks (view a)) :
    (look view).Keeps kind n := by
  intro a ha _
  have hties : a.SameTies a := ⟨rfl, rfl⟩
  cases hview : view a with
  | ok y => exact .of_ok (by rw [look, hview]) ha (.of_sameTies hties)
  | error e =>
    refine .of_error (by rw [look, hview]) ha (.of_sameTies hties) fun text => ?_
    rcases h a e hview with rfl | hclean
    · simp
    · exact Fault.ne_of_isClean hclean text

theorem keeps_look {view : Arena → Except Fault α} (h : ∀ a, Clean (view a)) :
    (look view).Keeps kind n :=
  keeps_walk fun a => (h a).walks

theorem keeps_liftM {x : Except Fault α} (h : Clean x) : (liftM x : Edit α).Keeps kind n := by
  intro a ha _
  have hties : a.SameTies a := ⟨rfl, rfl⟩
  cases x with
  | ok y => exact .of_ok rfl ha (.of_sameTies hties)
  | error e => exact .of_error rfl ha (.of_sameTies hties) (Fault.ne_of_isClean (h e rfl))

theorem keeps_looks : HoldsOfLooks fun _ x => x.Keeps kind n where
  pure := keeps_pure
  bind := Keeps.bind
  throw he := keeps_throw (Fault.ne_of_isClean he)
  look := keeps_look
  lift := keeps_liftM
  endless _ := keeps_throw (by simp)
  walk := keeps_walk

theorem keeps_present (x : Option α) : (liftM (present x) : Edit α).Keeps kind n :=
  keeps_looks.present x

theorem keeps_ite {c : Prop} [Decidable c] {x y : Edit α} (hx : x.Keeps kind n)
    (hy : y.Keeps kind n) : (if c then x else y).Keeps kind n :=
  holds_ite (m := Edit) (J := fun _ x => x.Keeps kind n) hx hy

theorem keeps_setUse (u : UseId) {f : Use → Use} (hf : ∀ use, (f use).tie = use.tie) :
    (setUse u f).Keeps kind n :=
  keeps_of_sameTies fun a => ⟨(), _, rfl, .modifyUse hf a u⟩

theorem keeps_setInstr (i : InstrId) (f : Instr → Instr) : (setInstr i f).Keeps kind n :=
  keeps_of_sameTies fun _ => ⟨(), _, rfl, rfl, rfl⟩

theorem keeps_setBlock (b : BlockId) (f : Block → Block) : (setBlock b f).Keeps kind n :=
  keeps_of_sameTies fun _ => ⟨(), _, rfl, rfl, rfl⟩

theorem keeps_setConstruct (c : ConstructId) (f : Construct → Construct) :
    (setConstruct c f).Keeps kind n :=
  keeps_of_sameTies fun _ => ⟨(), _, rfl, rfl, rfl⟩

theorem keeps_setFunction (f : FunctionId) (g : Function → Function) :
    (setFunction f g).Keeps kind n :=
  keeps_of_sameTies fun _ => ⟨(), _, rfl, rfl, rfl⟩

theorem keeps_count (f : Counters → Counters) : (count f).Keeps kind n :=
  keeps_of_sameTies fun _ => ⟨(), _, rfl, rfl, rfl⟩

theorem keeps_addInstr (x : Instr) : (addInstr x).Keeps kind n :=
  keeps_of_sameTies fun _ => ⟨_, _, rfl, rfl, rfl⟩

theorem keeps_addBlock (x : Block) : (addBlock x).Keeps kind n :=
  keeps_of_sameTies fun _ => ⟨_, _, rfl, rfl, rfl⟩

theorem keeps_addConstruct (x : Construct) : (addConstruct x).Keeps kind n :=
  keeps_of_sameTies fun _ => ⟨_, _, rfl, rfl, rfl⟩

theorem keeps_addFunction (x : Function) : (addFunction x).Keeps kind n :=
  keeps_of_sameTies fun _ => ⟨_, _, rfl, rfl, rfl⟩

theorem keeps_addValue {x : Value} (hx : ∀ c, x.usesOf c = []) : (addValue x).Keeps kind n :=
  fun a ha _ => .of_ok rfl (ha.pushValue hx) (.pushValue a x)

/-! ### Use-lists -/

/-- A new use is entered into the list of a value that is there. -/
theorem keeps_enter {v : ValueId} (hv : v.idx < n) (user : Option InstrId)
    (guards : Option ConstructId) {k : UseId → Edit β} (hk : ∀ u, (k u).Keeps .building n) :
    (addUse (Use.fresh v user guards) >>= fun u => link v u >>= fun _ => k u).Keeps
      .building n := by
  intro a ha hn
  obtain ⟨a', hlink, htidy, hdrift⟩ := ha.enter (there_iff.mpr (hv.trans_le hn)) user guards
  have hrun : (addUse (Use.fresh v user guards) >>= fun u => link v u >>= fun _ => pure u) a
      = .ok ⟨a.uses.size⟩ a' := bind_eq_ok.mpr ⟨_, _, rfl, bind_eq_ok.mpr ⟨_, _, hlink, rfl⟩⟩
  have hruns := Runs.of_ok hrun htidy hdrift
  simpa only [bind_assoc, pure_bind] using
    hruns.bind fun u a₁ _ ha₁ hdrift₁ => hk u a₁ ha₁ (hn.trans hdrift₁.size)

/-- A new use of a value that is there. -/
theorem keeps_newUse (i : InstrId) {v : Option ValueId} (hv : ∀ w, v = some w → w.idx < n) :
    (newUse i v).Keeps .building n :=
  keeps_looks.present_bind fun w hw => keeps_enter (hv w hw) (some i) none fun u => keeps_pure u

theorem look_use_of_none {u : UseId} (h : a.uses[u.idx]? = none) :
    look (·.use u) a = .error .absent a := by
  simp [look, Arena.use, h, present]

theorem look_use_of_some {u : UseId} {use : Use} (h : a.uses[u.idx]? = some use) :
    look (·.use u) a = .ok use a :=
  look_eq_ok.mpr ⟨use_eq_ok.mpr h, rfl⟩

theorem keeps_drop (u : UseId) : (drop u).Keeps .removing n := by
  intro a ha hn
  cases huse : a.uses[u.idx]? with
  | none =>
    exact .of_absent (bind_of_error (look_use_of_none huse)) ha (.of_sameTies ⟨rfl, rfl⟩)
  | some use =>
    obtain ⟨a', hrun, htidy, hdrift⟩ := ha.drop huse
    exact .of_ok hrun htidy hdrift

theorem keeps_dropSources (i : InstrId) : (dropSources i).Keeps .removing n := by
  refine (keeps_look fun a => a.clean_instr i).bind fun ins => ?_
  exact keeps_looks.forM fun u _ => (keeps_present u).bind fun u => keeps_drop u

theorem keeps_removeInstr (b : BlockId) (i : InstrId) : (removeInstr b i).Keeps .removing n := by
  refine (keeps_look fun a => a.clean_block b).bind fun bb => keeps_ite ?_ ?_
  · exact (keeps_dropSources i).bind fun _ => (keeps_setBlock b _).bind fun _ =>
      keeps_setInstr i _
  · exact (keeps_look fun a => a.clean_instrText i).bind fun _ => keeps_throw nofun

/-! ### Turning uses -/

variable {u : UseId} {v : Option ValueId}

/-- A use that reads a value without a place in its list cannot be turned. -/
theorem repoint_of_dropped (h : a.Dropped u) : ∃ e, repoint u v a = .error e a := by
  obtain ⟨⟨use, old, huse, hval⟩, hnot⟩ := h
  have hslot : use.slot = none := by
    rw [← Option.not_isSome_iff_eq_none]
    exact fun hslot => hnot ⟨use, huse, hslot⟩
  have hunlink : ∃ e, unlink old u a = .error e a := by
    rw [unlink, bind_of_ok (look_use_of_some huse)]
    cases hold : a.value old with
    | error e => exact ⟨e, bind_of_error (by rw [look, hold])⟩
    | ok x =>
      rw [bind_of_ok (look_eq_ok.mpr ⟨hold, rfl⟩)]
      simp only [hslot]
      cases htext : a.useText u with
      | error e => exact ⟨e, bind_of_error (by rw [look, htext])⟩
      | ok text => exact ⟨_, bind_of_ok (look_eq_ok.mpr ⟨htext, rfl⟩)⟩
  obtain ⟨e, he⟩ := hunlink
  refine ⟨e, ?_⟩
  rw [repoint, bind_of_ok (look_use_of_some huse)]
  simp only [hval]
  exact bind_of_error he

/-- A use with a place turns to a value, or loses the one it has. -/
theorem runs_repoint_of_attached {kind : Change} (hkind : kind ≠ .turning) (ha : a.Tidy)
    (hu : a.Attached u) (hv : ∀ w, v = some w → a.There w) : (repoint u v).Runs kind a := by
  cases v with
  | none =>
    obtain ⟨use, huse, hslot⟩ := hu
    obtain ⟨use', old, huse', hval⟩ := ha.names ⟨use, huse, hslot⟩
    cases huse.symm.trans huse'
    obtain ⟨a₁, hunlink, htidy, hdrift⟩ := ha.detach huse hval hslot hkind
    refine .of_absent ?_ htidy hdrift
    rw [repoint, bind_of_ok (look_use_of_some huse)]
    simp only [hval]
    rw [bind_of_ok hunlink]
    rfl
  | some w =>
    obtain ⟨a', hrun, htidy, hdrift⟩ := ha.turn hu (hv w rfl)
    exact .of_ok hrun htidy hdrift.of_turning

/-- Every use that was not dropped turns to a value, or loses the one it has. -/
theorem runs_repoint (ha : a.Tidy) (hu : ¬ a.Dropped u) (hv : ∀ w, v = some w → a.There w) :
    (repoint u v).Runs .building a := by
  by_cases hatt : a.Attached u
  · exact runs_repoint_of_attached (by simp) ha hatt hv
  cases huse : a.uses[u.idx]? with
  | none =>
    exact .of_absent (bind_of_error (look_use_of_none huse)) ha (.of_sameTies ⟨rfl, rfl⟩)
  | some use =>
    -- The use has no place and was not dropped, so it reads no value.
    have hslot : use.slot = none := by
      rw [← Option.not_isSome_iff_eq_none]
      exact fun hslot => hatt ⟨use, huse, hslot⟩
    have hval : use.value = none :=
      Option.eq_none_iff_forall_ne_some.mpr fun w hw => hu ⟨⟨use, w, huse, hw⟩, hatt⟩
    have hrest : repoint u v a = (do link (← present v) u : Edit Unit)
        (a.modifyUse u fun use => { use with value := v }) := by
      rw [repoint, bind_of_ok (look_use_of_some huse)]
      simp only [hval]
      rfl
    cases v with
    | none =>
      rw [modifyUse_of_eq huse (by rw [← hval])] at hrest
      exact .of_absent hrest ha (.of_sameTies ⟨rfl, rfl⟩)
    | some w =>
      obtain ⟨a', hlink, htidy, hsize, hatt, hnames⟩ := ha.relink huse hslot (hv w rfl)
      refine .of_ok (hrest.trans hlink) htidy (.of_building hsize.ge fun t ht => ?_)
      rw [Dropped, hatt, hnames, not_or] at ht
      exact ⟨ht.1.resolve_right ht.2.2, ht.2.1⟩

end Edit

end ShaderCompiler
