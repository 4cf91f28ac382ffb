import ShaderCompiler.Proofs.Accepted
import ShaderCompiler.Proofs.Forwarding.Fold

/-!
# Steps of forwarding

Forwarding turns uses of copies and takes out copies that nobody reads any more. Each such step
is made in a sound arena: references lead somewhere, instructions are at home, and use-lists
agree with the uses. It leaves a sound arena.

A pair of a copy and a use of it is pending until the use is found to be stuck. Turning a use
can bring pairs back only for two copies, the one that defines the value it now reads and the
one that reads it.
-/

namespace ShaderCompiler

variable {T S : Scope} {more : List InstrId}

namespace Arena

variable {a a' : Arena} {Ts : List Scope} {U : UseId → Prop} {i : InstrId} {b : BlockId} {p : Alu}
  {d v : ValueId} {u : UseId}

/-- The instruction was taken out, or it stands in a block of the scope. -/
def Resident (a : Arena) (T : Scope) (i : InstrId) : Prop :=
  ∃ ins, a.instrs[i.idx]? = some ins ∧ ∀ b, ins.block = some b → b ∈ T.blocks ∧ i ∈ a.body b

/-- What every step of a run finds and leaves: scopes are wired and at home, their use-lists
agree with the uses `U`, which belong to the scopes, and all that is read there is listed. -/
structure Sound (a : Arena) (Ts : List Scope) (U : UseId → Prop) : Prop where
  wired : ∀ T ∈ Ts, a.Wired T
  homed : ∀ T ∈ Ts, a.Homed T
  lists : a.UseLists (DefinedBy Ts) U
  reads : ∀ T ∈ Ts, ∀ u, a.Reads T u → U u ∧ a.Attached u
  user : ∀ u, U u → ∀ use, a.uses[u.idx]? = some use →
    (use.guards.isSome = true → use.user = none)
      ∧ ∀ i, use.user = some i → ∃ T ∈ Ts, a.Resident T i

/-- A copy that stands in a block of one of the scopes, with its destination. -/
def StandsAs (a : Arena) (Ts : List Scope) (i : InstrId) (b : BlockId) (p : Alu) (d : ValueId) :
    Prop :=
  ∃ T ∈ Ts, b ∈ T.blocks ∧ i ∈ a.body b ∧ ∃ ins, a.instrs[i.idx]? = some ins
    ∧ ins.block = some b ∧ ins.action = .alu p ∧ p.dest = some d ∧ a.isCopy p = .ok true

/-- Whether a use of one sort may look through a copy. -/
def turnable (a : Arena) (p : Alu) (asCondition : Bool) (u : UseId) : Except Fault Bool :=
  if asCondition then a.isExactCopy p else a.mayTurn p u

/-- A step of a run. The arena before it is sound. -/
inductive ForwardStep (Ts : List Scope) (U : UseId → Prop) (a a' : Arena) : Prop
  /-- A use of a copy is turned to a value that the copy reads. -/
  | turn {i : InstrId} {b : BlockId} {p : Alu} {d v : ValueId} {u : UseId} {use : Use}
      {z : Swizzle} (hs : a.Sound Ts U) (hi : a.StandsAs Ts i b p d)
      (huse : a.uses[u.idx]? = some use) (hval : use.value = some d) (hf : a.Folds p u v z)
      (ho : a.Offers p v) (ht : Turned a a' u v z) (hu : U u)
  /-- A copy that nobody reads is taken out. -/
  | take {i : InstrId} {b : BlockId} {p : Alu} {d : ValueId} {x : Value} (hs : a.Sound Ts U)
      (hi : a.StandsAs Ts i b p d) (hx : a.values[d.idx]? = some x) (hfree : x.isUnused = true)
      (hcode : a'.code = (a.without b i).code)
  /-- The code stays the same. -/
  | same (hcode : a'.code = a.code)

/-- The steps of a run. -/
abbrev Forwards (Ts : List Scope) (U : UseId → Prop) : Arena → Arena → Prop :=
  Relation.ReflTransGen (ForwardStep Ts U)

/-- What is the same after turning a use and after taking out an instruction is the same after a
run. -/
theorem Forwards.conserves {β : Type} {q : Arena → β} (h : Forwards Ts U a a')
    (hturn : ∀ {x y u v z}, Turned x y u v z → U u → q y.code = q x.code)
    (htake : ∀ x b i, q (without x b i).code = q x.code) : q a'.code = q a.code := by
  induction h with
  | refl => rfl
  | tail _ hstep ih =>
    refine Eq.trans ?_ ih
    cases hstep with
    | turn _ _ _ _ _ _ ht hu => exact hturn ht hu
    | take _ _ _ _ hcode => rw [hcode, htake]
    | same hcode => rw [hcode]

/-- All uses of copies are stuck, apart from pending ones. -/
def Pending (a : Arena) (Ts : List Scope) (P : BlockId → InstrId → Bool → UseId → Prop) : Prop :=
  ∀ i b p d x, a.StandsAs Ts i b p d → a.values[d.idx]? = some x →
    ∀ c, ∀ u ∈ x.usesOf c, a.turnable p c u = .ok false ∨ P b i c u

/-- All uses of copies are stuck. -/
def Settled (a : Arena) (Ts : List Scope) : Prop :=
  a.Pending Ts fun _ _ _ _ => False

theorem Pending.mono {P Q : BlockId → InstrId → Bool → UseId → Prop} (h : a.Pending Ts P)
    (hPQ : ∀ i b p d, a.StandsAs Ts i b p d → ∀ c u, P b i c u → Q b i c u) :
    a.Pending Ts Q := by
  intro i b p d x hi hx c u hu
  exact (h i b p d x hi hx c u hu).imp id (hPQ i b p d hi c u)

/-- Functions that pass the check are sound if their use-lists hold only uses of their own that
read the value. -/
theorem sound_of_accepted (fs : List FunctionId) (hacc : ∀ f ∈ fs, a.Accepted f)
    (hlists : a.ListsRead (fs.map a.scopeOf)) (hown : a.ListsOwn (fs.map a.scopeOf)) :
    a.Sound (fs.map a.scopeOf) (a.InUse (fs.map a.scopeOf)) := by
  have hscope (T : Scope) (hT : T ∈ fs.map a.scopeOf) : a.Wired T ∧ a.Homed T := by
    obtain ⟨f, hf, rfl⟩ := List.mem_map.mp hT
    obtain ⟨_, _, _, _, _, hc⟩ := (hacc f hf).checked
    exact ⟨hc.wired, hc.homed⟩
  refine ⟨fun T hT => (hscope T hT).1, fun T hT => (hscope T hT).2, useLists_of_accepted hacc hlists,
    fun T hT u hu => ⟨.inl ⟨T, hT, hu⟩, ?_⟩, fun u hu use huse => ?_⟩
  · obtain ⟨f, hf, rfl⟩ := List.mem_map.mp hT
    obtain ⟨_, _, _, _, _, hc⟩ := (hacc f hf).checked
    obtain ⟨use, v, x, k, huse, -, -, -, hslot, -⟩ := hc.listed hu
    exact ⟨use, huse, by simp [hslot]⟩
  · obtain ⟨T, hT, hread⟩ : ∃ T ∈ fs.map a.scopeOf, a.Reads T u := by
      rcases hu with hread | ⟨v, x, c, hv, hx, hmem⟩
      · exact hread
      · exact hown v hv x hx c u hmem
    obtain ⟨hwired, hhomed⟩ := hscope T hT
    rcases hread with ⟨b, hb, i, hi, ins, hins, hmem⟩ | ⟨c, hc, con, yes, no, hcon, hshape⟩
    · obtain ⟨huser, hguards⟩ := hwired.reader_of_source hb hi hins hmem huse
      refine ⟨by simp [hguards], fun j hj => ⟨T, hT, ins, ?_, fun b' hb' => ?_⟩⟩
      · cases huser.symm.trans hj
        exact hins
      · cases huser.symm.trans hj
        rw [hhomed.place b hb i hi ins hins] at hb'
        cases hb'
        exact ⟨hb, hi⟩
    · obtain ⟨-, huser⟩ := hwired.reader_of_condition hc hcon hshape huse
      exact ⟨fun _ => huser, fun j hj => by simp [huser] at hj⟩

/-! ### Standing copies -/

namespace Sound

variable (h : a.Sound Ts U)

include h

theorem value (hv : DefinedBy Ts v) : ∃ x, a.values[v.idx]? = some x :=
  h.lists.value v hv

/-- The destination of a standing copy is a value of the scopes that points back. -/
theorem dest (hi : a.StandsAs Ts i b p d) :
    DefinedBy Ts d ∧ ∃ x, a.values[d.idx]? = some x ∧ x.definedBy = some i := by
  obtain ⟨T, hT, hb, hmem, ins, hins, -, hact, hdest, -⟩ := hi
  have hdef : some d ∈ ins.definitions := by simp [Instr.definitions, hact, hdest]
  obtain ⟨w, x, hw, hS, hx, hby⟩ := (h.wired T hT).definition b hb i hmem ins hins _ hdef
  cases hw
  exact ⟨⟨T, hT, hS⟩, x, hx, hby⟩

/-- What a source of a standing copy reads is a value of the same scope. -/
theorem source (hi : a.StandsAs Ts i b p d) (hu : some u ∈ p.srcs) :
    ∃ use w, a.uses[u.idx]? = some use ∧ use.value = some w ∧ DefinedBy Ts w
      ∧ use.user = some i := by
  obtain ⟨T, hT, hb, hmem, ins, hins, -, hact, -⟩ := hi
  obtain ⟨t, use, w, ht, huse, hval, hS, huser, -⟩ := (h.wired T hT).source b hb i hmem ins hins _
    (Instr.mem_sources_of_alu hact hu)
  cases ht
  exact ⟨use, w, huse, hval, ⟨T, hT, hS⟩, huser⟩

/-- A copy that is resident and not taken out stands in a block. -/
theorem standsAs_of_resident (hT : T ∈ Ts) (hres : a.Resident T i) {ins : Instr}
    (hins : a.instrs[i.idx]? = some ins) (hb : ins.block = some b) (hact : ins.alu? = some p)
    (hcopy : a.isCopy p = .ok true) : ∃ d, a.StandsAs Ts i b p d := by
  obtain ⟨ins', hins', hhome⟩ := hres
  cases hins.symm.trans hins'
  obtain ⟨hbT, hmem⟩ := hhome b hb
  have haction := Instr.alu?_eq_some.mp hact
  have hdef : p.dest ∈ ins.definitions := by simp [Instr.definitions, haction]
  obtain ⟨d, x, hd, -⟩ := (h.wired T hT).definition b hbT i hmem ins hins _ hdef
  exact ⟨d, T, hT, hbT, hmem, ins, hins, hb, haction, hd, hcopy⟩

/-- The entries of a use-list read the value and remember their places. -/
theorem entry (hv : DefinedBy Ts v) {x : Value} (hx : a.values[v.idx]? = some x) {c : Bool}
    (hu : u ∈ x.usesOf c) : U u ∧ a.Attached u ∧ ∃ use, a.uses[u.idx]? = some use
      ∧ use.value = some v ∧ use.guards.isSome = c := by
  obtain ⟨k, hk⟩ := List.mem_iff_getElem?.mp hu
  obtain ⟨use, huse, hslot, hval, hc⟩ := h.lists.entry v x hv hx c k u hk
  exact ⟨h.lists.member v x hv hx c u hu, ⟨use, huse, by simp [hslot]⟩, use, huse, hval, hc⟩

/-- A use that remembers a place is listed by the value it reads. -/
theorem listed (hu : U u) (hatt : a.Attached u) {use : Use} (huse : a.uses[u.idx]? = some use)
    (hval : use.value = some v) {x : Value} (hx : a.values[v.idx]? = some x) :
    u ∈ x.usesOf use.guards.isSome := by
  obtain ⟨use', w, y, huse', hval', -, hy, hslot⟩ := h.lists.slot u hu
  cases huse.symm.trans huse'
  cases hval.symm.trans hval'
  cases hx.symm.trans hy
  obtain ⟨use', huse', hsome⟩ := hatt
  cases huse.symm.trans huse'
  obtain ⟨k, hk⟩ := Option.isSome_iff_exists.mp hsome
  exact List.mem_of_getElem? (hslot k hk)

/-- Nobody reads a value that lists nobody. -/
theorem value_ne_of_isUnused (hT : T ∈ Ts) (hread : a.Reads T u) {use : Use}
    (huse : a.uses[u.idx]? = some use) (hval : use.value = some v) {x : Value}
    (hx : a.values[d.idx]? = some x) (hfree : x.isUnused = true) : v ≠ d := by
  rintro rfl
  obtain ⟨hU, hatt⟩ := h.reads T hT u hread
  have hmem := h.listed hU hatt huse hval hx
  simp only [Value.isUnused, Bool.and_eq_true, List.isEmpty_iff] at hfree
  cases hg : use.guards.isSome <;> simp [Value.usesOf, hg, hfree] at hmem

theorem nodup_usesOf (hv : DefinedBy Ts v) {x : Value} (hx : a.values[v.idx]? = some x)
    (c : Bool) : (x.usesOf c).Nodup :=
  h.lists.nodup_usesOf hv hx c

end Sound

/-! ### Turning a use -/

section Turn

variable {z : Swizzle} (ht : Turned a a' u v z)

include ht

theorem Turned.resident : a'.Resident T i ↔ a.Resident T i := by
  unfold Resident
  rw [body_of_blocks ht.blocks]
  constructor
  · rintro ⟨ins', hins', hhome⟩
    obtain ⟨n, l, hins⟩ := instr_of_instrs ht.instrs.symm hins'
    exact ⟨_, hins, hhome⟩
  · rintro ⟨ins, hins, hhome⟩
    obtain ⟨n, l, hins'⟩ := instr_of_instrs ht.instrs hins
    exact ⟨_, hins', hhome⟩

theorem Turned.standsAs : a'.StandsAs Ts i b p d ↔ a.StandsAs Ts i b p d := by
  unfold StandsAs
  rw [body_of_blocks ht.blocks, isCopy_turned ht]
  constructor
  · rintro ⟨T, hT, hb, hmem, ins', hins', hrest⟩
    obtain ⟨n, l, hins⟩ := instr_of_instrs ht.instrs.symm hins'
    exact ⟨T, hT, hb, hmem, _, hins, hrest⟩
  · rintro ⟨T, hT, hb, hmem, ins, hins, hrest⟩
    obtain ⟨n, l, hins'⟩ := instr_of_instrs ht.instrs hins
    exact ⟨T, hT, hb, hmem, _, hins', hrest⟩

theorem Turned.reads {t : UseId} : a'.Reads T t ↔ a.Reads T t :=
  reads_congr (body_of_blocks ht.blocks) ht.instrs ht.constructs

end Turn

theorem attached_reswizzled {z : Swizzle} {t : UseId} :
    (a.modifyUse u fun use => { use with swizzle := z }).Attached t ↔ a.Attached t := by
  unfold Attached
  rw [modifyUse_uses]
  split
  · cases a.uses[t.idx]? <;> simp
  · rfl

/-- What a standing copy reads is a value of the scopes. -/
theorem Sound.offered (h : a.Sound Ts U) (hi : a.StandsAs Ts i b p d) (ho : a.Offers p v) :
    DefinedBy Ts v := by
  obtain ⟨src, suse, hsrc, hsuse, hsval⟩ := ho
  obtain ⟨suse', w, hsuse', hsval', hw, -⟩ := h.source hi hsrc
  cases hsuse.symm.trans hsuse'
  cases hsval.symm.trans hsval'
  exact hw

/-- A scope that defines the destination of a copy also defines what the copy reads. -/
theorem Sound.defined_of_offers (h : a.Sound Ts U) (hi : a.StandsAs Ts i b p d) (ho : a.Offers p v)
    (hT : T ∈ Ts) (hd : T.defined d) : T.defined v := by
  obtain ⟨src, suse, hsrc, hsuse, hsval⟩ := ho
  obtain ⟨x, j, jns, hx, hby, hjns, -, hhome⟩ := (h.homed T hT).definer d hd
  obtain ⟨-, x', hx', hby'⟩ := h.dest hi
  cases hx.symm.trans hx'
  cases hby.symm.trans hby'
  obtain ⟨-, -, -, -, ins, hins, hblock, hact, -⟩ := hi
  cases hins.symm.trans hjns
  obtain ⟨hb, hmem⟩ := hhome b hblock
  obtain ⟨t, tuse, w, htt, htuse, htval, hw, -⟩ := (h.wired T hT).source b hb i hmem _ hins _
    (Instr.mem_sources_of_alu hact hsrc)
  cases htt
  cases hsuse.symm.trans htuse
  cases hsval.symm.trans htval
  exact hw

/-- A use can be turned to a value that a standing copy reads. -/
theorem Sound.exists_repoint (h : a.Sound Ts U) (hi : a.StandsAs Ts i b p d) (hu : U u)
    (hatt : a.Attached u) (ho : a.Offers p v) (z : Swizzle) : ∃ a',
      Edit.repoint u (some v) (a.modifyUse u fun use => { use with swizzle := z }) = .ok () a' := by
  obtain ⟨a', hrun, -⟩ := Edit.repoint_spec (h.lists.reswizzled z) hu
    (attached_reswizzled.mpr hatt) (h.offered hi ho)
  exact ⟨a', hrun⟩

/-- A use of a standing copy is turned to a value that the copy reads. -/
theorem Sound.turn (h : a.Sound Ts U) (hi : a.StandsAs Ts i b p d) (hu : U u)
    (hatt : a.Attached u) {use : Use} (huse : a.uses[u.idx]? = some use)
    (hval : use.value = some d) (ho : a.Offers p v) {z : Swizzle}
    (hrun : Edit.repoint u (some v) (a.modifyUse u fun use => { use with swizzle := z })
      = .ok () a') :
    Turned a a' u v z ∧ a'.Sound Ts U ∧ ∀ t, a'.Attached t ↔ a.Attached t := by
  have hv := h.offered hi ho
  obtain ⟨a₂, hrun₂, hlists, hcode, -, hatt'⟩ :=
    Edit.repoint_spec (h.lists.reswizzled z) hu (attached_reswizzled.mpr hatt) hv
  cases hrun.symm.trans hrun₂
  have hz : (a.modifyUse u fun use => { use with swizzle := z }).code
      = a.code.modifyUse u fun use => { use with swizzle := z } := code_modifyUse fun _ => rfl
  have ht : Turned a a' u v z := by
    unfold Turned
    rw [hcode, hz, modifyUse_modifyUse]
  refine ⟨ht, ⟨fun T hT => ?_, fun T hT => ?_, hlists, fun T hT t hread => ?_, fun t hU use' huse' =>
    ?_⟩, fun t => (hatt' t).trans attached_reswizzled⟩
  · refine (h.wired T hT).evolve (.turned ht fun use' w huse' hw hdef => ?_)
    cases huse.symm.trans huse'
    cases hval.symm.trans hw
    exact h.defined_of_offers hi ho hT hdef
  · exact (h.homed T hT).congr ht.values ht.instrs ht.blocks
  · obtain ⟨hU, hold⟩ := h.reads T hT t (ht.reads.mp hread)
    exact ⟨hU, (hatt' t).mpr (attached_reswizzled.mpr hold)⟩
  · have hold : ∃ use₀, a.uses[t.idx]? = some use₀ ∧ use₀.guards = use'.guards
        ∧ use₀.user = use'.user := by
      obtain ⟨use₀, huse₀⟩ : ∃ use₀, a.uses[t.idx]? = some use₀ := by
        obtain ⟨use₀, -, -, huse₀, -⟩ := h.lists.slot t hU
        exact ⟨use₀, huse₀⟩
      by_cases htu : t = u
      · subst htu
        obtain ⟨k, hk⟩ := ht.use_self huse₀
        cases huse'.symm.trans hk
        exact ⟨use₀, huse₀, rfl, rfl⟩
      · obtain ⟨k, hk⟩ := ht.use_other htu huse₀
        cases huse'.symm.trans hk
        exact ⟨use₀, huse₀, rfl, rfl⟩
    obtain ⟨use₀, huse₀, hguards, huser⟩ := hold
    obtain ⟨hcond, hres⟩ := h.user t hU use₀ huse₀
    rw [hguards, huser] at hcond
    refine ⟨hcond, fun j hj => ?_⟩
    obtain ⟨T, hT, hr⟩ := hres j (huser.trans hj)
    exact ⟨T, hT, ht.resident.mpr hr⟩

/-! ### Taking out instructions -/

section Moved

variable {instrs : Array Instr} {blocks : Array Block}

/-- Whether an operation is a copy does not depend on where instructions stand. -/
theorem isCopy_moved (a : Arena) (p : Alu) :
    ({ a with instrs := instrs, blocks := blocks } : Arena).isCopy p = a.isCopy p := by
  have hany (l : List (Option UseId)) :
      ({ a with instrs := instrs, blocks := blocks } : Arena).anyModified l = a.anyModified l := by
    induction l with
    | nil => rfl
    | cons s l ih =>
      simp only [anyModified, ih]
      rfl
  simp only [isCopy, hany]
  rfl

/-- Whether a use may look through a copy depends on the operation that reads it, but not on where
instructions stand. -/
theorem turnable_moved (a : Arena) (hpos : ∀ u,
      ({ a with instrs := instrs, blocks := blocks } : Arena).aluPosition u = a.aluPosition u)
    (p : Alu) (c : Bool) (u : UseId) :
    ({ a with instrs := instrs, blocks := blocks } : Arena).turnable p c u = a.turnable p c u := by
  have hselect (srcs : List (Option UseId)) (s : Swizzle) (source : Option ValueId)
      (l : List Nat) : ({ a with instrs := instrs, blocks := blocks } : Arena).selectsOneValue srcs s
        source l = a.selectsOneValue srcs s source l := by
    induction l with
    | nil => rfl
    | cons k l ih =>
      simp only [selectsOneValue, ih]
      rfl
  have hgather (srcs : List (Option UseId)) (source : ValueId) (l : List Nat) :
      ({ a with instrs := instrs, blocks := blocks } : Arena).gathersInOrder srcs source l
        = a.gathersInOrder srcs source l := by
    induction l with
    | nil => rfl
    | cons k l ih =>
      simp only [gathersInOrder, ih]
      rfl
  have hexact : ({ a with instrs := instrs, blocks := blocks } : Arena).isExactCopy p
      = a.isExactCopy p := by
    simp only [isExactCopy, hgather]
    rfl
  unfold turnable
  split
  · exact hexact
  · simp only [mayTurn, hpos, hselect, hexact]
    rfl

end Moved

@[simp] theorem turnable_code (a : Arena) (p : Alu) (c : Bool) (u : UseId) :
    a.code.turnable p c u = a.turnable p c u := by
  unfold turnable
  rw [isExactCopy_code, mayTurn_code]

namespace Loses

variable {gone : Finset InstrId} (h : Loses gone a a')

include h

theorem isCopy_eq (q : Alu) : a'.isCopy q = a.isCopy q := by
  rw [← isCopy_code, h.code, isCopy_code]
  exact isCopy_moved a q

theorem turnable_eq (q : Alu) (c : Bool) (t : UseId) : a'.turnable q c t = a.turnable q c t := by
  rw [← turnable_code, h.code, turnable_code]
  exact turnable_moved a (aluPosition_relisted a _ _) q c t

theorem resident (hi : a.Resident T i) : a'.Resident T i := by
  obtain ⟨ins, hins, hhome⟩ := hi
  obtain ⟨n, l, hins'⟩ := h.instr hins
  refine ⟨_, hins', fun b hb => ?_⟩
  split at hb
  case isTrue => cases hb
  case isFalse hi =>
    obtain ⟨hbT, hib⟩ := hhome b hb
    exact ⟨hbT, h.kept b i hib hi⟩

/-- What still stands has stood before. -/
theorem standsAs_before (hi : a'.StandsAs Ts i b p d) : a.StandsAs Ts i b p d := by
  obtain ⟨T, hT, hb, hmem, ins', hins', hblock, hact, hdest, hcopy⟩ := hi
  obtain ⟨ins, n, l, hins, rfl⟩ := h.exists_instr_before hins'
  rw [h.isCopy_eq] at hcopy
  split at hblock
  case isTrue => cases hblock
  case isFalse hi =>
    rw [if_neg hi] at hact
    exact ⟨T, hT, hb, (h.sublist b).subset hmem, ins, hins, hblock, hact, hdest, hcopy⟩

/-- All copies that are not gone still stand. -/
theorem standsAs (hi : a.StandsAs Ts i b p d) (hgone : i ∉ gone) : a'.StandsAs Ts i b p d := by
  obtain ⟨T, hT, hb, hmem, ins, hins, hrest⟩ := hi
  obtain ⟨n, l, hins'⟩ := h.instr_of_notMem hgone hins
  rw [← h.isCopy_eq] at hrest
  exact ⟨T, hT, hb, h.kept b i hmem hgone, _, hins', hrest⟩

end Loses

/-- Scopes stay sound when instructions are taken out and their sources are not listed any more. -/
theorem Sound.lose {gone : Finset InstrId} (hs : a.Sound Ts U) (h : Loses gone a a')
    (hleft : ∀ T ∈ Ts, ∀ b ∈ T.blocks, ∀ i ∈ a'.body b, i ∉ gone)
    (hgone : ∀ i ∈ gone, ∃ T, a.Wired T ∧ ∃ b ∈ T.blocks, i ∈ a.body b)
    (hlists : a'.UseLists (DefinedBy Ts) U) (hatt : ∀ u, a'.Attached u ↔ a.Attached u
      ∧ ∀ i ∈ gone, ∀ ins, a.instrs[i.idx]? = some ins → some u ∉ ins.sources) : a'.Sound Ts U where
  wired T hT := (hs.wired T hT).evolve h.evolves
  homed T hT := h.homed (hs.wired T hT) (hleft T hT) (hs.homed T hT)
  lists := hlists
  reads T hT u hu := by
    obtain ⟨hread, hnot⟩ := (h.reads_iff (hs.wired T hT) (hleft T hT) hgone).mp hu
    obtain ⟨hU, hold⟩ := hs.reads T hT u hread
    exact ⟨hU, (hatt u).mpr ⟨hold, hnot⟩⟩
  user u hu use' huse' := by
    obtain ⟨k, huse⟩ := use_of_uses h.uses.symm huse'
    obtain ⟨hguards, hres⟩ := hs.user u hu _ huse
    refine ⟨hguards, fun j hj => ?_⟩
    obtain ⟨T, hT, hj⟩ := hres j hj
    exact ⟨T, hT, h.resident hj⟩

/-- A standing copy is taken out. Its sources do not remember a place any more. -/
theorem Sound.take (h : a.Sound Ts U) (hi : a.StandsAs Ts i b p d) :
    ∃ a', Edit.removeInstr b i a = .ok () a' ∧ a'.code = (a.without b i).code ∧ a'.Sound Ts U
      ∧ (∀ t ins, a.instrs[i.idx]? = some ins → some t ∈ ins.sources → ¬ a'.Attached t)
      ∧ ∀ t, a'.Attached t → a.Attached t := by
  obtain ⟨T₀, hT₀, hb, hmem, ins, hins, hblock, hact, -⟩ := hi
  have hw := h.wired T₀ hT₀
  obtain ⟨bb, hbb⟩ := hw.block b hb
  have hsources : ∀ s ∈ ins.sources, ∃ u, s = some u ∧ U u := by
    intro s hs
    obtain ⟨u, use, w, rfl, -⟩ := hw.source b hb i hmem ins hins s hs
    exact ⟨u, rfl, (h.reads T₀ hT₀ u (.inl ⟨b, hb, i, hmem, ins, hins, hs⟩)).1⟩
  obtain ⟨a', hrun, hcode, -, hlists, hatt⟩ :=
    Edit.removeInstr_spec h.lists hbb (body_of_block hbb ▸ hmem) hins hsources
  have hloses := Loses.of_without hcode
  -- The copy stood once in its block and nowhere else.
  have hleft : ∀ T ∈ Ts, ∀ c ∈ T.blocks, ∀ j ∈ a'.body c, j ∉ ({i} : Finset InstrId) := by
    intro T hT c hc j hj hji
    obtain rfl := Finset.mem_singleton.mp hji
    have hjc := (hloses.sublist c).subset hj
    have hplace := (h.homed T hT).place c hc j hjc ins hins
    obtain rfl := Option.some.inj (hblock.symm.trans hplace)
    have hcount := (h.homed T hT).once b hc j hjc ins hins (by simp [Instr.definitions, hact])
    rw [body_of_code hcode, body_without, if_pos rfl, ← List.count_pos_iff, List.count_erase_self] at hj
    omega
  refine ⟨a', hrun, hcode, h.lose hloses hleft (fun j hj => ⟨T₀, hw, b, hb, ?_⟩) hlists
    (fun u => by simp [hatt, hins]), fun t ins' hins' ht hat => ?_, fun t ht => ((hatt t).mp ht).1⟩
  · rwa [Finset.mem_singleton.mp hj]
  · cases hins.symm.trans hins'
    exact ((hatt t).mp hat).2 ht

/-! ### The queue -/

/-- Queued instructions are copies that stand in the scopes or were taken out. -/
def QueueFits (a : Arena) (Ts : List Scope) (queue : List InstrId) : Prop :=
  ∀ i ∈ queue, (∃ T ∈ Ts, a.Resident T i)
    ∧ ∀ ins p, a.instrs[i.idx]? = some ins → ins.alu? = some p → a.isCopy p = .ok true

theorem copyAt_eq_ok {o : Option InstrId} {l : List InstrId} (h : a.copyAt o = .ok l) :
    (∀ j ∈ l, o = some j ∧ ∃ ins p, a.instrs[j.idx]? = some ins ∧ ins.alu? = some p
      ∧ a.isCopy p = .ok true)
      ∧ ∀ j ins p, o = some j → a.instrs[j.idx]? = some ins → ins.alu? = some p →
        a.isCopy p = .ok true → j ∈ l := by
  cases o with
  | none =>
    obtain rfl : [] = l := except_pure_eq_ok.mp h
    simp
  | some i =>
    simp only [copyAt, except_bind_eq_ok, instr_eq_ok] at h
    obtain ⟨ins, hins, h⟩ := h
    cases halu : ins.alu? with
    | none =>
      simp only [halu, except_pure_eq_ok] at h
      subst h
      refine ⟨by simp, fun j ins' p hj hins' halu' _ => ?_⟩
      cases hj
      cases hins.symm.trans hins'
      simp [halu] at halu'
    | some p =>
      simp only [halu, except_bind_eq_ok, except_pure_eq_ok] at h
      obtain ⟨r, hr, rfl⟩ := h
      cases r with
      | false =>
        refine ⟨by simp, fun j ins' p' hj hins' halu' hcopy => ?_⟩
        cases hj
        cases hins.symm.trans hins'
        cases halu.symm.trans halu'
        simp [hr] at hcopy
      | true =>
        refine ⟨fun j hj => ?_, fun j ins' p' hj _ _ _ => ?_⟩
        · obtain rfl := List.mem_singleton.mp hj
          exact ⟨rfl, ins, p, hins, halu, hr⟩
        · cases hj
          exact List.mem_singleton.mpr rfl

/-- The copies around a use: the one that defines what it reads, and the one that reads it. -/
theorem Sound.copiesAround (h : a.Sound Ts U) (hu : U u)
    (hrun : a.copiesAround u = .ok more) : a.QueueFits Ts more
      ∧ ∀ i b p d use, a.StandsAs Ts i b p d → a.uses[u.idx]? = some use →
        (use.value = some d ∨ use.user = some i) → i ∈ more := by
  simp only [Arena.copiesAround, except_bind_eq_ok, valueOf_eq_ok, value_eq_ok, use_eq_ok,
    except_pure_eq_ok] at hrun
  obtain ⟨w, ⟨use, huse, hval⟩, x, hx, above, habove, use', huse', below, hbelow, rfl⟩ := hrun
  cases huse.symm.trans huse'
  obtain ⟨habove, habove'⟩ := copyAt_eq_ok habove
  obtain ⟨hbelow, hbelow'⟩ := copyAt_eq_ok hbelow
  -- What is found is resident, and it is a copy whichever way it is looked up.
  have hfits {j : InstrId} (hres : ∃ T ∈ Ts, a.Resident T j)
      (hj : ∃ ins p, a.instrs[j.idx]? = some ins ∧ ins.alu? = some p ∧ a.isCopy p = .ok true) :
      (∃ T ∈ Ts, a.Resident T j)
        ∧ ∀ ins p, a.instrs[j.idx]? = some ins → ins.alu? = some p → a.isCopy p = .ok true := by
    obtain ⟨ins, p, hins, halu, hcopy⟩ := hj
    refine ⟨hres, fun ins' p' hins' halu' => ?_⟩
    cases hins.symm.trans hins'
    cases halu.symm.trans halu'
    exact hcopy
  refine ⟨fun j hj => ?_, fun i b p d use' hi huse' hor => ?_⟩
  · rcases List.mem_append.mp hj with hj | hj
    · obtain ⟨hby, hj'⟩ := habove j hj
      refine hfits ?_ hj'
      obtain ⟨use', w', x', huse', hval', ⟨T, hT, hdef⟩, -⟩ := h.lists.slot u hu
      cases huse.symm.trans huse'
      cases hval.symm.trans hval'
      obtain ⟨y, k, kns, hy, hky, hkns, -, hhome⟩ := (h.homed T hT).definer w hdef
      cases hx.symm.trans hy
      cases hby.symm.trans hky
      exact ⟨T, hT, kns, hkns, hhome⟩
    · obtain ⟨huser, hj'⟩ := hbelow j hj
      exact hfits ((h.user u hu use huse).2 j huser) hj'
  · cases huse.symm.trans huse'
    have hi' := hi
    obtain ⟨-, -, -, -, ins, hins, -, hact, -, hcopy⟩ := hi
    have halu : ins.alu? = some p := by simp [Instr.alu?, hact]
    rcases hor with hd | huser
    · cases hval.symm.trans hd
      obtain ⟨-, y, hy, hby⟩ := h.dest hi'
      cases hx.symm.trans hy
      exact List.mem_append_left _ (habove' i ins p hby hins halu hcopy)
    · exact List.mem_append_right _ (hbelow' i ins p huser hins halu hcopy)

theorem QueueFits.append {q q' : List InstrId} (h : a.QueueFits Ts q) (h' : a.QueueFits Ts q') :
    a.QueueFits Ts (q ++ q') := by
  intro i hi
  exact (List.mem_append.mp hi).elim (h i) (h' i)

theorem QueueFits.turned {q : List InstrId} {z : Swizzle} (h : a.QueueFits Ts q)
    (ht : Turned a a' u v z) : a'.QueueFits Ts q := by
  intro i hi
  obtain ⟨⟨T, hT, hres⟩, hcopy⟩ := h i hi
  refine ⟨⟨T, hT, ht.resident.mpr hres⟩, fun ins' p hins' halu => ?_⟩
  obtain ⟨n, l, hins⟩ := instr_of_instrs ht.instrs.symm hins'
  rw [isCopy_turned ht]
  exact hcopy _ p hins halu

theorem QueueFits.lose {gone : Finset InstrId} {q : List InstrId} (hq : a.QueueFits Ts q)
    (h : Loses gone a a') : a'.QueueFits Ts q := by
  intro j hj
  obtain ⟨⟨T, hT, hres⟩, hcopy⟩ := hq j hj
  refine ⟨⟨T, hT, h.resident hres⟩, fun ins' p hins' halu => ?_⟩
  obtain ⟨ins, n, l, hins, rfl⟩ := h.exists_instr_before hins'
  rw [h.isCopy_eq]
  refine hcopy ins p hins ?_
  split at halu <;> exact halu

/-! ### Pending pairs -/

section Pending

variable {P : BlockId → InstrId → Bool → UseId → Prop}

/-- Turning a use brings back the copies around it at most. -/
theorem Pending.turn {z : Swizzle} (hP : a.Pending Ts P) (h : a.Sound Ts U)
    (h' : a'.Sound Ts U) (ht : Turned a a' u v z) (hatt : ∀ t, a'.Attached t ↔ a.Attached t)
    (hu : U u) (hmore : a'.copiesAround u = .ok more) :
    a'.Pending Ts fun c j s t => P c j s t ∧ t ≠ u ∨ j ∈ more := by
  obtain ⟨-, hqueued⟩ := h'.copiesAround hu hmore
  intro j c q e x' hj' hx' s t hmem
  have hj := ht.standsAs.mp hj'
  obtain ⟨he, x, hx, -⟩ := h.dest hj
  obtain ⟨hU, hatt', use', huse', hval', hs⟩ := h'.entry he hx' hmem
  by_cases htu : t = u
  · subst htu
    exact Or.inr (Or.inr (hqueued j c q e use' hj' huse' (Or.inl hval')))
  -- Another use is listed as before, and it is stuck as before unless the copy reads `u`.
  obtain ⟨use, -, -, huse, -⟩ := h.lists.slot t hU
  obtain ⟨k, hk⟩ := ht.use_other htu huse
  cases huse'.symm.trans hk
  have hold : t ∈ x.usesOf s := hs ▸ h.listed hU ((hatt t).mp hatt') huse hval' hx
  by_cases hsrc : some u ∈ q.srcs
  · obtain ⟨uuse, -, huuse, -, -, huser⟩ := h'.source hj' hsrc
    exact Or.inr (Or.inr (hqueued j c q e uuse hj' huuse (Or.inr huser)))
  · have hsame : a'.turnable q s t = a.turnable q s t := by
      unfold turnable
      rw [isExactCopy_turned ht hsrc, mayTurn_turned ht htu hsrc]
    rw [hsame]
    exact (hP j c q e x hj hx s t hold).imp id fun hp => Or.inl ⟨hp, htu⟩

/-- Taking out instructions brings nothing back. -/
theorem Pending.lose {gone : Finset InstrId} (hP : a.Pending Ts P) (h : a.Sound Ts U)
    (h' : a'.Sound Ts U) (hl : Loses gone a a') (hatt : ∀ t, a'.Attached t → a.Attached t) :
    a'.Pending Ts P := by
  intro j c q e x' hj' hx' s t hmem
  have hj := hl.standsAs_before hj'
  obtain ⟨he, x, hx, -⟩ := h.dest hj
  obtain ⟨hU, hatt', use', huse', hval', hs⟩ := h'.entry he hx' hmem
  obtain ⟨k, huse⟩ := use_of_uses hl.uses.symm huse'
  have hold : t ∈ x.usesOf s := hs ▸ h.listed hU (hatt t hatt') huse hval' hx
  rw [hl.turnable_eq]
  exact hP j c q e x hj hx s t hold

end Pending

/-! ### Counters and analyses -/

section Update

variable (F : Array Function) (K : Counters)

theorem Wired.update (h : a.Wired S) :
    ({ a with functions := F, counters := K } : Arena).Wired S :=
  ⟨h.block, h.instr, h.definition, h.source, h.condition, h.value⟩

theorem Homed.update (h : a.Homed S) :
    ({ a with functions := F, counters := K } : Arena).Homed S :=
  ⟨h.place, h.once, h.definer⟩

theorem UseLists.update {V : ValueId → Prop} (h : a.UseLists V U) :
    ({ a with functions := F, counters := K } : Arena).UseLists V U :=
  ⟨h.value, h.entry, h.slot, h.member⟩

theorem Sound.update (h : a.Sound Ts U) :
    ({ a with functions := F, counters := K } : Arena).Sound Ts U :=
  ⟨fun T hT => (h.wired T hT).update F K, fun T hT => (h.homed T hT).update F K,
    h.lists.update F K, h.reads, h.user⟩

end Update

/-- What depends on the code and the lists is the same for arenas that have both in common. -/
theorem Pending.congr {P : BlockId → InstrId → Bool → UseId → Prop} (h : a.Pending Ts P)
    (hcode : a'.code = a.code) (hvalues : a'.values = a.values) : a'.Pending Ts P := by
  have hl := Loses.of_code hcode
  intro i b p d x hi hx c u hu
  rw [hl.turnable_eq]
  exact h i b p d x (hl.standsAs_before hi) (hvalues ▸ hx) c u hu

end Arena

end ShaderCompiler
