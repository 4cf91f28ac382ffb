import ShaderCompiler.Proofs.Machine.Layout

/-!
# Which instructions are packed

Packing refuses an instruction, or returns the word with its numbers. Here it is said exactly when
which happens. Every slot that the operation has holds an operand that it can express, and what the
operation does not have is empty. Branches are the exception: nobody looks at the slots behind their
condition, and what stands there is dropped.
-/

namespace ShaderCompiler.Machine.Instr

variable {ins ins' : Instr} {info : OpInfo} {si : SourceInfo} {s : Operand} {i : Nat} {flow : UInt8}
  {w : Word}

/-! ### Slots -/

/-- A sequence of steps goes through if each of them does. -/
theorem exists_bind_eq_ok {ε α β : Type} {x : Except ε α} {k : α → Except ε β} :
    (∃ z, (x >>= k) = .ok z) ↔ ∃ y, x = .ok y ∧ ∃ z, k y = .ok z := by
  simp only [except_bind_eq_ok]
  exact exists_comm.trans (exists_congr fun _ => exists_and_left)

/-- What a slot may hold: an operand that the source can express, and nothing past the sources of the
operation. -/
def SlotFits (info : OpInfo) (s : Operand) (i : Nat) : Prop :=
  match info.srcs[i]? with
  | none => s.isNull = true
  | some si => si.Takes s ∧ (si.registerOnly = true → s.kind = .register)

theorem slotFits_of_length_le (h : info.srcs.length ≤ i) : SlotFits info s i ↔ s.isNull = true := by
  rw [SlotFits, List.getElem?_eq_none h]

theorem takes_iff (ins : Instr) (i : Nat) : si.Takes s ↔ (∃ byte, ins.sourceBits s = .ok byte)
    ∧ ∃ w, ins.modifierBits i si s = .ok w := by
  constructor
  · rintro ⟨haddr, hsign, hinvert, c, hc⟩
    refine ⟨⟨_, sourceBits_eq_ok.mpr ⟨haddr, rfl⟩⟩, ?_⟩
    simp only [modifierBits, except_bind_eq_ok, refuseIf_eq_ok, laneBits_eq_ok, except_pure_eq_ok]
    refine ⟨_, (), ?_, (), ?_, _, ⟨c, hc, rfl⟩, rfl⟩
    · simpa using hsign
    · simpa using hinvert
  · rintro ⟨⟨byte, hbyte⟩, w, hw⟩
    obtain ⟨hsign, hinvert, c, hc, -⟩ := modifierBits_eq_ok hw
    exact ⟨(sourceBits_eq_ok.mp hbyte).1, hsign, hinvert, c, hc⟩

theorem exists_sourcesBits {l : List (Operand × Nat)} :
    (∃ w, ins.sourcesBits info l = .ok w) ↔ ∀ p ∈ l, SlotFits info p.1 p.2 := by
  induction l with
  | nil => simp [sourcesBits]
  | cons p l ih =>
    obtain ⟨s, i⟩ := p
    rw [List.forall_mem_cons, ← ih, sourcesBits, SlotFits]
    cases info.srcs[i]? with
    | none => simp
    | some si =>
      simp only [exists_bind_eq_ok, except_pure_eq_ok, exists_eq', exists_and_right, refuseIf_eq_ok,
        exists_const, takes_iff ins i, not_and, not_not]
      tauto

theorem srcAt_eq (hi : i < 4) : ins.srcAt i = ins.src[i] := by
  rw [srcAt, Vector.getElem?_eq_getElem hi]
  rfl

theorem exists_allSourcesBits : (∃ w, ins.allSourcesBits info = .ok w)
    ↔ ∀ i < 4, SlotFits info (ins.srcAt i) i := by
  rw [allSourcesBits, exists_sourcesBits]
  constructor
  · intro h i hi
    refine h (ins.srcAt i, i) (List.mem_zipIdx_iff_getElem?.mpr ?_)
    rw [Vector.getElem?_toList, srcAt_eq hi, Vector.getElem?_eq_getElem hi]
  · intro h p hp
    rw [List.mem_zipIdx_iff_getElem?, Vector.getElem?_toList] at hp
    obtain ⟨hi, hs⟩ := Vector.getElem?_eq_some_iff.mp hp
    rw [← hs, ← srcAt_eq hi]
    exact h p.2 hi

theorem exists_firstSourceBits (hsrcs : info.srcs = [si]) (hany : si.registerOnly = false) :
    (∃ w, ins.firstSourceBits info = .ok w) ↔ SlotFits info (ins.srcAt 0) 0 := by
  rw [SlotFits, hsrcs, firstSourceBits, hsrcs, srcAt_eq (by decide)]
  simp only [except_bind_eq_ok, except_pure_eq_ok, List.headD_cons, List.getElem?_cons_zero,
    takes_iff ins 0, hany]
  constructor
  · rintro ⟨_, byte, hbyte, mods, hmods, -⟩
    exact ⟨⟨⟨byte, hbyte⟩, mods, hmods⟩, fun h => absurd h Bool.false_ne_true⟩
  · rintro ⟨⟨⟨byte, hbyte⟩, mods, hmods⟩, -⟩
    exact ⟨_, byte, hbyte, mods, hmods, rfl⟩

theorem all_isNull_iff (ins : Instr) (k : Nat) : (ins.src.toList.drop k).all (·.isNull) = true
    ↔ ∀ i < 4, k ≤ i → (ins.srcAt i).isNull = true := by
  rw [List.all_eq_true]
  constructor
  · intro h i hi hk
    refine h _ (List.mem_of_getElem? (i := i - k) ?_)
    rw [List.getElem?_drop, Nat.add_sub_cancel' hk, Vector.getElem?_toList, srcAt_eq hi,
      Vector.getElem?_eq_getElem hi]
  · intro h s hs
    obtain ⟨j, hj⟩ := List.mem_iff_getElem?.mp hs
    rw [List.getElem?_drop, Vector.getElem?_toList] at hj
    obtain ⟨hlt, rfl⟩ := Vector.getElem?_eq_some_iff.mp hj
    rw [← srcAt_eq hlt]
    exact h _ hlt (Nat.le_add_right k j)

/-! ### Classes -/

theorem exists_flagBits (hclass : info.opClass = .alu) :
    (∃ w, ins.flagBits info = .ok w) ↔ ins.FlagsFit info := by
  constructor
  · rintro ⟨w, hw⟩
    exact (flagBits_eq_assemble 0 0 hclass hw).1
  · rintro ⟨hclamp, hround, hresult, hmux, hcompare⟩
    have hpass {x : UInt8} {c : Bool} (h : info.opClass ≠ .alu ∨ c = false → x = 0) :
        ¬ (x ≠ 0 ∧ (!c) = true) := fun hx => hx.1 (h (.inr (by simpa using hx.2)))
    simp only [flagBits, except_bind_eq_ok, refuseIf_eq_ok, except_pure_eq_ok]
    exact ⟨_, (), hpass hclamp, (), hpass hround, (), hpass hresult, (),
      hpass (hcompare (by simp [hclass])), (), hpass hmux, rfl⟩

/-- What is asked of an instruction: slots hold what the operation can express, the fields of its
class are in range, and all else is empty. Only the condition of a branch is looked at. -/
@[mk_iff]
structure Packable (ins : Instr) (info : OpInfo) : Prop where
  slots : ∀ i < 4, (info.opClass = .branch → i = 0) → SlotFits info (ins.srcAt i) i
  own : ins.OwnFit info
  fields : ins.FieldsFit info
  flags : ins.FlagsFit info

theorem exists_packClass (hi : info.WellLaid) :
    (∃ w, ins.packClass info ins.branch.toInt = .ok w) ↔ ins.Packable info := by
  have hnoflags {may : Bool} (hc : info.opClass ≠ .alu) (hm : may = true ↔ info.opClass = .branch) :
      (∃ y, ins.checkNoFlags may = .ok y) ↔ ins.FlagsFit info := by
    simp only [checkNoFlags_eq_ok hc hm, exists_const]
  rw [packable_iff, packClass, OwnFit]
  cases hclass : info.opClass
  all_goals simp only [reduceCtorEq, false_implies, forall_const, packNop, packAlu, packImmediate,
    packLoad, packStore, packTexture, packBranch, exists_bind_eq_ok, except_pure_eq_ok, exists_eq',
    exists_and_left, exists_and_right, exists_const, and_true, refuseIf_eq_ok, checkUnused_eq_ok,
    destBits_eq_ok, stagingBits_eq_ok, exists_allSourcesBits, Bool.not_eq_true', Bool.not_eq_false]
  case alu =>
    rw [exists_flagBits hclass]
    tauto
  case load =>
    rw [hnoflags (by simp [hclass]) (by simp [hclass])]
    tauto
  case store =>
    rw [hnoflags (by simp [hclass]) (by simp [hclass])]
    tauto
  case texture =>
    rw [hnoflags (by simp [hclass]) (by simp [hclass])]
    simp only [not_or, UInt8.not_lt]
    tauto
  case nop =>
    have hslots := all_isNull_iff ins 0
    have hfits (i : Nat) : SlotFits info (ins.srcAt i) i ↔ (ins.srcAt i).isNull = true :=
      slotFits_of_length_le (by simp [hi.none hclass])
    simp only [hfits]
    rw [hnoflags (by simp [hclass]) (by simp [hclass])]
    simp only [List.drop_zero, Nat.zero_le, forall_const] at hslots
    rw [hslots]
    tauto
  case immediate =>
    obtain ⟨si, hsi, hany⟩ := hi.one (.inl hclass)
    have hslots : (∀ i < 4, SlotFits info (ins.srcAt i) i) ↔ SlotFits info (ins.srcAt 0) 0
        ∧ (ins.src.toList.drop 1).all (·.isNull) = true := by
      rw [all_isNull_iff]
      refine ⟨fun h => ⟨h 0 (by decide), fun i hlt hpos => ?_⟩, fun h i hlt => ?_⟩
      · exact (slotFits_of_length_le (by rwa [hsi])).mp (h i hlt)
      · rcases Nat.eq_zero_or_pos i with rfl | hpos
        · exact h.1
        · exact (slotFits_of_length_le (by rwa [hsi])).mpr (h.2 i hlt hpos)
    rw [hnoflags (by simp [hclass]) (by simp [hclass]), exists_firstSourceBits hsi hany, hslots]
    tauto
  case branch =>
    obtain ⟨si, hsi, hany⟩ := hi.one (.inr hclass)
    rw [hnoflags (by simp [hclass]) (by simp [hclass]), exists_firstSourceBits hsi hany]
    have hslots : (∀ i < 4, i = 0 → SlotFits info (ins.srcAt i) i) ↔ SlotFits info (ins.srcAt 0) 0 :=
      ⟨fun h => h 0 (by decide) rfl, fun h i _ hzero => hzero ▸ h⟩
    rw [hslots]
    simp only [not_or, not_lt, not_le]
    tauto

theorem Packable.expressed (h : ins.Packable info) (hi : info.WellLaid) : ins.Expressed info := by
  obtain ⟨w, hw⟩ := (exists_packClass hi).mpr h
  exact (packClass_eq_assemble 0 0 hi hw).1

/-! ### Whole words -/

/-- The page depends on the pages of the fast-access operands only. -/
theorem sharedPage_congr {l l' : List Operand} {given : Option Nat} {page : Nat}
    (hl : l'.map (fun s => (s.isFastAccess, s.page)) = l.map fun s => (s.isFastAccess, s.page))
    (h : ins.sharedPage given l = .ok page) : ins'.sharedPage given l' = .ok page := by
  induction l generalizing l' given with
  | nil =>
    obtain rfl := List.map_eq_nil_iff.mp hl
    exact h
  | cons s l ih =>
    obtain ⟨s', l', rfl, hs, hl⟩ := List.map_eq_cons_iff.mp hl
    obtain ⟨hfast, hpage⟩ := Prod.mk.inj hs
    unfold sharedPage at h ⊢
    rw [hfast, hpage]
    split at h
    case isTrue hyes =>
      rw [if_pos hyes]
      cases given with
      | none => exact ih hl h
      | some p =>
        simp only [except_bind_eq_ok, refuseIf_eq_ok] at h ⊢
        obtain ⟨y, hsame, h⟩ := h
        exact ⟨y, hsame, ih hl h⟩
    case isFalse hno =>
      rw [if_neg hno]
      exact ih hl h

/-- An instruction is packed if and only if its operation can express it and its fast-access sources
share a page. Its word then holds its numbers. -/
theorem pack_eq_ok_iff : ins.pack flow = .ok w ↔ ∃ info page, ins.op.info = .ok info ∧ flow ≤ 13
    ∧ ins.Packable info ∧ ins.sharedPage none (ins.sources info) = .ok page
    ∧ w = assemble (ins.number info flow page) info.layout := by
  rw [pack_eq_assemble]
  refine exists_congr fun info => exists_congr fun page => and_congr_right fun hinfo => ?_
  rw [exists_packClass (wellLaid_of_info hinfo)]

/-- What a word holds of an operand. -/
def numbersOf (s : Operand) : Nat × Bool × Bool × Bool × Halves :=
  (s.byte, s.negate, s.absolute, s.invert, s.halves)

theorem number_congr {page : Nat}
    (hsrcs : ∀ i < info.srcs.length, numbersOf (ins'.srcAt i) = numbersOf (ins.srcAt i))
    (hrest : { ins' with src := ins.src } = ins) :
    ins'.number info flow page = ins.number info flow page := by
  have hsource {i : Nat} (g : Nat × Bool × Bool × Bool × Halves → SourceInfo → Nat) :
      (info.srcs[i]?).elim 0 (g (numbersOf (ins'.srcAt i)))
        = (info.srcs[i]?).elim 0 (g (numbersOf (ins.srcAt i))) := by
    cases hsi : info.srcs[i]? with
    | none => rfl
    | some si => rw [hsrcs i (List.getElem?_eq_some_iff.mp hsi).1]
  rw [← hrest] at hsource ⊢
  funext t
  cases t with
  | source i => exact hsource fun s _ => s.1
  | negate i => exact hsource fun s _ => s.2.1.toNat
  | absolute i => exact hsource fun s _ => s.2.2.1.toNat
  | invert i => exact hsource fun s _ => s.2.2.2.1.toNat
  | halves i => exact hsource fun s si => (si.lanes.code? s.2.2.2.2).getD 0
  | _ => rfl

/-- No operand is dropped. An instruction that is packed has an operand in every slot of its operation.
Slots behind these are empty, and so are the destination, the staging registers and the fields that
its operation does not have. Branches are an exception: what stands behind their condition can be
anything, and does not show in the word. -/
theorem operands_of_pack (h : ins.pack flow = .ok w) : ∃ info, ins.op.info = .ok info
    ∧ (∀ i : Fin 4, i < info.srcs.length → (ins.src.get i).isNull = false)
    ∧ (info.opClass ≠ .branch → ∀ i : Fin 4, info.srcs.length ≤ i → (ins.src.get i).isNull = true)
    ∧ ins.FieldsFit info
    ∧ (info.opClass = .branch → info.srcs.length = 1
      ∧ ∀ s₁ s₂ s₃, { ins with src := #v[ins.src.get 0, s₁, s₂, s₃] }.pack flow = .ok w) := by
  obtain ⟨info, page, hinfo, hflow, hp, hpage, rfl⟩ := pack_eq_ok_iff.mp h
  have hi := wellLaid_of_info hinfo
  have hone (hc : info.opClass = .branch) : info.srcs.length = 1 := by
    obtain ⟨si, hsi, -⟩ := hi.one (.inr hc)
    rw [hsi]
    rfl
  have hsrc (i : Fin 4) : ins.src.get i = ins.srcAt i := (srcAt_eq i.isLt).symm
  refine ⟨info, hinfo, fun i hlt => ?_, fun hc i hle => ?_, hp.fields, fun hc => ⟨hone hc, ?_⟩⟩
  · have hslot := hp.slots i i.isLt fun hc => by
      rw [hone hc] at hlt
      omega
    rw [SlotFits, List.getElem?_eq_getElem hlt] at hslot
    rw [hsrc, Operand.isNull, decide_eq_false_iff_not]
    intro hnull
    have haddr := hslot.1.addressable.2
    simp [hnull] at haddr
  · rw [hsrc]
    exact (slotFits_of_length_le hle).mp (hp.slots i i.isLt fun hc' => absurd hc' hc)
  · intro s₁ s₂ s₃
    have hfirst : (#v[ins.src.get 0, s₁, s₂, s₃]).toList.take 1 = ins.src.toList.take 1 := by
      refine List.ext_getElem? fun i => ?_
      cases i with
      | zero => simp [Vector.get]
      | succ i => simp
    refine pack_eq_ok_iff.mpr ⟨info, page, hinfo, hflow, ⟨fun i hlt hzero => ?_, hp.own,
      { hp.fields with }, { hp.flags with }⟩, sharedPage_congr (congrArg _ ?_) hpage, ?_⟩
    · obtain rfl := hzero hc
      exact hp.slots 0 hlt fun _ => rfl
    · rw [sources, sources, hone hc, hfirst]
    · have hsame : ∀ i < info.srcs.length,
          { ins with src := #v[ins.src.get 0, s₁, s₂, s₃] }.srcAt i = ins.srcAt i := fun i hlt => by
        rw [hone hc, Nat.lt_one_iff] at hlt
        rw [hlt]
        rfl
      rw [number_congr (fun i hlt => congrArg numbersOf (hsame i hlt)) rfl]

/-- A branch with an operand behind its condition. -/
def crowded : Instr :=
  { bare ⟨17⟩ with src := #v[.register 1, .register 7, .null, .null], branch := 4 }

/-- The second operand of the sample does not show in its word. -/
theorem operands_of_pack_crowded : crowded.pack 0 = .ok 0x001fc01000000401#64
    ∧ (crowded.src.get 1).isNull = false
    ∧ { crowded with src := #v[.register 1, .null, .null, .null] }.pack 0
      = .ok 0x001fc01000000401#64 := by
  have hpack : crowded.pack 0 = .ok 0x001fc01000000401#64 := by decide +kernel
  obtain ⟨info, hinfo, -, -, -, hbranch⟩ := operands_of_pack hpack
  have hclass : info.opClass = .branch := by
    cases hinfo
    rfl
  exact ⟨hpack, rfl, (hbranch hclass).2 .null .null .null⟩

end ShaderCompiler.Machine.Instr
