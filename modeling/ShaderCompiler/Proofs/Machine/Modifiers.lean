import ShaderCompiler.Proofs.Machine.Acceptance
import ShaderCompiler.Proofs.Machine.Decode

/-!
# Modifiers and flags in words

A word shows every modifier of every operand: with another value of one of them the instruction is
refused or has another word. There is one modifier that words do not show. A fast-access source can
be discarded as a register can, and nothing comes of it.

Flags have eight bits and fields of two or three. Packing puts all eight bits into the word, so that a
flag which is too large for its field changes the fields behind it. A flag that fits leaves them alone.
-/

namespace ShaderCompiler.Machine

/-- A modifier of an operand, with a value for it. -/
inductive Modifier where
  | discard (on : Bool)
  | negate (on : Bool)
  | absolute (on : Bool)
  | invert (on : Bool)
  | upper (on : Bool)
  | halves (h : Halves)

/-- A place of an instruction that holds an operand. -/
inductive Slot where
  | source (i : Fin 4)
  | dest
  | staging

/-- The operation has an operand at the place. -/
def OpInfo.Has (info : OpInfo) : Slot → Prop
  | .source i => i < info.srcs.length
  | .dest => info.hasDest = true
  | .staging => info.opClass = .store ∨ info.opClass = .texture

namespace Operand

variable {s : Operand} {si : SourceInfo} {m : Modifier}

/-- The operand with another value of a modifier. -/
def modify (s : Operand) : Modifier → Operand
  | .discard on => { s with discard := on }
  | .negate on => { s with negate := on }
  | .absolute on => { s with absolute := on }
  | .invert on => { s with invert := on }
  | .upper on => { s with upper := on }
  | .halves h => { s with halves := h }

/-- Registers without modifiers differ in their halves only. -/
theorem Bare.modify_eq (h : s.Bare) (h' : (s.modify m).Bare) (hh : (s.modify m).halves = s.halves) :
    s.modify m = s := by
  obtain ⟨kind, value, upper, discard, negate, absolute, invert, halves⟩ := s
  obtain ⟨-, -, hneg, habs, hinv, hdis, hupper⟩ := h
  obtain ⟨-, -, hneg', habs', hinv', hdis', hupper'⟩ := h'
  cases m <;> simp_all [modify]

/-- A source shows its modifiers, the discarding of fast-access values apart. -/
theorem modify_eq_of_takes (h : si.Takes s) (h' : si.Takes (s.modify m))
    (hbyte : (s.modify m).byte = s.byte) (hneg : (s.modify m).negate = s.negate)
    (habs : (s.modify m).absolute = s.absolute) (hinv : (s.modify m).invert = s.invert)
    (hlanes : si.lanes.code? (s.modify m).halves = si.lanes.code? s.halves) :
    s.modify m = s ∨ (∃ on, m = .discard on) ∧ s.isFastAccess = true := by
  have hbool {x y : Bool} (h : x.toNat = y.toNat) : x = y := by
    cases x <;> cases y <;> simp_all
  cases m with
  | negate on => exact .inl (congrArg (fun x => { s with negate := x }) hneg)
  | absolute on => exact .inl (congrArg (fun x => { s with absolute := x }) habs)
  | invert on => exact .inl (congrArg (fun x => { s with invert := x }) hinv)
  | halves hs =>
    obtain ⟨c, hc⟩ := h.halves
    obtain ⟨c', hc'⟩ := h'.halves
    rw [hc, hc'] at hlanes
    have hsame : hs = s.halves := by
      rw [← LaneMode.halves_code? hc, ← Option.some.inj hlanes]
      exact (LaneMode.halves_code? hc').symm
    exact .inl (congrArg (fun x => { s with halves := x }) hsame)
  | discard on =>
    by_cases hfast : s.isFastAccess = true
    · exact .inr ⟨⟨on, rfl⟩, hfast⟩
    · have hkind : s.kind = .register := by
        have haddr := h.addressable.2
        cases hk : s.kind <;> simp_all [isFastAccess]
      simp only [byte, modify, hkind] at hbyte
      have hsame : on = s.discard := hbool (by omega)
      exact .inl (congrArg (fun x => { s with discard := x }) hsame)
  | upper on =>
    have hsame : on = s.upper := by
      by_cases hfast : s.isFastAccess = true
      · refine hbool ?_
        cases hk : s.kind <;> simp_all [isFastAccess, byte, modify]
      · have hoff : s.upper = false := Bool.eq_false_iff.mpr fun hon => hfast (h.addressable.1 hon)
        have hoff' : on = false := Bool.eq_false_iff.mpr fun hon => hfast (h'.addressable.1 hon)
        rw [hoff, hoff']
    exact .inl (congrArg (fun x => { s with upper := x }) hsame)

end Operand

namespace Instr

variable {ins ins' : Instr} {info : OpInfo} {flow : UInt8} {w : Word} {slot : Slot} {m : Modifier}

/-- The operand at a place. -/
def operand (ins : Instr) : Slot → Operand
  | .source i => ins.src.get i
  | .dest => ins.dest
  | .staging => ins.staging

/-- The instruction with another value of a modifier. -/
def modify (ins : Instr) (slot : Slot) (m : Modifier) : Instr :=
  match slot with
  | .source i => { ins with src := ins.src.setIfInBounds i ((ins.src.get i).modify m) }
  | .dest => { ins with dest := ins.dest.modify m }
  | .staging => { ins with staging := ins.staging.modify m }

/-- Instructions of one operation that have the same word have the same numbers. -/
theorem number_eq_of_pack (h : ins.pack flow = .ok w) (h' : ins'.pack flow = .ok w)
    (hop : ins'.op = ins.op) (hn : ins.Narrow) (hn' : ins'.Narrow) (hinfo : ins.op.info = .ok info) :
    ins.Expressed info ∧ ins'.Expressed info
      ∧ ∃ page, ∀ t, ins'.number info flow page t = ins.number info flow page t := by
  obtain ⟨info', page, hinfo', hi, he, hflow, hpage, -, hw⟩ := pack_eq_ok h
  cases hinfo.symm.trans hinfo'
  obtain ⟨info', page', hinfo', -, he', -, hpage', -, hw'⟩ := pack_eq_ok h'
  rw [hop, hinfo] at hinfo'
  cases hinfo'
  have hnumber (t : Tag) : ins'.number info flow page' t = ins.number info flow page t := by
    rw [← fetch_assemble hi (number_lt hi he hn hflow hpage) (exists_field_of_number_ne_zero hi he),
      ← fetch_assemble hi (number_lt hi he' hn' hflow hpage') (exists_field_of_number_ne_zero hi he'),
      ← hw, ← hw']
  obtain rfl : page' = page := hnumber .page
  exact ⟨he, he', page', hnumber⟩

theorem dest_of_ownFit (hi : info.WellLaid) (hown : ins.OwnFit info) (hdest : info.hasDest = true) :
    ins.dest.Bare ∧ (info.opClass = .load → ins.dest.halves = .h01)
      ∧ (info.opClass ≠ .load → ins.dest.halves.mask ≠ 0) := by
  unfold OwnFit at hown
  rcases hi.hasDest.mp hdest with hc | hc | hc | hc <;> simp only [hc] at hown <;> simp [hown, hc]

theorem staging_of_ownFit (hown : ins.OwnFit info)
    (hc : info.opClass = .store ∨ info.opClass = .texture) :
    ins.staging.Bare ∧ ins.staging.halves = .h01 := by
  unfold OwnFit at hown
  rcases hc with hc | hc <;> simp only [hc] at hown
  exacts [hown, hown.2.1]

theorem operand_modify (ins : Instr) (slot : Slot) (m : Modifier) :
    (ins.modify slot m).operand slot = (ins.operand slot).modify m := by
  cases slot with
  | source i => exact Vector.getElem_setIfInBounds_self i.isLt
  | dest => rfl
  | staging => rfl

theorem srcAt_modify {i : Fin 4} {j : Nat} : (ins.modify (.source i) m).srcAt j
    = if j = i then (ins.srcAt j).modify m else ins.srcAt j := by
  by_cases hj : j = i
  · rw [if_pos hj, hj, srcAt_eq i.isLt, srcAt_eq i.isLt]
    exact ins.operand_modify (.source i) m
  · simp [srcAt, modify, Ne.symm hj, hj]

theorem SlotFits.discard {s : Operand} {j : Nat} (h : SlotFits info s j) (on : Bool) :
    SlotFits info (s.modify (.discard on)) j := by
  rw [SlotFits] at h ⊢
  cases hsi : info.srcs[j]? with
  | none =>
    rw [hsi] at h
    exact h
  | some si =>
    rw [hsi] at h
    exact ⟨{ h.1 with }, h.2⟩

theorem numbersOf_discard {s : Operand} (hfast : s.isFastAccess = true) (on : Bool) :
    numbersOf (s.modify (.discard on)) = numbersOf s := by
  unfold Operand.isFastAccess at hfast
  simp only [numbersOf, Operand.byte, Operand.modify]
  split at hfast <;> simp_all

/-- Instructions that have the same word and differ in one modifier are equal, or they differ in the
discarding of a fast-access source. -/
theorem modify_eq_of_pack (h : ins.pack flow = .ok w) (h' : (ins.modify slot m).pack flow = .ok w)
    (hn : ins.Narrow) (hinfo : ins.op.info = .ok info) (hslot : info.Has slot) :
    (ins.operand slot).modify m = ins.operand slot
      ∨ (∃ on, m = .discard on) ∧ (ins.operand slot).isFastAccess = true := by
  have hi := wellLaid_of_info hinfo
  have hn' : (ins.modify slot m).Narrow := by
    cases slot <;> exact { hn with }
  obtain ⟨he, he', page, hnumber⟩ := number_eq_of_pack h h' (by cases slot <;> rfl) hn hn' hinfo
  cases slot with
  | source i =>
    have hsi : info.srcs[i.val]? = some info.srcs[i] := List.getElem?_eq_getElem hslot
    have hsrc : ins.srcAt i = ins.operand (.source i) := srcAt_eq i.isLt
    have hsrc' : (ins.modify (.source i) m).srcAt i = (ins.operand (.source i)).modify m :=
      (srcAt_eq i.isLt).trans (ins.operand_modify (.source i) m)
    have htakes := he.takes i _ hsi
    have htakes' := he'.takes i _ hsi
    have hbool {x y : Bool} (h : x.toNat = y.toNat) : x = y := by
      cases x <;> cases y <;> simp_all
    have hbyte := hnumber (.source i)
    have hneg := hnumber (.negate i)
    have habs := hnumber (.absolute i)
    have hinv := hnumber (.invert i)
    have hlanes := hnumber (.halves i)
    simp only [number, hsi, Option.elim_some, hsrc, hsrc'] at hbyte hneg habs hinv hlanes
    rw [hsrc] at htakes
    rw [hsrc'] at htakes'
    refine Operand.modify_eq_of_takes htakes htakes' hbyte (hbool hneg) (hbool habs) (hbool hinv) ?_
    obtain ⟨c, hc⟩ := htakes.halves
    obtain ⟨c', hc'⟩ := htakes'.halves
    rw [hc, hc'] at hlanes ⊢
    exact congrArg some hlanes
  | dest =>
    obtain ⟨hbare, hload, hmask⟩ := dest_of_ownFit hi he.own hslot
    obtain ⟨hbare', hload', hmask'⟩ := dest_of_ownFit hi he'.own hslot
    refine .inl (hbare.modify_eq hbare' ?_)
    by_cases hc : info.opClass = .load
    · exact (hload' hc).trans (hload hc).symm
    · have hvalue : (ins.dest.modify m).value = ins.dest.value := by cases m <;> rfl
      have hdest := hnumber .dest
      simp only [number, show info.hasDest = true from hslot, hc, if_true, if_false] at hdest
      have hsame : (ins.dest.modify m).halves.mask = ins.dest.halves.mask := by
        simp only [modify, hvalue] at hdest
        omega
      have hback := Halves.ofMask_mask (hmask hc)
      rw [← hsame] at hback
      exact (Halves.ofMask_mask (hmask' hc)).symm.trans hback
  | staging =>
    obtain ⟨hbare, hhalves⟩ := staging_of_ownFit he.own hslot
    obtain ⟨hbare', hhalves'⟩ := staging_of_ownFit he'.own hslot
    exact .inl (hbare.modify_eq hbare' (hhalves'.trans hhalves.symm))

/-- Words show every modifier of every operand that the operation has: with another value of a modifier
an instruction is refused or has another word. The only exception is the discarding of a fast-access
source, which is always dropped. -/
theorem pack_modify_eq_iff (h : ins.pack flow = .ok w) (hn : ins.Narrow)
    (hinfo : ins.op.info = .ok info) (hslot : info.Has slot)
    (hm : (ins.operand slot).modify m ≠ ins.operand slot) :
    (ins.modify slot m).pack flow = .ok w
      ↔ (∃ on, m = .discard on) ∧ (ins.operand slot).isFastAccess = true := by
  refine ⟨fun h' => (modify_eq_of_pack h h' hn hinfo hslot).resolve_left hm, ?_⟩
  rintro ⟨⟨on, rfl⟩, hfast⟩
  obtain ⟨info', page, hinfo', hflow, hp, hpage, rfl⟩ := pack_eq_ok_iff.mp h
  cases hinfo.symm.trans hinfo'
  have hnofast {s : Operand} (hbare : s.Bare) : s.isFastAccess ≠ true := by
    simp [Operand.isFastAccess, hbare.kind]
  cases slot with
  | dest =>
    exact absurd hfast (hnofast (dest_of_ownFit (wellLaid_of_info hinfo) hp.own hslot).1)
  | staging => exact absurd hfast (hnofast (staging_of_ownFit hp.own hslot).1)
  | source i =>
    -- Neither what a slot may hold nor the page nor the byte looks at the discarding.
    refine pack_eq_ok_iff.mpr ⟨info, page, hinfo, hflow, ⟨fun j hj hfirst => ?_, hp.own,
      { hp.fields with }, { hp.flags with }⟩, sharedPage_congr ?_ hpage, ?_⟩
    · rw [srcAt_modify]
      split
      · exact (hp.slots j hj hfirst).discard on
      · exact hp.slots j hj hfirst
    · simp only [sources, modify, Vector.toList_setIfInBounds, List.map_take, List.map_set]
      refine congrArg _ ((congrArg _ ?_).trans (List.set_getElem_self (i := i) (by simp)))
      rw [List.getElem_map, Vector.getElem_toList]
      rfl
    · have hnumbers (j : Nat) : numbersOf ((ins.modify (.source i) (.discard on)).srcAt j)
          = numbersOf (ins.srcAt j) := by
        rw [srcAt_modify]
        split
        case isTrue hj =>
          refine numbersOf_discard ?_ on
          rw [hj, srcAt_eq i.isLt]
          exact hfast
        case isFalse => rfl
      rw [number_congr (fun j _ => hnumbers j) rfl]

/-- Reads a word of a uniform, which is discarded. -/
def discarding : Instr :=
  { bare ⟨1⟩ with
    dest := .register 3
    src := #v[(Operand.uniform 2 true).discarded, .null, .null, .null] }

/-- The sample has the same word if the uniform is not discarded, and another one if the lower word of
the uniform is read. -/
theorem pack_modify_eq_iff_discarding : discarding.pack 0 = .ok 0x0091c30000000085#64
    ∧ (discarding.modify (.source 0) (.discard false)).pack 0 = .ok 0x0091c30000000085#64
    ∧ (discarding.modify (.source 0) (.upper false)).pack 0 ≠ .ok 0x0091c30000000085#64 := by
  have hpack : discarding.pack 0 = .ok 0x0091c30000000085#64 := by decide +kernel
  have hn : discarding.Narrow := ⟨by decide, by decide, by decide, by decide, by decide, by decide⟩
  have hinfo : discarding.op.info = .ok (.simple "mov.i32" .alu 0x91 true [.plain]) := rfl
  have hslot : (OpInfo.simple "mov.i32" .alu 0x91 true [.plain]).Has (.source 0) :=
    Nat.zero_lt_one
  refine ⟨hpack, (pack_modify_eq_iff hpack hn hinfo hslot (by decide)).mpr ⟨⟨false, rfl⟩, rfl⟩, ?_⟩
  rw [ne_eq, pack_modify_eq_iff hpack hn hinfo hslot (by decide)]
  rintro ⟨⟨on, hon⟩, -⟩
  cases hon

end Instr

/-! ### Flags -/

/-- The flags of an instruction. -/
inductive Flag where
  | clamp
  | round
  | resultType
  | compare
  | mux
  | dimension

namespace Flag

/-- The number of a word that shows the flag. -/
def tag : Flag → OpClass → Tag
  | .clamp, _ => .clamp
  | .round, _ => .round
  | .resultType, _ => .resultType
  | .compare, .branch => .ifZero
  | .compare, _ => .compare
  | .mux, _ => .mux
  | .dimension, _ => .dimension

/-- The position of the flag in the words of a class. -/
def pos : Flag → OpClass → Nat
  | .clamp, _ | .mux, _ => 32
  | .round, _ | .resultType, _ => 30
  | .compare, .branch => 36
  | .compare, _ => 32
  | .dimension, _ => 28

/-- The number of bits of the flag in the words of a class. -/
def width (F : Flag) (c : OpClass) : Nat :=
  (F.tag c).width

theorem pos_of_mem_layout {info : OpInfo} (h : info ∈ Opcode.table) (F : Flag) :
    ∀ p ∈ info.layout, p.tag = F.tag info.opClass → p.pos = F.pos info.opClass := by
  revert info
  cases F <;> decide +kernel

end Flag

namespace Instr

variable {ins : Instr} {info : OpInfo} {flow : UInt8} {w : Word}

/-- The value of a flag. -/
def flag (ins : Instr) : Flag → UInt8
  | .clamp => ins.clamp
  | .round => ins.round
  | .resultType => ins.resultType
  | .compare => ins.compare
  | .mux => ins.mux
  | .dimension => ins.dimension

/-- The instruction with a flag set to zero. -/
def clear (ins : Instr) : Flag → Instr
  | .clamp => { ins with clamp := 0 }
  | .round => { ins with round := 0 }
  | .resultType => { ins with resultType := 0 }
  | .compare => { ins with compare := 0 }
  | .mux => { ins with mux := 0 }
  | .dimension => { ins with dimension := 0 }

theorem clear_eq_self {F : Flag} (h : ins.flag F = 0) : ins.clear F = ins := by
  obtain ⟨⟩ := ins
  cases F <;> simp_all [clear, flag]

/-- Every operation takes zero as the value of a flag. -/
theorem Packable.clear (h : ins.Packable info) (F : Flag) : (ins.clear F).Packable info := by
  obtain ⟨hslots, hown, hfields, hflags⟩ := h
  cases F with
  | clamp => exact ⟨hslots, hown, { hfields with }, { hflags with clamp := fun _ => rfl }⟩
  | round => exact ⟨hslots, hown, { hfields with }, { hflags with round := fun _ => rfl }⟩
  | resultType => exact ⟨hslots, hown, { hfields with }, { hflags with resultType := fun _ => rfl }⟩
  | mux => exact ⟨hslots, hown, { hfields with }, { hflags with mux := fun _ => rfl }⟩
  | compare =>
    refine ⟨hslots, ?_, { hfields with }, { hflags with compare := fun _ _ => rfl }⟩
    unfold OwnFit at hown ⊢
    cases hc : info.opClass <;> simp only [hc] at hown ⊢
    case branch => exact ⟨.inl rfl, hown.2⟩
    all_goals exact hown
  | dimension =>
    refine ⟨hslots, hown, { hfields with texture := fun hc => ?_ }, { hflags with }⟩
    obtain ⟨hskip, hcount, hlod, -⟩ := hfields.texture hc
    exact ⟨hskip, hcount, hlod, rfl⟩

/-- A flag shows in one number only. -/
theorem number_clear {page : Nat} (F : Flag) {t : Tag} (ht : t ≠ F.tag info.opClass) :
    ins.number info flow page t = (ins.clear F).number info flow page t := by
  cases F with
  | compare =>
    cases hc : info.opClass <;> rw [hc] at ht <;> cases t <;> simp_all [number, clear, Flag.tag, srcAt]
  | _ => cases t <;> first | rfl | exact absurd rfl ht

theorem number_tag {page : Nat} (hc : info.opClass ≠ .branch) (F : Flag) :
    ins.number info flow page (F.tag info.opClass) = (ins.flag F).toNat := by
  cases F with
  | compare => cases hclass : info.opClass <;> simp_all [number, flag, Flag.tag]
  | _ => rfl

theorem flag_of_branch (hp : ins.Packable info) (hc : info.opClass = .branch) {F : Flag}
    (hF : F ≠ .compare) : ins.flag F = 0 := by
  have halu : info.opClass ≠ .alu := by simp [hc]
  cases F with
  | clamp => exact hp.flags.clamp (.inl halu)
  | round => exact hp.flags.round (.inl halu)
  | resultType => exact hp.flags.resultType (.inl halu)
  | mux => exact hp.flags.mux (.inl halu)
  | dimension => exact (hp.fields.texture (by simp [hc])).2.2.2
  | compare => exact absurd rfl hF

/-- Bits change in a field that the number fits into. -/
theorem getLsbD_or_field {w₀ : Word} {n pos width k : Nat} (hn : n < 2 ^ width)
    (hk : (w₀ ||| field n pos).getLsbD k ≠ w₀.getLsbD k) : pos ≤ k ∧ k < pos + width := by
  have hbit : (field n pos).toNat.testBit k = true := by
    rw [BitVec.getLsbD_or] at hk
    rw [BitVec.testBit_toNat]
    by_contra hoff
    simp [Bool.eq_false_iff.mpr hoff] at hk
  simp only [testBit_field, Bool.and_eq_true, decide_eq_true_eq] at hbit
  obtain ⟨⟨-, hle⟩, hbit⟩ := hbit
  refine ⟨hle, ?_⟩
  by_contra hge
  rw [Nat.testBit_lt_two_pow (lt_of_lt_of_le hn (Nat.pow_le_pow_right (by decide) (by omega)))] at hbit
  cases hbit

/-- What a flag does to a word. The instruction is packed with zero in place of the flag as well. All
eight bits of the flag are put over the word that results, at the position of its field; a branch only
tells a test for zero from another. So a flag that fits into its field leaves all other bits alone. -/
theorem pack_clear (h : ins.pack flow = .ok w) (hinfo : ins.op.info = .ok info) (F : Flag) :
    ∃ w₀, (ins.clear F).pack flow = .ok w₀
      ∧ (info.opClass ≠ .branch → w = w₀ ||| field (ins.flag F).toNat (F.pos info.opClass))
      ∧ (info.opClass = .branch ∨ (ins.flag F).toNat < 2 ^ F.width info.opClass →
        ∀ k, w.getLsbD k ≠ w₀.getLsbD k →
          F.pos info.opClass ≤ k ∧ k < F.pos info.opClass + F.width info.opClass) := by
  obtain ⟨info', page, hinfo', hflow, hp, hpage, rfl⟩ := pack_eq_ok_iff.mp h
  cases hinfo.symm.trans hinfo'
  have hi := wellLaid_of_info hinfo
  have hpos := F.pos_of_mem_layout (mem_table_of_info hinfo)
  refine ⟨assemble ((ins.clear F).number info flow page) info.layout, pack_eq_ok_iff.mpr ⟨info, page,
    ?_, hflow, hp.clear F, sharedPage_congr ?_ hpage, rfl⟩, ?_⟩
  · cases F <;> exact hinfo
  · cases F <;> rfl
  by_cases hc : info.opClass = .branch
  · refine ⟨fun hno => absurd hc hno, fun _ k hk => ?_⟩
    have hset : ins.flag F ≠ 0 := fun hzero => hk (by rw [clear_eq_self hzero])
    obtain rfl : F = .compare := by
      by_contra hF
      exact hset (flag_of_branch hp hc hF)
    -- The test for zero is the one that sets the bit.
    have hzero : ins.number info flow page (Flag.compare.tag info.opClass) = 0 := by
      simp [number, Flag.tag, hc, show ins.compare ≠ 0 from hset]
    have hone : (ins.clear .compare).number info flow page (Flag.compare.tag info.opClass) = 1 := by
      simp [number, Flag.tag, hc, clear]
    have hword := assemble_eq_or (fun t ht => (number_clear .compare ht).symm) hzero hpos
      (exists_field_of_number_ne_zero hi ((hp.clear .compare).expressed hi) _)
    rw [hone] at hword
    rw [hword] at hk
    refine getLsbD_or_field ?_ hk.symm
    rw [Flag.width, hc]
    decide
  · have hzero : (ins.clear F).number info flow page (F.tag info.opClass) = 0 := by
      rw [number_tag hc]
      cases F <;> rfl
    have hword := assemble_eq_or (fun t ht => number_clear F ht) hzero hpos
      (exists_field_of_number_ne_zero hi (hp.expressed hi) _)
    rw [number_tag hc] at hword
    refine ⟨fun _ => hword, fun hfits k hk => ?_⟩
    rw [hword] at hk
    exact getLsbD_or_field (hfits.resolve_left hc) hk

/-- Adds two registers with a clamp that is too large. -/
def overclamped : Instr :=
  { bare ⟨2⟩ with
    dest := .register 3
    src := #v[.register 1, .register 2, .null, .null]
    clamp := 16 }

/-- The clamp of the sample sets the bit that negates the second source. -/
theorem pack_clear_overclamped : overclamped.pack 0 = .ok 0x00a4c31000000201#64
    ∧ (∃ w₀, (overclamped.clear .clamp).pack 0 = .ok w₀
      ∧ 0x00a4c31000000201#64 = w₀ ||| field 16 32)
    ∧ ((overclamped.clear .clamp).modify (.source 1) (.negate true)).pack 0
      = .ok 0x00a4c31000000201#64 := by
  have hpack : overclamped.pack 0 = .ok 0x00a4c31000000201#64 := by decide +kernel
  obtain ⟨w₀, hclear, hword, -⟩ := pack_clear hpack rfl .clamp
  exact ⟨hpack, ⟨w₀, hclear, hword nofun⟩, by decide +kernel⟩

end Instr

end ShaderCompiler.Machine
