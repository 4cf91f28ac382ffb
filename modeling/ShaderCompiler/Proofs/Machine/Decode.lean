import ShaderCompiler.Proofs.Machine.Layout

/-!
# Reading instructions back from words

A word determines the instruction it was packed from, as far as its operation expresses it. The
operation is found by its bits, together with the secondary code that unary operations share
their bits with. Its layout then tells where the numbers stand, and the numbers give back the
operands, the flags and the fields of the class. The page is stored once for all sources, and
completes the number of every uniform.
-/

namespace ShaderCompiler.Machine

/-! ### The decoder -/

/-- The number with a tag in a word of an operation; what its layout does not have is zero. -/
def OpInfo.fetch (info : OpInfo) (w : Word) (t : Tag) : Nat :=
  (info.layout.find? (·.tag = t)).elim 0 fun p => bitsAt w p.pos p.width

/-- Whether a word has the bits of an operation. -/
def OpInfo.matches (info : OpInfo) (w : Word) : Bool :=
  bitsAt w 48 9 = info.exact ∧ (info.secondary = 0 ∨ bitsAt w 16 8 = info.secondary)

/-- The operation of a word. -/
def Opcode.ofWord? (w : Word) : Option Opcode :=
  (table.findIdx? (·.matches w)).map fun k => ⟨k.toUInt8⟩

/-- The register or slot of a source byte, given the page of the word. -/
def Operand.ofByte (byte page : Nat) : Operand :=
  if byte < 0x80 then
    { Operand.register (byte % 64).toUInt32 with discard := 64 ≤ byte }
  else if byte < 0xc0 then
    .uniform ((byte - 0x80) / 2 + 32 * page).toUInt32 (byte % 2 = 1)
  else if byte < 0xe0 then
    .constant ((byte - 0xc0) / 2).toUInt32 (byte % 2 = 1)
  else
    .plain .special ((byte - 0xe0) / 2).toUInt32 (byte % 2 = 1)

/-- The halves that a mask writes. -/
def Halves.ofMask : Nat → Halves
  | 1 => .h00
  | 2 => .h11
  | _ => .h01

/-- The choice of halves with a number. -/
def LaneMode.halves : LaneMode → Nat → Halves
  | .swizzle, 0 => .h00
  | .swizzle, 1 => .h10
  | .swizzle, 3 => .h11
  | .widen, 1 => .h00
  | .widen, 2 => .h11
  | _, _ => .h01

namespace Instr

/-- Whether a class has staging registers apart from its destination. -/
def staged : OpClass → Bool
  | .store | .texture => true
  | _ => false

/-- The instruction of an operation with the given numbers. -/
def ofNumbers (op : Opcode) (info : OpInfo) (n : Tag → Nat) : Instr where
  op := op
  dest :=
    if info.hasDest then
      { Operand.register (n .dest % 64).toUInt32 with
        halves := if info.opClass = .load then .h01 else .ofMask (n .dest / 64) }
    else .null
  src := Vector.ofFn fun i =>
    (info.srcs[i.val]?).elim .null fun si =>
      { Operand.ofByte (n (.source i)) (n .page) with
        negate := n (.negate i) = 1
        absolute := n (.absolute i) = 1
        invert := n (.invert i) = 1
        halves := si.lanes.halves (n (.halves i)) }
  staging := if staged info.opClass then .register (n .staging % 64).toUInt32 else .null
  count := (n .count).toUInt8
  imm := (n .imm).toUInt32
  offset := .ofBitVec (.ofNat 16 (n .offset))
  branch := .ofInt (BitVec.ofNat 27 (n .distance)).toInt
  target := none
  flow := (n .flow).toUInt8
  clamp := (n .clamp).toUInt8
  round := (n .round).toUInt8
  compare :=
    if info.opClass = .branch then if n .ifZero = 1 then 0 else 3 else (n .compare).toUInt8
  resultType := (n .resultType).toUInt8
  mux := (n .mux).toUInt8
  dimension := (n .dimension).toUInt8
  lodMode := (n .lodMode).toUInt8
  skip := n .skip = 1

/-- The instruction of a word. -/
def decode (w : Word) : Option Instr := do
  let op ← Opcode.ofWord? w
  let info ← op.info.toOption
  return ofNumbers op info (info.fetch w)

/-- What a word keeps of an instruction: operands that its operation does not have and the label
of a target are dropped, and the flow-control action is the one it was packed with. -/
def kept (ins : Instr) (flow : UInt8) : Instr :=
  match ins.op.info with
  | .error _ => ins
  | .ok info =>
      { ins with
        dest := if info.hasDest then ins.dest else .null
        src := Vector.ofFn fun i => if i.val < info.srcs.length then ins.src[i] else .null
        staging := if staged info.opClass then ins.staging else .null
        target := none
        flow := flow }

end Instr

/-! ### Numbers are read back -/

section Fetch

variable {info : OpInfo} {w : Word} {number : Tag → Nat}

theorem bitsAt_of_mem_layout (hi : info.WellLaid) (hfits : ∀ t, number t < 2 ^ t.width) {p : Field Tag}
    (hp : p ∈ info.layout) :
    bitsAt (assemble number info.layout) p.pos p.width = number p.tag := by
  refine bitsAt_assemble hi.apart hi.inside (fun q hq => ?_) hp
  rw [hi.width q hq]
  exact hfits q.tag

/-- The numbers of a word are read back. -/
theorem fetch_assemble (hi : info.WellLaid) (hfits : ∀ t, number t < 2 ^ t.width)
    (habsent : ∀ t, number t ≠ 0 → ∃ p ∈ info.layout, p.tag = t) (t : Tag) :
    info.fetch (assemble number info.layout) t = number t := by
  unfold OpInfo.fetch
  cases hfind : info.layout.find? (·.tag = t) with
  | none =>
    by_contra hne
    obtain ⟨p, hp, htag⟩ := habsent t (Ne.symm hne)
    simpa [htag] using List.find?_eq_none.mp hfind p hp
  | some p =>
    have hp := List.mem_of_find?_eq_some hfind
    obtain rfl : p.tag = t := by simpa using List.find?_some hfind
    exact bitsAt_of_mem_layout hi hfits hp

end Fetch

/-- No two rows of the table have the same bits. -/
theorem Opcode.table_pairwise : table.Pairwise fun row row' => row.exact ≠ row'.exact
    ∨ row.secondary ≠ 0 ∧ row'.secondary ≠ 0 ∧ row.secondary ≠ row'.secondary := by
  decide +kernel

/-- A word with the bits of an operation has this operation. -/
theorem Opcode.ofWord?_of_matches {op : Opcode} {info : OpInfo} {w : Word}
    (hinfo : op.info = .ok info) (hexact : bitsAt w 48 9 = info.exact)
    (hsecondary : info.secondary ≠ 0 → bitsAt w 16 8 = info.secondary) :
    ofWord? w = some op := by
  have hget : table[op.code.toNat]? = some info := by
    unfold Opcode.info at hinfo
    split at hinfo
    · next row hrow => rw [hrow, Except.ok.inj hinfo]
    · cases hinfo
  obtain ⟨hlt, hrow⟩ := List.getElem?_eq_some_iff.mp hget
  have hfind : table.findIdx? (·.matches w) = some op.code.toNat := by
    rw [List.findIdx?_eq_some_iff_getElem]
    refine ⟨hlt, ?_, fun j hj => ?_⟩
    · rw [hrow]
      simp only [OpInfo.matches, hexact, true_and, decide_eq_true_eq]
      exact or_iff_not_imp_left.mpr hsecondary
    · rw [OpInfo.matches, decide_eq_true_eq]
      rintro ⟨hexact', hsecondary'⟩
      have hpair := List.pairwise_iff_getElem.mp table_pairwise j _ (hj.trans hlt) hlt hj
      rw [hrow] at hpair
      rcases hpair with hne | ⟨hne₁, hne₂, hne⟩
      · exact hne (hexact'.symm.trans hexact)
      · exact hne ((hsecondary'.resolve_left hne₁).symm.trans (hsecondary hne₂))
  rw [ofWord?, hfind, Option.map_some]
  congr 2
  exact UInt8.ofNat_toNat

/-! ### Operands are read back -/

section Operands

variable {s : Operand} {page : Nat}

theorem Operand.ofByte_byte (h : s.Addressable)
    (hpage : s.isFastAccess = true → s.page = page)
    (hdiscard : s.discard = true → s.kind = .register) :
    Operand.ofByte s.byte page
      = { s with negate := false, absolute := false, invert := false, halves := .h01 } := by
  obtain ⟨hupper, hrange⟩ := h
  obtain ⟨kind, value, upper, discard, negate, absolute, invert, halves⟩ := s
  have hu := Bool.toNat_lt upper
  have hword : upper.toNat = 1 ↔ upper = true := by cases upper <;> decide
  have back {n : Nat} (hn : n = value.toNat) : n.toUInt32 = value := by
    rw [hn]
    exact UInt32.ofNat_toNat
  simp only [byte, isFastAccess, Operand.page] at hupper hpage hdiscard hrange ⊢
  cases kind with
  | register =>
    have hdis : 64 ≤ value.toNat + 64 * discard.toNat ↔ discard = true := by
      cases discard
      · simpa using hrange
      · simp
    have hd := Bool.toNat_lt discard
    have hup : upper = false := by simpa using hupper
    simp only [ofByte, if_pos (show value.toNat + 64 * discard.toNat < 0x80 by omega),
      back (show (value.toNat + 64 * discard.toNat) % 64 = value.toNat by omega), hdis, hup]
    simp [register, plain]
  | uniform =>
    have hdis : discard = false := by simpa using hdiscard
    have hrange : value.toNat < 128 := hrange
    have hp : value.toNat / 32 % 256 = page := hpage rfl
    have hval : (0x80 + 2 * (value.toNat % 32) + upper.toNat - 0x80) / 2 + 32 * page
        = value.toNat := by omega
    have hodd : (0x80 + 2 * (value.toNat % 32) + upper.toNat) % 2 = 1 ↔ upper = true := by
      rw [← hword]
      omega
    simp only [ofByte, if_neg (show ¬ 0x80 + 2 * (value.toNat % 32) + upper.toNat < 0x80 by omega),
      if_pos (show 0x80 + 2 * (value.toNat % 32) + upper.toNat < 0xc0 by omega), back hval, hodd,
      hdis]
    simp [uniform, plain]
  | constant =>
    have hdis : discard = false := by simpa using hdiscard
    have hval : (0xc0 + 2 * value.toNat + upper.toNat - 0xc0) / 2 = value.toNat := by omega
    have hodd : (0xc0 + 2 * value.toNat + upper.toNat) % 2 = 1 ↔ upper = true := by
      rw [← hword]
      omega
    simp only [ofByte, if_neg (show ¬ 0xc0 + 2 * value.toNat + upper.toNat < 0x80 by omega),
      if_neg (show ¬ 0xc0 + 2 * value.toNat + upper.toNat < 0xc0 by omega),
      if_pos (show 0xc0 + 2 * value.toNat + upper.toNat < 0xe0 by omega), back hval, hodd, hdis]
    simp [constant, plain]
  | special =>
    have hdis : discard = false := by simpa using hdiscard
    have hval : (0xe0 + 2 * value.toNat + upper.toNat - 0xe0) / 2 = value.toNat := by omega
    have hodd : (0xe0 + 2 * value.toNat + upper.toNat) % 2 = 1 ↔ upper = true := by
      rw [← hword]
      omega
    simp only [ofByte, if_neg (show ¬ 0xe0 + 2 * value.toNat + upper.toNat < 0x80 by omega),
      if_neg (show ¬ 0xe0 + 2 * value.toNat + upper.toNat < 0xc0 by omega),
      if_neg (show ¬ 0xe0 + 2 * value.toNat + upper.toNat < 0xe0 by omega), back hval, hodd, hdis]
    simp [plain]
  | null => exact hrange.elim
  | unknown => exact hrange.elim

theorem LaneMode.halves_code? {m : LaneMode} {h : Halves} {c : Nat} (hc : m.code? h = some c) :
    m.halves c = h := by
  unfold LaneMode.code? at hc
  split at hc <;> cases hc <;> rfl

theorem Halves.ofMask_mask {h : Halves} (hm : h.mask ≠ 0) : Halves.ofMask h.mask = h := by
  cases h <;> simp_all [Halves.mask, Halves.ofMask]

/-- A register is read back from its number and the halves. -/
theorem Operand.Bare.eq_register (h : s.Bare) {n : Nat} (hn : n % 64 = s.value.toNat) :
    { Operand.register (n % 64).toUInt32 with halves := s.halves } = s := by
  obtain ⟨kind, value, upper, discard, negate, absolute, invert, halves⟩ := s
  obtain ⟨hkind, -, hneg, habs, hinv, hdis, hupper⟩ := h
  dsimp only at hkind hneg habs hinv hdis hupper hn ⊢
  subst hkind hneg habs hinv hdis hupper
  simp only [register, plain, hn, mk.injEq, true_and, and_true]
  exact UInt32.ofNat_toNat

end Operands

namespace Instr

variable {ins : Instr} {info : OpInfo} {flow : UInt8} {page : Nat}

/-- A distance within reach is read back. -/
theorem toInt_ofInt_of_reach {d : Int} (h : -branchReach ≤ d ∧ d < branchReach) :
    (BitVec.ofInt 27 d).toInt = d := by
  unfold branchReach at h
  rw [BitVec.toInt_ofInt]
  exact Int.bmod_eq_of_le (by omega) (by omega)

/-- The numbers of an instruction give back what a word keeps of it. -/
theorem ofNumbers_number (hinfo : ins.op.info = .ok info) (hi : info.WellLaid)
    (he : ins.Expressed info) (hd : ins.Declared)
    (hpage : ∀ (i : Nat) si, info.srcs[i]? = some si → (ins.srcAt i).isFastAccess = true →
      (ins.srcAt i).page = page) :
    ofNumbers ins.op info (ins.number info flow page) = ins.kept flow := by
  have hown := he.own
  unfold OwnFit at hown
  simp only [ofNumbers, kept, hinfo, mk.injEq, true_and]
  refine ⟨?_, congrArg Vector.ofFn (funext fun i => ?_), ?_, UInt8.ofNat_toNat, UInt32.ofNat_toNat,
    ?_, ?_, UInt8.ofNat_toNat, UInt8.ofNat_toNat, UInt8.ofNat_toNat, ?_, UInt8.ofNat_toNat,
    UInt8.ofNat_toNat, UInt8.ofNat_toNat, UInt8.ofNat_toNat, ?_⟩
  · split
    case isFalse => rfl
    case isTrue hdest =>
      have hmasked (h : ins.dest.Bare ∧ ins.dest.halves.mask ≠ 0) (hc : info.opClass ≠ .load) :
          { Operand.register (ins.number info flow page .dest % 64).toUInt32 with
            halves := .ofMask (ins.number info flow page .dest / 64) } = ins.dest := by
        have hmask := ins.dest.halves.mask_lt
        have hvalue := h.1.value
        have hn : ins.number info flow page .dest
            = ins.dest.value.toNat + 64 * ins.dest.halves.mask := by
          simp [number, hdest, hc]
        rw [hn, show (ins.dest.value.toNat + 64 * ins.dest.halves.mask) / 64
          = ins.dest.halves.mask by omega, Halves.ofMask_mask h.2]
        exact h.1.eq_register (by omega)
      rcases hi.hasDest.mp hdest with hc | hc | hc | hc <;> simp only [hc] at hown
      · simpa [hc] using hmasked hown (by simp [hc])
      · simpa [hc] using hmasked hown (by simp [hc])
      · have hvalue := hown.1.value
        simp only [number, hdest, hc, if_true]
        rw [← hown.2]
        exact hown.1.eq_register (by omega)
      · simpa [hc] using hmasked hown.1 (by simp [hc])
  · cases hsi : info.srcs[i.val]? with
    | none => rw [if_neg (by simpa using hsi)]; rfl
    | some si =>
      have hlt := (List.getElem?_eq_some_iff.mp hsi).1
      have hsrc : ins.srcAt i = ins.src[i] := by
        simp [srcAt]
      have htakes := he.takes i si hsi
      obtain ⟨c, hc⟩ := htakes.halves
      have hbool (b : Bool) : decide (b.toNat = 1) = b := by cases b <;> rfl
      have hbyte := Operand.ofByte_byte htakes.addressable (hpage i si hsi)
        (hd.discard _ (by rw [hsrc]; simp))
      rw [if_pos hlt, ← hsrc]
      simp only [number, hsi, Option.elim_some, hc, Option.getD_some, hbyte, hbool,
        LaneMode.halves_code? hc]
  · split
    case isFalse => rfl
    case isTrue hstaged =>
      have hc : info.opClass = .store ∨ info.opClass = .texture := by
        cases hc : info.opClass <;> simp [hc, staged] at hstaged ⊢
      have hbare : ins.staging.Bare ∧ ins.staging.halves = .h01 := by
        rcases hc with hc | hc <;> simp only [hc] at hown
        exacts [hown, hown.2.1]
      have hvalue := hbare.1.value
      simp only [number, if_pos hc]
      refine Eq.trans ?_ (hbare.1.eq_register (n := ins.staging.value.toNat + 64) (by omega))
      rw [hbare.2]
      rfl
  · simp [number]
  · simp only [number, BitVec.ofNat_toNat, BitVec.setWidth_eq]
    by_cases hc : info.opClass = .branch
    · simp only [hc] at hown
      rw [toInt_ofInt_of_reach hown.2, Int32.ofInt_toInt]
    · rw [he.fields.branch hc]
      rfl
  · by_cases hc : info.opClass = .branch
    · simp only [hc] at hown
      rcases hown.1 with hzero | hthree
      · simp [number, hc, hzero]
      · simp [number, hc, hthree]
    · simp [number, hc]
  · cases hskip : ins.skip <;> simp [number, hskip]

/-- Packing loses nothing: the word of an instruction whose flags are declared constants gives
back everything that its operation expresses, and no other such instruction has the same word. -/
theorem decode_pack {w : Word} (h : ins.pack flow = .ok w) (hd : ins.Declared) :
    decode w = some (ins.kept flow) ∧ ∀ (ins' : Instr) (flow' : UInt8), ins'.Declared →
      ins'.pack flow' = .ok w → ins'.kept flow' = ins.kept flow := by
  have hback {ins : Instr} {flow : UInt8} (h : ins.pack flow = .ok w) (hd : ins.Declared) :
      decode w = some (ins.kept flow) := by
    obtain ⟨info, page, hinfo, hi, he, hflow, hpage, hshared, rfl⟩ := pack_eq_ok h
    have hlt := number_lt hi he hd.narrow hflow hpage
    have hfetch := fetch_assemble hi hlt (exists_field_of_number_ne_zero hi he)
    have hop : Opcode.ofWord? (assemble (ins.number info flow page) info.layout) = some ins.op := by
      refine Opcode.ofWord?_of_matches hinfo ?_ fun hne => ?_
      · exact bitsAt_of_mem_layout hi hlt (p := Tag.exact.field 48) (by simp [OpInfo.layout])
      · have hclass : info.opClass = .alu := by
          by_contra hc
          exact hne (hi.unary hc)
        exact bitsAt_of_mem_layout hi hlt (p := Tag.secondary.field 16)
          (by simp [OpInfo.layout, OpInfo.classFields, hclass, hne])
    simp only [decode, hop, hinfo, Option.bind_eq_bind, Option.bind_some, Except.toOption,
      funext hfetch, ofNumbers_number hinfo hi he hd hshared]
    rfl
  refine ⟨hback h hd, fun ins' flow' hd' h' => ?_⟩
  exact Option.some.inj ((hback h' hd').symm.trans (hback h hd))

/-- Multiplies a uniform with the opposite of another one, and adds a register that is not needed
any more. -/
def fused : Instr :=
  { bare ⟨4⟩ with
    dest := .register 3
    src := #v[.uniform 37 true, (Operand.uniform 40 false).negated,
      (Operand.register 5).discarded, .null]
    clamp := 1
    round := 2 }

/-- The word of the sample gives it back, with both uniforms of page one. -/
theorem decode_pack_fused : fused.pack 13 = .ok 0x6ab2c3118045908b#64
    ∧ decode 0x6ab2c3118045908b#64 = some { fused with flow := 13 } := by
  have hpack : fused.pack 13 = .ok 0x6ab2c3118045908b#64 := by decide +kernel
  have hd : fused.Declared :=
    ⟨by decide, by decide, by decide, by decide, by decide, by decide, by decide +kernel⟩
  exact ⟨hpack, (decode_pack hpack hd).1⟩

end Instr

end ShaderCompiler.Machine
