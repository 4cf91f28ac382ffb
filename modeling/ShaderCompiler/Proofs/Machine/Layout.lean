import ShaderCompiler.Proofs.Edit
import ShaderCompiler.Proofs.Machine.Fields

/-!
# Layouts of instruction words

The row of an operation determines the layout of its words: which numbers stand in them, where,
and how many bits they have. An instruction that is packed gives every number of the layout a
value that fits, and every number outside the layout is zero.
-/

namespace ShaderCompiler.Machine

variable {why : Refusal} {y : Unit} {b : Nat} {w : Word} {l : List Operand} {op : Opcode}

/-- The numbers that a word can hold; sources are counted from zero. -/
inductive Tag where
  | exact
  | page
  | flow
  | source (i : Nat)
  | negate (i : Nat)
  | absolute (i : Nat)
  | invert (i : Nat)
  | halves (i : Nat)
  | clamp
  | round
  | resultType
  | compare
  | mux
  | secondary
  | dest
  | staging
  /-- The full write that stands in place of a destination. -/
  | full
  | imm
  | offset
  | count
  | lodMode
  | dimension
  | skip
  | distance
  | ifZero
deriving DecidableEq

/-- The number of bits that a number has in every layout. -/
def Tag.width : Tag → Nat
  | .exact => 9
  | .page | .clamp | .round | .resultType | .mux | .dimension | .halves _ => 2
  | .flow => 4
  | .negate _ | .absolute _ | .invert _ | .skip | .ifZero => 1
  | .compare | .count | .lodMode => 3
  | .source _ | .secondary | .dest | .staging | .full => 8
  | .offset => 16
  | .distance => 27
  | .imm => 32

/-! ### Layouts -/

/-- The field of a number at a position. -/
def Tag.field (t : Tag) (pos : Nat) : Field Tag :=
  ⟨t, pos, t.width⟩

@[simp] theorem Tag.field_tag (t : Tag) (pos : Nat) : (t.field pos).tag = t := rfl

@[simp] theorem Tag.field_pos (t : Tag) (pos : Nat) : (t.field pos).pos = pos := rfl

/-- The fields of source `i`. -/
def SourceInfo.fields (si : SourceInfo) (i : Nat) : List (Field Tag) :=
  [(Tag.source i).field (8 * i)]
    ++ (if si.absneg then [(Tag.negate i).field (Instr.signPos i)] else [])
    ++ (if si.absneg then [(Tag.absolute i).field (Instr.signPos i + 1)] else [])
    ++ (if si.notted then [(Tag.invert i).field 35] else [])
    ++ (if si.lanes ≠ .none then [(Tag.halves i).field si.lanePos] else [])

namespace OpInfo

/-- The fields of the sources. -/
def sourceFields (info : OpInfo) : List (Field Tag) :=
  info.srcs.zipIdx.flatMap fun p => p.1.fields p.2

/-- The fields of the flags. -/
def flagFields (info : OpInfo) : List (Field Tag) :=
  (if info.clamp then [Tag.clamp.field 32] else [])
    ++ (if info.round then [Tag.round.field 30] else [])
    ++ (if info.resultType then [Tag.resultType.field 30] else [])
    ++ (if info.compare then [Tag.compare.field 32] else [])
    ++ (if info.mux then [Tag.mux.field 32] else [])

/-- The fields of a class apart from the sources. -/
def classFields (info : OpInfo) : List (Field Tag) :=
  match info.opClass with
  | .nop => [Tag.full.field Instr.destPos]
  | .alu => info.flagFields ++ (if info.secondary ≠ 0 then [Tag.secondary.field 16] else [])
      ++ [Tag.dest.field Instr.destPos]
  | .immediate => [Tag.imm.field 8, Tag.dest.field Instr.destPos]
  | .load => [Tag.offset.field 8, Tag.dest.field Instr.destPos]
  | .store => [Tag.offset.field 8, Tag.staging.field Instr.destPos]
  | .texture => [Tag.lodMode.field 13, Tag.dimension.field 28, Tag.count.field 33,
      Tag.skip.field 39, Tag.dest.field 16, Tag.staging.field Instr.destPos]
  | .branch => [Tag.distance.field 8, Tag.ifZero.field 36, Tag.full.field Instr.destPos]

/-- The fields of the words of an operation. -/
def layout (info : OpInfo) : List (Field Tag) :=
  info.sourceFields ++ info.classFields ++ [Tag.exact.field 48, Tag.page.field 57, Tag.flow.field 59]

/-- What the layouts rest on: the fields of a row do not overlap and its bits fit, classes have
the sources and the destination that their layouts expect. -/
structure WellLaid (info : OpInfo) : Prop where
  apart : info.layout.Pairwise Field.Apart
  inside : ∀ p ∈ info.layout, p.pos + p.width ≤ 64
  width : ∀ p ∈ info.layout, p.width = p.tag.width
  exact : info.exact < 512
  secondary : info.secondary < 256
  unary : info.opClass ≠ .alu → info.secondary = 0
  srcs : info.srcs.length ≤ 4
  none : info.opClass = .nop → info.srcs = []
  one : info.opClass = .immediate ∨ info.opClass = .branch →
    ∃ si, info.srcs = [si] ∧ si.registerOnly = false
  hasDest : info.hasDest = true ↔ info.opClass = .alu ∨ info.opClass = .immediate
    ∨ info.opClass = .load ∨ info.opClass = .texture
  flags : info.opClass ≠ .alu → info.opClass ≠ .branch → info.compare = false

/-- The rows of the table are laid out well. -/
theorem wellLaid {info : OpInfo} (h : info ∈ Opcode.table) : info.WellLaid := by
  have hlists : ∀ row ∈ Opcode.table, row.layout.Pairwise Field.Apart
      ∧ (∀ p ∈ row.layout, p.pos + p.width ≤ 64)
      ∧ ∀ p ∈ row.layout, p.width = p.tag.width := by
    decide +kernel
  have hrest : ∀ row ∈ Opcode.table, row.exact < 512 ∧ row.secondary < 256
      ∧ (row.opClass ≠ .alu → row.secondary = 0) ∧ row.srcs.length ≤ 4
      ∧ (row.opClass = .nop → row.srcs = [])
      ∧ (row.opClass = .immediate ∨ row.opClass = .branch → row.srcs.length = 1)
      ∧ (row.opClass = .immediate ∨ row.opClass = .branch → ∀ si ∈ row.srcs, si.registerOnly = false)
      ∧ (row.hasDest = true ↔ row.opClass = .alu ∨ row.opClass = .immediate
        ∨ row.opClass = .load ∨ row.opClass = .texture)
      ∧ (row.opClass ≠ .alu → row.opClass ≠ .branch → row.compare = false) := by
    decide +kernel
  obtain ⟨h₁, h₂, h₃⟩ := hlists info h
  obtain ⟨h₄, h₅, h₆, h₇, h₈, h₉, hany, h₁₀, h₁₁⟩ := hrest info h
  refine ⟨h₁, h₂, h₃, h₄, h₅, h₆, h₇, h₈, fun hc => ?_, h₁₀, h₁₁⟩
  obtain ⟨si, hsi⟩ := List.length_eq_one_iff.mp (h₉ hc)
  exact ⟨si, hsi, hany hc si (by simp [hsi])⟩

end OpInfo

/-! ### Numbers -/

/-- The byte of a source. -/
def Operand.byte (s : Operand) : Nat :=
  match s.kind with
  | .register => s.value.toNat + 64 * s.discard.toNat
  | .uniform => 0x80 + 2 * (s.value.toNat % 32) + s.upper.toNat
  | .constant => 0xc0 + 2 * s.value.toNat + s.upper.toNat
  | .special => 0xe0 + 2 * s.value.toNat + s.upper.toNat
  | .null | .unknown _ => 0

/-- The mask of the halves that a destination writes. -/
def Halves.mask : Halves → Nat
  | .h01 => 3
  | .h00 => 1
  | .h11 => 2
  | .h10 | .unknown _ => 0

theorem Halves.mask_lt (h : Halves) : h.mask < 4 := by
  cases h <;> simp [mask]

/-- The number of a choice of halves, if the mode can express it. -/
def LaneMode.code? : LaneMode → Halves → Option Nat
  | .swizzle, .h00 => some 0
  | .swizzle, .h10 => some 1
  | .swizzle, .h01 => some 2
  | .swizzle, .h11 => some 3
  | .widen, .h01 => some 0
  | .widen, .h00 => some 1
  | .widen, .h11 => some 2
  | .none, .h01 => some 0
  | _, _ => Option.none

theorem LaneMode.getD_code?_lt (m : LaneMode) (h : Halves) : (m.code? h).getD 0 < 4 := by
  cases m <;> cases h <;> simp [code?]

namespace Instr

/-- Source `i`, which is missing past the last one. -/
def srcAt (ins : Instr) (i : Nat) : Operand :=
  ins.src[i]?.getD .null

/-- The numbers of an instruction whose sources share a page. -/
def number (ins : Instr) (info : OpInfo) (flow : UInt8) (page : Nat) : Tag → Nat
  | .exact => info.exact
  | .page => page
  | .flow => flow.toNat
  | .source i => (info.srcs[i]?).elim 0 fun _ => (ins.srcAt i).byte
  | .negate i => (info.srcs[i]?).elim 0 fun _ => (ins.srcAt i).negate.toNat
  | .absolute i => (info.srcs[i]?).elim 0 fun _ => (ins.srcAt i).absolute.toNat
  | .invert i => (info.srcs[i]?).elim 0 fun _ => (ins.srcAt i).invert.toNat
  | .halves i => (info.srcs[i]?).elim 0 fun si => (si.lanes.code? (ins.srcAt i).halves).getD 0
  | .clamp => ins.clamp.toNat
  | .round => ins.round.toNat
  | .resultType => ins.resultType.toNat
  | .compare => if info.opClass = .branch then 0 else ins.compare.toNat
  | .mux => ins.mux.toNat
  | .secondary => info.secondary
  | .dest =>
      if info.hasDest then
        if info.opClass = .load then ins.dest.value.toNat + 128
        else ins.dest.value.toNat + 64 * ins.dest.halves.mask
      else 0
  | .staging =>
      if info.opClass = .store ∨ info.opClass = .texture then ins.staging.value.toNat + 64 else 0
  | .full => if info.opClass = .nop ∨ info.opClass = .branch then 0xc0 else 0
  | .imm => ins.imm.toNat
  | .offset => ins.offset.toBitVec.toNat
  | .count => ins.count.toNat
  | .lodMode => ins.lodMode.toNat
  | .dimension => ins.dimension.toNat
  | .skip => ins.skip.toNat
  | .distance => (BitVec.ofInt 27 ins.branch.toInt).toNat
  | .ifZero => if info.opClass = .branch ∧ ins.compare = 0 then 1 else 0

/-! ### Operands -/

variable {ins : Instr} {info : OpInfo} {si : SourceInfo} {s : Operand} {i : Nat}

@[simp] theorem refuseIf_eq_ok {c : Prop} [Decidable c] :
    ins.refuseIf c why = .ok y ↔ ¬ c := by
  unfold refuseIf refuse
  split <;> simp_all

@[simp] theorem refuse_eq_ok {α : Type} {y : α} :
    (ins.refuse why : Except Fault α) = .ok y ↔ False := by
  simp [refuse]

end Instr

variable {ins : Instr} {info : OpInfo} {si : SourceInfo} {s : Operand} {i : Nat}

/-- The operand has a byte: its number is in range, and only fast-access values have an upper
word. -/
def Operand.Addressable (s : Operand) : Prop :=
  (s.upper = true → s.isFastAccess = true) ∧
    match s.kind with
    | .register => s.value.toNat < 64
    | .uniform => s.value.toNat < 128
    | .constant | .special => s.value.toNat < 16
    | .null | .unknown _ => False

/-- The operand is a register without modifiers, a choice of halves apart. -/
structure Operand.Bare (s : Operand) : Prop where
  kind : s.kind = .register
  value : s.value.toNat < 64
  negate : s.negate = false
  absolute : s.absolute = false
  invert : s.invert = false
  discard : s.discard = false
  upper : s.upper = false

theorem Operand.bare_iff : s.Bare ↔ (s.kind = .register ∧ s.value.toNat < 64)
    ∧ (s.negate || s.absolute || s.invert || s.discard || s.upper) = false := by
  simp only [Bool.or_eq_false_iff]
  constructor
  · rintro ⟨hkind, hvalue, hneg, habs, hinv, hdis, hupper⟩
    exact ⟨⟨hkind, hvalue⟩, ⟨⟨⟨hneg, habs⟩, hinv⟩, hdis⟩, hupper⟩
  · rintro ⟨⟨hkind, hvalue⟩, ⟨⟨⟨hneg, habs⟩, hinv⟩, hdis⟩, hupper⟩
    exact ⟨hkind, hvalue, hneg, habs, hinv, hdis, hupper⟩

/-- The source of an operation can express the operand. -/
structure SourceInfo.Takes (si : SourceInfo) (s : Operand) : Prop where
  addressable : s.Addressable
  sign : s.negate = true ∨ s.absolute = true → si.absneg = true
  invert : s.invert = true → si.notted = true
  halves : ∃ c, si.lanes.code? s.halves = some c

namespace Instr

theorem sourceBits_eq_ok : ins.sourceBits s = .ok b ↔ s.Addressable ∧ s.byte = b := by
  unfold sourceBits Operand.Addressable Operand.byte
  cases hkind : s.kind <;> simp [hkind, Operand.isFastAccess, and_assoc]

theorem destBits_eq_ok : ins.destBits s = .ok b ↔
    s.Bare ∧ s.halves.mask ≠ 0 ∧ s.value.toNat + 64 * s.halves.mask = b := by
  rw [Operand.bare_iff]
  unfold destBits
  cases s.halves <;> simp [Halves.mask, and_assoc]

theorem stagingBits_eq_ok {write : Bool} : ins.stagingBits s write = .ok b ↔
    s.Bare ∧ s.halves = .h01 ∧ s.value.toNat + (if write then 128 else 64) = b := by
  rw [Operand.bare_iff]
  unfold stagingBits
  simp [and_assoc]

theorem laneBits_eq_ok : ins.laneBits si s = .ok w ↔
    ∃ c, si.lanes.code? s.halves = some c ∧ field c si.lanePos = w := by
  unfold laneBits
  cases si.lanes <;> cases s.halves <;> simp [LaneMode.code?]

theorem modifierBits_eq_ok (h : ins.modifierBits i si s = .ok w) :
    (s.negate = true ∨ s.absolute = true → si.absneg = true)
      ∧ (s.invert = true → si.notted = true) ∧ ∃ c, si.lanes.code? s.halves = some c
      ∧ w = field s.negate.toNat (signPos i) ||| field s.absolute.toNat (signPos i + 1)
        ||| field s.invert.toNat 35 ||| field c si.lanePos := by
  simp only [modifierBits, except_bind_eq_ok, refuseIf_eq_ok, laneBits_eq_ok,
    except_pure_eq_ok] at h
  obtain ⟨-, hsign, -, hinvert, _, ⟨c, hc, rfl⟩, rfl⟩ := h
  refine ⟨fun h => ?_, fun h => ?_, c, hc, rfl⟩
  · simpa [h] using hsign
  · simpa [h] using hinvert

/-! ### Sources -/

section Sources

variable (flow : UInt8) (page : Nat)

/-- The bits of one source are its fields. -/
theorem assemble_fields (hsi : info.srcs[i]? = some si) {byte : Nat}
    (hbyte : ins.sourceBits (ins.srcAt i) = .ok byte)
    (hw : ins.modifierBits i si (ins.srcAt i) = .ok w) :
    si.Takes (ins.srcAt i)
      ∧ field byte (8 * i) ||| w = assemble (ins.number info flow page) (si.fields i) := by
  obtain ⟨haddr, rfl⟩ := sourceBits_eq_ok.mp hbyte
  obtain ⟨hsign, hinvert, c, hc, rfl⟩ := modifierBits_eq_ok hw
  refine ⟨⟨haddr, hsign, hinvert, c, hc⟩, ?_⟩
  have hneg : ¬ si.absneg = true → (ins.srcAt i).negate = false := fun h =>
    Bool.eq_false_iff.mpr fun hn => h (hsign (.inl hn))
  have habs : ¬ si.absneg = true → (ins.srcAt i).absolute = false := fun h =>
    Bool.eq_false_iff.mpr fun ha => h (hsign (.inr ha))
  have hinv : ¬ si.notted = true → (ins.srcAt i).invert = false := fun h =>
    Bool.eq_false_iff.mpr fun hi => h (hinvert hi)
  have hlanes : ¬ si.lanes ≠ .none → c = 0 := fun h => by
    rw [not_not.mp h] at hc
    unfold LaneMode.code? at hc
    split at hc <;> simp_all
  simp only [SourceInfo.fields, assemble_append, assemble_cons, assemble_nil, BitVec.or_zero]
  rw [assemble_ite, assemble_ite, assemble_ite, assemble_ite]
  · simp only [Tag.field_tag, Tag.field_pos, number, hsi, hc, Option.elim_some, Option.getD_some,
      BitVec.or_assoc]
  · simpa [number, hsi, hc] using hlanes
  · simpa [number, hsi] using hinv
  · simpa [number, hsi] using habs
  · simpa [number, hsi] using hneg

/-- The bits of the sources from position `k` on are their fields. -/
theorem sourcesBits_eq_assemble {k : Nat}
    (hl : ∀ j s, l[j]? = some s → ins.srcAt (k + j) = s)
    (hlen : info.srcs.length ≤ k + l.length)
    (h : ins.sourcesBits info (l.zipIdx k) = .ok w) :
    (∀ i si, k ≤ i → info.srcs[i]? = some si → si.Takes (ins.srcAt i))
      ∧ w = assemble (ins.number info flow page)
        (((info.srcs.drop k).zipIdx k).flatMap fun p => p.1.fields p.2) := by
  induction l generalizing k w with
  | nil =>
    rw [List.length_nil, Nat.add_zero] at hlen
    simp only [List.zipIdx_nil, sourcesBits, except_pure_eq_ok] at h
    refine ⟨fun i si hi hsi => ?_, by simp [List.drop_of_length_le hlen, ← h]⟩
    have := (List.getElem?_eq_some_iff.mp hsi).1
    omega
  | cons s l ih =>
    have hs : ins.srcAt k = s := hl 0 s rfl
    have hl' : ∀ j s, l[j]? = some s → ins.srcAt (k + 1 + j) = s := fun j t hj => by
      rw [Nat.add_assoc, Nat.add_comm 1]
      exact hl (j + 1) t (by rwa [List.getElem?_cons_succ])
    have hlen' : info.srcs.length ≤ k + 1 + l.length := by
      rw [List.length_cons] at hlen
      omega
    rw [List.zipIdx_cons, sourcesBits] at h
    cases hsi : info.srcs[k]? with
    | none =>
      simp only [hsi, except_bind_eq_ok] at h
      obtain ⟨-, -, h⟩ := h
      obtain ⟨htakes, hw⟩ := ih hl' hlen' h
      have hle := List.getElem?_eq_none_iff.mp hsi
      refine ⟨fun i si hi hsi => ?_, ?_⟩
      · have := (List.getElem?_eq_some_iff.mp hsi).1
        omega
      · rw [hw, List.drop_of_length_le hle, List.drop_of_length_le (Nat.le_succ_of_le hle)]
        rfl
    | some si =>
      simp only [hsi, except_bind_eq_ok, except_pure_eq_ok] at h
      obtain ⟨-, -, byte, hbyte, mods, hmods, rest, hrest, rfl⟩ := h
      obtain ⟨htakes, rfl⟩ := ih hl' hlen' hrest
      rw [← hs] at hbyte hmods
      obtain ⟨htake, hfields⟩ := assemble_fields flow page hsi hbyte hmods
      refine ⟨fun i si' hi hsi' => ?_, ?_⟩
      · rcases Nat.eq_or_lt_of_le hi with rfl | hlt
        · cases hsi.symm.trans hsi'
          exact htake
        · exact htakes i si' hlt hsi'
      · obtain ⟨hk, hget⟩ := List.getElem?_eq_some_iff.mp hsi
        rw [hfields, List.drop_eq_getElem_cons hk, hget, List.zipIdx_cons, List.flatMap_cons,
          assemble_append]

theorem allSourcesBits_eq_assemble (hlen : info.srcs.length ≤ 4)
    (h : ins.allSourcesBits info = .ok w) :
    (∀ (i : Nat) si, info.srcs[i]? = some si → si.Takes (ins.srcAt i))
      ∧ w = assemble (ins.number info flow page) info.sourceFields := by
  have hl : ∀ j s, ins.src.toList[j]? = some s → ins.srcAt (0 + j) = s := fun j s hj => by
    rw [Vector.getElem?_toList] at hj
    rw [Nat.zero_add, srcAt, hj]
    rfl
  obtain ⟨htakes, rfl⟩ := sourcesBits_eq_assemble flow page hl
    (by simpa using hlen) h
  exact ⟨fun i si => htakes i si (Nat.zero_le i), rfl⟩

theorem firstSourceBits_eq_assemble (hsrcs : info.srcs = [si])
    (h : ins.firstSourceBits info = .ok w) :
    (∀ (i : Nat) si, info.srcs[i]? = some si → si.Takes (ins.srcAt i))
      ∧ w = assemble (ins.number info flow page) info.sourceFields := by
  simp only [firstSourceBits, hsrcs, List.headD_cons, except_bind_eq_ok, except_pure_eq_ok] at h
  obtain ⟨byte, hbyte, mods, hmods, rfl⟩ := h
  have hsi : info.srcs[0]? = some si := by rw [hsrcs]; rfl
  obtain ⟨htake, hfields⟩ := assemble_fields flow page hsi hbyte hmods
  refine ⟨fun i si' hsi' => ?_, ?_⟩
  · rw [hsrcs] at hsi'
    cases i with
    | zero =>
      cases hsi'
      exact htake
    | succ i => simp at hsi'
  · rw [Nat.mul_zero] at hfields
    rw [hfields, OpInfo.sourceFields, hsrcs]
    simp

end Sources

/-! ### Classes -/

/-- Operands and fields that the class does not have are empty. -/
structure FieldsFit (ins : Instr) (info : OpInfo) : Prop where
  dest : info.hasDest = false → ins.dest.isNull = true
  imm : info.opClass ≠ .immediate → ins.imm = 0
  offset : info.opClass ≠ .load → info.opClass ≠ .store → ins.offset = 0
  branch : info.opClass ≠ .branch → ins.branch = 0
  target : info.opClass ≠ .branch → ins.target = none
  texture : info.opClass ≠ .texture →
    ins.skip = false ∧ ins.count = 0 ∧ ins.lodMode = 0 ∧ ins.dimension = 0
  staging : info.opClass ≠ .store → info.opClass ≠ .texture → ins.staging.isNull = true

/-- Flags that the operation does not have are zero. -/
structure FlagsFit (ins : Instr) (info : OpInfo) : Prop where
  clamp : info.opClass ≠ .alu ∨ info.clamp = false → ins.clamp = 0
  round : info.opClass ≠ .alu ∨ info.round = false → ins.round = 0
  resultType : info.opClass ≠ .alu ∨ info.resultType = false → ins.resultType = 0
  mux : info.opClass ≠ .alu ∨ info.mux = false → ins.mux = 0
  compare : info.opClass ≠ .branch → info.opClass ≠ .alu ∨ info.compare = false → ins.compare = 0

/-- The fields that the class has are in range. -/
def OwnFit (ins : Instr) (info : OpInfo) : Prop :=
  match info.opClass with
  | .nop => True
  | .alu | .immediate => ins.dest.Bare ∧ ins.dest.halves.mask ≠ 0
  | .load => ins.dest.Bare ∧ ins.dest.halves = .h01
  | .store => ins.staging.Bare ∧ ins.staging.halves = .h01
  | .texture => (ins.dest.Bare ∧ ins.dest.halves.mask ≠ 0)
      ∧ (ins.staging.Bare ∧ ins.staging.halves = .h01) ∧ (ins.count ≠ 0 ∧ ins.count ≤ 4)
      ∧ ins.lodMode ≤ 6 ∧ ins.lodMode ≠ 2 ∧ ins.lodMode ≠ 3
  | .branch => (ins.compare = 0 ∨ ins.compare = 3)
      ∧ -branchReach ≤ ins.branch.toInt ∧ ins.branch.toInt < branchReach

/-- What holds of an instruction that its operation can express: what the operation has is in
range, and all else is zero. -/
structure Expressed (ins : Instr) (info : OpInfo) : Prop where
  takes : ∀ (i : Nat) si, info.srcs[i]? = some si → si.Takes (ins.srcAt i)
  own : ins.OwnFit info
  fields : ins.FieldsFit info
  flags : ins.FlagsFit info

theorem checkUnused_eq_ok : ins.checkUnused info = .ok y ↔ ins.FieldsFit info := by
  simp only [checkUnused, except_bind_eq_ok, refuseIf_eq_ok]
  constructor
  · rintro ⟨-, hdest, -, himm, -, hoffset, -, hbranch, -, htexture, hstaging⟩
    have hjump (hc : info.opClass ≠ .branch) : ins.branch = 0 ∧ ins.target = none := by
      simpa [hc] using hbranch
    refine ⟨fun hc => by simpa [hc] using hdest, fun hc => by simpa [hc] using himm,
      fun hc hc' => by simpa [hc, hc'] using hoffset, fun hc => (hjump hc).1, fun hc => (hjump hc).2,
      fun hc => by simpa [hc] using htexture, fun hc hc' => by simpa [hc, hc'] using hstaging⟩
  · rintro ⟨hdest, himm, hoffset, hbranch, htarget, htexture, hstaging⟩
    refine ⟨(), ?_, (), ?_, (), ?_, (), ?_, (), ?_, ?_⟩
    · rintro ⟨hc, hne⟩
      simp [hdest (by simpa using hc)] at hne
    · exact fun h => h.2 (himm h.1)
    · exact fun h => h.2.2 (hoffset h.1 h.2.1)
    · rintro ⟨hc, hne | hne⟩
      · exact hne (hbranch hc)
      · simp [htarget hc] at hne
    · rintro ⟨hc, hne⟩
      simp [htexture hc] at hne
    · rintro ⟨hc, hc', hne⟩
      simp [hstaging hc hc'] at hne

theorem checkNoFlags_eq_ok {mayCompare : Bool} (hclass : info.opClass ≠ .alu)
    (hcompare : mayCompare = true ↔ info.opClass = .branch) :
    ins.checkNoFlags mayCompare = .ok y ↔ ins.FlagsFit info := by
  simp only [checkNoFlags, except_bind_eq_ok, refuseIf_eq_ok, not_or, not_not]
  constructor
  · rintro ⟨-, ⟨hclamp, hround, hresult, hmux⟩, htest⟩
    refine ⟨fun _ => hclamp, fun _ => hround, fun _ => hresult, fun _ => hmux, fun hc _ => ?_⟩
    simpa [Bool.eq_false_iff.mpr (hcompare.not.mpr hc)] using htest
  · rintro ⟨hclamp, hround, hresult, hmux, htest⟩
    refine ⟨(), ⟨hclamp (.inl hclass), hround (.inl hclass), hresult (.inl hclass),
      hmux (.inl hclass)⟩, ?_⟩
    rintro ⟨hno, hne⟩
    exact hne (htest (hcompare.not.mp (by simpa using hno)) (.inl hclass))

theorem flagBits_eq_assemble (flow : UInt8) (page : Nat) (hclass : info.opClass = .alu)
    (h : ins.flagBits info = .ok w) :
    ins.FlagsFit info ∧ w = assemble (ins.number info flow page) info.flagFields := by
  have zero {x : UInt8} {c : Bool} (h : ¬ (x ≠ 0 ∧ (!c) = true)) (hc : c = false) : x = 0 := by
    by_contra hx
    exact h ⟨hx, by simp [hc]⟩
  simp only [flagBits, except_bind_eq_ok, refuseIf_eq_ok, except_pure_eq_ok] at h
  obtain ⟨-, hclamp, -, hround, -, hresult, -, hcompare, -, hmux, rfl⟩ := h
  have hfit : ins.FlagsFit info := by
    refine ⟨?_, ?_, ?_, ?_, fun _ => ?_⟩ <;> rw [or_iff_right (not_not.mpr hclass)]
    exacts [zero hclamp, zero hround, zero hresult, zero hmux, zero hcompare]
  refine ⟨hfit, ?_⟩
  simp only [OpInfo.flagFields, assemble_append]
  rw [assemble_ite, assemble_ite, assemble_ite, assemble_ite, assemble_ite]
  · simp [number, hclass]
  · intro hc
    simp [number, zero hmux (Bool.eq_false_iff.mpr hc)]
  · intro hc
    simp [number, zero hcompare (Bool.eq_false_iff.mpr hc)]
  · intro hc
    simp [number, zero hresult (Bool.eq_false_iff.mpr hc)]
  · intro hc
    simp [number, zero hround (Bool.eq_false_iff.mpr hc)]
  · intro hc
    simp [number, zero hclamp (Bool.eq_false_iff.mpr hc)]

/-- The layout of a class: the instruction is expressed, and its bits are the fields of its
sources and of its class. -/
theorem packClass_eq_assemble (flow : UInt8) (page : Nat) (hi : info.WellLaid)
    (h : ins.packClass info ins.branch.toInt = .ok w) : ins.Expressed info
      ∧ w = assemble (ins.number info flow page) (info.sourceFields ++ info.classFields) := by
  have hdest := hi.hasDest
  rw [assemble_append]
  cases hclass : info.opClass with
  | nop =>
    simp only [packClass, hclass, packNop, except_bind_eq_ok, except_pure_eq_ok] at h
    obtain ⟨_, hfields, _, hflags, -, -, rfl⟩ := h
    have hsrcs := hi.none hclass
    refine ⟨⟨by simp [hsrcs], by simp [OwnFit, hclass], checkUnused_eq_ok.mp hfields,
      (checkNoFlags_eq_ok (by simp [hclass]) (by simp [hclass])).mp hflags⟩, ?_⟩
    simp [OpInfo.sourceFields, OpInfo.classFields, number, hclass, hsrcs]
  | alu =>
    simp only [packClass, hclass, packAlu, except_bind_eq_ok, except_pure_eq_ok] at h
    obtain ⟨_, hfields, sources, hsources, flags, hbits, dest, hbyte, rfl⟩ := h
    obtain ⟨htakes, rfl⟩ := allSourcesBits_eq_assemble flow page hi.srcs hsources
    obtain ⟨hflags, rfl⟩ := flagBits_eq_assemble flow page hclass hbits
    obtain ⟨hbare, hmask, rfl⟩ := destBits_eq_ok.mp hbyte
    refine ⟨⟨htakes, by simp [OwnFit, hclass, hbare, hmask], checkUnused_eq_ok.mp hfields,
      hflags⟩, ?_⟩
    simp only [OpInfo.classFields, hclass, assemble_append]
    rw [assemble_ite (by simp [number])]
    simp [number, hdest, hclass, BitVec.or_assoc]
  | immediate =>
    simp only [packClass, hclass, packImmediate, except_bind_eq_ok, except_pure_eq_ok] at h
    obtain ⟨_, hfields, source, hsource, -, -, _, hflags, dest, hbyte, rfl⟩ := h
    obtain ⟨si, hsi, -⟩ := hi.one (.inl hclass)
    obtain ⟨htakes, rfl⟩ := firstSourceBits_eq_assemble flow page hsi hsource
    obtain ⟨hbare, hmask, rfl⟩ := destBits_eq_ok.mp hbyte
    refine ⟨⟨htakes, by simp [OwnFit, hclass, hbare, hmask], checkUnused_eq_ok.mp hfields,
      (checkNoFlags_eq_ok (by simp [hclass]) (by simp [hclass])).mp hflags⟩, ?_⟩
    simp [OpInfo.classFields, number, hdest, hclass, BitVec.or_assoc]
  | load | store =>
    simp only [packClass, hclass, packLoad, packStore, except_bind_eq_ok, except_pure_eq_ok] at h
    obtain ⟨_, hfields, sources, hsources, _, hflags, staging, hbyte, rfl⟩ := h
    obtain ⟨htakes, rfl⟩ := allSourcesBits_eq_assemble flow page hi.srcs hsources
    obtain ⟨hbare, hhalves, rfl⟩ := stagingBits_eq_ok.mp hbyte
    refine ⟨⟨htakes, by simp [OwnFit, hclass, hbare, hhalves], checkUnused_eq_ok.mp hfields,
      (checkNoFlags_eq_ok (by simp [hclass]) (by simp [hclass])).mp hflags⟩, ?_⟩
    simp [OpInfo.classFields, number, hdest, hclass, BitVec.or_assoc]
  | texture =>
    simp only [packClass, hclass, packTexture, except_bind_eq_ok, except_pure_eq_ok,
      refuseIf_eq_ok] at h
    obtain ⟨_, hfields, sources, hsources, -, hcount, -, hlod, _, hflags, dest, hbyte, staging,
      hwindow, rfl⟩ := h
    obtain ⟨htakes, rfl⟩ := allSourcesBits_eq_assemble flow page hi.srcs hsources
    obtain ⟨hbare, hmask, rfl⟩ := destBits_eq_ok.mp hbyte
    obtain ⟨hbare', hhalves, rfl⟩ := stagingBits_eq_ok.mp hwindow
    simp only [not_or, UInt8.not_lt] at hcount hlod
    refine ⟨⟨htakes, by simp [OwnFit, hclass, hbare, hmask, hbare', hhalves, hcount, hlod],
      checkUnused_eq_ok.mp hfields,
        (checkNoFlags_eq_ok (by simp [hclass]) (by simp [hclass])).mp hflags⟩, ?_⟩
    simp [OpInfo.classFields, number, hdest, hclass, BitVec.or_assoc]
  | branch =>
    simp only [packClass, hclass, packBranch, except_bind_eq_ok, except_pure_eq_ok,
      refuseIf_eq_ok] at h
    obtain ⟨_, hfields, -, htest, -, hreach, _, hflags, source, hsource, rfl⟩ := h
    obtain ⟨si, hsi, -⟩ := hi.one (.inr hclass)
    obtain ⟨htakes, rfl⟩ := firstSourceBits_eq_assemble flow page hsi hsource
    refine ⟨⟨htakes, ?_, checkUnused_eq_ok.mp hfields,
      (checkNoFlags_eq_ok (by simp [hclass]) (by simp [hclass])).mp hflags⟩, ?_⟩
    · simp only [OwnFit, hclass]
      refine ⟨?_, by omega⟩
      by_contra hne
      exact htest (not_or.mp hne)
    · simp [OpInfo.classFields, number, hclass, BitVec.or_assoc]

/-! ### The page -/

/-- The page that is found is the one given before, if there is one, and all fast-access sources
have it. Without any it is zero. -/
theorem sharedPage_spec {given : Option Nat} {page : Nat}
    (h : ins.sharedPage given l = .ok page) :
    (∀ p, given = some p → page = p) ∧ (∀ s ∈ l, s.isFastAccess = true → s.page = page)
      ∧ (given = none → page = 0 ∨ ∃ s ∈ l, s.isFastAccess = true ∧ page = s.page) := by
  induction l generalizing given with
  | nil =>
    simp only [sharedPage, except_pure_eq_ok] at h
    refine ⟨fun p hp => ?_, by simp, fun hnone => .inl ?_⟩
    · rw [← h, hp]
      rfl
    · rw [← h, hnone]
      rfl
  | cons s l ih =>
    unfold sharedPage at h
    split at h
    case isTrue hfast =>
      cases given with
      | none =>
        obtain ⟨hpage, hrest, -⟩ := ih h
        refine ⟨by simp, fun t ht htfast => ?_, fun _ => .inr ⟨s, by simp, hfast, hpage _ rfl⟩⟩
        rcases List.mem_cons.mp ht with rfl | ht
        · exact (hpage _ rfl).symm
        · exact hrest t ht htfast
      | some p =>
        simp only [except_bind_eq_ok, refuseIf_eq_ok, not_not] at h
        obtain ⟨-, heq, h⟩ := h
        obtain ⟨hpage, hrest, -⟩ := ih h
        refine ⟨hpage, fun t ht htfast => ?_, by simp⟩
        rcases List.mem_cons.mp ht with rfl | ht
        · exact heq.symm.trans (hpage p rfl).symm
        · exact hrest t ht htfast
    case isFalse hslow =>
      obtain ⟨hpage, hrest, hzero⟩ := ih h
      refine ⟨hpage, fun t ht htfast => ?_, fun hnone => (hzero hnone).imp_right ?_⟩
      · rcases List.mem_cons.mp ht with rfl | ht
        · exact absurd htfast hslow
        · exact hrest t ht htfast
      · rintro ⟨t, ht, hrest⟩
        exact ⟨t, List.mem_cons_of_mem _ ht, hrest⟩

theorem specialPage_lt (n : UInt8) : specialPage n < 4 := by
  unfold specialPage
  split <;> decide

theorem page_lt_of_addressable (h : s.Addressable) : s.page < 4 := by
  unfold Operand.page
  obtain ⟨-, h⟩ := h
  cases hkind : s.kind with
  | uniform =>
    simp only [hkind] at h ⊢
    omega
  | special => exact specialPage_lt _
  | _ => simp

theorem byte_lt_of_addressable (h : s.Addressable) : s.byte < 256 := by
  obtain ⟨-, h⟩ := h
  have hupper := Bool.toNat_lt s.upper
  have hdiscard := Bool.toNat_lt s.discard
  unfold Operand.byte
  cases hkind : s.kind <;> simp only [hkind] at h ⊢ <;> omega

/-- The page that addressable sources share is one of four. -/
theorem page_lt_of_sharedPage (htakes : ∀ (i : Nat) si, info.srcs[i]? = some si →
    si.Takes (ins.srcAt i)) {page : Nat}
    (h : ins.sharedPage none (ins.src.toList.take info.srcs.length) = .ok page) : page < 4 := by
  obtain ⟨-, -, hzero⟩ := sharedPage_spec h
  rcases hzero rfl with rfl | ⟨s, hs, -, rfl⟩
  · decide
  · -- The sources that share the page are those of the operation.
    obtain ⟨i, hget⟩ := List.mem_iff_getElem?.mp hs
    rw [List.getElem?_take, Vector.getElem?_toList] at hget
    split at hget
    case isFalse => cases hget
    case isTrue hlt =>
      have hsrc : ins.srcAt i = s := by rw [srcAt, hget]; rfl
      exact hsrc ▸ page_lt_of_addressable (htakes i _ (List.getElem?_eq_getElem hlt)).addressable

/-! ### Whole words -/

/-- The flags hold declared constants, and only registers are discarded. -/
structure Declared (ins : Instr) : Prop where
  clamp : ins.clamp ≤ 3
  round : ins.round ≤ 3
  mux : ins.mux ≤ 3
  dimension : ins.dimension ≤ 3
  compare : ins.compare ≤ 5
  resultType : ins.resultType ≤ 2
  discard : ∀ s ∈ ins.src.toList, s.discard = true → s.kind = .register

/-- The flags fit into their fields. -/
structure Narrow (ins : Instr) : Prop where
  clamp : ins.clamp ≤ 3
  round : ins.round ≤ 3
  mux : ins.mux ≤ 3
  dimension : ins.dimension ≤ 3
  compare : ins.compare ≤ 7
  resultType : ins.resultType ≤ 3

theorem Declared.narrow (h : ins.Declared) : ins.Narrow :=
  ⟨h.clamp, h.round, h.mux, h.dimension, UInt8.le_trans h.compare (by decide),
    UInt8.le_trans h.resultType (by decide)⟩

/-- The sources of an operation. -/
def sources (ins : Instr) (info : OpInfo) : List Operand :=
  ins.src.toList.take info.srcs.length

theorem info_eq_ok : ins.info = .ok info ↔ ins.op.info = .ok info := by
  unfold Instr.info
  split <;> simp_all

theorem mem_table_of_info (h : op.info = .ok info) : info ∈ Opcode.table := by
  unfold Opcode.info at h
  split at h
  · next row hrow =>
    cases h
    exact List.mem_of_getElem? hrow
  · cases h

theorem wellLaid_of_info (h : op.info = .ok info) : info.WellLaid :=
  OpInfo.wellLaid (mem_table_of_info h)

/-- A packed word holds the numbers of the instruction in the fields of its operation. -/
theorem pack_eq_assemble {flow : UInt8} : ins.pack flow = .ok w ↔
    ∃ info page, ins.op.info = .ok info ∧ flow ≤ 13
      ∧ (∃ bits, ins.packClass info ins.branch.toInt = .ok bits)
      ∧ ins.sharedPage none (ins.sources info) = .ok page
      ∧ w = assemble (ins.number info flow page) info.layout := by
  -- Above the bits of the class stand those that all words have.
  have hword {info : OpInfo} {page : Nat} {bits : Word} (h : ins.op.info = .ok info)
      (hbits : ins.packClass info ins.branch.toInt = .ok bits) :
      bits ||| field info.exact 48 ||| field page 57 ||| field flow.toNat 59
        = assemble (ins.number info flow page) info.layout := by
    rw [(packClass_eq_assemble flow page (wellLaid_of_info h) hbits).2]
    simp only [OpInfo.layout, assemble_append, assemble_cons, assemble_nil, Tag.field_tag,
      Tag.field_pos, number, BitVec.or_zero, BitVec.or_assoc]
  simp only [pack, packWith, except_bind_eq_ok, refuseIf_eq_ok, except_pure_eq_ok, info_eq_ok,
    UInt8.not_lt]
  constructor
  · rintro ⟨info, h, -, hflow, bits, hbits, page, hpage, rfl⟩
    exact ⟨info, page, h, hflow, ⟨bits, hbits⟩, hpage, hword h hbits⟩
  · rintro ⟨info, page, h, hflow, ⟨bits, hbits⟩, hpage, rfl⟩
    exact ⟨info, h, (), hflow, bits, hbits, page, hpage, hword h hbits⟩

/-- What holds of an instruction that is packed. -/
theorem pack_eq_ok {flow : UInt8} (h : ins.pack flow = .ok w) :
    ∃ info page, ins.op.info = .ok info ∧ info.WellLaid ∧ ins.Expressed info ∧ flow ≤ 13
      ∧ page < 4 ∧ (∀ (i : Nat) si, info.srcs[i]? = some si →
        (ins.srcAt i).isFastAccess = true → (ins.srcAt i).page = page)
      ∧ w = assemble (ins.number info flow page) info.layout := by
  obtain ⟨info, page, hinfo, hflow, ⟨bits, hbits⟩, hpage, rfl⟩ := pack_eq_assemble.mp h
  have hi := wellLaid_of_info hinfo
  obtain ⟨he, -⟩ := packClass_eq_assemble flow page hi hbits
  obtain ⟨-, hshared, -⟩ := sharedPage_spec hpage
  refine ⟨info, page, hinfo, hi, he, hflow, page_lt_of_sharedPage he.takes hpage,
    fun i si hsi => hshared _ (List.mem_of_getElem? (i := i) ?_), rfl⟩
  have hlt := (List.getElem?_eq_some_iff.mp hsi).1
  have hlt' : i < 4 := lt_of_lt_of_le hlt hi.srcs
  rw [sources, List.getElem?_take, if_pos hlt, Vector.getElem?_toList, srcAt,
    Vector.getElem?_eq_getElem hlt']
  rfl

section Numbers

variable {flow : UInt8} {page : Nat} (hi : info.WellLaid) (he : ins.Expressed info)

include hi he

/-- The numbers of an instruction fit into their fields. -/
theorem number_lt (hd : ins.Narrow) (hflow : flow ≤ 13) (hpage : page < 4) (t : Tag) :
    ins.number info flow page t < 2 ^ t.width := by
  have hsource {g : SourceInfo → Nat} {i n : Nat}
      (h : ∀ si, info.srcs[i]? = some si → g si < 2 ^ n) : (info.srcs[i]?).elim 0 g < 2 ^ n := by
    cases hsi : info.srcs[i]? with
    | none => exact Nat.two_pow_pos n
    | some si => exact h si hsi
  have hsmall {x bound : UInt8} {n : Nat} (h : x ≤ bound) (hn : bound.toNat < n) : x.toNat < n :=
    lt_of_le_of_lt (UInt8.le_iff_toNat_le.mp h) hn
  have hown := he.own
  unfold OwnFit at hown
  cases t with
  | exact => exact hi.exact
  | page => exact hpage
  | flow => exact hsmall hflow (by decide)
  | source i =>
    exact hsource fun si hsi => byte_lt_of_addressable (he.takes i si hsi).addressable
  | negate i | absolute i | invert i => exact hsource fun _ _ => Bool.toNat_lt _
  | halves i => exact hsource fun si _ => si.lanes.getD_code?_lt _
  | clamp => exact hsmall hd.clamp (by decide)
  | round => exact hsmall hd.round (by decide)
  | resultType => exact hsmall hd.resultType (by decide)
  | compare =>
    simp only [number]
    split
    · decide
    · exact hsmall hd.compare (by decide)
  | mux => exact hsmall hd.mux (by decide)
  | secondary => exact hi.secondary
  | dest =>
    simp only [number]
    have hmask := ins.dest.halves.mask_lt
    split
    case isTrue hdest =>
      have hvalue : ins.dest.value.toNat < 64 := by
        rcases hi.hasDest.mp hdest with hc | hc | hc | hc <;> simp only [hc] at hown
        exacts [hown.1.value, hown.1.value, hown.1.value, hown.1.1.value]
      split <;> simp only [Tag.width] <;> omega
    case isFalse => decide
  | staging =>
    simp only [number]
    split
    case isTrue hstaging =>
      have hvalue : ins.staging.value.toNat < 64 := by
        rcases hstaging with hc | hc <;> simp only [hc] at hown
        exacts [hown.1.value, hown.2.1.1.value]
      simp only [Tag.width]
      omega
    case isFalse => decide
  | full =>
    simp only [number]
    split <;> decide
  | imm => exact ins.imm.toNat_lt
  | offset => exact ins.offset.toBitVec.isLt
  | count =>
    by_cases hc : info.opClass = .texture
    · simp only [hc] at hown
      exact hsmall hown.2.2.1.2 (by decide)
    · simp [number, (he.fields.texture hc).2.1]
  | lodMode =>
    by_cases hc : info.opClass = .texture
    · simp only [hc] at hown
      exact hsmall hown.2.2.2.1 (by decide)
    · simp [number, (he.fields.texture hc).2.2.1]
  | dimension => exact hsmall hd.dimension (by decide)
  | skip => exact Bool.toNat_lt _
  | distance => exact (BitVec.ofInt 27 ins.branch.toInt).isLt
  | ifZero =>
    simp only [number]
    split <;> decide

/-- Numbers that the layout of the operation does not have are zero. -/
theorem exists_field_of_number_ne_zero (t : Tag) (ht : ins.number info flow page t ≠ 0) :
    ∃ p ∈ info.layout, p.tag = t := by
  have hsource {g : SourceInfo → Nat} {i : Nat} (h : (info.srcs[i]?).elim 0 g ≠ 0) :
      ∃ si, info.srcs[i]? = some si ∧ g si ≠ 0 := by
    cases hsi : info.srcs[i]? with
    | none => simp [hsi] at h
    | some si => exact ⟨si, rfl, by simpa [hsi] using h⟩
  -- A field of a source is found where the source is listed.
  have hsourceField (pos : Nat) {i : Nat} {si : SourceInfo} (hsi : info.srcs[i]? = some si)
      (h : t.field pos ∈ si.fields i) : ∃ p ∈ info.layout, p.tag = t := by
    refine ⟨_, ?_, t.field_tag pos⟩
    simp only [OpInfo.layout, OpInfo.sourceFields, List.mem_append, List.mem_flatMap]
    exact .inl (.inl ⟨(si, i), List.mem_zipIdx_iff_getElem?.mpr hsi, h⟩)
  have hclassField (pos : Nat) (h : t.field pos ∈ info.classFields) :
      ∃ p ∈ info.layout, p.tag = t := by
    refine ⟨_, ?_, t.field_tag pos⟩
    simp [OpInfo.layout, h]
  have hflag {x : UInt8} {c : Bool} (h : info.opClass ≠ .alu ∨ c = false → x = 0)
      (hx : x.toNat ≠ 0) : info.opClass = .alu ∧ c = true := by
    by_contra hne
    rw [not_and_or, Bool.not_eq_true] at hne
    simp [h hne] at hx
  have htexture (h : ¬ (ins.skip = false ∧ ins.count = 0 ∧ ins.lodMode = 0 ∧ ins.dimension = 0)) :
      info.opClass = .texture := by
    by_contra hne
    exact h (he.fields.texture hne)
  cases t with
  | exact => exact ⟨Tag.exact.field 48, by simp [OpInfo.layout], rfl⟩
  | page => exact ⟨Tag.page.field 57, by simp [OpInfo.layout], rfl⟩
  | flow => exact ⟨Tag.flow.field 59, by simp [OpInfo.layout], rfl⟩
  | source i =>
    obtain ⟨si, hsi, -⟩ := hsource ht
    exact hsourceField (8 * i) hsi (by simp [SourceInfo.fields])
  | negate i =>
    obtain ⟨si, hsi, hne⟩ := hsource ht
    have hsign := (he.takes i si hsi).sign (.inl (by simpa using hne))
    exact hsourceField (signPos i) hsi (by simp [SourceInfo.fields, hsign])
  | absolute i =>
    obtain ⟨si, hsi, hne⟩ := hsource ht
    have hsign := (he.takes i si hsi).sign (.inr (by simpa using hne))
    exact hsourceField (signPos i + 1) hsi (by simp [SourceInfo.fields, hsign])
  | invert i =>
    obtain ⟨si, hsi, hne⟩ := hsource ht
    have hinvert := (he.takes i si hsi).invert (by simpa using hne)
    exact hsourceField 35 hsi (by simp [SourceInfo.fields, hinvert])
  | halves i =>
    obtain ⟨si, hsi, hne⟩ := hsource ht
    have hlanes : si.lanes ≠ .none := by
      rintro hlanes
      rw [hlanes] at hne
      cases hh : (ins.srcAt i).halves <;> simp [hh, LaneMode.code?] at hne
    exact hsourceField si.lanePos hsi (by simp [SourceInfo.fields, hlanes])
  | clamp =>
    obtain ⟨hc, hflag⟩ := hflag he.flags.clamp ht
    exact hclassField 32 (by simp [OpInfo.classFields, OpInfo.flagFields, hc, hflag])
  | round =>
    obtain ⟨hc, hflag⟩ := hflag he.flags.round ht
    exact hclassField 30 (by simp [OpInfo.classFields, OpInfo.flagFields, hc, hflag])
  | resultType =>
    obtain ⟨hc, hflag⟩ := hflag he.flags.resultType ht
    exact hclassField 30 (by simp [OpInfo.classFields, OpInfo.flagFields, hc, hflag])
  | mux =>
    obtain ⟨hc, hflag⟩ := hflag he.flags.mux ht
    exact hclassField 32 (by simp [OpInfo.classFields, OpInfo.flagFields, hc, hflag])
  | compare =>
    simp only [number, ne_eq, ite_eq_left_iff, not_forall] at ht
    obtain ⟨hbranch, ht⟩ := ht
    obtain ⟨hc, hflag⟩ := hflag (he.flags.compare hbranch) ht
    exact hclassField 32 (by simp [OpInfo.classFields, OpInfo.flagFields, hc, hflag])
  | secondary =>
    have hc : info.opClass = .alu := by
      by_contra hne
      exact ht (hi.unary hne)
    exact hclassField 16 (by simp [OpInfo.classFields, hc, show info.secondary ≠ 0 from ht])
  | dest =>
    have hdest : info.hasDest = true := by
      by_contra hne
      simp [number, hne] at ht
    rcases hi.hasDest.mp hdest with hc | hc | hc | hc
    · exact hclassField destPos (by simp [OpInfo.classFields, hc])
    · exact hclassField destPos (by simp [OpInfo.classFields, hc])
    · exact hclassField destPos (by simp [OpInfo.classFields, hc])
    · exact hclassField 16 (by simp [OpInfo.classFields, hc])
  | staging =>
    simp only [number, ne_eq, ite_eq_right_iff, not_forall] at ht
    obtain ⟨hc | hc, -⟩ := ht <;> exact hclassField destPos (by simp [OpInfo.classFields, hc])
  | full =>
    simp only [number, ne_eq, ite_eq_right_iff, not_forall] at ht
    obtain ⟨hc | hc, -⟩ := ht <;> exact hclassField destPos (by simp [OpInfo.classFields, hc])
  | imm =>
    have hc : info.opClass = .immediate := by
      by_contra hne
      simp [number, he.fields.imm hne] at ht
    exact hclassField 8 (by simp [OpInfo.classFields, hc])
  | offset =>
    have hc : info.opClass = .load ∨ info.opClass = .store := by
      by_contra hne
      obtain ⟨hload, hstore⟩ := not_or.mp hne
      simp [number, he.fields.offset hload hstore] at ht
    rcases hc with hc | hc <;> exact hclassField 8 (by simp [OpInfo.classFields, hc])
  | count =>
    have hc := htexture fun h => by simp [number, h.2.1] at ht
    exact hclassField 33 (by simp [OpInfo.classFields, hc])
  | lodMode =>
    have hc := htexture fun h => by simp [number, h.2.2.1] at ht
    exact hclassField 13 (by simp [OpInfo.classFields, hc])
  | dimension =>
    have hc := htexture fun h => by simp [number, h.2.2.2] at ht
    exact hclassField 28 (by simp [OpInfo.classFields, hc])
  | skip =>
    have hc := htexture fun h => by simp [number, h.1] at ht
    exact hclassField 39 (by simp [OpInfo.classFields, hc])
  | distance =>
    have hc : info.opClass = .branch := by
      by_contra hne
      simp [number, he.fields.branch hne] at ht
    exact hclassField 8 (by simp [OpInfo.classFields, hc])
  | ifZero =>
    simp only [number, ne_eq, ite_eq_right_iff, not_forall] at ht
    obtain ⟨⟨hc, -⟩, -⟩ := ht
    exact hclassField 36 (by simp [OpInfo.classFields, hc])

end Numbers

end Instr

end ShaderCompiler.Machine
