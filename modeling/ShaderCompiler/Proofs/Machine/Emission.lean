import ShaderCompiler.Machine.Program
import ShaderCompiler.Proofs.Machine.Decode

/-!
# The bytes of a program

Emitting lays the blocks of a program out, measures branches by the layout, and packs. The three
passes agree on one count: the word at position `k` is the packed form of instruction `k` of the
program, and a branch there stores the distance to the number of instructions in front of its
target. Behind the instructions there is nothing but words that do nothing, up to the end of a
line of the instruction cache.

Positions only exist while a program is emitted. A listing that comes out of the operations on
listings has none, so a target outside of the program is never found.
-/

namespace ShaderCompiler.Machine

variable {ws : List Word} {k n pos start : Nat}

/-! ### Words in bytes -/

/-- The number that bytes spell, the lowest first. -/
def littleEndian : List UInt8 → Nat
  | [] => 0
  | b :: bytes => b.toNat + 256 * littleEndian bytes

/-- The word at a position of a sequence of bytes. -/
def wordAt (bytes : List UInt8) (k : Nat) : Word :=
  BitVec.ofNat 64 (littleEndian ((bytes.drop (8 * k)).take 8))

theorem littleEndian_map_range (n m : Nat) :
    littleEndian ((List.range m).map fun k => (n >>> (8 * k)).toUInt8) = n % 256 ^ m := by
  induction m generalizing n with
  | zero => simp [littleEndian, Nat.mod_one]
  | succ m ih =>
    have hshift : (fun k => (n >>> (8 * k)).toUInt8) ∘ Nat.succ
        = fun k => ((n / 256) >>> (8 * k)).toUInt8 := by
      funext k
      simp only [Function.comp_apply, Nat.succ_eq_add_one, Nat.mul_add, Nat.add_comm (8 * k),
        Nat.shiftRight_add, Nat.shiftRight_eq_div_pow n 8]
    rw [List.range_succ_eq_map, List.map_cons, List.map_map, hshift, littleEndian, ih,
      pow_succ', Nat.mod_mul]
    simp

@[simp] theorem length_wordBytes (w : Word) : (Listing.wordBytes w).length = 8 := rfl

@[simp] theorem length_flatMap_wordBytes (ws : List Word) :
    (ws.flatMap Listing.wordBytes).length = 8 * ws.length := by
  induction ws with
  | nil => rfl
  | cons w ws ih =>
    rw [List.flatMap_cons, List.length_append, ih, length_wordBytes, List.length_cons]
    omega

/-- Words are read back from their bytes. -/
theorem wordAt_flatMap {w : Word} (h : ws[k]? = some w) :
    wordAt (ws.flatMap Listing.wordBytes) k = w := by
  induction ws generalizing k with
  | nil => simp at h
  | cons v ws ih =>
    rw [List.flatMap_cons, wordAt]
    cases k with
    | zero =>
      obtain rfl : v = w := by simpa using h
      have hback : littleEndian (Listing.wordBytes v) = v.toNat := by
        rw [Listing.wordBytes, littleEndian_map_range]
        exact Nat.mod_eq_of_lt v.isLt
      rw [Nat.mul_zero, List.drop_zero, List.take_left' (length_wordBytes v), hback,
        BitVec.ofNat_toNat, BitVec.setWidth_eq]
    | succ k =>
      rw [Nat.mul_succ, Nat.add_comm, ← List.drop_drop, List.drop_left' (length_wordBytes v)]
      exact ih h

/-! ### The distance in a word -/

namespace Instr

variable {ins : Instr} {info : OpInfo} {flow : UInt8} {d : Int} {w : Word}

/-- The distance that a branch word stores. -/
def storedDistance (w : Word) : Int :=
  (w.extractLsb' 8 27).toInt

theorem extractLsb'_field_low (h : n < 256) : (field n 0).extractLsb' 8 27 = 0#27 := by
  refine BitVec.eq_of_getLsbD_eq fun i hi => ?_
  rw [BitVec.getLsbD_extractLsb', ← BitVec.testBit_toNat, testBit_field, Nat.sub_zero,
    Nat.testBit_lt_two_pow (lt_of_lt_of_le h (Nat.pow_le_pow_right (n := 2) (i := 8) (by norm_num)
      (Nat.le_add_right 8 i)))]
  simp

theorem extractLsb'_field_high (h : 35 ≤ pos) :
    (field n pos).extractLsb' 8 27 = 0#27 := by
  refine BitVec.eq_of_getLsbD_eq fun i hi => ?_
  rw [BitVec.getLsbD_extractLsb', ← BitVec.testBit_toNat, testBit_field,
    decide_eq_false (p := 8 + i < 64 ∧ pos ≤ 8 + i) (by omega)]
  simp

theorem extractLsb'_field_distance (x : BitVec 27) : (field x.toNat 8).extractLsb' 8 27 = x := by
  refine BitVec.eq_of_getLsbD_eq fun i hi => ?_
  rw [BitVec.getLsbD_extractLsb', ← BitVec.testBit_toNat, testBit_field, Nat.add_sub_cancel_left,
    BitVec.testBit_toNat, decide_eq_true hi, decide_eq_true (p := 8 + i < 64 ∧ 8 ≤ 8 + i) (by omega)]
  simp

/-- The only branch of the table has one source, whose halves are chosen above the distance. -/
theorem srcs_of_branch (h : info ∈ Opcode.table) (hc : info.opClass = .branch) :
    info.srcs = [⟨false, false, .widen, 37, false⟩] := by
  have htable : ∀ row ∈ Opcode.table, row.opClass = .branch →
      row.srcs = [⟨false, false, .widen, 37, false⟩] := by
    decide +kernel
  exact htable info h hc

theorem checkUnused_of_packClass (h : ins.packClass info d = .ok w) :
    ∃ y, ins.checkUnused info = .ok y := by
  unfold packClass at h
  cases hc : info.opClass <;> simp only [hc, packNop, packAlu, packImmediate, packLoad, packStore,
    packTexture, packBranch, except_bind_eq_ok] at h
  all_goals
    obtain ⟨y, hy, -⟩ := h
    exact ⟨y, hy⟩

/-- Only branches have a target. -/
theorem opClass_of_target (h : ins.packClass info d = .ok w) (ht : ins.target ≠ none) :
    info.opClass = .branch := by
  obtain ⟨y, hy⟩ := checkUnused_of_packClass h
  simp only [checkUnused, except_bind_eq_ok, refuseIf_eq_ok] at hy
  obtain ⟨-, -, -, -, -, -, -, hbranch, -⟩ := hy
  by_contra hc
  exact hbranch ⟨hc, .inr (Option.isSome_iff_ne_none.mpr ht)⟩

/-- The word of an instruction with a target stores the distance that it was packed with. -/
theorem storedDistance_of_packWith (h : ins.packWith flow d = .ok w) (ht : ins.target ≠ none) :
    storedDistance w = d := by
  simp only [packWith, except_bind_eq_ok, refuseIf_eq_ok, except_pure_eq_ok] at h
  obtain ⟨info, hinfo, -, -, bits, hbits, page, -, rfl⟩ := h
  have hc := opClass_of_target hbits ht
  have hsrcs := srcs_of_branch (mem_table_of_info (info_eq_ok.mp hinfo)) hc
  simp only [packClass, hc, packBranch, firstSourceBits, hsrcs, List.headD_cons, except_bind_eq_ok,
    refuseIf_eq_ok, except_pure_eq_ok, sourceBits_eq_ok] at hbits
  obtain ⟨-, -, -, -, -, hreach, -, -, -, ⟨byte, ⟨haddr, rfl⟩, mods, hmods, rfl⟩, rfl⟩ := hbits
  obtain ⟨-, -, c, -, rfl⟩ := modifierBits_eq_ok hmods
  -- Everything else in the word stands below the distance or above it.
  simp only [storedDistance, BitVec.extractLsb'_or, extractLsb'_field_distance,
    extractLsb'_field_low (byte_lt_of_addressable haddr),
    extractLsb'_field_high (by decide : 35 ≤ signPos 0),
    extractLsb'_field_high (by decide : 35 ≤ signPos 0 + 1),
    extractLsb'_field_high (by decide : 35 ≤ destPos), extractLsb'_field_high (by decide : 35 ≤ 35),
    extractLsb'_field_high (by decide : 35 ≤ 37), extractLsb'_field_high (by decide : 35 ≤ 36),
    extractLsb'_field_high (by decide : 35 ≤ 48), extractLsb'_field_high (by decide : 35 ≤ 57),
    extractLsb'_field_high (by decide : 35 ≤ 59), BitVec.zero_or, BitVec.or_zero]
  exact toInt_ofInt_of_reach (by omega)

end Instr

/-! ### Places of instructions -/

namespace Listing

variable {l l' : Listing} {p : Program} {b c : Nat}

/-- An instruction of a program, with its block and its position there. -/
structure Site where
  block : Nat
  index : Nat
  ins : Instr

/-- The instructions of a program in order, with their places. -/
def sites (l : Listing) (p : Program) : List Site :=
  p.flatMap fun b => (l.instrsOf b).zipIdx.map fun q => ⟨b, q.2, q.1⟩

/-- The flow-control action of an instruction at its place. -/
def flowAt (l : Listing) (s : Site) : UInt8 :=
  if l.endsProgram s.block s.index then endFlow else s.ins.flow

/-- The number of instructions in front of a block of a program. -/
def countBefore (l : Listing) (p : Program) (b : Nat) : Nat :=
  l.length (p.takeWhile (· ≠ b))

/-- The distance of instruction `k` of a program: to the instructions in front of its target,
counted from the next instruction, or as given if it has none. -/
def distanceFrom (l : Listing) (p : Program) (k : Nat) (ins : Instr) : Int :=
  match ins.target with
  | none => ins.branch.toInt
  | some label => (l.countBefore p label.id : Int) - (k + 1)

@[simp] theorem length_nil : l.length [] = 0 := rfl

@[simp] theorem length_cons : l.length (b :: p) = (l.instrsOf b).length + l.length p := by
  simp [length]

@[simp] theorem sites_cons : l.sites (b :: p)
    = ((l.instrsOf b).zipIdx.map fun q => ⟨b, q.2, q.1⟩) ++ l.sites p := by
  simp [sites]

@[simp] theorem length_sites : (l.sites p).length = l.length p := by
  induction p with
  | nil => rfl
  | cons b p ih => simp [ih]

/-! ### What positions do not change -/

/-- What a listing is apart from the labels and the positions of its blocks. -/
def code (l : Listing) : List (List Instr × List Nat) :=
  l.blocks.toList.map fun bb => (bb.instrs, bb.succ)

theorem instrsOf_eq_code : l.instrsOf b = (l.code[b]?).elim [] (·.1) := by
  rw [instrsOf, code, List.getElem?_map, Array.getElem?_toList]
  cases l.blocks[b]? <;> rfl

theorem succOf_eq_code : l.succOf b = (l.code[b]?).elim [] (·.2) := by
  rw [succOf, code, List.getElem?_map, Array.getElem?_toList]
  cases l.blocks[b]? <;> rfl

section SameCode

variable (h : l'.code = l.code)

include h

theorem instrsOf_congr : l'.instrsOf b = l.instrsOf b := by
  rw [instrsOf_eq_code, instrsOf_eq_code, h]

theorem succOf_congr : l'.succOf b = l.succOf b := by
  rw [succOf_eq_code, succOf_eq_code, h]

theorem length_congr : l'.length p = l.length p := by
  induction p with
  | nil => rfl
  | cons b p ih => rw [length_cons, length_cons, ih, instrsOf_congr h]

theorem onlyEmpty_congr (n : Nat) (pending visited : List Nat) :
    l'.onlyEmpty n pending visited = l.onlyEmpty n pending visited := by
  fun_induction onlyEmpty l n pending visited with
  | case1 => rw [onlyEmpty]
  | case2 => rw [onlyEmpty]
  | case3 visited n b pending hb ih => rw [onlyEmpty, if_pos hb, ih]
  | case4 visited n b pending hb hempty ih =>
    rw [onlyEmpty, if_neg hb, instrsOf_congr h, succOf_congr h, if_pos hempty, ih]
  | case5 visited n b pending hb hempty =>
    rw [onlyEmpty, if_neg hb, instrsOf_congr h, if_neg hempty]

theorem isTerminal_congr : l'.isTerminal b = l.isTerminal b := by
  have hsucc : l'.blocks.toList.flatMap (·.succ) = l.blocks.toList.flatMap (·.succ) := by
    have := congrArg (List.flatMap Prod.snd) h
    simpa only [code, List.flatMap_map] using this
  rw [isTerminal, isTerminal, hsucc, onlyEmpty_congr h]

theorem endsProgram_congr (i : Nat) : l'.endsProgram b i = l.endsProgram b i := by
  have hterminal : l'.isTerminal = l.isTerminal := funext fun _ => isTerminal_congr h
  rw [endsProgram, endsProgram, instrsOf_congr h, succOf_congr h, hterminal]

end SameCode

@[simp] theorem code_setPosition (pos : Option Nat) : (l.setPosition b pos).code = l.code := by
  refine List.ext_getElem? fun k => ?_
  simp only [code, setPosition, List.getElem?_map, Array.getElem?_toList, Array.getElem?_modify]
  by_cases hk : b = k
  · simp only [hk, if_true, Option.map_map]
    rfl
  · simp only [hk, if_false]

@[simp] theorem code_place (start : Nat) : (l.place start p).code = l.code := by
  induction p generalizing l start with
  | nil => rfl
  | cons b p ih => rw [place, ih, code_setPosition]

/-! ### Positions -/

@[simp] theorem size_setPosition (pos : Option Nat) :
    (l.setPosition b pos).blocks.size = l.blocks.size :=
  Array.size_modify

theorem positionOf_setPosition (pos : Option Nat) : (l.setPosition b pos).positionOf c
    = if c = b ∧ b < l.blocks.size then pos else l.positionOf c := by
  simp only [positionOf, setPosition, Array.getElem?_modify]
  by_cases hbc : b = c
  · subst hbc
    by_cases hb : b < l.blocks.size <;> simp [hb]
  · simp [hbc, Ne.symm hbc]

@[simp] theorem size_place (start : Nat) : (l.place start p).blocks.size = l.blocks.size := by
  induction p generalizing l start with
  | nil => rfl
  | cons b p ih => rw [place, ih, size_setPosition]

theorem lt_size_of_positionOf (h : l.positionOf c = some pos) :
    c < l.blocks.size := by
  obtain ⟨bb, hbb, -⟩ := Option.bind_eq_some_iff.mp h
  exact (Array.getElem?_eq_some_iff.mp hbb).1

/-- Blocks outside of the program stay where they are. -/
theorem positionOf_place_of_notMem (hc : c ∉ p) (start : Nat) :
    (l.place start p).positionOf c = l.positionOf c := by
  induction p generalizing l start with
  | nil => rfl
  | cons b p ih =>
    obtain ⟨hcb, hc⟩ := List.ne_and_not_mem_of_not_mem_cons hc
    rw [place, ih hc, positionOf_setPosition, if_neg fun h => hcb h.1]

/-- A block of the program is placed behind the instructions in front of it. -/
theorem positionOf_place (hp : p.Nodup) (hc : c ∈ p) (hlt : c < l.blocks.size) (start : Nat) :
    (l.place start p).positionOf c = some (start + l.countBefore p c) := by
  induction p generalizing l start with
  | nil => simp at hc
  | cons b p ih =>
    obtain ⟨hb, hp⟩ := List.nodup_cons.mp hp
    rw [place]
    by_cases hcb : c = b
    · subst hcb
      rw [positionOf_place_of_notMem hb, positionOf_setPosition, if_pos ⟨rfl, hlt⟩]
      simp [countBefore]
    · have hskip : (b :: p).takeWhile (· ≠ c) = b :: p.takeWhile (· ≠ c) := by
        simp [Ne.symm hcb]
      have hmem := (List.mem_cons.mp hc).resolve_left hcb
      rw [ih hp hmem (by rwa [size_setPosition]), countBefore, countBefore, hskip, length_cons,
        length_congr (code_setPosition _), Nat.add_assoc]

theorem positionOf_unplace : (l.unplace p).positionOf c
    = if c ∈ p then none else l.positionOf c := by
  induction p generalizing l with
  | nil => simp [unplace]
  | cons b p ih =>
    rw [unplace, List.foldl_cons, ← unplace, ih, positionOf_setPosition]
    by_cases hc : c ∈ p
    · simp [hc]
    · by_cases hcb : c = b
      · subst hcb
        by_cases hlt : c < l.blocks.size
        · simp [hc, hlt]
        · simp [hc, hlt, positionOf]
      · simp [hc, hcb]

/-- Changes of blocks that leave positions alone. -/
theorem positionOf_modify {f : Block → Block} (hf : ∀ bb, (f bb).position = bb.position) :
    ({ l with blocks := l.blocks.modify b f } : Listing).positionOf c = l.positionOf c := by
  simp only [positionOf, Array.getElem?_modify]
  by_cases hbc : b = c
  · cases l.blocks[c]? <;> simp [hbc, hf]
  · simp [hbc]

/-- What emitting does: nothing for a program without instructions, and otherwise it succeeds or
fails with the words of the placed program. -/
theorem emit_cases (l : Listing) (p : Program) :
    (l.length p = 0 ∧ l.emit p = (.ok [], l))
    ∨ (0 < l.length p ∧ ∃ ws, (l.place 0 p).words 0 p = .ok ws
      ∧ l.emit p = (.ok ((pad ws).flatMap wordBytes),
        ⟨((l.place 0 p).unplace p).blocks, l.counters.words + l.length p, l.counters.programs + 1⟩))
    ∨ 0 < l.length p ∧ ∃ fault, (l.place 0 p).words 0 p = .error fault
      ∧ l.emit p = (.error fault, (l.place 0 p).unplace p) := by
  by_cases hn : l.length p = 0
  · exact .inl ⟨hn, by simp [emit, hn]⟩
  · have hpos := Nat.pos_of_ne_zero hn
    cases hws : (l.place 0 p).words 0 p with
    | ok ws => exact .inr (.inl ⟨hpos, ws, rfl, by simp [emit, hn, hws]⟩)
    | error fault => exact .inr (.inr ⟨hpos, fault, rfl, by simp [emit, hn, hws]⟩)

/-- The listings that the operations on listings make. -/
inductive Arises : Listing → Prop
  | names (names : List String) : Arises (ofNames names)
  | appended {l : Listing} (h : Arises l) (b : Nat) (instrs : List Instr) :
      Arises (l.append b instrs)
  | linked {l l' : Listing} (h : Arises l) {b : Nat} {succ : List Nat}
      (hset : l.setSuccessors b succ = .ok l') : Arises l'
  | emitted {l : Listing} (h : Arises l) (p : Program) : Arises (l.emit p).2

/-- No block stays placed. -/
theorem Arises.positionOf_eq_none (h : l.Arises) (c : Nat) : l.positionOf c = none := by
  -- Placing is the only operation that gives positions, and emitting takes them away again.
  induction h with
  | names names =>
    simp only [positionOf, ofNames, List.getElem?_toArray, List.getElem?_map]
    cases names.zipIdx[c]? <;> rfl
  | appended _ b instrs ih =>
    rw [append, positionOf_modify]
    · exact ih
    · exact fun _ => rfl
  | linked _ hset ih =>
    unfold setSuccessors at hset
    split at hset
    · cases hset
    · cases hset
      rw [positionOf_modify]
      · exact ih
      · exact fun _ => rfl
  | @emitted l _ p ih =>
    have hunplaced : ((l.place 0 p).unplace p).positionOf c = none := by
      rw [positionOf_unplace]
      split
      · rfl
      · next hc => rw [positionOf_place_of_notMem hc, ih]
    rcases emit_cases l p with ⟨-, h⟩ | ⟨-, ws, -, h⟩ | ⟨-, fault, -, h⟩ <;> rw [h]
    exacts [ih, hunplaced, hunplaced]

/-! ### Words -/

/-- The distance of an instruction of a placed program is the one found by counting, and its
target belongs to the program. -/
theorem distance_place (hl : l.Arises) (hp : p.Nodup) {ins : Instr} {d : Int}
    (h : (l.place 0 p).distance ins k = .ok d) : d = l.distanceFrom p k ins
      ∧ ∀ label, ins.target = some label → label.id ∈ p := by
  unfold distance at h
  cases ht : ins.target with
  | none =>
    simp only [ht] at h
    exact ⟨by simpa [distanceFrom, ht] using h.symm, by simp⟩
  | some label =>
    simp only [ht, evaluate] at h
    cases hpos : (l.place 0 p).positionOf label.id with
    | none => simp [hpos] at h
    | some pos =>
      have hmem : label.id ∈ p := by
        by_contra hnot
        rw [positionOf_place_of_notMem hnot, hl.positionOf_eq_none] at hpos
        cases hpos
      have hlt : label.id < l.blocks.size := by
        rw [← size_place (p := p) 0]
        exact lt_size_of_positionOf hpos
      rw [positionOf_place hp hmem hlt, Nat.zero_add] at hpos
      cases hpos
      refine ⟨?_, by rintro _ ⟨⟩; exact hmem⟩
      simpa [distanceFrom, ht, positionOf_place hp hmem hlt] using h.symm

/-- What the word of an instruction at a position is. -/
def IsWordOf (l : Listing) (q : Site × Nat) (w : Word) : Prop :=
  ∃ d, l.distance q.1.ins q.2 = .ok d ∧ q.1.ins.packWith (l.flowAt q.1) d = .ok w

theorem forall₂_of_blockWords {qs : List (Instr × Nat)}
    (h : l.blockWords b start qs = .ok ws) :
    List.Forall₂ l.IsWordOf ((qs.map fun q => (⟨b, q.2, q.1⟩ : Site)).zipIdx start) ws := by
  induction qs generalizing start ws with
  | nil =>
    obtain rfl : [] = ws := by simpa [blockWords] using h
    exact .nil
  | cons q qs ih =>
    simp only [blockWords, except_bind_eq_ok, except_pure_eq_ok] at h
    obtain ⟨d, hd, w, hw, ws', hws', rfl⟩ := h
    exact .cons ⟨d, hd, hw⟩ (ih hws')

/-- The words of a program belong to its instructions, one by one. -/
theorem forall₂_of_words (h : l.words start p = .ok ws) :
    List.Forall₂ l.IsWordOf ((l.sites p).zipIdx start) ws := by
  induction p generalizing start ws with
  | nil =>
    obtain rfl : [] = ws := by simpa [words] using h
    exact .nil
  | cons b p ih =>
    simp only [words, except_bind_eq_ok, except_pure_eq_ok] at h
    obtain ⟨here, hhere, rest, hrest, rfl⟩ := h
    rw [sites_cons, List.zipIdx_append]
    refine List.rel_append (forall₂_of_blockWords hhere) ?_
    simpa using ih hrest

theorem flowAt_congr (h : l'.code = l.code) (s : Site) : l'.flowAt s = l.flowAt s := by
  rw [flowAt, flowAt, endsProgram_congr h]

theorem sites_congr (h : l'.code = l.code) : l'.sites p = l.sites p := by
  simp only [sites, instrsOf_congr h]

/-- Each word of a placed program is the packed form of its instruction. -/
theorem packWith_place (h : (l.place 0 p).words 0 p = .ok ws) :
    ws.length = l.length p ∧ ∀ (k : Nat) s, (l.sites p)[k]? = some s →
      ∃ w d, ws[k]? = some w ∧ (l.place 0 p).distance s.ins k = .ok d
        ∧ s.ins.packWith (l.flowAt s) d = .ok w := by
  have hall := forall₂_of_words h
  rw [sites_congr (code_place 0)] at hall
  have hlen : ws.length = l.length p := by
    simpa using hall.length_eq.symm
  refine ⟨hlen, fun k s hs => ?_⟩
  obtain ⟨hk, hget⟩ := List.getElem?_eq_some_iff.mp hs
  have hkw : k < ws.length := by rwa [hlen, ← length_sites]
  obtain ⟨d, hd, hw⟩ := hall.get (i := k) (by simpa using hk) hkw
  simp only [List.get_eq_getElem, List.getElem_zipIdx, hget, Nat.zero_add,
    flowAt_congr (code_place 0)] at hd hw
  exact ⟨ws[k], d, List.getElem?_eq_getElem hkw, hd, hw⟩

/-- The distances of a program without repeated blocks are found by counting. -/
theorem words_place (hl : l.Arises) (hp : p.Nodup)
    (h : (l.place 0 p).words 0 p = .ok ws) : ws.length = l.length p
      ∧ ∀ (k : Nat) s, (l.sites p)[k]? = some s → (∀ label, s.ins.target = some label → label.id ∈ p)
        ∧ ∃ w, ws[k]? = some w ∧ s.ins.packWith (l.flowAt s) (l.distanceFrom p k s.ins) = .ok w := by
  obtain ⟨hlen, hword⟩ := packWith_place h
  refine ⟨hlen, fun k s hs => ?_⟩
  obtain ⟨w, d, hget, hd, hw⟩ := hword k s hs
  obtain ⟨rfl, hmem⟩ := distance_place hl hp hd
  exact ⟨hmem, w, hget, hw⟩

/-! ### Bytes -/

theorem length_pad (ws : List Word) : IsLeast {n | 16 ∣ n ∧ ws.length ≤ n} (pad ws).length := by
  have hlen : (pad ws).length = ws.length + (16 - ws.length % 16) % 16 := by
    simp [pad, wordsPerLine]
  rw [hlen]
  refine ⟨⟨by omega, by omega⟩, ?_⟩
  rintro n ⟨hdvd, hle⟩
  omega

/-- The word of the padding is the packed form of the instruction that does nothing. -/
theorem pack_nop : Instr.nop.pack 0 = .ok nopWord := by decide +kernel

/-- Emitting lays a program out faithfully. The bytes are the fewest that fill lines of the
instruction cache and hold all instructions. Word `k` is the packed form of instruction `k`, and
all words behind the instructions do nothing. A branch with a target, which belongs to the
program, stores the distance from the next instruction to the first one of its target. -/
theorem emit_lays_out (hl : l.Arises) (hp : p.Nodup) {bytes : List UInt8}
    (h : l.emit p = (.ok bytes, l')) :
    IsLeast {n | 128 ∣ n ∧ 8 * l.length p ≤ n} bytes.length
    ∧ (∀ (k : Nat) s, (l.sites p)[k]? = some s →
      s.ins.packWith (l.flowAt s) (l.distanceFrom p k s.ins) = .ok (wordAt bytes k))
    ∧ (∀ k, l.length p ≤ k → 8 * k < bytes.length → Instr.nop.pack 0 = .ok (wordAt bytes k))
    ∧ ∀ (k : Nat) s label, (l.sites p)[k]? = some s → s.ins.target = some label →
      label.id ∈ p ∧ Instr.storedDistance (wordAt bytes k) + (k + 1) = l.countBefore p label.id := by
  rcases emit_cases l p with ⟨hn, hemit⟩ | ⟨-, ws, hws, hemit⟩ | ⟨-, fault, -, hemit⟩
  · obtain ⟨rfl, -⟩ : [] = bytes ∧ l = l' := by simpa using hemit.symm.trans h
    have hsites : l.sites p = [] := List.length_eq_zero_iff.mp (length_sites.trans hn)
    exact ⟨⟨by simp [hn], fun _ _ => Nat.zero_le _⟩, by simp [hsites], by simp, by simp [hsites]⟩
  · obtain ⟨rfl, -⟩ : (pad ws).flatMap wordBytes = bytes ∧ _ = l' := by simpa using hemit.symm.trans h
    obtain ⟨hlen, hword⟩ := words_place hl hp hws
    have hread {k : Nat} {w : Word} (hw : ws[k]? = some w) :
        wordAt ((pad ws).flatMap wordBytes) k = w := by
      refine wordAt_flatMap ?_
      rw [pad, List.getElem?_append_left (List.getElem?_eq_some_iff.mp hw).1, hw]
    refine ⟨?_, fun k s hs => ?_, fun k hk hlt => ?_, fun k s label hs ht => ?_⟩
    · obtain ⟨⟨hdvd, hle⟩, hleast⟩ := length_pad ws
      rw [length_flatMap_wordBytes, ← hlen]
      refine ⟨⟨by omega, by omega⟩, ?_⟩
      rintro n ⟨hdvd', hle'⟩
      have := hleast (a := n / 8) ⟨by omega, by omega⟩
      omega
    · obtain ⟨-, w, hw, hpack⟩ := hword k s hs
      rw [hread hw, hpack]
    · rw [length_flatMap_wordBytes] at hlt
      have hpadding : (pad ws)[k]? = some nopWord := by
        rw [pad, List.getElem?_append_right (hlen ▸ hk), List.getElem?_replicate, if_pos]
        simp only [pad, List.length_append, List.length_replicate] at hlt
        omega
      rw [wordAt_flatMap hpadding, pack_nop]
    · obtain ⟨hmem, w, hw, hpack⟩ := hword k s hs
      refine ⟨hmem label ht, ?_⟩
      rw [hread hw, Instr.storedDistance_of_packWith hpack (by simp [ht])]
      simp [distanceFrom, ht]
  · cases hemit.symm.trans h

/-- A block that copies a register and goes back to its start while a constant is zero, and a block
that copies once more. -/
def spin : Listing :=
  let copy := { Instr.bare ⟨1⟩ with
    dest := .register 1, src := #v[.register 2, .null, .null, .null] }
  let again := { Instr.bare ⟨17⟩ with
    src := #v[.zero, .null, .null, .null], target := some ⟨0, "loop"⟩ }
  ⟨#[⟨⟨0, "loop"⟩, [copy, again], [0, 1], none⟩, ⟨⟨1, "exit"⟩, [copy], [], none⟩], ⟨0, 0⟩⟩

theorem spin_arises : spin.Arises := by
  have hcode := ((Arises.names ["loop", "exit"]).appended 0 (spin.instrsOf 0)).appended 1
    (spin.instrsOf 1)
  exact @Arises.linked _ spin hcode 0 [0, 1] (by decide +kernel)

/-- The sample takes one line. Its branch stands at position one and goes back by two. -/
theorem emit_lays_out_spin : ∃ bytes l', spin.emit [0, 1] = (.ok bytes, l') ∧ bytes.length = 128
    ∧ Instr.storedDistance (wordAt bytes 1) = -2 ∧ wordAt bytes 3 = nopWord := by
  obtain ⟨bytes, hbytes⟩ : ∃ bytes, (spin.emit [0, 1]).1 = .ok bytes := by
    have hok : (spin.emit [0, 1]).1.toOption.isSome = true := by decide +kernel
    cases h : (spin.emit [0, 1]).1 with
    | ok bytes => exact ⟨bytes, rfl⟩
    | error fault => simp [h, Except.toOption] at hok
  have h : spin.emit [0, 1] = (.ok bytes, (spin.emit [0, 1]).2) := by rw [← hbytes]
  obtain ⟨⟨⟨hdvd, hle⟩, hleast⟩, -, hpadding, hbranch⟩ := emit_lays_out spin_arises (by decide) h
  have hn : spin.length [0, 1] = 3 := by decide +kernel
  have hmost := hleast (a := 128) ⟨by decide, by omega⟩
  have hlen : bytes.length = 128 := by omega
  have hback := (hbranch 1 _ ⟨0, "loop"⟩ rfl rfl).2
  have hnop := hpadding 3 (by omega) (by omega)
  rw [pack_nop] at hnop
  refine ⟨bytes, _, h, hlen, ?_, (Except.ok.inj hnop).symm⟩
  have hzero : spin.countBefore [0, 1] 0 = 0 := by decide +kernel
  rw [hzero] at hback
  push_cast at hback
  omega

end Listing

end ShaderCompiler.Machine
