import ShaderCompiler.Proofs.Envelope.Truncation

/-!
# Reading and writing again

A compiled shader that was read from an envelope carries the name, the code, the number of
instructions and the mark of the record in it. The stage is the exception: a record has 32 bits for
it and a compiled shader has eight, and a stage that does not fit is cut without a failure. Writing
the shader again gives an envelope of the same record if and only if its stage does fit.
-/

namespace ShaderCompiler

variable {bytes rest text : List UInt8} {d d' : Draft} {r : Record} {b : Binary}

namespace Envelope

/-! ### Lengths -/

namespace Reader

theorem lt_of_length {n : Nat} (h : length bytes = .ok n rest) :
    n < 2 ^ 31 := by
  obtain ⟨x, between, hint, h⟩ := exists_of_bind_eq_ok h
  obtain ⟨taken, between', -, hx⟩ := exists_of_bind_eq_ok hint
  cases hx
  split at h
  · cases h
  · cases h
    have := BitVec.toInt_lt (x := BitVec.ofNat (8 * 4) (bigEndian taken))
    omega

theorem length_lt_of_string (h : string bytes = .ok text rest) :
    text.length < 2 ^ 31 := by
  obtain ⟨n, between, hlength, h⟩ := exists_of_bind_eq_ok h
  have hn := lt_of_length hlength
  rw [takePieces] at h
  split at h
  · cases h
    exact Nat.lt_of_le_of_lt (List.length_take_le _ _) hn
  · cases h

theorem length_lt_of_binary (h : binary bytes = .ok text rest) :
    text.length < 2 ^ 31 := by
  obtain ⟨n, between, hlength, h⟩ := exists_of_bind_eq_ok h
  have hn := lt_of_length hlength
  rw [take] at h
  split at h
  · cases h
    exact Nat.lt_of_le_of_lt (List.length_take_le _ _) hn
  · cases h

end Reader

/-- The lengths in a record fit into 31 bits. -/
def Record.Fits (r : Record) : Prop :=
  r.name.length < 2 ^ 31 ∧ r.code.length < 2 ^ 31

namespace Draft

theorem fits_of_read {f : Field} (hd : d.record.Fits)
    (h : d.read f bytes = .ok d' rest) : d'.record.Fits := by
  cases f with
  | name =>
    obtain ⟨text, between, htext, h⟩ := Reader.exists_of_bind_eq_ok h
    cases h
    exact ⟨Reader.length_lt_of_string htext, hd.2⟩
  | code =>
    obtain ⟨text, between, htext, h⟩ := Reader.exists_of_bind_eq_ok h
    cases h
    exact ⟨hd.1, Reader.length_lt_of_binary htext⟩
  | stage | instructions | words | optimized =>
    obtain ⟨x, between, -, h⟩ := Reader.exists_of_bind_eq_ok h
    cases h
    exact hd

theorem Reads.fits (h : Reads d bytes d' rest)
    (hd : d.record.Fits) : d'.record.Fits := by
  induction h with
  | stop => exact hd
  | field h hrest ih =>
    cases h with
    | known hheader hnumber hread => exact ih (fits_of_read hd hread)
    | unknown hheader hstop hnumber hskip hdraft => exact ih (hdraft ▸ hd)

end Draft

theorem Record.lengths_of_decode (h : decode bytes = .ok r) :
    r.Fits := by
  obtain ⟨rest, hreads⟩ := decode_eq_ok_iff.mp h
  exact hreads.fits ⟨by decide, by decide⟩

end Envelope

open Envelope

namespace Binary

/-! ### Writing again -/

/-- Cutting a number of 32 bits to eight leaves its remainder. -/
theorem toNat_cut (n : Int32) : (n.toBitVec.toNat.toUInt8.toNat : Int) = n.toInt % 256 := by
  have hint : n.toInt = n.toBitVec.toInt := rfl
  have hcut : n.toBitVec.toNat.toUInt8.toNat = n.toBitVec.toNat % 256 := UInt8.toNat_ofNat'
  rw [hint, hcut, BitVec.toInt_eq_toNat_cond]
  split <;> omega

/-- What a compiled shader takes over from a record, and what becomes of its stage. -/
theorem ofRecord_eq_ok (h : ofRecord r = .ok b) :
    b.name = r.name ∧ b.code = r.code ∧ b.instructions = r.instructions.toInt
    ∧ b.optimized = r.optimized ∧ (b.stage.code.toNat : Int) = r.stage.toInt % 256
    ∧ b.toRecord = { r with stage := Int32.ofInt (r.stage.toInt % 256) } := by
  unfold ofRecord at h
  split at h
  · cases h
  · split at h
    · cases h
    · next hwords =>
      cases h
      have hwords := not_not.mp hwords
      refine ⟨rfl, rfl, rfl, rfl, toNat_cut r.stage, ?_⟩
      rw [toRecord, ← toNat_cut, ← hwords, Int32.ofInt_toInt, Int32.ofInt_toInt,
        Int32.ofInt_eq_ofNat]

/-- Reading an envelope gives a compiled shader with the name, the code, the number of instructions
and the mark of the record in it, and with the last eight bits of its stage. Written again, it
decodes to the same record but for that. So the stage is the one of the record, and the envelope of
the same record as before, if and only if the stage fits into eight bits. -/
theorem unmarshal_keeps_header {bytes : List UInt8} {b : Binary} (h : unmarshal bytes = .ok b) :
    ∃ r, Record.decode bytes = .ok r
      ∧ b.name = r.name ∧ b.code = r.code ∧ b.instructions = r.instructions.toInt
      ∧ b.optimized = r.optimized ∧ (b.stage.code.toNat : Int) = r.stage.toInt % 256
      ∧ Record.decode b.marshal = .ok { r with stage := Int32.ofInt (r.stage.toInt % 256) }
      ∧ ((b.stage.code.toNat : Int) = r.stage.toInt ↔ 0 ≤ r.stage.toInt ∧ r.stage.toInt < 256)
      ∧ (Record.decode b.marshal = Record.decode bytes ↔
        0 ≤ r.stage.toInt ∧ r.stage.toInt < 256) := by
  cases hdecode : Record.decode bytes with
  | error e =>
    rw [unmarshal, hdecode] at h
    cases h
  | ok r =>
    rw [unmarshal, hdecode] at h
    obtain ⟨hname, hcode, hinstrs, hmark, hstage, hrecord⟩ := ofRecord_eq_ok h
    have hfits : b.toRecord.Fits := by
      obtain ⟨hshortName, hshortCode⟩ := Record.lengths_of_decode hdecode
      rw [hrecord]
      exact ⟨hshortName, hshortCode⟩
    have hread : Record.decode b.marshal =
        .ok { r with stage := Int32.ofInt (r.stage.toInt % 256) } := by
      rw [← hrecord, marshal, ← List.append_nil b.toRecord.encode]
      exact Record.decode_encode_append hfits.1 hfits.2 []
    have hstageFits : r.stage.toInt % 256 = r.stage.toInt ↔
        0 ≤ r.stage.toInt ∧ r.stage.toInt < 256 := by omega
    refine ⟨r, rfl, hname, hcode, hinstrs, hmark, hstage, hread, hstage ▸ hstageFits, ?_⟩
    rw [hread, ← hstageFits]
    constructor
    · intro hsame
      have hcut : Int32.ofInt (r.stage.toInt % 256) = r.stage :=
        congrArg Record.stage (Except.ok.inj hsame)
      nth_rewrite 2 [← hcut]
      exact (Int32.toInt_ofInt_of_le (by omega) (by omega)).symm
    · intro hsame
      rw [hsame, Int32.ofInt_toInt]

/-- An envelope with the given bytes of the stage, and with a name, instructions and one word of
code. -/
def stagedEnvelope (stage : BitVec 32) : List UInt8 :=
  Record.encode ⟨[97], ⟨⟨stage⟩⟩, [1, 2, 3, 4, 5, 6, 7, 8], -5, 1, true⟩

/-- An envelope whose stage fits is read and written again without a loss. -/
theorem unmarshal_keeps_header_staged : ∃ b, unmarshal (stagedEnvelope 255) = .ok b
    ∧ b.stage.code = 255 ∧ b.instructions = -5
    ∧ Record.decode b.marshal = Record.decode (stagedEnvelope 255) := by
  have h : unmarshal (stagedEnvelope 255) =
      .ok ⟨[97], ⟨255⟩, [1, 2, 3, 4, 5, 6, 7, 8], -5, true⟩ := by decide +kernel
  have hrecord : Record.decode (stagedEnvelope 255) =
      .ok ⟨[97], 255, [1, 2, 3, 4, 5, 6, 7, 8], -5, 1, true⟩ := by decide +kernel
  obtain ⟨r, hdecode, -, -, -, -, -, -, -, hsame⟩ := unmarshal_keeps_header h
  obtain rfl := Except.ok.inj (hrecord.symm.trans hdecode)
  exact ⟨_, h, rfl, rfl, hsame.mpr (by decide)⟩

/-- A stage that does not fit becomes another one. -/
theorem unmarshal_staged_cut : ∃ b, unmarshal (stagedEnvelope 257) = .ok b ∧ b.stage.code = 1
    ∧ Record.decode b.marshal ≠ Record.decode (stagedEnvelope 257) := by
  refine ⟨⟨[97], ⟨1⟩, [1, 2, 3, 4, 5, 6, 7, 8], -5, true⟩, ?_⟩
  decide +kernel

end Binary

end ShaderCompiler
