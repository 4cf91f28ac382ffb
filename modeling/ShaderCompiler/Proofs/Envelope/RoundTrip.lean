import ShaderCompiler.Proofs.Envelope.Fields
import ShaderCompiler.Proofs.Machine.Emission
import ShaderCompiler.Proofs.Compilation

/-!
# Writing and reading compiled shaders

A record is written piece after piece, so that what a buffer held before is gone where the pieces
lie. The pieces spell a well-formed envelope, whose entries leave the record itself. A compiled
shader reads back from its bytes if its code consists of whole words, as that of every shader that
was compiled does.
-/

namespace ShaderCompiler

variable {b : Binary} {w w' : Workspace} {backend : Option Backend}

namespace Envelope

/-! ### Writing -/

/-- Pieces are written one behind the other. -/
theorem Buffer.foldl_put (pieces : List (List UInt8)) (written rest : List UInt8) :
    pieces.foldl put ⟨written ++ rest, written.length⟩ =
      ⟨written ++ pieces.flatten ++ rest.drop pieces.flatten.length,
        written.length + pieces.flatten.length⟩ := by
  induction pieces generalizing written rest with
  | nil => simp
  | cons piece pieces ih =>
    have hput : put ⟨written ++ rest, written.length⟩ piece =
        ⟨(written ++ piece) ++ rest.drop piece.length, (written ++ piece).length⟩ := by
      simp [put, List.drop_append]
    rw [List.foldl_cons, hput, ih]
    simp [List.drop_drop, Nat.add_assoc]

namespace Record

variable (r : Record)

theorem write_eq (buffer : List UInt8) : r.write buffer =
    ⟨r.pieces.flatten ++ buffer.drop r.pieces.flatten.length, r.pieces.flatten.length⟩ := by
  simpa [write] using Buffer.foldl_put r.pieces [] buffer

theorem encode_eq : r.encode = r.pieces.flatten := by
  simp [encode, write_eq]

theorem encode_eq_fields : r.encode =
    (Field.all.flatMap fun f => headerBytes f ++ r.valueBytes f) ++ [FieldType.stop.code] := by
  simp [encode_eq, pieces, Field.all]

/-- The length that is reserved for a record is the one that it takes. -/
theorem length_encode : r.encode.length = r.encodedLength := by
  simp only [encode_eq, pieces, Field.all, List.flatMap_cons, List.flatMap_nil, List.append_nil,
    List.cons_append, List.nil_append, List.flatten_cons, List.flatten_nil, List.length_append,
    headerBytes, valueBytes, sizedBytes, int32Bytes, List.length_cons, List.length_map,
    List.length_nil, encodedLength]
  omega

/-! ### Reading back -/

theorem spells_valueBytes {r : Record} (hname : r.name.length < 2 ^ 31)
    (hcode : r.code.length < 2 ^ 31) (f : Field) : f.Spells (r.get f) (r.valueBytes f) := by
  cases f with
  | name => exact .name hname
  | stage => exact .stage _
  | code => exact .code hcode
  | instructions => exact .instructions _
  | words => exact .words _
  | optimized =>
    have hbit : r.optimized = ((if r.optimized then 1 else 0 : UInt8) = 1 : Bool) := by
      cases r.optimized <;> rfl
    rw [get, valueBytes]
    nth_rewrite 1 [hbit]
    exact .optimized _

/-- Fields written one behind the other are well formed. -/
theorem spells_fields {r : Record} (h : ∀ f : Field, f.Spells (r.get f) (r.valueBytes f))
    (fs : List Field) : SpellsEntries (fs.map fun f => ⟨f, r.get f⟩)
      (fs.flatMap fun f => headerBytes f ++ r.valueBytes f) := by
  induction fs with
  | nil => exact .nil
  | cons f fs ih => exact .known (h f) ih

/-- A record is read back from its bytes, whatever follows them. -/
theorem decode_encode_append {r : Record} (hname : r.name.length < 2 ^ 31)
    (hcode : r.code.length < 2 ^ 31) (rest : List UInt8) : decode (r.encode ++ rest) = .ok r := by
  rw [encode_eq_fields, List.append_assoc, List.singleton_append,
    decode_append (spells_fields (spells_valueBytes hname hcode) Field.all)]
  rfl

end Record

end Envelope

/-! ### Compiled shaders -/

open Envelope

theorem Binary.ofRecord_toRecord (hcode : b.code.length < 2 ^ 31)
    (hwhole : b.code.length % wordSize = 0) (hmin : -2 ^ 31 ≤ b.instructions)
    (hmax : b.instructions < 2 ^ 31) : ofRecord b.toRecord = .ok b := by
  have hwords : (Int32.ofInt (b.code.length / wordSize : Nat)).toInt =
      (b.code.length / wordSize : Nat) := by
    have := Nat.div_le_self b.code.length wordSize
    exact Int32.toInt_ofInt_of_le (by grind) (by grind)
  have hstage : (Int32.ofNat b.stage.code.toNat).toBitVec.toNat.toUInt8 = b.stage.code := by
    have hlt := b.stage.code.toNat_lt
    simp only [Int32.toBitVec_ofNat', BitVec.toNat_ofNat]
    rw [Nat.mod_eq_of_lt (by omega)]
    exact UInt8.ofNat_toNat
  simp only [ofRecord, toRecord, hwhole, hwords, hstage,
    Int32.toInt_ofInt_of_le hmin hmax, ne_eq, not_true_eq_false, if_false]

namespace Compile

/-- Emitted code consists of whole words. -/
theorem dvd_length_emit {listing : Machine.Listing} {program : Machine.Program}
    {code : List UInt8} (h : emit listing program w = .ok code w') :
    Binary.wordSize ∣ code.length := by
  unfold emit at h
  rcases Machine.Listing.emit_cases { listing with counters := w.emitted } program with
    ⟨-, hemit⟩ | ⟨-, ws, -, hemit⟩ | ⟨-, fault, -, hemit⟩ <;> rw [hemit] at h
  · obtain ⟨rfl, -⟩ : [] = code ∧ _ = w' := by simpa using h
    exact Nat.dvd_zero _
  · obtain ⟨rfl, -⟩ : (Machine.Listing.pad ws).flatMap Machine.Listing.wordBytes = code
        ∧ _ = w' := by simpa using h
    rw [Machine.length_flatMap_wordBytes]
    exact Nat.dvd_mul_right _ _
  · cases h

theorem whole_of_lower {s : Shader} {changed : Bool}
    (h : lower s backend changed w = .ok (.ok b) w') :
    Binary.wordSize ∣ b.code.length ∧ 0 ≤ b.instructions := by
  unfold lower at h
  split at h
  · cases h
  · obtain ⟨lowered, w₁, -, h⟩ := bind_eq_ok.mp h
    split at h
    · cases h
    · cases h
    · obtain ⟨code, w₂, hemit, h⟩ := bind_eq_ok.mp h
      cases h
      exact ⟨dvd_length_emit hemit, Int.natCast_nonneg _⟩

/-- The code of a compiled shader consists of whole words. -/
theorem whole_of_compile {settings : Settings} {shader : Option Shader}
    (h : compile settings shader backend w = .ok (.ok b) w') :
    Binary.wordSize ∣ b.code.length ∧ 0 ≤ b.instructions := by
  unfold compile at h
  split at h
  · cases h
  · obtain ⟨invalid, w₁, -, h⟩ := bind_eq_ok.mp h
    split at h
    · cases h
    · obtain ⟨log, w₂, -, h⟩ := bind_eq_ok.mp h
      obtain ⟨invalid, w₃, -, h⟩ := bind_eq_ok.mp h
      split at h
      · cases h
      · exact whole_of_lower h

end Compile

namespace Binary

/-- The bytes of a compiled shader fill exactly the buffer that is made for them, whatever it held.
The shader is read back from them if its code consists of whole words and its number of
instructions fits into 32 bits, and a code that does not is refused. What compiling returns is
always read back. -/
theorem unmarshal_marshal {b : Binary} (hname : b.name.length < 2 ^ 31)
    (hcode : b.code.length < 2 ^ 31) :
    (b.code.length % wordSize = 0 → -2 ^ 31 ≤ b.instructions → b.instructions < 2 ^ 31 →
      unmarshal b.marshal = .ok b)
    ∧ (b.code.length % wordSize ≠ 0 →
      unmarshal b.marshal = .error ⟨0, .partialWord b.code.length⟩)
    ∧ b.marshal.length = b.toRecord.encodedLength
    ∧ (∀ buffer, buffer.length = b.toRecord.encodedLength →
      b.toRecord.write buffer = ⟨b.marshal, b.toRecord.encodedLength⟩)
    ∧ ∀ settings shader backend w w', compile settings shader backend w = .ok (.ok b) w' →
      b.instructions < 2 ^ 31 → unmarshal b.marshal = .ok b := by
  have hread : unmarshal b.marshal = ofRecord b.toRecord := by
    have := Record.decode_encode_append (r := b.toRecord) hname hcode []
    rw [List.append_nil] at this
    rw [unmarshal, marshal, this]
    rfl
  have hlen : b.marshal.length = b.toRecord.encodedLength := b.toRecord.length_encode
  refine ⟨fun hwhole hmin hmax => ?_, fun hpart => ?_, hlen, fun buffer hbuffer => ?_,
    fun settings shader backend w w' h hmax => ?_⟩
  · rw [hread, ofRecord_toRecord hcode hwhole hmin hmax]
  · rw [hread]
    exact if_pos hpart
  · rw [Record.write_eq, ← Record.encode_eq, ← marshal, hlen, ← hbuffer, List.drop_length,
      List.append_nil]
  · obtain ⟨hdvd, hnonneg⟩ := Compile.whole_of_compile h
    rw [hread, ofRecord_toRecord hcode (Nat.mod_eq_zero_of_dvd hdvd) (by omega) hmax]

/-- The outcome of compiling a shader without functions, with a backend that makes the sample
program of it. -/
def spinShader : EStateM.Result Abort Workspace (Except CompileError Binary) :=
  compile ⟨0, true, 1⟩ (some ⟨"spin", ⟨4⟩, []⟩) (some fun _ => pure (.program .spin [0, 1]))
    ⟨Arena.empty, 0, 0⟩

/-- The sample is compiled to one line, and read back. -/
theorem unmarshal_marshal_spin : ∃ b w, spinShader = .ok (.ok b) w ∧ b.code.length = 128
    ∧ b.instructions = 3 ∧ unmarshal b.marshal = .ok b := by
  have hsizes : (match spinShader with
      | .ok (.ok b) _ => (b.name.length, b.code.length, b.instructions)
      | _ => (0, 0, 0)) = (4, 128, 3) := by
    decide +kernel
  split at hsizes
  · next b w h =>
    obtain ⟨hname, hcode, hinstrs⟩ : b.name.length = 4 ∧ b.code.length = 128 ∧ b.instructions = 3 :=
      by simpa using hsizes
    obtain ⟨-, -, -, -, hread⟩ := unmarshal_marshal (b := b) (by omega) (by omega)
    exact ⟨b, w, h, hcode, hinstrs, hread _ _ _ _ _ h (by omega)⟩
  · simp at hsizes

end Binary

end ShaderCompiler
