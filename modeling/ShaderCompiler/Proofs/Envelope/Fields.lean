import ShaderCompiler.Proofs.Envelope.Grammar

/-!
# Reading the fields of an envelope

A well-formed envelope is a sequence of fields in any order: known fields with a value of their
type, as often as they like, and fields of other numbers with any well-formed value. Reading it
gives each known field the value of its last occurrence, whatever the other fields are and whatever
follows the stop mark.
-/

namespace ShaderCompiler.Envelope

variable {f : Field} {value rest bytes : List UInt8} {total fuel : Nat} {d : Draft} {t : FieldType}
  {es : List Entry}

open Record (int32Bytes sizedBytes headerBytes)

/-! ### Entries -/

/-- What a field holds. -/
@[reducible]
def Field.Content : Field → Type
  | .name | .code => List UInt8
  | .stage | .instructions | .words => Int32
  | .optimized => Bool

/-- The value of a field. -/
def Record.get (r : Record) : (f : Field) → f.Content
  | .name => r.name
  | .stage => r.stage
  | .code => r.code
  | .instructions => r.instructions
  | .words => r.words
  | .optimized => r.optimized

/-- An occurrence of a field, with its value. -/
abbrev Entry := (f : Field) × f.Content

/-- A record with an entry taken in. -/
def Record.set (r : Record) : Entry → Record
  | ⟨.name, c⟩ => { r with name := c }
  | ⟨.stage, c⟩ => { r with stage := c }
  | ⟨.code, c⟩ => { r with code := c }
  | ⟨.instructions, c⟩ => { r with instructions := c }
  | ⟨.words, c⟩ => { r with words := c }
  | ⟨.optimized, c⟩ => { r with optimized := c }

/-- The value that an entry gives a field, if it is one of that field. -/
def Entry.at? (f : Field) (e : Entry) : Option f.Content :=
  if h : e.1 = f then some (h ▸ e.2) else none

/-- The value of the last entry of a field. -/
def lastOf (f : Field) : List Entry → Option f.Content
  | [] => none
  | e :: es => (lastOf f es).or (e.at? f)

theorem Record.get_set (r : Record) (e : Entry) (f : Field) :
    (r.set e).get f = (e.at? f).getD (r.get f) := by
  obtain ⟨g, c⟩ := e
  cases g <;> cases f <;> rfl

/-- Taking in entries one after another leaves each field with the value of its last entry. -/
theorem Record.get_foldl_set (es : List Entry) (r : Record) (f : Field) :
    (es.foldl Record.set r).get f = (lastOf f es).getD (r.get f) := by
  induction es generalizing r with
  | nil => rfl
  | cons e es ih => rw [List.foldl_cons, ih, get_set, lastOf, Option.getD_or]

/-- The bytes that spell the value of a field. A truth value is true for the byte `1` alone. -/
inductive Field.Spells : (f : Field) → f.Content → List UInt8 → Prop
  | name {bytes : List UInt8} (h : bytes.length < 2 ^ 31) : Spells .name bytes (sizedBytes bytes)
  | stage (n : Int32) : Spells .stage n (int32Bytes n.toBitVec)
  | code {bytes : List UInt8} (h : bytes.length < 2 ^ 31) : Spells .code bytes (sizedBytes bytes)
  | instructions (n : Int32) : Spells .instructions n (int32Bytes n.toBitVec)
  | words (n : Int32) : Spells .words n (int32Bytes n.toBitVec)
  | optimized (b : UInt8) : Spells .optimized (b = 1 : Bool) [b]

/-- The bytes that spell a sequence of fields, with the entries of the known fields among them.
A field of another number has a well-formed value of any type. -/
inductive SpellsEntries : List Entry → List UInt8 → Prop
  | nil : SpellsEntries [] []
  | known {es : List Entry} {bytes : List UInt8} {f : Field} {c : f.Content} {value : List UInt8}
      (h : f.Spells c value) (hes : SpellsEntries es bytes) :
      SpellsEntries (⟨f, c⟩ :: es) (headerBytes f ++ value ++ bytes)
  | unknown {es : List Entry} {bytes : List UInt8} {id : Int16} {t : FieldType}
      {value : List UInt8} (hid : ∀ f : Field, (f.number : Int) ≠ id.toInt)
      (h : Spells Reader.maxDepth t value) (hes : SpellsEntries es bytes) :
      SpellsEntries es (t.code :: idBytes id ++ value ++ bytes)

/-! ### Reading -/

theorem headerBytes_eq (f : Field) :
    headerBytes f = f.type.code :: idBytes (Int16.ofNat f.number) := by
  cases f <;> rfl

theorem Field.type_ne_stop (f : Field) : f.type ≠ .stop := by
  cases f <;> decide

theorem Field.ofNumber?_number (f : Field) :
    Field.ofNumber? (Int16.ofNat f.number).toInt = some f := by
  cases f <;> decide

theorem Field.ofNumber?_eq_none {n : Int} (h : ∀ f : Field, (f.number : Int) ≠ n) :
    Field.ofNumber? n = none := by
  simpa [Field.ofNumber?] using fun f _ => h f

namespace Draft

/-- A draft with an entry taken in. -/
def put (d : Draft) (e : Entry) : Draft :=
  ⟨d.record.set e, e.1 = .code || d.hasCode⟩

theorem foldl_put (es : List Entry) (d : Draft) :
    es.foldl put d = ⟨es.foldl Record.set d.record, es.any (·.1 = .code) || d.hasCode⟩ := by
  induction es generalizing d with
  | nil => simp
  | cons e es ih => simp [ih, put, Bool.or_left_comm, Bool.or_assoc]

theorem read_append {c : f.Content} (h : f.Spells c value)
    (d : Draft) (rest : List UInt8) : d.read f (value ++ rest) = .ok (d.put ⟨f, c⟩) rest := by
  have hint (n : Int32) :
      Reader.int 4 (int32Bytes n.toBitVec ++ rest) = .ok n.toInt rest :=
    Reader.int_int32Bytes n.toBitVec rest
  cases h with
  | name h => exact Reader.bind_of_ok (Reader.string_append h rest)
  | stage n =>
    rw [read, Reader.bind_of_ok (hint n), Int32.ofInt_toInt]
    rfl
  | code h => exact Reader.bind_of_ok (Reader.binary_append h rest)
  | instructions n =>
    rw [read, Reader.bind_of_ok (hint n), Int32.ofInt_toInt]
    rfl
  | words n =>
    rw [read, Reader.bind_of_ok (hint n), Int32.ofInt_toInt]
    rfl
  | optimized b => rfl

/-- The header of a known field leads to the field. -/
theorem readFields_known {c : f.Content}
    (h : f.Spells c value) :
    readFields total (fuel + 1) d (headerBytes f ++ value ++ rest) =
      readFields total fuel (d.put ⟨f, c⟩) rest := by
  rw [readFields, headerBytes_eq, List.append_assoc,
    Reader.fieldHeader_append f.type_ne_stop]
  simp only [if_neg f.type_ne_stop, Field.ofNumber?_number, read_append h, if_true]

theorem readFields_unknown {id : Int16}
    (hid : ∀ f : Field, (f.number : Int) ≠ id.toInt)
    (h : Spells Reader.maxDepth t value) :
    readFields total (fuel + 1) d (t.code :: idBytes id ++ value ++ rest) =
      readFields total fuel d rest := by
  rw [readFields, List.append_assoc, Reader.fieldHeader_append h.ne_stop]
  simp only [if_neg h.ne_stop, Field.ofNumber?_eq_none hid, Reader.skip_append h rest]

/-- Reading goes over a sequence of fields and takes in its entries one after another. -/
theorem readFields_append (h : SpellsEntries es bytes) :
    ∃ n ≤ bytes.length, ∀ total fuel d rest, readFields total (fuel + n) d (bytes ++ rest) =
      readFields total fuel (es.foldl put d) rest := by
  induction h with
  | nil => exact ⟨0, le_rfl, fun _ _ _ _ => rfl⟩
  | @known es bytes f c value h hes ih =>
    obtain ⟨n, hn, ih⟩ := ih
    refine ⟨n + 1, ?_, fun total fuel d rest => ?_⟩
    · simp only [List.length_append, headerBytes, List.length_cons]
      omega
    · rw [List.append_assoc, ← Nat.add_assoc, readFields_known h, ih, List.foldl_cons]
  | @unknown es bytes id t value hid h hes ih =>
    obtain ⟨n, hn, ih⟩ := ih
    refine ⟨n + 1, ?_, fun total fuel d rest => ?_⟩
    · simp only [List.length_append, List.length_cons]
      omega
    · rw [List.append_assoc, ← Nat.add_assoc, readFields_unknown hid h, ih]

/-- With fuel for all the bytes, fuel is left behind a sequence of fields. -/
theorem exists_readFields_append
    (h : SpellsEntries es bytes) (tail : List UInt8) : ∃ fuel, ∀ total d,
      readFields total ((bytes ++ tail).length + 1) d (bytes ++ tail) =
        readFields total (fuel + 1) (es.foldl put d) tail := by
  obtain ⟨n, hn, hread⟩ := readFields_append h
  refine ⟨(bytes ++ tail).length - n, fun total d => ?_⟩
  have hfuel : (bytes ++ tail).length + 1 = (bytes ++ tail).length - n + 1 + n := by
    rw [List.length_append]
    omega
  rw [← hread, ← hfuel]

theorem readFields_stop (total fuel : Nat) (d : Draft) (rest : List UInt8) :
    readFields total (fuel + 1) d (FieldType.stop.code :: rest) = .ok (d, rest.length) := rfl

/-- A known field of another type ends the reading. -/
theorem readFields_fieldType
    (hstop : t ≠ .stop) (ht : t ≠ f.type) :
    readFields total (fuel + 1) d (t.code :: idBytes (Int16.ofNat f.number) ++ rest) =
      .error ⟨total - rest.length, .fieldType f.number f.type t⟩ := by
  have hid : (Int16.ofNat f.number).toInt = f.number := by cases f <;> rfl
  rw [readFields, Reader.fieldHeader_append hstop, ← hid]
  simp only [if_neg hstop, Field.ofNumber?_number, if_neg ht]

end Draft

namespace Record

/-- Decoding goes on after a sequence of fields with what their entries have left. -/
theorem decode_eq_readFields (h : SpellsEntries es bytes)
    (tail : List UInt8) : ∃ fuel, decode (bytes ++ tail) =
      (Draft.readFields (bytes.length + tail.length) (fuel + 1)
        ⟨es.foldl set blank, es.any (·.1 = .code)⟩ tail).bind fun x =>
          if x.1.hasCode then .ok x.1.record
          else .error ⟨bytes.length + tail.length - x.2, .missingCode⟩ := by
  obtain ⟨fuel, hread⟩ := Draft.exists_readFields_append h tail
  refine ⟨fuel, ?_⟩
  have hdraft : es.foldl Draft.put ⟨blank, false⟩ =
      ⟨es.foldl set blank, es.any (·.1 = .code)⟩ := by
    rw [Draft.foldl_put, Bool.or_false]
  rw [← hdraft, ← hread, ← List.length_append]
  rfl

/-- A well-formed envelope gives the record that its entries leave, unless none of them is
of the code. -/
theorem decode_append (h : SpellsEntries es bytes)
    (rest : List UInt8) : decode (bytes ++ FieldType.stop.code :: rest) =
      if es.any (·.1 = .code) then .ok (es.foldl set blank)
      else .error ⟨bytes.length + 1, .missingCode⟩ := by
  obtain ⟨fuel, hdecode⟩ := decode_eq_readFields h (FieldType.stop.code :: rest)
  have hleft : bytes.length + (rest.length + 1) - rest.length = bytes.length + 1 := by omega
  rw [hdecode, Draft.readFields_stop, List.length_cons, Except.bind, hleft]

/-- A well-formed envelope, with anything after its stop mark, decodes if and only if the code
occurs in it. Each field then has the value of its last occurrence, and is blank if it does not
occur; fields of other numbers leave no trace. After any well-formed fields, a known field of
another type makes decoding fail, whatever follows. -/
theorem decode_of_entries {es : List Entry} {bytes : List UInt8} (h : SpellsEntries es bytes) :
    (∀ rest,
      ((∃ r, decode (bytes ++ FieldType.stop.code :: rest) = .ok r) ↔ ∃ e ∈ es, e.1 = .code)
      ∧ ∀ r, decode (bytes ++ FieldType.stop.code :: rest) = .ok r →
        ∀ f, r.get f = (lastOf f es).getD (blank.get f))
    ∧ ∀ (f : Field) (t : FieldType) (rest : List UInt8), t ≠ .stop → t ≠ f.type →
      decode (bytes ++ (t.code :: idBytes (Int16.ofNat f.number) ++ rest)) =
        .error ⟨bytes.length + 3, .fieldType f.number f.type t⟩ := by
  have hcode : es.any (·.1 = .code) = true ↔ ∃ e ∈ es, e.1 = .code := by
    simp only [List.any_eq_true, decide_eq_true_eq]
  refine ⟨fun rest => ?_, fun f t rest hstop ht => ?_⟩
  · rw [decode_append h rest, ← hcode]
    split
    · next hany =>
      refine ⟨⟨fun _ => hany, fun _ => ⟨_, rfl⟩⟩, ?_⟩
      rintro r ⟨⟩ f
      exact get_foldl_set es blank f
    · next hany =>
      exact ⟨⟨nofun, fun hcode => absurd hcode hany⟩, nofun⟩
  · obtain ⟨fuel, hdecode⟩ :=
      decode_eq_readFields h (t.code :: idBytes (Int16.ofNat f.number) ++ rest)
    rw [hdecode, Draft.readFields_fieldType hstop ht, Except.bind, List.length_append]
    have hheader : (t.code :: idBytes (Int16.ofNat f.number)).length = 3 := rfl
    congr 2
    omega

/-- Fields in which the number of words occurs twice, with a list that holds an empty record under
an unknown number between them. -/
def mixedFields : List UInt8 :=
  [8, 0, 5, 0, 0, 0, 1, 15, 255, 255, 12, 0, 0, 0, 1, 0, 11, 0, 3, 0, 0, 0, 1, 7,
    8, 0, 5, 0, 0, 0, 2]

theorem mixedFields_spell :
    SpellsEntries [⟨.words, 1⟩, ⟨.code, [7]⟩, ⟨.words, 2⟩] mixedFields := by
  have hrecord : Spells 63 .record [0] := @Spells.record 62 [] nofun
  have hlist : Spells 64 .list [12, 0, 0, 0, 1, 0] :=
    @Spells.elements 63 .list .record [[0]] (.inr rfl) (by decide) (by simpa using hrecord)
  have hid (f : Field) : (f.number : Int) ≠ (-1 : Int16).toInt := by cases f <;> decide
  have hcode : Field.Spells .code [7] (sizedBytes [7]) := .code (by decide)
  exact .known (.words 1) (.unknown hid hlist (.known hcode (.known (.words 2) .nil)))

/-- The sample decodes to the later number of words, and fails where the name is a number. -/
theorem decode_of_entries_mixed :
    (∃ r, decode (mixedFields ++ [0, 9, 9]) = .ok r ∧ r.words = 2 ∧ r.code = [7] ∧ r.stage = 0)
    ∧ decode (mixedFields ++ [8, 0, 1]) = .error ⟨34, .fieldType 1 .string .int32⟩ := by
  obtain ⟨hdecode, htype⟩ := decode_of_entries mixedFields_spell
  obtain ⟨hok, hvalues⟩ := hdecode [9, 9]
  obtain ⟨r, hr⟩ := hok.mpr ⟨⟨.code, [7]⟩, by simp, rfl⟩
  exact ⟨⟨r, hr, hvalues r hr .words, hvalues r hr .code, hvalues r hr .stage⟩,
    htype .name .int32 [] (by decide) (by decide)⟩

end Record

end ShaderCompiler.Envelope
