import ShaderCompiler.Envelope.Wire

/-!
# The envelope record

The record in which a compiled shader is stored has six numbered fields. Writing puts
all of them in order. Reading takes them in any order, skips unknown fields, lets a later
occurrence of a field replace an earlier one, and ignores what follows the record. Only
the code has to be there; a field that does not occur is zero or empty.
-/

namespace ShaderCompiler.Envelope

/-- The fields of the record. -/
inductive Field where
  | name
  | stage
  | code
  | instructions
  | words
  | optimized
deriving DecidableEq

namespace Field

/-- The fields in the order of their numbers. -/
def all : List Field := [.name, .stage, .code, .instructions, .words, .optimized]

/-- The number of a field. -/
def number : Field → Nat
  | .name => 1
  | .stage => 2
  | .code => 3
  | .instructions => 4
  | .words => 5
  | .optimized => 6

/-- The field of a number. -/
def ofNumber? (n : Int) : Option Field :=
  all.find? fun f => (f.number : Int) = n

/-- The type of a field. -/
def type : Field → FieldType
  | .name | .code => .string
  | .stage | .instructions | .words => .int32
  | .optimized => .bool

end Field

/-- The values of the fields. -/
structure Record where
  /-- The name, as its bytes. -/
  name : List UInt8
  stage : Int32
  code : List UInt8
  instructions : Int32
  words : Int32
  optimized : Bool
deriving DecidableEq

/-- A buffer that is being written, and the position up to which it is. -/
structure Buffer where
  bytes : List UInt8
  position : Nat
deriving DecidableEq

/-- Writes bytes at the position, over what is there. -/
def Buffer.put (b : Buffer) (piece : List UInt8) : Buffer :=
  ⟨b.bytes.take b.position ++ piece ++ b.bytes.drop (b.position + piece.length),
    b.position + piece.length⟩

namespace Record

/-- The record without any field. -/
def blank : Record := ⟨[], 0, [], 0, 0, false⟩

/-! ### Writing -/

/-- The bytes of a number of 32 bits. -/
def int32Bytes (n : BitVec 32) : List UInt8 :=
  [24, 16, 8, 0].map fun k => (n.toNat >>> k).toUInt8

/-- A byte string behind its length. -/
def sizedBytes (bytes : List UInt8) : List UInt8 :=
  int32Bytes (BitVec.ofNat 32 bytes.length) ++ bytes

/-- The bytes of the value of a field. -/
def valueBytes (r : Record) : Field → List UInt8
  | .name => sizedBytes r.name
  | .stage => int32Bytes r.stage.toBitVec
  | .code => sizedBytes r.code
  | .instructions => int32Bytes r.instructions.toBitVec
  | .words => int32Bytes r.words.toBitVec
  | .optimized => [if r.optimized then 1 else 0]

/-- The bytes in front of the value of a field: its type and its number. -/
def headerBytes (f : Field) : List UInt8 :=
  [f.type.code, 0, f.number.toUInt8]

/-- The pieces in which a record is written: its fields in order, and the stop mark. -/
def pieces (r : Record) : List (List UInt8) :=
  (Field.all.flatMap fun f => [headerBytes f, r.valueBytes f]) ++ [[FieldType.stop.code]]

/-- The number of bytes of a record. -/
def encodedLength (r : Record) : Nat :=
  (3 + 4 + r.name.length) + (3 + 4) + (3 + 4 + r.code.length) + (3 + 4) + (3 + 4) + (3 + 1) + 1

/-- Writes a record over the start of a buffer, which has room for it. -/
def write (r : Record) (buffer : List UInt8) : Buffer :=
  r.pieces.foldl Buffer.put ⟨buffer, 0⟩

/-- The bytes of a record: what is written of a buffer that is as long as the record. -/
def encode (r : Record) : List UInt8 :=
  let written := r.write (List.replicate r.encodedLength 0)
  written.bytes.take written.position

end Record

/-! ### Reading -/

/-- What is being read when reading fails. -/
inductive Part where
  | fieldHeader
  | unknownField
  | fieldValue
deriving DecidableEq

/-- The name of a part. -/
def Part.text : Part → String
  | .fieldHeader => "field header"
  | .unknownField => "unknown field"
  | .fieldValue => "field value"

/-- Why bytes are no envelope. -/
inductive FormatCause where
  | reading (part : Part) (error : ReadError)
  | fieldType (number : Int) (expected got : FieldType)
  | missingCode
  | partialWord (bytes : Nat)
  | wordCount (found : Nat) (header : Int)
deriving DecidableEq

/-- A cause, and the number of bytes before it. -/
structure FormatError where
  position : Nat
  cause : FormatCause
deriving DecidableEq

/-- The wording of a format error. -/
def FormatError.message (e : FormatError) : String :=
  let place := "Format error at position " ++ toString e.position ++ ": "
  match e.cause with
  | .reading part error => "read " ++ part.text ++ ": " ++ place ++ error.message
  | .fieldType n expected got =>
      place ++ "field " ++ toString n ++ " should be " ++ expected.text ++ ", got " ++ got.text
  | .missingCode => place ++ "required field \"code\" is missing"
  | .partialWord n =>
      place ++ "code size " ++ toString n ++ " is not a multiple of the word size"
  | .wordCount found header =>
      place ++ "code has " ++ toString found ++ " words, header says " ++ toString header

/-- A record being read, and whether its code was found. -/
structure Draft where
  record : Record
  hasCode : Bool
deriving DecidableEq

namespace Draft

/-- Reads the value of a field into the record. -/
def read (d : Draft) : Field → Reader Draft
  | .name => return { d with record := { d.record with name := ← Reader.string } }
  | .stage => return { d with record := { d.record with stage := Int32.ofInt (← Reader.int 4) } }
  | .code => return { record := { d.record with code := ← Reader.binary }, hasCode := true }
  | .instructions =>
      return { d with record := { d.record with instructions := Int32.ofInt (← Reader.int 4) } }
  | .words => return { d with record := { d.record with words := Int32.ofInt (← Reader.int 4) } }
  | .optimized => return { d with record := { d.record with optimized := ← Reader.bool } }

/-- Reads fields up to the stop mark, and tells how many bytes are left. Each field takes at
least one byte, so `fuel` is the number of bytes that are left, or more. -/
def readFields (total : Nat) : Nat → Draft → List UInt8 → Except FormatError (Draft × Nat)
  | 0, _, bytes => .error ⟨total - bytes.length, .reading .fieldHeader .endOfInput⟩
  | fuel + 1, d, bytes =>
      match Reader.fieldHeader bytes with
      | .error e rest => .error ⟨total - rest.length, .reading .fieldHeader e⟩
      | .ok (t, number) rest =>
          if t = .stop then .ok (d, rest.length)
          else
            match Field.ofNumber? number with
            | none =>
                match Reader.skip t rest with
                | .error e rest => .error ⟨total - rest.length, .reading .unknownField e⟩
                | .ok _ rest => readFields total fuel d rest
            | some f =>
                if t = f.type then
                  match d.read f rest with
                  | .error e rest => .error ⟨total - rest.length, .reading .fieldValue e⟩
                  | .ok d rest => readFields total fuel d rest
                else .error ⟨total - rest.length, .fieldType number f.type t⟩

end Draft

/-- The record that bytes start with. -/
def Record.decode (bytes : List UInt8) : Except FormatError Record := do
  let total := bytes.length
  let (d, left) ← Draft.readFields total (total + 1) ⟨.blank, false⟩ bytes
  if d.hasCode then return d.record
  else throw ⟨total - left, .missingCode⟩

end ShaderCompiler.Envelope
