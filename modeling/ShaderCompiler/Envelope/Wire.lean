/-!
# Reading tagged fields

Records are stored as a sequence of fields, each with a type, a number and a value, up
to a stop mark. Numbers are big endian. Texts and byte strings have their length in
front. Containers name the types of their elements and the number of them. What is assumed
of the protocol is spelled out here: every read and write of a single value, byte by byte.

A reader works on the bytes that are left. If a read fails, the bytes it took stay
taken, so that the number of bytes left tells where it failed.

Values of unknown fields are skipped. Skipping is lenient in two places: inside a record,
a field header that cannot be read ends the record, and the value of a map entry may
fail. Nested values are skipped up to a limit of nesting, which starts anew at the
value of a map entry.
-/

namespace ShaderCompiler.Envelope

/-- The type of a field, by its code. -/
structure FieldType where
  code : UInt8
deriving DecidableEq

namespace FieldType

/-- The end of the fields. -/
def stop : FieldType := ⟨0⟩

/-- A truth value. -/
def bool : FieldType := ⟨2⟩

/-- A number of 32 bits. -/
def int32 : FieldType := ⟨8⟩

/-- A text or byte string. -/
def string : FieldType := ⟨11⟩

/-- The name of a type. -/
def text (t : FieldType) : String :=
  match t.code with
  | 0 => "STOP"
  | 1 => "VOID"
  | 2 => "BOOL"
  | 3 => "BYTE"
  | 4 => "DOUBLE"
  | 6 => "I16"
  | 8 => "I32"
  | 10 => "I64"
  | 11 => "STRING"
  | 12 => "STRUCT"
  | 13 => "MAP"
  | 14 => "SET"
  | 15 => "LIST"
  | 16 => "UTF8"
  | 17 => "UTF16"
  | _ => "Unknown"

end FieldType

/-- Why reading fails. -/
inductive ReadError where
  /-- No byte is left. -/
  | endOfInput
  /-- Some bytes are left, but not enough. -/
  | cutShort
  /-- A length is negative. -/
  | negativeLength
  /-- Values are nested too deep. -/
  | tooDeep
  /-- The type of a value to skip is unknown. -/
  | unknownType (code : UInt8)
deriving DecidableEq

/-- The wording of a read error. -/
def ReadError.message : ReadError → String
  | .endOfInput => "EOF"
  | .cutShort => "unexpected EOF"
  | .negativeLength => "Invalid data length"
  | .tooDeep => "Depth limit exceeded"
  | .unknownType code => "Unknown data type " ++ toString code.toNat

/-- A computation on the bytes that are left. -/
abbrev Reader := EStateM ReadError (List UInt8)

namespace Reader

/-- The next byte. -/
def byte : Reader UInt8 := fun bytes =>
  match bytes with
  | [] => .error .endOfInput []
  | b :: rest => .ok b rest

/-- The next `n` bytes. If there are fewer, all of them are taken, and the failure tells
whether there were any. -/
def take (n : Nat) : Reader (List UInt8) := fun bytes =>
  if n ≤ bytes.length then .ok (bytes.take n) (bytes.drop n)
  else .error (if bytes.isEmpty then .endOfInput else .cutShort) []

/-- The size of the pieces in which a text is read. -/
def pieceSize : Nat := 32768

/-- The next `n` bytes, read in pieces. If there are fewer, all of them are taken, and the
failure tells whether the last piece was cut short. -/
def takePieces (n : Nat) : Reader (List UInt8) := fun bytes =>
  if n ≤ bytes.length then .ok (bytes.take n) (bytes.drop n)
  else .error (if bytes.length % pieceSize = 0 then .endOfInput else .cutShort) []

/-- The number that bytes spell, the highest first. -/
def bigEndian (bytes : List UInt8) : Nat :=
  bytes.foldl (fun n b => n * 256 + b.toNat) 0

/-- A signed number of `n` bytes. -/
def int (n : Nat) : Reader Int := do
  let bytes ← take n
  return (BitVec.ofNat (8 * n) (bigEndian bytes)).toInt

/-- A length, which must not be negative. -/
def length : Reader Nat := do
  let n ← int 4
  if n < 0 then throw .negativeLength else return n.toNat

/-- A byte string. -/
def binary : Reader (List UInt8) := do
  take (← length)

/-- A text, as its bytes. -/
def string : Reader (List UInt8) := do
  takePieces (← length)

/-- A truth value, which is true for the byte `1` alone. -/
def bool : Reader Bool :=
  return (← byte) = 1

/-- The type and the number of the next field. A stop mark has no number. -/
def fieldHeader : Reader (FieldType × Int) := do
  let t : FieldType := ⟨← byte⟩
  if t = .stop then return (t, 0) else return (t, ← int 2)

/-- The type of the next field, where a header that cannot be read counts as far as its type
was read. -/
def lenientType : Reader FieldType := fun bytes =>
  match bytes with
  | [] => .ok .stop []
  | code :: rest =>
      if code = 0 then .ok .stop rest
      else
        match int 2 rest with
        | .ok _ rest => .ok ⟨code⟩ rest
        | .error _ rest => .ok ⟨code⟩ rest

/-- The limit of nesting of a skipped value. -/
def maxDepth : Nat := 64

/-- A reader whose failure is forgotten. -/
def ignoringErrors (r : Reader Unit) : Reader Unit := fun bytes =>
  match r bytes with
  | .ok _ rest => .ok () rest
  | .error _ rest => .ok () rest

/-- A reader repeated `n` times. Once it takes no byte it never will, so it ends there. -/
def repeated (r : Reader Unit) : Nat → Reader Unit
  | 0 => return ()
  | n + 1 => fun bytes =>
      match r bytes with
      | .error e rest => .error e rest
      | .ok _ rest => if rest.length = bytes.length then .ok () rest else repeated r n rest

/-- Skips the fields of a record, each with `value`, at most `n` of them. -/
def skipFields (value : FieldType → Reader Unit) : Nat → Reader Unit
  | 0 => return ()
  | n + 1 => do
      let t ← lenientType
      if t = .stop then return ()
      else
        value t
        skipFields value n

/-- Skips a value of a given type. Every value nested in another comes after at least one byte
of it, so `fuel` is the number of bytes that are left, or more. -/
def skipValue : Nat → Nat → FieldType → Reader Unit
  | 0, _, _ => return ()
  | _ + 1, 0, _ => throw .tooDeep
  | fuel + 1, depth + 1, t => do
      match t.code with
      | 2 | 3 => discard byte
      | 4 | 10 => discard <| take 8
      | 6 => discard <| take 2
      | 8 => discard <| take 4
      | 11 => discard string
      | 12 => skipFields (skipValue fuel depth) fuel
      | 13 =>
          let key : FieldType := ⟨← byte⟩
          let value : FieldType := ⟨← byte⟩
          let n ← length
          repeated (do
            skipValue fuel depth key
            ignoringErrors (skipValue fuel maxDepth value)) n
      | 14 | 15 =>
          let element : FieldType := ⟨← byte⟩
          let n ← length
          repeated (skipValue fuel depth element) n
      | code => throw (.unknownType code)

/-- Skips a value of a given type. -/
def skip (t : FieldType) : Reader Unit := fun bytes =>
  skipValue (bytes.length + 1) maxDepth t bytes

end Reader

end ShaderCompiler.Envelope
