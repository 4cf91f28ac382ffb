import ShaderCompiler.Envelope.Record
import ShaderCompiler.Shader

/-!
# Compiled shaders

A compiled shader is stored as an envelope record, in which the number of words of the
code is written down as well. Reading it back checks that the code consists of whole
words and that their number is the one written down.
-/

namespace ShaderCompiler

open Envelope

/-- A compiled shader. -/
structure Binary where
  /-- The name, as its bytes. -/
  name : List UInt8
  stage : Stage
  code : List UInt8
  instructions : Int
  optimized : Bool
deriving DecidableEq

namespace Binary

/-- The number of bytes of a word. -/
def wordSize : Nat := 8

/-- The record of a compiled shader. Numbers are cut to 32 bits. -/
def toRecord (b : Binary) : Record :=
  { name := b.name
    stage := Int32.ofNat b.stage.code.toNat
    code := b.code
    instructions := Int32.ofInt b.instructions
    words := Int32.ofInt (b.code.length / wordSize : Nat)
    optimized := b.optimized }

/-- The bytes of a compiled shader. -/
def marshal (b : Binary) : List UInt8 :=
  b.toRecord.encode

/-- The compiled shader of a record whose code consists of as many whole words as the record
says. The stage is cut to 8 bits. -/
def ofRecord (r : Record) : Except FormatError Binary :=
  if r.code.length % wordSize ≠ 0 then
    .error ⟨0, .partialWord r.code.length⟩
  else if r.words.toInt ≠ (r.code.length / wordSize : Nat) then
    .error ⟨0, .wordCount (r.code.length / wordSize) r.words.toInt⟩
  else
    .ok ⟨r.name, ⟨r.stage.toBitVec.toNat.toUInt8⟩, r.code, r.instructions.toInt, r.optimized⟩

/-- The compiled shader that bytes start with. -/
def unmarshal (bytes : List UInt8) : Except FormatError Binary := do
  ofRecord (← Record.decode bytes)

end Binary

end ShaderCompiler
