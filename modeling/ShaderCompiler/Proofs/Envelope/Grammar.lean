import Mathlib
import ShaderCompiler.Envelope.Record

/-!
# Well-formed values

The grammar of values says which bytes spell a value of a type, with values nested to a given
depth at most. Every reader takes exactly the bytes that the grammar gives a value, whatever
follows them. Skipping does so too: a map value gets a fresh limit of nesting and its failure is
forgotten, but neither matters for values that keep to the limit.
-/

namespace ShaderCompiler.Envelope

variable {t : FieldType} {n d : Nat} {bytes rest : List UInt8} {r : Reader Unit}

open Record (int32Bytes sizedBytes)

/-! ### The grammar -/

namespace FieldType

/-- A record. -/
def record : FieldType := ⟨12⟩

/-- Pairs of a key and a value. -/
def map : FieldType := ⟨13⟩

/-- A set of elements. -/
def set : FieldType := ⟨14⟩

/-- A list of elements. -/
def list : FieldType := ⟨15⟩

/-- The number of bytes of a value: one for truth values and bytes, two, four or eight for
numbers. Other values have no fixed size. -/
def size? (t : FieldType) : Option Nat :=
  match t.code with
  | 2 | 3 => some 1
  | 6 => some 2
  | 8 => some 4
  | 4 | 10 => some 8
  | _ => none

end FieldType

/-- The bytes of a field number. -/
def idBytes (id : Int16) : List UInt8 :=
  [8, 0].map fun k => (id.toBitVec.toNat >>> k).toUInt8

/-- The bytes that spell a value of a type in which values are nested to a depth at most. The
types of the elements of an empty container are free. -/
inductive Spells : Nat → FieldType → List UInt8 → Prop
  | fixed {d : Nat} {t : FieldType} {bytes : List UInt8} (h : t.size? = some bytes.length) :
      Spells (d + 1) t bytes
  | string {d : Nat} {bytes : List UInt8} (h : bytes.length < 2 ^ 31) :
      Spells (d + 1) .string (sizedBytes bytes)
  | record {d : Nat} {fields : List (FieldType × Int16 × List UInt8)}
      (h : ∀ f ∈ fields, Spells d f.1 f.2.2) :
      Spells (d + 1) .record
        ((fields.flatMap fun f => f.1.code :: idBytes f.2.1 ++ f.2.2) ++ [FieldType.stop.code])
  | map {d : Nat} {key value : FieldType} {entries : List (List UInt8 × List UInt8)}
      (hlen : entries.length < 2 ^ 31) (hkey : ∀ e ∈ entries, Spells d key e.1)
      (hvalue : ∀ e ∈ entries, Spells d value e.2) :
      Spells (d + 1) .map (key.code :: value.code :: int32Bytes (BitVec.ofNat 32 entries.length)
        ++ entries.flatMap fun e => e.1 ++ e.2)
  | elements {d : Nat} {t element : FieldType} {elements : List (List UInt8)}
      (ht : t = .set ∨ t = .list) (hlen : elements.length < 2 ^ 31)
      (h : ∀ e ∈ elements, Spells d element e) :
      Spells (d + 1) t (element.code :: int32Bytes (BitVec.ofNat 32 elements.length)
        ++ elements.flatten)

theorem FieldType.size?_pos (h : t.size? = some n) : 0 < n := by
  unfold size? at h
  split at h <;> simp at h <;> omega

theorem Spells.length_pos (h : Spells d t bytes) :
    0 < bytes.length := by
  cases h with
  | fixed h => exact FieldType.size?_pos h
  | string => simp [sizedBytes, int32Bytes]
  | record => simp
  | map => simp
  | elements => simp

theorem Spells.ne_stop (h : Spells d t bytes) :
    t ≠ .stop := by
  rintro rfl
  cases h with
  | fixed h => cases h
  | elements ht => rcases ht with ht | ht <;> cases ht

section Lengths

variable {α : Type} {l : List α} {k : α → List UInt8}

theorem length_le_flatMap (h : ∀ x ∈ l, 0 < (k x).length) : l.length ≤ (l.flatMap k).length := by
  rw [List.length_flatMap, ← List.length_map (f := fun x => (k x).length)]
  exact List.length_le_sum_of_one_le _ (List.forall_mem_map.mpr h)

theorem length_le_flatMap_of_mem {x : α} (h : x ∈ l) : (k x).length ≤ (l.flatMap k).length := by
  rw [List.flatMap_def]
  exact (List.sublist_flatten_of_mem (List.mem_map_of_mem h)).length_le

end Lengths

namespace Reader

variable {α β : Type}

/-- A reader goes on from where its first part stopped. -/
theorem bind_of_ok {x : Reader α} {k : α → Reader β} {y : α}
    (h : x bytes = .ok y rest) : (x >>= k) bytes = k y rest := by
  change EStateM.bind x k bytes = _
  rw [EStateM.bind, h]

theorem discard_of_ok {x : Reader α} {y : α}
    (h : x bytes = .ok y rest) : (discard x : Reader Unit) bytes = .ok () rest := by
  change EStateM.map (fun _ => ()) x bytes = _
  rw [EStateM.map, h]

/-! ### Readers of values -/

theorem take_append (h : bytes.length = n) (rest : List UInt8) :
    take n (bytes ++ rest) = .ok bytes rest := by
  simp [take, ← h]

theorem takePieces_append (h : bytes.length = n)
    (rest : List UInt8) : takePieces n (bytes ++ rest) = .ok bytes rest := by
  simp [takePieces, ← h]

theorem bigEndian_idBytes (id : Int16) : bigEndian (idBytes id) = id.toBitVec.toNat := by
  have hlt := id.toBitVec.isLt
  simp [bigEndian, idBytes, Nat.shiftRight_eq_div_pow]
  omega

theorem bigEndian_int32Bytes (n : BitVec 32) : bigEndian (int32Bytes n) = n.toNat := by
  have hlt := n.isLt
  simp [bigEndian, int32Bytes, Nat.shiftRight_eq_div_pow]
  omega

/-- A number is read back from its bytes. -/
theorem int_append {x : BitVec (8 * n)} (hlen : bytes.length = n)
    (h : bigEndian bytes = x.toNat) (rest : List UInt8) :
    int n (bytes ++ rest) = .ok x.toInt rest := by
  rw [int, bind_of_ok (take_append hlen rest), h, BitVec.ofNat_toNat, BitVec.setWidth_eq]
  rfl

theorem int_int32Bytes (n : BitVec 32) (rest : List UInt8) :
    int 4 (int32Bytes n ++ rest) = .ok n.toInt rest :=
  int_append (n := 4) (x := n) rfl (bigEndian_int32Bytes n) rest

theorem int_idBytes (id : Int16) (rest : List UInt8) :
    int 2 (idBytes id ++ rest) = .ok id.toInt rest :=
  int_append (n := 2) (x := id.toBitVec) rfl (bigEndian_idBytes id) rest

theorem length_append (h : n < 2 ^ 31) (rest : List UInt8) :
    length (int32Bytes (BitVec.ofNat 32 n) ++ rest) = .ok n rest := by
  have hn : (BitVec.ofNat 32 n).toInt = n := by
    rw [BitVec.toInt_ofNat']
    exact Int.bmod_eq_of_le (by omega) (by omega)
  rw [length, bind_of_ok (int_int32Bytes _ rest), hn, if_neg (by omega)]
  rfl

theorem string_append (h : bytes.length < 2 ^ 31) (rest : List UInt8) :
    string (sizedBytes bytes ++ rest) = .ok bytes rest := by
  rw [string, sizedBytes, List.append_assoc, bind_of_ok (length_append h _)]
  exact takePieces_append rfl rest

theorem binary_append (h : bytes.length < 2 ^ 31) (rest : List UInt8) :
    binary (sizedBytes bytes ++ rest) = .ok bytes rest := by
  rw [binary, sizedBytes, List.append_assoc, bind_of_ok (length_append h _)]
  exact take_append rfl rest

/-- The header of a field is read back. -/
theorem fieldHeader_append (ht : t ≠ .stop) (id : Int16) (rest : List UInt8) :
    fieldHeader (t.code :: idBytes id ++ rest) = .ok (t, id.toInt) rest := by
  have hbyte : byte (t.code :: idBytes id ++ rest) = .ok t.code (idBytes id ++ rest) := rfl
  rw [fieldHeader, bind_of_ok hbyte]
  simp only [if_neg ht]
  rw [bind_of_ok (int_idBytes id rest)]
  rfl

/-! ### Skipping -/

/-- A reader takes the given bytes and nothing else. -/
def Takes (r : Reader Unit) (bytes : List UInt8) : Prop :=
  ∀ rest, r (bytes ++ rest) = .ok () rest

theorem repeated_succ_of_ok
    (h : r bytes = .ok () rest) (hlt : rest.length < bytes.length) :
    repeated r (n + 1) bytes = repeated r n rest := by
  simp only [repeated, h, if_neg (Nat.ne_of_lt hlt)]

theorem repeated_takes {pieces : List (List UInt8)}
    (h : ∀ piece ∈ pieces, r.Takes piece) (hpos : ∀ piece ∈ pieces, 0 < piece.length) :
    (repeated r pieces.length).Takes pieces.flatten := by
  induction pieces with
  | nil => exact fun rest => rfl
  | cons piece pieces ih =>
    intro rest
    have hpiece := hpos piece List.mem_cons_self
    rw [List.length_cons, List.flatten_cons, List.append_assoc,
      repeated_succ_of_ok (h piece List.mem_cons_self _)
        (by simp only [List.length_append]; omega)]
    exact ih (fun q hq => h q (List.mem_cons_of_mem _ hq))
      (fun q hq => hpos q (List.mem_cons_of_mem _ hq)) rest

theorem lenientType_append (ht : t ≠ .stop) (id : Int16) (rest : List UInt8) :
    lenientType (t.code :: idBytes id ++ rest) = .ok t rest := by
  have hcode : t.code ≠ 0 := fun h => ht (congrArg FieldType.mk h)
  simp only [lenientType, List.cons_append, if_neg hcode, int_idBytes id rest]

theorem skipFields_takes {value : FieldType → Reader Unit}
    {fields : List (FieldType × Int16 × List UInt8)} (hn : fields.length < n)
    (h : ∀ f ∈ fields, f.1 ≠ .stop ∧ (value f.1).Takes f.2.2) :
    (skipFields value n).Takes
      ((fields.flatMap fun f => f.1.code :: idBytes f.2.1 ++ f.2.2) ++ [FieldType.stop.code]) := by
  induction fields generalizing n with
  | nil =>
    intro rest
    obtain ⟨m, rfl⟩ := Nat.exists_eq_succ_of_ne_zero (Nat.ne_of_gt hn)
    rfl
  | cons f fields ih =>
    intro rest
    obtain ⟨m, rfl⟩ := Nat.exists_eq_succ_of_ne_zero (Nat.ne_of_gt (Nat.zero_lt_of_lt hn))
    obtain ⟨hstop, hvalue⟩ := h f List.mem_cons_self
    rw [List.flatMap_cons, List.append_assoc, List.append_assoc, List.append_assoc, skipFields,
      bind_of_ok (lenientType_append hstop f.2.1 _), if_neg hstop, bind_of_ok (hvalue _),
      ← List.append_assoc]
    exact ih (by simpa using hn) (fun g hg => h g (List.mem_cons_of_mem _ hg)) rest

theorem byte_cons (b : UInt8) (rest : List UInt8) : byte (b :: rest) = .ok b rest := rfl

theorem byte_takes (h : bytes.length = 1) :
    (discard byte : Reader Unit).Takes bytes := by
  obtain ⟨b, rfl⟩ := List.length_eq_one_iff.mp h
  exact fun rest => discard_of_ok rfl

theorem take_takes (h : bytes.length = n) :
    (discard (take n) : Reader Unit).Takes bytes :=
  fun rest => discard_of_ok (take_append h rest)

theorem skipValue_fixed (h : t.size? = some bytes.length)
    (fuel depth : Nat) : (skipValue (fuel + 1) (depth + 1) t).Takes bytes := by
  obtain ⟨code⟩ := t
  unfold FieldType.size? at h
  split at h
  case h_7 => cases h
  all_goals
    next hcode =>
    obtain rfl : code = _ := hcode
    have hlen := (Option.some.inj h).symm
    first
    | exact byte_takes hlen
    | exact take_takes hlen

theorem exists_add_one_of_lt {k n k' n' : Nat} (h : k < n) (h' : k' < n') :
    ∃ m m', n = m + 1 ∧ n' = m' + 1 :=
  ⟨n - 1, n' - 1, by omega, by omega⟩

/-- Skipping a well-formed value takes its bytes and nothing else, if the limit of nesting and the
fuel suffice. -/
theorem skipValue_append (h : Spells d t bytes)
    {depth fuel : Nat} (hdepth : d ≤ depth) (hmax : d ≤ maxDepth) (hfuel : bytes.length < fuel) :
    (skipValue fuel depth t).Takes bytes := by
  -- The grammar nests values as skipping does, and each of them is shorter than the one around it.
  induction h generalizing depth fuel with
  | @fixed d t bytes h =>
    obtain ⟨n, m, rfl, rfl⟩ := exists_add_one_of_lt hdepth hfuel
    exact skipValue_fixed h m n
  | @string d bytes h =>
    obtain ⟨n, m, rfl, rfl⟩ := exists_add_one_of_lt hdepth hfuel
    exact fun rest => discard_of_ok (string_append h rest)
  | @record d fields h ih =>
    obtain ⟨n, m, rfl, rfl⟩ := exists_add_one_of_lt hdepth hfuel
    rw [List.length_append, List.length_singleton] at hfuel
    refine skipFields_takes ?_ fun f hf => ⟨(h f hf).ne_stop, ih f hf (by omega) (by omega) ?_⟩
    · have hcount := length_le_flatMap (l := fields)
        (k := fun f => f.1.code :: idBytes f.2.1 ++ f.2.2) (by simp)
      omega
    · have hpart := length_le_flatMap_of_mem hf (k := fun f => f.1.code :: idBytes f.2.1 ++ f.2.2)
      simp only [List.length_append, List.length_cons] at hpart
      omega
  | @map d key value entries hlen hkey hvalue ihkey ihvalue =>
    obtain ⟨n, m, rfl, rfl⟩ := exists_add_one_of_lt hdepth hfuel
    intro rest
    have hpart {e : List UInt8 × List UInt8} (he : e ∈ entries) : e.1.length + e.2.length < m := by
      have := length_le_flatMap_of_mem he (k := fun e => e.1 ++ e.2)
      simp only [List.length_append, List.length_cons] at this hfuel
      omega
    have hentry (e) (he : e ∈ entries) : Takes (do
        skipValue m n key
        ignoringErrors (skipValue m maxDepth value)) (e.1 ++ e.2) := by
      intro rest
      have hp := hpart he
      rw [List.append_assoc, bind_of_ok (ihkey e he (by omega) (by omega) (by omega) _),
        ignoringErrors, ihvalue e he (by omega) (by omega) (by omega) _]
    have hskip : skipValue (m + 1) (n + 1) .map = (do
        let key : FieldType := ⟨← byte⟩
        let value : FieldType := ⟨← byte⟩
        let count ← length
        repeated (do
          skipValue m n key
          ignoringErrors (skipValue m maxDepth value)) count) := rfl
    rw [hskip, List.cons_append, List.cons_append, List.cons_append, List.cons_append,
      List.append_assoc, bind_of_ok (byte_cons _ _), bind_of_ok (byte_cons _ _),
      bind_of_ok (length_append hlen _), List.flatMap_def,
      ← List.length_map (f := fun e => e.1 ++ e.2)]
    refine repeated_takes (List.forall_mem_map.mpr hentry)
      (List.forall_mem_map.mpr fun e he => ?_) rest
    rw [List.length_append]
    exact Nat.add_pos_left (hkey e he).length_pos _
  | @elements d t element elements ht hlen h ih =>
    obtain ⟨n, m, rfl, rfl⟩ := exists_add_one_of_lt hdepth hfuel
    intro rest
    have hskip : skipValue (m + 1) (n + 1) t = (do
        let element : FieldType := ⟨← byte⟩
        let count ← length
        repeated (skipValue m n element) count) := by
      rcases ht with rfl | rfl <;> rfl
    rw [hskip, List.cons_append, List.cons_append, List.append_assoc, bind_of_ok (byte_cons _ _),
      bind_of_ok (length_append hlen _)]
    refine repeated_takes (fun e he => ih e he (by omega) (by omega) ?_)
      (fun e he => (h e he).length_pos) rest
    have hpart := (List.sublist_flatten_of_mem he).length_le
    simp only [List.length_append, List.length_cons] at hfuel
    omega

/-- Skipping a well-formed value takes its bytes and nothing else. -/
theorem skip_append (h : Spells maxDepth t bytes) :
    (skip t).Takes bytes := by
  intro rest
  rw [skip]
  refine skipValue_append h le_rfl le_rfl ?_ rest
  simp only [List.length_append]
  omega

end Reader

end ShaderCompiler.Envelope
