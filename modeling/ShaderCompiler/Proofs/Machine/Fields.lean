import Mathlib
import ShaderCompiler.Machine.Word

/-!
# Fields of a word

A word is put together from numbers that stand at bit positions. A layout says which numbers,
and how many bits each of them has. If no two fields of a layout overlap and every number fits
into its field, then each number can be read back from the word.
-/

namespace ShaderCompiler.Machine

/-- A field of a layout. -/
structure Field (τ : Type) where
  tag : τ
  pos : Nat
  width : Nat
deriving DecidableEq

namespace Field

variable {τ : Type}

/-- Two fields do not overlap. -/
def Apart (p q : Field τ) : Prop :=
  p.pos + p.width ≤ q.pos ∨ q.pos + q.width ≤ p.pos

instance (p q : Field τ) : Decidable (p.Apart q) :=
  inferInstanceAs (Decidable (_ ∨ _))

instance : Std.Symm (@Apart τ) where
  symm _ _ h := Or.symm h

end Field

variable {τ : Type} {number : τ → Nat} {l : List (Field τ)}

/-- The word with the given numbers in its fields. -/
def assemble (number : τ → Nat) : List (Field τ) → Word
  | [] => 0#64
  | p :: l => field (number p.tag) p.pos ||| assemble number l

/-- The number that stands in some bits of a word. -/
def bitsAt (w : Word) (pos width : Nat) : Nat :=
  (w.toNat >>> pos) % 2 ^ width

@[simp] theorem assemble_nil : assemble number [] = 0#64 := rfl

@[simp] theorem assemble_cons (p : Field τ) :
    assemble number (p :: l) = field (number p.tag) p.pos ||| assemble number l := rfl

theorem assemble_append (m : List (Field τ)) :
    assemble number (l ++ m) = assemble number l ||| assemble number m := by
  induction l with
  | nil => simp
  | cons p l ih => rw [List.cons_append, assemble_cons, assemble_cons, ih, BitVec.or_assoc]

@[simp] theorem field_zero (pos : Nat) : field 0 pos = 0#64 := by
  simp [field]

/-- A field that an operation may lack contributes nothing if its number is zero. -/
theorem assemble_ite {c : Prop} [Decidable c] {p : Field τ} (h : ¬ c → number p.tag = 0) :
    assemble number (if c then [p] else []) = field (number p.tag) p.pos := by
  split
  · simp
  · next hc => simp [h hc]

theorem testBit_field {n pos i : Nat} :
    (field n pos).toNat.testBit i = (decide (i < 64 ∧ pos ≤ i) && n.testBit (i - pos)) := by
  rw [field, BitVec.testBit_toNat, BitVec.getLsbD_shiftLeft]
  by_cases hi : i < 64
  · by_cases hpos : pos ≤ i
    · have hsub : i - pos < 64 := by omega
      rw [BitVec.getLsbD_ofNat]
      simp [hi, hpos, hsub, Nat.not_lt.mpr hpos]
    · simp [hi, hpos, Nat.not_le.mp hpos]
  · simp [hi]

theorem testBit_assemble {i : Nat} : (assemble number l).toNat.testBit i
    = l.any fun p => decide (i < 64 ∧ p.pos ≤ i) && (number p.tag).testBit (i - p.pos) := by
  induction l with
  | nil => simp
  | cons p l ih =>
    rw [assemble_cons, BitVec.toNat_or, Nat.testBit_or, testBit_field, ih, List.any_cons]

/-- A number that is zero in another word shows in the difference of the two and nowhere else. -/
theorem assemble_eq_or {number' : τ → Nat} {t : τ} {pos : Nat} (hother : ∀ s ≠ t, number s = number' s)
    (hzero : number' t = 0) (hpos : ∀ p ∈ l, p.tag = t → p.pos = pos)
    (hmem : number t ≠ 0 → ∃ p ∈ l, p.tag = t) :
    assemble number l = assemble number' l ||| field (number t) pos := by
  refine BitVec.eq_of_toNat_eq (Nat.eq_of_testBit_eq fun i => ?_)
  rw [BitVec.toNat_or, Nat.testBit_or, testBit_assemble, testBit_assemble, testBit_field,
    Bool.eq_iff_iff, Bool.or_eq_true, List.any_eq_true, List.any_eq_true]
  constructor
  · rintro ⟨p, hp, hbit⟩
    by_cases htag : p.tag = t
    · rw [htag, hpos p hp htag] at hbit
      exact .inr hbit
    · exact .inl ⟨p, hp, hother _ htag ▸ hbit⟩
  · rintro (⟨p, hp, hbit⟩ | hbit)
    · by_cases htag : p.tag = t
      · simp [htag, hzero] at hbit
      · exact ⟨p, hp, (hother _ htag).symm ▸ hbit⟩
    · obtain ⟨p, hp, htag⟩ := hmem fun h => by simp [h] at hbit
      refine ⟨p, hp, ?_⟩
      rw [htag, hpos p hp htag]
      exact hbit

theorem testBit_bitsAt {w : Word} {pos width i : Nat} :
    (bitsAt w pos width).testBit i = (decide (i < width) && w.toNat.testBit (pos + i)) := by
  rw [bitsAt, Nat.testBit_mod_two_pow, Nat.testBit_shiftRight]

/-- Numbers that fit into fields which do not overlap are read back from the word. -/
theorem bitsAt_assemble (hl : l.Pairwise Field.Apart) (hend : ∀ p ∈ l, p.pos + p.width ≤ 64)
    (hfits : ∀ p ∈ l, number p.tag < 2 ^ p.width) {p : Field τ} (hp : p ∈ l) :
    bitsAt (assemble number l) p.pos p.width = number p.tag := by
  refine Nat.eq_of_testBit_eq fun i => ?_
  rw [testBit_bitsAt, testBit_assemble]
  by_cases hi : i < p.width
  · have hend' := hend p hp
    have hlt : p.pos + i < 64 := by omega
    rw [decide_eq_true hi, Bool.true_and, Bool.eq_iff_iff, List.any_eq_true]
    constructor
    · rintro ⟨q, hq, hbit⟩
      simp only [hlt, true_and, Bool.and_eq_true, decide_eq_true_eq] at hbit
      obtain ⟨hle, hbit⟩ := hbit
      -- A bit of another field stands outside this one.
      have hinside : p.pos + i - q.pos < q.width := by
        by_contra hge
        rw [Nat.testBit_lt_two_pow (lt_of_lt_of_le (hfits q hq)
          (Nat.pow_le_pow_right (by norm_num) (Nat.le_of_not_lt hge)))] at hbit
        cases hbit
      by_cases hpq : q = p
      · rw [hpq, Nat.add_sub_cancel_left] at hbit
        exact hbit
      · rcases hl.forall hq hp hpq with h | h <;> omega
    · intro hbit
      refine ⟨p, hp, ?_⟩
      simp only [hlt, Nat.le_add_right, and_self, decide_true, Nat.add_sub_cancel_left, hbit]
      rfl
  · rw [decide_eq_false hi, Bool.false_and]
    exact (Nat.testBit_lt_two_pow (lt_of_lt_of_le (hfits p hp)
      (Nat.pow_le_pow_right (by norm_num) (Nat.le_of_not_lt hi)))).symm

end ShaderCompiler.Machine
