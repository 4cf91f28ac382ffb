import ShaderCompiler.Proofs.Envelope.RoundTrip

/-!
# Truncated envelopes

Skipping an unknown field forgets some failures: a field header inside a record that cannot be read
ends the record, and the value of a map entry may fail. A reader forgets such a failure only when
no byte is left, though, and then whatever is read next fails. So every reader is steady: if it
leaves any byte, it has looked at nothing but the bytes that it took. An envelope is read up to its
stop mark, hence from a definite piece of the bytes; what is shorter is no envelope, and what
follows does not matter.
-/

namespace ShaderCompiler.Envelope

variable {bytes rest : List UInt8} {value : FieldType → Reader Unit} {fuel total : Nat}
  {d d' : Draft} {f : Field}

namespace Reader

variable {α β : Type}

theorem bind_of_error {x : Reader α} {k : α → Reader β} {e : ReadError}
    (h : x bytes = .error e rest) : (x >>= k) bytes = .error e rest := by
  change EStateM.bind x k bytes = _
  rw [EStateM.bind, h]

theorem exists_of_bind_eq_ok {x : Reader α} {k : α → Reader β} {z : β}
    (h : (x >>= k) bytes = .ok z rest) :
    ∃ y between, x bytes = .ok y between ∧ k y between = .ok z rest := by
  cases hout : x bytes with
  | error e between =>
    rw [bind_of_error hout] at h
    cases h
  | ok y between =>
    rw [bind_of_ok hout] at h
    exact ⟨y, between, rfl, h⟩

/-- The bytes that an outcome leaves. -/
def left : EStateM.Result ReadError (List UInt8) α → List UInt8
  | .ok _ rest => rest
  | .error _ rest => rest

/-- An outcome with other bytes left. -/
def leaving (more : List UInt8) :
    EStateM.Result ReadError (List UInt8) α → EStateM.Result ReadError (List UInt8) α
  | .ok y _ => .ok y more
  | .error e _ => .error e more

/-- A reader that leaves any byte took a piece of the bytes, and does the same whatever follows that
piece. -/
def Steady (r : Reader α) : Prop :=
  ∀ bytes, left (r bytes) = [] ∨
    ∃ taken, bytes = taken ++ left (r bytes) ∧ ∀ more, r (taken ++ more) = leaving more (r bytes)

namespace Steady

variable {r : Reader α} {x : Reader α} {k : α → Reader β}

theorem left_nil (h : Steady r) : left (r []) = [] := by
  rcases h [] with hnil | ⟨taken, htaken, -⟩
  · exact hnil
  · exact (List.append_eq_nil_iff.mp htaken.symm).2

theorem length_left_le (h : Steady r) (bytes : List UInt8) :
    (left (r bytes)).length ≤ bytes.length := by
  rcases h bytes with hnil | ⟨taken, htaken, -⟩
  · simp [hnil]
  · have := congrArg List.length htaken
    rw [List.length_append] at this
    omega

theorem exists_taken (h : Steady r) {y : α} (hout : r bytes = .ok y rest)
    (hrest : rest ≠ []) :
    ∃ taken, bytes = taken ++ rest ∧ ∀ more, r (taken ++ more) = .ok y more := by
  have h := h bytes
  rw [hout] at h
  exact h.resolve_left hrest

theorem pure (y : α) : Steady (Pure.pure y : Reader α) :=
  fun _ => .inr ⟨[], rfl, fun _ => rfl⟩

theorem throw (e : ReadError) : Steady (MonadExcept.throw e : Reader α) :=
  fun _ => .inr ⟨[], rfl, fun _ => rfl⟩

theorem bind (hx : Steady x) (hk : ∀ y, Steady (k y)) : Steady (x >>= k) := by
  intro bytes
  have hx := hx bytes
  cases hout : x bytes with
  | error e rest =>
    rw [hout] at hx
    rw [bind_of_error hout]
    refine hx.imp id ?_
    rintro ⟨taken, htaken, hmore⟩
    exact ⟨taken, htaken, fun more => bind_of_error (hmore more)⟩
  | ok y rest =>
    rw [hout] at hx
    rw [bind_of_ok hout]
    rcases hx with hnil | ⟨taken, htaken, hmore⟩
    · left
      obtain rfl : rest = [] := hnil
      exact (hk y).left_nil
    · refine (hk y rest).imp id ?_
      rintro ⟨taken', htaken', hmore'⟩
      refine ⟨taken ++ taken', ?_, fun more => ?_⟩
      · rw [List.append_assoc, ← htaken']
        exact htaken
      · rw [List.append_assoc, bind_of_ok (hmore _)]
        exact hmore' more

theorem map (f : α → β) (hx : Steady x) : Steady (f <$> x) := by
  rw [← bind_pure_comp]
  exact hx.bind fun _ => .pure _

theorem ite {p : Prop} [Decidable p] {x y : Reader α} (hx : Steady x) (hy : Steady y) :
    Steady (if p then x else y) := by
  split
  · exact hx
  · exact hy

end Steady

/-! ### Readers of values -/

theorem steady_byte : Steady byte := by
  rintro (_ | ⟨b, rest⟩)
  · exact .inl rfl
  · exact .inr ⟨[b], rfl, fun _ => rfl⟩

/-- What takes a number of bytes, and all of them where there are fewer, is steady. -/
theorem steady_of_take {r : Reader (List UInt8)} {n : Nat}
    (hall : ∀ bytes, n ≤ bytes.length → r bytes = .ok (bytes.take n) (bytes.drop n))
    (hfew : ∀ bytes, bytes.length < n → left (r bytes) = []) : Steady r := by
  intro bytes
  rcases lt_or_ge bytes.length n with hlt | hge
  · exact .inl (hfew bytes hlt)
  · right
    have hlen : (bytes.take n).length = n := List.length_take_of_le hge
    refine ⟨bytes.take n, ?_, fun more => ?_⟩
    · rw [hall bytes hge]
      exact (List.take_append_drop n bytes).symm
    · rw [hall bytes hge, hall _ (by simp only [List.length_append]; omega), List.take_left' hlen,
        List.drop_left' hlen]
      rfl

theorem steady_take (n : Nat) : Steady (take n) :=
  steady_of_take (fun _ h => if_pos h) fun bytes h => by rw [take, if_neg (by omega)]; rfl

theorem steady_takePieces (n : Nat) : Steady (takePieces n) :=
  steady_of_take (fun _ h => if_pos h) fun bytes h => by rw [takePieces, if_neg (by omega)]; rfl

theorem steady_int (n : Nat) : Steady (int n) :=
  (steady_take n).bind fun _ => .pure _

theorem steady_length : Steady length :=
  (steady_int 4).bind fun _ => .ite (.throw _) (.pure _)

theorem steady_binary : Steady binary :=
  steady_length.bind steady_take

theorem steady_string : Steady string :=
  steady_length.bind steady_takePieces

theorem steady_bool : Steady bool :=
  steady_byte.bind fun _ => .pure _

theorem steady_fieldHeader : Steady fieldHeader :=
  steady_byte.bind fun _ => .ite (.pure _) ((steady_int 2).bind fun _ => .pure _)

/-! ### Skipping -/

theorem steady_ignoringErrors {r : Reader Unit} (h : Steady r) : Steady (ignoringErrors r) := by
  intro bytes
  have h := h bytes
  simp only [ignoringErrors]
  cases hout : r bytes <;> rw [hout] at h <;> refine h.imp id ?_ <;>
    rintro ⟨taken, htaken, hmore⟩ <;>
    exact ⟨taken, htaken, fun more => by simp only [hmore, leaving]⟩

theorem steady_lenientType : Steady lenientType := by
  rintro (_ | ⟨code, rest⟩)
  · exact .inl rfl
  · by_cases hcode : code = 0
    · refine .inr ⟨[code], ?_, fun more => ?_⟩ <;>
        simp [lenientType, hcode, left, leaving]
    · have hint := steady_int 2 rest
      simp only [lenientType, if_neg hcode]
      cases hout : int 2 rest <;> rw [hout] at hint <;> refine hint.imp id ?_ <;>
        rintro ⟨taken, htaken, hmore⟩ <;>
        exact ⟨code :: taken, congrArg (code :: ·) htaken,
          fun more => by simp only [List.cons_append, if_neg hcode, hmore, leaving]⟩

theorem steady_repeated {r : Reader Unit} (h : Steady r) (n : Nat) : Steady (repeated r n) := by
  induction n with
  | zero => exact .pure ()
  | succ n ih =>
    intro bytes
    have h := h bytes
    simp only [repeated]
    cases hout : r bytes with
    | error e rest =>
      rw [hout] at h
      refine h.imp id ?_
      rintro ⟨taken, htaken, hmore⟩
      exact ⟨taken, htaken, fun more => by simp only [hmore, leaving]⟩
    | ok _ rest =>
      rw [hout] at h
      rcases h with hnil | ⟨taken, htaken, hmore⟩
      · left
        obtain rfl : rest = [] := hnil
        dsimp only
        split
        · rfl
        · exact ih.left_nil
      · -- Whether another turn follows depends on the piece that was taken alone.
        have hlen (more : List UInt8) : more.length = (taken ++ more).length ↔ taken = [] := by
          rw [List.length_append, ← List.length_eq_zero_iff]
          omega
        simp only [left, leaving] at htaken hmore
        by_cases htake : taken = []
        · obtain rfl : rest = bytes := by rw [htaken, htake, List.nil_append]
          exact .inr ⟨[], by simp [left], fun more => by simp [← htake, hmore, leaving]⟩
        · simp only [htaken, hlen, htake, if_false]
          refine (ih rest).imp id ?_
          rintro ⟨taken', htaken', hmore'⟩
          refine ⟨taken ++ taken', ?_, fun more => ?_⟩
          · rw [List.append_assoc, ← htaken']
          · simp only [List.append_assoc, hmore, hlen, htake, if_false]
            exact hmore' more

theorem steady_skipFields (h : ∀ t, Steady (value t)) (n : Nat) :
    Steady (skipFields value n) := by
  induction n with
  | zero => exact .pure ()
  | succ n ih =>
    exact steady_lenientType.bind fun t => .ite (.pure ()) ((h t).bind fun _ => ih)

theorem steady_skipValue (fuel depth : Nat) (t : FieldType) : Steady (skipValue fuel depth t) := by
  induction fuel generalizing depth t with
  | zero => exact .pure ()
  | succ fuel ih =>
    cases depth with
    | zero => exact .throw _
    | succ depth =>
      rw [skipValue]
      split
      · exact steady_byte.map _
      · exact steady_byte.map _
      · exact (steady_take 8).map _
      · exact (steady_take 8).map _
      · exact (steady_take 2).map _
      · exact (steady_take 4).map _
      · exact steady_string.map _
      · exact steady_skipFields (ih depth) fuel
      · exact steady_byte.bind fun _ => steady_byte.bind fun _ => steady_length.bind fun _ =>
          steady_repeated ((ih depth _).bind fun _ => steady_ignoringErrors (ih maxDepth _)) _
      · exact steady_byte.bind fun _ => steady_length.bind fun _ => steady_repeated (ih depth _) _
      · exact steady_byte.bind fun _ => steady_length.bind fun _ => steady_repeated (ih depth _) _
      · exact .throw _

/-! ### Skipping without fuel

Fuel above the number of bytes is never used up, so that skipping is steady also where the fuel
depends on the bytes that follow. -/

/-- Two readers do the same on fewer than `n` bytes. -/
def Agree (n : Nat) (r r' : Reader α) : Prop :=
  ∀ bytes, bytes.length < n → r bytes = r' bytes

namespace Agree

variable {n : Nat} {x x' : Reader α} {k k' : α → Reader β}

theorem refl (n : Nat) (r : Reader α) : Agree n r r :=
  fun _ _ => rfl

theorem bind (h : Agree n x x') (hx : Steady x) (hk : ∀ y, Agree n (k y) (k' y)) :
    Agree n (x >>= k) (x' >>= k') := by
  intro bytes hlt
  have hle := hx.length_left_le bytes
  have hout' := h bytes hlt
  cases hout : x bytes with
  | error e rest => rw [bind_of_error hout, bind_of_error (hout'.symm.trans hout)]
  | ok y rest =>
    rw [hout] at hle
    rw [bind_of_ok hout, bind_of_ok (hout'.symm.trans hout)]
    exact hk y rest (Nat.lt_of_le_of_lt hle hlt)

/-- Reading a byte first leaves room for one byte more. -/
theorem byte_bind {k k' : UInt8 → Reader β} (hk : ∀ b, Agree n (k b) (k' b)) :
    Agree (n + 1) (byte >>= k) (byte >>= k') := by
  rintro (_ | ⟨b, rest⟩) hlt
  · rfl
  · rw [bind_of_ok (byte_cons b rest), bind_of_ok (byte_cons b rest)]
    exact hk b rest (Nat.lt_of_succ_lt_succ hlt)

theorem ignoringErrors {r r' : Reader Unit} (h : Agree n r r') :
    Agree n r.ignoringErrors r'.ignoringErrors := by
  intro bytes hlt
  simp only [Reader.ignoringErrors, h bytes hlt]

theorem repeated {r r' : Reader Unit} (h : Agree n r r') (hr : Steady r) (m : Nat) :
    Agree n (r.repeated m) (r'.repeated m) := by
  induction m with
  | zero => exact refl n _
  | succ m ih =>
    intro bytes hlt
    have hle := hr.length_left_le bytes
    simp only [Reader.repeated, ← h bytes hlt]
    cases hout : r bytes with
    | error e rest => rfl
    | ok _ rest =>
      rw [hout] at hle
      dsimp only
      split
      · rfl
      · exact ih rest (Nat.lt_of_le_of_lt hle hlt)

end Agree

/-- The type of a field is read from at least one byte, or it is the end of the fields. -/
theorem exists_lenientType (bytes : List UInt8) : ∃ t rest, lenientType bytes = .ok t rest
    ∧ (bytes = [] ∧ t = .stop ∨ rest.length < bytes.length) := by
  rcases bytes with _ | ⟨code, bytes⟩
  · exact ⟨_, _, rfl, .inl ⟨rfl, rfl⟩⟩
  · by_cases hcode : code = 0
    · exact ⟨.stop, bytes, by rw [lenientType, if_pos hcode], .inr (Nat.lt_succ_self _)⟩
    · have hle := (steady_int 2).length_left_le bytes
      simp only [lenientType, if_neg hcode]
      cases hout : int 2 bytes <;> rw [hout] at hle <;>
        exact ⟨_, _, rfl, .inr (Nat.lt_succ_of_le hle)⟩

theorem skipFields_nil (value : FieldType → Reader Unit) (n : Nat) :
    skipFields value n [] = .ok () [] := by
  cases n <;> rfl

theorem agree_skipFields {value' : FieldType → Reader Unit} {n : Nat}
    (h : ∀ t, Agree n (value t) (value' t)) (hvalue : ∀ t, Steady (value t)) :
    ∀ {k m m' : Nat}, k ≤ n → k ≤ m → k ≤ m' →
      Agree (k + 1) (skipFields value m) (skipFields value' m') := by
  -- Each field takes a byte, so at most as many fields follow as bytes are left.
  intro k
  induction k with
  | zero =>
    intro m m' _ _ _ bytes hlt
    obtain rfl : bytes = [] := List.length_eq_zero_iff.mp (by omega)
    rw [skipFields_nil, skipFields_nil]
  | succ k ih =>
    intro m m' hn hm hm' bytes hlt
    obtain ⟨m, m', rfl, rfl⟩ := exists_add_one_of_lt hm hm'
    obtain ⟨t, rest, htype, hrest⟩ := exists_lenientType bytes
    rw [skipFields, skipFields, bind_of_ok htype, bind_of_ok htype]
    by_cases ht : t = .stop
    · rw [if_pos ht, if_pos ht]
    · have hrest : rest.length < k + 1 := by
        rcases hrest with ⟨-, hstop⟩ | hrest
        · exact absurd hstop ht
        · omega
      rw [if_neg ht, if_neg ht]
      refine Agree.bind (n := k + 1) (fun bytes hlt => h t bytes (by omega)) (hvalue t)
        (fun _ => ih (by omega) (by omega) (by omega)) rest hrest

/-- Skipping does not depend on the fuel if there is more of it than bytes. -/
theorem agree_skipValue (n : Nat) {fuel' : Nat} (hfuel : n ≤ fuel) (hfuel' : n ≤ fuel')
    (depth : Nat) (t : FieldType) : Agree n (skipValue fuel depth t) (skipValue fuel' depth t) := by
  induction n generalizing fuel fuel' depth t with
  | zero => exact fun _ hlt => absurd hlt (Nat.not_lt_zero _)
  | succ n ih =>
    obtain ⟨fuel, fuel', rfl, rfl⟩ := exists_add_one_of_lt hfuel hfuel'
    have ih := @ih fuel fuel' (by omega) (by omega)
    cases depth with
    | zero => exact .refl _ _
    | succ depth =>
      rw [skipValue, skipValue]
      split
      case h_8 =>
        exact agree_skipFields (ih depth) (steady_skipValue fuel depth) le_rfl (by omega) (by omega)
      case h_9 =>
        refine .byte_bind fun key => .bind (.refl _ _) steady_byte fun value =>
          .bind (.refl _ _) steady_length fun count => .repeated ?_ ?_ count
        · exact (ih depth _).bind (steady_skipValue _ _ _) fun _ => (ih maxDepth _).ignoringErrors
        · exact (steady_skipValue _ _ _).bind fun _ =>
            steady_ignoringErrors (steady_skipValue _ _ _)
      case h_10 | h_11 =>
        exact .byte_bind fun element => .bind (.refl _ _) steady_length fun count =>
          (ih depth _).repeated (steady_skipValue _ _ _) count
      all_goals exact .refl _ _

theorem skip_eq (h : bytes.length < fuel) (t : FieldType) :
    skip t bytes = skipValue fuel maxDepth t bytes :=
  agree_skipValue (bytes.length + 1) le_rfl h maxDepth t bytes (Nat.lt_succ_self _)

/-- If skipping a value leaves any byte, it looked at nothing but the bytes that it took. -/
theorem steady_skip (t : FieldType) : Steady (skip t) := by
  intro bytes
  rw [or_iff_not_imp_left]
  intro hleft
  obtain ⟨taken, htaken, -⟩ :=
    (steady_skipValue (bytes.length + 1) maxDepth t bytes).resolve_left hleft
  refine ⟨taken, htaken, fun more => ?_⟩
  -- With fuel for both inputs, one steady reader skips both.
  have hbytes : skip t bytes
      = skipValue (bytes.length + (taken ++ more).length + 1) maxDepth t bytes :=
    skip_eq (by omega) t
  have hmore : skip t (taken ++ more)
      = skipValue (bytes.length + (taken ++ more).length + 1) maxDepth t (taken ++ more) :=
    skip_eq (by omega) t
  rw [hbytes] at hleft ⊢
  obtain ⟨taken', htaken', hskip⟩ := (steady_skipValue _ maxDepth t bytes).resolve_left hleft
  obtain rfl : taken = taken' := by
    rw [← hbytes] at htaken'
    exact List.append_cancel_right (htaken.symm.trans htaken')
  rw [hmore]
  exact hskip more

/-- The header of a field takes bytes, and that of the stop mark is the mark. -/
theorem fieldHeader_eq_ok {t : FieldType} {number : Int}
    (h : fieldHeader bytes = .ok (t, number) rest) :
    rest.length < bytes.length ∧ (t = .stop → bytes = FieldType.stop.code :: rest) := by
  rcases bytes with _ | ⟨code, bytes⟩
  · cases h
  · rw [fieldHeader, bind_of_ok (byte_cons code bytes)] at h
    split at h
    · next hstop =>
      cases h
      exact ⟨Nat.lt_succ_self _, fun _ => congrArg (·.code :: rest) hstop⟩
    · next hstop =>
      obtain ⟨id, between, hint, h⟩ := exists_of_bind_eq_ok h
      cases h
      have hle := (steady_int 2).length_left_le bytes
      rw [hint] at hle
      exact ⟨Nat.lt_succ_of_le hle, fun ht => absurd ht hstop⟩

end Reader

/-! ### Reading fields without fuel -/

namespace Draft

theorem steady_read (d : Draft) (f : Field) : Reader.Steady (d.read f) := by
  cases f with
  | name => exact Reader.steady_string.bind fun _ => .pure _
  | code => exact Reader.steady_binary.bind fun _ => .pure _
  | optimized => exact Reader.steady_bool.bind fun _ => .pure _
  | stage | instructions | words => exact (Reader.steady_int 4).bind fun _ => .pure _

/-- A field that bytes start with: a known one of its type, or one of another number. -/
inductive ReadsField (d : Draft) (bytes : List UInt8) (d' : Draft) (rest : List UInt8) : Prop
  | known {f : Field} {number : Int} {value : List UInt8}
      (hheader : Reader.fieldHeader bytes = .ok (f.type, number) value)
      (hnumber : Field.ofNumber? number = some f) (hread : d.read f value = .ok d' rest)
  | unknown {t : FieldType} {number : Int} {value : List UInt8}
      (hheader : Reader.fieldHeader bytes = .ok (t, number) value) (hstop : t ≠ .stop)
      (hnumber : Field.ofNumber? number = none) (hskip : Reader.skip t value = .ok () rest)
      (hdraft : d' = d)

/-- The fields that bytes start with, up to the stop mark. -/
inductive Reads : Draft → List UInt8 → Draft → List UInt8 → Prop
  | stop {d : Draft} {rest : List UInt8} : Reads d (FieldType.stop.code :: rest) d rest
  | field {d d₁ d' : Draft} {bytes bytes₁ rest : List UInt8} (h : ReadsField d bytes d₁ bytes₁)
      (hrest : Reads d₁ bytes₁ d' rest) : Reads d bytes d' rest

/-- A field takes bytes. If it leaves any, it is read from those that it takes. -/
theorem ReadsField.exists_taken {d d' : Draft} {bytes rest : List UInt8}
    (h : ReadsField d bytes d' rest) : rest.length < bytes.length ∧ (rest ≠ [] →
      ∃ taken, bytes = taken ++ rest ∧ ∀ more, ReadsField d (taken ++ more) d' more) := by
  -- The value of a field is read by a steady reader, which is all that matters of it.
  have hstep {α : Type} {r : Reader α} {y : α} {header : FieldType × Int} {value : List UInt8}
      (hr : r.Steady) (hheader : Reader.fieldHeader bytes = .ok header value)
      (hvalue : r value = .ok y rest) : rest.length < bytes.length ∧ (rest ≠ [] →
        ∃ taken taken', bytes = taken ++ taken' ++ rest ∧ ∀ more,
          Reader.fieldHeader (taken ++ taken' ++ more) = .ok header (taken' ++ more)
          ∧ r (taken' ++ more) = .ok y more) := by
    refine ⟨?_, fun hrest => ?_⟩
    · have hle := hr.length_left_le value
      rw [hvalue] at hle
      exact Nat.lt_of_le_of_lt hle (Reader.fieldHeader_eq_ok hheader).1
    · obtain ⟨taken', rfl, hread⟩ := hr.exists_taken hvalue hrest
      obtain ⟨taken, rfl, hhead⟩ := Reader.steady_fieldHeader.exists_taken hheader (by simp [hrest])
      refine ⟨taken, taken', by simp, fun more => ⟨?_, hread more⟩⟩
      rw [List.append_assoc, hhead]
  cases h with
  | @known f number value hheader hnumber hread =>
    obtain ⟨hlt, htaken⟩ := hstep (d.steady_read f) hheader hread
    refine ⟨hlt, fun hrest => ?_⟩
    obtain ⟨taken, taken', hbytes, hmore⟩ := htaken hrest
    exact ⟨taken ++ taken', hbytes, fun more => .known (hmore more).1 hnumber (hmore more).2⟩
  | @unknown t number value hheader hstop hnumber hskip hdraft =>
    obtain ⟨hlt, htaken⟩ := hstep (Reader.steady_skip t) hheader hskip
    refine ⟨hlt, fun hrest => ?_⟩
    obtain ⟨taken, taken', hbytes, hmore⟩ := htaken hrest
    exact ⟨taken ++ taken', hbytes,
      fun more => .unknown (hmore more).1 hstop hnumber (hmore more).2 hdraft⟩

/-- Fields up to the stop mark are read from the bytes that they take, and what follows does not
matter. -/
theorem Reads.exists_taken {d d' : Draft} {bytes rest : List UInt8} (h : Reads d bytes d' rest) :
    ∃ taken ≠ [], bytes = taken ++ rest ∧ ∀ more, Reads d (taken ++ more) d' more := by
  -- A field before the stop mark leaves that mark at least, so that nothing it forgot matters.
  induction h with
  | @stop d rest => exact ⟨[FieldType.stop.code], by simp, rfl, fun _ => .stop⟩
  | @field d d₁ d' bytes bytes₁ rest h hrest ih =>
    obtain ⟨taken₁, hne, rfl, hmore₁⟩ := ih
    obtain ⟨taken, rfl, hmore⟩ := h.exists_taken.2 (by simp [hne])
    refine ⟨taken ++ taken₁, by simp [hne], by simp, fun more => ?_⟩
    rw [List.append_assoc]
    exact .field (hmore _) (hmore₁ more)

theorem readFields_of_readsField
    (h : ReadsField d bytes d' rest) :
    readFields total (fuel + 1) d bytes = readFields total fuel d' rest := by
  cases h with
  | @known f number value hheader hnumber hread =>
    simp only [readFields, hheader, if_neg f.type_ne_stop, hnumber, if_true, hread]
  | @unknown t number value hheader hstop hnumber hskip hdraft =>
    subst hdraft
    simp only [readFields, hheader, if_neg hstop, hnumber, hskip]

theorem reads_of_readFields {left : Nat}
    (h : readFields total fuel d bytes = .ok (d', left)) :
    ∃ rest, Reads d bytes d' rest ∧ rest.length = left := by
  induction fuel generalizing d bytes with
  | zero => cases h
  | succ fuel ih =>
    rw [readFields] at h
    split at h
    · cases h
    · next t number value hheader =>
      split at h
      · next hstop =>
        cases h
        obtain rfl := (Reader.fieldHeader_eq_ok hheader).2 hstop
        exact ⟨value, .stop, rfl⟩
      · next hstop =>
        split at h
        · next hnumber =>
          split at h
          · cases h
          · next hskip =>
            obtain ⟨rest, hreads, hrest⟩ := ih h
            exact ⟨rest, .field (.unknown hheader hstop hnumber hskip rfl) hreads, hrest⟩
        · next f hnumber =>
          split at h
          · next htype =>
            subst htype
            split at h
            · cases h
            · next hread =>
              obtain ⟨rest, hreads, hrest⟩ := ih h
              exact ⟨rest, .field (.known hheader hnumber hread) hreads, hrest⟩
          · cases h

theorem Reads.readFields_eq (h : Reads d bytes d' rest)
    (hfuel : bytes.length < fuel) :
    readFields total fuel d bytes = .ok (d', rest.length) := by
  obtain ⟨fuel, rfl⟩ := Nat.exists_eq_add_one.mpr (Nat.zero_lt_of_lt hfuel)
  induction h generalizing fuel with
  | stop => rfl
  | @field d d₁ d' bytes bytes₁ rest h hrest ih =>
    have hlt := h.exists_taken.1
    obtain ⟨fuel, rfl⟩ := Nat.exists_eq_add_one.mpr (show 0 < fuel by omega)
    rw [readFields_of_readsField h]
    exact ih fuel (by omega)

theorem Reads.length_eq {d₁ d₂ : Draft} {rest₁ rest₂ : List UInt8}
    (h₁ : Reads d bytes d₁ rest₁) (h₂ : Reads d bytes d₂ rest₂) : rest₁.length = rest₂.length := by
  have h : readFields 0 (bytes.length + 1) d bytes = .ok (d₁, rest₁.length) :=
    h₁.readFields_eq (Nat.lt_succ_self _)
  rw [h₂.readFields_eq (Nat.lt_succ_self _)] at h
  exact (congrArg Prod.snd (Except.ok.inj h)).symm

end Draft

namespace Record

/-- Bytes decode to a record if they start with fields that leave it, the code among them. -/
theorem decode_eq_ok_iff {r : Record} : decode bytes = .ok r ↔
    ∃ rest, Draft.Reads ⟨blank, false⟩ bytes ⟨r, true⟩ rest := by
  have hdecode : decode bytes =
      (Draft.readFields bytes.length (bytes.length + 1) ⟨blank, false⟩ bytes).bind fun x =>
        if x.1.hasCode then .ok x.1.record
        else .error ⟨bytes.length - x.2, .missingCode⟩ := rfl
  constructor
  · intro h
    rw [hdecode] at h
    cases hread : Draft.readFields bytes.length (bytes.length + 1) ⟨blank, false⟩ bytes with
    | error e => rw [hread] at h; cases h
    | ok x =>
      obtain ⟨⟨record, hasCode⟩, left⟩ := x
      rw [hread] at h
      obtain ⟨rest, hreads, -⟩ := Draft.reads_of_readFields hread
      cases hasCode with
      | false => cases h
      | true =>
        cases h
        exact ⟨rest, hreads⟩
  · rintro ⟨rest, hreads⟩
    rw [hdecode, hreads.readFields_eq (Nat.lt_succ_self _)]
    rfl

/-- If the first bytes decode, reading all of them leaves those that follow, at least. -/
theorem reads_of_decode_take {n : Nat} {r : Record}
    (h : decode (bytes.take n) = .ok r) :
    ∃ rest, Draft.Reads ⟨blank, false⟩ bytes ⟨r, true⟩ rest ∧ bytes.length ≤ n + rest.length := by
  obtain ⟨rest, hreads⟩ := decode_eq_ok_iff.mp h
  obtain ⟨taken, -, htake, hmore⟩ := hreads.exists_taken
  have hbytes : bytes = taken ++ (rest ++ bytes.drop n) := by
    rw [← List.append_assoc, ← htake, List.take_append_drop]
  refine ⟨rest ++ bytes.drop n, ?_, ?_⟩
  · nth_rewrite 1 [hbytes]
    exact hmore _
  · rw [List.length_append, List.length_drop]
    omega

/-- Decoding fails on what is shorter than the bytes it takes, and gives the same on anything that
starts with them. -/
theorem exists_taken_of_decode {r : Record} (h : decode bytes = .ok r) :
    ∃ k ≤ bytes.length, (∀ n < k, ∃ e, decode (bytes.take n) = .error e)
      ∧ ∀ more, decode (bytes.take k ++ more) = .ok r := by
  obtain ⟨rest, hreads⟩ := decode_eq_ok_iff.mp h
  obtain ⟨taken, -, htaken, hmore⟩ := hreads.exists_taken
  have hlen : bytes.length = taken.length + rest.length := by rw [htaken, List.length_append]
  refine ⟨taken.length, by omega, fun n hn => ?_, fun more => ?_⟩
  · cases hdecode : decode (bytes.take n) with
    | error e => exact ⟨e, rfl⟩
    | ok r' =>
      obtain ⟨rest', hreads', hle⟩ := reads_of_decode_take hdecode
      have := hreads.length_eq hreads'
      omega
  · rw [htaken, List.take_left]
    exact decode_eq_ok_iff.mpr ⟨more, hmore more⟩

/-! ### Prefixes of written records

A length is written with 32 bits and read as a signed number. From `2 ^ 31` on it reads as a
negative one, which is refused; from `2 ^ 32` on it is cut. -/

end Record

/-- Fields behind well-formed ones are read from where those end. -/
theorem SpellsEntries.readFields_eq {es : List Entry} {bytes tail rest : List UInt8} {d d' : Draft}
    (h : SpellsEntries es bytes) (hreads : Draft.Reads d (bytes ++ tail) d' rest) :
    ∃ fuel, Draft.readFields 0 (fuel + 1) (es.foldl Draft.put d) tail = .ok (d', rest.length) := by
  obtain ⟨fuel, hread⟩ := Draft.exists_readFields_append h tail
  exact ⟨fuel, by rw [← hread, hreads.readFields_eq (Nat.lt_succ_self _)]⟩

/-- A length that is read as a negative number is refused. -/
theorem Reader.length_negative {n : Nat} (hmin : 2 ^ 31 ≤ n) (hmax : n < 2 ^ 32)
    (rest : List UInt8) :
    length (Record.int32Bytes (BitVec.ofNat 32 n) ++ rest) = .error .negativeLength rest := by
  have hn : (BitVec.ofNat 32 n).toInt < 0 := by
    rw [BitVec.toInt_neg_iff, BitVec.toNat_ofNat]
    omega
  rw [length, bind_of_ok (int_int32Bytes _ rest), if_pos hn]
  rfl

/-- A text or byte string of such a length is refused. -/
theorem Draft.readFields_long
    (hf : f = .name ∨ f = .code) (hmin : 2 ^ 31 ≤ bytes.length) (hmax : bytes.length < 2 ^ 32)
    (rest : List UInt8) :
    ∃ e, readFields total (fuel + 1) d (Record.headerBytes f ++ Record.sizedBytes bytes ++ rest) =
      .error e := by
  have hread : d.read f (Record.sizedBytes bytes ++ rest) =
      .error .negativeLength (bytes ++ rest) := by
    have hlength := Reader.length_negative hmin hmax (bytes ++ rest)
    rw [← List.append_assoc] at hlength
    rcases hf with rfl | rfl
    · exact Reader.bind_of_error (Reader.bind_of_error hlength)
    · exact Reader.bind_of_error (Reader.bind_of_error hlength)
  rw [readFields, headerBytes_eq, List.append_assoc, Reader.fieldHeader_append f.type_ne_stop]
  simp only [if_neg f.type_ne_stop, Field.ofNumber?_number, if_true, hread]
  exact ⟨_, rfl⟩

theorem SpellsEntries.not_reads_long {es : List Entry} {before after : List UInt8}
    (h : SpellsEntries es before) (hf : f = .name ∨ f = .code)
    (hmin : 2 ^ 31 ≤ bytes.length) (hmax : bytes.length < 2 ^ 32) :
    ¬ Draft.Reads d (before ++ (Record.headerBytes f ++ Record.sizedBytes bytes ++ after)) d'
      rest := by
  intro hreads
  obtain ⟨fuel, hread⟩ := h.readFields_eq hreads
  obtain ⟨e, herror⟩ := Draft.readFields_long hf hmin hmax after
  cases herror.symm.trans hread

namespace Record

/-- Nothing is left of a written record that is read, unless a length does not fit into 32 bits. -/
theorem rest_eq_nil_of_reads_encode {r : Record} (hname : r.name.length < 2 ^ 32)
    (hcode : r.code.length < 2 ^ 32)
    (h : Draft.Reads d r.encode d' rest) : rest = [] := by
  rcases lt_or_ge r.name.length (2 ^ 31) with hn | hn
  · rcases lt_or_ge r.code.length (2 ^ 31) with hc | hc
    · rw [encode_eq_fields] at h
      obtain ⟨fuel, hread⟩ :=
        (spells_fields (spells_valueBytes hn hc) Field.all).readFields_eq h
      rw [Draft.readFields_stop] at hread
      exact List.length_eq_zero_iff.mp (congrArg Prod.snd (Except.ok.inj hread)).symm
    · have hencode : r.encode = (headerBytes .name ++ sizedBytes r.name
            ++ (headerBytes .stage ++ int32Bytes r.stage.toBitVec ++ []))
          ++ (headerBytes .code ++ sizedBytes r.code
            ++ (((Field.all.drop 3).flatMap fun f => headerBytes f ++ r.valueBytes f)
              ++ [FieldType.stop.code])) := by
        simp [encode_eq_fields, Field.all, valueBytes]
      rw [hencode] at h
      exact absurd h ((SpellsEntries.known (.name hn) (.known (.stage r.stage) .nil)).not_reads_long
        (.inr rfl) hc hcode)
  · have hencode : r.encode = [] ++ (headerBytes .name ++ sizedBytes r.name
        ++ (((Field.all.drop 1).flatMap fun f => headerBytes f ++ r.valueBytes f)
          ++ [FieldType.stop.code])) := by
      simp [encode_eq_fields, Field.all, valueBytes]
    rw [hencode] at h
    exact absurd h (SpellsEntries.nil.not_reads_long (.inl rfl) hn hname)

/-- Truncated envelopes are never accepted. Decoding takes a definite number of bytes: it fails on
anything shorter, and gives the same on anything that starts with them. In particular no part of a
written record decodes, if the lengths of its name and of its code fit into 32 bits. -/
theorem decode_prefix (bytes : List UInt8) :
    (∀ r, decode bytes = .ok r → ∃ k ≤ bytes.length,
      (∀ n < k, ∃ e, decode (bytes.take n) = .error e)
      ∧ ∀ more, decode (bytes.take k ++ more) = .ok r)
    ∧ ∀ r : Record, r.name.length < 2 ^ 32 → r.code.length < 2 ^ 32 →
      ∀ n < r.encode.length, ∃ e, decode (r.encode.take n) = .error e := by
  refine ⟨fun r h => exists_taken_of_decode h, fun r hname hcode n hn => ?_⟩
  cases hdecode : decode (r.encode.take n) with
  | error e => exact ⟨e, rfl⟩
  | ok r' =>
    obtain ⟨rest, hreads, hle⟩ := reads_of_decode_take hdecode
    rw [rest_eq_nil_of_reads_encode hname hcode hreads, List.length_nil] at hle
    omega

/-- An envelope with a map under an unknown number, whose only value is of an unknown type, and with
a byte behind its stop mark. -/
def lenientMap : List UInt8 :=
  [13, 0, 9, 2, 99, 0, 0, 0, 1, 1, 11, 0, 3, 0, 0, 0, 0, 0, 9]

/-- The sample decodes although the value of the map fails, and no part of it does; nor does any
part of the blank record. -/
theorem decode_prefix_lenientMap : decode lenientMap = .ok blank
    ∧ (∃ k ≤ lenientMap.length, (∀ n < k, ∃ e, decode (lenientMap.take n) = .error e)
      ∧ ∀ more, decode (lenientMap.take k ++ more) = .ok blank)
    ∧ ∀ n < blank.encode.length, ∃ e, decode (blank.encode.take n) = .error e := by
  have hdecode : decode lenientMap = .ok blank := by decide +kernel
  obtain ⟨htaken, hencode⟩ := decode_prefix lenientMap
  exact ⟨hdecode, htaken blank hdecode, hencode blank (by decide) (by decide)⟩

/-- A record whose name starts as an envelope goes on behind an empty name. -/
def misleading (padding : List UInt8) : Record :=
  { blank with name := [11, 0, 3, 0, 0, 0, 0, 0] ++ padding }

theorem take_encode_misleading {padding : List UInt8} (h : padding.length = 2 ^ 32 - 8) :
    (misleading padding).encode.take 15 =
      [11, 0, 1, 0, 0, 0, 0, 11, 0, 3, 0, 0, 0, 0, 0] := by
  have hlength : BitVec.ofNat 32 (misleading padding).name.length = 0 := by
    rw [misleading, List.length_append, h]
    rfl
  rw [encode_eq_fields]
  simp only [Field.all, List.flatMap_cons, valueBytes, sizedBytes, hlength]
  rfl

/-- If the name is of `2 ^ 32` bytes, its written length is zero, and a part of the written record
decodes. -/
theorem decode_take_encode_misleading :
    15 < (misleading (List.replicate (2 ^ 32 - 8) 0)).encode.length
    ∧ decode ((misleading (List.replicate (2 ^ 32 - 8) 0)).encode.take 15) = .ok blank := by
  constructor
  · rw [length_encode, encodedLength]
    omega
  · rw [take_encode_misleading List.length_replicate]
    decide +kernel

end Record

end ShaderCompiler.Envelope
