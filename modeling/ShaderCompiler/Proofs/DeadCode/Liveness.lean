import ShaderCompiler.Proofs.Edit
import ShaderCompiler.Pass.DeadCode

/-!
# Liveness scans

A backward scan marks numbers of values as live, and with them the instructions that it finds
live. What it marks depends on little of a function: on its nested lists, and on what its
instructions define and read. This is the outline of the function, and scanning an outline is a
function on marks.

Marks only grow, and an instruction that was found live once is found live ever after.

If nothing is read before it is defined, except around a loop, then the instruction that defines
a marked number is marked itself. Around a loop this is what the rounds are for: the last one
brings nothing new.
-/

namespace ShaderCompiler

variable {l' : List InstrId} {k : Nat} {s rest body inner : Region} {b header : BlockId}
  {c : ConstructId} {B : BlockId → List InstrId} {values N : Finset Int} {yes no : Region}

/-- What a scan sees of a function. -/
structure Outline where
  body : BlockId → List InstrId
  preds : BlockId → List BlockId
  /-- Whether an instruction is live whatever becomes of its results. -/
  effect : InstrId → Bool
  /-- The numbers of the values that an instruction defines. -/
  defs : InstrId → List Int
  /-- The numbers of the values that an instruction reads, those of a φ with the block for which
  it reads them. -/
  reads : InstrId → List (Option BlockId × Int)
  /-- The number of the condition of an `if`. -/
  tests : ConstructId → List Int

/-- Numbers of values and instructions that were found live. -/
structure Marks where
  values : Finset Int
  instrs : Finset InstrId

instance : Preorder Marks := Preorder.lift fun m => (m.values, m.instrs)

/-- Marks with the number of a condition. -/
def Marks.test (m : Marks) (numbers : List Int) : Marks :=
  { m with values := m.values ∪ numbers.toFinset }

theorem Marks.le_iff {m m' : Marks} :
    m ≤ m' ↔ m.values ⊆ m'.values ∧ m.instrs ⊆ m'.instrs :=
  Iff.rfl

theorem Marks.le_test (m : Marks) (numbers : List Int) : m ≤ m.test numbers :=
  Marks.le_iff.mpr ⟨Finset.subset_union_left, Finset.Subset.refl _⟩

/-- The constructs of a region that have a condition. -/
def Region.ifs : Region → List ConstructId
  | .done => []
  | .block _ rest => rest.ifs
  | .branch c yes no rest => c :: (yes.ifs ++ no.ifs ++ rest.ifs)
  | .loop _ body rest => body.ifs ++ rest.ifs

/-- Whether one of some readings is new that is made around a loop, that is, for a block other
than the one before the loop. -/
def bringsNew (before : Option BlockId) : List (Option BlockId × Int) → Finset Int → Bool
  | [], _ => false
  | r :: rest, s =>
      (decide (r.2 ∉ s) && r.1.isSome && decide (r.1 ≠ before)) || bringsNew before rest (insert r.2 s)

/-- Rounds of scanning, at most `n` of them. Another one follows if `again` says so. -/
def rounds (round : Marks → Marks) (again : Marks → Bool) : Nat → Marks → Marks
  | 0, m => m
  | n + 1, m => if again m then rounds round again n (round m) else round m

/-- Rounds come to their end before the bound is met. -/
def Settles (round : Marks → Marks) (again : Marks → Bool) : Nat → Marks → Prop
  | 0, _ => False
  | n + 1, m => again m = true → Settles round again n (round m)

namespace Outline

/-- Whether an instruction has an effect or a result that is marked. -/
def isLive (o : Outline) (m : Marks) (i : InstrId) : Bool :=
  o.effect i || (o.defs i).any (· ∈ m.values)

/-- A visit of an instruction. -/
def visit (o : Outline) (i : InstrId) (m : Marks) : Marks :=
  if o.isLive m i then ⟨m.values ∪ ((o.reads i).map Prod.snd).toFinset, insert i m.instrs⟩ else m

/-- Visits of a list of instructions, the last one first. -/
def visitAll (o : Outline) (l : List InstrId) (m : Marks) : Marks :=
  l.foldr o.visit m

/-- Whether visits of a list of instructions bring something new around a loop. -/
def newIn (o : Outline) (before : Option BlockId) : List InstrId → Marks → Bool
  | [], _ => false
  | i :: rest, m =>
      o.newIn before rest m || (o.isLive (o.visitAll rest m) i
        && bringsNew before (o.reads i) (o.visitAll rest m).values)

/-- Whether one scan of the body of a loop is enough, since nothing comes around the loop. -/
def once (o : Outline) (always : Bool) (before : Option BlockId) (body : Region) : Bool :=
  match body.header with
  | .ok header => !always && o.preds header = before.toList
  | .error _ => true

/-- The scan of a region, from its end to its start. -/
def scan (o : Outline) (always : Bool) (room : Nat) : Option BlockId → Region → Marks → Marks
  | _, .done, m => m
  | _, .block b rest, m => o.visitAll (o.body b) (o.scan always room (some b) rest m)
  | _, .branch c yes no rest, m =>
      (o.scan always room none yes (o.scan always room none no
        (o.scan always room none rest m))).test (o.tests c)
  | before, .loop _ body rest, m =>
      if o.once always before body then
        o.scan always room none body (o.scan always room none rest m)
      else
        rounds (o.scan always room none body)
          (fun m => match body with
            | .block header inner =>
                o.newIn before (o.body header) (o.scan always room (some header) inner m)
            | _ => false)
          (room + 1) (o.scan always room none rest m)

/-- Whether a round through the body of a loop brings something new around the loop. -/
def again (o : Outline) (always : Bool) (room : Nat) (before : Option BlockId) (body : Region)
    (m : Marks) : Bool :=
  match body with
  | .block header inner =>
      o.newIn before (o.body header) (o.scan always room (some header) inner m)
  | _ => false

/-- An instruction of a region. -/
def Stands (o : Outline) (r : Region) (i : InstrId) : Prop :=
  ∃ b ∈ r.preorder, i ∈ o.body b

/-- An instruction reads a number. -/
def Reads (o : Outline) (i : InstrId) (n : Int) : Prop :=
  ∃ s ∈ o.reads i, s.2 = n

/-- The block for which an instruction reads a number, if it reads it. A φ may read a number for
several blocks, and the first of them counts. -/
def readFor (o : Outline) (i : InstrId) (n : Int) : Option (Option BlockId) :=
  ((o.reads i).find? (·.2 = n)).map Prod.fst

/-- An instruction reads a number, and not around a loop. -/
def ReadsNow (o : Outline) (before : Option BlockId) (i : InstrId) (n : Int) : Prop :=
  ∃ p, o.readFor i n = some p ∧ (p = none ∨ p = before)

/-- An instruction of a region defines a number. -/
def Makes (o : Outline) (r : Region) (n : Int) : Prop :=
  ∃ i, o.Stands r i ∧ n ∈ o.defs i

/-- An instruction or a condition of a region reads a number. -/
def Asks (o : Outline) (r : Region) (n : Int) : Prop :=
  (∃ i, o.Stands r i ∧ o.Reads i n) ∨ ∃ c ∈ r.ifs, n ∈ o.tests c

/-- Marks that agree with each other: what is marked is live, and all that it reads is marked. -/
def Agree (o : Outline) (m : Marks) : Prop :=
  ∀ i ∈ m.instrs, o.isLive m i = true ∧ ∀ n, o.Reads i n → n ∈ m.values

/-- Nothing in a region is read before it is defined. Around a loop, the first block may read
what the loop defines. -/
def InOrder (o : Outline) : Option BlockId → Region → Prop
  | _, .done => True
  | _, .block b rest =>
      (o.body b).Pairwise (fun i j => ∀ n ∈ o.defs j, ¬ o.Reads i n)
        ∧ (∀ n, o.Makes rest n → ∀ i ∈ o.body b, ¬ o.Reads i n) ∧ o.InOrder (some b) rest
  | _, .branch c yes no rest =>
      (∀ n, o.Makes rest n → ¬ o.Asks no n ∧ ¬ o.Asks yes n ∧ n ∉ o.tests c)
        ∧ (∀ n, o.Makes no n → ¬ o.Asks yes n ∧ n ∉ o.tests c)
        ∧ (∀ n, o.Makes yes n → n ∉ o.tests c)
        ∧ o.InOrder none yes ∧ o.InOrder none no ∧ o.InOrder none rest
  | before, .loop _ (.block header inner) rest =>
      (∀ n, o.Makes rest n → ¬ o.Asks (.block header inner) n)
        ∧ (o.body header).Pairwise (fun i j => ∀ n ∈ o.defs j, ¬ o.ReadsNow before i n)
        ∧ (∀ n, o.Makes inner n → ∀ i ∈ o.body header, ¬ o.ReadsNow before i n)
        ∧ o.InOrder (some header) inner ∧ o.InOrder none rest
  | _, .loop _ _ _ => False

/-! ### Visits -/

variable {o : Outline} {m m' : Marks} {i : InstrId} {l : List InstrId} {n : Int} {before : Option BlockId}

theorem isLive_eq_true : o.isLive m i = true ↔ o.effect i = true ∨ ∃ n ∈ o.defs i, n ∈ m.values := by
  simp [isLive]

theorem isLive_mono (h : m ≤ m') (hi : o.isLive m i = true) : o.isLive m' i = true := by
  rw [isLive_eq_true] at hi ⊢
  exact hi.imp id fun ⟨n, hn, hm⟩ => ⟨n, hn, h.1 hm⟩

theorem visit_of_live (h : o.isLive m i = true) :
    o.visit i m = ⟨m.values ∪ ((o.reads i).map Prod.snd).toFinset, insert i m.instrs⟩ :=
  if_pos h

theorem visit_of_dead (h : o.isLive m i = false) : o.visit i m = m :=
  if_neg (by simp [h])

theorem mem_values_visit : n ∈ (o.visit i m).values
    ↔ n ∈ m.values ∨ o.isLive m i = true ∧ o.Reads i n := by
  cases h : o.isLive m i with
  | false => simp [visit_of_dead h]
  | true => simp [visit_of_live h, Reads, -Prod.exists]

theorem mem_instrs_visit {j : InstrId} : j ∈ (o.visit i m).instrs
    ↔ j ∈ m.instrs ∨ o.isLive m i = true ∧ j = i := by
  cases h : o.isLive m i with
  | false => simp [visit_of_dead h]
  | true => simp [visit_of_live h, or_comm]

theorem le_visit (o : Outline) (i : InstrId) (m : Marks) : m ≤ o.visit i m :=
  Marks.le_iff.mpr ⟨fun _ hn => mem_values_visit.mpr (.inl hn),
    fun _ hj => mem_instrs_visit.mpr (.inl hj)⟩

theorem Agree.visit (h : o.Agree m) : o.Agree (o.visit i m) := by
  intro j hj
  rcases mem_instrs_visit.mp hj with hj | ⟨hlive, rfl⟩
  · exact ⟨isLive_mono (o.le_visit i m) (h j hj).1, fun n hn => (o.le_visit i m).1 ((h j hj).2 n hn)⟩
  · exact ⟨isLive_mono (o.le_visit j m) hlive, fun n hn => mem_values_visit.mpr (.inr ⟨hlive, hn⟩)⟩

theorem Agree.test (h : o.Agree m) (numbers : List Int) : o.Agree (m.test numbers) := by
  intro j hj
  have hle := m.le_test numbers
  exact ⟨isLive_mono hle (h j hj).1, fun n hn => hle.1 ((h j hj).2 n hn)⟩

@[simp] theorem visitAll_cons : o.visitAll (i :: l) m = o.visit i (o.visitAll l m) := rfl

theorem visitAll_append :
    o.visitAll (l ++ l') m = o.visitAll l (o.visitAll l' m) :=
  List.foldr_append

/-- What each visit keeps is kept by visits of a list. -/
theorem visitAll_induction {P : Marks → Prop} (h : ∀ i ∈ l, ∀ m, P m → P (o.visit i m))
    (hm : P m) : P (o.visitAll l m) := by
  induction l with
  | nil => exact hm
  | cons i l ih =>
    exact h i List.mem_cons_self _ (ih fun j hj => h j (List.mem_cons_of_mem _ hj))

theorem mem_instrs_visitAll (h : i ∈ (o.visitAll l m).instrs) : i ∈ m.instrs ∨ i ∈ l := by
  refine visitAll_induction (P := fun m' => ∀ i ∈ m'.instrs, i ∈ m.instrs ∨ i ∈ l)
    (fun j hj m' h i hi => ?_) (fun i hi => .inl hi) i h
  rcases mem_instrs_visit.mp hi with hi | ⟨-, rfl⟩
  · exact h i hi
  · exact .inr hj

theorem Agree.visitAll (h : o.Agree m) : o.Agree (o.visitAll l m) :=
  visitAll_induction (fun _ _ _ h => h.visit) h

/-- Visits of an instruction that is never live do nothing. -/
theorem visitAll_erase (h : ∀ m, o.isLive m i = false) :
    o.visitAll (l.erase i) m = o.visitAll l m := by
  induction l with
  | nil => rfl
  | cons j l ih =>
    by_cases hj : j = i
    · subst hj
      rw [List.erase_cons_head, visitAll_cons, visit_of_dead (h _)]
    · rw [List.erase_cons_tail (by simpa using hj), visitAll_cons, visitAll_cons, ih]

theorem newIn_append : o.newIn before (l ++ l') m
    = (o.newIn before l' m || o.newIn before l (o.visitAll l' m)) := by
  induction l with
  | nil => simp [newIn]
  | cons i l ih => rw [List.cons_append, newIn, newIn, ih, visitAll_append, Bool.or_assoc]

theorem le_visitAll (o : Outline) (l : List InstrId) (m : Marks) : m ≤ o.visitAll l m :=
  visitAll_induction (P := (m ≤ ·)) (fun i _ m' h => h.trans (o.le_visit i m')) le_rfl

/-! ### Rounds -/

section Rounds

variable {round round' : Marks → Marks} {again again' : Marks → Bool} {P : Marks → Prop}

theorem rounds_induction (h : ∀ m, P m → P (round m)) (k : Nat) (hm : P m) :
    P (rounds round again k m) := by
  induction k generalizing m with
  | zero => exact hm
  | succ k ih =>
    rw [rounds]
    split
    · exact ih (h m hm)
    · exact h m hm

theorem exists_rounds_eq (round : Marks → Marks) (again : Marks → Bool) (k : Nat) (m : Marks) :
    ∃ m₀, rounds round again (k + 1) m = round m₀ := by
  induction k generalizing m with
  | zero =>
    refine ⟨m, ?_⟩
    rw [rounds]
    split <;> rfl
  | succ k ih =>
    rw [rounds]
    split
    · exact ih (round m)
    · exact ⟨m, rfl⟩

/-- Rounds come to their end if every round that is followed by another one makes a measure
smaller. -/
theorem settles_of_measure (P : Marks → Prop) (μ : Marks → Nat) (hP : ∀ m, P m → P (round m))
    (hμ : ∀ m, P m → again m = true → μ (round m) < μ m) (hm : P m) (hk : μ m < k) :
    Settles round again k m := by
  induction k generalizing m with
  | zero => omega
  | succ k ih =>
    intro hagain
    have := hμ m hm hagain
    exact ih (hP m hm) (by omega)

theorem exists_last_round (hP : ∀ m, P m → P (round m)) (h : Settles round again k m)
    (hm : P m) : ∃ m₀, P m₀ ∧ again m₀ = false ∧ rounds round again k m = round m₀ := by
  induction k generalizing m with
  | zero => exact h.elim
  | succ k ih =>
    rw [rounds]
    split
    case isTrue hagain => exact ih (h hagain) (hP m hm)
    case isFalse hagain => exact ⟨m, hm, by simpa using hagain, rfl⟩

end Rounds

/-! ### Scans -/

variable {always : Bool} {room : Nat} {r : Region}

theorem Stands.mono {r : Region} (h : s.preorder ⊆ r.preorder) (hi : o.Stands s i) :
    o.Stands r i := by
  obtain ⟨b, hb, hi⟩ := hi
  exact ⟨b, h hb, hi⟩

theorem stands_block :
    o.Stands (.block b rest) i ↔ i ∈ o.body b ∨ o.Stands rest i := by
  simp [Stands, Region.preorder]

theorem stands_branch :
    o.Stands (.branch c yes no rest) i ↔ o.Stands yes i ∨ o.Stands no i ∨ o.Stands rest i := by
  simp [Stands, Region.preorder, or_and_right, exists_or]

theorem stands_loop :
    o.Stands (.loop c body rest) i ↔ o.Stands body i ∨ o.Stands rest i := by
  simp [Stands, Region.preorder, or_and_right, exists_or]

theorem scan_loop :
    o.scan always room before (.loop c body rest) m
      = if o.once always before body then
          o.scan always room none body (o.scan always room none rest m)
        else
          rounds (o.scan always room none body) (o.again always room before body) (room + 1)
            (o.scan always room none rest m) := by
  cases body <;> rfl

/-- What visits and conditions keep is kept by a scan. -/
theorem scan_induction {P : Marks → Prop} (hvisit : ∀ i, o.Stands r i → ∀ m, P m → P (o.visit i m))
    (htest : ∀ c ∈ r.ifs, ∀ m, P m → P (m.test (o.tests c))) (hm : P m) :
    P (o.scan always room before r m) := by
  induction r generalizing before m with
  | done => exact hm
  | block b rest ih =>
    refine visitAll_induction (fun i hi => hvisit i ⟨b, List.mem_cons_self, hi⟩) ?_
    exact ih (fun i hi => hvisit i (hi.mono (List.subset_cons_self b _))) htest hm
  | branch c yes no rest ihYes ihNo ihRest =>
    refine htest c List.mem_cons_self _ (ihYes (fun i hi => hvisit i (hi.mono ?_))
      (fun d hd => htest d ?_) (ihNo (fun i hi => hvisit i (hi.mono ?_))
      (fun d hd => htest d ?_) (ihRest (fun i hi => hvisit i (hi.mono ?_))
      (fun d hd => htest d ?_) hm)))
    all_goals first
      | exact fun x hx => by simp [Region.preorder, hx]
      | simp [Region.ifs, hd]
  | loop c body rest ihBody ihRest =>
    have hrest : P (o.scan always room none rest m) :=
      ihRest (fun i hi => hvisit i (hi.mono (List.subset_append_right _ _)))
        (fun d hd => htest d (List.mem_append_right _ hd)) hm
    have hround (m : Marks) (hm : P m) : P (o.scan always room none body m) :=
      ihBody (fun i hi => hvisit i (hi.mono (List.subset_append_left _ _)))
        (fun d hd => htest d (List.mem_append_left _ hd)) hm
    rw [scan_loop]
    split
    · exact hround _ hrest
    · exact rounds_induction hround _ hrest

theorem le_scan (o : Outline) (always : Bool) (room : Nat) (before : Option BlockId) (r : Region)
    (m : Marks) : m ≤ o.scan always room before r m :=
  scan_induction (P := (m ≤ ·)) (fun i _ m' h => h.trans (o.le_visit i m'))
    (fun _ _ m' h => h.trans (m'.le_test _)) le_rfl

theorem Agree.scan (h : o.Agree m) : o.Agree (o.scan always room before r m) :=
  scan_induction (fun _ _ _ h => h.visit) (fun _ _ _ h => h.test _) h

/-- A scan marks what its region reads. -/
theorem mem_values_scan (h : n ∈ (o.scan always room before r m).values) :
    n ∈ m.values ∨ o.Asks r n := by
  refine scan_induction (P := fun m' => ∀ n ∈ m'.values, n ∈ m.values ∨ o.Asks r n)
    (fun i hi m' h n hn => ?_) (fun c hc m' h n hn => ?_) (fun n hn => .inl hn) n h
  · rcases mem_values_visit.mp hn with hn | ⟨-, hread⟩
    · exact h n hn
    · exact .inr (.inl ⟨i, hi, hread⟩)
  · rcases Finset.mem_union.mp hn with hn | hn
    · exact h n hn
    · exact .inr (.inr ⟨c, hc, List.mem_toFinset.mp hn⟩)

/-- A scan finds instructions of its region live. -/
theorem mem_instrs_scan (h : i ∈ (o.scan always room before r m).instrs) :
    i ∈ m.instrs ∨ o.Stands r i := by
  refine scan_induction (P := fun m' => ∀ i ∈ m'.instrs, i ∈ m.instrs ∨ o.Stands r i)
    (fun j hj m' h i hi => ?_) (fun c hc m' h => h) (fun i hi => .inl hi) i h
  rcases mem_instrs_visit.mp hi with hi | ⟨-, rfl⟩
  · exact h i hi
  · exact .inr hj

theorem le_rounds_scan (o : Outline) (always : Bool) (room : Nat) (body : Region)
    (again : Marks → Bool) (k : Nat) (m : Marks) :
    m ≤ rounds (o.scan always room none body) again k m :=
  rounds_induction (P := (m ≤ ·)) (fun m' hm' => hm'.trans (o.le_scan always room none body m'))
    k le_rfl

theorem mem_instrs_rounds_scan {again : Marks → Bool}
    (h : i ∈ (rounds (o.scan always room none body) again k m).instrs) :
    i ∈ m.instrs ∨ o.Stands body i :=
  rounds_induction (P := fun m' => ∀ i ∈ m'.instrs, i ∈ m.instrs ∨ o.Stands body i)
    (fun _ hm' i hi => (mem_instrs_scan hi).elim (hm' i) .inr) k (fun _ hi => .inl hi) i h

/-! ### Effects and conditions -/

/-- Every effect of a region is marked, and every condition. -/
def Covers (o : Outline) (r : Region) (m : Marks) : Prop :=
  (∀ i, o.Stands r i → o.effect i = true → i ∈ m.instrs)
    ∧ ∀ c ∈ r.ifs, ∀ n ∈ o.tests c, n ∈ m.values

theorem Covers.mono (h : o.Covers r m) (hle : m ≤ m') : o.Covers r m' :=
  ⟨fun i hi he => hle.2 (h.1 i hi he), fun c hc n hn => hle.1 (h.2 c hc n hn)⟩

theorem mem_instrs_visitAll_of_effect (hi : i ∈ l) (he : o.effect i = true) :
    i ∈ (o.visitAll l m).instrs := by
  induction l with
  | nil => simp at hi
  | cons j l ih =>
    rcases List.mem_cons.mp hi with rfl | hi
    · exact mem_instrs_visit.mpr (.inr ⟨isLive_eq_true.mpr (.inl he), rfl⟩)
    · exact mem_instrs_visit.mpr (.inl (ih hi))

theorem covers_scan : o.Covers r (o.scan always room before r m) := by
  induction r generalizing before m with
  | done =>
    refine ⟨fun i ⟨b, hb, _⟩ => ?_, fun c hc => ?_⟩
    · simp [Region.preorder] at hb
    · simp [Region.ifs] at hc
  | block b rest ih =>
    have hrest : o.Covers rest (o.scan always room none (.block b rest) m) :=
      ih.mono (o.le_visitAll (o.body b) _)
    refine ⟨fun i ⟨c, hc, hi⟩ he => ?_, hrest.2⟩
    rcases List.mem_cons.mp hc with rfl | hc
    · exact mem_instrs_visitAll_of_effect hi he
    · exact hrest.1 i ⟨c, hc, hi⟩ he
  | branch c yes no rest ihYes ihNo ihRest =>
    have hYes : o.Covers yes (o.scan always room before (.branch c yes no rest) m) :=
      ihYes.mono (Marks.le_test _ _)
    have hNo : o.Covers no (o.scan always room before (.branch c yes no rest) m) :=
      (ihNo.mono (o.le_scan always room none yes _)).mono (Marks.le_test _ _)
    have hRest : o.Covers rest (o.scan always room before (.branch c yes no rest) m) :=
      ((ihRest.mono (o.le_scan always room none no _)).mono
        (o.le_scan always room none yes _)).mono (Marks.le_test _ _)
    refine ⟨fun i ⟨b, hb, hi⟩ he => ?_, fun d hd n hn => ?_⟩
    · rcases List.mem_append.mp hb with hb | hb
      · rcases List.mem_append.mp hb with hb | hb
        · exact hYes.1 i ⟨b, hb, hi⟩ he
        · exact hNo.1 i ⟨b, hb, hi⟩ he
      · exact hRest.1 i ⟨b, hb, hi⟩ he
    · rcases List.mem_cons.mp hd with rfl | hd
      · exact Finset.mem_union_right _ (List.mem_toFinset.mpr hn)
      · rcases List.mem_append.mp hd with hd | hd
        · rcases List.mem_append.mp hd with hd | hd
          · exact hYes.2 d hd n hn
          · exact hNo.2 d hd n hn
        · exact hRest.2 d hd n hn
  | loop c body rest ihBody ihRest =>
    have hlast : ∃ m₀, o.scan always room none rest m ≤ o.scan always room none body m₀
        ∧ o.scan always room before (.loop c body rest) m = o.scan always room none body m₀ := by
      rw [scan_loop]
      split
      · exact ⟨_, o.le_scan always room none body _, rfl⟩
      · obtain ⟨m₀, heq⟩ := exists_rounds_eq (o.scan always room none body)
          (o.again always room before body) room (o.scan always room none rest m)
        exact ⟨m₀, heq ▸ o.le_rounds_scan always room body _ _ _, heq⟩
    obtain ⟨m₀, hle, heq⟩ := hlast
    have hBody : o.Covers body (o.scan always room none body m₀) := ihBody
    have hRest : o.Covers rest (o.scan always room none body m₀) := ihRest.mono hle
    rw [heq]
    refine ⟨fun i ⟨b, hb, hi⟩ he => ?_, fun d hd n hn => ?_⟩
    · rcases List.mem_append.mp hb with hb | hb
      · exact hBody.1 i ⟨b, hb, hi⟩ he
      · exact hRest.1 i ⟨b, hb, hi⟩ he
    · rcases List.mem_append.mp hd with hd | hd
      · exact hBody.2 d hd n hn
      · exact hRest.2 d hd n hn

/-! ### What is read in order -/

theorem bringsNew_eq_true {s : List (Option BlockId × Int)}
    (h : bringsNew before s values = true) : ∃ x ∈ s, x.2 ∉ values := by
  induction s generalizing values with
  | nil => simp [bringsNew] at h
  | cons x s ih =>
    rw [bringsNew, Bool.or_eq_true] at h
    rcases h with h | h
    · exact ⟨x, List.mem_cons_self, by simp_all⟩
    · obtain ⟨y, hy, hnew⟩ := ih h
      exact ⟨y, List.mem_cons_of_mem _ hy, fun hmem => hnew (Finset.mem_insert_of_mem hmem)⟩

/-- If nothing new comes around a loop, then what is new is read first for the block before the
loop or for no block. -/
theorem exists_of_bringsNew_eq_false {s : List (Option BlockId × Int)}
    (h : bringsNew before s values = false) {x : Option BlockId × Int} (hx : x ∈ s)
    (hnew : x.2 ∉ values) : ∃ y, s.find? (·.2 = x.2) = some y ∧ (y.1 = none ∨ y.1 = before) := by
  induction s generalizing values with
  | nil => simp at hx
  | cons y s ih =>
    rw [bringsNew, Bool.or_eq_false_iff] at h
    by_cases hy : y.2 = x.2
    · refine ⟨y, List.find?_cons_of_pos (by simpa using hy), ?_⟩
      have hhere := h.1
      rw [hy] at hhere
      cases hfor : y.1 with
      | none => exact .inl rfl
      | some p => simpa [hnew, hfor] using hhere
    · rcases List.mem_cons.mp hx with rfl | hx
      · exact absurd rfl hy
      · have hnew' : x.2 ∉ insert y.2 values := by
          simp only [Finset.mem_insert, not_or]
          exact ⟨fun h => hy h.symm, hnew⟩
        rw [List.find?_cons_of_neg (by simpa using hy)]
        exact ih h.2 hx hnew'

theorem exists_new_of_newIn (h : o.newIn before l m = true) :
    ∃ n ∈ (o.visitAll l m).values, n ∉ m.values := by
  induction l with
  | nil => simp [newIn] at h
  | cons i l ih =>
    rw [newIn, Bool.or_eq_true] at h
    rcases h with h | h
    · obtain ⟨n, hn, hnew⟩ := ih h
      exact ⟨n, (o.le_visit i _).1 hn, hnew⟩
    · rw [Bool.and_eq_true] at h
      obtain ⟨x, hx, hnew⟩ := bringsNew_eq_true h.2
      exact ⟨x.2, mem_values_visit.mpr (.inr ⟨h.1, x, hx, rfl⟩),
        fun hm => hnew ((o.le_visitAll l m).1 hm)⟩

/-- Visits of a list of instructions mark nothing new that these do not read in some way. -/
def MarksOnly (o : Outline) (reads : InstrId → Int → Prop) : List InstrId → Marks → Prop
  | [], _ => True
  | i :: rest, m =>
      (∀ n ∈ (o.visit i (o.visitAll rest m)).values, n ∈ (o.visitAll rest m).values ∨ reads i n)
        ∧ o.MarksOnly reads rest m

theorem marksOnly_reads : o.MarksOnly o.Reads l m := by
  induction l with
  | nil => trivial
  | cons i l ih => exact ⟨fun n hn => (mem_values_visit.mp hn).imp id (·.2), ih⟩

theorem marksOnly_readsNow (h : o.newIn before l m = false) :
    o.MarksOnly (o.ReadsNow before) l m := by
  induction l with
  | nil => trivial
  | cons i l ih =>
    rw [newIn, Bool.or_eq_false_iff] at h
    refine ⟨fun n hn => ?_, ih h.1⟩
    by_contra hcon
    rw [not_or] at hcon
    obtain ⟨hlive, x, hx, rfl⟩ := (mem_values_visit.mp hn).resolve_left hcon.1
    have hnone : bringsNew before (o.reads i) (o.visitAll l m).values = false := by
      simpa [hlive] using h.2
    obtain ⟨y, hy, hfor⟩ := exists_of_bringsNew_eq_false hnone hx hcon.1
    exact hcon.2 ⟨y.1, by rw [readFor, hy, Option.map_some], hfor⟩

theorem MarksOnly.imp {reads reads' : InstrId → Int → Prop} (h : o.MarksOnly reads l m)
    (himp : ∀ i ∈ l, ∀ n, reads i n → reads' i n) : o.MarksOnly reads' l m := by
  induction l with
  | nil => trivial
  | cons i l ih =>
    exact ⟨fun n hn => (h.1 n hn).imp id (himp i List.mem_cons_self n),
      ih h.2 fun j hj => himp j (List.mem_cons_of_mem _ hj)⟩

section InOrder

variable {reads : InstrId → Int → Prop}

theorem MarksOnly.mem_values (h : o.MarksOnly reads l m) (hn : n ∈ (o.visitAll l m).values) :
    n ∈ m.values ∨ ∃ i ∈ l, reads i n := by
  induction l with
  | nil => exact .inl hn
  | cons i l ih =>
    rcases h.1 n hn with hn | hread
    · exact (ih h.2 hn).imp id fun ⟨j, hj, hread⟩ => ⟨j, List.mem_cons_of_mem _ hj, hread⟩
    · exact .inr ⟨i, List.mem_cons_self, hread⟩

/-- If a list of instructions reads nothing before it is defined in the list, then visits find
live whatever defines a marked number. -/
theorem MarksOnly.mem_instrs (h : o.MarksOnly reads l m)
    (hl : l.Pairwise fun i j => ∀ n ∈ o.defs j, ¬ reads i n) (hi : i ∈ l) (hdef : n ∈ o.defs i)
    (hn : n ∈ (o.visitAll l m).values) : i ∈ (o.visitAll l m).instrs := by
  induction l with
  | nil => simp at hi
  | cons j l ih =>
    rw [List.pairwise_cons] at hl
    rcases List.mem_cons.mp hi with rfl | hi
    · refine mem_instrs_visit.mpr (.inr ⟨?_, rfl⟩)
      rcases mem_values_visit.mp hn with hn | ⟨hlive, -⟩
      · exact isLive_eq_true.mpr (.inr ⟨n, hdef, hn⟩)
      · exact hlive
    · have hlater := (h.1 n hn).resolve_right (hl.1 i hi n hdef)
      exact (o.le_visit j _).2 (ih h.2 hl.2 hi hlater)

/-- Whatever defines a marked number in a region is marked. -/
def Finds (o : Outline) (r : Region) (m : Marks) : Prop :=
  ∀ i, o.Stands r i → ∀ n ∈ o.defs i, n ∈ m.values → i ∈ m.instrs

theorem MarksOnly.finds (h : o.MarksOnly reads (o.body b) m)
    (hbody : (o.body b).Pairwise fun i j => ∀ n ∈ o.defs j, ¬ reads i n)
    (hlate : ∀ n, o.Makes rest n → ∀ i ∈ o.body b, ¬ reads i n) (hrest : o.Finds rest m) :
    o.Finds (.block b rest) (o.visitAll (o.body b) m) := by
  rintro i ⟨c, hc, hi⟩ n hdef hn
  rcases List.mem_cons.mp hc with rfl | hc
  · exact h.mem_instrs hbody hi hdef hn
  · have hstands : o.Stands rest i := ⟨c, hc, hi⟩
    rcases h.mem_values hn with hn | ⟨j, hj, hread⟩
    · exact (o.le_visitAll _ m).2 (hrest i hstands n hdef hn)
    · exact absurd hread (hlate n ⟨i, hstands, hdef⟩ j hj)

/-- Marks that do not grow on what a region defines. -/
theorem Finds.mono (h : o.Finds r m) (hle : m ≤ m')
    (hold : ∀ n, o.Makes r n → n ∈ m'.values → n ∈ m.values) : o.Finds r m' :=
  fun i hi n hdef hn => hle.2 (h i hi n hdef (hold n ⟨i, hi, hdef⟩ hn))

/-- The φs of a region read for the blocks from which control comes. -/
def ReadsForPreds (o : Outline) (r : Region) : Prop :=
  ∀ b ∈ r.preorder, ∀ i ∈ o.body b, ∀ s ∈ o.reads i, ∀ p ∈ s.1, p ∈ o.preds b

theorem ReadsForPreds.mono (h : o.ReadsForPreds r) (hs : s.preorder ⊆ r.preorder) :
    o.ReadsForPreds s :=
  fun b hb => h b (hs hb)

theorem Asks.mono {s : Region} (hs : s.preorder ⊆ r.preorder) (hifs : s.ifs ⊆ r.ifs)
    (h : o.Asks s n) : o.Asks r n :=
  h.imp (fun ⟨i, hi, hread⟩ => ⟨i, hi.mono hs, hread⟩) fun ⟨c, hc, hn⟩ => ⟨c, hifs hc, hn⟩

theorem values_scan_subset (always : Bool) (room : Nat) (before : Option BlockId)
    (hN : ∀ n, o.Asks r n → n ∈ N) (hm : m.values ⊆ N) :
    (o.scan always room before r m).values ⊆ N :=
  fun n hn => (mem_values_scan hn).elim (hm ·) (hN n)

theorem exists_readFor (h : o.Reads i n) : ∃ s ∈ o.reads i, o.readFor i n = some s.1 := by
  obtain ⟨x, hx, rfl⟩ := h
  cases hfind : (o.reads i).find? (·.2 = x.2) with
  | none => simpa using List.find?_eq_none.mp hfind x hx
  | some s => exact ⟨s, List.mem_of_find?_eq_some hfind, by rw [readFor, hfind, Option.map_some]⟩

/-- A loop that is entered from the block before it alone reads nothing around. -/
theorem readsNow_of_once
    (honce : o.once always before (.block header inner) = true)
    (hpreds : o.ReadsForPreds (.block header inner)) (hi : i ∈ o.body header) (h : o.Reads i n) :
    o.ReadsNow before i n := by
  obtain ⟨s, hs, hread⟩ := exists_readFor h
  refine ⟨s.1, hread, ?_⟩
  have heq : o.preds header = before.toList := by
    simp only [once, Region.header, Bool.and_eq_true, decide_eq_true_eq] at honce
    exact honce.2
  cases hfor : s.1 with
  | none => exact .inl rfl
  | some p =>
    have hp := hpreds header List.mem_cons_self i hi s hs p hfor
    rw [heq, Option.mem_toList] at hp
    exact .inr hp.symm

theorem card_sdiff_lt {s t : Finset Int} (hst : s ⊆ t) (hN : t ⊆ N)
    (hn : n ∈ t) (hnew : n ∉ s) : (N \ t).card < (N \ s).card := by
  refine Finset.card_lt_card (Finset.ssubset_iff_of_subset (Finset.sdiff_subset_sdiff
    (Finset.Subset.refl N) hst) |>.mpr ⟨n, ?_, ?_⟩)
  · exact Finset.mem_sdiff.mpr ⟨hN hn, hnew⟩
  · exact fun h => (Finset.mem_sdiff.mp h).2 hn

theorem Finds.branch {c : ConstructId} {rest : Region} {mYes mNo : Marks}
    (hRest : o.Finds rest m) (hNo : o.Finds no mNo) (hYes : o.Finds yes mYes)
    (hleNo : m ≤ mNo) (hleYes : mNo ≤ mYes)
    (hinNo : ∀ n ∈ mNo.values, n ∈ m.values ∨ o.Asks no n)
    (hinYes : ∀ n ∈ mYes.values, n ∈ mNo.values ∨ o.Asks yes n)
    (hlate : ∀ n, o.Makes rest n → ¬ o.Asks no n ∧ ¬ o.Asks yes n ∧ n ∉ o.tests c)
    (hlateNo : ∀ n, o.Makes no n → ¬ o.Asks yes n ∧ n ∉ o.tests c)
    (hlateYes : ∀ n, o.Makes yes n → n ∉ o.tests c) :
    o.Finds (.branch c yes no rest) (mYes.test (o.tests c)) := by
  have hle := mYes.le_test (o.tests c)
  have hold {n : Int} (hn : n ∈ (mYes.test (o.tests c)).values) (hlate : n ∉ o.tests c) :
      n ∈ mYes.values :=
    (Finset.mem_union.mp hn).resolve_right fun h => hlate (List.mem_toFinset.mp h)
  have hYes' := hYes.mono hle fun n hn hm => hold hm (hlateYes n hn)
  have hNo' := hNo.mono (hleYes.trans hle) fun n hn hm =>
    (hinYes n (hold hm (hlateNo n hn).2)).resolve_right (hlateNo n hn).1
  have hRest' := hRest.mono ((hleNo.trans hleYes).trans hle) fun n hn hm =>
    (hinNo n ((hinYes n (hold hm (hlate n hn).2.2)).resolve_right (hlate n hn).2.1)).resolve_right
      (hlate n hn).1
  rintro i ⟨b, hb, hi⟩
  rcases List.mem_append.mp hb with hb | hb
  · rcases List.mem_append.mp hb with hb | hb
    · exact hYes' i ⟨b, hb, hi⟩
    · exact hNo' i ⟨b, hb, hi⟩
  · exact hRest' i ⟨b, hb, hi⟩

/-- The rounds of a loop come to their end, if the numbers that can be marked fit into the
room. -/
theorem settles_scan (hroom : N.card ≤ room) (before : Option BlockId)
    (hN : ∀ n, o.Asks body n → n ∈ N) (hm : m.values ⊆ N) :
    Settles (o.scan always room none body) (o.again always room before body) (room + 1) m := by
  refine settles_of_measure (fun m => m.values ⊆ N) (fun m => (N \ m.values).card)
    (fun m hm => values_scan_subset always room none hN hm) (fun m hm hagain => ?_) hm
    (Nat.lt_succ_of_le ((Finset.card_le_card Finset.sdiff_subset).trans hroom))
  cases body with
  | block header inner =>
    obtain ⟨n, hn, hnew⟩ := exists_new_of_newIn hagain
    refine card_sdiff_lt (o.le_scan always room none _ m).1
      (values_scan_subset always room none hN hm) hn ?_
    exact fun hold => hnew ((o.le_scan always room (some header) inner m).1 hold)
  | done => simp [again] at hagain
  | branch => simp [again] at hagain
  | loop => simp [again] at hagain

/-- A loop is scanned until nothing new comes around it. -/
theorem exists_last_scan (hroom : N.card ≤ room) (before : Option BlockId)
    (c : ConstructId) (hpreds : o.ReadsForPreds (.block header inner))
    (hN : ∀ n, o.Asks (.block header inner) n → n ∈ N)
    (hm : (o.scan always room none rest m).values ⊆ N) :
    ∃ m₀, o.scan always room none rest m ≤ m₀
      ∧ (∀ n ∈ m₀.values, n ∈ (o.scan always room none rest m).values
        ∨ o.Asks (.block header inner) n)
      ∧ o.MarksOnly (o.ReadsNow before) (o.body header) (o.scan always room (some header) inner m₀)
      ∧ o.scan always room before (.loop c (.block header inner) rest) m
        = o.scan always room none (.block header inner) m₀ := by
  rw [scan_loop]
  split
  case isTrue honce =>
    refine ⟨_, le_rfl, fun n hn => .inl hn, ?_, rfl⟩
    exact marksOnly_reads.imp fun i hi n hn => readsNow_of_once honce hpreds hi hn
  case isFalse honce =>
    obtain ⟨m₀, h₀, hlast, heq⟩ := exists_last_round
      (P := fun m' => o.scan always room none rest m ≤ m'
        ∧ ∀ n ∈ m'.values, n ∈ (o.scan always room none rest m).values
          ∨ o.Asks (.block header inner) n)
      (fun m' h => ⟨h.1.trans (o.le_scan always room none _ m'),
        fun n hn => (mem_values_scan hn).elim (h.2 n) .inr⟩)
      (settles_scan hroom before hN hm) ⟨le_rfl, fun n hn => .inl hn⟩
    exact ⟨m₀, h₀.1, h₀.2, marksOnly_readsNow hlast, heq⟩

/-- If nothing in a region is read before it is defined, except around a loop, then a scan finds
live whatever defines a marked number. -/
theorem finds_scan {N : Finset Int} (hroom : N.card ≤ room) :
    ∀ {before : Option BlockId} {r : Region} {m : Marks}, o.InOrder before r →
      o.ReadsForPreds r → (∀ n, o.Asks r n → n ∈ N) → m.values ⊆ N →
      o.Finds r (o.scan always room before r m)
  | _, .done, _, _, _, _, _ => fun i ⟨b, hb, _⟩ => by simp [Region.preorder] at hb
  | _, .block b rest, m, ⟨hbody, hlate, hrest⟩, hpreds, hN, hm =>
    marksOnly_reads.finds hbody hlate (finds_scan hroom hrest
      (hpreds.mono (List.subset_cons_self b _))
      (fun n hn => hN n (hn.mono (List.subset_cons_self b _) (List.Subset.refl _))) hm)
  | _, .branch c yes no rest, m, ⟨hlate, hlateNo, hlateYes, hyes, hno, hrest⟩, hpreds, hN, hm => by
    have hsubYes : yes.preorder ⊆ (Region.branch c yes no rest).preorder :=
      fun b hb => List.mem_append_left _ (List.mem_append_left _ hb)
    have hsubNo : no.preorder ⊆ (Region.branch c yes no rest).preorder :=
      fun b hb => List.mem_append_left _ (List.mem_append_right _ hb)
    have hsubRest : rest.preorder ⊆ (Region.branch c yes no rest).preorder :=
      fun b hb => List.mem_append_right _ hb
    have hNYes (n : Int) (hn : o.Asks yes n) : n ∈ N :=
      hN n (hn.mono hsubYes fun d hd => by simp [Region.ifs, hd])
    have hNNo (n : Int) (hn : o.Asks no n) : n ∈ N :=
      hN n (hn.mono hsubNo fun d hd => by simp [Region.ifs, hd])
    have hNRest (n : Int) (hn : o.Asks rest n) : n ∈ N :=
      hN n (hn.mono hsubRest fun d hd => by simp [Region.ifs, hd])
    have hmRest := values_scan_subset always room none hNRest hm
    have hmNo := values_scan_subset always room none hNNo hmRest
    exact Finds.branch (finds_scan hroom hrest (hpreds.mono hsubRest) hNRest hm)
      (finds_scan hroom hno (hpreds.mono hsubNo) hNNo hmRest)
      (finds_scan hroom hyes (hpreds.mono hsubYes) hNYes hmNo) (o.le_scan always room none no _)
      (o.le_scan always room none yes _) (fun n => mem_values_scan) (fun n => mem_values_scan)
      hlate hlateNo hlateYes
  | before, .loop c (.block header inner) rest, m, ⟨hlate, hbody, hlater, hinner, hrest⟩, hpreds,
      hN, hm => by
    have hNBody (n : Int) (hn : o.Asks (.block header inner) n) : n ∈ N :=
      hN n (hn.mono (List.subset_append_left _ _) (List.subset_append_left _ _))
    have hNRest (n : Int) (hn : o.Asks rest n) : n ∈ N :=
      hN n (hn.mono (List.subset_append_right _ _) (List.subset_append_right _ _))
    have hpredsBody := hpreds.mono (List.subset_append_left (Region.block header inner).preorder _)
    have hmRest := values_scan_subset always room none hNRest hm
    obtain ⟨m₀, hle, hnew, honly, heq⟩ := exists_last_scan hroom before c
      hpredsBody hNBody hmRest
    have hBody : o.Finds (.block header inner) (o.scan always room none (.block header inner) m₀) :=
      honly.finds hbody hlater (finds_scan hroom hinner
        (hpredsBody.mono (List.subset_cons_self header _))
        (fun n hn => hNBody n (hn.mono (List.subset_cons_self header _) (List.Subset.refl _)))
        fun n hn => (hnew n hn).elim (hmRest ·) (hNBody n))
    have hRest : o.Finds rest (o.scan always room none (.block header inner) m₀) :=
      (finds_scan hroom hrest (hpreds.mono (List.subset_append_right _ _)) hNRest hm).mono
        (hle.trans (o.le_scan always room none (.block header inner) m₀))
        fun n hmakes hn => (hnew n ((mem_values_scan hn).resolve_right
          (hlate n hmakes))).resolve_right (hlate n hmakes)
    rw [heq]
    rintro i ⟨b, hb, hi⟩
    rcases List.mem_append.mp hb with hb | hb
    · exact hBody i ⟨b, hb, hi⟩
    · exact hRest i ⟨b, hb, hi⟩
  | _, .loop _ .done _, _, h, _, _, _ => h.elim
  | _, .loop _ (.branch ..) _, _, h, _, _, _ => h.elim
  | _, .loop _ (.loop ..) _, _, h, _, _, _ => h.elim

end InOrder

end Outline

end ShaderCompiler
