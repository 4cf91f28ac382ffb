import ShaderCompiler.Proofs.Machine.Emission

/-!
# Histories of emissions

Programs that are emitted one after the other may share blocks, and each of them may be packed or
fail at any of its instructions. Emitting leaves the code of a listing alone and takes all positions
away again. What a program gives depends on the code only, so it gives the same bytes or the same
fault after every history, and a position from an earlier emission is never found.
-/

namespace ShaderCompiler.Machine.Listing

variable {l l' : Listing} {p : Program}

/-! ### What emitting depends on -/

section SameCode

variable (hcode : l'.code = l.code)

include hcode

theorem size_congr : l'.blocks.size = l.blocks.size := by
  simpa [code] using congrArg List.length hcode

variable (hpos : ∀ c, l'.positionOf c = l.positionOf c)

include hpos

theorem positionOf_place_congr (start c : Nat) :
    (l'.place start p).positionOf c = (l.place start p).positionOf c := by
  induction p generalizing l l' start with
  | nil => exact hpos c
  | cons b p ih =>
    rw [place, place, instrsOf_congr hcode]
    refine ih (by simp [hcode]) (fun c => ?_) _
    rw [positionOf_setPosition, positionOf_setPosition, size_congr hcode, hpos]

theorem blockWords_congr (b start : Nat) (qs : List (Instr × Nat)) :
    l'.blockWords b start qs = l.blockWords b start qs := by
  induction qs generalizing start with
  | nil => rfl
  | cons q qs ih =>
    have hdistance : l'.distance q.1 start = l.distance q.1 start := by
      simp only [distance, evaluate, hpos]
    simp only [blockWords, endsProgram_congr hcode, hdistance, ih]

theorem words_congr (start : Nat) : l'.words start p = l.words start p := by
  induction p generalizing start with
  | nil => rfl
  | cons b p ih =>
    simp only [words, instrsOf_congr hcode, blockWords_congr hcode hpos, ih]

end SameCode

/-- What a program gives depends on the code and the positions only. -/
theorem emit_congr (hcode : l'.code = l.code) (hpos : ∀ c, l'.positionOf c = l.positionOf c) :
    (l'.emit p).1 = (l.emit p).1 := by
  have hwords : (l'.place 0 p).words 0 p = (l.place 0 p).words 0 p :=
    words_congr (by simp [hcode]) (positionOf_place_congr hcode hpos 0) 0
  simp only [emit, length_congr hcode, hwords]
  split
  · rfl
  · split <;> rfl

/-! ### What emitting leaves behind -/

theorem unplace_leaves (l : Listing) (p : Program) :
    (l.unplace p).code = l.code ∧ (l.unplace p).counters = l.counters := by
  induction p generalizing l with
  | nil => exact ⟨rfl, rfl⟩
  | cons b p ih =>
    obtain ⟨hcode, hcounters⟩ := ih (l.setPosition b none)
    exact ⟨hcode.trans (code_setPosition none), hcounters⟩

theorem counters_place (start : Nat) : (l.place start p).counters = l.counters := by
  induction p generalizing l start with
  | nil => rfl
  | cons b p ih =>
    rw [place]
    exact ih _

theorem code_emit (l : Listing) (p : Program) : (l.emit p).2.code = l.code := by
  have hcode := ((l.place 0 p).unplace_leaves p).1.trans (code_place 0)
  rcases emit_cases l p with ⟨-, h⟩ | ⟨-, ws, -, h⟩ | ⟨-, fault, -, h⟩ <;> rw [h]
  exacts [hcode, hcode]

/-- Only a program that has instructions and is packed is counted, with all its instructions. -/
theorem counters_emit (l : Listing) (p : Program) : (l.emit p).2.counters =
    if 0 < l.length p ∧ (l.emit p).1.isOk then
      ⟨l.counters.words + l.length p, l.counters.programs + 1⟩
    else l.counters := by
  rcases emit_cases l p with ⟨hn, h⟩ | ⟨hn, ws, -, h⟩ | ⟨-, fault, -, h⟩ <;> rw [h]
  · simp [hn]
  · simp [hn, Except.isOk, Except.toBool]
  · simp [Except.isOk, Except.toBool, ((l.place 0 p).unplace_leaves p).2, counters_place]

/-- A program with a target outside of it is not packed. -/
theorem exists_fault_of_target (h : l.Arises) {b : Nat} (hb : b ∈ p) {ins : Instr}
    (hins : ins ∈ l.instrsOf b) {label : Label} (ht : ins.target = some label) (hout : label.id ∉ p) :
    ∃ fault, (l.emit p).1 = .error fault := by
  obtain ⟨i, hi⟩ := List.mem_iff_getElem?.mp hins
  have hsite : (⟨b, i, ins⟩ : Site) ∈ l.sites p :=
    List.mem_flatMap.mpr ⟨b, hb, List.mem_map.mpr ⟨(ins, i), List.mem_zipIdx_iff_getElem?.mpr hi, rfl⟩⟩
  rcases emit_cases l p with ⟨hn, -⟩ | ⟨-, ws, hws, -⟩ | ⟨-, fault, -, h⟩
  · rw [← length_sites, List.length_eq_zero_iff] at hn
    simp [hn] at hsite
  · obtain ⟨k, hk⟩ := List.mem_iff_getElem?.mp hsite
    obtain ⟨w, d, -, hd, -⟩ := (packWith_place hws).2 k _ hk
    simp [distance, ht, evaluate, positionOf_place_of_notMem hout, h.positionOf_eq_none] at hd
  · exact ⟨fault, by rw [h]⟩

/-! ### Histories -/

/-- The listing after programs were emitted one after the other, whether they were packed or not. -/
def emitAll (l : Listing) (ps : List Program) : Listing :=
  ps.foldl (fun l p => (l.emit p).2) l

/-- The programs of a history that have instructions and are packed. -/
def counted (l : Listing) (ps : List Program) : List Program :=
  ps.filter fun p => 0 < l.length p ∧ (l.emit p).1.isOk

theorem Arises.emitAll (h : l.Arises) (ps : List Program) : (l.emitAll ps).Arises := by
  induction ps generalizing l with
  | nil => exact h
  | cons p ps ih => exact ih (h.emitted p)

theorem code_emitAll (l : Listing) (ps : List Program) : (l.emitAll ps).code = l.code := by
  induction ps generalizing l with
  | nil => rfl
  | cons p ps ih => exact (ih _).trans (l.code_emit p)

theorem counted_congr (h : l.Arises) (h' : l'.Arises) (hcode : l'.code = l.code)
    (ps : List Program) : l'.counted ps = l.counted ps := by
  refine List.filter_congr fun p _ => ?_
  rw [length_congr hcode, emit_congr hcode fun c => ?_]
  rw [h.positionOf_eq_none, h'.positionOf_eq_none]

theorem counters_emitAll (h : l.Arises) (ps : List Program) : (l.emitAll ps).counters =
    ⟨l.counters.words + ((l.counted ps).map l.length).sum,
      l.counters.programs + (l.counted ps).length⟩ := by
  induction ps generalizing l with
  | nil => rfl
  | cons p ps ih =>
    have hcode := l.code_emit p
    have hlength : (l.emit p).2.length = l.length := funext fun _ => length_congr hcode
    rw [emitAll, List.foldl_cons, ← emitAll, ih (h.emitted p), counted_congr h (h.emitted p) hcode,
      hlength, counters_emit]
    split
    case isTrue hp => simp [counted, hp, Nat.add_assoc, Nat.add_comm]
    case isFalse hp => simp [counted, hp]

/-- After every history of emissions no block is placed, and a program gives the bytes or the fault
that it gives at the start. If one of its instructions has a target outside of the program, this is
a fault. The counters tell of the programs that have instructions and were packed, and of nothing
else. -/
theorem emitAll_forgets (h : l.Arises) (ps : List Program) :
    (∀ b, (l.emitAll ps).positionOf b = none)
    ∧ (∀ p, ((l.emitAll ps).emit p).1 = (l.emit p).1)
    ∧ (∀ p, ∀ b ∈ p, ∀ ins ∈ l.instrsOf b, ∀ label, ins.target = some label →
      label.id ∉ p → ∃ fault, ((l.emitAll ps).emit p).1 = .error fault)
    ∧ (l.emitAll ps).counters = ⟨l.counters.words + ((l.counted ps).map l.length).sum,
      l.counters.programs + (l.counted ps).length⟩ := by
  have hall := h.emitAll ps
  refine ⟨hall.positionOf_eq_none, fun p => ?_, fun p b hb ins hins label ht hout => ?_,
    counters_emitAll h ps⟩
  · refine emit_congr (l.code_emitAll ps) fun c => ?_
    rw [h.positionOf_eq_none, hall.positionOf_eq_none]
  · rw [← instrsOf_congr (l.code_emitAll ps)] at hins
    exact exists_fault_of_target hall hb hins ht hout

/-- A block that branches to another one, which copies a register. -/
def leap : Listing :=
  let away := ((spin.instrsOf 0).drop 1).map ({ · with target := some ⟨1, "exit"⟩ })
  ((ofNames ["start", "exit"]).append 0 away).append 1 (spin.instrsOf 1)

/-- Without the block that it branches to the first block is not packed, also after the two were
packed together. -/
theorem emitAll_forgets_leap : (leap.emitAll [[0, 1], [0], [], [0, 1]]).counters = ⟨4, 2⟩
    ∧ ∃ fault, ((leap.emitAll [[0, 1]]).emit [0]).1 = .error fault := by
  have harises : leap.Arises := .appended (.appended (.names _) _ _) _ _
  obtain ⟨-, -, -, hcounters⟩ := emitAll_forgets harises [[0, 1], [0], [], [0, 1]]
  obtain ⟨-, -, hout, -⟩ := emitAll_forgets harises [[0, 1]]
  refine ⟨hcounters.trans (by decide +kernel), ?_⟩
  exact hout [0] 0 (by simp) _ (List.mem_singleton_self _) ⟨1, "exit"⟩ rfl (by simp)

end ShaderCompiler.Machine.Listing
