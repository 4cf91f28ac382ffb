import ShaderCompiler.Proofs.Forwarding.Sound

/-!
# Runs of forwarding

A run visits the copies of a function in program order and then those in its queue, until the
queue is empty. Every visit lets all uses of a copy look through it, and queues the copies for
which this may have brought pairs back. So a run leaves all uses of the visited copies stuck.
-/

namespace ShaderCompiler

variable {c progress : Bool} {st st' : Bool × List InstrId} {queue : List InstrId} {T : Scope}
  {f : FunctionId} {Q : BlockId → Prop}

namespace Arena

variable {a a' : Arena} {Ts : List Scope} {U : UseId → Prop} {i : InstrId} {b : BlockId} {p : Alu}
  {d v : ValueId} {u : UseId}

/-! ### Visits -/

/-- A stage of a run that began at `a₀`, with its progress and its queue. As long as there is no
progress nothing has changed, and progress means that something could be turned. -/
structure Underway (Ts : List Scope) (U : UseId → Prop) (a₀ a : Arena) (st : Bool × List InstrId)
    (P : BlockId → InstrId → Bool → UseId → Prop) : Prop where
  sound : a.Sound Ts U
  steps : Forwards Ts U a₀ a
  queue : a.QueueFits Ts st.2
  pending : a.Pending Ts fun b i c u => P b i c u ∨ i ∈ st.2
  idle : st.1 = false → a = a₀
  busy : st.1 = true → ¬ a₀.Settled Ts

/-- What is asked of a change that lets a use of one sort look through a copy. -/
def Turns (p : Alu) (c : Bool) (forward : UseId → Edit Bool) : Prop :=
  ∀ a a' u use r, a.uses[u.idx]? = some use → (c = true → use.user = none) →
    forward u a = .ok r a' → a.turnable p c u = .ok r ∧ (r = false → a' = a)
      ∧ (r = true → ∃ v z, a.Folds p u v z ∧ a.Offers p v
        ∧ Edit.repoint u (some v) (a.modifyUse u fun use => { use with swizzle := z }) = .ok () a')

theorem turns_forwardUse (p : Alu) : Turns p false (Edit.forwardUse p) := by
  intro a a' u use r huse _ h
  cases r with
  | false =>
    obtain ⟨hstuck, rfl⟩ := Edit.forwardUse_false.mp h
    exact ⟨hstuck, fun _ => rfl, by simp⟩
  | true => exact ⟨Edit.mayTurn_of_forwardUse h, by simp, fun _ => Edit.forwardUse_true h⟩

theorem turns_forwardExact (p : Alu) : Turns p true (Edit.forwardExact p) := by
  intro a a' u use r huse huser h
  cases r with
  | false =>
    obtain ⟨hstuck, rfl⟩ := Edit.forwardExact_false.mp h
    exact ⟨hstuck, fun _ => rfl, by simp⟩
  | true =>
    obtain ⟨hexact, v, hrep, hoffer, hrun⟩ := Edit.forwardExact_true h
    refine ⟨hexact, by simp, fun _ => ⟨v, use.swizzle, .exact huse ?_ hrep, hoffer, ?_⟩⟩
    · exact aluPosition_of_user huse (huser rfl)
    · rwa [modifyUse_of_eq huse rfl]

/-- A stage of a run, and what a later part of the run makes of it. -/
theorem Underway.trans {a₀ a₁ a₂ : Arena} {s t : Bool} {q r : List InstrId}
    {P Q : BlockId → InstrId → Bool → UseId → Prop} (h : Underway Ts U a₀ a₁ (s, q) P)
    (h' : Underway Ts U a₁ a₂ (t, r) Q) : Underway Ts U a₀ a₂ (s || t, r) Q where
  sound := h'.sound
  steps := h.steps.trans h'.steps
  queue := h'.queue
  pending := h'.pending
  idle hst := by
    rw [Bool.or_eq_false_iff] at hst
    rw [h'.idle hst.2, h.idle hst.1]
  busy hst := by
    cases hs : s with
    | true => exact h.busy hs
    | false =>
      rw [← h.idle hs]
      exact h'.busy (by simpa [hs] using hst)

theorem Underway.mono {a₀ : Arena} {st : Bool × List InstrId}
    {P Q : BlockId → InstrId → Bool → UseId → Prop} (h : Underway Ts U a₀ a st P)
    (hPQ : ∀ i b p d, a.StandsAs Ts i b p d → ∀ c u, P b i c u → Q b i c u ∨ i ∈ st.2) :
    Underway Ts U a₀ a st Q :=
  { h with pending := h.pending.mono fun i b p d hi c u hP =>
      hP.elim (hPQ i b p d hi c u) Or.inr }

theorem StandsAs.alu_eq {q : Alu} {c : BlockId} {e : ValueId} (h : a.StandsAs Ts i b p d)
    (h' : a.StandsAs Ts i c q e) : p = q := by
  obtain ⟨-, -, -, -, ins, hins, -, hact, -⟩ := h
  obtain ⟨-, -, -, -, ins', hins', -, hact', -⟩ := h'
  cases hins.symm.trans hins'
  cases hact.symm.trans hact'
  rfl

/-- Everything a copy may still be waiting for is one of its listed uses. -/
theorem Underway.visiting {a₀ : Arena} {P : BlockId → InstrId → Bool → UseId → Prop}
    {x : Value}
    (h : Underway Ts U a₀ a st fun c' j s t => P c' j s t ∨ j = i ∧ s = c)
    (hi : a.StandsAs Ts i b p d) (hx : a.values[d.idx]? = some x) :
    Underway Ts U a₀ a st fun c' j s t => P c' j s t ∨ j = i ∧ s = c ∧ t ∈ x.usesOf c := by
  refine { h with pending := fun j c' q e y hj hy s t ht => ?_ }
  rcases h.pending j c' q e y hj hy s t ht with hstuck | (hP | ⟨rfl, rfl⟩) | hqueue
  · exact Or.inl hstuck
  · exact Or.inr (Or.inl (Or.inl hP))
  · have he : d = e := by
      obtain rfl := hi.alu_eq hj
      obtain ⟨-, -, -, -, -, -, -, -, hd, -⟩ := hi
      obtain ⟨-, -, -, -, -, -, -, -, he, -⟩ := hj
      exact Option.some.inj (hd.symm.trans he)
    rw [← he, hx] at hy
    cases hy
    exact Or.inr (Or.inl (Or.inr ⟨rfl, rfl, ht⟩))
  · exact Or.inr (Or.inr hqueue)

theorem Forwards.resident {T : Scope} (h : Forwards Ts U a a') (hi : a.Resident T i) :
    a'.Resident T i := by
  induction h with
  | refl => exact hi
  | tail _ hstep ih =>
    cases hstep with
    | turn _ _ _ _ _ _ ht => exact ht.resident.mpr ih
    | take _ _ _ _ hcode => exact (Loses.of_without hcode).resident ih
    | same hcode => exact (Loses.of_code hcode).resident ih

end Arena

namespace Edit

open Arena

variable {a a' a₀ : Arena} {Ts : List Scope} {U : UseId → Prop} {i : InstrId} {b : BlockId}
  {p : Alu} {d : ValueId} {P : BlockId → InstrId → Bool → UseId → Prop}

/-- Uses of one sort look through a copy one after the other. -/
theorem forwardEach_spec {forward : UseId → Edit Bool} (hf : Turns p c forward)
    {rest : List UseId} (hi : a.StandsAs Ts i b p d)
    (hstage : Underway Ts U a₀ a st fun c' j s t => P c' j s t ∨ j = i ∧ s = c ∧ t ∈ rest)
    (hnodup : rest.Nodup) (hrest : ∀ u ∈ rest, U u ∧ a.Attached u ∧ ∃ use,
      a.uses[u.idx]? = some use ∧ use.value = some d ∧ use.guards.isSome = c)
    (hrun : forwardEach forward rest st a = .ok st' a') :
    Underway Ts U a₀ a' st' P ∧ a'.StandsAs Ts i b p d := by
  induction rest generalizing a st with
  | nil =>
    obtain ⟨rfl, rfl⟩ := pure_eq_ok.mp hrun
    exact ⟨hstage.mono fun j c' q e _ s t hP => Or.inl (hP.elim id (by simp)), hi⟩
  | cons u rest ih =>
    obtain ⟨hu, hatt, use, huse, hval, hguards⟩ := hrest u List.mem_cons_self
    obtain ⟨hu_rest, hnodup'⟩ := List.nodup_cons.mp hnodup
    simp only [forwardEach, bind_eq_ok] at hrun
    obtain ⟨r, a₁, hturn, hrun⟩ := hrun
    have huser : c = true → use.user = none := fun hc =>
      (hstage.sound.user u hu use huse).1 (hguards.trans hc)
    obtain ⟨hturnable, hsame, hmoved⟩ := hf a a₁ u use r huse huser hturn
    cases r with
    | false =>
      obtain rfl := hsame rfl
      refine ih hi ?_ hnodup' (fun t ht => hrest t (List.mem_cons_of_mem _ ht)) hrun
      refine { hstage with pending := fun j c' q e x hj hx s t ht => ?_ }
      -- The pair that was looked at is stuck.
      rcases hstage.pending j c' q e x hj hx s t ht with hstuck | (hP | ⟨rfl, rfl, hmem⟩) | hqueue
      · exact Or.inl hstuck
      · exact Or.inr (Or.inl (Or.inl hP))
      · rcases List.mem_cons.mp hmem with rfl | hmem
        · exact Or.inl (hi.alu_eq hj ▸ hturnable)
        · exact Or.inr (Or.inl (Or.inr ⟨rfl, rfl, hmem⟩))
      · exact Or.inr (Or.inr hqueue)
    | true =>
      obtain ⟨v, z, hfolds, hoffers, hpoint⟩ := hmoved rfl
      obtain ⟨ht, hsound, hatt'⟩ :=
        hstage.sound.turn hi hu hatt huse hval hoffers hpoint
      simp only [if_true, bind_eq_ok, count_eq_ok, look_eq_ok] at hrun
      obtain ⟨_, _, rfl, more, _, ⟨hmore, rfl⟩, hrun⟩ := hrun
      have ht' : Turned a (a₁.recount fun c => { c with copiesFolded := c.copiesFolded + 1 }) u v z :=
        ht
      have hsound' := hsound.update a₁.functions
        { a₁.counters with copiesFolded := a₁.counters.copiesFolded + 1 }
      have hpending := hstage.pending.turn hstage.sound hsound' ht' hatt' hu hmore
      refine ih (ht'.standsAs.mpr hi) ⟨hsound', ?_, ?_, ?_, by simp, fun _ => ?_⟩ hnodup'
        (fun t htr => ?_) hrun
      · exact hstage.steps.tail (.turn hstage.sound hi huse hval hfolds hoffers ht' hu)
      · exact (hstage.queue.turned ht').append (hsound'.copiesAround hu hmore).1
      · refine hpending.mono fun j c' q e _ s t hor => ?_
        rcases hor with ⟨(hP | ⟨rfl, rfl, hmem⟩) | hqueue, htu⟩ | hmem
        · exact Or.inl (Or.inl hP)
        · exact Or.inl (Or.inr ⟨rfl, rfl, (List.mem_cons.mp hmem).resolve_left htu⟩)
        · exact Or.inr (List.mem_append_left _ hqueue)
        · exact Or.inr (List.mem_append_right _ hmem)
      · -- The first use that is turned could be turned when the run began.
        cases hst : st.1 with
        | true => exact hstage.busy hst
        | false =>
          rw [← hstage.idle hst]
          intro hsettled
          obtain ⟨-, x, hx, -⟩ := hstage.sound.dest hi
          have hmem := hstage.sound.listed hu hatt huse hval hx
          rw [hguards] at hmem
          rcases hsettled i b p d x hi hx c u hmem with hstuck | hfalse
          · simp [hturnable] at hstuck
          · exact hfalse
      · obtain ⟨hU, hatt_t, tuse, htuse, htval, htguards⟩ := hrest t (List.mem_cons_of_mem _ htr)
        have htu : t ≠ u := fun e => hu_rest (e ▸ htr)
        obtain ⟨k, hk⟩ := ht'.use_other htu htuse
        exact ⟨hU, (hatt' t).mpr hatt_t, _, hk, htval, htguards⟩

/-- A visit settles a copy, unless it is queued again. -/
theorem visitCopy_spec
    (hi : a.StandsAs Ts i b p d)
    (hstage : Underway Ts U a a (false, queue) fun c j s t => P c j s t ∨ j = i)
    (hrun : visitCopy i p queue a = .ok st a') : Underway Ts U a a' st P := by
  have hdest : p.dest = some d := by
    obtain ⟨-, -, -, -, -, -, -, -, hdest, -⟩ := hi
    exact hdest
  simp only [visitCopy, bind_eq_ok, liftM_eq_ok, present_eq_ok, look_eq_ok, value_eq_ok] at hrun
  obtain ⟨d', _, ⟨hd', rfl⟩, x, _, ⟨hx, rfl⟩, st₁, a₁, hrun₁, x₁, _, ⟨hx₁, rfl⟩, st₂, a₂, hrun₂,
    hrun⟩ := hrun
  cases hdest.symm.trans hd'
  -- First the uses by instructions, then those as a condition.
  have hsplit : Underway Ts U a a (false, queue) fun c j s t =>
      (P c j s t ∨ j = i ∧ s = true) ∨ j = i ∧ s = false := by
    refine hstage.mono fun j c q e _ s t hor => Or.inl ?_
    rcases hor with hP | rfl
    · exact Or.inl (Or.inl hP)
    · cases s <;> simp
  have hd := (hstage.sound.dest hi).1
  obtain ⟨hstage₁, hi₁⟩ := forwardEach_spec (turns_forwardUse p) hi (hsplit.visiting hi hx)
    (hstage.sound.nodup_usesOf hd hx false) (fun u hu => hstage.sound.entry hd hx hu) hrun₁
  obtain ⟨hstage₂, hi₂⟩ := forwardEach_spec (turns_forwardExact p) hi₁ (hstage₁.visiting hi₁ hx₁)
    (hstage₁.sound.nodup_usesOf hd hx₁ true) (fun u hu => hstage₁.sound.entry hd hx₁ hu) hrun₂
  obtain ⟨x₂, _, ⟨hx₂, rfl⟩, hrun⟩ := hrun
  split at hrun
  case isFalse =>
    obtain ⟨rfl, rfl⟩ := pure_eq_ok.mp hrun
    exact hstage₂
  case isTrue hfree =>
    rw [Bool.and_eq_true] at hfree
    simp only [bind_eq_ok, look_eq_ok, instr_eq_ok, liftM_eq_ok, present_eq_ok, count_eq_ok,
      pure_eq_ok] at hrun
    obtain ⟨ins, _, ⟨hins, rfl⟩, b', _, ⟨hb', rfl⟩, _, a₃, hremove, _, _, rfl, rfl, rfl⟩ := hrun
    have hblock : b' = b := by
      obtain ⟨-, -, -, -, ins', hins', hblock, -⟩ := hi₂
      cases hins.symm.trans hins'
      rw [hb'] at hblock
      exact Option.some.inj hblock
    subst hblock
    obtain ⟨a₄, hremove', hcode, hsound, -, hatt⟩ := hstage₂.sound.take hi₂
    cases hremove.symm.trans hremove'
    have hsound' := hsound.update a₃.functions
      { a₃.counters with copiesRemoved := a₃.counters.copiesRemoved + 1 }
    have hcode' : (a₃.recount fun c => { c with copiesRemoved := c.copiesRemoved + 1 }).code
        = (a₂.without b' i).code := hcode
    refine ⟨hsound', hstage₂.steps.tail (.take hstage₂.sound hi₂ hx₂ hfree.2 hcode'),
      hstage₂.queue.lose (.of_without hcode'),
      hstage₂.pending.lose hstage₂.sound hsound' (.of_without hcode') hatt, ?_,
      hstage₂.busy⟩
    simp [hfree.1]

/-! ### Blocks and the queue -/

/-- A visit of an instruction of a block, which does nothing if it is not a copy. -/
theorem visitInstr_spec (hT : T ∈ Ts) (hres : a.Resident T i)
    (hstage : Underway Ts U a₀ a st fun c j s t => P c j s t ∨ c = b ∧ j = i)
    (hrun : visitInstr b st i a = .ok st' a') :
    Underway Ts U a₀ a' st' P ∧ Forwards Ts U a a' := by
  simp only [visitInstr, bind_eq_ok, look_eq_ok, instr_eq_ok] at hrun
  obtain ⟨ins, _, ⟨hins, rfl⟩, hrun⟩ := hrun
  -- Nothing happens if the instruction does not stand as a copy in the block.
  have hskip (hnot : ∀ p d, ¬ a.StandsAs Ts i b p d) : Underway Ts U a₀ a st P :=
    hstage.mono fun j c p d hj s t hor => Or.inl (hor.resolve_right fun h =>
      hnot p d (h.1 ▸ h.2 ▸ hj))
  have hstands {q : Alu} {d : ValueId} (h : a.StandsAs Ts i b q d) :
      ins.block = some b ∧ ins.alu? = some q ∧ a.isCopy q = .ok true := by
    obtain ⟨-, -, -, -, ins', hins', hblock, hact, -, hcopy⟩ := h
    cases hins.symm.trans hins'
    exact ⟨hblock, by simp [Instr.alu?, hact], hcopy⟩
  split at hrun
  case isFalse hblock =>
    obtain ⟨rfl, rfl⟩ := pure_eq_ok.mp hrun
    exact ⟨hskip fun q d h => hblock (hstands h).1, .refl⟩
  case isTrue hblock =>
    cases halu : ins.alu? with
    | none =>
      simp only [halu, pure_eq_ok] at hrun
      obtain ⟨rfl, rfl⟩ := hrun
      exact ⟨hskip fun q d h => by simp [(hstands h).2.1] at halu, .refl⟩
    | some p =>
      simp only [halu, bind_eq_ok, look_eq_ok] at hrun
      obtain ⟨r, _, ⟨hr, rfl⟩, hrun⟩ := hrun
      cases r with
      | false =>
        obtain ⟨rfl, rfl⟩ := pure_eq_ok.mp hrun
        refine ⟨hskip fun q d h => ?_, .refl⟩
        obtain ⟨-, hq, hcopy⟩ := hstands h
        cases halu.symm.trans hq
        simp [hr] at hcopy
      | true =>
        simp only [if_true, bind_eq_ok, pure_eq_ok] at hrun
        obtain ⟨⟨moved, queue⟩, _, hvisit, rfl, rfl⟩ := hrun
        obtain ⟨d, hd⟩ := hstage.sound.standsAs_of_resident hT hres hins hblock halu hr
        have hlocal : Underway Ts U a a (false, st.2) fun c j s t => P c j s t ∨ j = i :=
          ⟨hstage.sound, .refl, hstage.queue, hstage.pending.mono fun j c q e _ s t hor =>
            hor.imp (Or.imp id fun h => h.2) id, fun _ => rfl, by simp⟩
        have hvisited := visitCopy_spec hd hlocal hvisit
        exact ⟨hstage.trans hvisited, hvisited.steps⟩

/-- A visit of a whole block leaves only what is queued or elsewhere. -/
theorem visitBlock_spec (hT : T ∈ Ts) (hb : b ∈ T.blocks)
    (hstage : Underway Ts U a₀ a st fun c j s t => P c j s t ∨ c = b)
    (hrun : visitBlock st b a = .ok st' a') : Underway Ts U a₀ a' st' P := by
  simp only [visitBlock, bind_eq_ok, look_eq_ok, block_eq_ok] at hrun
  obtain ⟨bb, _, ⟨hbb, rfl⟩, hrun⟩ := hrun
  have hlist (l : List InstrId) {a : Arena} {st : Bool × List InstrId}
      (hres : ∀ i ∈ l, a.Resident T i)
      (hstage : Underway Ts U a₀ a st fun c j s t => P c j s t ∨ c = b ∧ j ∈ l)
      (hrun : l.foldlM (visitInstr b) st a = .ok st' a') : Underway Ts U a₀ a' st' P := by
    induction l generalizing a st with
    | nil =>
      obtain ⟨rfl, rfl⟩ := pure_eq_ok.mp hrun
      exact hstage.mono fun j c q e _ s t hor => Or.inl (hor.elim id (by simp))
    | cons i l ih =>
      rw [List.foldlM_cons, bind_eq_ok] at hrun
      obtain ⟨st₁, a₁, hvisit, hrun⟩ := hrun
      obtain ⟨hstage₁, hsteps⟩ := visitInstr_spec hT (hres i List.mem_cons_self)
        (P := fun c j s t => P c j s t ∨ c = b ∧ j ∈ l) (b := b) (hstage.mono fun j c q e _ s t hor =>
          Or.inl (by
            rcases hor with hP | ⟨hc, hj⟩
            · exact Or.inl (Or.inl hP)
            · rcases List.mem_cons.mp hj with rfl | hj
              · exact Or.inr ⟨hc, rfl⟩
              · exact Or.inl (Or.inr ⟨hc, hj⟩))) hvisit
      exact ih (fun j hj => hsteps.resident (hres j (List.mem_cons_of_mem _ hj))) hstage₁ hrun
  have hbody := body_of_block hbb
  refine hlist bb.instrs (fun i hi => ?_) (hstage.mono fun j c p d hj s t hor => Or.inl ?_) hrun
  · obtain ⟨ins, hins⟩ := (hstage.sound.wired T hT).instr b hb i (hbody ▸ hi)
    have hplace := (hstage.sound.homed T hT).place b hb i (hbody ▸ hi) ins hins
    refine ⟨ins, hins, fun c hc => ?_⟩
    cases hplace.symm.trans hc
    exact ⟨hb, hbody ▸ hi⟩
  · refine hor.imp id fun hc => ⟨hc, ?_⟩
    obtain ⟨-, -, -, hmem, -⟩ := hj
    rw [← hbody, ← hc]
    exact hmem

/-- Visiting queued copies until there are none. -/
theorem drainQueue_spec {steps : Nat} {moved : Bool}
    (hstage : Underway Ts U a₀ a (progress, queue) P)
    (hrun : drainQueue steps queue progress a = .ok moved a') :
    Underway Ts U a₀ a' (moved, []) P := by
  induction steps generalizing a queue progress with
  | zero =>
    cases queue with
    | nil =>
      obtain ⟨rfl, rfl⟩ := pure_eq_ok.mp hrun
      exact hstage
    | cons i queue => simp [drainQueue] at hrun
  | succ steps ih =>
    cases queue with
    | nil =>
      obtain ⟨rfl, rfl⟩ := pure_eq_ok.mp hrun
      exact hstage
    | cons i queue =>
      simp only [drainQueue, bind_eq_ok, look_eq_ok, instr_eq_ok] at hrun
      obtain ⟨ins, _, ⟨hins, rfl⟩, hrun⟩ := hrun
      obtain ⟨⟨T, hT, hres⟩, hcopy⟩ := hstage.queue i List.mem_cons_self
      have hqueue : a.QueueFits Ts queue := fun j hj => hstage.queue j (List.mem_cons_of_mem _ hj)
      -- An entry that does not stand as a copy any more is passed over.
      have hskip (hnot : ∀ b p d, ¬ a.StandsAs Ts i b p d) :
          Underway Ts U a₀ a (progress, queue) P := by
        refine ⟨hstage.sound, hstage.steps, hqueue, ?_, hstage.idle, hstage.busy⟩
        refine hstage.pending.mono fun j c q e hj s t hor => hor.imp id fun hmem => ?_
        exact (List.mem_cons.mp hmem).resolve_left fun hji => hnot c q e (hji ▸ hj)
      have hstands {c : BlockId} {q : Alu} {d : ValueId} (h : a.StandsAs Ts i c q d) :
          ins.block = some c ∧ ins.alu? = some q := by
        obtain ⟨-, -, -, -, ins', hins', hblock, hact, -⟩ := h
        cases hins.symm.trans hins'
        exact ⟨hblock, by simp [Instr.alu?, hact]⟩
      cases hblock : ins.block with
      | none =>
        simp only [hblock] at hrun
        exact ih (hskip fun c q d h => by simp [(hstands h).1] at hblock) hrun
      | some b =>
        cases halu : ins.alu? with
        | none =>
          simp only [hblock, halu] at hrun
          exact ih (hskip fun c q d h => by simp [(hstands h).2] at halu) hrun
        | some p =>
          simp only [hblock, halu, bind_eq_ok] at hrun
          obtain ⟨⟨moved', queue'⟩, a₁, hvisit, hrun⟩ := hrun
          obtain ⟨d, hd⟩ := hstage.sound.standsAs_of_resident hT hres hins hblock halu
            (hcopy ins p hins halu)
          have hlocal : Underway Ts U a a (false, queue) fun c j s t => P c j s t ∨ j = i := by
            refine ⟨hstage.sound, .refl, hqueue, ?_, fun _ => rfl, by simp⟩
            refine hstage.pending.mono fun j c q e _ s t hor => ?_
            rcases hor with hP | hmem
            · exact Or.inl (Or.inl hP)
            · exact (List.mem_cons.mp hmem).elim (fun h => Or.inl (Or.inr h)) Or.inr
          exact ih (hstage.trans (visitCopy_spec hd hlocal hvisit)) hrun

theorem preserve_eq_ok {kept : Analyses} {y : Unit} :
    preserve f kept a = .ok y a' ↔ a.modifyFunction f (fun g => { g with
      valid := g.valid.inter kept
      dominance := if (g.valid.inter kept).dominance then g.dominance else none }) = a' :=
  setFunction_eq_ok

theorem forwardCopies_eq_within (f : FunctionId) :
    forwardCopies f = forwardCopiesWithin queueBound f :=
  rfl

/-- A run on a function of one of the scopes: it is a sequence of steps, leaves all uses of its
copies stuck, and brings nothing back elsewhere. Without progress only analyses are touched, and
progress means that a use could be turned. -/
theorem forwardCopiesWithin_spec {bound : Arena → Nat} (hT : T ∈ Ts)
    (hblocks : a.blocksOf f = .ok T.blocks) (hs : a.Sound Ts U)
    (hpending : a.Pending Ts fun b _ _ _ => Q b ∨ b ∈ T.blocks)
    (hrun : forwardCopiesWithin bound f a = .ok progress a') :
    a'.Sound Ts U ∧ Forwards Ts U a a' ∧ (a'.Pending Ts fun b _ _ _ => Q b)
      ∧ (progress = false → preserve f .all a = .ok () a')
      ∧ (progress = true → ¬ a.Settled Ts) := by
  simp only [forwardCopiesWithin, bind_eq_ok, look_eq_ok, get_eq_ok] at hrun
  obtain ⟨blocks, _, ⟨hblocks', rfl⟩, ⟨progress₁, queue⟩, a₁, hvisits, _, _, ⟨rfl, rfl⟩, progress₂,
    a₂, hdrain, _, a₃, hpreserve, hpure⟩ := hrun
  obtain ⟨rfl, rfl⟩ := pure_eq_ok.mp hpure
  cases hblocks.symm.trans hblocks'
  -- Blocks are visited in program order; those that are left are pending.
  have hlist (l : List BlockId) (hl : ∀ b ∈ l, b ∈ T.blocks) {a₀ : Arena}
      {st : Bool × List InstrId}
      (hstage : Underway Ts U a a₀ st fun b _ _ _ => Q b ∨ b ∈ l)
      (hrun : l.foldlM visitBlock st a₀ = .ok (progress₁, queue) a₁) :
      Underway Ts U a a₁ (progress₁, queue) fun b _ _ _ => Q b := by
    induction l generalizing a₀ st with
    | nil =>
      obtain ⟨rfl, rfl⟩ := pure_eq_ok.mp hrun
      exact hstage.mono fun j c q e _ s t hor => Or.inl (hor.elim id (by simp))
    | cons b l ih =>
      rw [List.foldlM_cons, bind_eq_ok] at hrun
      obtain ⟨st₁, a₃, hvisit, hrun⟩ := hrun
      refine ih (fun c hc => hl c (List.mem_cons_of_mem _ hc)) ?_ hrun
      refine visitBlock_spec hT (hl b List.mem_cons_self) (hstage.mono ?_) hvisit
      intro j c q e _ s t hor
      rcases hor with hQ | hmem
      · exact Or.inl (Or.inl (Or.inl hQ))
      · exact Or.inl ((List.mem_cons.mp hmem).elim Or.inr fun h => Or.inl (Or.inr h))
  have hstart : Underway Ts U a a (false, []) fun b _ _ _ => Q b ∨ b ∈ T.blocks :=
    ⟨hs, .refl, by simp [QueueFits], hpending.mono fun _ _ _ _ _ _ _ h => Or.inl h, fun _ => rfl,
      by simp⟩
  have hend := drainQueue_spec (hlist T.blocks (fun _ h => h) hstart hvisits) hdrain
  have hmodify := preserve_eq_ok.mp hpreserve
  have hcode : a₃.code = a₂.code := by
    rw [← hmodify]
    exact code_modifyFunction_of_bare fun _ => rfl
  have hvalues : a₃.values = a₂.values := by rw [← hmodify, modifyFunction_values]
  refine ⟨?_, hend.steps.tail (.same hcode), ?_, fun h => ?_, hend.busy⟩
  · rw [← hmodify]
    exact hend.sound.update _ a₂.counters
  · exact (hend.pending.congr hcode hvalues).mono fun _ _ _ _ _ _ _ h => h.elim id (by simp)
  · subst h
    rw [← hend.idle rfl]
    exact hpreserve

theorem forwardCopies_spec (hT : T ∈ Ts)
    (hblocks : a.blocksOf f = .ok T.blocks) (hs : a.Sound Ts U)
    (hpending : a.Pending Ts fun b _ _ _ => Q b ∨ b ∈ T.blocks)
    (hrun : forwardCopies f a = .ok progress a') :
    a'.Sound Ts U ∧ Forwards Ts U a a' ∧ (a'.Pending Ts fun b _ _ _ => Q b)
      ∧ (progress = false → preserve f .all a = .ok () a')
      ∧ (progress = true → ¬ a.Settled Ts) :=
  forwardCopiesWithin_spec hT hblocks hs hpending hrun

end Edit

end ShaderCompiler
