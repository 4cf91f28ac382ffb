import ShaderCompiler.Proofs.Passes.AtRest
import ShaderCompiler.Proofs.Passes.Compile

/-!
# Rounds settle

One round of passes leaves functions at rest: forwarding leaves all uses of copies stuck, removing
dead code keeps them stuck and leaves functions clear of it. So a further round, if there is one,
reports no progress and changes nothing, and the limit of rounds does not matter.
-/

namespace ShaderCompiler

variable {p : Bool}

namespace Arena

variable {a₀ a₁ a a' : Arena} {s : Shader} {fs : List FunctionId} {f : FunctionId}

/-- Passes find nothing to do on functions that were ready in `a₀`. -/
structure AtRest (a₀ a : Arena) (fs : List FunctionId) : Prop where
  maintained : Maintained a₀ a fs
  settled : a.Settled (fs.map a₀.scopeOf)
  finished : ∀ f ∈ fs, a.Finished f

/-- Passes in any order report no progress, and change nothing but verdicts and counters. -/
def Idle (a : Arena) (s : Shader) : Prop :=
  ∀ passes : List Pass, ∃ a', passes.mapM (Pass.run s) a = .ok (passes.map fun _ => false) a'
    ∧ a'.unmarked = a.unmarked

/-! ### Passes on functions at rest -/

theorem AtRest.sweep (h : AtRest a₀ a fs) (h₀ : a₀.Ready fs) (hf : f ∈ fs) :
    ∃ a', Edit.removeDead f false a = .ok false a' ∧ AtRest a₀ a' fs ∧ a'.unmarked = a.unmarked := by
  obtain ⟨progress, a', hrun, hm, hset, hfinished, -⟩ := h.maintained.sweep h₀ hf
  obtain ⟨a'', hrun', hsame⟩ := (h.finished f hf).1
  cases hrun.symm.trans hrun'
  exact ⟨a', hrun, ⟨hm, hset h.settled, fun e he => hfinished e he fun _ => h.finished e he⟩, hsame⟩

theorem Maintained.mem_bodies (h : Maintained a₀ a (a₀.bodies s)) (hf : f ∈ s.functions)
    {d : Declaration} (hd : a.declaration? f = some d) : f ∈ a₀.bodies s ↔ d.hasBody = true := by
  rw [declaration?_congr h.functions] at hd
  simp [bodies, hf, hasBody, hd]

/-- A pass changes nothing if functions are at rest. -/
theorem AtRest.run (h : AtRest a₀ a (a₀.bodies s)) (h₀ : a₀.Ready (a₀.bodies s))
    (hdecl : ∀ f ∈ s.functions, ∃ d, a₀.declaration? f = some d) (p : Pass) :
    ∃ a', p.run s a = .ok false a' ∧ AtRest a₀ a' (a₀.bodies s) ∧ a'.unmarked = a.unmarked := by
  have hbodies {change : FunctionId → Edit Bool}
      (hstep : ∀ a f, AtRest a₀ a (a₀.bodies s) → f ∈ a₀.bodies s → ∃ a', change f a = .ok false a'
        ∧ AtRest a₀ a' (a₀.bodies s) ∧ a'.unmarked = a.unmarked) :
      ∃ a', Edit.forEachBody s change a = .ok false a' ∧ AtRest a₀ a' (a₀.bodies s)
        ∧ a'.unmarked = a.unmarked := by
    obtain ⟨r, a', hrun, -, rfl, hrest⟩ : ∃ r a', Edit.forEachBody s change a = .ok r a'
        ∧ [] ⊆ s.functions ∧ r = false ∧ AtRest a₀ a' (a₀.bodies s) ∧ a'.unmarked = a.unmarked := by
      refine Edit.exists_forEachBody (I := fun rest progress a' => rest ⊆ s.functions
        ∧ progress = false ∧ AtRest a₀ a' (a₀.bodies s) ∧ a'.unmarked = a.unmarked) ?_ ?_ ?_
        ⟨List.Subset.refl _, rfl, h, rfl⟩
      · rintro f rest _ a' ⟨hrest, -, hat, -⟩
        obtain ⟨d, hd⟩ := hdecl f (hrest List.mem_cons_self)
        exact ⟨d, (declaration?_congr hat.maintained.functions f).trans hd⟩
      · rintro f rest _ a' d ⟨hrest, hkept⟩ - -
        exact ⟨fun e he => hrest (List.mem_cons_of_mem _ he), hkept⟩
      · rintro f rest _ a' d ⟨hrest, rfl, hat, hmarks⟩ hd hbody
        have hf := (hat.maintained.mem_bodies (hrest List.mem_cons_self) hd).mpr hbody
        obtain ⟨a'', hchange, hat', hmarks'⟩ := hstep a' f hat hf
        exact ⟨false, a'', hchange, fun e he => hrest (List.mem_cons_of_mem _ he), rfl, hat',
          hmarks'.trans hmarks⟩
    exact ⟨a', hrun, hrest⟩
  cases p with
  | forwardCopies =>
    exact hbodies fun a f hat hf => ⟨a, hat.maintained.forward_idle h₀ hf hat.settled
      (hat.finished f hf).2, hat, rfl⟩
  | removeDead => exact hbodies fun a f hat hf => hat.sweep h₀ hf

theorem AtRest.idle (h : AtRest a₀ a (a₀.bodies s)) (h₀ : a₀.Ready (a₀.bodies s))
    (hdecl : ∀ f ∈ s.functions, ∃ d, a₀.declaration? f = some d) : a.Idle s := by
  intro passes
  induction passes generalizing a with
  | nil => exact ⟨a, rfl, rfl⟩
  | cons p passes ih =>
    obtain ⟨a₁, hp, hat, hmarks⟩ := h.run h₀ hdecl p
    obtain ⟨a₂, hps, hmarks'⟩ := ih hat
    refine ⟨a₂, ?_, hmarks'.trans hmarks⟩
    rw [List.mapM_cons, Edit.bind_of_ok hp, Edit.bind_of_ok hps]
    rfl

/-! ### The first round -/

/-- How far forwarding has come when the functions `rest` are left. -/
structure ForwardStage (a₀ : Arena) (s : Shader) (rest : List FunctionId) (progress : Bool)
    (a : Arena) : Prop where
  within : rest ⊆ s.functions
  declared : ∀ f ∈ s.functions, f ∈ rest ∨ ∃ d, a₀.declaration? f = some d
  maintained : Maintained a₀ a (a₀.bodies s)
  pending : a.Pending ((a₀.bodies s).map a₀.scopeOf)
    fun b _ _ _ => ∃ f ∈ rest, f ∈ a₀.bodies s ∧ b ∈ (a₀.scopeOf f).blocks
  idle : progress = false → a.code = a₀.code ∧ a.values = a₀.values
  moved : progress = true → ¬ a₀.Settled ((a₀.bodies s).map a₀.scopeOf)

/-- How far removing dead code has come when the functions `rest` are left. -/
structure ClearStage (a₀ a₁ : Arena) (s : Shader) (rest : List FunctionId) (progress : Bool)
    (a : Arena) : Prop where
  within : rest ⊆ s.functions
  maintained : Maintained a₀ a (a₀.bodies s)
  settled : a.Settled ((a₀.bodies s).map a₀.scopeOf)
  finished : ∀ f ∈ a₀.bodies s, f ∈ rest ∨ a.Finished f
  idle : progress = false → a.code = a₁.code
  taken : progress = true → ∃ f ∈ a₀.bodies s, ∃ b ∈ (a₀.scopeOf f).blocks,
    (a.body b).length < (a₀.body b).length

section Steps

variable {rest : List FunctionId} {progress r : Bool} {d : Declaration}

theorem ForwardStage.declare (h : ForwardStage a₀ s (f :: rest) progress a)
    (hd : a.declaration? f = some d) :
    ∀ e ∈ s.functions, e ∈ rest ∨ ∃ d, a₀.declaration? e = some d := by
  intro e he
  rcases h.declared e he with hmem | hdecl
  · rcases List.mem_cons.mp hmem with rfl | hmem
    · exact .inr ⟨d, (declaration?_congr h.maintained.functions e).symm.trans hd⟩
    · exact .inl hmem
  · exact .inr hdecl

theorem ForwardStage.skip (h : ForwardStage a₀ s (f :: rest) progress a)
    (hd : a.declaration? f = some d) (hbody : d.hasBody = false) :
    ForwardStage a₀ s rest progress a := by
  have hf : f ∉ a₀.bodies s := by
    rw [h.maintained.mem_bodies (h.within List.mem_cons_self) hd, hbody]
    exact Bool.false_ne_true
  refine ⟨fun e he => h.within (List.mem_cons_of_mem _ he), h.declare hd, h.maintained, ?_, h.idle,
    h.moved⟩
  refine h.pending.mono fun i b p d _ c u hp => ?_
  obtain ⟨e, he, hmem, hb⟩ := hp
  rcases List.mem_cons.mp he with rfl | he
  · exact absurd hmem hf
  · exact ⟨e, he, hmem, hb⟩

theorem ForwardStage.step (h : ForwardStage a₀ s (f :: rest) progress a)
    (h₀ : a₀.Ready (a₀.bodies s)) (hd : a.declaration? f = some d) (hbody : d.hasBody = true)
    (hrun : Edit.forwardCopies f a = .ok r a') : ForwardStage a₀ s rest (r || progress) a' := by
  have hf := (h.maintained.mem_bodies (h.within List.mem_cons_self) hd).mpr hbody
  have hpending : a.Pending ((a₀.bodies s).map a₀.scopeOf) fun b _ _ _ =>
      (∃ e ∈ rest, e ∈ a₀.bodies s ∧ b ∈ (a₀.scopeOf e).blocks) ∨ b ∈ (a₀.scopeOf f).blocks := by
    refine h.pending.mono fun i b p d _ c u hp => ?_
    obtain ⟨e, he, hmem, hb⟩ := hp
    rcases List.mem_cons.mp he with rfl | he
    · exact .inr hb
    · exact .inl ⟨e, he, hmem, hb⟩
  obtain ⟨hm, hpending', hidle, hmoved⟩ := h.maintained.forward h₀ hf hpending hrun
  refine ⟨fun e he => h.within (List.mem_cons_of_mem _ he), h.declare hd, hm, hpending',
    fun hnone => ?_, fun hsome => ?_⟩
  · obtain ⟨rfl, rfl⟩ := Bool.or_eq_false_iff.mp hnone
    obtain ⟨hcode, hvalues⟩ := hidle rfl
    exact ⟨hcode.trans (h.idle rfl).1, hvalues.trans (h.idle rfl).2⟩
  · cases progress with
    | true => exact h.moved rfl
    | false =>
      obtain ⟨hcode, hvalues⟩ := h.idle rfl
      exact fun hset => hmoved (by simpa using hsome) (Pending.congr hset hcode hvalues)

theorem ClearStage.skip (h : ClearStage a₀ a₁ s (f :: rest) progress a)
    (hd : a.declaration? f = some d) (hbody : d.hasBody = false) :
    ClearStage a₀ a₁ s rest progress a := by
  refine ⟨fun e he => h.within (List.mem_cons_of_mem _ he), h.maintained, h.settled, fun e he => ?_,
    h.idle, h.taken⟩
  refine (h.finished e he).imp_left fun hmem => ?_
  rcases List.mem_cons.mp hmem with rfl | hmem
  · rw [h.maintained.mem_bodies (h.within List.mem_cons_self) hd, hbody] at he
    exact absurd he Bool.false_ne_true
  · exact hmem

theorem ClearStage.step (h : ClearStage a₀ a₁ s (f :: rest) progress a) (h₀ : a₀.Ready (a₀.bodies s))
    (hd : a.declaration? f = some d) (hbody : d.hasBody = true) :
    ∃ r a', Edit.removeDead f false a = .ok r a' ∧ ClearStage a₀ a₁ s rest (r || progress) a' := by
  have hf := (h.maintained.mem_bodies (h.within List.mem_cons_self) hd).mpr hbody
  obtain ⟨r, a', hrun, hm, hset, hfinished, hsub, htaken, hcode⟩ := h.maintained.sweep h₀ hf
  refine ⟨r, a', hrun, fun e he => h.within (List.mem_cons_of_mem _ he), hm, hset h.settled,
    fun e he => ?_, fun hnone => ?_, fun hsome => ?_⟩
  · by_cases hmem : e ∈ rest
    · exact .inl hmem
    · refine .inr (hfinished e he fun hne => (h.finished e he).resolve_left ?_)
      simp [hne, hmem]
  · obtain ⟨rfl, rfl⟩ := Bool.or_eq_false_iff.mp hnone
    exact (hcode rfl).trans (h.idle rfl)
  · cases progress with
    | true =>
      obtain ⟨e, he, b, hb, hlt⟩ := h.taken rfl
      exact ⟨e, he, b, hb, (hsub b).length_le.trans_lt hlt⟩
    | false =>
      obtain ⟨b, hb, hne⟩ := htaken (by simpa using hsome)
      obtain ⟨bb, hbb⟩ := (h₀.maintained.sound.wired _ (List.mem_map_of_mem hf)).block b hb
      have hle := ((h.maintained.evolves f hf).body_sublist hbb).length_le
      have hlt : (a'.body b).length < (a.body b).length :=
        lt_of_le_of_ne (hsub b).length_le fun heq => hne ((hsub b).eq_of_length heq)
      exact ⟨f, hf, b, hb, hlt.trans_le hle⟩

end Steps

/-- Forwarding copies through the whole shader leaves all uses of copies stuck. -/
theorem Ready.forwardPass (h₀ : a₀.Ready (a₀.bodies s)) {progress : Bool}
    (hrun : Pass.forwardCopies.run s a₀ = .ok progress a) : ForwardStage a₀ s [] progress a := by
  refine Edit.forEachBody_run (I := ForwardStage a₀ s) (fun f rest progress a d h hd hbody =>
    h.skip hd hbody) (fun f rest progress a d r a' h hd hbody hstep => h.step h₀ hd hbody hstep) ?_ hrun
  refine ⟨List.Subset.refl _, fun _ hf => .inl hf, h₀.maintained, ?_, fun _ => ⟨rfl, rfl⟩, nofun⟩
  intro i b p d x hi hx c u hu
  obtain ⟨T, hT, hb, -⟩ := hi
  obtain ⟨f, hf, rfl⟩ := List.mem_map.mp hT
  exact .inr ⟨f, (List.mem_filter.mp hf).1, hf, hb⟩

/-- Removing dead code from the whole shader goes well afterwards. -/
theorem ForwardStage.exists_clearPass {progress : Bool} (h : ForwardStage a₀ s [] progress a)
    (h₀ : a₀.Ready (a₀.bodies s)) :
    ∃ r a', Pass.removeDead.run s a = .ok r a' ∧ ClearStage a₀ a s [] r a' := by
  have hset : a.Settled ((a₀.bodies s).map a₀.scopeOf) :=
    h.pending.mono fun _ _ _ _ _ _ _ hp => by simp at hp
  refine Edit.exists_forEachBody (I := ClearStage a₀ a s) (fun f rest progress a' hc => ?_)
    (fun f rest progress a' d hc hd hbody => hc.skip hd hbody)
    (fun f rest progress a' d hc hd hbody => hc.step h₀ hd hbody) ?_
  · obtain ⟨d, hd⟩ := (h.declared f (hc.within List.mem_cons_self)).resolve_left List.not_mem_nil
    exact ⟨d, (declaration?_congr hc.maintained.functions f).trans hd⟩
  · exact ⟨List.Subset.refl _, h.maintained, hset, fun f hf => .inl (List.mem_filter.mp hf).1,
      fun _ => rfl, nofun⟩

/-- A round leaves functions at rest. It reports progress exactly if something changed. -/
theorem Ready.round (h₀ : a₀.Ready (a₀.bodies s))
    (hfirst : Pass.forwardCopies.run s a₀ = .ok p a₁) :
    ∃ q a₂, Pass.removeDead.run s a₁ = .ok q a₂ ∧ AtRest a₀ a₂ (a₀.bodies s)
      ∧ ((p || q) = true ↔ ∃ f ∈ a₀.bodies s, a₀.Altered a₂ f) := by
  have hforward := h₀.forwardPass hfirst
  obtain ⟨q, a₂, hsecond, hclear⟩ := hforward.exists_clearPass h₀
  refine ⟨q, a₂, hsecond, ⟨hclear.maintained, hclear.settled, fun f hf =>
    (hclear.finished f hf).resolve_left List.not_mem_nil⟩, ?_⟩
  constructor
  · intro hprogress
    rcases Bool.or_eq_true_iff.mp hprogress with rfl | rfl
    · -- Were nothing different, then all uses of copies would have been stuck at the start.
      by_contra hnone
      exact hforward.moved rfl (hclear.maintained.settled_of_unaltered h₀
        (fun f hf hdiff => hnone ⟨f, hf, hdiff⟩) hclear.settled)
    · obtain ⟨f, hf, b, hb, hlt⟩ := hclear.taken rfl
      exact ⟨f, hf, .inl ⟨b, hb, fun heq => hlt.ne (congrArg List.length heq)⟩⟩
  · rintro ⟨f, -, hdiff⟩
    by_contra hnone
    obtain ⟨rfl, rfl⟩ := Bool.or_eq_false_iff.mp (Bool.not_eq_true _ ▸ hnone)
    have hcode : a₂.code = a₀.code := (hclear.idle rfl).trans (hforward.idle rfl).1
    rcases hdiff with ⟨b, -, hne⟩ | ⟨u, -, hne⟩
    · exact hne (congrFun (body_of_code hcode) b)
    · exact hne (congrArg (·.uses[u.idx]?) hcode)

/-- From functions at rest on, at most one more round is made, and it changes nothing. -/
theorem AtRest.roundsFrom (h : AtRest a₀ a (a₀.bodies s)) (h₀ : a₀.Ready (a₀.bodies s))
    (hdecl : ∀ f ∈ s.functions, ∃ d, a₀.declaration? f = some d) (limit : Int) (round fuel : Nat) :
    ∃ a', Edit.roundsFrom s limit round (fuel + 1) a
        = .ok (if limit ≤ 0 ∨ (round : Int) < limit then
            [⟨round, .forwardCopies, false⟩, ⟨round, .removeDead, false⟩] else []) a'
      ∧ AtRest a₀ a' (a₀.bodies s) ∧ a'.unmarked = a.unmarked := by
  rw [Edit.roundsFrom]
  split
  case isTrue =>
    obtain ⟨a₁, hforward, hat, hmarks⟩ := h.run h₀ hdecl .forwardCopies
    obtain ⟨a₂, hremove, hat', hmarks'⟩ := hat.run h₀ hdecl .removeDead
    refine ⟨a₂, ?_, hat', hmarks'.trans hmarks⟩
    rw [Edit.bind_of_ok (Edit.passRound_eq_ok.mpr ⟨_, _, _, hforward, hremove, rfl⟩)]
    rfl
  case isFalse => exact ⟨a, rfl, h, rfl⟩

end Arena

end ShaderCompiler
