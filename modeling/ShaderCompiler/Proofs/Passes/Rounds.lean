import ShaderCompiler.Pass.Rounds
import ShaderCompiler.Proofs.Code

/-!
# Rounds of passes

A pass runs on the functions of a shader that have a body, one after the other, and the passes run
in rounds. What every change of a function keeps is kept by all of this.
-/

namespace ShaderCompiler

variable {d : Declaration} {I : List FunctionId → Bool → Arena → Prop} {r : Bool} {P : Arena → Prop}
  {round : Nat} {log : List PassRun} {limit : Int}

variable {a a' : Arena} {s : Shader} {f : FunctionId}

namespace Arena

/-- How the shader sees a function. -/
def declaration? (a : Arena) (f : FunctionId) : Option Declaration :=
  (a.functions[f.idx]?).bind (·.declaration)

/-- The function is declared with a body. -/
def hasBody (a : Arena) (f : FunctionId) : Bool :=
  (a.declaration? f).any (·.hasBody)

/-- The functions of a shader that have a body. -/
def bodies (a : Arena) (s : Shader) : List FunctionId :=
  s.functions.filter a.hasBody

theorem declaration?_congr (h : a'.code.functions = a.code.functions) (f : FunctionId) :
    a'.declaration? f = a.declaration? f := by
  have hbare (a : Arena) : a.declaration? f = (a.code.functions[f.idx]?).bind (·.declaration) := by
    rw [declaration?, code_functions]
    cases a.functions[f.idx]? <;> rfl
  rw [hbare, hbare, h]

theorem hasBody_congr (h : a'.code.functions = a.code.functions) : a'.hasBody = a.hasBody := by
  funext f
  rw [hasBody, hasBody, declaration?_congr h]

theorem mem_bodies (hf : f ∈ s.functions) (hd : a.declaration? f = some d)
    (hbody : d.hasBody = true) : f ∈ a.bodies s :=
  List.mem_filter.mpr ⟨hf, by simp [hasBody, hd, hbody]⟩

end Arena

namespace Edit

theorem declarationOf_eq_ok :
    declarationOf f a = .ok d a' ↔ a.declaration? f = some d ∧ a' = a := by
  simp only [declarationOf, bind_eq_ok, look_eq_ok, Arena.function_eq_ok, liftM_eq_ok, present_eq_ok,
    Arena.declaration?, Option.bind_eq_some_iff]
  constructor
  · rintro ⟨g, _, ⟨hg, rfl⟩, hd, rfl⟩
    exact ⟨⟨g, hg, hd⟩, rfl⟩
  · rintro ⟨⟨g, hg, hd⟩, rfl⟩
    exact ⟨g, a', ⟨hg, rfl⟩, hd, rfl⟩

/-! ### One pass -/

section Bodies

variable {change : FunctionId → Edit Bool}

/-- An invariant of the functions that are left, of the progress so far and of the arena holds of
no functions in the end. -/
theorem forEachBody_run
    (hskip : ∀ f rest progress a d, I (f :: rest) progress a → a.declaration? f = some d →
      d.hasBody = false → I rest progress a)
    (hstep : ∀ f rest progress a d r a', I (f :: rest) progress a → a.declaration? f = some d →
      d.hasBody = true → change f a = .ok r a' → I rest (r || progress) a')
    (hstart : I s.functions false a) (hrun : forEachBody s change a = .ok r a') :
    I [] r a' := by
  unfold forEachBody at hrun
  generalize s.functions = l at hstart hrun
  generalize false = progress at hstart hrun
  induction l generalizing progress a with
  | nil =>
    obtain ⟨rfl, rfl⟩ := pure_eq_ok.mp hrun
    exact hstart
  | cons f rest ih =>
    rw [List.foldlM_cons, bind_eq_ok] at hrun
    obtain ⟨p, a₁, hfirst, hrun⟩ := hrun
    obtain ⟨d, _, hdecl, hone⟩ := bind_eq_ok.mp hfirst
    obtain ⟨hd, rfl⟩ := declarationOf_eq_ok.mp hdecl
    cases hbody : d.hasBody with
    | false =>
      rw [if_neg (by simp [hbody])] at hone
      obtain ⟨rfl, rfl⟩ := pure_eq_ok.mp hone
      exact ih _ (hskip f rest _ _ d hstart hd hbody) hrun
    | true =>
      rw [if_pos hbody] at hone
      obtain ⟨r, _, hchange, hpure⟩ := bind_eq_ok.mp hone
      obtain ⟨rfl, rfl⟩ := pure_eq_ok.mp hpure
      exact ih _ (hstep f rest _ _ d r _ hstart hd hbody hchange) hrun

/-- Changes that go well one by one go well one after the other. -/
theorem exists_forEachBody
    (hdecl : ∀ f rest progress a, I (f :: rest) progress a → ∃ d, a.declaration? f = some d)
    (hskip : ∀ f rest progress a d, I (f :: rest) progress a → a.declaration? f = some d →
      d.hasBody = false → I rest progress a)
    (hstep : ∀ f rest progress a d, I (f :: rest) progress a → a.declaration? f = some d →
      d.hasBody = true → ∃ r a', change f a = .ok r a' ∧ I rest (r || progress) a')
    (hstart : I s.functions false a) : ∃ r a', forEachBody s change a = .ok r a' ∧ I [] r a' := by
  unfold forEachBody
  generalize s.functions = l at hstart
  generalize false = progress at hstart
  induction l generalizing progress a with
  | nil => exact ⟨progress, a, rfl, hstart⟩
  | cons f rest ih =>
    obtain ⟨d, hd⟩ := hdecl f rest progress a hstart
    have hlook : declarationOf f a = .ok d a := declarationOf_eq_ok.mpr ⟨hd, rfl⟩
    rw [List.foldlM_cons]
    cases hbody : d.hasBody with
    | false =>
      obtain ⟨r, a', hrun, hend⟩ := ih progress (hskip f rest progress a d hstart hd hbody)
      refine ⟨r, a', bind_eq_ok.mpr ⟨progress, a, ?_, hrun⟩, hend⟩
      rw [bind_of_ok hlook, if_neg (by simp [hbody])]
      rfl
    | true =>
      obtain ⟨r₁, a₁, hchange, hnext⟩ := hstep f rest progress a d hstart hd hbody
      obtain ⟨r, a', hrun, hend⟩ := ih (r₁ || progress) hnext
      refine ⟨r, a', bind_eq_ok.mpr ⟨r₁ || progress, a₁, ?_, hrun⟩, hend⟩
      rw [bind_of_ok hlook, if_pos hbody, bind_of_ok hchange]
      rfl

/-- What the change of every function keeps is kept. -/
theorem forEachBody_keeps
    (hstep : ∀ f ∈ s.functions, ∀ a d r a', P a → a.declaration? f = some d → d.hasBody = true →
      change f a = .ok r a' → P a')
    (hP : P a) (hrun : forEachBody s change a = .ok r a') : P a' := by
  refine (forEachBody_run (I := fun rest _ a => (∀ f ∈ rest, f ∈ s.functions) ∧ P a) ?_ ?_
    ⟨fun _ hf => hf, hP⟩ hrun).2
  · exact fun f rest _ a d ⟨hrest, hP⟩ _ _ => ⟨fun e he => hrest e (List.mem_cons_of_mem _ he), hP⟩
  · exact fun f rest _ a d r a' ⟨hrest, hP⟩ hd hbody hchange =>
      ⟨fun e he => hrest e (List.mem_cons_of_mem _ he),
        hstep f (hrest f List.mem_cons_self) a d r a' hP hd hbody hchange⟩

end Bodies

/-! ### Rounds -/

theorem passRound_eq_ok :
    passRound s round a = .ok log a' ↔ ∃ p q a₁, Pass.forwardCopies.run s a = .ok p a₁
      ∧ Pass.removeDead.run s a₁ = .ok q a'
      ∧ log = [⟨round, .forwardCopies, p⟩, ⟨round, .removeDead, q⟩] := by
  simp only [passRound, Pass.all, List.mapM_cons, List.mapM_nil, bind_eq_ok, pure_eq_ok]
  constructor
  · rintro ⟨_, _, ⟨p, a₁, hp, rfl, rfl⟩, _, _, ⟨_, _, ⟨q, _, hq, rfl, rfl⟩, _, _, ⟨rfl, rfl⟩, rfl, rfl⟩,
      rfl, rfl⟩
    exact ⟨p, q, _, hp, hq, rfl⟩
  · rintro ⟨p, q, a₁, hp, hq, rfl⟩
    exact ⟨_, a₁, ⟨p, a₁, hp, rfl, rfl⟩, _, a', ⟨_, a', ⟨q, a', hq, rfl, rfl⟩, _, a', ⟨rfl, rfl⟩, rfl,
      rfl⟩, rfl, rfl⟩

end Edit

end ShaderCompiler
