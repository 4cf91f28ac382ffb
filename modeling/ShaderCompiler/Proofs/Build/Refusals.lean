import ShaderCompiler.Proofs.Build.Session

/-!
# Refused calls

A builder refuses a call that does not fit: one with another number of sources than the operation
takes, with a number of lanes that no value has, or one that continues, closes or leaves open what it
must not. It does so before it changes anything, so a client that recovers from the fault can go on
as if there had been no such call.

One call is too late: an intrinsic links its sources before it looks at the number of lanes of its
result, and once that is refused the sources stay listed as uses of an instruction in no block.
-/

namespace ShaderCompiler

variable {a a' : Arena} {e : Fault}

/-- All values have as many lanes as a value may have. -/
def Arena.Laned (a : Arena) : Prop :=
  ∀ (k : Nat) (x : Value), a.values[k]? = some x → 1 ≤ x.comps ∧ x.comps ≤ maxLanes

namespace Edit

variable {α β : Type} {p : Prop} {R S : Arena → Arena → Prop}

/-- A computation leaves values with as many lanes as a value may have. If it is refused, a relation
holds between the arenas before and after it. -/
def RefusedWith (R : Arena → Arena → Prop) (x : Edit α) : Prop :=
  ∀ a : Arena, a.Laned → match x a with
    | .ok _ a' => a'.Laned
    | .error e a' => a'.Laned ∧ (e.isRefusal = true → R a a')

/-- A computation that is refused only if `p`. -/
abbrev Refusable (p : Prop) (x : Edit α) : Prop :=
  x.RefusedWith fun _ _ => p

/-! ### Putting computations together -/

theorem RefusedWith.laned {x : Edit α} (hx : x.RefusedWith R) (ha : a.Laned) :
    (x.after a).Laned := by
  have hxa := hx a ha
  rw [after]
  split <;> rename_i h <;> rw [h] at hxa
  · exact hxa
  · exact hxa.1

theorem RefusedWith.bind_of {x : Edit α} {k : α → Edit β} (hx : x.RefusedWith R)
    (hk : ∀ y, (k y).RefusedWith S) (hRS : ∀ a y a' b, x a = .ok y a' → S a' b → R a b) :
    (x >>= k).RefusedWith R := by
  intro a ha
  have hxa := hx a ha
  cases h : x a with
  | ok y a' =>
    rw [h] at hxa
    have hka := hk y a' hxa
    rw [bind_of_ok h]
    cases h' : k y a' with
    | ok z b => rwa [h'] at hka
    | error e b =>
      rw [h'] at hka
      exact ⟨hka.1, fun he => hRS a y a' b h (hka.2 he)⟩
  | error e a' =>
    rw [bind_of_error h]
    rwa [h] at hxa

theorem Refusable.bind {x : Edit α} {k : α → Edit β} (hx : x.Refusable p)
    (hk : ∀ y, (k y).Refusable p) : (x >>= k).Refusable p :=
  hx.bind_of hk fun _ _ _ _ _ => id

theorem RefusedWith.mono {x : Edit α} (hx : x.RefusedWith S) (h : ∀ a b, S a b → R a b) :
    x.RefusedWith R := by
  intro a ha
  have hxa := hx a ha
  cases hrun : x a with
  | ok y a' => rwa [hrun] at hxa
  | error e a' =>
    rw [hrun] at hxa
    exact ⟨hxa.1, fun he => h _ _ (hxa.2 he)⟩

theorem refusable_of_ok {x : Edit α} (h : ∀ a : Arena, a.Laned → ∃ y a', x a = .ok y a' ∧ a'.Laned) :
    x.Refusable p := by
  intro a ha
  obtain ⟨y, a', hrun, ha'⟩ := h a ha
  rwa [hrun]

/-- A step that has no part in values. -/
theorem refusable_step {x : Edit α} (h : ∀ a, ∃ y a', x a = .ok y a' ∧ a'.values = a.values) :
    x.Refusable p := by
  refine refusable_of_ok fun a ha => ?_
  obtain ⟨y, a', hrun, hvalues⟩ := h a
  exact ⟨y, a', hrun, fun k x hx => ha k x (hvalues ▸ hx)⟩

theorem refusable_look {view : Arena → Except Fault α} (hview : ∀ a, Walks (view a)) :
    (look view).Refusable p := by
  intro a ha
  cases h : view a with
  | ok y => rwa [look, h]
  | error e =>
    rw [look, h]
    refine ⟨ha, fun he => ?_⟩
    rcases hview a e h with rfl | hclean
    · cases he
    · exact (Fault.not_isRefusal_of_isClean hclean he).elim

theorem refusable_looks : HoldsOfLooks fun _ x => x.Refusable p where
  pure _ := refusable_step fun _ => ⟨_, _, rfl, rfl⟩
  bind := Refusable.bind
  throw he _ ha := ⟨ha, fun hrefused => (Fault.not_isRefusal_of_isClean he hrefused).elim⟩
  look hview := refusable_look fun a => (hview a).walks
  endless _ _ ha := ⟨ha, nofun⟩
  walk := refusable_look
  lift {_ x} hx a ha := by
    cases x with
    | ok y => exact ha
    | error e => exact ⟨ha, fun he => (Fault.not_isRefusal_of_isClean (hx e rfl) he).elim⟩

theorem discard_eq_error {x : Edit α} :
    (discard x : Edit Unit) a = .error e a' ↔ x a = .error e a' := by
  change EStateM.map _ x a = _ ↔ _
  rw [EStateM.map]
  cases x a <;> simp

/-! ### Values and uses -/

theorem refusable_withUses (v : ValueId) (c : Bool) (l : List UseId) :
    (setValue v (·.withUses c l)).Refusable p := by
  refine refusable_of_ok fun a ha => ⟨(), _, rfl, fun k x hx => ?_⟩
  rw [Array.getElem?_modify] at hx
  split at hx
  · obtain ⟨y, hy, rfl⟩ := Option.map_eq_some_iff.mp hx
    cases c <;> exact ha k y hy
  · exact ha k x hx

theorem refusable_lists : HoldsOfLists fun _ x => x.Refusable p where
  toHoldsOfViews := refusable_looks.toHoldsOfViews
  slot _ _ := refusable_step fun _ => ⟨_, _, rfl, rfl⟩
  withUses := refusable_withUses
  corrupt _ _ ha := ⟨ha, nofun⟩

theorem refusable_addUse (x : Use) : (addUse x).Refusable p :=
  refusable_step fun _ => ⟨_, _, rfl, rfl⟩

theorem refusable_newUse (i : InstrId) (v : Option ValueId) : (newUse i v).Refusable p :=
  refusable_lists.newUse i v refusable_addUse

theorem refusable_repoint (u : UseId) (v : Option ValueId) : (repoint u v).Refusable p :=
  refusable_lists.repoint u v (refusable_step fun _ => ⟨_, _, rfl, rfl⟩)

theorem refusable_setFunction (f : FunctionId) (g : Function → Function) :
    (setFunction f g).Refusable p :=
  refusable_step fun _ => ⟨_, _, rfl, rfl⟩

theorem refusable_newValue (f : FunctionId) {n : Int} (hn : ¬ p → 1 ≤ n ∧ n ≤ maxLanes)
    (i : Option InstrId) : (newValue f n i).Refusable p := by
  rw [newValue, checkComps]
  split
  case isTrue h =>
    refine fun a ha => ⟨ha, fun _ => by_contra fun hp => ?_⟩
    have := hn hp
    omega
  case isFalse h =>
    rw [pure_bind]
    refine (refusable_looks.look fun a => a.clean_function f).bind fun g =>
      (refusable_setFunction f _).bind fun _ => refusable_of_ok fun a ha => ⟨_, _, rfl, fun k x hx => ?_⟩
    rw [Array.getElem?_push] at hx
    split at hx
    · cases hx
      dsimp only
      omega
    · exact ha k x hx

/-- A value has as many lanes as a value may have, so a copy of it is not refused. -/
theorem refusable_copyValue (f : FunctionId) (w : ValueId) (i : Option InstrId) :
    (look (·.value w) >>= fun x => newValue f x.comps i).Refusable p := by
  intro a ha
  cases hw : a.value w with
  | error e =>
    have hlook : look (·.value w) a = .error e a := by rw [look, hw]
    rw [bind_of_error hlook]
    exact ⟨ha, fun he => (Fault.not_isRefusal_of_isClean (a.clean_value w e hw) he).elim⟩
  | ok x =>
    have hx := ha w.idx x (Arena.value_eq_ok.mp hw)
    rw [bind_of_ok (look_eq_ok.mpr ⟨hw, rfl⟩)]
    exact refusable_newValue f (fun _ => by omega) i a ha

/-- Changes are refused only if `p`, and what looks first is refused right where it starts, or if `p`
later on. -/
theorem refused_building (hp : ∀ a b, p → R a b) (hrefl : ∀ a, R a a) :
    HoldsOfBuilding (fun _ x => x.RefusedWith R) (fun _ x => x.Refusable p) fun _ => True where
  toHoldsOfLooks := refusable_looks
  whole hx := hx.mono hp
  refuse _ a ha := ⟨ha, fun _ => hrefl a⟩
  first hx hstill hk := hx.bind_of hk fun a _ a' b h hR => by
    obtain rfl : a' = a := hstill h
    exact hR
  rest hx hk := hx.bind_of hk fun _ _ _ _ _ => hp _ _
  addInstr _ := refusable_step fun _ => ⟨_, _, rfl, rfl⟩
  setInstr _ _ := refusable_step fun _ => ⟨_, _, rfl, rfl⟩
  addBlock _ := refusable_step fun _ => ⟨_, _, rfl, rfl⟩
  setBlock _ _ := refusable_step fun _ => ⟨_, _, rfl, rfl⟩
  addConstruct _ := refusable_step fun _ => ⟨_, _, rfl, rfl⟩
  setConstruct _ _ := refusable_step fun _ => ⟨_, _, rfl, rfl⟩
  addFunction _ := refusable_step fun _ => ⟨_, _, rfl, rfl⟩
  setFunction := refusable_setFunction
  setUse _ _ _ := refusable_step fun _ => ⟨_, _, rfl, rfl⟩
  newUse i v _ := refusable_newUse i v
  guard _ _ _ hk := (refusable_addUse _).bind fun u => (refusable_lists.link _ u).bind fun _ => hk u
  newValue f _ hn i := refusable_newValue f (fun _ => hn) i
  copyValue := refusable_copyValue

end Edit

/-! ### Calls -/

namespace Call

open Edit

variable {call : Call}

theorem refusable_setIndirect {p : Prop} (i : InstrId) (v : Option ValueId) :
    (Edit.setIndirect i v).Refusable p := by
  refine (refusable_looks.look fun a => a.clean_instr i).bind fun ins => ?_
  split
  · exact refusable_repoint _ v
  · exact (refusable_newUse i v).bind fun _ => refusable_step fun _ => ⟨_, _, rfl, rfl⟩

/-- A call that builds is refused right where it starts, unless it is late. -/
theorem run_refusedWith {p : Prop} {R : Arena → Arena → Prop} (hp : ∀ a b, p → R a b)
    (hrefl : ∀ a, R a a) (hkind : call.kind = .building) (hlate : call.late = true → p) :
    call.run.RefusedWith R := by
  obtain hrun | ⟨u, v, rfl⟩ | ⟨i, v, rfl⟩ := holds_run (refused_building hp hrefl) hkind
    (fun _ _ => trivial) fun h f n i => refusable_newValue f (fun hn => absurd (hlate h) hn) i
  · exact hrun
  · exact (refusable_repoint u v).mono hp
  · exact (refusable_setIndirect i v).mono hp

/-- What a late call has done when it is refused. -/
def traces : Call → Edit Unit
  | .intrinsic _ op _ srcs => do
      let i ← newInstr (.intrinsic op none (srcs.map fun _ => none) 0)
      linkSources i (fun uses => .intrinsic op none uses 0) [] srcs
  | _ => pure ()

/-- A late call leaves an instruction that is in no block, with all its sources. -/
theorem traces_of_late (hlate : call.late = true) (ha : a.Laned)
    (hrun : call.run a = .error e a') (he : e.isRefusal = true) : call.traces a = .ok () a' := by
  cases call with
  | intrinsic c op n srcs =>
    obtain ⟨info, hinfo, ⟨hlength, hdest⟩, hn⟩ : ∃ info, op.info = .ok info
        ∧ (srcs.length = info.sources ∧ info.hasDest = true) ∧ (n < 1 ∨ n > maxLanes) := by
      cases hinfo : op.info with
      | error e => simp [late, hinfo, Except.toOption] at hlate
      | ok info => exact ⟨info, rfl, by simpa [late, hinfo, Except.toOption] using hlate⟩
    have htraces : c.intrinsic op n srcs
        = (Call.intrinsic c op n srcs).traces >>= fun _ => throw (.componentCount n) := by
      rw [Cursor.intrinsic, traces, hinfo, bind_assoc]
      refine (if_neg (not_not.mpr hlength)).trans (bind_congr fun i => bind_congr fun _ => ?_)
      rw [if_pos hdest, Cursor.value, newValue, checkComps, if_pos hn]
      rfl
    have hbuild := refused_building (p := False) (R := fun a b => b = a) (fun _ _ => False.elim)
      fun _ => rfl
    have hquiet : (Call.intrinsic c op n srcs).traces.Refusable False :=
      (hbuild.addInstr _).bind fun i => hbuild.linkSources i _ _ fun _ _ => trivial
    have hquiet := hquiet a ha
    rw [run, discard_eq_error, htraces] at hrun
    cases htr : (Call.intrinsic c op n srcs).traces a with
    | ok y b =>
      rw [bind_of_ok htr] at hrun
      cases hrun
      rfl
    | error e' b =>
      rw [bind_of_error htr] at hrun
      cases hrun
      rw [htr] at hquiet
      exact (hquiet.2 he).elim
  | _ => cases hlate

/-- A call that stops leaves the builder where it is. -/
theorem advance_of_error (h : call.run a = .error e a') :
    call.advance a = .error e a' := by
  cases call <;> first | exact bind_of_error h | exact bind_of_error (discard_eq_error.mp h)

end Call

namespace Session

variable {s : Session} {call : Call}

/-- One call, with a client that recovers if it stops with a fault. -/
def attempt (s : Session) (call : Call) : Session where
  arena := call.run.after s.arena
  builders :=
    match call.advance s.arena with
    | .ok y _ => moved s.builders y
    | .error _ _ => s.builders

/-- One call after the other, with a client that recovers from all faults. -/
def attempts (s : Session) (calls : List Call) : Session :=
  calls.foldl attempt s

theorem laned_attempts {calls : List Call} (h : s.arena.Laned)
    (hcalls : ∀ call ∈ calls, call.kind = .building) : (s.attempts calls).arena.Laned := by
  induction calls generalizing s with
  | nil => exact h
  | cons call calls ih =>
    refine ih ?_ fun c hc => hcalls c (List.mem_cons_of_mem _ hc)
    exact (Call.run_refusedWith (fun _ _ => id) (fun _ => trivial) (hcalls call List.mem_cons_self)
      fun _ => trivial).laned h

/-- A call that is refused leaves the arena and the builders as they were, so what comes later is as
if it had not been made. If it is late, it leaves an instruction that is in no block. -/
theorem attempts_of_refused {before : List Call} (hbefore : ∀ call ∈ before, call.kind = .building)
    (hkind : call.kind = .building) {e : Fault} {a' : Arena}
    (hrun : call.run (start.attempts before).arena = .error e a') (he : e.isRefusal = true) :
    (call.late = false → a' = (start.attempts before).arena
      ∧ ∀ later, start.attempts (before ++ call :: later) = start.attempts (before ++ later))
    ∧ (call.late = true → call.traces (start.attempts before).arena = .ok () a') := by
  have hlaned := laned_attempts (s := start) (fun k x hx => by simp [start, Arena.empty] at hx) hbefore
  refine ⟨fun hlate => ?_, fun hlate => Call.traces_of_late hlate hlaned hrun he⟩
  have hearly := Call.run_refusedWith (p := False) (R := fun a b => b = a) (fun _ _ => False.elim)
    (fun _ => rfl) hkind (by simp [hlate]) _ hlaned
  rw [hrun] at hearly
  have hsame : a' = (start.attempts before).arena := hearly.2 he
  refine ⟨hsame, fun later => ?_⟩
  have hattempt : (start.attempts before).attempt call = start.attempts before := by
    rw [attempt, Edit.after_of_error hrun, Call.advance_of_error hrun, hsame]
  rw [attempts, attempts, List.foldl_append, List.foldl_append, List.foldl_cons]
  exact congrArg (List.foldl attempt · later) hattempt

/-- Behind a constant, an `if` that is not open is refused early, and the load of a uniform with too
many lanes late. -/
theorem attempts_of_refused_closeIf :
    start.attempts [.newFunction "main", .const bottom [5], .closeIf bottom, .finish bottom]
        = start.attempts [.newFunction "main", .const bottom [5], .finish bottom]
      ∧ ∃ a', (Call.intrinsic bottom ⟨1⟩ 17 [some ⟨0⟩]).run
          (start.attempts [.newFunction "main", .const bottom [5]]).arena
            = .error (.componentCount 17) a'
        ∧ (Call.intrinsic bottom ⟨1⟩ 17 [some ⟨0⟩]).traces
          (start.attempts [.newFunction "main", .const bottom [5]]).arena = .ok () a' := by
  have hbefore : ∀ c ∈ [.newFunction "main", .const bottom [5]], Call.kind c = .building := by decide
  refine ⟨?_, _, rfl, ?_⟩
  · exact ((attempts_of_refused hbefore (show (Call.closeIf bottom).kind = .building from rfl) rfl
      rfl).1 rfl).2 [.finish bottom]
  · exact (attempts_of_refused hbefore
      (show (Call.intrinsic bottom ⟨1⟩ 17 [some ⟨0⟩]).kind = .building from rfl) rfl rfl).2 rfl

end Session

end ShaderCompiler
