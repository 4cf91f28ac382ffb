import ShaderCompiler.Proofs.Building
import ShaderCompiler.Proofs.Exact.Passes

/-!
# Use-lists in every reachable state

A client builds functions, changes them and runs passes on them by calls. A call that stops with a
fault leaves the arena as it is then, and the client may go on from there. In every state that is
reached in this way use-lists are exact. A corrupt use-list is found by no call but one that turns
a use which an earlier call has dropped from its list when it removed an instruction.
-/

namespace ShaderCompiler

variable {n : Nat} {u : UseId} {v : Option ValueId}

/-- The calls of a client. -/
inductive Call where
  | newFunction (name : String)
  | const (c : Cursor) (values : List UInt64)
  | undef (c : Cursor) (comps : Int)
  | alu (c : Cursor) (op : AluOp) (comps : Int) (srcs : List (Option ValueId))
  | aluOfSources (c : Cursor) (op : AluOp) (srcs : List (Option ValueId))
  | mov (c : Cursor) (v : Option ValueId) (swizzle : List Nat)
  | gather (c : Cursor) (lanes : List (Option ValueId × Nat))
  | intrinsic (c : Cursor) (op : Intrinsic) (comps : Int) (srcs : List (Option ValueId))
  | tex (c : Cursor) (op : TexOp) (comps texture sampler : Int)
      (srcs : List (TexRole × Option ValueId))
  | call (c : Cursor) (callee : String) (params : List (Option ValueId))
  | phi (c : Cursor) (comps : Int)
  | parallelCopy (c : Cursor) (srcs : List (Option ValueId))
  | jump (c : Cursor) (kind : JumpKind)
  | openIf (c : Cursor) (cond : Option ValueId)
  | switchToElse (c : Cursor)
  | closeIf (c : Cursor)
  | openLoop (c : Cursor)
  | closeLoop (c : Cursor)
  | finish (c : Cursor)
  | setSaturate (i : InstrId) (saturate : Bool)
  | setBase (i : InstrId) (base : Int)
  | setModifiers (u : UseId) (lanes : List Nat) (absolute negated : Bool)
  | setIndirect (i : InstrId) (v : Option ValueId)
  | addPhiSource (i : InstrId) (pred : BlockId) (v : Option ValueId)
  | repoint (u : UseId) (v : Option ValueId)
  | removeInstr (b : BlockId) (i : InstrId)
  | forwardCopies (f : FunctionId)
  | removeDead (f : FunctionId) (always : Bool)
  | pass (s : Shader) (p : Pass)

namespace Call

/-- What a call does. -/
def run : Call → Edit Unit
  | .newFunction name => discard <| Edit.newFunction name
  | .const c values => discard <| c.const values
  | .undef c comps => discard <| c.undef comps
  | .alu c op comps srcs => discard <| c.alu op comps srcs
  | .aluOfSources c op srcs => discard <| c.aluOfSources op srcs
  | .mov c v swizzle => discard <| c.mov v swizzle
  | .gather c lanes => discard <| c.gather lanes
  | .intrinsic c op comps srcs => discard <| c.intrinsic op comps srcs
  | .tex c op comps texture sampler srcs => discard <| c.tex op comps texture sampler srcs
  | .call c callee params => discard <| c.call callee params
  | .phi c comps => discard <| c.phi comps
  | .parallelCopy c srcs => discard <| c.parallelCopy srcs
  | .jump c kind => discard <| c.jump kind
  | .openIf c cond => discard <| c.openIf cond
  | .switchToElse c => discard c.switchToElse
  | .closeIf c => discard c.closeIf
  | .openLoop c => discard c.openLoop
  | .closeLoop c => discard c.closeLoop
  | .finish c => c.finish
  | .setSaturate i saturate => Edit.setSaturate i saturate
  | .setBase i base => Edit.setBase i base
  | .setModifiers u lanes absolute negated => Edit.setModifiers u lanes absolute negated
  | .setIndirect i v => Edit.setIndirect i v
  | .addPhiSource i pred v => Edit.addPhiSource i pred v
  | .repoint u v => Edit.repoint u v
  | .removeInstr b i => Edit.removeInstr b i
  | .forwardCopies f => discard <| Edit.forwardCopies f
  | .removeDead f always => discard <| Edit.removeDead f always
  | .pass s p => discard <| p.run s

/-- The values that a call is given. -/
def values : Call → List (Option ValueId)
  | .alu _ _ _ srcs | .aluOfSources _ _ srcs | .intrinsic _ _ _ srcs | .call _ _ srcs
  | .parallelCopy _ srcs => srcs
  | .gather _ lanes => lanes.map (·.1)
  | .tex _ _ _ _ _ srcs => srcs.map (·.2)
  | .mov _ v _ | .openIf _ v | .setIndirect _ v | .addPhiSource _ _ v | .repoint _ v => [v]
  | _ => []

/-- Whether a call may remove instructions. -/
def kind : Call → Change
  | .removeInstr .. | .forwardCopies _ | .removeDead .. | .pass .. => .removing
  | _ => .building

/-- The values that a call is given are values of the arena. -/
def Fits (a : Arena) (c : Call) : Prop :=
  ∀ v, some v ∈ c.values → a.There v

/-- A call turns a use to another value. -/
def Rewrites (a : Arena) (u : UseId) : Call → Prop
  | .repoint t _ => t = u
  | .setIndirect i _ => ∃ ins, a.instrs[i.idx]? = some ins ∧ ins.indirect = some u
  | _ => False

variable {a : Arena} {c : Call}

open Edit

/-- An intrinsic with all its sources, whose result would have a number of lanes that no value has. -/
def late : Call → Bool
  | .intrinsic _ op n srcs => op.info.toOption.any fun info =>
      srcs.length = info.sources && info.hasDest && (n < 1 || n > maxLanes)
  | _ => false

/-- A property of building holds of all calls that build, except that two of them turn a use, and
that one makes a value before it has looked at the number of lanes. -/
theorem holds_run {J K : (α : Type) → Edit α → Prop} {given : Option ValueId → Prop}
    (h : HoldsOfBuilding J K given) (hkind : c.kind = .building) (hc : ∀ v ∈ c.values, given v)
    (hlate : c.late = true → ∀ f n i, K ValueId (newValue f n i)) :
    J Unit c.run ∨ (∃ u v, c = .repoint u v) ∨ ∃ i v, c = .setIndirect i v := by
  cases c with
  | newFunction name => exact .inl (h.discard (h.whole (h.newFunction name)))
  | const c values => exact .inl (h.discard (h.const c values))
  | undef c n => exact .inl (h.discard (h.undef c n))
  | alu c op n srcs => exact .inl (h.discard (h.alu c op n hc))
  | aluOfSources c op srcs => exact .inl (h.discard (h.aluOfSources c op hc))
  | mov c v swizzle => exact .inl (h.discard (h.mov c (hc v List.mem_cons_self) swizzle))
  | gather c lanes => exact .inl (h.discard (h.gather c hc))
  | intrinsic c op n srcs =>
    refine .inl (h.discard (h.intrinsic c op n hc fun info hinfo hlength hdest i => ?_))
    by_cases hn : 1 ≤ n ∧ n ≤ maxLanes
    · exact h.newValue _ hn _
    · refine hlate ?_ _ _ _
      simp [late, hinfo, Except.toOption, hlength, hdest]
      omega
  | tex c op n texture sampler srcs => exact .inl (h.discard (h.tex c op n texture sampler hc))
  | call c callee params => exact .inl (h.discard (h.whole (h.call c callee hc)))
  | phi c n => exact .inl (h.discard (h.phi c n))
  | parallelCopy c srcs => exact .inl (h.discard (h.whole (h.parallelCopy c hc)))
  | jump c kind => exact .inl (h.discard (h.whole (h.jump c kind)))
  | openIf c cond => exact .inl (h.discard (h.whole (h.openIf c (hc cond List.mem_cons_self))))
  | switchToElse c => exact .inl (h.discard (h.switchToElse c))
  | closeIf c => exact .inl (h.discard (h.closeIf c))
  | openLoop c => exact .inl (h.discard (h.whole (h.openLoop c)))
  | closeLoop c => exact .inl (h.discard (h.closeLoop c))
  | finish c => exact .inl (h.finish c)
  | setSaturate i saturate => exact .inl (h.whole (x := Edit.setSaturate i saturate) (h.setAction i _))
  | setBase i base => exact .inl (h.whole (x := Edit.setBase i base) (h.setAction i _))
  | setModifiers u lanes absolute negated => exact .inl (h.whole (h.setUse u fun _ => by rfl))
  | setIndirect i v => exact .inr (.inr ⟨i, v, rfl⟩)
  | addPhiSource i pred v =>
    exact .inl (h.whole (h.addPhiSource i pred (hc v List.mem_cons_self)))
  | repoint u v => exact .inr (.inl ⟨u, v, rfl⟩)
  | removeInstr | forwardCopies | removeDead | pass => cases hkind

theorem keeps_newValue (f : FunctionId) (comps : Int) (i : Option InstrId) :
    (newValue f comps i).Keeps .building n := by
  refine (keeps_ite (keeps_throw (by simp)) (keeps_pure _)).bind fun _ =>
    (keeps_look fun a => a.clean_function f).bind fun g => (keeps_setFunction f _).bind fun _ =>
      keeps_addValue fun c => ?_
  cases c <;> rfl

/-- Building keeps use-lists exact, as long as the values that it is given are there. -/
theorem keeps_building : HoldsOfBuilding (fun _ x => x.Keeps .building n)
    (fun _ x => x.Keeps .building n) fun v => ∀ w, v = some w → w.idx < n where
  toHoldsOfLooks := keeps_looks
  whole := id
  refuse he := keeps_throw (by rintro _ rfl; cases he)
  first hx _ hk := hx.bind hk
  rest := Keeps.bind
  addInstr := keeps_addInstr
  setInstr := keeps_setInstr
  addBlock := keeps_addBlock
  setBlock := keeps_setBlock
  addConstruct := keeps_addConstruct
  setConstruct := keeps_setConstruct
  addFunction := keeps_addFunction
  setFunction := keeps_setFunction
  setUse := keeps_setUse
  newUse i _ hv := keeps_newUse i hv
  guard hv n _ hk := keeps_enter (hv _ rfl) none (some n) hk
  newValue f _ _ i := keeps_newValue f _ i
  copyValue f w i := (keeps_look fun a => a.clean_value w).bind fun _ => keeps_newValue f _ i

/-- All calls keep use-lists exact, except that two of them may turn a use that was dropped. -/
theorem keeps_run (h : ∀ v, some v ∈ c.values → v.idx < n) : c.run.Keeps c.kind n
    ∨ (∃ u v, c = .repoint u v) ∨ ∃ i v, c = .setIndirect i v := by
  have hdiscard {α : Type} {x : Edit α} (hx : x.Keeps .removing 0) :
      (discard x : Edit Unit).Keeps .removing n :=
    keeps_looks.map (hx.mono n.zero_le) _
  cases hkind : c.kind with
  | building =>
    exact holds_run keeps_building hkind (fun v hv w hw => h w (hw ▸ hv)) fun _ => keeps_newValue
  | turning => cases c <;> cases hkind
  | removing =>
    left
    cases c with
    | removeInstr b i => exact keeps_removeInstr b i
    | forwardCopies f => exact hdiscard (keeps_forwardCopies f)
    | removeDead f always => exact hdiscard (keeps_removeDead f always)
    | pass s p => exact hdiscard (p.keeps_run s)
    | _ => cases hkind

/-- A call leaves use-lists exact and drops uses only if it is one that removes instructions. It
finds a corrupt use-list only if it turns a use that was dropped. -/
structure Outcome (a : Arena) (c : Call) : Prop where
  tidy : (c.run.after a).Tidy
  drift : a.Drift c.kind (c.run.after a)
  corrupt : ∀ text a', c.run a = .error (.corruptUseList text) a' →
    ∃ u, c.Rewrites a u ∧ a.Dropped u

theorem Outcome.of_runs (h : c.run.Runs c.kind a) : c.Outcome a :=
  ⟨h.tidy, h.drift, fun text a' he => absurd he (h.clean text a')⟩

/-- A call that turns a use and does nothing else. -/
theorem Outcome.of_repoint (ha : a.Tidy)
    (hv : ∀ w, v = some w → a.There w) (hrun : c.run a = Edit.repoint u v a)
    (hkind : c.kind = .building) (hu : c.Rewrites a u) : c.Outcome a := by
  by_cases hdropped : a.Dropped u
  · obtain ⟨e, he⟩ := repoint_of_dropped hdropped (v := v)
    have hafter : c.run.after a = a := after_of_error (hrun.trans he)
    exact ⟨hafter.symm ▸ ha, hafter.symm ▸ .of_sameTies ⟨rfl, rfl⟩, fun _ _ _ => ⟨u, hu, hdropped⟩⟩
  · exact .of_runs (.congr hrun (hkind ▸ runs_repoint ha hdropped hv))

theorem outcome_setIndirect {i : InstrId} (ha : a.Tidy)
    (hv : ∀ w, v = some w → a.There w) : (Call.setIndirect i v).Outcome a := by
  cases hins : a.instrs[i.idx]? with
  | none =>
    have hlook : look (·.instr i) a = .error .absent a := by simp [look, Arena.instr, hins, present]
    exact .of_runs (.of_absent (bind_of_error hlook) ha (.of_sameTies ⟨rfl, rfl⟩))
  | some ins =>
    have hlook : look (·.instr i) a = .ok ins a := look_eq_ok.mpr ⟨Arena.instr_eq_ok.mpr hins, rfl⟩
    cases hind : ins.indirect with
    | some u =>
      have hrun : (Call.setIndirect i v).run a = Edit.repoint u v a := by
        rw [run, Edit.setIndirect, bind_of_ok hlook, hind]
      exact .of_repoint ha hv hrun rfl ⟨ins, hins, hind⟩
    | none =>
      have hrun : (Call.setIndirect i v).run a = (do
          let u ← newUse i v
          setInstr i fun ins => { ins with indirect := some u } : Edit Unit) a := by
        rw [run, Edit.setIndirect, bind_of_ok hlook, hind]
      have hkeeps := (keeps_newUse i fun w hw => Arena.there_iff.mp (hv w hw)).bind
        fun u => keeps_setInstr i fun ins => { ins with indirect := some u }
      exact .of_runs (.congr hrun (hkeeps a ha le_rfl))

theorem outcome (ha : a.Tidy) (hfit : c.Fits a) : c.Outcome a := by
  obtain hkeeps | ⟨u, v, rfl⟩ | ⟨i, v, rfl⟩ := keeps_run fun w hw => Arena.there_iff.mp (hfit w hw)
  · exact .of_runs (hkeeps a ha le_rfl)
  · exact .of_repoint ha (fun w hw => hfit w (hw ▸ List.mem_singleton_self _)) rfl rfl rfl
  · exact outcome_setIndirect ha fun w hw => hfit w (hw ▸ List.mem_singleton_self _)

end Call

/-! ### Reachable states -/

/-- The arenas that calls lead to, from the empty one. -/
inductive Reached : List Call → Arena → Prop
  | start : Reached [] .empty
  | call {calls : List Call} {a : Arena} (h : Reached calls a) {c : Call} (hfit : c.Fits a) :
      Reached (calls ++ [c]) (c.run.after a)

namespace Reached

variable {calls : List Call} {a : Arena}

theorem tidy (h : Reached calls a) : a.Tidy := by
  induction h with
  | start => exact ⟨⟨nofun, nofun⟩, nofun⟩
  | call _ hfit ih => exact (Call.outcome ih hfit).tidy

/-- A use that was dropped had its place until one of the calls removed an instruction. -/
theorem exists_dropping (h : Reached calls a) (hu : a.Dropped u) :
    ∃ before c later b, calls = before ++ c :: later ∧ c.kind = .removing ∧ Reached before b
      ∧ b.Attached u ∧ (c.run.after b).Dropped u := by
  induction h with
  | start =>
    obtain ⟨⟨use, v, huse, -⟩, -⟩ := hu
    simp [Arena.empty] at huse
  | @call calls a h c hfit ih =>
    rcases (Call.outcome h.tidy hfit).drift.dropped u hu with hold | ⟨hkind, hatt⟩
    · obtain ⟨before, d, later, b, rfl, hkind, hb, hatt, hdropped⟩ := ih hold
      exact ⟨before, d, later ++ [c], b, by simp, hkind, hb, hatt, hdropped⟩
    · exact ⟨calls, c, [], a, rfl, hkind, h, hatt, hu⟩

/-- In every reachable state use-lists are exact: entry `k` of a list remembers place `k`, reads the
value and has the role of the list, no use stands in two places, and a use that remembers a place is
the entry there. A call from there finds a corrupt use-list only if it turns a use that reads a value
without a place, because an earlier call dropped it when it removed instructions. -/
theorem exact_and_corrupt_only_if_dropped (h : Reached calls a) : a.Exact
    ∧ (∀ (v w : ValueId) x y c d (j k : Nat) (u : UseId), a.values[v.idx]? = some x →
      a.values[w.idx]? = some y → (x.usesOf c)[j]? = some u → (y.usesOf d)[k]? = some u →
        v = w ∧ c = d ∧ j = k)
    ∧ ∀ (c : Call) text a', c.Fits a → c.run a = .error (.corruptUseList text) a' →
      ∃ u, c.Rewrites a u ∧ a.Dropped u
        ∧ ∃ before d later b, calls = before ++ d :: later ∧ d.kind = .removing
          ∧ Reached before b ∧ b.Attached u ∧ (d.run.after b).Dropped u := by
  refine ⟨h.tidy.exact, fun v w x y c d j k u hx hy hj hk => h.tidy.exact.unique hx hy hj hk,
    fun c text a' hfit hrun => ?_⟩
  obtain ⟨u, hu, hdropped⟩ := (Call.outcome h.tidy hfit).corrupt text a' hrun
  exact ⟨u, hu, hdropped, h.exists_dropping hdropped⟩

/-- Calls that build a constant and a copy of it, and take the copy out again. -/
def copyRemoved : List Call :=
  [.newFunction "main", .const ⟨⟨0⟩, .body ⟨0⟩, .function ⟨0⟩, []⟩ [5],
    .mov ⟨⟨0⟩, .body ⟨0⟩, .function ⟨0⟩, []⟩ (some ⟨0⟩) [], .removeInstr ⟨1⟩ ⟨1⟩]

/-- The arena after the sample calls. -/
def copyRemovedArena : Arena :=
  copyRemoved.foldl (fun a c => c.run.after a) .empty

theorem reached_copyRemoved : Reached copyRemoved copyRemovedArena := by
  have fits_nil {c : Call} {a : Arena} (h : c.values = []) : c.Fits a := by simp [Call.Fits, h]
  have fits_const {c : Call} {a : Arena} (h : c.values = [some ⟨0⟩]) (ha : 0 < a.values.size) :
      c.Fits a := by
    intro v hv
    obtain rfl : v = ⟨0⟩ := by simpa [h] using hv
    exact Arena.there_iff.mpr ha
  exact (((start.call (fits_nil rfl)).call (fits_nil rfl)).call
    (fits_const rfl (by decide +kernel))).call (fits_nil rfl)

/-- Whether a run found a use-list corrupted. -/
def findsCorrupt : EStateM.Result Fault Arena Unit → Bool
  | .error (.corruptUseList _) _ => true
  | _ => false

theorem exists_of_findsCorrupt {r : EStateM.Result Fault Arena Unit} (h : findsCorrupt r = true) :
    ∃ text a', r = .error (.corruptUseList text) a' := by
  unfold findsCorrupt at h
  split at h
  · exact ⟨_, _, rfl⟩
  · cases h

/-- The source of the copy has lost its place when the copy was removed, and cannot be turned. -/
theorem exact_and_corrupt_only_if_dropped_copyRemoved : Reached copyRemoved copyRemovedArena
    ∧ copyRemovedArena.Exact
    ∧ ∃ text a', (Call.repoint ⟨0⟩ (some ⟨0⟩)).run copyRemovedArena = .error (.corruptUseList text) a'
      ∧ ∃ before d later b, copyRemoved = before ++ d :: later ∧ d.kind = .removing
        ∧ Reached before b ∧ b.Attached ⟨0⟩ ∧ (d.run.after b).Dropped ⟨0⟩ := by
  obtain ⟨hexact, -, hcorrupt⟩ := exact_and_corrupt_only_if_dropped reached_copyRemoved
  have hfit : (Call.repoint ⟨0⟩ (some ⟨0⟩)).Fits copyRemovedArena := by
    intro v hv
    obtain rfl : v = ⟨0⟩ := by simpa [Call.values] using hv
    exact Arena.there_iff.mpr (by decide +kernel)
  obtain ⟨text, a', hrun⟩ := exists_of_findsCorrupt
    (r := (Call.repoint ⟨0⟩ (some ⟨0⟩)).run copyRemovedArena) (by decide +kernel)
  obtain ⟨u, rfl, -, hdropping⟩ := hcorrupt _ text a' hfit hrun
  exact ⟨reached_copyRemoved, hexact, text, a', hrun, hdropping⟩

end Reached

end ShaderCompiler
