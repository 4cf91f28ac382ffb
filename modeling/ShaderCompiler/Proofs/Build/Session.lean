import ShaderCompiler.Proofs.Build.Regions
import ShaderCompiler.Proofs.Exact.Calls

/-!
# Building by calls

A session is a run of calls that build functions, none of which stops with a fault. Every function has
one builder. The calls for a function are made where its builder stands, and some of them move it:
those that open or close a construct or go on with the second branch of an `if`. The calls for several
functions may be mixed.

After every session the lists of all functions are structured, each builder stands at the end of a
block, every instruction is where it says it is, and values and instructions agree on what defines
what. If a function can be ended then, the check finds nothing wrong with its shape.
-/

namespace ShaderCompiler

variable {x : Edit (ConstructId × Cursor)} {a : Arena}

namespace Call

open Edit

/-- Where a call is made, if a builder makes it. -/
def cursor? : Call → Option Cursor
  | .const c _ | .undef c _ | .alu c .. | .aluOfSources c .. | .mov c .. | .gather c _
  | .intrinsic c .. | .tex c .. | .call c .. | .phi c _ | .parallelCopy c _ | .jump c _
  | .openIf c _ | .switchToElse c | .closeIf c | .openLoop c | .closeLoop c | .finish c => some c
  | _ => none

/-- What a call does, and where it leaves the builder. -/
def advance : Call → Edit (Option Cursor)
  | .newFunction name => return some (← Edit.newFunction name)
  | .openIf c cond => return some (← c.openIf cond).2
  | .switchToElse c => return some (← c.switchToElse)
  | .closeIf c => return some (← c.closeIf).2
  | .openLoop c => return some (← c.openLoop).2
  | .closeLoop c => return some (← c.closeLoop).2
  | other => do
      other.run
      return other.cursor?

end Call

/-! ### What one call keeps -/

namespace Edit

/-- An action that is a φ if it was one, and defines what it defined. -/
theorem conserves_setAction (i : InstrId) {k : Action → Action}
    (hk : ∀ x, Instr.role ⟨none, 0, false, none, k x⟩ = Instr.role ⟨none, 0, false, none, x⟩) :
    (setAction i k).Conserves Arena.skeleton :=
  conserves_setInstr i fun ins => by
    obtain ⟨-, hphi, hdefs⟩ := Role.mk.inj (hk ins.action)
    exact congrArg₂ (Role.mk ins.block) hphi hdefs

theorem conserves_setSaturate (i : InstrId) (saturate : Bool) :
    (setSaturate i saturate).Conserves Arena.skeleton :=
  conserves_setAction i fun x => by cases x <;> rfl

theorem conserves_setBase (i : InstrId) (base : Int) :
    (setBase i base).Conserves Arena.skeleton :=
  conserves_setAction i fun x => by cases x <;> rfl

theorem conserves_addPhiSource (i : InstrId) (pred : BlockId) (v : Option ValueId) :
    (addPhiSource i pred v).Conserves Arena.skeleton :=
  (listless_skeleton.conserves_newUse i v).bind fun _ =>
    conserves_setAction i fun x => by cases x <;> rfl

theorem conserves_setIndirect (i : InstrId) (v : Option ValueId) :
    (setIndirect i v).Conserves Arena.skeleton := by
  refine (conserves_look _).bind fun ins => ?_
  split
  · exact listless_skeleton.unlisted.conserves_repoint _ v
  · exact (listless_skeleton.conserves_newUse i v).bind fun _ => conserves_setInstr i fun _ => rfl

end Edit

/-- Where the builders stand once one of them has moved. -/
def moved (builders : FunctionId → Option Cursor) : Option Cursor → FunctionId → Option Cursor
  | none => builders
  | some c => Function.update builders c.function (some c)

namespace Call

open Edit

variable {s : Skeleton} {cs : FunctionId → Option Cursor} {c c' : Cursor} {f : FunctionId}

theorem coherent_moved (h : s.Coherent (Function.update cs f (some c'))) :
    s.Coherent (moved cs (some c')) := by
  have hf : c'.function = f := (h.nested.points f c' (Function.update_self _ _ _)).function
  rwa [moved, hf]

section Kinds

variable {α : Type} (h : s.Coherent cs) (hc : cs c.function = some c)

include h hc

theorem yields_of_inserts {x : Edit α}
    (hx : s.Ready c → x.Yields (fun a => a.skeleton = s) fun _ => s.Inserted c) :
    (do discard x; return some c).Yields (fun a => a.skeleton = s)
      fun y a => a.skeleton.Coherent (moved cs y) := by
  rw [discard, map_const, Function.comp_apply, bind_map_left]
  exact (hx (h.ready c)).bind fun _ => yields_pure fun a hi =>
    coherent_moved ((h.inserted hc hi).stays hc)

theorem yields_of_opens
    (hx : c.owner = c.list.owner → (∃ l, s.items c.list = some l) →
      x.Yields (fun a => a.skeleton = s) fun y => c.Opens s y.2) :
    (do return some (← x).2).Yields (fun a => a.skeleton = s)
      fun y a => a.skeleton.Coherent (moved cs y) := by
  have hp := h.nested.points _ c hc
  obtain ⟨b, l, hl, -⟩ := hp.ends
  exact (hx hp.owner ⟨l, hl⟩).bind fun y => yields_pure fun a ho => coherent_moved (h.opens hc ho)

theorem yields_of_closes
    (hx : (∀ fr ∈ c.frames, s.parent (.construct fr.construct) = some (some fr.outer.owner)) →
      x.Yields (fun a => a.skeleton = s) fun y => c.Closes s y.2) :
    (do return some (← x).2).Yields (fun a => a.skeleton = s)
      fun y a => a.skeleton.Coherent (moved cs y) :=
  (hx fun _ hfr => (h.nested.points _ c hc).chain.parent h.nested.lists hfr).bind fun _ =>
    yields_pure fun _ ho => coherent_moved (h.closes hc ho)

end Kinds

theorem yields_of_conserves {x : Edit Unit} (hx : x.Conserves Arena.skeleton) {y : Option Cursor}
    (h : s.Coherent (moved cs y)) :
    (do x; return y).Yields (fun a => a.skeleton = s)
      fun y a => a.skeleton.Coherent (moved cs y) :=
  (hx.yields fun _ _ hsame hs => hsame.trans hs).bind fun _ => yields_pure fun _ hs => hs ▸ h

/-- A call that builds keeps the skeleton coherent. -/
theorem advance_yields {call : Call} (h : s.Coherent cs) (hkind : call.kind = .building)
    (hcursor : ∀ c ∈ call.cursor?, cs c.function = some c) :
    call.advance.Yields (fun a => a.skeleton = s) fun y a => a.skeleton.Coherent (moved cs y) := by
  cases call with
  | newFunction name =>
    refine (newFunction_founds name).bind fun c => yields_pure ?_
    rintro a ⟨f, finish, b, rfl, ha, hbody, hcount, hfinish, hb⟩
    rw [ha]
    exact h.founds hbody hcount hfinish hb
  | const c values => exact yields_of_inserts h (hcursor c rfl) fun hc => c.const_inserts hc values
  | undef c comps => exact yields_of_inserts h (hcursor c rfl) fun hc => c.undef_inserts hc comps
  | alu c op comps srcs =>
    exact yields_of_inserts h (hcursor c rfl) fun hc => c.alu_inserts hc op comps srcs
  | aluOfSources c op srcs =>
    exact yields_of_inserts h (hcursor c rfl) fun hc => c.aluOfSources_inserts hc op srcs
  | mov c v swizzle =>
    exact yields_of_inserts h (hcursor c rfl) fun hc => c.mov_inserts hc v swizzle
  | gather c lanes => exact yields_of_inserts h (hcursor c rfl) fun hc => c.gather_inserts hc lanes
  | intrinsic c op comps srcs =>
    exact yields_of_inserts h (hcursor c rfl) fun hc => c.intrinsic_inserts hc op comps srcs
  | tex c op comps texture sampler srcs =>
    exact yields_of_inserts h (hcursor c rfl) fun hc => c.tex_inserts hc op comps texture sampler srcs
  | call c callee params =>
    exact yields_of_inserts h (hcursor c rfl) fun hc => c.call_inserts hc callee params
  | phi c comps => exact yields_of_inserts h (hcursor c rfl) fun hc => c.phi_inserts hc comps
  | parallelCopy c srcs =>
    exact yields_of_inserts h (hcursor c rfl) fun hc => c.parallelCopy_inserts hc srcs
  | jump c kind => exact yields_of_inserts h (hcursor c rfl) fun hc => c.jump_inserts hc kind
  | openIf c cond =>
    exact yields_of_opens h (hcursor c rfl) fun howner hlist => c.openIf_opens howner hlist cond
  | switchToElse c =>
    refine c.switchToElse_switches.bind fun c' => yields_pure ?_
    rintro a ⟨ha, fr, frames, l, hframes, hl, rfl⟩
    rw [ha]
    exact coherent_moved (h.switches (hcursor c rfl) hframes hl)
  | closeIf c => exact yields_of_closes h (hcursor c rfl) fun hparent => c.closeIf_closes hparent
  | openLoop c =>
    exact yields_of_opens h (hcursor c rfl) fun howner hlist => c.openLoop_opens howner hlist
  | closeLoop c => exact yields_of_closes h (hcursor c rfl) fun hparent => c.closeLoop_closes hparent
  | finish c =>
    exact yields_of_conserves (edgeless_skeleton.finish c fun _ => conserves_throw _)
      (h.stays (hcursor c rfl))
  | setSaturate i saturate => exact yields_of_conserves (conserves_setSaturate i saturate) h
  | setBase i base => exact yields_of_conserves (conserves_setBase i base) h
  | setModifiers u lanes absolute negated =>
    exact yields_of_conserves (listless_skeleton.conserves_setUse u _) h
  | setIndirect i v => exact yields_of_conserves (conserves_setIndirect i v) h
  | addPhiSource i pred v => exact yields_of_conserves (conserves_addPhiSource i pred v) h
  | repoint u v => exact yields_of_conserves (listless_skeleton.unlisted.conserves_repoint u v) h
  | removeInstr | forwardCopies | removeDead | pass => cases hkind

end Call

/-! ### Sessions -/

/-- What calls have built so far, and where the builder of each function stands. -/
structure Session where
  arena : Arena
  builders : FunctionId → Option Cursor

namespace Session

variable {s t : Session} {call : Call} {calls : List Call}

def start : Session :=
  ⟨.empty, fun _ => none⟩

/-- A call that builds, made where the builder of its function stands. -/
def Admits (s : Session) (call : Call) : Prop :=
  call.kind = .building ∧ ∀ c ∈ call.cursor?, s.builders c.function = some c

instance : Decidable (s.Admits call) :=
  inferInstanceAs (Decidable (_ ∧ _))

/-- One call, unless it stops with a fault. -/
def step (s : Session) (call : Call) : Option Session :=
  if s.Admits call then
    match call.advance s.arena with
    | .ok y a => some ⟨a, moved s.builders y⟩
    | .error _ _ => none
  else none

/-- One call after the other. -/
def play (s : Session) (calls : List Call) : Option Session :=
  calls.foldlM step s

/-- The skeleton is coherent with the places of the builders. -/
def Coherent (s : Session) : Prop :=
  s.arena.skeleton.Coherent s.builders

theorem start_coherent : start.Coherent where
  nested := by
    have hitems (r : ListRef) : Arena.empty.skeleton.items r = none := by cases r <;> rfl
    have hparent (item : Item) : Arena.empty.skeleton.parent item = none := by cases item <;> rfl
    refine ⟨⟨?_, ?_, ?_, ?_, ?_, ?_, nofun⟩, ?_, nofun⟩
    all_goals intro r l h; simp [start, hitems, hparent] at h
  filled := ⟨nofun, nofun, nofun, fun _ => List.nodup_nil, fun _ => ⟨[], [], rfl, nofun, nofun⟩⟩
  numbered := ⟨nofun, nofun, fun _ _ ⟨_, h, _⟩ => (nomatch h), nofun, nofun⟩

theorem step_coherent (h : s.Coherent) (hstep : s.step call = some t) : t.Coherent := by
  unfold step at hstep
  split at hstep
  case isFalse => cases hstep
  case isTrue hadmits =>
    cases hrun : call.advance s.arena with
    | error e a => simp [hrun] at hstep
    | ok y a =>
      rw [hrun] at hstep
      cases hstep
      exact Call.advance_yields h hadmits.1 hadmits.2 rfl hrun

theorem play_coherent (h : s.Coherent) (hplay : s.play calls = some t) : t.Coherent := by
  induction calls generalizing s with
  | nil =>
    cases hplay
    exact h
  | cons call calls ih =>
    rw [play, List.foldlM_cons, Option.bind_eq_bind, Option.bind_eq_some_iff] at hplay
    obtain ⟨s', hstep, hplay⟩ := hplay
    exact ih (step_coherent h hstep) hplay

end Session

/-! ### What holds after every session -/

/-- What holds of an arena while functions are built: every list starts with a block, has no two
blocks next to each other, ends with a block unless a builder has put it aside, and owns its items.
Builders work at the end of blocks. Every instruction stands once in the block that it points to, and
in every block the φs come first. Every value is defined by the one instruction that it points to, and
has a number of its own among those given out in its function. -/
structure Arena.Built (a : Arena) (builders : FunctionId → Option Cursor) : Prop where
  head : ∀ r l, a.items r = .ok l → l.head?.any (·.isBlock) = true
  separated : ∀ r l, a.items r = .ok l → Separated false l
  last : ∀ r l, a.items r = .ok l →
    l.getLast?.any (·.isBlock) = true ∨ Skeleton.Suspended builders r
  parent : ∀ r l, a.items r = .ok l → ∀ item ∈ l, a.parentOf item = .ok (some r.owner)
  current : ∀ f c, builders f = some c → ∃ l b, a.items c.list = .ok l
    ∧ l.getLast? = some (.block b) ∧ c.block a = .ok b a
  home : ∀ (i : InstrId) ins, a.instrs[i.idx]? = some ins → ∃ b, ins.block = some b ∧ i ∈ a.body b
  held : ∀ b i, i ∈ a.body b → ∃ ins, a.instrs[i.idx]? = some ins ∧ ins.block = some b
  once : ∀ b, (a.body b).Nodup
  phis : ∀ b, ∃ front back, a.body b = front ++ back
    ∧ (∀ i ∈ front, a.instrs[i.idx]?.any (·.isPhi) = true)
    ∧ ∀ i ∈ back, a.instrs[i.idx]?.any (·.isPhi) = false
  defined : ∀ (v : ValueId) x, a.values[v.idx]? = some x → ∃ i, x.definedBy = some i
    ∧ (∃ ins, a.instrs[i.idx]? = some ins ∧ ins.definitions.count (some v) = 1)
    ∧ ∀ (j : InstrId) ins, a.instrs[j.idx]? = some ins → some v ∈ ins.definitions → j = i
  numbered : ∀ (v : ValueId) x, a.values[v.idx]? = some x → ∃ f g, a.functions[f.idx]? = some g
    ∧ (a.scopeOf f).defined v ∧ 0 ≤ x.index ∧ x.index < g.valueCount
  distinct : ∀ f, a.NumbersDistinct f

theorem Skeleton.Coherent.built {builders : FunctionId → Option Cursor}
    (h : a.skeleton.Coherent builders) : a.Built builders := by
  obtain ⟨⟨hlists, hlast, hpoints⟩, hfilled, hnumbered⟩ := id h
  have hitems {r : ListRef} {l : List Item} (hl : a.items r = .ok l) :
      a.skeleton.items r = some l :=
    Arena.skeleton_items_eq_some.mpr hl
  have hrole {i : InstrId} {ins : Instr} (hins : a.instrs[i.idx]? = some ins) :
      a.skeleton.instr i = some ins.role := by
    change a.instrs[i.idx]?.map Instr.role = _
    rw [hins, Option.map_some]
  have hvalue {v : ValueId} {x : Value} (hx : a.values[v.idx]? = some x) :
      a.skeleton.value v = some (x.index, x.definedBy) := by
    change a.values[v.idx]?.map _ = _
    rw [hx, Option.map_some]
  refine ⟨fun r l hl => hlists.head r l (hitems hl), fun r l hl => hlists.separated r l (hitems hl),
    fun r l hl => hlast r l (hitems hl), fun r l hl item hitem => ?_, fun f c hc => ?_,
    fun i ins hins => ?_, fun b i hi => ?_, hfilled.nodup, fun b => ?_, fun v x hx => ?_,
    fun v x hx => ?_, fun f v w hv hw hnumber => ?_⟩
  · exact Arena.skeleton_parent_eq_some.mp (hlists.parent r l (hitems hl) item hitem)
  · obtain ⟨b, l, hl, hend⟩ := (hpoints f c hc).ends
    have hlist := Arena.skeleton_items_eq_some.mp hl
    refine ⟨l, b, hlist, hend, ?_⟩
    rw [Cursor.block, Edit.bind_of_ok (Edit.look_eq_ok.mpr ⟨hlist, rfl⟩), hend]
    rfl
  · obtain ⟨b, hblock, hi⟩ := hfilled.home i _ (hrole hins)
    exact ⟨b, hblock, hi⟩
  · obtain ⟨role, hfound, hblock⟩ := hfilled.held b i hi
    obtain ⟨ins, hins, rfl⟩ := Option.map_eq_some_iff.mp hfound
    exact ⟨ins, hins, hblock⟩
  · have hphis := hfilled.phis b
    rwa [Skeleton.PhisFirst, Arena.skeleton_isPhi] at hphis
  · obtain ⟨i, f, n, hd, ⟨role, hfound, hdef⟩, -⟩ := hnumbered.defined v _ _ (hvalue hx)
    obtain ⟨ins, hins, rfl⟩ := Option.map_eq_some_iff.mp hfound
    refine ⟨i, hd, ⟨ins, hins, ?_⟩, fun j ins' hins' hdef' => ?_⟩
    · exact List.count_eq_one_of_mem (hnumbered.once i _ hfound).2 hdef
    · obtain ⟨k, hk⟩ := hnumbered.points j v ⟨_, hrole hins', hdef'⟩
      rw [hvalue hx, hd] at hk
      cases hk
      rfl
  · obtain ⟨i, f, n, -, hdef, hholds, hn, hk⟩ := hnumbered.defined v _ _ (hvalue hx)
    obtain ⟨g, hg, rfl⟩ := Option.map_eq_some_iff.mp hn
    exact ⟨f, g, hg, h.defined_iff.mpr ⟨i, hdef, hholds⟩, hk⟩
  · obtain ⟨i, hdef, hi⟩ := h.defined_iff.mp hv
    obtain ⟨j, hdef', hj⟩ := h.defined_iff.mp hw
    obtain ⟨k, hk⟩ := hnumbered.points i v hdef
    obtain ⟨k', hk'⟩ := hnumbered.points j w hdef'
    have hpair {u : ValueId} {k : Int} {d : Option InstrId}
        (hu : a.skeleton.value u = some (k, d)) : a.number? u = some k := by
      obtain ⟨x, hx, heq⟩ := Option.map_eq_some_iff.mp hu
      rw [Arena.number?, hx, Option.map_some, (Prod.mk.inj heq).1]
    rw [hpair hk, hpair hk'] at hnumber
    cases hnumber
    exact hnumbered.distinct f v w k i j hk hk' hi hj

theorem Cursor.frames_of_finish {c : Cursor} {a' : Arena} (h : c.finish a = .ok () a') :
    c.frames = [] := by
  unfold finish at h
  split at h
  case isTrue => simp at h
  case isFalse hopen => simpa using hopen

namespace Session

variable {s : Session} {calls : List Call}

/-- After every session the arena is built as it should be. If a function is ended then, this is
still so, and the check finds nothing wrong with its shape. -/
theorem built_and_shaped_of_play (h : start.play calls = some s) : s.arena.Built s.builders
    ∧ ∀ f c a', s.builders f = some c → c.finish s.arena = .ok () a' → a'.Built s.builders
      ∧ ∃ region, a'.bodyRegion f = .ok region ∧ Edit.shapeProblems f region a' = .ok [] a' := by
  have hcoherent := play_coherent start_coherent h
  refine ⟨hcoherent.built, fun f c a' hc hfinish => ?_⟩
  have hcoherent' : a'.skeleton.Coherent s.builders := by
    rw [Edit.edgeless_skeleton.finish c (fun _ => Edit.conserves_throw _) hfinish]
    exact hcoherent
  obtain ⟨region, hregion, hshaped⟩ :=
    hcoherent'.nested.exists_shaped hc (Cursor.frames_of_finish hfinish)
  exact ⟨hcoherent'.built, region, hregion, (Edit.passes_shapeProblems _).mpr ⟨hshaped, rfl⟩⟩

/-- Where the builder of the first function starts. -/
def bottom : Cursor :=
  ⟨⟨0⟩, .body ⟨0⟩, .function ⟨0⟩, []⟩

/-- A loop in the second branch of an `if`, which is gone on with twice, and a φ behind the `if`
that comes after other instructions. Another function is started in between. -/
def branchedLoop : List Call :=
  let yes := bottom.into ⟨0⟩ (.yes ⟨0⟩)
  let no : Cursor := { yes with list := .no ⟨0⟩ }
  let inner := no.into ⟨1⟩ (.loop ⟨1⟩)
  [.newFunction "main", .const bottom [1], .openIf bottom (some ⟨0⟩), .newFunction "other",
    .mov yes (some ⟨0⟩) [], .switchToElse yes, .openLoop no, .phi inner 1, .jump inner .leaveLoop,
    .closeLoop inner, .switchToElse no, .closeIf no, .const bottom [2, 3], .phi bottom 1]

theorem built_and_shaped_of_play_branchedLoop : ∃ s a', start.play branchedLoop = some s
    ∧ s.builders ⟨0⟩ = some bottom ∧ bottom.finish s.arena = .ok () a'
    ∧ s.arena.Built s.builders ∧ a'.Built s.builders
    ∧ ∃ region, a'.bodyRegion ⟨0⟩ = .ok region
      ∧ Edit.shapeProblems ⟨0⟩ region a' = .ok [] a' := by
  obtain ⟨s, hs, hbuilder, hfinish⟩ : ∃ s ∈ start.play branchedLoop,
      s.builders ⟨0⟩ = some bottom ∧ bottom.finish.result? s.arena = some () := by
    decide +kernel
  obtain ⟨a', hfinish⟩ := Edit.result?_eq_some.mp hfinish
  obtain ⟨hbuilt, hend⟩ := built_and_shaped_of_play hs
  exact ⟨s, a', hs, hbuilder, hfinish, hbuilt, hend ⟨0⟩ bottom a' hbuilder hfinish⟩

end Session

end ShaderCompiler
