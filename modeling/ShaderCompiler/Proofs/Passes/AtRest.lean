import ShaderCompiler.Proofs.DeadCode.Again
import ShaderCompiler.Proofs.DeadCode.Remains
import ShaderCompiler.Proofs.Forwarding.Settled

/-!
# Functions at rest

A function is at rest if passes find nothing to do: all uses of copies are stuck, and it is clear of
dead code. Each pass brings about its own half of this and keeps the other one, since taking out
instructions makes no use foldable, and since a scan without the dead instructions marks what it
marked with them.
-/

namespace ShaderCompiler

namespace Arena

variable {a₀ a a' : Arena} {fs : List FunctionId} {e f : FunctionId} {g : Function} {T : Scope}
  {Ts : List Scope} {V : ValueId → Prop} {U : UseId → Prop} {region r : Region} {s : LiveSet}
  {b : BlockId} {i : InstrId} {u : UseId}

/-- A function is clear of dead code, and caches nothing stale. -/
def Finished (a : Arena) (f : FunctionId) : Prop :=
  a.Clear f false ∧ a.Trimmed f

/-! ### What passes leave -/

/-- What passes rely on at their start: functions pass the check, their use-lists hold uses of
their own that read the value, and dead code can be removed. -/
structure Ready (a : Arena) (fs : List FunctionId) : Prop where
  accepted : ∀ f ∈ fs, a.Accepted f
  lists : a.ListsRead (fs.map a.scopeOf)
  own : a.ListsOwn (fs.map a.scopeOf)
  loops : ∀ f ∈ fs, a.LoopsAfterBlocks f
  known : ∀ f ∈ fs, a.IntrinsicsKnown f
  count : ∀ f ∈ fs, a.CountFits f

/-- What passes leave of functions that were ready in `a₀`. -/
structure Maintained (a₀ a : Arena) (fs : List FunctionId) : Prop where
  sound : a.Sound (fs.map a₀.scopeOf) (a₀.InUse (fs.map a₀.scopeOf))
  evolves : ∀ f ∈ fs, Evolves (a₀.scopeOf f) a₀ a
  values : a.code.values = a₀.code.values
  functions : a.code.functions = a₀.code.functions
  instrs : a.frame.instrs = a₀.frame.instrs
  uses : ∀ u, ¬ a₀.InUse (fs.map a₀.scopeOf) u → a.code.uses[u.idx]? = a₀.code.uses[u.idx]?

theorem Ready.maintained (h : a.Ready fs) : Maintained a a fs :=
  ⟨sound_of_accepted fs h.accepted h.lists h.own, fun _ _ => .refl _ a, rfl, rfl, rfl,
    fun _ _ => rfl⟩

/-- Dead code can be removed from what passes have left. -/
theorem Prunable.evolve (hp : a₀.Prunable (DefinedBy Ts) U T f g region s) (hT : T ∈ Ts)
    (he : Evolves T a₀ a) (hs : a.Sound Ts U) :
    ∃ g', a.Prunable (DefinedBy Ts) U T f g' region s := by
  obtain ⟨g', hg', -, -, hcount⟩ := he.exists_function hp.function
  refine ⟨g', hg', (he.bodyRegion_eq hp.function).trans hp.bodyRegion, hcount ▸ hp.room,
    hp.structured, hp.loops, hp.nodup, hp.blocks, hp.ifs, hs.wired T hT, hs.homed T hT, ?_, ?_,
    hs.lists, fun u hu => (hs.reads T hT u hu).1⟩
  · intro v hv x' hx'
    obtain ⟨x, hx⟩ := hp.wired.value v hv
    obtain ⟨hindex, -⟩ := he.value_eq hx hx'
    rw [hindex, hcount]
    exact hp.index v hv x hx
  · intro b hb i hi ins' hins' op dest srcs base hact'
    obtain ⟨hi₀, ins, hins, hact, -⟩ := he.exists_before hp.wired hb hi hins'
    exact hp.known b hb i hi₀ ins hins op dest srcs base (hact ▸ hact')

namespace Maintained

variable (h : Maintained a₀ a fs) (h₀ : a₀.Ready fs)

include h h₀

theorem exists_prunable (hf : f ∈ fs) : ∃ g region s,
    a.Prunable (DefinedBy (fs.map a₀.scopeOf)) (a₀.InUse (fs.map a₀.scopeOf)) (a₀.scopeOf f) f g
      region s ∧ region.Owned a₀ (.function f) := by
  obtain ⟨_, g, region, _, _, hc⟩ := (h₀.accepted f hf).checked
  obtain ⟨s, hp⟩ := hc.prunable fs hf h₀.accepted h₀.lists (h₀.loops f hf) (h₀.known f hf)
    (h₀.count f hf)
  obtain ⟨g', hp'⟩ := hp.evolve (List.mem_map_of_mem hf) (h.evolves f hf) h.sound
  exact ⟨g', region, s, hp', hc.shaped.owned⟩

theorem blocksOf (hf : f ∈ fs) : a.blocksOf f = .ok (a₀.scopeOf f).blocks := by
  obtain ⟨_, g, region, _, _, hc⟩ := (h₀.accepted f hf).checked
  rw [(h.evolves f hf).blocksOf_eq hc.function, hc.scope_blocks, hc.blocksOf]

theorem exists_isCopy (hf : f ∈ fs) (hb : b ∈ (a₀.scopeOf f).blocks) (hi : i ∈ a.body b)
    {ins : Instr} {p : Alu} (hins : a.instrs[i.idx]? = some ins) (hact : ins.action = .alu p) :
    ∃ r, a.isCopy p = .ok r := by
  obtain ⟨_, g, region, _, _, hc⟩ := (h₀.accepted f hf).checked
  exact (h.evolves f hf).exists_isCopy h.values (fun b hb i hi => hc.instrFits hb hi) hc.wired
    (h.sound.wired _ (List.mem_map_of_mem hf)) hb hi hins hact

/-! ### Forwarding -/

/-- Forwarding the copies of a function leaves the uses of these copies stuck. -/
theorem forward (hf : f ∈ fs) {Q : BlockId → Prop}
    (hpending : a.Pending (fs.map a₀.scopeOf) fun b _ _ _ => Q b ∨ b ∈ (a₀.scopeOf f).blocks)
    {progress : Bool} (hrun : Edit.forwardCopies f a = .ok progress a') :
    Maintained a₀ a' fs ∧ (a'.Pending (fs.map a₀.scopeOf) fun b _ _ _ => Q b)
      ∧ (progress = false → a'.code = a.code ∧ a'.values = a.values)
      ∧ (progress = true → ¬ a.Settled (fs.map a₀.scopeOf)) := by
  obtain ⟨hs, hsteps, hpending', hidle, hmoved⟩ := Edit.forwardCopies_spec (List.mem_map_of_mem hf)
    (h.blocksOf h₀ hf) h.sound hpending hrun
  refine ⟨⟨hs, fun e he => (h.evolves e he).trans (hsteps.evolves_of_mem (List.mem_map_of_mem he)),
    hsteps.values.trans h.values, hsteps.functions.trans h.functions,
    (Edit.forwardCopies_frame hrun).instrs.trans h.instrs,
    fun u hu => (hsteps.uses hu).trans (h.uses u hu)⟩,
    hpending', fun hfalse => ?_, hmoved⟩
  refine ⟨Edit.code_of_preserve (hidle hfalse), ?_⟩
  obtain rfl := Edit.preserve_eq_ok.mp (hidle hfalse)
  rfl

/-- Forwarding finds nothing to do if all uses of copies are stuck. -/
theorem forward_idle (hf : f ∈ fs) (hset : a.Settled (fs.map a₀.scopeOf)) (ht : a.Trimmed f) :
    Edit.forwardCopies f a = .ok false a :=
  Edit.forwardCopiesWithin_idle h.sound hset (List.mem_map_of_mem hf) (h.blocksOf h₀ hf)
    (fun _ hb _ hi _ _ => h.exists_isCopy h₀ hf hb hi) _ (Edit.preserve_all ht)

/-! ### Removing dead code -/

/-- Removing the dead code of a function goes well and leaves it finished, as well as functions that
are. It takes something out exactly if it tells so. -/
theorem sweep (hf : f ∈ fs) : ∃ progress a', Edit.removeDead f false a = .ok progress a'
    ∧ Maintained a₀ a' fs
    ∧ (a.Settled (fs.map a₀.scopeOf) → a'.Settled (fs.map a₀.scopeOf))
    ∧ (∀ e ∈ fs, (e ≠ f → a.Finished e) → a'.Finished e)
    ∧ (∀ b, (a'.body b).Sublist (a.body b))
    ∧ (progress = true → ∃ b ∈ (a₀.scopeOf f).blocks, a'.body b ≠ a.body b)
    ∧ (progress = false → a'.code = a.code) := by
  obtain ⟨g, region, s, hp, howned⟩ := h.exists_prunable h₀ hf
  obtain ⟨progress, a', hrun, hswept, hprogress⟩ := hp.run false
  have hswept : Swept _ _ a region (a.scanned false region s).instrs a' := hswept
  have hframe := Edit.removeDead_frame hrun
  obtain ⟨hthin, hagain⟩ := Edit.removeDead_repeats hp.bodyRegion hp.nodup hrun
  have hmaintained : Maintained a₀ a' fs := ⟨h.sound.sweep hswept hp,
    fun e he => (h.evolves e he).trans hswept.evolves, hswept.values.trans h.values,
    hswept.functions.trans h.functions, hframe.instrs.trans h.instrs,
    fun u hu => (congrArg (·[u.idx]?) hswept.uses).trans (h.uses u hu)⟩
  refine ⟨progress, a', hrun, hmaintained, fun hset => Pending.sweep hswept hp h.sound hset,
    fun e he hfinished => ?_, hthin.sublist, fun htrue => ?_, fun hfalse => ?_⟩
  · have htrimmed : a'.Trimmed e := hframe.trimmed fun hne => (hfinished hne).2
    by_cases hne : e = f
    · subst hne
      exact ⟨hagain hthin.scene (fun _ _ => rfl) htrimmed, htrimmed⟩
    · obtain ⟨_, r, _, hpe, howned_e⟩ := h.exists_prunable h₀ he
      exact ⟨(hfinished hne).1.congr hpe.bodyRegion hpe.nodup hthin.scene
        (fun b hb => hthin.other b fun hb' => hne (howned_e.function_eq howned hb hb')) htrimmed,
        htrimmed⟩
  · obtain ⟨i, ⟨b, hb, hib : i ∈ a.body b⟩, hdead⟩ := hprogress.mp htrue
    refine ⟨b, hp.blocks hb, fun heq => hdead ?_⟩
    exact (hswept.mem_body_iff.mp (heq ▸ hib)).2 hb
  · refine hswept.code_eq fun i hi => ?_
    by_contra hdead
    rw [hprogress.mpr ⟨i, hi, hdead⟩] at hfalse
    cases hfalse

end Maintained

/-! ### What changed -/

/-- A block of the function holds other instructions, or a source or a condition of the function is
another one. -/
def Altered (a a' : Arena) (f : FunctionId) : Prop :=
  (∃ b ∈ (a.scopeOf f).blocks, a'.body b ≠ a.body b)
    ∨ ∃ u, a.Reads (a.scopeOf f) u ∧ a'.code.uses[u.idx]? ≠ a.code.uses[u.idx]?

theorem aluPosition_of_frame (hu : a'.code.uses = a.code.uses)
    (hi : a'.frame.instrs = a.frame.instrs) (u : UseId) : a'.aluPosition u = a.aluPosition u := by
  have huse : a'.code.use u = a.code.use u := by rw [Arena.use, Arena.use, hu]
  rw [← aluPosition_code a', ← aluPosition_code a, aluPosition, aluPosition, huse]
  refine bind_congr fun use => ?_
  cases use.user with
  | none => rfl
  | some j =>
    have halu := congrArg (fun l => (l[j.idx]?).map (·.alu?)) hi
    simp only [frame, Array.getElem?_map, Option.map_map] at halu
    simp only [instr_code, bind_map_left, alu?_bare]
    rw [instr, instr]
    obtain ⟨hins', hins⟩ | ⟨ins', ins, hins', hins, hsame⟩ := map_eq_map_cases halu
    · rw [hins', hins]
    · change ins'.alu? = ins.alu? at hsame
      simp only [hins', hins, present, bind, Except.bind, hsame]

/-- Copies are told from other operations, and uses look through them, in the same way if only
instructions were taken out. -/
theorem turnable_of_frame (hv : a'.code.values = a.code.values) (hu : a'.code.uses = a.code.uses)
    (hc : a'.constructs = a.constructs) (hf : a'.code.functions = a.code.functions)
    (hi : a'.frame.instrs = a.frame.instrs) (p : Alu) :
    a'.isCopy p = a.isCopy p ∧ ∀ c u, a'.turnable p c u = a.turnable p c u := by
  have hcode : a'.code = { a.code with instrs := a'.code.instrs, blocks := a'.code.blocks } := by
    simp only [code, mk.injEq, true_and, and_true]
    exact ⟨hv, hu, hc, hf⟩
  constructor
  · rw [← isCopy_code, hcode, isCopy_moved, isCopy_code]
  · intro c u
    rw [← turnable_code, hcode, turnable_moved, turnable_code]
    intro t
    rw [← hcode, aluPosition_code, aluPosition_code, aluPosition_of_frame hu hi]

namespace Maintained

variable (h : Maintained a₀ a fs) (h₀ : a₀.Ready fs) (hsame : ∀ f ∈ fs, ¬ a₀.Altered a f)

include h h₀ hsame

theorem uses_eq : a.code.uses = a₀.code.uses := by
  refine Array.ext_getElem? fun k => ?_
  by_cases hu : a₀.InUse (fs.map a₀.scopeOf) ⟨k⟩
  · obtain ⟨T, hT, hread⟩ : ∃ T ∈ fs.map a₀.scopeOf, a₀.Reads T ⟨k⟩ := by
      rcases hu with hread | ⟨v, x, c, hv, hx, hmem⟩
      · exact hread
      · exact h₀.own v hv x hx c ⟨k⟩ hmem
    obtain ⟨f, hf, rfl⟩ := List.mem_map.mp hT
    by_contra hne
    exact hsame f hf (.inr ⟨⟨k⟩, hread, hne⟩)
  · exact h.uses ⟨k⟩ hu

omit h h₀ in
theorem body_eq (hT : T ∈ fs.map a₀.scopeOf) (hb : b ∈ T.blocks) : a.body b = a₀.body b := by
  obtain ⟨f, hf, rfl⟩ := List.mem_map.mp hT
  by_contra hne
  exact hsame f hf (.inl ⟨b, hb, hne⟩)

omit h₀ in
theorem reads_of_reads (hT : T ∈ fs.map a₀.scopeOf) (hu : a₀.Reads T u) : a.Reads T u := by
  obtain ⟨f, hf, rfl⟩ := List.mem_map.mp hT
  rcases hu with ⟨b, hb, i, hi, ins, hins, hmem⟩ | ⟨c, hc, con, yes, no, hcon, hshape⟩
  · obtain ⟨ins', hins', hact, hind⟩ := (h.evolves f hf).instr i ins hins
    refine .inl ⟨b, hb, i, ?_, ins', hins', Instr.sources_congr hact hind ▸ hmem⟩
    exact body_eq hsame hT hb ▸ hi
  · exact .inr ⟨c, hc, con, yes, no, (h.evolves f hf).constructs ▸ hcon, hshape⟩

/-- If nothing changed then uses that are stuck now were stuck before. -/
theorem settled_of_unaltered (hset : a.Settled (fs.map a₀.scopeOf)) :
    a₀.Settled (fs.map a₀.scopeOf) := by
  have hs₀ := h₀.maintained.sound
  intro i b p d x hi hx c u hu
  obtain ⟨hdef, -⟩ := hs₀.dest hi
  obtain ⟨T, hT, hb, hmem, ins, hins, -, hact, hdest, hcopy⟩ := hi
  obtain ⟨f, hf, rfl⟩ := List.mem_map.mp hT
  have hev := h.evolves f hf
  obtain ⟨hsameCopy, hsameTurn⟩ := turnable_of_frame h.values (h.uses_eq h₀ hsame) hev.constructs
    h.functions h.instrs p
  -- The copy still stands where it stood, and the use is still listed.
  have hstands : a.StandsAs (fs.map a₀.scopeOf) i b p d := by
    obtain ⟨ins', hins', hact', -⟩ := hev.instr i ins hins
    have hmem' : i ∈ a.body b := body_eq hsame hT hb ▸ hmem
    exact ⟨_, hT, hb, hmem', ins', hins', (h.sound.homed _ hT).place b hb i hmem' ins' hins',
      hact'.trans hact, hdest, hsameCopy.trans hcopy⟩
  obtain ⟨x', hx', -⟩ := hev.value d x hx
  obtain ⟨hU, -, use, huse, hval, hc⟩ := hs₀.entry hdef hx hu
  obtain ⟨S, hS, hread⟩ := h₀.own d hdef x hx c u hu
  obtain ⟨-, hatt⟩ := h.sound.reads S hS u (h.reads_of_reads hsame hS hread)
  obtain ⟨k, huse'⟩ := use_of_uses (h.uses_eq h₀ hsame) huse
  have hlisted : u ∈ x'.usesOf c := hc ▸ h.sound.listed hU hatt huse' hval hx'
  rw [← hsameTurn]
  exact hset i b p d x' hstands hx' c u hlisted

end Maintained

end Arena

end ShaderCompiler
