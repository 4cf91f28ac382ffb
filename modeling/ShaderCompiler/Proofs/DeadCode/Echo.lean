import ShaderCompiler.Proofs.DeadCode.Ends

/-!
# Scans of thinned out blocks

A scan sees what instructions do, and which stand in which block. With the same marks it comes to the
same verdict on an instruction wherever others are missing. Marks only grow, so an instruction that is
dead at the end of some rounds was dead at each visit and has marked nothing. Without such
instructions the rounds are the same: they leave the same marks and the same verdicts.
-/

namespace ShaderCompiler

variable {α β : Type} {ins₂ : Instr} {n : Int}

namespace Arena

variable {a a' a₂ : Arena} {b : BlockId} {i : InstrId}

/-- What a scan sees of an arena, apart from which instructions stand where. -/
def scene (a : Arena) : Arena :=
  { a.code with
    instrs := a.code.instrs.map fun ins => { ins with block := none }
    blocks := a.code.blocks.map fun bb => { bb with instrs := [] } }

/-- The instructions that stand in blocks. -/
def heldIn (a : Arena) (bs : List BlockId) : Set InstrId :=
  { i | ∃ b ∈ bs, i ∈ a.body b }

theorem scene_of_code (h : a'.code = a.code) : a'.scene = a.scene := by
  rw [scene, scene, h]

theorem scene_of_unmarked (h : a'.unmarked = a.unmarked) : a'.scene = a.scene :=
  scene_of_code (code_of_unmarked h)

theorem body_of_unmarked (h : a'.unmarked = a.unmarked) : a'.body = a.body :=
  body_of_code (code_of_unmarked h)

theorem scene_without (a : Arena) (b : BlockId) (i : InstrId) : (a.without b i).scene = a.scene := by
  simp only [scene, code, without, modifyInstr, modifyBlock, Array.map_map]
  congr 1 <;> exact map_modify_of_eq fun _ => rfl

section Scene

variable (h : a₂.scene = a.scene)

include h

theorem number?_of_scene (v : ValueId) : a₂.number? v = a.number? v :=
  number?_of_values (congrArg (·.values) h) v

theorem readNumber?_of_scene (u : UseId) : a₂.readNumber? u = a.readNumber? u :=
  readNumber?_of_uses (congrArg (·.values) h) (congrArg (·.uses) h) u

theorem instr_of_scene {ins : Instr} (hins : a.instrs[i.idx]? = some ins) :
    ∃ ins₂, a₂.instrs[i.idx]? = some ins₂ ∧ ins₂.action = ins.action
      ∧ ins₂.indirect = ins.indirect := by
  have hsame := congrArg
    (fun x : Arena => (x.instrs[i.idx]?).map fun ins => (ins.action, ins.indirect)) h
  simp only [scene, Array.getElem?_map, code_instrs, Option.map_map, hins, Option.map_some] at hsame
  obtain ⟨ins₂, hins₂, heq⟩ := Option.map_eq_some_iff.mp hsame
  exact ⟨ins₂, hins₂, (Prod.mk.inj heq).1, (Prod.mk.inj heq).2⟩

theorem block_of_scene {bb : Block} (hbb : a.blocks[b.idx]? = some bb) :
    ∃ bb₂, a₂.blocks[b.idx]? = some bb₂ ∧ bb₂.preds = bb.preds := by
  have hsame := congrArg (fun x : Arena => (x.blocks[b.idx]?).map (·.preds)) h
  simp only [scene, Array.getElem?_map, code_blocks, Option.map_map, hbb, Option.map_some] at hsame
  obtain ⟨bb₂, hbb₂, heq⟩ := Option.map_eq_some_iff.mp hsame
  exact ⟨bb₂, hbb₂, heq⟩

end Scene

end Arena

namespace Scan

open Edit

variable {s s' s₁ t : LiveSet} {a a' a₁ a₂ a₂' a₂₁ : Arena} {ins : Instr} {i : InstrId} {b p : BlockId}
  {preheader : Option BlockId}

/-! ### Looks -/

/-- A scan that leaves the arena alone, and sees only the scene. -/
def Looks (x : Scan α) : Prop :=
  ∀ {s a y s' a'}, x.Gives s a y s' a' →
    a' = a ∧ s ≤ s' ∧ ∀ {a₂ : Arena}, a₂.scene = a.scene → x.Gives s a₂ y s' a₂

theorem looks_view (x : Except Fault α) : (liftM (liftM x : Edit α) : Scan α).Looks := by
  intro s a y s' a' h
  obtain ⟨hlift, rfl⟩ := lift_gives.mp h
  obtain ⟨hx, rfl⟩ := liftM_eq_ok.mp hlift
  exact ⟨rfl, le_rfl, fun _ => .except hx⟩

theorem looks_marks : HoldsOfMarks fun _ x => x.Looks where
  pure _ := by
    intro s a y s' a' h
    obtain ⟨rfl, rfl, rfl⟩ := pure_gives.mp h
    exact ⟨rfl, le_rfl, fun _ => .pure _⟩
  bind hx hk := by
    intro s a y s' a' h
    obtain ⟨z, s₁, a₁, hfirst, hrest⟩ := bind_gives.mp h
    obtain ⟨rfl, hle, hagain⟩ := hx hfirst
    obtain ⟨rfl, hle', hagain'⟩ := hk z hrest
    exact ⟨rfl, hle.trans hle', fun hscene => .bind (hagain hscene) (hagain' hscene)⟩
  view {_ x} _ := looks_view x
  isDestLive dest := by
    intro s a y s' a' h
    obtain ⟨rfl, rfl, v, n, rfl, hn, hy⟩ := isDestLive_eq_ok.mp h
    refine ⟨rfl, le_rfl, fun hscene => isDestLive_eq_ok.mpr ⟨rfl, rfl, v, n, rfl, ?_, hy⟩⟩
    rwa [Arena.number?_of_scene hscene]
  markUse u := by
    intro s a y s' a' h
    obtain ⟨rfl, n, hn, hmark⟩ := markUse_eq_ok.mp h
    refine ⟨rfl, (LiveSet.mark_eq_ok hmark).1, fun hscene => markUse_eq_ok.mpr ⟨rfl, n, ?_, hmark⟩⟩
    rwa [Arena.readNumber?_of_scene hscene]
  construct c := by
    intro s a y s' a' h
    obtain ⟨hc, rfl, rfl⟩ := look_gives.mp h
    refine ⟨rfl, le_rfl, fun hscene => .look ?_⟩
    rw [Arena.construct_eq_ok] at hc ⊢
    exact (congrArg (·.constructs[c.idx]?) hscene).trans hc

theorem still_verdicts : HoldsOfVerdicts fun _ x => ∀ s a y s' a', x.Gives s a y s' a' → s' = s where
  pure _ _ _ _ _ _ h := (pure_gives.mp h).2.1.symm
  bind hx hk := by
    intro s a y s' a' h
    obtain ⟨z, s₁, a₁, hfirst, hrest⟩ := bind_gives.mp h
    exact (hk z _ _ _ _ _ hrest).trans (hx _ _ _ _ _ hfirst)
  view _ _ _ _ _ _ h := (lift_gives.mp h).2
  isDestLive _ _ _ _ _ _ h := (isDestLive_eq_ok.mp h).1

theorem isLive_congr (h : ins₂.action = ins.action) : isLive ins₂ = isLive ins := by
  rw [isLive, isLive, h]

theorem markSources_congr (h : ins₂.action = ins.action)
    (hind : ins₂.indirect = ins.indirect) :
    markSources preheader ins₂ = markSources preheader ins := by
  rw [markSources, markSources, h, hind, Instr.sources_congr h hind]

/-! ### Dead instructions -/

/-- A definition that is not marked. -/
def Unused (s : LiveSet) (a : Arena) (d : Option ValueId) : Prop :=
  ∃ v n, d = some v ∧ a.number? v = some n ∧ s.contains n = .ok false

/-- An instruction that a scan with these marks finds dead. -/
def Dead (s : LiveSet) (a : Arena) (i : InstrId) : Prop :=
  ∃ ins, a.instrs[i.idx]? = some ins ∧ ins.hasEffect = false ∧ ∀ d ∈ ins.definitions, Unused s a d

theorem isAnyLive_eq_false {vs : List ValueId} : (isAnyLive vs).Gives s a false s a
    ↔ ∀ v ∈ vs, Unused s a (some v) := by
  induction vs with
  | nil => exact iff_of_true (.pure _) (by simp)
  | cons v vs ih =>
    rw [List.forall_mem_cons, ← ih]
    constructor
    · intro h
      obtain ⟨y, t₁, a₁, hdest, hrest⟩ := bind_gives.mp h
      obtain ⟨rfl, rfl, hdest⟩ := isDestLive_eq_ok.mp hdest
      cases y with
      | true => cases hrest
      | false => exact ⟨hdest, hrest⟩
    · rintro ⟨hdest, hrest⟩
      exact .bind (isDestLive_eq_ok.mpr ⟨rfl, rfl, hdest⟩) hrest

theorem isLive_eq_false : (isLive ins).Gives s a false s a
    ↔ ins.hasEffect = false ∧ ∀ d ∈ ins.definitions, Unused s a d := by
  have hdest {d : Option ValueId} : (isDestLive d).Gives s a false s a ↔ Unused s a d := by
    simp [isDestLive_eq_ok, Unused]
  unfold isLive Instr.hasEffect Instr.definitions
  cases ins.action with
  | call _ _ | jump _ => exact iff_of_false nofun (by simp)
  | parallelCopy entries => simp only [isAnyLive_eq_false, List.forall_mem_map, true_and]
  | intrinsic op dest srcs base =>
    have hinfo : (∃ row, op.info = .ok row ∧ row.eliminable = true) ↔ (!op.isEliminable) = false := by
      cases h : op.info <;> simp [Intrinsic.isEliminable, h]
    rw [← hinfo]
    constructor
    · intro h
      obtain ⟨row, t₁, a₁, hrow, hrest⟩ := bind_gives.mp h
      obtain ⟨hlift, rfl⟩ := lift_gives.mp hrow
      obtain ⟨hinfo, rfl⟩ := liftM_eq_ok.mp hlift
      split at hrest
      case isTrue he =>
        refine ⟨⟨row, hinfo, he⟩, ?_⟩
        cases dest with
        | none => simp
        | some v => simpa using hdest.mp hrest
      case isFalse => cases hrest
    · rintro ⟨⟨row, hinfo, he⟩, hdefs⟩
      refine .bind (.except hinfo) ?_
      rw [if_pos he]
      cases dest with
      | none => exact .pure _
      | some v => exact hdest.mpr (hdefs _ (by simp))
  | _ => simpa using hdest

theorem fits_of_place {k : Nat} (h : s.place n = .ok (some k)) : s.Fits n := by
  unfold LiveSet.place at h
  split at h
  · split at h <;> cases h
  · split at h
    · exact ⟨by omega, by omega⟩
    · cases h

theorem contains_of_le (hle : s ≤ t) (h : t.contains n = .ok false) :
    s.contains n = .ok false := by
  by_cases hfit : s.Fits n
  · have hfit' : t.Fits n := by rwa [LiveSet.Fits, hle.1]
    rw [LiveSet.contains_of_fits hfit', Except.ok.injEq, decide_eq_false_iff_not] at h
    rw [LiveSet.contains_of_fits hfit, decide_eq_false fun hn => h (hle.2 hn)]
  · obtain ⟨p, hp, -⟩ := except_bind_eq_ok.mp h
    rw [LiveSet.place, hle.1] at hp
    cases p with
    | none => exact except_bind_eq_ok.mpr ⟨none, hp, rfl⟩
    | some k => exact absurd (fits_of_place hp) hfit

/-- With fewer marks, an instruction is dead as well. -/
theorem Dead.of_le (hle : s ≤ t) (h : Dead t a i) : Dead s a i := by
  obtain ⟨ins, hins, heffect, hdefs⟩ := h
  refine ⟨ins, hins, heffect, fun d hd => ?_⟩
  obtain ⟨v, n, hv, hn, hmark⟩ := hdefs d hd
  exact ⟨v, n, hv, hn, contains_of_le hle hmark⟩

theorem Dead.of_scene (hscene : a₂.scene = a.scene) (h : Dead s a i) : Dead s a₂ i := by
  obtain ⟨ins, hins, heffect, hdefs⟩ := h
  obtain ⟨ins₂, hins₂, hact, -⟩ := Arena.instr_of_scene hscene hins
  refine ⟨ins₂, hins₂, by rwa [Instr.hasEffect, hact], fun d hd => ?_⟩
  obtain ⟨v, n, hv, hn, hmark⟩ := hdefs d (Instr.definitions_congr hact ▸ hd)
  exact ⟨v, n, hv, (Arena.number?_of_scene hscene v).trans hn, hmark⟩

/-- What is dead has no effect. -/
theorem Dead.hasEffect (h : Dead s a i) : a.outline.effect i = false := by
  obtain ⟨ins, hins, heffect, -⟩ := h
  simp [Arena.outline, hins, heffect]

/-! ### One instruction -/

/-- A verdict depends on the scene and the marks, and so does what is marked. -/
theorem instr_spec {y : Bool × Bool} (h : (instr preheader b i).Gives s a y s' a') :
    ∃ ins live, a.instrs[i.idx]? = some ins ∧ conclude preheader b i live a = .ok y.1 a' ∧ s ≤ s'
      ∧ (live = false ↔ Dead s a i)
      ∧ (live = false → s' = s ∧ y.2 = false) ∧ ∀ {a₂ z a₂'}, a₂.scene = a.scene →
        conclude preheader b i live a₂ = .ok z a₂' →
          (instr preheader b i).Gives s a₂ (z, y.2) s' a₂' := by
  rw [instr] at h ⊢
  obtain ⟨ins, s₁, a₁, hlook, h₁⟩ := bind_gives.mp h
  obtain ⟨live, s₂, a₂, hlive, h₂⟩ := bind_gives.mp h₁
  obtain ⟨changed, s₃, a₃, hmark, h₃⟩ := bind_gives.mp h₂
  obtain ⟨removed, s₄, a₄, hlast, h₄⟩ := bind_gives.mp h₃
  obtain ⟨rfl, rfl, rfl⟩ := pure_gives.mp h₄
  obtain ⟨hins, rfl, rfl⟩ := look_gives.mp hlook
  obtain ⟨hend, rfl⟩ := lift_gives.mp hlast
  obtain rfl := still_verdicts.isLive ins _ _ _ _ _ hlive
  obtain ⟨rfl, -, hlive'⟩ := looks_marks.isLive ins hlive
  have hmarks : (if live then markSources preheader ins else pure false).Looks := by
    cases live
    · exact looks_marks.pure false
    · exact looks_marks.markSources preheader ins
  obtain ⟨rfl, hle, hmark'⟩ := hmarks hmark
  rw [Arena.instr_eq_ok] at hins
  refine ⟨ins, live, hins, hend, hle, ⟨fun hdead => ⟨ins, hins, isLive_eq_false.mp (hdead ▸ hlive)⟩, ?_⟩,
    ?_, ?_⟩
  · rintro ⟨ins', hins', hdead⟩
    cases hins.symm.trans hins'
    cases hlive.symm.trans (isLive_eq_false.mpr hdead)
    rfl
  · rintro rfl
    obtain ⟨rfl, rfl, -⟩ := pure_gives.mp hmark
    exact ⟨rfl, rfl⟩
  · intro a₄ z a₅ hscene hend
    obtain ⟨ins₂, hins₂, hact, hind⟩ := Arena.instr_of_scene hscene hins
    refine .bind (.look (Arena.instr_eq_ok.mpr hins₂)) ?_
    rw [isLive_congr hact, markSources_congr hact hind]
    exact .bind (hlive' hscene) (.bind (hmark' hscene) (.bind (.lift hend) (.pure _)))

/-! ### Verdicts of a run -/

/-- A run inside rounds leaves verdicts on some instructions. None with a verdict of live is dead
with the marks at the end, and all with a verdict of dead are dead with the marks at the start. -/
structure Judged (S : Set InstrId) (s : LiveSet) (a : Arena) (s' : LiveSet) (a' : Arena) : Prop where
  le : s ≤ s'
  unmarked : a'.unmarked = a.unmarked
  live : ∀ i ∈ S, a'.verdict i = true → ¬ Dead s' a i
  dead : ∀ i ∈ S, a'.verdict i = false → Dead s a i
  other : ∀ i ∉ S, a'.verdict i = a.verdict i

namespace Judged

variable {S S' : Set InstrId}

theorem of_unmarked (hle : s ≤ s') (hsame : a'.unmarked = a.unmarked)
    (hverdict : a'.verdict = a.verdict) : Judged ∅ s a s' a' :=
  ⟨hle, hsame, by simp, by simp, fun i _ => congrFun hverdict i⟩

theorem record {ins : Instr} (hins : a.instrs[i.idx]? = some ins) (hle : s ≤ s') {live : Bool}
    (hdead : live = false ↔ Dead s a i) :
    Judged {i} s a s' (a.modifyInstr i fun ins => { ins with live := live }) := by
  have hverdict : (a.modifyInstr i fun ins => { ins with live := live }).verdict i = live := by
    rw [Arena.verdict_record hins, if_pos rfl]
  refine ⟨hle, a.unmarked_record i live, ?_, ?_, fun j hj => ?_⟩
  · rintro j rfl hlive hj
    rw [hverdict] at hlive
    cases hlive.symm.trans (hdead.mpr (hj.of_le hle))
  · rintro j rfl hlive
    exact hdead.mp (hverdict.symm.trans hlive)
  · exact (Arena.verdict_record hins live j).trans (if_neg hj)

theorem scene (h : Judged S s a s' a') : a'.scene = a.scene :=
  Arena.scene_of_unmarked h.unmarked

theorem body (h : Judged S s a s' a') : a'.body = a.body :=
  Arena.body_of_unmarked h.unmarked

variable (h : Judged S s a s₁ a₁) (h' : Judged S' s₁ a₁ s' a')

include h h'

theorem verdict_trans (hi : i ∈ S) (hlive : a₁.verdict i = true) : a'.verdict i = true := by
  by_cases hi' : i ∈ S'
  · by_contra hdead
    exact h.live i hi hlive ((h'.dead i hi' (by simpa using hdead)).of_scene h.scene.symm)
  · rw [h'.other i hi', hlive]

theorem trans : Judged (S ∪ S') s a s' a' where
  le := h.le.trans h'.le
  unmarked := h'.unmarked.trans h.unmarked
  live i hi hlive hdead := by
    by_cases hi' : i ∈ S'
    · exact h'.live i hi' hlive (hdead.of_scene h.scene)
    · rw [h'.other i hi'] at hlive
      exact h.live i (hi.resolve_right hi') hlive (hdead.of_le h'.le)
  dead i hi hdead := by
    by_cases hi' : i ∈ S'
    · exact ((h'.dead i hi' hdead).of_le h.le).of_scene h.scene.symm
    · rw [h'.other i hi'] at hdead
      exact h.dead i (hi.resolve_right hi') hdead
  other i hi := by
    obtain ⟨hi, hi'⟩ := not_or.mp hi
    rw [h'.other i hi', h.other i hi]

end Judged

/-- A run inside rounds that meets only instructions `T` of `S`, and leaves on them the verdicts that
another run has left. -/
structure Follows (S : Set InstrId) (T : InstrId → Bool) (a' a₂ a₂' : Arena) : Prop where
  unmarked : a₂'.unmarked = a₂.unmarked
  agree : ∀ i ∈ S, T i = true → a₂'.verdict i = a'.verdict i
  other : ∀ i ∉ S, a₂'.verdict i = a₂.verdict i

theorem Follows.trans {S S' : Set InstrId} {T : InstrId → Bool} (h : Follows S T a₁ a₂ a₂₁)
    (h' : Follows S' T a' a₂₁ a₂') (hother : ∀ i ∉ S', a'.verdict i = a₁.verdict i) :
    Follows (S ∪ S') T a' a₂ a₂' where
  unmarked := h'.unmarked.trans h.unmarked
  agree i hi hT := by
    by_cases hi' : i ∈ S'
    · exact h'.agree i hi' hT
    · rw [h'.other i hi', hother i hi', h.agree i (hi.resolve_right hi') hT]
  other i hi := by
    obtain ⟨hi, hi'⟩ := not_or.mp hi
    rw [h'.other i hi', h.other i hi]

/-! ### Inside rounds -/

/-- A run of `x` inside rounds is repeated by `x₂`, with the same marks and the result that `q` gives,
where instructions of `bs` are missing on which the verdict is dead. -/
def Echoes (bs : List BlockId) (q : α → α) (x x₂ : Scan α) : Prop :=
  ∀ ⦃s a y s' a'⦄, x.Gives s a y s' a' → Judged (a.heldIn bs) s a s' a'
    ∧ ∀ {T : InstrId → Bool} {a₂}, a₂.scene = a.scene → (∀ b ∈ bs, a₂.body b = (a.body b).filter T) →
      (∀ i ∈ a.heldIn bs, a'.verdict i = true → T i = true) →
        ∃ a₂', x₂.Gives s a₂ (q y) s' a₂' ∧ Follows (a.heldIn bs) T a' a₂ a₂'

namespace Echoes

variable {bs cs : List BlockId} {q : α → α} {r : β → β} {x x₂ : Scan α}

/-- A run that leaves verdicts alone. -/
theorem of_unmarked (h : ∀ {s a y s' a'}, x.Gives s a y s' a' → s ≤ s' ∧ a'.unmarked = a.unmarked
      ∧ a'.verdict = a.verdict ∧ ∀ {a₂ : Arena}, a₂.scene = a.scene →
        ∃ a₂', x₂.Gives s a₂ (q y) s' a₂' ∧ a₂'.unmarked = a₂.unmarked
          ∧ a₂'.verdict = a₂.verdict) : Echoes [] q x x₂ := by
  intro s a y s' a' hrun
  have hnone : a.heldIn [] = ∅ := by simp [Arena.heldIn]
  obtain ⟨hle, hsame, hverdict, hagain⟩ := h hrun
  rw [hnone]
  refine ⟨.of_unmarked hle hsame hverdict, fun hscene _ _ => ?_⟩
  obtain ⟨a₂', hrun₂, hsame₂, hverdict₂⟩ := hagain hscene
  exact ⟨a₂', hrun₂, hsame₂, by simp, fun i _ => congrFun hverdict₂ i⟩

theorem looks (hx : x.Looks) : Echoes [] id x x := by
  refine of_unmarked fun hrun => ?_
  obtain ⟨rfl, hle, hagain⟩ := hx hrun
  exact ⟨hle, rfl, rfl, fun hscene => ⟨_, hagain hscene, rfl, rfl⟩⟩

theorem pure {y z : α} (h : z = q y) : Echoes [] q (pure y) (pure z) := by
  refine of_unmarked fun hrun => ?_
  obtain ⟨rfl, rfl, rfl⟩ := pure_gives.mp hrun
  exact ⟨le_rfl, rfl, rfl, fun _ => ⟨_, h ▸ .pure z, rfl, rfl⟩⟩

theorem bind {k k₂ : α → Scan β} {w : α → List BlockId} {ds : List BlockId} (hx : Echoes bs q x x₂)
    (hk : ∀ y, Echoes (w y) r (k y) (k₂ (q y))) (hds : ∀ y b, b ∈ ds ↔ b ∈ bs ∨ b ∈ w y) :
    Echoes ds r (x >>= k) (x₂ >>= k₂) := by
  intro s a y s' a' hrun
  obtain ⟨z, s₁, a₁, hfirst, hrest⟩ := bind_gives.mp hrun
  obtain ⟨hjudged, hagain⟩ := hx hfirst
  obtain ⟨hjudged', hagain'⟩ := hk z hrest
  have hheld : a.heldIn ds = a.heldIn bs ∪ a₁.heldIn (w z) := by
    ext i
    simp [Arena.heldIn, hds z, hjudged.body, or_and_right, exists_or]
  rw [hheld]
  refine ⟨hjudged.trans hjudged', fun {T a₂} hscene hbody hT => ?_⟩
  obtain ⟨a₂₁, hrun₂, hfollows⟩ := hagain hscene (fun b hb => hbody b ((hds z b).mpr (.inl hb)))
    fun i hi hlive => hT i (.inl hi) (hjudged.verdict_trans hjudged' hi hlive)
  obtain ⟨a₂', hrun₂', hfollows'⟩ := hagain'
    ((Arena.scene_of_unmarked hfollows.unmarked).trans (hscene.trans hjudged.scene.symm))
    (fun b hb => by
      rw [Arena.body_of_unmarked hfollows.unmarked, hjudged.body, hbody b ((hds z b).mpr (.inr hb))])
    fun i hi hlive => hT i (.inr hi) hlive
  exact ⟨a₂', .bind hrun₂ hrun₂', hfollows.trans hfollows' hjudged'.other⟩

theorem countRound : Echoes [] id (liftM (count fun c => { c with loopRounds := c.loopRounds + 1 }))
    (liftM (count fun c => { c with loopRounds := c.loopRounds + 1 })) := by
  refine of_unmarked fun hrun => ?_
  obtain ⟨hcount, rfl⟩ := lift_gives.mp hrun
  cases hcount
  exact ⟨le_rfl, rfl, rfl, fun _ => ⟨_, .lift rfl, rfl, rfl⟩⟩

theorem never (h : ∀ {s a y s' a'}, ¬ x.Gives s a y s' a') : Echoes bs q x x₂ :=
  fun _ _ _ _ _ hrun => absurd hrun h

theorem rounds {round : Scan Bool} (h : Echoes bs id round round) (n : Nat) :
    Echoes bs id (rounds round n) (rounds round n) := by
  induction n with
  | zero => exact never fun {_ _ _ _ _} hrun => by cases hrun
  | succ n ih =>
    refine countRound.bind (w := fun _ => bs) (fun _ => h.bind
      (w := fun again => if again then bs else []) (fun again => ?_) fun again b => ?_) (by simp)
    · cases again with
      | true => exact ih
      | false => exact pure (y := ()) rfl
    · cases again <;> simp

end Echoes

/-- A visit of one instruction is repeated, or left out if the verdict is dead. -/
theorem follows_instr {y : Bool × Bool} (h : (instr (some p) b i).Gives s a y s' a') :
    Judged {i} s a s' a' ∧ ∀ {T : InstrId → Bool} {a₂ : Arena}, a₂.scene = a.scene →
      (a'.verdict i = true → T i = true) → ∃ a₂', Follows {i} T a' a₂ a₂'
        ∧ if T i then (instr (some p) b i).Gives s a₂ y s' a₂'
          else y = (false, false) ∧ s' = s ∧ a₂' = a₂ := by
  obtain ⟨ins, live, hins, hend, hle, hdead, hskip, hagain⟩ := instr_spec h
  obtain ⟨hy, rfl⟩ := conclude_some.mp hend
  refine ⟨.record hins hle hdead, fun {T a₂} hscene hT => ?_⟩
  cases hTi : T i with
  | true =>
    obtain ⟨ins₂, hins₂, -, -⟩ := Arena.instr_of_scene hscene hins
    refine ⟨_, ⟨a₂.unmarked_record i live, ?_, fun j hj => ?_⟩,
      hagain hscene (conclude_some.mpr ⟨hy, rfl⟩)⟩
    · rintro j rfl -
      rw [Arena.verdict_record hins, Arena.verdict_record hins₂, if_pos rfl, if_pos rfl]
    · exact (Arena.verdict_record hins₂ live j).trans (if_neg hj)
  | false =>
    rw [Arena.verdict_record hins, if_pos rfl] at hT
    obtain ⟨rfl, hz⟩ := hskip (by cases live <;> simp_all)
    refine ⟨a₂, ⟨rfl, ?_, fun _ _ => rfl⟩, Prod.ext hy hz, rfl, rfl⟩
    rintro j rfl hj
    cases hTi.symm.trans hj

theorem echo_instrsBelow {l rest : List InstrId} {y : Bool × Bool} (hbody : a.body b = l ++ rest)
    (h : (instrsBelow (some p) b l.length).Gives s a y s' a') :
    Judged { i | i ∈ l } s a s' a' ∧ ∀ {T : InstrId → Bool} {a₂ rest₂}, a₂.scene = a.scene →
      a₂.body b = l.filter T ++ rest₂ → (∀ i ∈ l, a'.verdict i = true → T i = true) →
        ∃ a₂', (instrsBelow (some p) b (l.filter T).length).Gives s a₂ y s' a₂'
          ∧ Follows { i | i ∈ l } T a' a₂ a₂' := by
  induction l using List.reverseRecOn generalizing s a y rest with
  | nil =>
    obtain ⟨rfl, rfl, rfl⟩ := pure_gives.mp h
    have hnone : { i : InstrId | i ∈ ([] : List InstrId) } = ∅ := by simp
    rw [hnone]
    exact ⟨.of_unmarked le_rfl rfl rfl, fun {T a₂ rest₂} _ _ _ =>
      ⟨a₂, .pure _, rfl, by simp, fun _ _ => rfl⟩⟩
  | append_singleton l i ih =>
    rw [List.length_append, List.length_singleton] at h
    rw [List.append_assoc, List.singleton_append] at hbody
    obtain ⟨j, z, w, s₂, a₂, hj, hinstr, hrest, rfl⟩ := exists_of_instrsBelow h
    obtain rfl : i = j := by simpa [hbody] using hj
    have hset : { j | j ∈ l ++ [i] } = {i} ∪ { j | j ∈ l } := by
      ext j
      simp [or_comm]
    obtain ⟨hone, hagain⟩ := follows_instr hinstr
    obtain ⟨hjudged, hagain'⟩ := ih (hone.body ▸ hbody) hrest
    rw [hset]
    refine ⟨hone.trans hjudged, fun {T a₄ rest₂} hscene hbody₂ hT => ?_⟩
    obtain ⟨a₅, hfollows, hvisit⟩ := hagain hscene fun hlive =>
      hT i (by simp) (hone.verdict_trans hjudged rfl hlive)
    have hscene₅ : a₅.scene = a₂.scene :=
      (Arena.scene_of_unmarked hfollows.unmarked).trans (hscene.trans hone.scene.symm)
    cases hTi : T i with
    | true =>
      rw [if_pos hTi] at hvisit
      have hfilter : (l ++ [i]).filter T = l.filter T ++ [i] := by simp [hTi]
      rw [hfilter, List.append_assoc, List.singleton_append] at hbody₂
      obtain ⟨a₆, hrun, hfollows'⟩ := hagain' hscene₅ (Arena.body_of_unmarked hfollows.unmarked ▸ hbody₂)
        fun j hj => hT j (List.mem_append_left _ hj)
      refine ⟨a₆, ?_, hfollows.trans hfollows' hjudged.other⟩
      rw [hfilter, List.length_append, List.length_singleton]
      exact .bind (entry_gives.mpr ⟨by simp [hbody₂], rfl, rfl⟩) (.bind hvisit (.bind hrun (.pure _)))
    | false =>
      rw [if_neg (by simp [hTi])] at hvisit
      obtain ⟨rfl, rfl, rfl⟩ := hvisit
      have hfilter : (l ++ [i]).filter T = l.filter T := by simp [hTi]
      rw [hfilter] at hbody₂ ⊢
      obtain ⟨a₆, hrun, hfollows'⟩ := hagain' hscene₅ hbody₂ fun j hj => hT j (List.mem_append_left _ hj)
      simp only [Bool.false_or]
      exact ⟨a₆, hrun, hfollows.trans hfollows' hjudged.other⟩

theorem Echoes.block (p b : BlockId) : Echoes [b] id (block (some p) b) (block (some p) b) := by
  intro s a y s' a' hrun
  obtain ⟨⟨bb, hbb⟩, hrun⟩ := block_gives.mp hrun
  have hheld : a.heldIn [b] = { i | i ∈ a.body b } := by simp [Arena.heldIn]
  obtain ⟨hjudged, hagain⟩ := echo_instrsBelow (List.append_nil _).symm hrun
  rw [hheld]
  refine ⟨hjudged, fun {T a₂} hscene hbody hT => ?_⟩
  have hb := hbody b (by simp)
  obtain ⟨a₂', hrun₂, hfollows⟩ := hagain hscene (hb.trans (List.append_nil _).symm) hT
  obtain ⟨bb₂, hbb₂, -⟩ := Arena.block_of_scene hscene hbb
  exact ⟨a₂', block_gives.mpr ⟨⟨bb₂, hbb₂⟩, hb ▸ hrun₂⟩, hfollows⟩

end Scan

end ShaderCompiler
