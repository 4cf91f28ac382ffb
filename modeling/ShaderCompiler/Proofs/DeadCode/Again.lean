import ShaderCompiler.Proofs.DeadCode.Echo

/-!
# Removing dead code again

What a run takes out was dead whenever it was visited. So a run on what is left marks the same, makes
as many rounds, and finds nothing to take out. This holds of every function whose blocks are different,
whatever else is wrong with it.
-/

namespace ShaderCompiler

variable {α β : Type} {y removed always : Bool} {l : List InstrId} {round : Scan Bool}
  {body : Region}

/-! ### Taking out instructions -/

namespace Arena

variable {a a' a₁ : Arena} {bs cs ds : List BlockId} {b : BlockId}

/-- The instructions of a block that have an effect of their own. -/
def effects (a : Arena) (b : BlockId) : List InstrId :=
  (a.body b).filter a.outline.effect

theorem effect_of_scene (h : a'.scene = a.scene) : a'.outline.effect = a.outline.effect := by
  have hscene (x : Arena) : x.scene.outline.effect = x.outline.effect := by
    funext i
    simp only [outline, scene, Array.getElem?_map, code_instrs, Option.any_map]
    rfl
  rw [← hscene, h, hscene]

/-- Removing dead code takes out nothing and leaves the arena as it was, apart from verdicts and
counts. -/
def Clear (a : Arena) (f : FunctionId) (always : Bool) : Prop :=
  ∃ a', Edit.removeDead f always a = .ok false a' ∧ a'.unmarked = a.unmarked

/-- Of the instructions of blocks, some without effect were taken out. -/
structure Thinned (bs : List BlockId) (a a' : Arena) : Prop where
  scene : a'.scene = a.scene
  other : ∀ b ∉ bs, a'.body b = a.body b
  sublist : ∀ b, (a'.body b).Sublist (a.body b)
  effects : ∀ b, a'.effects b = a.effects b

namespace Thinned

theorem of_code (h : a'.code = a.code) : Thinned bs a a' := by
  have hbody := body_of_code h
  refine ⟨scene_of_code h, fun b _ => by rw [hbody], fun b => by rw [hbody], fun b => ?_⟩
  rw [Arena.effects, Arena.effects, hbody, effect_of_scene (scene_of_code h)]

theorem trans (h : Thinned bs a a₁) (h' : Thinned cs a₁ a')
    (hds : ∀ b, b ∈ bs ∨ b ∈ cs → b ∈ ds) : Thinned ds a a' where
  scene := h'.scene.trans h.scene
  other b hb := by
    obtain ⟨hbs, hcs⟩ := not_or.mp fun hmem => hb (hds b hmem)
    rw [h'.other b hcs, h.other b hbs]
  sublist b := (h'.sublist b).trans (h.sublist b)
  effects b := (h'.effects b).trans (h.effects b)

end Thinned

end Arena

namespace Edit

variable {a a' : Arena} {b : BlockId} {i : InstrId}

theorem eliminate_spec {y : Unit} (h : eliminate b i a = .ok y a') : a'.scene = a.scene
    ∧ a'.verdict = a.verdict
    ∧ ∀ c, a'.body c = if c = b then (a.body c).erase i else a.body c := by
  obtain ⟨-, a₁, hcode, hinstrs, -, rfl⟩ := exists_of_eliminate h
  refine ⟨(a₁.scene_without b i).trans (Arena.scene_of_code hcode), ?_, fun c => ?_⟩
  · funext j
    change (a₁.without b i).verdict j = _
    rw [Arena.verdict, Arena.verdict, Arena.instrs_without, hinstrs]
    split
    · cases a.instrs[j.idx]? <;> rfl
    · rfl
  · rw [← Arena.body_of_code hcode]
    exact a₁.body_without b i c

end Edit

namespace Scan

open Edit Arena

variable {s s' : LiveSet} {a a' a₂ : Arena} {i : InstrId} {b : BlockId} {preheader : Option BlockId}
  {bs cs ds : List BlockId} {q : α → α} {r : β → β} {x x₂ : Scan α}

/-! ### Outside rounds -/

/-- A run of `x` outside rounds is repeated by `x₂`, with the same marks and the result that `q` gives,
on what it left of the blocks. The second run takes out nothing. -/
def Repeats (bs : List BlockId) (q : α → α) (x x₂ : Scan α) : Prop :=
  bs.Nodup → ∀ ⦃s a y s' a'⦄, x.Gives s a y s' a' → Thinned bs a a'
    ∧ ∀ {a₂ : Arena}, a₂.scene = a.scene → (∀ b ∈ bs, a₂.body b = a'.body b) →
      ∃ a₂', x₂.Gives s a₂ (q y) s' a₂' ∧ a₂'.unmarked = a₂.unmarked

namespace Repeats

theorem looks (hx : x.Looks) : Repeats [] id x x := by
  intro _ s a y s' a' hrun
  obtain ⟨rfl, -, hagain⟩ := hx hrun
  exact ⟨.of_code rfl, fun hscene _ => ⟨_, hagain hscene, rfl⟩⟩

theorem pure {y z : α} (h : z = q y) : Repeats [] q (pure y) (pure z) := by
  intro _ s a y s' a' hrun
  obtain ⟨rfl, rfl, rfl⟩ := pure_gives.mp hrun
  exact ⟨.of_code rfl, fun _ _ => ⟨_, h ▸ .pure z, rfl⟩⟩

theorem never (h : ∀ {s a y s' a'}, ¬ x.Gives s a y s' a') : Repeats bs q x x₂ :=
  fun _ _ _ _ _ _ hrun => absurd hrun h

theorem bind {k k₂ : α → Scan β} (hx : Repeats bs q x x₂) (hk : ∀ y, Repeats cs r (k y) (k₂ (q y)))
    (hds : ds.Perm (bs ++ cs)) : Repeats ds r (x >>= k) (x₂ >>= k₂) := by
  intro hnodup s a y s' a' hrun
  obtain ⟨z, s₁, a₁, hfirst, hrest⟩ := bind_gives.mp hrun
  obtain ⟨hbs, hcs, hdisj⟩ := List.nodup_append'.mp (hds.nodup_iff.mp hnodup)
  have hmem {b : BlockId} : b ∈ ds ↔ b ∈ bs ∨ b ∈ cs := hds.mem_iff.trans List.mem_append
  obtain ⟨hthin, hagain⟩ := hx hbs hfirst
  obtain ⟨hthin', hagain'⟩ := hk z hcs hrest
  refine ⟨hthin.trans hthin' fun b => hmem.mpr, fun {a₂} hscene hbody => ?_⟩
  obtain ⟨a₂₁, hrun₂, hsame⟩ := hagain hscene fun b hb => by
    rw [hbody b (hmem.mpr (.inl hb)), hthin'.other b (hdisj hb)]
  obtain ⟨a₂', hrun₂', hsame'⟩ := hagain'
    ((scene_of_unmarked hsame).trans (hscene.trans hthin.scene.symm))
    fun b hb => by rw [body_of_unmarked hsame, hbody b (hmem.mpr (.inr hb))]
  exact ⟨a₂', .bind hrun₂ hrun₂', hsame'.trans hsame⟩

end Repeats

/-- Taking out a dead instruction. -/
theorem thinned_eliminate (hdead : Dead s a i) {y : Unit} (h : eliminate b i a = .ok y a') :
    Thinned [b] a a' := by
  obtain ⟨hscene, -, hbody⟩ := eliminate_spec h
  refine ⟨hscene, fun c hc => ?_, fun c => ?_, fun c => ?_⟩
  · rw [hbody, if_neg (by simpa using hc)]
  · rw [hbody]
    split
    · exact List.erase_sublist
    · exact List.Sublist.refl _
  · rw [effects, effects, effect_of_scene hscene, hbody]
    split
    · rw [← List.erase_filter, List.erase_of_not_mem (by simp [hdead.hasEffect])]
    · rfl

theorem repeat_instrsBelow {n : Nat} {rest : List InstrId} {y : Bool × Bool} (hn : l.length = n)
    (hbody : a.body b = l ++ rest) (h : (instrsBelow none b n).Gives s a y s' a') :
    Thinned [b] a a' ∧ ∃ m, a'.body b = m ++ rest ∧ ∀ {a₂ : Arena} {rest₂ : List InstrId},
      a₂.scene = a.scene → a₂.body b = m ++ rest₂ →
        (instrsBelow none b m.length).Gives s a₂ (false, y.2) s' a₂ := by
  induction n generalizing l s a y rest with
  | zero =>
    obtain rfl := List.length_eq_zero_iff.mp hn
    obtain ⟨rfl, rfl, rfl⟩ := pure_gives.mp h
    exact ⟨.of_code rfl, [], hbody, fun _ _ => .pure _⟩
  | succ n ih =>
    obtain ⟨l, i, rfl⟩ := (List.eq_nil_or_concat l).resolve_left (by rintro rfl; cases hn)
    rw [List.concat_eq_append] at hn hbody
    obtain rfl : l.length = n := by simpa using hn
    obtain ⟨j, z, w, s₂, a₂, hj, hinstr, hrest, rfl⟩ := exists_of_instrsBelow h
    obtain rfl : i = j := by simpa [hbody] using hj
    obtain ⟨ins, live, hins, hend, -, hdead, hskip, hagain⟩ := instr_spec hinstr
    cases live with
    | true =>
      obtain ⟨hz, rfl⟩ := pure_eq_ok.mp hend
      obtain ⟨hthin, m, hm, hagain'⟩ := ih rfl (hbody.trans (List.append_assoc ..)) hrest
      refine ⟨hthin, m ++ [i], by simp [hm], fun {a₄ rest₂} hscene hbody₂ => ?_⟩
      rw [List.append_assoc, List.singleton_append] at hbody₂
      rw [List.length_append, List.length_singleton]
      refine .bind (entry_gives.mpr ⟨by simp [hbody₂], rfl, rfl⟩) (.bind (hagain hscene rfl)
        (.bind (hagain' hscene hbody₂) (.pure _)))
    | false =>
      obtain ⟨_, a₄, helim, hz⟩ := bind_eq_ok.mp hend
      obtain ⟨hz, rfl⟩ := pure_eq_ok.mp hz
      obtain ⟨rfl, hw⟩ := hskip rfl
      obtain ⟨hscene, -, hbody₂⟩ := eliminate_spec helim
      -- If the instruction stands in the block twice, then the first one goes.
      have herase : a₄.body b = (l ++ [i]).erase i ++ rest := by
        rw [hbody₂, if_pos rfl, hbody, List.erase_append_left _ (by simp)]
      obtain ⟨hthin, m, hm, hagain'⟩ := ih (by simp) herase hrest
      refine ⟨(thinned_eliminate (hdead.mp rfl) helim).trans hthin (by simp), m, hm,
        fun {a₅ rest₂} hscene' hbody₃ => ?_⟩
      simp only [hw, Bool.false_or]
      exact hagain' (hscene'.trans hscene.symm) hbody₃

theorem Repeats.block (b : BlockId) :
    Repeats [b] (fun y => (false, y.2)) (block none b) (block none b) := by
  intro _ s a y s' a' hrun
  obtain ⟨⟨bb, hbb⟩, hrun⟩ := block_gives.mp hrun
  obtain ⟨hthin, m, hm, hagain⟩ := repeat_instrsBelow rfl (List.append_nil _).symm hrun
  refine ⟨hthin, fun {a₂} hscene hbody => ⟨a₂, ?_, rfl⟩⟩
  obtain ⟨bb₂, hbb₂, -⟩ := block_of_scene hscene hbb
  rw [List.append_nil] at hm
  have hbody₂ : a₂.body b = m := (hbody b (by simp)).trans hm
  refine block_gives.mpr ⟨⟨bb₂, hbb₂⟩, ?_⟩
  rw [hbody₂]
  exact hagain hscene (hbody₂.trans (List.append_nil _).symm)

/-! ### Sweeps -/

/-- The instructions of blocks with a verdict of dead were taken out. -/
structure Swept (bs : List BlockId) (a a' : Arena) : Prop where
  scene : a'.scene = a.scene
  verdict : a'.verdict = a.verdict
  body : ∀ b, a'.body b = if b ∈ bs then (a.body b).filter a.verdict else a.body b
  block : ∀ b ∈ bs, ∃ bb, a.blocks[b.idx]? = some bb

theorem sweepInstr_gives (h : (sweepInstr b removed i).Gives s a y s' a') :
    s' = s ∧ a'.scene = a.scene ∧ a'.verdict = a.verdict ∧ ∀ c, a'.body c
      = if c = b ∧ a.verdict i = false then (a.body c).erase i else a.body c := by
  obtain ⟨ins, s₁, a₁, hlook, h₁⟩ := bind_gives.mp h
  obtain ⟨taken, s₂, a₂, hlast, h₂⟩ := bind_gives.mp h₁
  obtain ⟨-, rfl, rfl⟩ := pure_gives.mp h₂
  obtain ⟨hins, rfl, rfl⟩ := look_gives.mp hlook
  obtain ⟨hend, rfl⟩ := lift_gives.mp hlast
  rw [instr_eq_ok] at hins
  have hverdict : a₁.verdict i = ins.live := by rw [verdict, hins, Option.any_some]
  cases hlive : ins.live with
  | true =>
    rw [hlive] at hend
    obtain ⟨-, rfl⟩ := pure_eq_ok.mp hend
    exact ⟨rfl, rfl, rfl, fun c => by simp [hverdict, hlive]⟩
  | false =>
    rw [hlive] at hend
    obtain ⟨_, a₄, helim, hz⟩ := bind_eq_ok.mp hend
    obtain ⟨-, rfl⟩ := pure_eq_ok.mp hz
    obtain ⟨hscene, hsame, hbody⟩ := eliminate_spec helim
    exact ⟨rfl, hscene, hsame, fun c => by simp [hbody, hverdict, hlive]⟩

theorem swept_instrs (kept : List InstrId) (hkept : ∀ i ∈ kept, a.verdict i = true)
    (hbody : a.body b = kept ++ l) (h : (l.foldlM (sweepInstr b) removed).Gives s a y s' a') :
    s' = s ∧ a'.scene = a.scene ∧ a'.verdict = a.verdict ∧ a'.body b = kept ++ l.filter a.verdict
      ∧ ∀ c ≠ b, a'.body c = a.body c := by
  induction l generalizing kept removed s a with
  | nil =>
    obtain ⟨-, rfl, rfl⟩ := pure_gives.mp h
    exact ⟨rfl, rfl, rfl, hbody, fun _ _ => rfl⟩
  | cons i l ih =>
    rw [List.foldlM_cons] at h
    obtain ⟨removed', s₁, a₁, hfirst, hrest⟩ := bind_gives.mp h
    obtain ⟨rfl, hscene, hverdict, hbody₁⟩ := sweepInstr_gives hfirst
    have hother {c : BlockId} (hc : c ≠ b) : a₁.body c = a.body c := by simp [hbody₁, hc]
    -- What was kept has a verdict of live, so none of it is taken out in place of the instruction.
    obtain ⟨kept', hkept', hsame, hfilter⟩ : ∃ kept', (∀ j ∈ kept', a.verdict j = true)
        ∧ a₁.body b = kept' ++ l ∧ kept' ++ l.filter a.verdict = kept ++ (i :: l).filter a.verdict := by
      cases hlive : a.verdict i with
      | true => exact ⟨kept ++ [i], by simpa [or_imp, forall_and, hlive] using hkept,
          by simp [hbody₁, hlive, hbody], by simp [hlive]⟩
      | false =>
        refine ⟨kept, hkept, ?_, by simp [hlive]⟩
        rw [hbody₁, if_pos ⟨rfl, hlive⟩, hbody, List.erase_append_right, List.erase_cons_head]
        exact fun hi => by simp [hkept i hi] at hlive
    rw [← hverdict] at hkept' ⊢
    obtain ⟨rfl, hscene', hverdict', hlast, hrest'⟩ := ih kept' hkept' hsame hrest
    exact ⟨rfl, hscene'.trans hscene, hverdict', by rw [hlast, hverdict, hfilter],
      fun c hc => (hrest' c hc).trans (hother hc)⟩

theorem swept_block (h : (sweepBlock b).Gives s a y s' a') : s' = s ∧ Swept [b] a a' := by
  rw [sweepBlock] at h
  obtain ⟨bb, s₁, a₁, hlook, hfold⟩ := bind_gives.mp h
  obtain ⟨hbb, rfl, rfl⟩ := look_gives.mp hlook
  have hbody := body_of_block (block_eq_ok.mp hbb)
  obtain ⟨rfl, hscene, hverdict, hb, hother⟩ := swept_instrs [] (by simp) hbody hfold
  refine ⟨rfl, hscene, hverdict, fun c => ?_, by simpa using ⟨bb, block_eq_ok.mp hbb⟩⟩
  by_cases hc : c = b
  · subst hc
    simp [hb, hbody]
  · simp [hc, hother c hc]

theorem swept_blocks
    (h : (bs.foldlM (fun removed b => return (← sweepBlock b) || removed) removed).Gives s a y s' a') :
    s' = s ∧ Swept bs a a' := by
  induction bs generalizing removed s a with
  | nil =>
    obtain ⟨-, rfl, rfl⟩ := pure_gives.mp h
    exact ⟨rfl, rfl, rfl, by simp, by simp⟩
  | cons b bs ih =>
    rw [List.foldlM_cons] at h
    obtain ⟨removed', s₁, a₁, hfirst, hrest⟩ := bind_gives.mp h
    obtain ⟨taken, s₂, a₂, hblock, hpure⟩ := bind_gives.mp hfirst
    obtain ⟨-, rfl, rfl⟩ := pure_gives.mp hpure
    obtain ⟨rfl, hscene, hverdict, hbody, hfound⟩ := swept_block hblock
    obtain ⟨rfl, hscene', hverdict', hbody', hfound'⟩ := ih hrest
    refine ⟨rfl, hscene'.trans hscene, hverdict'.trans hverdict, fun c => ?_, fun c hc => ?_⟩
    · rw [hbody', hbody, hverdict]
      by_cases hc : c = b <;> by_cases hc' : c ∈ bs <;> simp [hc, hc', List.filter_filter]
    · rcases List.mem_cons.mp hc with rfl | hc
      · exact hfound c (by simp)
      · obtain ⟨bb, hbb⟩ := hfound' c hc
        obtain ⟨bb₀, hbb₀, -⟩ := block_of_scene hscene.symm hbb
        exact ⟨bb₀, hbb₀⟩

theorem foldlM_gives {step : β → α → Scan β} {l : List α} {y : β}
    (h : ∀ x ∈ l, (step y x).Gives s a y s a) : (l.foldlM step y).Gives s a y s a := by
  induction l with
  | nil => exact .pure _
  | cons x l ih =>
    rw [List.foldlM_cons]
    exact .bind (h x List.mem_cons_self) (ih fun z hz => h z (List.mem_cons_of_mem x hz))

/-- Where all verdicts are live, a sweep takes out nothing. -/
theorem sweep_keeps (hblocks : ∀ b ∈ bs, ∃ bb, a.blocks[b.idx]? = some bb)
    (hlive : ∀ i ∈ a.heldIn bs, a.verdict i = true) :
    (bs.foldlM (fun removed b => return (← sweepBlock b) || removed) removed).Gives s a removed s a := by
  refine foldlM_gives fun b hb => ?_
  obtain ⟨bb, hbb⟩ := hblocks b hb
  have hinstr (i : InstrId) (hi : i ∈ bb.instrs) : (sweepInstr b false i).Gives s a false s a := by
    rw [← body_of_block hbb] at hi
    obtain ⟨ins, hins, hi⟩ := (Option.any_eq_true _ _).mp (hlive i ⟨b, hb, hi⟩)
    refine .bind (.look (instr_eq_ok.mpr hins)) ?_
    rw [hi]
    exact .bind (.lift rfl) (.pure _)
  exact .bind (.bind (.look (block_eq_ok.mpr hbb)) (foldlM_gives hinstr)) (.pure _)

/-! ### Regions -/

theorem Swept.thinned (h : Swept bs a a')
    (hdead : ∀ i ∈ a.heldIn bs, a.verdict i = false → a.outline.effect i = false) :
    Thinned bs a a' := by
  refine ⟨h.scene, fun b hb => by rw [h.body, if_neg hb], fun b => ?_, fun b => ?_⟩
  · rw [h.body]
    split
    · exact List.filter_sublist
    · exact List.Sublist.refl _
  · rw [effects, effects, effect_of_scene h.scene, h.body]
    split
    case isTrue hb =>
      rw [List.filter_filter]
      refine List.filter_congr fun i hi => ?_
      have := hdead i ⟨b, hb, hi⟩
      cases hlive : a.verdict i <;> simp_all
    case isFalse => rfl

theorem Repeats.visit (h : Echoes body.preorder id round round) :
    Repeats body.preorder (fun _ => false) (visit none round body) (visit none round body) := by
  intro _ s a y s' a' hrun
  obtain ⟨_, s₁, a₁, hrounds, hsweep⟩ := bind_gives.mp hrun
  obtain ⟨hjudged, hagain⟩ := h.rounds (s.marks.size + 1) hrounds
  change (sweep body).Gives s₁ a₁ y s' a' at hsweep
  rw [sweep, Region.blocks_eq_preorder] at hsweep
  obtain ⟨rfl, hswept⟩ := swept_blocks hsweep
  have hthin := hswept.thinned fun i hi hdead => by
    obtain ⟨b, hb, hi⟩ := hi
    rw [effect_of_scene hjudged.scene]
    exact (hjudged.dead i ⟨b, hb, hjudged.body ▸ hi⟩ hdead).hasEffect
  refine ⟨(Thinned.of_code (code_of_unmarked hjudged.unmarked)).trans hthin fun _ => or_self_iff.mp,
    fun {a₂} hscene hbody => ?_⟩
  obtain ⟨a₂₁, hrun₂, hfollows⟩ := hagain hscene (T := a₁.verdict)
    (fun b hb => by rw [hbody b hb, hswept.body, if_pos hb, hjudged.body]) fun i _ => id
  refine ⟨a₂₁, .bind hrun₂ ?_, hfollows.unmarked⟩
  change (sweep body).Gives s' a₂₁ false s' a₂₁
  rw [sweep, Region.blocks_eq_preorder]
  refine sweep_keeps (fun b hb => ?_) ?_
  · obtain ⟨bb, hbb⟩ := hswept.block b hb
    obtain ⟨bb₂, hbb₂, -⟩ := block_of_scene
      ((scene_of_unmarked hfollows.unmarked).trans (hscene.trans hjudged.scene.symm)) hbb
    exact ⟨bb₂, hbb₂⟩
  · rintro i ⟨b, hb, hi⟩
    rw [body_of_unmarked hfollows.unmarked, hbody b hb, hswept.body, if_pos hb, List.mem_filter,
      hjudged.body] at hi
    rw [hfollows.agree i ⟨b, hb, hi.1⟩ hi.2, hi.2]

/-- Outside rounds the second run takes out nothing. -/
def quiet : Option BlockId → Bool → Bool
  | some _ => id
  | none => fun _ => false

/-- A run of `x` is repeated by `x₂`. -/
def Replays : Option BlockId → List BlockId → (α → α) → Scan α → Scan α → Prop
  | some _ => Echoes
  | none => Repeats

namespace Replays

theorem looks (hx : x.Looks) : Replays preheader [] id x x := by
  cases preheader
  · exact Repeats.looks hx
  · exact Echoes.looks hx

theorem pure {y z : α} (h : z = q y) : Replays preheader [] q (pure y) (pure z) := by
  cases preheader
  · exact Repeats.pure h
  · exact Echoes.pure h

theorem never (h : ∀ {s a y s' a'}, ¬ x.Gives s a y s' a') : Replays preheader bs q x x₂ := by
  cases preheader
  · exact Repeats.never h
  · exact Echoes.never h

theorem bind {k k₂ : α → Scan β} (hx : Replays preheader bs q x x₂)
    (hk : ∀ y, Replays preheader cs r (k y) (k₂ (q y))) (hds : ds.Perm (bs ++ cs)) :
    Replays preheader ds r (x >>= k) (x₂ >>= k₂) := by
  cases preheader
  · exact Repeats.bind hx hk hds
  · exact Echoes.bind hx hk fun _ _ => hds.mem_iff.trans List.mem_append

theorem block (b : BlockId) : Replays preheader [b] (fun y => (quiet preheader y.1, y.2))
    (block preheader b) (block preheader b) := by
  cases preheader
  · exact Repeats.block b
  · exact Echoes.block _ b

theorem visit (h : Echoes body.preorder id round round) :
    Replays preheader body.preorder (quiet preheader) (visit preheader round body)
      (visit preheader round body) := by
  cases preheader with
  | none => exact Repeats.visit h
  | some p =>
    have hget : (get : Scan LiveSet).Looks := by
      intro s a y s' a' h
      obtain ⟨rfl, rfl, rfl⟩ := get_gives.mp h
      exact ⟨rfl, le_rfl, fun _ => .get⟩
    exact .bind (.bind (.looks hget) (fun live => h.rounds (live.marks.size + 1)) (.refl _))
      (fun _ => .pure rfl) (by simp)

end Replays

theorem quiet_or (y z : Bool) :
    quiet preheader (y || z) = (quiet preheader y || quiet preheader z) := by
  cases preheader <;> rfl

theorem looks_header (always : Bool) (front header : BlockId) : (look (·.block header) >>= fun bb =>
    pure (!always && bb.preds = [front]) : Scan Bool).Looks := by
  intro s a y s' a' h
  obtain ⟨bb, s₁, a₁, hlook, hpure⟩ := bind_gives.mp h
  obtain ⟨rfl, rfl, rfl⟩ := pure_gives.mp hpure
  obtain ⟨hbb, rfl, rfl⟩ := look_gives.mp hlook
  refine ⟨rfl, le_rfl, fun hscene => ?_⟩
  obtain ⟨bb₂, hbb₂, hpreds⟩ := block_of_scene hscene (block_eq_ok.mp hbb)
  exact .bind (.look (block_eq_ok.mpr hbb₂)) (hpreds ▸ .pure _)

theorem replays_scanBody {front header : BlockId} {inner : Region} {later once : Bool}
    (h : ∀ preheader, Replays preheader inner.preorder (quiet preheader)
      (region always preheader (.ok header) inner) (region always preheader (.ok header) inner)) :
    Replays preheader (Region.block header inner).preorder (quiet preheader)
      (scanBody always preheader front header inner later once)
      (scanBody always preheader front header inner (quiet preheader later) once) := by
  have hperm := (List.perm_append_singleton header inner.preorder).symm
  cases once with
  | true =>
    refine .bind (h preheader) (fun inBody => .bind (.block header) (fun inHeader => .pure ?_)
      (.refl _)) hperm
    simp only [quiet_or]
  | false =>
    have hround : Echoes (Region.block header inner).preorder id (round always front header inner)
        (round always front header inner) := by
      have hsame : round always front header inner = region always (some front) (.ok header) inner >>=
          fun _ => block (some front) header >>= fun inHeader => pure inHeader.2 := by
        simp [round, Functor.discard, map_const]
      rw [hsame]
      exact Replays.bind (h (some front))
        (fun _ => .bind (.block header) (fun _ => .pure rfl) (.refl _))
        hperm
    refine .bind (.visit hround) (fun swept => .pure ?_) (by simp)
    simp only [quiet_or]

theorem replays_region (always : Bool) : ∀ (preheader : Option BlockId) (before : Except Fault BlockId)
    (r : Region), Replays preheader r.preorder (quiet preheader) (region always preheader before r)
      (region always preheader before r)
  | preheader, _, .done => .pure (by cases preheader <;> rfl)
  | _, _, .block b rest => by
      refine .bind (replays_region always _ _ rest) (fun later => .bind (.block b)
        (fun here => .pure ?_) (.refl _)) (List.perm_append_singleton b rest.preorder).symm
      exact (quiet_or later here.1).symm
  | _, _, .branch c yes no rest => by
      refine .bind (replays_region always _ _ rest) (fun later =>
        .bind (replays_region always _ _ no) (fun inNo =>
          .bind (replays_region always _ _ yes) (fun inYes =>
            .bind (.looks (looks_marks.markCondition c)) (fun _ => .pure ?_)
              (.refl _)) (.refl _)) (.refl _)) ?_
      · simp only [quiet_or]
      · simp only [Region.preorder, List.append_nil]
        exact List.perm_append_comm.trans (List.perm_append_comm.append_left _)
  | preheader, before, .loop c (.block header inner) rest => by
      rw [region_loop]
      exact .bind (replays_region always _ _ rest) (fun later =>
        .bind (.looks (looks_view before)) (fun front =>
          .bind (.looks (looks_header always front header)) (fun once =>
            replays_scanBody fun _ => replays_region always _ _ inner) (.refl _)) (.refl _))
        List.perm_append_comm
  | _, _, .loop _ .done rest | _, _, .loop _ (.branch ..) rest | _, _, .loop _ (.loop ..) rest => by
      refine .never fun {s a y s' a'} h => ?_
      obtain ⟨_, s₁, a₁, -, h₁⟩ := bind_gives.mp h
      obtain ⟨_, s₂, a₂, -, h₂⟩ := bind_gives.mp h₁
      cases h₂

end Scan

namespace Edit

open Arena

variable {f : FunctionId} {progress : Bool} {a a' : Arena} {r : Region}

/-- What is left by removing dead code is clear of it, and so is every other arena that has the same
in the blocks of the function. -/
theorem removeDead_repeats (hr : a.bodyRegion f = .ok r) (hblocks : r.preorder.Nodup)
    (hrun : removeDead f always a = .ok progress a') : Thinned r.preorder a a'
      ∧ ∀ {a₂ : Arena}, a₂.scene = a.scene → (∀ b ∈ r.preorder, a₂.body b = a'.body b) →
        a₂.Trimmed f → a₂.Clear f always := by
  obtain ⟨g, live, r', live', a₁, hg, hlive, hr', hscan, hpreserve⟩ := removeDead_eq_ok.mp hrun
  cases hr.symm.trans hr'
  obtain ⟨hthin, hagain⟩ := Scan.replays_region always none _ r hblocks hscan
  have hcode := code_of_preserve hpreserve
  refine ⟨hthin.trans (.of_code hcode) fun _ => or_self_iff.mp, fun {a₂} hscene hbody htrimmed => ?_⟩
  obtain ⟨a₃, hscan₂, hsame⟩ := hagain hscene fun b hb => by rw [hbody b hb, body_of_code hcode]
  obtain ⟨valid, dominance, hg₂⟩ := function_of_functions (congrArg (·.functions) hscene)
    (function_eq_ok.mp hg)
  have hr₂ : a₂.bodyRegion f = .ok r := by
    refine (bodyRegion_congr (congrArg (·.constructs) hscene) ?_).trans hr
    rw [hg₂, function_eq_ok.mp hg]
    rfl
  rw [Trimmed, ← show a₃.functions = a₂.functions from congrArg (·.functions) hsame] at htrimmed
  exact ⟨a₃, removeDead_eq_ok.mpr ⟨_, live, r, live', a₃, function_eq_ok.mpr hg₂, hlive, hr₂, hscan₂,
    preserve_all htrimmed⟩, hsame⟩

theorem trimmed_of_removeDead (hrun : removeDead f always a = .ok progress a') : a'.Trimmed f := by
  obtain ⟨_, _, _, _, _, _, _, _, _, hpreserve⟩ := removeDead_eq_ok.mp hrun
  exact trimmed_of_preserve hpreserve

/-- Removing dead code again removes nothing, in a function whose lists make up a finite tree of
different blocks. Nothing else has to be right about the function. What has an effect stays in its
block, in the same order. -/
theorem removeDead_again {f : FunctionId} {always progress : Bool} {a a' : Arena} {r : Region}
    (hr : a.bodyRegion f = .ok r) (hblocks : r.preorder.Nodup)
    (hrun : removeDead f always a = .ok progress a') :
    (∃ a'', removeDead f always a' = .ok false a'' ∧ a''.unmarked = a'.unmarked)
      ∧ ∀ b, (a'.body b).Sublist (a.body b) ∧ a'.effects b = a.effects b := by
  obtain ⟨hthin, hagain⟩ := removeDead_repeats hr hblocks hrun
  exact ⟨hagain hthin.scene (fun _ _ => rfl) (trimmed_of_removeDead hrun),
    fun b => ⟨hthin.sublist b, hthin.effects b⟩⟩

/-- The sum of `heldSum` is found by rounds once. -/
theorem removeDead_again_heldSum : ∃ r a' a'', heldSum.built.bodyRegion ⟨0⟩ = .ok r
    ∧ r.preorder.Nodup ∧ removeDead ⟨0⟩ true heldSum.built = .ok true a'
    ∧ removeDead ⟨0⟩ true a' = .ok false a'' ∧ a''.unmarked = a'.unmarked := by
  obtain ⟨r, hr, hblocks⟩ : ∃ r ∈ (heldSum.built.bodyRegion ⟨0⟩).toOption, r.preorder.Nodup := by
    decide +kernel
  have hresult : (removeDead ⟨0⟩ true).result? heldSum.built = some true := by decide +kernel
  have hr := eq_ok_of_mem_toOption hr
  obtain ⟨a', hrun⟩ := result?_eq_some.mp hresult
  obtain ⟨⟨a'', hagain, hsame⟩, -⟩ := removeDead_again hr hblocks hrun
  exact ⟨r, a', a'', hr, hblocks, hrun, hagain, hsame⟩

end Edit

namespace Arena

/-- Whether a function is clear of dead code depends on what stands in its blocks. -/
theorem Clear.congr {a a₂ : Arena} {f : FunctionId} {r : Region} (h : a.Clear f always)
    (hr : a.bodyRegion f = .ok r) (hblocks : r.preorder.Nodup) (hscene : a₂.scene = a.scene)
    (hbody : ∀ b ∈ r.preorder, a₂.body b = a.body b) (ht : a₂.Trimmed f) : a₂.Clear f always := by
  obtain ⟨a', hrun, hsame⟩ := h
  exact (Edit.removeDead_repeats hr hblocks hrun).2 hscene
    (fun b hb => (hbody b hb).trans (congrFun (body_of_unmarked hsame) b).symm) ht

end Arena

end ShaderCompiler
