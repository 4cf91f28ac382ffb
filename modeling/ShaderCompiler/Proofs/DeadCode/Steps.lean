import ShaderCompiler.Proofs.Steps

/-!
# The steps of removing dead code

Removing dead code is put together from looks at the arena, from recording verdicts, from counting
rounds, and from taking out instructions, each of which is counted. What holds of these steps, and
of computations that are put together from such that it holds of, holds of the whole pass. Inside
rounds nothing is taken out.
-/

namespace ShaderCompiler

variable {b : BlockId} {preheader : Option BlockId} {a a' : Arena}

variable {α β γ : Type}

/-- A round of a loop, which tells whether something new comes around. -/
def Scan.round (always : Bool) (front header : BlockId) (inner : Region) : Scan Bool := do
  discard <| region always (some front) (.ok header) inner
  return (← block (some front) header).2

namespace Edit

theorem conclude_some {p : BlockId} {i : InstrId} {live removed : Bool} :
    conclude (some p) b i live a = .ok removed a'
      ↔ removed = false ∧ a' = a.modifyInstr i fun ins => { ins with live := live } := by
  change EStateM.Result.ok false (a.modifyInstr i _) = .ok removed a' ↔ _
  simp [eq_comm]

/-- A property of computations that holds of what a scan inside rounds is put together from. -/
structure HoldsOfMarking (J : (α : Type) → Edit α → Prop) : Prop extends HoldsOfViews J where
  record (i : InstrId) (live : Bool) : J Unit (setInstr i fun ins => { ins with live := live })
  countRound : J Unit (count fun c => { c with loopRounds := c.loopRounds + 1 })

/-- A property of computations that holds of what removing dead code is put together from. -/
structure HoldsOfSteps (J : (α : Type) → Edit α → Prop) : Prop
    extends HoldsOfLooks J, HoldsOfMarking J where
  eliminate (b : BlockId) (i : InstrId) : J Unit (eliminate b i)
  preserve (f : FunctionId) (kept : Analyses) : J Unit (preserve f kept)

end Edit

namespace Scan

open Edit

/-! ### Scans taken apart -/

/-- Rounds of a loop, and what is done about their verdicts. -/
def visit (preheader : Option BlockId) (round : Scan Bool) (body : Region) : Scan Bool :=
  (get >>= fun live => rounds round (live.marks.size + 1)) >>= fun _ =>
    if preheader.isSome then pure false else sweep body

/-- The scan of the body of a loop, once or in rounds, after `later` was found. -/
def scanBody (always : Bool) (preheader : Option BlockId) (front header : BlockId) (inner : Region)
    (later once : Bool) : Scan Bool :=
  if once then
    region always preheader (.ok header) inner >>= fun inBody =>
      block preheader header >>= fun inHeader => pure (later || inBody || inHeader.1)
  else
    visit preheader (round always front header inner) (.block header inner) >>= fun swept =>
      pure (swept || later)

theorem region_loop {always : Bool} {before : Except Fault BlockId} {c : ConstructId} {header : BlockId}
    {inner rest : Region} : region always preheader before (.loop c (.block header inner) rest)
      = region always preheader (.error .notABlock) rest >>= fun later =>
        liftM (liftM before : Edit BlockId) >>= fun front =>
          (look (·.block header) >>= fun bb => pure (!always && bb.preds = [front])) >>=
            scanBody always preheader front header inner later := by
  rw [region]
  refine bind_congr fun later => bind_congr fun front => ?_
  simp only [bind_assoc, pure_bind]
  refine bind_congr fun bb => ?_
  cases preheader <;> simp [scanBody, visit, round]

/-! ### Verdicts and marks -/

/-- A property of scans that holds of what telling live instructions is put together from. -/
structure HoldsOfVerdicts (K : (α : Type) → Scan α → Prop) : Prop extends HoldsOfBinds K where
  view {α : Type} {x : Except Fault α} (hx : Clean x) : K α (liftM (liftM x : Edit α))
  isDestLive (dest : Option ValueId) : K Bool (isDestLive dest)

/-- A property of scans that holds of what finding and marking live values is put together from. -/
structure HoldsOfMarks (K : (α : Type) → Scan α → Prop) : Prop extends HoldsOfVerdicts K where
  markUse (u : UseId) : K Bool (markUse u)
  construct (c : ConstructId) : K Construct (look (·.construct c))

/-- A property of scans that holds of what a scan inside rounds is put together from. -/
structure HoldsOfScans (K : (α : Type) → Scan α → Prop) : Prop extends HoldsOfBinds K where
  throw {α : Type} {e : Fault} (he : e.isClean = true) : K α (throw e)
  look {α : Type} {view : Arena → Except Fault α} (hview : ∀ a, Clean (view a)) : K α (look view)
  view {α : Type} {x : Except Fault α} (hx : Clean x) : K α (liftM (liftM x : Edit α))
  get : K LiveSet get
  markUse (u : UseId) : K Bool (markUse u)
  record (i : InstrId) (live : Bool) :
    K Unit (liftM (setInstr i fun ins => { ins with live := live }))
  countRound : K Unit (liftM (count fun c => { c with loopRounds := c.loopRounds + 1 }))

variable {K : (α : Type) → Scan α → Prop}

namespace HoldsOfVerdicts

variable (h : HoldsOfVerdicts K)

include h

theorem isAnyLive (vs : List ValueId) : K Bool (isAnyLive vs) := by
  induction vs with
  | nil => exact h.pure _
  | cons v vs ih => exact h.bind (h.isDestLive _) fun _ => holds_ite (h.pure _) ih

theorem isLive (ins : Instr) : K Bool (isLive ins) := by
  unfold Scan.isLive
  split
  case h_8 =>
    refine h.bind (h.view (Intrinsic.clean_info _)) fun _ => holds_ite ?_ (h.pure _)
    split
    · exact h.isDestLive _
    · exact h.pure _
  case h_6 => exact h.pure _
  case h_7 => exact h.pure _
  case h_9 => exact h.isAnyLive _
  all_goals exact h.isDestLive _

end HoldsOfVerdicts

namespace HoldsOfMarks

variable (h : HoldsOfMarks K)

include h

theorem markIncoming (preheader : Option BlockId) (srcs : List (BlockId × UseId)) :
    K Bool (markIncoming preheader srcs) := by
  induction srcs with
  | nil => exact h.pure _
  | cons s rest ih => exact h.bind (h.markUse s.2) fun _ => h.bind ih fun _ => h.pure _

theorem markSources (preheader : Option BlockId) (ins : Instr) :
    K Bool (markSources preheader ins) := by
  unfold Scan.markSources
  split
  · exact h.bind (h.markIncoming preheader _) fun _ => h.bind
      (h.forM fun u _ => h.discard (h.markUse u)) fun _ => h.pure _
  · exact h.bind (h.forM fun u _ => h.bind (h.view (clean_present u)) fun u =>
      h.discard (h.markUse u)) fun _ => h.pure _

theorem markCondition (c : ConstructId) : K Unit (markCondition c) := by
  refine h.bind (h.construct c) fun x => ?_
  split
  · exact h.bind (h.view (clean_present _)) fun u => h.discard (h.markUse u)
  · exact h.pure _

end HoldsOfMarks

namespace HoldsOfScans

variable (h : HoldsOfScans K)

include h

theorem marks : HoldsOfMarks K where
  toHoldsOfBinds := h.toHoldsOfBinds
  view := h.view
  isDestLive _ := h.bind (h.look fun a => by simp) fun _ => h.bind h.get fun live =>
    h.view (live.clean_contains _)
  markUse := h.markUse
  construct c := h.look fun a => a.clean_construct c

/-! ### Instructions -/

theorem conclude (he : preheader = none → ∀ i, K Unit (liftM (eliminate b i))) (i : InstrId)
    (live : Bool) : K Bool (liftM (conclude preheader b i live)) := by
  cases preheader with
  | some p => exact h.bind (h.record i live) fun _ => h.pure _
  | none =>
    cases live with
    | true => exact h.pure false
    | false =>
      change K Bool (liftM (eliminate b i >>= fun _ => pure true : Edit Bool))
      rw [liftM_bind]
      exact h.bind (he rfl i) fun _ => h.pure true

theorem instr (he : preheader = none → ∀ i, K Unit (liftM (eliminate b i))) (i : InstrId) :
    K (Bool × Bool) (instr preheader b i) :=
  h.bind (h.look fun a => a.clean_instr i) fun ins => h.bind (h.marks.isLive ins) fun live =>
    h.bind (holds_ite (h.marks.markSources preheader ins) (h.pure false)) fun _ =>
      h.bind (h.conclude he i live) fun _ => h.pure _

theorem instrsBelow (he : preheader = none → ∀ i, K Unit (liftM (eliminate b i))) (n : Nat) :
    K (Bool × Bool) (instrsBelow preheader b n) := by
  induction n with
  | zero => exact h.pure _
  | succ n ih =>
    exact h.bind (h.look fun a => by simp) fun i => h.bind (h.instr he i) fun _ => h.bind ih
      fun _ => h.pure _

theorem block (he : preheader = none → ∀ i, K Unit (liftM (eliminate b i))) :
    K (Bool × Bool) (block preheader b) :=
  h.bind (h.look fun a => a.clean_block b) fun _ => h.instrsBelow he _

/-! ### Regions -/

theorem sweep {body : Region} (he : ∀ b ∈ body.preorder, ∀ i, K Unit (liftM (eliminate b i))) :
    K Bool (sweep body) := by
  refine h.foldlM (fun _ b hb => h.bind ?_ fun _ => h.pure _) _
  rw [Region.blocks_eq_preorder] at hb
  refine h.bind (h.look fun a => a.clean_block b) fun _ => h.foldlM (fun _ i _ => ?_) _
  exact h.bind (h.look fun a => a.clean_instr i) fun _ =>
    h.bind (h.conclude (fun _ => he b hb) i _) fun _ => h.pure _

/-- What holds of the steps and of visits of loops holds of the scan of a region, which takes
instructions out of blocks of the region only. Inside rounds, nothing is asked about taking out
instructions. -/
theorem region {always : Bool} {bs : List BlockId} (hvisit : ∀ {front header inner}, header ∈ bs →
      K Bool (region always (some front) (.ok header) inner) →
      K Unit (do rounds (round always front header inner) ((← MonadState.get).marks.size + 1))) :
    ∀ {preheader : Option BlockId} {before : Except Fault BlockId} (_ : Clean before) {r : Region}
      (_ : r.preorder ⊆ bs) (_ : preheader = none → ∀ b ∈ bs, ∀ i, K Unit (liftM (eliminate b i))),
      K Bool (region always preheader before r)
  | _, _, _, .done, _, _ => h.pure _
  | _, _, _, .block b rest, hr, he => by
      obtain ⟨hb, hrest⟩ := List.cons_subset.mp hr
      exact h.bind (region hvisit (clean_ok b) hrest he) fun _ => h.bind (h.block fun hp => he hp b hb)
        fun _ => h.pure _
  | _, _, _, .branch c yes no rest, hr, he => by
      simp only [Region.preorder, List.append_subset] at hr
      obtain ⟨⟨hyes, hno⟩, hrest⟩ := hr
      exact h.bind (region hvisit (by simp) hrest he) fun _ => h.bind (region hvisit (by simp) hno he)
        fun _ => h.bind (region hvisit (by simp) hyes he) fun _ => h.bind (h.marks.markCondition c)
          fun _ => h.pure _
  | preheader, before, hbefore, .loop c (.block header inner) rest, hr, he => by
      simp only [Region.preorder, List.append_subset, List.cons_subset] at hr
      obtain ⟨⟨hheader, hinner⟩, hrest⟩ := hr
      rw [region_loop]
      refine h.bind (region hvisit (by simp) hrest he) fun _ => h.bind (h.view hbefore) fun front =>
        h.bind (h.bind (h.look fun a => a.clean_block header) fun _ => h.pure _) fun _ => holds_ite ?_ ?_
      · exact h.bind (region hvisit (clean_ok header) hinner he) fun _ =>
          h.bind (h.block fun hp => he hp header hheader) fun _ => h.pure _
      · have hbody : K Bool (Scan.region always (some front) (.ok header) inner) :=
          region hvisit (clean_ok header) hinner fun hp => absurd hp (Option.some_ne_none front)
        refine h.bind (h.bind (hvisit hheader hbody) fun _ => holds_ite_of (fun _ => h.pure _)
          fun hout => h.sweep fun b hb => he ?_ b (List.cons_subset.mpr ⟨hheader, hinner⟩ hb))
          fun _ => h.pure _
        simpa using hout
  | _, _, hbefore, .loop _ .done rest, hr, he | _, _, hbefore, .loop _ (.branch ..) rest, hr, he
  | _, _, hbefore, .loop _ (.loop ..) rest, hr, he => by
      simp only [Region.preorder, List.append_subset] at hr
      exact h.bind (h.discard (region hvisit (by simp) hr.2 he)) fun _ =>
        h.bind (h.discard (h.view hbefore)) fun _ => h.throw (by simp)

/-- A property that does not depend on whether scans end holds of visits of loops. -/
theorem visit (hendless : ∀ α, K α (MonadExcept.throw .endless)) {always : Bool}
    {front header : BlockId} {inner : Region}
    (hinner : K Bool (Scan.region always (some front) (.ok header) inner)) :
    K Unit (do rounds (round always front header inner) ((← MonadState.get).marks.size + 1)) := by
  have hround : K Bool (round always front header inner) :=
    h.bind (h.discard hinner) fun _ => h.bind
      (h.block fun hp => absurd hp (Option.some_ne_none front)) fun _ => h.pure _
  have hrounds (n : Nat) : K Unit (rounds (round always front header inner) n) := by
    induction n with
    | zero => exact hendless _
    | succ n ih => exact h.bind h.countRound fun _ => h.bind hround fun _ => holds_ite ih (h.pure _)
  exact h.bind h.get fun _ => hrounds _

end HoldsOfScans

/-- A property of computations, for a scan from each live set. -/
def All (J : (α : Type) → Edit α → Prop) (x : Scan α) : Prop :=
  ∀ live, J (α × LiveSet) (x live)

end Scan

namespace Edit

open Scan

variable {J : (α : Type) → Edit α → Prop}

theorem HoldsOfMarking.scans (h : HoldsOfMarking J) : HoldsOfScans fun _ x => x.All J := by
  have hbind {α β : Type} {x : Scan α} {k : α → Scan β} (hx : x.All J) (hk : ∀ y, (k y).All J) :
      (x >>= k).All J :=
    fun live => h.bind (hx live) fun p => hk p.1 p.2
  have hlift {α : Type} {x : Edit α} (hx : J α x) : (liftM x : Scan α).All J :=
    fun _ => h.bind hx fun _ => h.pure _
  have hlook {α : Type} {view : Arena → Except Fault α} (hview : ∀ a, Clean (view a)) :
      (Scan.look view).All J :=
    hlift (h.look hview)
  exact {
    pure _ _ := h.pure _
    bind := hbind
    throw he _ := h.throw he
    look := hlook
    view hx := hlift (h.lift hx)
    get _ := h.pure _
    markUse u := hbind (hlook fun a => by simp) fun _ => hbind (fun _ => h.pure _) fun live =>
      hbind (hlift (h.lift (live.clean_mark _))) fun p _ => h.pure (p.1, p.2)
    record i live := hlift (h.record i live)
    countRound := hlift h.countRound }

/-- What holds of the steps holds of the scan of a region. -/
theorem HoldsOfMarking.region (h : HoldsOfMarking J)
    (hendless : ∀ α, J α (MonadExcept.throw .endless)) {always : Bool}
    {preheader : Option BlockId} {before : Except Fault BlockId} (hbefore : Clean before) {r : Region}
    (he : preheader = none → ∀ b ∈ r.preorder, ∀ i, J Unit (eliminate b i)) :
    (region always preheader before r).All J :=
  h.scans.region (fun _ => h.scans.visit fun _ _ => hendless _) hbefore (List.Subset.refl _)
    fun hp b hb i _ => h.bind (he hp b hb i) fun _ => h.pure _

/-- What holds of the steps of removing dead code holds of the pass. -/
theorem HoldsOfSteps.removeDead (h : HoldsOfSteps J) (f : FunctionId) (always : Bool) :
    J Bool (removeDead f always) := by
  refine h.bind (h.look fun a => a.clean_function f) fun g =>
    h.bind (h.lift (LiveSet.clean_ofCount _)) fun live =>
      h.bind (h.walk fun a => a.walks_bodyRegion f) fun r => h.bind ?_ fun _ =>
        h.bind (h.preserve f _) fun _ => h.pure _
  exact h.map (h.toHoldsOfMarking.region h.endless (by simp) (fun _ b _ => h.eliminate b) live)
    Prod.fst

/-- The analyses that a pass keeps. -/
def keptBy (progress : Bool) : Analyses :=
  if progress then ⟨true, true, false⟩ else .all

theorem removeDead_eq_ok {f : FunctionId} {always progress : Bool} :
    removeDead f always a = .ok progress a' ↔ ∃ g live region live' a₁, a.function f = .ok g
      ∧ LiveSet.ofCount g.valueCount = .ok live ∧ a.bodyRegion f = .ok region
      ∧ Scan.region always none (.error .outOfRange) region live a = .ok (progress, live') a₁
      ∧ preserve f (keptBy progress) a₁ = .ok () a' := by
  constructor
  · intro h
    obtain ⟨g, a₁, hlook, h⟩ := bind_eq_ok.mp h
    obtain ⟨live, a₂, hmake, h⟩ := bind_eq_ok.mp h
    obtain ⟨region, a₃, hread, h⟩ := bind_eq_ok.mp h
    obtain ⟨progress', a₄, hrun, h⟩ := bind_eq_ok.mp h
    obtain ⟨_, a₅, hpreserve, h⟩ := bind_eq_ok.mp h
    obtain ⟨rfl, rfl⟩ := pure_eq_ok.mp h
    obtain ⟨hg, rfl⟩ := look_eq_ok.mp hlook
    obtain ⟨hlive, rfl⟩ := liftM_eq_ok.mp hmake
    obtain ⟨hregion, rfl⟩ := look_eq_ok.mp hread
    obtain ⟨⟨_, live'⟩, hscan, rfl⟩ := map_eq_ok.mp hrun
    exact ⟨g, live, region, live', a₄, hg, hlive, hregion, hscan, hpreserve⟩
  · rintro ⟨g, live, region, live', a₁, hg, hlive, hregion, hscan, hpreserve⟩
    refine bind_eq_ok.mpr ⟨g, a, look_eq_ok.mpr ⟨hg, rfl⟩, bind_eq_ok.mpr ⟨live, a,
      liftM_eq_ok.mpr ⟨hlive, rfl⟩, bind_eq_ok.mpr ⟨region, a, look_eq_ok.mpr ⟨hregion, rfl⟩,
        bind_eq_ok.mpr ⟨progress, a₁, map_eq_ok.mpr ⟨_, hscan, rfl⟩, bind_eq_ok.mpr
          ⟨(), a', hpreserve, rfl⟩⟩⟩⟩⟩

end Edit

end ShaderCompiler
