import ShaderCompiler.Pass.Rounds
import ShaderCompiler.Proofs.DeadCode.Steps
import ShaderCompiler.Proofs.Exact.Runs
import ShaderCompiler.Proofs.Forwarding.Fold

/-!
# Passes keep use-lists exact

Forwarding goes over the uses of a copy by a list that was read off before. A use that turns to
another value keeps a place, so all uses of the list have one when it is their turn, and none is
found missing. Removing dead code drops uses from lists, and never asks a use for a place that it
does not have.
-/

namespace ShaderCompiler

variable {u : UseId} {v : Option ValueId} {kind : Change} {n : Nat}

namespace Edit

open Arena

variable {α β γ : Type} {a a' : Arena}

/-! ### Forwarding -/

/-- A sound run that ends well only if it did nothing but turn uses. -/
structure Turns (x : Edit α) (a : Arena) : Prop where
  runs : x.Runs .removing a
  drift : ∀ y a', x a = .ok y a' → a.Drift .turning a'

theorem Turns.bind {x : Edit α} {k : α → Edit β} (hx : x.Turns a)
    (hk : ∀ y a', x a = .ok y a' → a'.Tidy → a.Drift .turning a' → (k y).Turns a') :
    (x >>= k).Turns a where
  runs := hx.runs.bind fun y a' h ha' _ => (hk y a' h ha' (hx.drift y a' h)).runs
  drift z a'' h := by
    obtain ⟨y, a', hy, hz⟩ := bind_eq_ok.mp h
    have hdrift := hx.drift y a' hy
    have htidy : a'.Tidy := after_of_ok hy ▸ hx.runs.tidy
    exact hdrift.trans ((hk y a' hy htidy hdrift).drift z a'' hz)

theorem Keeps.turns {x : Edit α} (hx : x.Keeps .turning 0) (ha : a.Tidy) : x.Turns a where
  runs :=
    { tidy := (hx a ha (Nat.zero_le _)).tidy
      drift := (hx a ha (Nat.zero_le _)).drift.of_turning
      clean := (hx a ha (Nat.zero_le _)).clean }
  drift _ _ h := after_of_ok h ▸ (hx a ha (Nat.zero_le _)).drift

theorem turns_repoint (ha : a.Tidy) (hu : a.Attached u)
    (hv : ∀ w, v = some w → a.There w) : (repoint u v).Turns a where
  runs := runs_repoint_of_attached (by simp) ha hu hv
  drift _ a' h := by
    obtain ⟨w, rfl⟩ := repoint_isSome h
    obtain ⟨a₁, hrun, -, hdrift⟩ := ha.turn hu (hv w rfl)
    cases hrun.symm.trans h
    exact hdrift

theorem keeps_composeLane (u : UseId)
    {choose : Arena → Nat → Except Fault Nat} (h : ∀ a lane, Clean (choose a lane)) (i : Nat) :
    (composeLane u choose i).Keeps kind n := by
  refine (keeps_look fun a => by simp).bind fun lane => (keeps_look fun a => h a lane).bind
    fun selected => keeps_setUse u ?_
  exact fun _ => rfl

/-- The source of a copy reads a value of the arena. -/
theorem there_of_look {srcs : List (Option UseId)} {k : Nat} {source : Use} (ha : a.Tidy)
    (h : look (fun a => do a.use (← present (← entry srcs k))) a = .ok source a') :
    a' = a ∧ ∀ w, source.value = some w → a.There w := by
  obtain ⟨hsource, rfl⟩ := look_eq_ok.mp h
  simp only [except_bind_eq_ok, use_eq_ok] at hsource
  obtain ⟨-, -, t, -, ht⟩ := hsource
  exact ⟨rfl, fun w hw => ha.there t source w ht hw⟩

theorem turns_repoint_true (ha : a.Tidy) (hu : a.Attached u)
    (hv : ∀ w, v = some w → a.There w) : (repoint u v >>= fun _ => pure true).Turns a :=
  (turns_repoint ha hu hv).bind fun _ _ _ ha' _ => (keeps_pure true).turns ha'

/-- A use turns to the source of a copy. -/
theorem turns_repoint_source (copy : Alu) (k : Nat) (ha : a.Tidy) (hu : a.Attached u) :
    (do
      let source ← look fun a => do a.use (← present (← entry copy.srcs k))
      repoint u source.value
      return true : Edit Bool).Turns a := by
  refine ((keeps_look fun a => by simp).turns ha).bind fun source a' h _ _ => ?_
  obtain ⟨rfl, hthere⟩ := there_of_look ha h
  exact turns_repoint_true ha hu hthere

theorem turns_forwardExact (copy : Alu) (ha : a.Tidy) (hu : a.Attached u) :
    (forwardExact copy u).Turns a := by
  refine ((keeps_look fun a => a.clean_isExactCopy copy).turns ha).bind fun exact a' _ ha' hd => ?_
  split
  · exact turns_repoint_source copy 0 ha' (hd.loss rfl u hu)
  · exact (keeps_pure false).turns ha'

theorem turns_forwardLanes (copy user : Alu) (k : Nat) (ha : a.Tidy)
    (hu : a.Attached u) : (forwardLanes copy user k u).Turns a := by
  refine ((keeps_look fun a => a.clean_sourceWidth user k).turns ha).bind
    fun width a₁ _ ha₁ hd₁ => ?_
  split
  · refine ((keeps_looks.forM fun i _ => keeps_composeLane u ?_ i).turns ha₁).bind
      fun _ a₂ _ ha₂ hd₂ => ?_
    · exact fun a lane => by simp
    · exact turns_repoint_source copy 0 ha₂ ((hd₁.trans hd₂).loss rfl u hu)
  · refine ((keeps_look fun a => a.clean_use u).turns ha₁).bind fun use a₂ _ ha₂ hd₂ => ?_
    refine ((keeps_look fun a => by simp).turns ha₂).bind fun source a₃ h₃ _ _ => ?_
    obtain ⟨rfl, hthere⟩ := there_of_look ha₂ h₃
    refine ((keeps_look fun a => a.clean_selectsOneValue _ _ _ _).turns ha₂).bind
      fun one a₄ _ ha₄ hd₄ => ?_
    split
    · refine ((keeps_looks.forM fun i _ => keeps_composeLane u ?_ i).turns ha₄).bind
        fun _ a₅ _ ha₅ hd₅ => ?_
      · exact fun a lane => by simp
      · have hd := hd₁.trans (hd₂.trans (hd₄.trans hd₅))
        exact turns_repoint_true ha₅ (hd.loss rfl u hu)
          fun w hw => (hd₄.trans hd₅).there (hthere w hw)
    · exact (keeps_pure false).turns ha₄

theorem turns_forwardUse (copy : Alu) (ha : a.Tidy) (hu : a.Attached u) :
    (forwardUse copy u).Turns a := by
  refine ((keeps_look fun a => a.clean_aluPosition u).turns ha).bind fun position a' _ ha' hd => ?_
  split
  · exact turns_forwardLanes copy _ _ ha' (hd.loss rfl u hu)
  · exact turns_forwardExact copy ha' (hd.loss rfl u hu)

/-- Uses that have places at the start have them still when it is their turn. -/
theorem turns_forwardEach {forward : UseId → Edit Bool}
    (hforward : ∀ (a : Arena) u, a.Tidy → a.Attached u → (forward u).Turns a) {l : List UseId}
    (st : Bool × List InstrId) (ha : a.Tidy) (hl : ∀ u ∈ l, a.Attached u) :
    (forwardEach forward l st).Turns a := by
  induction l generalizing st a with
  | nil => exact (keeps_pure st).turns ha
  | cons u rest ih =>
    refine (hforward a u ha (hl u List.mem_cons_self)).bind fun moved a₁ _ ha₁ hd₁ => ?_
    have hrest {a' : Arena} (hd : a.Drift .turning a') : ∀ t ∈ rest, a'.Attached t :=
      fun t ht => hd.loss rfl t (hl t (List.mem_cons_of_mem _ ht))
    split
    · refine ((keeps_count _).turns ha₁).bind fun _ a₂ _ ha₂ hd₂ => ?_
      refine ((keeps_look fun a => a.clean_copiesAround u).turns ha₂).bind fun more a₃ _ ha₃ hd₃ => ?_
      exact ih _ ha₃ (hrest ((hd₁.trans hd₂).trans hd₃))
    · exact ih _ ha₁ (hrest hd₁)

theorem keeps_visitCopy (i : InstrId) (p : Alu) (queue : List InstrId) :
    (visitCopy i p queue).Keeps .removing 0 := by
  refine keeps_looks.present_bind fun dest _ a ha hn => ?_
  have hlook (a : Arena) : Clean (a.value dest) := a.clean_value dest
  refine (keeps_look hlook a ha hn).bind fun x a' h _ _ => ?_
  obtain ⟨hx, rfl⟩ := look_eq_ok.mp h
  have huses (u : UseId) (hu : u ∈ x.uses) : a.Attached u :=
    ha.attached_of_mem (c := false) (value_eq_ok.mp hx) hu
  refine (turns_forwardEach (fun a u ha hu => turns_forwardUse p ha hu) _ ha huses).runs.bind
    fun st a₁ _ ha₁ _ => ?_
  refine (keeps_look hlook a₁ ha₁ (Nat.zero_le _)).bind fun y a' h _ _ => ?_
  obtain ⟨hy, rfl⟩ := look_eq_ok.mp h
  have hconditions (u : UseId) (hu : u ∈ y.conditions) : a₁.Attached u :=
    ha₁.attached_of_mem (c := true) (value_eq_ok.mp hy) hu
  refine (turns_forwardEach (fun a u ha hu => turns_forwardExact p ha hu) _ ha₁ hconditions).runs.bind
    fun st a₂ _ ha₂ _ => ?_
  refine ((keeps_look hlook).bind fun _ => keeps_ite ?_ (keeps_pure st)) a₂ ha₂ (Nat.zero_le _)
  exact (keeps_look fun a => a.clean_instr i).bind fun _ => (keeps_present _).bind fun b =>
    (keeps_removeInstr b i).bind fun _ => (keeps_count _).bind fun _ => keeps_pure st

theorem keeps_preserve (f : FunctionId) (kept : Analyses) :
    (preserve f kept).Keeps kind n :=
  keeps_setFunction f _

theorem keeps_forwardCopies (f : FunctionId) : (forwardCopies f).Keeps .removing 0 :=
  keeps_looks.forwardCopies keeps_visitCopy f (keeps_preserve f)

/-! ### Removing dead code -/

theorem keeps_steps : HoldsOfSteps fun _ x => x.Keeps .removing 0 where
  toHoldsOfLooks := keeps_looks
  record i _ := keeps_setInstr i _
  countRound := keeps_count _
  eliminate b i := (keeps_removeInstr b i).bind fun _ => keeps_count _
  preserve := keeps_preserve

theorem keeps_removeDead (f : FunctionId) (always : Bool) :
    (removeDead f always).Keeps .removing 0 :=
  keeps_steps.removeDead f always

theorem keeps_declarationOf (f : FunctionId) :
    (declarationOf f).Keeps kind n :=
  (keeps_look fun a => a.clean_function f).bind fun _ => keeps_present _

theorem keeps_forEachBody (s : Shader) {change : FunctionId → Edit Bool}
    (h : ∀ f, (change f).Keeps kind n) : (forEachBody s change).Keeps kind n :=
  keeps_looks.foldlM (fun _ f _ => (keeps_declarationOf f).bind fun _ => keeps_ite
    ((h f).bind fun _ => keeps_pure _) (keeps_pure _)) _

end Edit

theorem Pass.keeps_run (s : Shader) (p : Pass) : (p.run s).Keeps .removing 0 := by
  cases p with
  | forwardCopies => exact Edit.keeps_forEachBody s Edit.keeps_forwardCopies
  | removeDead => exact Edit.keeps_forEachBody s fun f => Edit.keeps_removeDead f false

end ShaderCompiler
