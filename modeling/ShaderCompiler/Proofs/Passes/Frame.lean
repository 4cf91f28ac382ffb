import ShaderCompiler.Pass.Rounds
import ShaderCompiler.Proofs.Conserves
import ShaderCompiler.Proofs.DeadCode.Steps
import ShaderCompiler.Proofs.Forwarding.Run

/-!
# What passes leave alone

Passes turn uses and take instructions out of blocks. They touch neither edges nor numbers, and of
the functions only the analyses of the one that they work on, when they are done.
-/

namespace ShaderCompiler

variable {kept : Analyses}

namespace Arena

/-- The arena without values and uses, without the places of instructions, and without verdicts and
counters. -/
def frame (a : Arena) : Arena :=
  { a with
    values := #[]
    uses := #[]
    instrs := a.instrs.map fun ins => { ins with block := none, live := false }
    blocks := a.blocks.map fun bb => { bb with instrs := [] }
    counters := ⟨0, 0, 0, 0⟩ }

theorem functions_of_frame {a a' : Arena} (h : a'.frame = a.frame) : a'.functions = a.functions :=
  congrArg (·.functions) h

theorem frame_without (a : Arena) (b : BlockId) (i : InstrId) : (a.without b i).frame = a.frame := by
  have hblocks : (a.blocks.modify b.idx fun bb => { bb with instrs := bb.instrs.erase i }).map
      (fun bb => { bb with instrs := [] }) = a.blocks.map fun bb => { bb with instrs := [] } :=
    map_modify_of_eq fun _ => rfl
  have hinstrs : (a.instrs.modify i.idx fun ins => { ins with block := none }).map
      (fun ins => { ins with block := none, live := false })
        = a.instrs.map fun ins => { ins with block := none, live := false } :=
    map_modify_of_eq fun _ => rfl
  simp only [frame, without, modifyInstr, modifyBlock, hblocks, hinstrs]

theorem frame_record (a : Arena) (i : InstrId) (live : Bool) :
    (a.modifyInstr i fun ins => { ins with live := live }).frame = a.frame := by
  have hinstrs : (a.instrs.modify i.idx fun ins => { ins with live := live }).map
      (fun ins => { ins with block := none, live := false })
        = a.instrs.map fun ins => { ins with block := none, live := false } :=
    map_modify_of_eq fun _ => rfl
  simp only [frame, modifyInstr, hinstrs]

/-- A tree is cached only if it is marked as up to date. -/
def Trimmed (a : Arena) (f : FunctionId) : Prop :=
  ∀ g ∈ a.functions[f.idx]?, g.valid.dominance = false → g.dominance = none

/-- The frame is left alone, and then the analyses of a function are declared stale that do not
survive a pass. -/
def Declared (f : FunctionId) (progress : Bool) (a a' : Arena) : Prop :=
  ∃ a₁, a₁.frame = a.frame ∧ Edit.preserve f (Edit.keptBy progress) a₁ = .ok () a'

end Arena

namespace Edit

open Arena

variable {α β γ : Type} {a a' : Arena} {e f : FunctionId}

/-! ### Declaring analyses stale -/

/-- What is declared stale is not cached any more. -/
theorem trimmed_of_preserve (h : preserve f kept a = .ok () a') :
    a'.Trimmed f := by
  obtain rfl := preserve_eq_ok.mp h
  intro g hg hstale
  rw [modifyFunction_functions_get, if_pos rfl] at hg
  obtain ⟨g₀, -, rfl⟩ := Option.map_eq_some_iff.mp hg
  exact if_neg (by simpa using hstale)

theorem functions_of_preserve (h : preserve f kept a = .ok () a') (hne : e ≠ f) :
    a'.functions[e.idx]? = a.functions[e.idx]? := by
  obtain rfl := preserve_eq_ok.mp h
  rw [modifyFunction_functions_get, if_neg hne]

theorem code_of_preserve (h : preserve f kept a = .ok () a') :
    a'.code = a.code := by
  obtain rfl := preserve_eq_ok.mp h
  exact code_modifyFunction_of_bare fun _ => rfl

/-- Declaring nothing stale changes nothing, if nothing stale is cached. -/
theorem preserve_all (h : a.Trimmed f) : preserve f .all a = .ok () a := by
  rw [preserve_eq_ok]
  refine modifyFunction_eq_self _ _ _ fun g hg => ?_
  have hcached := h g hg
  obtain ⟨declaration, body, finish, count, ⟨order, tree, instrs⟩, cached⟩ := g
  cases tree with
  | true => simp [Analyses.inter, Analyses.all]
  | false => simpa [Analyses.inter, Analyses.all] using (hcached rfl).symm

end Edit

namespace Arena

variable {a a' : Arena} {e f : FunctionId} {progress : Bool}

theorem Declared.instrs (h : Declared f progress a a') : a'.frame.instrs = a.frame.instrs := by
  obtain ⟨a₁, hframe, hpreserve⟩ := h
  obtain rfl := Edit.preserve_eq_ok.mp hpreserve
  exact congrArg (·.instrs) hframe

/-- Whether other functions cache what is stale does not change. -/
theorem Declared.trimmed (h : Declared f progress a a') (ht : e ≠ f → a.Trimmed e) :
    a'.Trimmed e := by
  obtain ⟨a₁, hframe, hpreserve⟩ := h
  by_cases hne : e = f
  · exact hne ▸ Edit.trimmed_of_preserve hpreserve
  · intro g hg
    rw [Edit.functions_of_preserve hpreserve hne, functions_of_frame hframe] at hg
    exact ht hne g hg

end Arena

namespace Edit

open Arena

variable {α β γ : Type} {a a' : Arena} {e f : FunctionId}

/-! ### Forwarding copies -/

/-- A view that turning uses and counting have no part in. -/
structure Unturned {σ : Type} (q : Arena → σ) : Prop extends Unlisted q where
  count : ∀ k, (count k).Conserves q

/-- A view that turning uses, counting and taking out instructions have no part in. -/
structure Aloof {σ : Type} (q : Arena → σ) : Prop extends Unturned q where
  removeInstr : ∀ b i, (removeInstr b i).Conserves q

namespace Unturned

variable {σ : Type} {q : Arena → σ} (h : Unturned q)

include h

theorem conserves_composeLane (u : UseId) (choose : Arena → Nat → Except Fault Nat) (k : Nat) :
    (composeLane u choose k).Conserves q :=
  (conserves_look _).bind fun _ => (conserves_look _).bind fun _ =>
    h.conserves_setUse u fun _ => by rfl

theorem conserves_forwardExact (copy : Alu) (u : UseId) : (forwardExact copy u).Conserves q :=
  (conserves_look _).bind fun _ => conserves_ite
    ((conserves_look _).bind fun _ => (h.conserves_repoint u _).bind fun _ =>
      conserves_pure _) (conserves_pure _)

theorem conserves_forwardLanes (copy user : Alu) (k : Nat) (u : UseId) :
    (forwardLanes copy user k u).Conserves q := by
  refine (conserves_look _).bind fun _ => conserves_ite ?_ ?_
  · exact (conserves_looks.forM fun _ _ => h.conserves_composeLane u _ _).bind fun _ =>
      (conserves_look _).bind fun _ => (h.conserves_repoint u _).bind fun _ => conserves_pure _
  · refine (conserves_look _).bind fun _ => (conserves_look _).bind fun _ =>
      (conserves_look _).bind fun _ => conserves_ite ?_ (conserves_pure _)
    exact (conserves_looks.forM fun _ _ => h.conserves_composeLane u _ _).bind fun _ =>
      (h.conserves_repoint u _).bind fun _ => conserves_pure _

theorem conserves_forwardUse (copy : Alu) (u : UseId) : (forwardUse copy u).Conserves q := by
  refine (conserves_look _).bind fun position => ?_
  cases position with
  | none => exact h.conserves_forwardExact copy u
  | some position => exact h.conserves_forwardLanes copy position.1 position.2 u

theorem conserves_forwardEach {forward : UseId → Edit Bool} (hf : ∀ u, (forward u).Conserves q)
    (l : List UseId) (st : Bool × List InstrId) : (forwardEach forward l st).Conserves q := by
  induction l generalizing st with
  | nil => exact conserves_pure st
  | cons u l ih =>
    exact (hf u).bind fun _ => conserves_ite ((h.count _).bind fun _ =>
      (conserves_look _).bind fun _ => ih _) (ih _)

end Unturned

namespace Aloof

variable {σ : Type} {q : Arena → σ} (h : Aloof q)

include h

theorem conserves_visitCopy (i : InstrId) (p : Alu) (queue : List InstrId) :
    (visitCopy i p queue).Conserves q := by
  refine (conserves_liftM _).bind fun dest => (conserves_look _).bind fun _ =>
    (h.conserves_forwardEach (h.conserves_forwardUse p) _ _).bind fun _ =>
      (conserves_look _).bind fun _ =>
        (h.conserves_forwardEach (h.conserves_forwardExact p) _ _).bind fun st =>
          (conserves_look _).bind fun _ => conserves_ite ?_ (conserves_pure st)
  exact (conserves_look _).bind fun _ => (conserves_liftM _).bind fun b =>
    (h.removeInstr b i).bind fun _ => (h.count _).bind fun _ => conserves_pure st

end Aloof

theorem frame_count (k : Counters → Counters) : (count k).Conserves frame :=
  conserves_modify fun _ => rfl

theorem aloof_frame : Aloof frame where
  modify _ _ _ _ := rfl
  withUses _ _ _ _ := rfl
  count := frame_count
  removeInstr b i := by
    intro a y a' h
    obtain ⟨-, a₁, hdrop, rfl⟩ := exists_of_removeInstr h
    have hplaceless : Placeless frame := ⟨fun _ _ _ => rfl, fun _ _ _ _ => rfl⟩
    exact (frame_without a₁ b i).trans (hplaceless.conserves_dropSources i hdrop)

theorem forwardCopies_frame {progress : Bool} (h : forwardCopies f a = .ok progress a') :
    Declared f progress a a' := by
  obtain ⟨blocks, a₁, hblocks, h⟩ := bind_eq_ok.mp h
  obtain ⟨st, a₂, hvisits, h⟩ := bind_eq_ok.mp h
  obtain ⟨_, a₃, hget, h⟩ := bind_eq_ok.mp h
  obtain ⟨progress', a₄, hdrain, h⟩ := bind_eq_ok.mp h
  obtain ⟨_, a₅, hpreserve, h⟩ := bind_eq_ok.mp h
  obtain ⟨rfl, rfl⟩ := pure_eq_ok.mp h
  obtain ⟨-, rfl⟩ := look_eq_ok.mp hblocks
  obtain ⟨-, rfl⟩ := get_eq_ok.mp hget
  refine ⟨a₄, ?_, hpreserve⟩
  exact (conserves_looks.drainQueue aloof_frame.conserves_visitCopy _ _ _ hdrain).trans
    (conserves_looks.foldlM (fun st b _ =>
      conserves_looks.visitBlock aloof_frame.conserves_visitCopy st b) _ hvisits)

/-! ### Removing dead code -/

theorem frame_eliminate (b : BlockId) (i : InstrId) : (eliminate b i).Conserves frame :=
  (aloof_frame.removeInstr b i).bind fun _ => frame_count _

theorem frame_marking : HoldsOfMarking fun _ x => x.Conserves frame where
  toHoldsOfViews := conserves_looks.toHoldsOfViews
  record i live := conserves_modify fun a => a.frame_record i live
  countRound := frame_count _

theorem removeDead_frame {always progress : Bool} (h : removeDead f always a = .ok progress a') :
    Declared f progress a a' := by
  obtain ⟨g, live, region, live', a₁, -, -, -, hscan, hpreserve⟩ := removeDead_eq_ok.mp h
  exact ⟨a₁, frame_marking.region (fun _ => conserves_throw _) (by simp)
    (fun _ b _ => frame_eliminate b) live hscan, hpreserve⟩

end Edit

end ShaderCompiler
