import Mathlib
import ShaderCompiler.Dominators

/-!
# Reachability and dominance along paths

`Reaches root edge closed b` says that some path from the root leads to `b` without entering
a closed node. Node `d` dominates `b` if `b` can not be reached once `d` is closed; for a node
that can be reached at all this says that every path to it passes through `d`.

The relation is what simulations of a flow graph use: a dominator of a block other than the
block itself dominates each predecessor that can be reached, and two different nodes that can be
reached do not dominate each other.

The second half shows that the search `FlowGraph.explore` finds exactly the nodes that a path
leads to: it has enough steps to visit all of them. So the dominators of a node that are computed
are its dominators.

The dominators of a node that can be reached lie on one line: of two of them, one dominates the
other. So a node other than the root has a dominator whose own dominators are all the others, and
the number of strict dominators is a depth in a tree.
-/

namespace ShaderCompiler

variable {seen pending l : List Nat} {n : Nat}

section Paths

variable {α : Type} {root : α} {edge : α → α → Prop} {closed : α → Prop} {x y z : α}

/-- Some path from the root leads to a node and enters no closed node. -/
inductive Reaches (root : α) (edge : α → α → Prop) (closed : α → Prop) : α → Prop
  | root (h : ¬ closed root) : Reaches root edge closed root
  | step {x y : α} (hx : Reaches root edge closed x) (he : edge x y) (hy : ¬ closed y) :
      Reaches root edge closed y

/-- Every path from the root to `b` passes through `d`. -/
def Dominates (root : α) (edge : α → α → Prop) (d b : α) : Prop :=
  ¬ Reaches root edge (· = d) b

theorem Reaches.not_closed (h : Reaches root edge closed x) : ¬ closed x := by
  cases h with
  | root h => exact h
  | step _ _ h => exact h

theorem Reaches.mono {closed' : α → Prop} (hc : ∀ z, closed' z → closed z)
    (h : Reaches root edge closed x) : Reaches root edge closed' x := by
  induction h with
  | root h => exact .root fun h' => h (hc _ h')
  | step _ he hy ih => exact .step ih he fun h' => hy (hc _ h')

/-- Edges that agree within a set that holds the root and is not left reach the same nodes. -/
theorem Reaches.of_edges {edge' : α → α → Prop} {S : α → Prop} (hroot : S root)
    (hedge : ∀ x y, S x → edge x y → edge' x y ∧ S y) (h : Reaches root edge closed x) :
    Reaches root edge' closed x := by
  have hboth : S x ∧ Reaches root edge' closed x := by
    induction h with
    | root hr => exact ⟨hroot, .root hr⟩
    | step _ he hy ih =>
      obtain ⟨he', hS⟩ := hedge _ _ ih.1 he
      exact ⟨hS, ih.2.step he' hy⟩
  exact hboth.2

theorem Dominates.refl (x : α) : Dominates root edge x x :=
  fun h => h.not_closed rfl

/-- No path avoids its start. -/
theorem Dominates.of_root (x : α) : Dominates root edge root x := by
  intro h
  induction h with
  | root hr => exact hr rfl
  | step _ _ _ ih => exact ih

/-- A path that avoids `x` and reaches `z` avoids `y` as well, if no such path reaches `y`. -/
theorem Reaches.avoids_of_dominates (hz : Reaches root edge (· = x) z)
    (hxy : Dominates root edge x y) : Reaches root edge (· = y) z := by
  induction hz with
  | root h =>
    refine .root fun hy => ?_
    exact hxy (hy ▸ .root h)
  | step hz he hne ih =>
    refine .step ih he fun hy => ?_
    exact hxy (hy ▸ hz.step he hne)

theorem Dominates.trans (hxy : Dominates root edge x y) (hyz : Dominates root edge y z) :
    Dominates root edge x z :=
  fun h => hyz (h.avoids_of_dominates hxy)

/-- A dominator of a node other than the node itself dominates its predecessors. -/
theorem Dominates.of_edge (h : Dominates root edge x z) (he : edge y z) (hne : z ≠ x) :
    Dominates root edge x y :=
  fun hy => h (hy.step he hne)

/-- A dominator of a node that can be reached can be reached. -/
theorem Dominates.reaches (h : Dominates root edge x y)
    (hy : Reaches root edge (fun _ => False) y) : Reaches root edge (fun _ => False) x := by
  have hpath : Reaches root edge (· = x) y ∨ Reaches root edge (fun _ => False) x := by
    clear h
    induction hy with
    | root hr =>
      by_cases hx : root = x
      · exact .inr (hx ▸ .root hr)
      · exact .inl (.root hx)
    | @step w z hw he hz ih =>
      rcases ih with hreach | hreach
      · by_cases hx : z = x
        · exact .inr (hx ▸ hw.step he hz)
        · exact .inl (hreach.step he hx)
      · exact .inr hreach
  exact hpath.resolve_left h

/-- On the way to any node, one of two different nodes is met first, or none of them. -/
theorem Reaches.first_of_two (hxy : x ≠ y) (hz : Reaches root edge (fun _ => False) z) :
    Reaches root edge (· = y) x ∨ Reaches root edge (· = x) y ∨
      Reaches root edge (fun w => w = x ∨ w = y) z := by
  have meet {w : α} (h : ¬ (w = x ∨ w = y) → Reaches root edge (fun w => w = x ∨ w = y) w)
      (hx : w = x → Reaches root edge (· = y) x) (hy : w = y → Reaches root edge (· = x) y) :
      Reaches root edge (· = y) x ∨ Reaches root edge (· = x) y ∨
        Reaches root edge (fun w => w = x ∨ w = y) w := by
    by_cases h1 : w = x
    · exact Or.inl (hx h1)
    · by_cases h2 : w = y
      · exact Or.inr (Or.inl (hy h2))
      · exact Or.inr (Or.inr (h (by simp [h1, h2])))
  induction hz with
  | root _ =>
    refine meet (fun h => .root h) (fun h => ?_) fun h => ?_
    · subst h
      exact .root hxy
    · subst h
      exact .root hxy.symm
  | step _ he _ ih =>
    rcases ih with h | h | h
    · exact Or.inl h
    · exact Or.inr (Or.inl h)
    · refine meet (fun hw => h.step he hw) (fun hw => ?_) fun hw => ?_
      · subst hw
        exact (h.mono fun _ => Or.inr).step he hxy
      · subst hw
        exact (h.mono fun _ => Or.inl).step he hxy.symm

theorem Dominates.antisymm (hxy : Dominates root edge x y) (hyx : Dominates root edge y x)
    (hx : Reaches root edge (fun _ => False) x) : x = y := by
  by_contra hne
  rcases hx.first_of_two hne with h | h | h
  · exact hyx h
  · exact hxy h
  · exact h.not_closed (Or.inl rfl)

/-- Of two dominators of a node that can be reached, one dominates the other. -/
theorem Dominates.total (hx : Dominates root edge x z) (hy : Dominates root edge y z)
    (hz : Reaches root edge (fun _ => False) z) :
    Dominates root edge x y ∨ Dominates root edge y x := by
  by_contra h
  obtain ⟨hxy, hyx⟩ := not_or.mp h
  have hxy : Reaches root edge (· = x) y := not_not.mp hxy
  have hyx : Reaches root edge (· = y) x := not_not.mp hyx
  -- Some path to `z` avoids the one of the two nodes that comes first on it.
  have hne : x ≠ y := fun e => hxy.not_closed e.symm
  have hpath : Reaches root edge (· = x) z ∨ Reaches root edge (· = y) z := by
    clear hx hy
    induction hz with
    | root _ =>
      by_cases hr : root = x
      · exact .inr (.root fun h => hne (hr.symm.trans h))
      · exact .inl (.root hr)
    | @step w z _ he _ ih =>
      rcases ih with ih | ih
      · by_cases hzx : z = x
        · exact .inr (hzx ▸ hyx)
        · exact .inl (ih.step he hzx)
      · by_cases hzy : z = y
        · exact .inl (hzy ▸ hxy)
        · exact .inr (ih.step he hzy)
  exact hpath.elim hx hy

end Paths

/-! ### The search -/

namespace FlowGraph

variable (g : FlowGraph) {closed : Option Nat} {x y b d : Nat}

/-- Whether the graph has an edge between two nodes. -/
def Edge (x y : Nat) : Prop := (x, y) ∈ g.edges

theorem mem_targets : y ∈ g.targets x ↔ g.Edge x y := by
  simp only [targets, List.mem_filterMap, Edge]
  constructor
  · rintro ⟨⟨x', y'⟩, he, h⟩
    split at h
    case isTrue hx =>
      cases h
      exact hx ▸ he
    case isFalse => cases h
  · intro he
    exact ⟨(x, y), he, by simp⟩

/-- The edges that leave nodes which were not visited yet. -/
def fresh (seen : List Nat) : List (Nat × Nat) :=
  g.edges.filter fun e => e.1 ∉ seen

theorem length_targets_add_fresh (hx : x ∉ seen) :
    (g.targets x).length + (g.fresh (x :: seen)).length = (g.fresh seen).length := by
  simp only [targets, fresh, List.mem_cons]
  induction g.edges with
  | nil => rfl
  | cons e es ih =>
    by_cases he : e.1 = x
    · subst he
      simp only [List.filterMap_cons, List.filter_cons, hx, ↓reduceIte, true_or, decide_not,
        decide_true, Bool.not_true, Bool.false_eq_true, decide_false, Bool.not_false,
        List.length_cons] at ih ⊢
      omega
    · by_cases hs : e.1 ∈ seen
      · simpa [List.filterMap_cons, List.filter_cons, he, hs] using ih
      · simp only [List.filterMap_cons, List.filter_cons, he, hs, ↓reduceIte, or_self,
          decide_false, decide_not, Bool.not_false, List.length_cons] at ih ⊢
        omega

/-- With a step for each pending node and each edge that may still be followed, the search
keeps what it has seen, visits what is pending and ends with a closed set. -/
theorem explore_complete (closed : Option Nat) (n : Nat) (pending seen : List Nat)
    (hn : pending.length + (g.fresh seen).length ≤ n)
    (hseen : ∀ x ∈ seen, ∀ y, g.Edge x y → closed ≠ some y → y ∈ seen ∨ y ∈ pending) :
    (∀ x ∈ seen, x ∈ g.explore closed n pending seen) ∧
      (∀ x ∈ pending, closed ≠ some x → x ∈ g.explore closed n pending seen) ∧
      ∀ x ∈ g.explore closed n pending seen, ∀ y, g.Edge x y → closed ≠ some y →
        y ∈ g.explore closed n pending seen := by
  induction n generalizing pending seen with
  | zero =>
    have hp : pending = [] := List.eq_nil_of_length_eq_zero (by omega)
    subst hp
    simp only [explore]
    exact ⟨fun _ h => h, by simp, fun x hx y he hy => by simpa using hseen x hx y he hy⟩
  | succ n ih =>
    cases pending with
    | nil =>
      simp only [explore]
      exact ⟨fun _ h => h, by simp, fun x hx y he hy => by simpa using hseen x hx y he hy⟩
    | cons x pending =>
      rw [List.length_cons] at hn
      rw [explore]
      split
      case isTrue h =>
        -- The node is closed or known already, so nothing new is pending.
        obtain ⟨h1, h2, h3⟩ := ih pending seen (by omega) fun z hz y he hy => by
          rcases hseen z hz y he hy with hm | hm
          · exact Or.inl hm
          · rcases List.mem_cons.mp hm with rfl | hm
            · exact Or.inl (h.resolve_left hy)
            · exact Or.inr hm
        refine ⟨h1, fun z hz hc => ?_, h3⟩
        rcases List.mem_cons.mp hz with rfl | hz
        · exact h1 z (h.resolve_left hc)
        · exact h2 z hz hc
      case isFalse h =>
        obtain ⟨_, hx⟩ := not_or.mp h
        have hlen := g.length_targets_add_fresh hx
        obtain ⟨h1, h2, h3⟩ := ih (g.targets x ++ pending) (x :: seen)
          (by rw [List.length_append]; omega) fun z hz y he hy => by
            rcases List.mem_cons.mp hz with rfl | hz
            · exact Or.inr (List.mem_append_left _ (g.mem_targets.mpr he))
            · rcases hseen z hz y he hy with hm | hm
              · exact Or.inl (List.mem_cons_of_mem _ hm)
              · rcases List.mem_cons.mp hm with rfl | hm
                · exact Or.inl List.mem_cons_self
                · exact Or.inr (List.mem_append_right _ hm)
        refine ⟨fun z hz => h1 z (List.mem_cons_of_mem _ hz), fun z hz hc => ?_, h3⟩
        rcases List.mem_cons.mp hz with rfl | hz
        · exact h1 z List.mem_cons_self
        · exact h2 z (List.mem_append_right _ hz) hc

/-- Every node that a path leads to is found. -/
theorem mem_reachable (h : Reaches g.root g.Edge (closed = some ·) x) :
    x ∈ g.reachable closed := by
  have hfresh : (g.fresh []).length ≤ g.edges.length := List.length_filter_le ..
  obtain ⟨-, h2, h3⟩ := g.explore_complete closed (g.edges.length + 1) [g.root] []
    (by simp only [List.length_singleton]; omega) (by simp)
  induction h with
  | root hc => exact h2 _ (by simp) hc
  | step _ he hy ih => exact h3 _ ih _ he hy

/-! ### The search is sound -/

theorem explore_sound
    (hpending : ∀ x ∈ pending, closed ≠ some x → Reaches g.root g.Edge (closed = some ·) x)
    (hseen : ∀ x ∈ seen, Reaches g.root g.Edge (closed = some ·) x) :
    ∀ x ∈ g.explore closed n pending seen, Reaches g.root g.Edge (closed = some ·) x := by
  induction n generalizing pending seen with
  | zero => exact hseen
  | succ n ih =>
    cases pending with
    | nil => exact hseen
    | cons x pending =>
      rw [explore]
      split
      case isTrue => exact ih (fun y hy => hpending y (List.mem_cons_of_mem x hy)) hseen
      case isFalse h =>
        obtain ⟨hopen, -⟩ := not_or.mp h
        have hx := hpending x List.mem_cons_self hopen
        refine ih (fun y hy hopen' => ?_) fun y hy => ?_
        · rcases List.mem_append.mp hy with hy | hy
          · exact hx.step (g.mem_targets.mp hy) hopen'
          · exact hpending y (List.mem_cons_of_mem x hy) hopen'
        · rcases List.mem_cons.mp hy with rfl | hy
          · exact hx
          · exact hseen y hy

theorem nodup_explore (h : seen.Nodup) :
    (g.explore closed n pending seen).Nodup := by
  induction n generalizing pending seen with
  | zero => exact h
  | succ n ih =>
    cases pending with
    | nil => exact h
    | cons x pending =>
      rw [explore]
      split
      case isTrue => exact ih h
      case isFalse hx => exact ih (List.nodup_cons.mpr ⟨(not_or.mp hx).2, h⟩)

/-- The search finds exactly the nodes that a path leads to. -/
theorem mem_reachable_iff :
    x ∈ g.reachable closed ↔ Reaches g.root g.Edge (closed = some ·) x := by
  refine ⟨fun h => ?_, g.mem_reachable⟩
  refine g.explore_sound (fun y hy hopen => ?_) (by simp) x h
  rw [List.mem_singleton.mp hy] at hopen ⊢
  exact .root hopen

theorem mem_reachable_none : x ∈ g.reachable none ↔ Reaches g.root g.Edge (fun _ => False) x := by
  rw [mem_reachable_iff]
  exact ⟨fun h => h.mono (by simp), fun h => h.mono (by simp)⟩

theorem notMem_reachable_some : b ∉ g.reachable (some d) ↔ Dominates g.root g.Edge d b := by
  rw [mem_reachable_iff, Dominates, not_iff_not]
  exact ⟨fun h => h.mono fun _ hz => congrArg some hz.symm,
    fun h => h.mono fun _ hz => (Option.some.inj hz).symm⟩

/-! ### Strict dominators -/

/-- The strict dominators of a node. -/
def dominatorsOf (b : Nat) : List Nat :=
  (g.reachable none).filter fun d => d ≠ b ∧ b ∉ g.reachable (some d)

theorem strictDominators_eq :
    g.strictDominators = (g.reachable none).map fun b => (b, g.dominatorsOf b) := by
  simp only [strictDominators, dominatorsOf, List.filter_map, List.map_map]
  refine List.map_congr_left fun b _ => ?_
  simp [Function.comp_def]

theorem nodup_dominatorsOf (b : Nat) : (g.dominatorsOf b).Nodup :=
  (g.nodup_explore List.nodup_nil).filter _

theorem mem_dominatorsOf : d ∈ g.dominatorsOf b ↔
    Reaches g.root g.Edge (fun _ => False) d ∧ d ≠ b ∧ Dominates g.root g.Edge d b := by
  simp only [dominatorsOf, List.mem_filter, mem_reachable_none, decide_eq_true_eq,
    notMem_reachable_some]

variable {g}

/-- Dominators of a strict dominator are strict dominators, and it is not one of them. -/
theorem dominatorsOf_subset (hd : d ∈ g.dominatorsOf b) :
    d :: g.dominatorsOf d ⊆ g.dominatorsOf b := by
  intro e he
  rcases List.mem_cons.mp he with rfl | he
  · exact hd
  obtain ⟨hreach, hne, hdom⟩ := g.mem_dominatorsOf.mp hd
  obtain ⟨hreach', hne', hdom'⟩ := g.mem_dominatorsOf.mp he
  refine g.mem_dominatorsOf.mpr ⟨hreach', ?_, hdom'.trans hdom⟩
  rintro rfl
  exact hne (hdom.antisymm hdom' hreach)

theorem nodup_cons_dominatorsOf (d : Nat) : (d :: g.dominatorsOf d).Nodup :=
  List.nodup_cons.mpr ⟨fun h => (g.mem_dominatorsOf.mp h).2.1 rfl, g.nodup_dominatorsOf d⟩

theorem length_dominatorsOf_lt (hd : d ∈ g.dominatorsOf b) :
    (g.dominatorsOf d).length < (g.dominatorsOf b).length :=
  (List.subperm_of_subset (nodup_cons_dominatorsOf d) (dominatorsOf_subset hd)).length_le

/-- If the depths differ by one, there is no dominator in between. -/
theorem mem_dominatorsOf_of_length (hd : d ∈ g.dominatorsOf b)
    (hlength : (g.dominatorsOf d).length + 1 = (g.dominatorsOf b).length) :
    x ∈ g.dominatorsOf b ↔ x = d ∨ x ∈ g.dominatorsOf d := by
  have hperm : (d :: g.dominatorsOf d).Perm (g.dominatorsOf b) :=
    (List.subperm_of_subset (nodup_cons_dominatorsOf d) (dominatorsOf_subset hd)).perm_of_length_le
      (by simp [hlength])
  rw [← hperm.mem_iff, List.mem_cons]

/-- A node with strict dominators has one that is a single level above it: the deepest. -/
theorem exists_immediate (hb : Reaches g.root g.Edge (fun _ => False) b)
    (hne : g.dominatorsOf b ≠ []) :
    ∃ d ∈ g.dominatorsOf b, (g.dominatorsOf d).length + 1 = (g.dominatorsOf b).length := by
  obtain ⟨d, hd, hmax⟩ := (g.dominatorsOf b).toFinset.exists_max_image
    (fun d => (g.dominatorsOf d).length) (by simpa using hne)
  simp only [List.mem_toFinset] at hd hmax
  refine ⟨d, hd, ?_⟩
  have hsub : g.dominatorsOf b ⊆ d :: g.dominatorsOf d := by
    intro e he
    by_cases hed : e = d
    · exact hed ▸ List.mem_cons_self
    obtain ⟨hreach, -, hdom⟩ := g.mem_dominatorsOf.mp he
    obtain ⟨hreach', -, hdom'⟩ := g.mem_dominatorsOf.mp hd
    rcases hdom.total hdom' hb with h | h
    · exact List.mem_cons_of_mem d (g.mem_dominatorsOf.mpr ⟨hreach, hed, h⟩)
    · -- Otherwise `e` would be deeper.
      have hlt := length_dominatorsOf_lt (g.mem_dominatorsOf.mpr ⟨hreach', Ne.symm hed, h⟩)
      exact absurd (hmax e he) (by omega)
  have hle := (List.subperm_of_subset (g.nodup_dominatorsOf b) hsub).length_le
  have hlt := length_dominatorsOf_lt hd
  simp only [List.length_cons] at hle
  omega

/-! ### What is looked up -/

theorem lookup_map_of_mem {β : Type} (k : Nat → β) :
    (l.map fun b => (b, k b)).lookup x = if x ∈ l then some (k x) else none := by
  induction l with
  | nil => rfl
  | cons b l ih =>
    rw [List.map_cons, List.lookup_cons]
    by_cases h : x = b
    · subst h
      simp
    · rw [beq_false_of_ne h]
      simp [ih, h]

theorem lookup_filterMap (k : Nat → Option Nat) :
    (l.filterMap fun b => (k b).map fun d => (b, d)).lookup x = if x ∈ l then k x else none := by
  induction l with
  | nil => rfl
  | cons b l ih =>
    rw [List.filterMap_cons]
    by_cases h : x = b
    · subst h
      cases hk : k x with
      | none => simp [ih, hk]
      | some d => simp
    · cases hk : k b with
      | none => simp [ih, h]
      | some d =>
        simp only [Option.map_some, List.lookup_cons, beq_false_of_ne h]
        simp [ih, h]

theorem depths_eq : g.depths = (g.reachable none).map fun b => (b, (g.dominatorsOf b).length) := by
  simp [depths, strictDominators_eq]

/-- The immediate dominator that is found for a node. -/
def idomOf? (g : FlowGraph) (b : Nat) : Option Nat :=
  (g.dominatorsOf b).find? fun d => (g.dominatorsOf d).length + 1 = (g.dominatorsOf b).length

theorem immediateDominators_eq : g.immediateDominators
    = (g.reachable none).filterMap fun b => (g.idomOf? b).map fun d => (b, d) := by
  rw [immediateDominators, strictDominators_eq, List.filterMap_map]
  refine List.filterMap_congr fun b _ => ?_
  simp only [Function.comp_apply, idomOf?]
  congr 1
  refine List.find?_congr fun d hd => ?_
  have hmem : d ∈ g.reachable none := g.mem_reachable_none.mpr (g.mem_dominatorsOf.mp hd).1
  rw [depths_eq, lookup_map_of_mem, if_pos hmem]
  simp

theorem lookup_immediateDominators :
    g.immediateDominators.lookup x = if x ∈ g.reachable none then g.idomOf? x else none := by
  rw [immediateDominators_eq, lookup_filterMap]

theorem idomOf?_eq_some (h : g.idomOf? b = some d) : d ∈ g.dominatorsOf b
    ∧ (g.dominatorsOf d).length + 1 = (g.dominatorsOf b).length :=
  ⟨List.mem_of_find?_eq_some h, by simpa using List.find?_some h⟩

theorem exists_idomOf? (hb : Reaches g.root g.Edge (fun _ => False) b)
    (hne : g.dominatorsOf b ≠ []) : ∃ d, g.idomOf? b = some d := by
  obtain ⟨d, hd, hlength⟩ := exists_immediate hb hne
  exact Option.isSome_iff_exists.mp (List.find?_isSome.mpr ⟨d, hd, by simpa using hlength⟩)

/-- Only the root has no immediate dominator. -/
theorem idomOf?_eq_none (hb : Reaches g.root g.Edge (fun _ => False) b) :
    g.idomOf? b = none ↔ b = g.root := by
  constructor
  · intro hnone
    by_contra hne
    have hroot : g.root ∈ g.dominatorsOf b :=
      g.mem_dominatorsOf.mpr ⟨.root (by simp), Ne.symm hne, .of_root b⟩
    obtain ⟨d, hd⟩ := exists_idomOf? hb (List.ne_nil_of_mem hroot)
    simp [hnone] at hd
  · rintro rfl
    rw [Option.eq_none_iff_forall_ne_some]
    intro d hd
    obtain ⟨-, hne, hdom⟩ := g.mem_dominatorsOf.mp (idomOf?_eq_some hd).1
    exact hdom (.root hne.symm)

/-! ### Depths in the tree -/

variable {tree : List (Nat × Nat)} {edges depth : Nat} {p : Nat × Nat}

theorem mem_immediateDominators : (b, d) ∈ g.immediateDominators ↔
    b ∈ g.reachable none ∧ g.idomOf? b = some d := by
  simp [immediateDominators_eq]

theorem self_mem_fill : (n, depth) ∈ fill tree edges n depth := by
  cases edges <;> simp [fill]

/-- A walk goes on from every node that is not too deep. -/
theorem mem_fill_of_mem (hp : p ∈ fill tree edges n depth) (hb : (b, p.1) ∈ tree)
    (hlt : p.2 < depth + edges) : (b, p.2 + 1) ∈ fill tree edges n depth := by
  induction edges generalizing n depth with
  | zero =>
    obtain rfl := List.mem_singleton.mp hp
    omega
  | succ edges ih =>
    refine List.mem_cons_of_mem _ (List.mem_flatMap.mpr ?_)
    rcases List.mem_cons.mp hp with rfl | hp
    · exact ⟨(b, n), by simpa using hb, self_mem_fill⟩
    · obtain ⟨child, hchild, hp⟩ := List.mem_flatMap.mp hp
      exact ⟨child, hchild, ih hp (by omega)⟩

theorem depth_of_mem_fill (hn : n ∈ g.reachable none)
    (hp : p ∈ fill g.immediateDominators edges n (g.dominatorsOf n).length) :
    p.1 ∈ g.reachable none ∧ p.2 = (g.dominatorsOf p.1).length := by
  induction edges generalizing n with
  | zero =>
    obtain rfl := List.mem_singleton.mp hp
    exact ⟨hn, rfl⟩
  | succ edges ih =>
    rcases List.mem_cons.mp hp with rfl | hp
    · exact ⟨hn, rfl⟩
    · obtain ⟨⟨b, d⟩, hchild, hp⟩ := List.mem_flatMap.mp hp
      obtain ⟨hedge, hd⟩ := List.mem_filter.mp hchild
      obtain rfl : d = n := of_decide_eq_true hd
      obtain ⟨hb, hidom⟩ := mem_immediateDominators.mp hedge
      rw [(idomOf?_eq_some hidom).2] at hp
      exact ih hb hp

/-- The walk finds the nodes that can be reached, and its depths are the numbers of their strict
dominators. -/
theorem mem_treeDepths :
    (b, depth) ∈ g.treeDepths ↔ b ∈ g.reachable none ∧ depth = (g.dominatorsOf b).length := by
  have hroot : Reaches g.root g.Edge (fun _ => False) g.root := .root (by simp)
  have hnone : g.dominatorsOf g.root = [] := by
    by_contra hne
    obtain ⟨d, hd⟩ := exists_idomOf? hroot hne
    simp [(idomOf?_eq_none hroot).mpr rfl] at hd
  constructor
  · intro hp
    rw [treeDepths, ← List.length_nil (α := Nat), ← hnone] at hp
    exact depth_of_mem_fill (g.mem_reachable_none.mpr hroot) hp
  · -- A node is found by way of its immediate dominator, which is less deep.
    rintro ⟨hb, rfl⟩
    induction hlength : (g.dominatorsOf b).length generalizing b with
    | zero =>
      rw [List.length_eq_zero_iff] at hlength
      obtain rfl : b = g.root := by
        refine (idomOf?_eq_none (g.mem_reachable_none.mp hb)).mp ?_
        simp [idomOf?, hlength]
      exact self_mem_fill
    | succ n ih =>
      obtain ⟨d, hd⟩ := exists_idomOf? (g.mem_reachable_none.mp hb)
        (List.ne_nil_of_length_eq_add_one hlength)
      obtain ⟨hmem, hless⟩ := idomOf?_eq_some hd
      have hle : (g.dominatorsOf b).length ≤ (g.reachable none).length := List.length_filter_le _ _
      have hn : (g.dominatorsOf d).length = n := by omega
      have hfound := ih (g.mem_reachable_none.mpr (g.mem_dominatorsOf.mp hmem).1) hn
      exact mem_fill_of_mem hfound (mem_immediateDominators.mpr ⟨hb, hd⟩) (by simp; omega)

end FlowGraph

end ShaderCompiler
