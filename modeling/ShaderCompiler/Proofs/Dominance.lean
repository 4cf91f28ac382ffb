import ShaderCompiler.Proofs.Analysis
import ShaderCompiler.Proofs.Dominators

/-!
# The dominator tree is exact

The dominator tree of a function is computed on block numbers. Going up in it passes exactly the
dominators of a number. If every block has its position as number, then an answer of the tree is
a statement about paths along the exits of the blocks: a block dominates another one in the tree
if and only if it is on every path to it and there is one, and a block has a depth if and only if
some path leads to it.
-/

namespace ShaderCompiler

variable {numbers seen : List Nat} {n : Nat} {xb yb bb : Block} {b : BlockId}
  {closed : BlockId → Prop}

namespace Arena

variable {a a' : Arena} {blocks : List BlockId} {g : FlowGraph} {tree : Dominance}

/-- Control may go from one block to another. -/
def Flows (a : Arena) (b t : BlockId) : Prop :=
  ∃ bb, a.blocks[b.idx]? = some bb ∧ t ∈ bb.exits.toList

instance (a : Arena) (b t : BlockId) : Decidable (a.Flows b t) :=
  decidable_of_iff (∃ bb ∈ a.blocks[b.idx]?, t ∈ bb.exits.toList) <| by
    simp [Flows, Option.mem_def]

/-- Every block of the list is there and has its position as number. -/
def NumberedBy (a : Arena) (blocks : List BlockId) : Prop :=
  ∀ (n : Nat) (b : BlockId), blocks[n]? = some b → ∃ bb, a.blocks[b.idx]? = some bb ∧ bb.index = n

/-! ### The flow graph -/

/-- Numbers are entered one after the other without a collision if they are different. -/
theorem exists_foldlM_iff : (∃ seen', numbers.foldlM (fun seen n =>
      if n ∈ seen then throw (.sameNumber n) else return n :: seen) seen
        = (.ok seen' : Except Fault (List Nat)))
      ↔ numbers.Nodup ∧ ∀ n ∈ numbers, n ∉ seen := by
  induction numbers generalizing seen with
  | nil => simp
  | cons n numbers ih =>
    rw [List.foldlM_cons]
    split
    case isTrue hn => simp [hn]
    case isFalse hn =>
      rw [pure_bind, ih, List.nodup_cons, List.forall_mem_cons]
      grind

/-- The edges of the flow graph: one for every exit to another block. -/
theorem edges_of_flatMapM {edges : List (Nat × Nat)}
    (h : blocks.flatMapM a.edgesFrom = .ok edges) :
    (∀ b ∈ blocks, ∀ bb t, a.blocks[b.idx]? = some bb → t ∈ bb.exits.toList → t ≠ b →
      ∃ tb, a.blocks[t.idx]? = some tb ∧ (bb.index, tb.index) ∈ edges)
      ∧ ∀ e ∈ edges, ∃ b ∈ blocks, ∃ bb t tb, a.blocks[b.idx]? = some bb
        ∧ t ∈ bb.exits.toList ∧ a.blocks[t.idx]? = some tb ∧ e = (bb.index, tb.index) := by
  obtain ⟨ess, hess, rfl⟩ := except_flatMapM_eq_ok.mp h
  have inner {bb : Block} {s : BlockId} {e : Nat × Nat}
      (h : (do
        let n := (← a.block s).index
        if n = bb.index then throw Fault.selfEdge
        return (bb.index, n)) = (.ok e : Except Fault (Nat × Nat))) :
      ∃ tb, a.blocks[s.idx]? = some tb ∧ e = (bb.index, tb.index) := by
    simp only [except_bind_eq_ok, block_eq_ok] at h
    obtain ⟨tb, htb, h⟩ := h
    split at h
    case isTrue => simp at h
    case isFalse => exact ⟨tb, htb, (except_pure_eq_ok.mp h).symm⟩
  constructor
  · intro b hb bb t hbb ht hne
    obtain ⟨es, hes, hb⟩ := exists_of_forall₂ hess hb
    rw [edgesFrom, except_bind_eq_ok] at hb
    obtain ⟨bb', hbb', hb⟩ := hb
    rw [block_eq_ok, hbb] at hbb'
    cases hbb'
    obtain ⟨e, he, hte⟩ := exists_of_forall₂ (except_mapM_eq_ok.mp hb)
      (List.mem_filter.mpr ⟨ht, by simpa using hne⟩)
    obtain ⟨tb, htb, rfl⟩ := inner hte
    exact ⟨tb, htb, List.mem_flatten.mpr ⟨es, hes, he⟩⟩
  · intro e he
    obtain ⟨es, hes, he⟩ := List.mem_flatten.mp he
    obtain ⟨b, hb, hes⟩ := exists_of_forall₂ hess.flip hes
    simp only [edgesFrom, except_bind_eq_ok, block_eq_ok] at hes
    obtain ⟨bb, hbb, hes⟩ := hes
    obtain ⟨t, ht, hte⟩ := exists_of_forall₂ (except_mapM_eq_ok.mp hes).flip he
    obtain ⟨tb, htb, rfl⟩ := inner hte
    exact ⟨b, hb, bb, t, tb, hbb, (List.mem_filter.mp ht).1, htb, rfl⟩

/-- What the flow graph of a list of blocks is: the root is the number of the first block, no
two blocks have the same number, and the edges are the exits to other blocks. -/
theorem flowGraph_spec (h : a.flowGraph blocks = .ok g) :
    (∃ b bb, blocks[0]? = some b ∧ a.blocks[b.idx]? = some bb ∧ bb.index = g.root)
      ∧ (∃ numbers : List Nat, numbers.Nodup ∧ List.Forall₂
        (fun b n => ∃ bb, a.blocks[b.idx]? = some bb ∧ bb.index = n) blocks numbers)
      ∧ (∀ b ∈ blocks, ∀ bb t, a.blocks[b.idx]? = some bb → t ∈ bb.exits.toList → t ≠ b →
        ∃ tb, a.blocks[t.idx]? = some tb ∧ g.Edge bb.index tb.index)
      ∧ ∀ m n, g.Edge m n → ∃ b ∈ blocks, ∃ bb t tb, a.blocks[b.idx]? = some bb
        ∧ t ∈ bb.exits.toList ∧ a.blocks[t.idx]? = some tb ∧ (m, n) = (bb.index, tb.index) := by
  rw [flowGraph, except_bind_eq_ok] at h
  obtain ⟨numbers, hnumbers, h⟩ := h
  rw [except_bind_eq_ok] at h
  obtain ⟨root, hroot, h⟩ := h
  rw [except_bind_eq_ok] at h
  obtain ⟨_, hseen, h⟩ := h
  rw [except_bind_eq_ok] at h
  obtain ⟨edges, hedges, h⟩ := h
  obtain rfl := except_pure_eq_ok.mp h
  have hall : List.Forall₂ (fun b n => ∃ bb : Block, a.blocks[b.idx]? = some bb ∧ bb.index = n)
      blocks numbers :=
    (except_mapM_eq_ok.mp hnumbers).imp fun b n hn => by simpa using hn
  obtain ⟨hexits, hback⟩ := edges_of_flatMapM hedges
  refine ⟨?_, ⟨numbers, ?_, hall⟩, hexits, fun m n => hback (m, n)⟩
  · rw [entry_eq_ok] at hroot
    cases hall with
    | nil => simp at hroot
    | cons hb _ =>
      obtain ⟨bb, hbb, hn⟩ := hb
      refine ⟨_, bb, rfl, hbb, ?_⟩
      simpa [hn] using hroot
  · exact (exists_foldlM_iff.mp (except_discard_eq_ok.mp hseen)).1

theorem exists_flowGraph (h : a.dominanceOf blocks = .ok tree) :
    ∃ g, a.flowGraph blocks = .ok g := by
  rw [dominanceOf, except_bind_eq_ok] at h
  exact h.imp fun _ h => h.1

/-! ### What the tree holds -/

theorem depth_foldlM {l : List (Nat × Nat)} {start final : Array (Option Nat)} (f : Nat → Nat)
    (hl : ∀ p ∈ l, p.2 = f p.1)
    (h : l.foldlM (fun (depth : Array (Option Nat)) p =>
      if p.1 < n then return depth.setIfInBounds p.1 (some p.2)
      else throw .outOfRange) start = (.ok final : Except Fault _)) (hn : start.size = n) :
    final.size = n ∧ (∀ p ∈ l, p.1 < n)
      ∧ ∀ k < n, final[k]? = if k ∈ l.map Prod.fst then some (some (f k)) else start[k]? := by
  induction l generalizing start with
  | nil =>
    rw [List.foldlM_nil] at h
    obtain rfl := except_pure_eq_ok.mp h
    exact ⟨hn, by simp, by simp⟩
  | cons p l ih =>
    rw [List.foldlM_cons, except_bind_eq_ok] at h
    obtain ⟨next, hnext, h⟩ := h
    split at hnext
    case isFalse => simp at hnext
    case isTrue hlt =>
      obtain rfl := except_pure_eq_ok.mp hnext
      obtain ⟨hsize, hall, hget⟩ := ih (fun q hq => hl q (List.mem_cons_of_mem p hq)) h
        (by simpa using hn)
      refine ⟨hsize, fun q hq => ?_, fun k hk => ?_⟩
      · rcases List.mem_cons.mp hq with rfl | hq
        · exact hlt
        · exact hall q hq
      · rw [hget k hk, List.map_cons]
        by_cases hmem : k ∈ l.map Prod.fst
        · rw [if_pos hmem, if_pos (List.mem_cons_of_mem _ hmem)]
        · rw [if_neg hmem, Array.getElem?_setIfInBounds]
          by_cases hkp : p.1 = k
          · rw [if_pos hkp, if_pos (by omega), if_pos (by simp [hkp]), hl p List.mem_cons_self, hkp]
          · have hnot : k ∉ p.1 :: l.map Prod.fst := by simp [hmem, Ne.symm hkp]
            rw [if_neg hkp, if_neg hnot]

/-- A number gets the dominator that was found for it, if a block has the number, and keeps what it
has if none was found. -/
theorem idom_foldlM {idoms : List (Nat × Nat)} {l : List BlockId}
    {start final : Array (Option BlockId)}
    (h : l.foldlM (a.keepIdom blocks idoms) start = .ok final) (hn : start.size = blocks.length)
    (k : Nat) :
    (∃ d c, idoms.lookup k = some d ∧ blocks[d]? = some c ∧ final[k]? = some (some c))
      ∨ final[k]? = start[k]?
        ∧ ∀ b ∈ l, ∀ bb, a.blocks[b.idx]? = some bb → bb.index = k → idoms.lookup k = none := by
  induction l generalizing start with
  | nil =>
    rw [List.foldlM_nil] at h
    obtain rfl := except_pure_eq_ok.mp h
    exact .inr ⟨rfl, by simp⟩
  | cons b l ih =>
    rw [List.foldlM_cons, except_bind_eq_ok] at h
    obtain ⟨next, hnext, h⟩ := h
    rw [keepIdom, except_bind_eq_ok] at hnext
    obtain ⟨bb, hbb, hnext⟩ := hnext
    rw [block_eq_ok] at hbb
    have hcons (hfirst : bb.index = k → idoms.lookup k = none)
        (hrest : ∀ c ∈ l, ∀ cb, a.blocks[c.idx]? = some cb → cb.index = k → idoms.lookup k = none) :
        ∀ c ∈ b :: l, ∀ cb, a.blocks[c.idx]? = some cb → cb.index = k → idoms.lookup k = none := by
      refine List.forall_mem_cons.mpr ⟨fun cb hcb => ?_, hrest⟩
      cases hbb.symm.trans hcb
      exact hfirst
    cases hl : idoms.lookup bb.index with
    | none =>
      simp only [hl, except_pure_eq_ok] at hnext
      subst hnext
      exact (ih h hn).imp_right fun hrest => ⟨hrest.1, hcons (fun hk => hk ▸ hl) hrest.2⟩
    | some e =>
      simp only [hl, except_bind_eq_ok, entry_eq_ok] at hnext
      obtain ⟨c, hc, hnext⟩ := hnext
      split at hnext
      case isFalse => simp at hnext
      case isTrue hlt =>
        obtain rfl := except_pure_eq_ok.mp hnext
        rcases ih h (by simpa using hn) with hfound | ⟨heq, hrest⟩
        · exact .inl hfound
        · rw [Array.getElem?_setIfInBounds] at heq
          by_cases hk : bb.index = k
          · rw [if_pos hk, if_pos (by omega)] at heq
            exact .inl ⟨e, c, hk ▸ hl, hc, heq⟩
          · rw [if_neg hk] at heq
            exact .inr ⟨heq, hcons (fun h => absurd h hk) hrest⟩

/-- The tree of a flow graph: the depth of a number is the number of its strict dominators if
some path leads to it, and its immediate dominator is kept as a block. -/
structure TreeOf (a : Arena) (blocks : List BlockId) (g : FlowGraph) (tree : Dominance) : Prop where
  size : tree.depth.size = blocks.length
  lt : ∀ k ∈ g.reachable none, k < blocks.length
  depth : ∀ k < blocks.length, tree.depth[k]? = some
    (if k ∈ g.reachable none then some (g.dominatorsOf k).length else none)
  idom : ∀ k < blocks.length, ∀ d, k ∈ g.reachable none → g.idomOf? k = some d →
    ∃ c cb, tree.idom[k]? = some (some c) ∧ a.blocks[c.idx]? = some cb ∧ cb.index = d

theorem treeOf_dominanceOf (h : a.dominanceOf blocks = .ok tree) (hnum : a.NumberedBy blocks) :
    ∃ g, a.flowGraph blocks = .ok g ∧ a.TreeOf blocks g tree := by
  rw [dominanceOf, except_bind_eq_ok] at h
  obtain ⟨g, hg, h⟩ := h
  rw [except_bind_eq_ok] at h
  obtain ⟨idom, hidom, h⟩ := h
  rw [except_bind_eq_ok] at h
  obtain ⟨depth, hdepth, h⟩ := h
  obtain rfl := except_pure_eq_ok.mp h
  obtain ⟨hsize, hlt, hget⟩ := depth_foldlM (fun k => (g.dominatorsOf k).length)
    (fun p hp => (FlowGraph.mem_treeDepths.mp hp).2) hdepth (by simp)
  refine ⟨g, hg, hsize, fun k hk => hlt (k, _) (FlowGraph.mem_treeDepths.mpr ⟨hk, rfl⟩),
    fun k hk => ?_, fun k hk d hreach hd => ?_⟩
  · rw [hget k hk]
    have hfst : k ∈ g.treeDepths.map Prod.fst ↔ k ∈ g.reachable none := by
      simp [FlowGraph.mem_treeDepths]
    rw [if_congr hfst rfl rfl]
    split
    · rfl
    · simp [hk]
  · have hlookup : g.immediateDominators.lookup k = some d := by
      rw [FlowGraph.lookup_immediateDominators, if_pos hreach, hd]
    obtain ⟨bb, hbb, hindex⟩ := hnum k blocks[k] (List.getElem?_eq_getElem hk)
    rcases idom_foldlM hidom (by simp) k with ⟨d', c, hd', hc, hget⟩ | ⟨-, hnone⟩
    · cases hlookup.symm.trans hd'
      obtain ⟨cb, hcb, rfl⟩ := hnum d c hc
      exact ⟨c, cb, hget, hcb, rfl⟩
    · rw [hnone _ (List.getElem_mem hk) bb hbb hindex] at hlookup
      cases hlookup

/-- The immediate dominator that is kept for a number is the block with the number that was
found. -/
theorem idomAt_eq_lookup (h : a.dominanceOf blocks = .ok tree) (hnum : a.NumberedBy blocks)
    (hg : a.flowGraph blocks = .ok g) {k : Nat} (hk : k < blocks.length) :
    (g.immediateDominators.lookup k = none ∧ tree.idomAt k = .ok none)
      ∨ ∃ d c, g.immediateDominators.lookup k = some d ∧ blocks[d]? = some c
        ∧ tree.idomAt k = .ok (some c) := by
  rw [dominanceOf, except_bind_eq_ok] at h
  obtain ⟨g', hg', h⟩ := h
  cases hg.symm.trans hg'
  rw [except_bind_eq_ok] at h
  obtain ⟨idom, hidom, h⟩ := h
  rw [except_bind_eq_ok] at h
  obtain ⟨depth, -, h⟩ := h
  obtain rfl := except_pure_eq_ok.mp h
  rcases idom_foldlM hidom (by simp) k with ⟨d, c, hd, hc, hget⟩ | ⟨hget, hnone⟩
  · exact .inr ⟨d, c, hd, hc, by simp [Dominance.idomAt, hget]⟩
  · obtain ⟨bb, hbb, hindex⟩ := hnum k blocks[k] (List.getElem?_eq_getElem hk)
    exact .inl ⟨hnone _ (List.getElem_mem hk) bb hbb hindex, by simp [Dominance.idomAt, hget, hk]⟩

namespace TreeOf

variable (h : a.TreeOf blocks g tree) {x y : Nat}

include h

theorem depthAt_of_mem (hy : y ∈ g.reachable none) :
    tree.depthAt y = .ok (some (g.dominatorsOf y).length) := by
  simp [Dominance.depthAt, h.depth y (h.lt y hy), hy]

theorem depthAt_of_notMem (hy : y ∉ g.reachable none) (hlt : y < blocks.length) :
    tree.depthAt y = .ok none := by
  simp [Dominance.depthAt, h.depth y hlt, hy]

/-- Going up stops at the dominator at the depth that is asked for. -/
theorem exists_climb (goal steps : Nat) (hy : y ∈ g.reachable none)
    (hsteps : (g.dominatorsOf y).length - goal < steps) : ∃ m, a.climb tree goal steps y = .ok m
      ∧ (m = y ∨ m ∈ g.dominatorsOf y)
      ∧ ∀ x, x = y ∨ x ∈ g.dominatorsOf y → (g.dominatorsOf x).length = goal → m = x := by
  induction steps generalizing y with
  | zero => omega
  | succ steps ih =>
    rw [climb, h.depthAt_of_mem hy]
    by_cases hle : (g.dominatorsOf y).length ≤ goal
    · refine ⟨y, by simp [hle], .inl rfl, fun x hx hgoal => ?_⟩
      rcases hx with rfl | hx
      · rfl
      · have := FlowGraph.length_dominatorsOf_lt hx
        omega
    · have hne : g.dominatorsOf y ≠ [] := by
        intro hnil
        simp [hnil] at hle
      obtain ⟨d, hd⟩ := FlowGraph.exists_idomOf? (g.mem_reachable_none.mp hy) hne
      obtain ⟨hmem, hlength⟩ := FlowGraph.idomOf?_eq_some hd
      obtain ⟨c, cb, hidom, hcb, hindex⟩ := h.idom y (h.lt y hy) d hy hd
      have hreach : d ∈ g.reachable none :=
        g.mem_reachable_none.mpr (g.mem_dominatorsOf.mp hmem).1
      obtain ⟨m, hm, hcases, huniq⟩ := ih hreach (by omega)
      refine ⟨m, ?_, .inr ?_, fun x hx hgoal => ?_⟩
      · have hup : tree.idomAt y = .ok (some c) := by simp [Dominance.idomAt, hidom]
        have hblock : a.block c = .ok cb := block_eq_ok.mpr hcb
        simp only [except_bind_eq_ok, Except.ok.injEq, exists_eq_left', hle, ↓reduceIte, hup,
          present_eq_ok, Option.some.injEq, hblock, hindex]
        exact hm
      · exact (FlowGraph.mem_dominatorsOf_of_length hmem hlength).mpr hcases
      · rcases hx with rfl | hx
        · omega
        · exact huniq x ((FlowGraph.mem_dominatorsOf_of_length hmem hlength).mp hx) hgoal

theorem length_dominatorsOf_le (y : Nat) : (g.dominatorsOf y).length ≤ blocks.length := by
  have hsub : g.dominatorsOf y ⊆ List.range blocks.length := fun x hx =>
    List.mem_range.mpr (h.lt x (g.mem_reachable_none.mpr (g.mem_dominatorsOf.mp hx).1))
  simpa using (List.subperm_of_subset (g.nodup_dominatorsOf y) hsub).length_le

/-- The tree tells whether one number dominates another one. -/
theorem exists_dominatesIn (hx : x < blocks.length) (hy : y < blocks.length) :
    ∃ r, a.dominatesIn tree x y = .ok r ∧ (r = true ↔
      Reaches g.root g.Edge (fun _ => False) y ∧ Dominates g.root g.Edge x y) := by
  by_cases hyr : y ∈ g.reachable none
  · have hyreach := g.mem_reachable_none.mp hyr
    by_cases hxr : x ∈ g.reachable none
    · obtain ⟨m, hm, hcases, huniq⟩ := h.exists_climb (g.dominatorsOf x).length
        (tree.depth.size + 1) hyr (by
          have := h.length_dominatorsOf_le y
          rw [h.size]
          omega)
      refine ⟨decide (m = x), ?_, ?_⟩
      · simp [dominatesIn, h.depthAt_of_mem hxr, h.depthAt_of_mem hyr, hm]
      · rw [decide_eq_true_iff]
        constructor
        · rintro rfl
          refine ⟨hyreach, ?_⟩
          rcases hcases with rfl | hmem
          · exact Dominates.refl m
          · exact (g.mem_dominatorsOf.mp hmem).2.2
        · rintro ⟨-, hdom⟩
          refine huniq x ?_ rfl
          by_cases hxy : x = y
          · exact .inl hxy
          · exact .inr (g.mem_dominatorsOf.mpr ⟨g.mem_reachable_none.mp hxr, hxy, hdom⟩)
    · refine ⟨false, by simp [dominatesIn, h.depthAt_of_notMem hxr hx], ?_⟩
      simp only [Bool.false_eq_true, false_iff, not_and]
      exact fun _ hdom => hxr (g.mem_reachable_none.mpr (hdom.reaches hyreach))
  · refine ⟨false, ?_, ?_⟩
    · by_cases hxr : x ∈ g.reachable none
      · simp [dominatesIn, h.depthAt_of_mem hxr, h.depthAt_of_notMem hyr hy]
      · simp [dominatesIn, h.depthAt_of_notMem hxr hx]
    · simp only [Bool.false_eq_true, false_iff, not_and]
      exact fun hyreach _ => hyr (g.mem_reachable_none.mpr hyreach)

end TreeOf

/-! ### Paths along the exits -/

variable {root : BlockId}

theorem NumberedBy.eq_of_index (hnum : a.NumberedBy blocks) {x y : BlockId}
    (hx : x ∈ blocks) (hy : y ∈ blocks) (hxb : a.blocks[x.idx]? = some xb)
    (hyb : a.blocks[y.idx]? = some yb) (h : xb.index = yb.index) : x = y := by
  obtain ⟨n, hn⟩ := List.mem_iff_getElem?.mp hx
  obtain ⟨m, hm⟩ := List.mem_iff_getElem?.mp hy
  obtain ⟨xb', hxb', rfl⟩ := hnum n x hn
  obtain ⟨yb', hyb', rfl⟩ := hnum m y hm
  cases hxb.symm.trans hxb'
  cases hyb.symm.trans hyb'
  rw [h, hm] at hn
  exact (Option.some.inj hn).symm

theorem NumberedBy.eq_iff (hnum : a.NumberedBy blocks) {x y : BlockId}
    (hx : x ∈ blocks) (hy : y ∈ blocks) (hxb : a.blocks[x.idx]? = some xb)
    (hyb : a.blocks[y.idx]? = some yb) : x = y ↔ xb.index = yb.index := by
  refine ⟨?_, hnum.eq_of_index hx hy hxb hyb⟩
  rintro rfl
  cases hxb.symm.trans hyb
  rfl

theorem NumberedBy.index_lt (hnum : a.NumberedBy blocks)
    (hb : b ∈ blocks) (hbb : a.blocks[b.idx]? = some bb) : bb.index < blocks.length := by
  obtain ⟨n, hn⟩ := List.mem_iff_getElem?.mp hb
  obtain ⟨bb', hbb', rfl⟩ := hnum n b hn
  cases hbb.symm.trans hbb'
  exact (List.getElem?_eq_some_iff.mp hn).1

/-- A path along the exits of blocks is a path in the flow graph. -/
theorem reaches_index (closed' : Nat → Prop) (hg : a.flowGraph blocks = .ok g)
    (hroot : blocks[0]? = some root)
    (hflow : ∀ b ∈ blocks, ∀ t, a.Flows b t → t ∈ blocks)
    (hclosed : ∀ z ∈ blocks, ∀ zb, a.blocks[z.idx]? = some zb → closed' zb.index → closed z)
    (h : Reaches root a.Flows closed b) :
    b ∈ blocks ∧ ∀ bb, a.blocks[b.idx]? = some bb → Reaches g.root g.Edge closed' bb.index := by
  obtain ⟨⟨r, rb, hr, hrb, hrindex⟩, -, hedge, -⟩ := flowGraph_spec hg
  cases hroot.symm.trans hr
  have hmem : root ∈ blocks := List.mem_of_getElem? hroot
  induction h with
  | root hc =>
    refine ⟨hmem, fun bb hbb => ?_⟩
    cases hrb.symm.trans hbb
    rw [hrindex]
    exact .root fun h => hc (hclosed _ hmem rb hrb (hrindex ▸ h))
  | @step x y _ he hc ih =>
    obtain ⟨hx, ih⟩ := ih
    have hy := hflow x hx y he
    refine ⟨hy, fun yb hyb => ?_⟩
    obtain ⟨xb, hxb, ht⟩ := he
    by_cases hne : y = x
    · subst hne
      exact ih yb hyb
    · obtain ⟨yb', hyb', hedge⟩ := hedge x hx xb y hxb ht hne
      cases hyb.symm.trans hyb'
      exact (ih xb hxb).step hedge fun h => hc (hclosed y hy yb hyb h)

/-- A path in the flow graph is a path along the exits of blocks. -/
theorem reaches_of_index (closed : BlockId → Prop) (hg : a.flowGraph blocks = .ok g)
    (hnum : a.NumberedBy blocks) (hroot : blocks[0]? = some root)
    (hflow : ∀ b ∈ blocks, ∀ t, a.Flows b t → t ∈ blocks)
    {closed' : Nat → Prop}
    (hclosed : ∀ z ∈ blocks, ∀ zb, a.blocks[z.idx]? = some zb → closed z → closed' zb.index)
    (h : Reaches g.root g.Edge closed' n) :
    ∃ b ∈ blocks, ∃ bb, a.blocks[b.idx]? = some bb ∧ bb.index = n
      ∧ Reaches root a.Flows closed b := by
  obtain ⟨⟨r, rb, hr, hrb, hrindex⟩, -, -, hedge⟩ := flowGraph_spec hg
  cases hroot.symm.trans hr
  have hmem : root ∈ blocks := List.mem_of_getElem? hroot
  induction h with
  | root hc =>
    exact ⟨root, hmem, rb, hrb, hrindex, .root fun h => hc (hrindex ▸ hclosed root hmem rb hrb h)⟩
  | @step m n _ he hc ih =>
    obtain ⟨x, hx, xb, hxb, rfl, hreach⟩ := ih
    obtain ⟨x', hx', xb', t, tb, hxb', ht, htb, heq⟩ := hedge _ _ he
    obtain ⟨hindex, rfl⟩ := Prod.mk.inj heq
    obtain rfl := hnum.eq_of_index hx hx' hxb hxb' hindex
    have hflows : a.Flows x t := ⟨xb', hxb', ht⟩
    have htmem := hflow x hx t hflows
    exact ⟨t, htmem, tb, htb, rfl, hreach.step hflows fun h => hc (hclosed t htmem tb htb h)⟩

section Exact

variable (h : a.dominanceOf blocks = .ok tree) (hnum : a.NumberedBy blocks)
  (hroot : blocks[0]? = some root) (hflow : ∀ b ∈ blocks, ∀ t, a.Flows b t → t ∈ blocks)

include hnum hroot hflow in
theorem reaches_index_iff (hg : a.flowGraph blocks = .ok g)
    (closed' : Nat → Prop)
    (hclosed : ∀ z ∈ blocks, ∀ zb, a.blocks[z.idx]? = some zb → (closed z ↔ closed' zb.index))
    (hb : b ∈ blocks) (hbb : a.blocks[b.idx]? = some bb) :
    Reaches root a.Flows closed b ↔ Reaches g.root g.Edge closed' bb.index := by
  constructor
  · intro hreach
    exact (reaches_index closed' hg hroot hflow (fun z hz zb hzb => (hclosed z hz zb hzb).mpr)
      hreach).2 bb hbb
  · intro hreach
    obtain ⟨b', hb', bb', hbb', hindex, hreach⟩ := reaches_of_index closed hg hnum hroot hflow
      (fun z hz zb hzb => (hclosed z hz zb hzb).mp) hreach
    obtain rfl := hnum.eq_of_index hb' hb hbb' hbb hindex
    exact hreach

include h hnum hroot hflow

/-- A block has a depth in the tree if and only if some path leads to it. -/
theorem depthAt_iff (hb : b ∈ blocks)
    (hbb : a.blocks[b.idx]? = some bb) : ∃ depth, tree.depthAt bb.index = .ok depth
      ∧ (depth.isSome = true ↔ Reaches root a.Flows (fun _ => False) b) := by
  obtain ⟨g, hg, htree⟩ := treeOf_dominanceOf h hnum
  rw [reaches_index_iff hnum hroot hflow hg (fun _ => False) (by simp) hb hbb,
    ← g.mem_reachable_none]
  by_cases hr : bb.index ∈ g.reachable none
  · exact ⟨_, htree.depthAt_of_mem hr, by simp [hr]⟩
  · exact ⟨_, htree.depthAt_of_notMem hr (hnum.index_lt hb hbb), by simp [hr]⟩

/-- A block dominates another one in the tree if and only if it is on every path to it and
there is one. -/
theorem dominatesIn_iff {x y : BlockId} (hx : x ∈ blocks) (hy : y ∈ blocks)
    (hxb : a.blocks[x.idx]? = some xb) (hyb : a.blocks[y.idx]? = some yb) :
    ∃ r, a.dominatesIn tree xb.index yb.index = .ok r
      ∧ (r = true ↔ Reaches root a.Flows (fun _ => False) y ∧ Dominates root a.Flows x y) := by
  obtain ⟨g, hg, htree⟩ := treeOf_dominanceOf h hnum
  obtain ⟨r, hr, hiff⟩ := htree.exists_dominatesIn (hnum.index_lt hx hxb) (hnum.index_lt hy hyb)
  refine ⟨r, hr, ?_⟩
  rw [hiff, Dominates, Dominates,
    reaches_index_iff hnum hroot hflow hg (fun _ => False) (by simp) hy hyb,
    reaches_index_iff hnum hroot hflow hg (· = xb.index)
      (fun z hz zb hzb => hnum.eq_iff hz hx hzb hxb) hy hyb]

/-- The tree keeps no immediate dominator exactly for the first block and for blocks that no path
leads to. For another block it keeps the strict dominator that all strict dominators dominate. -/
theorem idomAt_iff (hb : b ∈ blocks)
    (hbb : a.blocks[b.idx]? = some bb) : ∃ r, tree.idomAt bb.index = .ok r
      ∧ (r = none ↔ b = root ∨ ¬ Reaches root a.Flows (fun _ => False) b)
      ∧ ∀ d, r = some d → d ∈ blocks ∧ d ≠ b ∧ Dominates root a.Flows d b
        ∧ ∀ e, e ≠ b → Dominates root a.Flows e b → Dominates root a.Flows e d := by
  obtain ⟨g, hg⟩ := exists_flowGraph h
  obtain ⟨⟨r, rb, hr, hrb, hrindex⟩, -⟩ := flowGraph_spec hg
  cases hroot.symm.trans hr
  have hrmem : root ∈ blocks := List.mem_of_getElem? hroot
  have hreach {c : BlockId} {cb : Block} (hc : c ∈ blocks) (hcb : a.blocks[c.idx]? = some cb) :
      Reaches root a.Flows (fun _ => False) c ↔ cb.index ∈ g.reachable none := by
    rw [reaches_index_iff hnum hroot hflow hg (fun _ => False) (by simp) hc hcb,
      g.mem_reachable_none]
  have hdom {x y : BlockId} {xb yb : Block} (hx : x ∈ blocks) (hy : y ∈ blocks)
      (hxb : a.blocks[x.idx]? = some xb) (hyb : a.blocks[y.idx]? = some yb) :
      Dominates root a.Flows x y ↔ Dominates g.root g.Edge xb.index yb.index :=
    not_congr (reaches_index_iff hnum hroot hflow hg (· = xb.index)
      (fun z hz zb hzb => hnum.eq_iff hz hx hzb hxb) hy hyb)
  rcases idomAt_eq_lookup h hnum hg (hnum.index_lt hb hbb) with
    ⟨hlookup, hidom⟩ | ⟨d, c, hlookup, hc, hidom⟩
  · refine ⟨none, hidom, ⟨fun _ => ?_, fun _ => rfl⟩, by simp⟩
    rw [FlowGraph.lookup_immediateDominators] at hlookup
    rw [hreach hb hbb]
    split at hlookup
    case isTrue hmem =>
      have hnone := (FlowGraph.idomOf?_eq_none (g.mem_reachable_none.mp hmem)).mp hlookup
      exact .inl ((hnum.eq_iff hb hrmem hbb hrb).mpr (hnone.trans hrindex.symm))
    case isFalse hmem => exact .inr hmem
  · rw [FlowGraph.lookup_immediateDominators] at hlookup
    split at hlookup
    case isFalse => simp at hlookup
    case isTrue hmem =>
      have hmem' := g.mem_reachable_none.mp hmem
      obtain ⟨hd, hlength⟩ := FlowGraph.idomOf?_eq_some hlookup
      obtain ⟨-, hne, hdb⟩ := g.mem_dominatorsOf.mp hd
      obtain ⟨cb, hcb, rfl⟩ := hnum d c hc
      have hcmem : c ∈ blocks := List.mem_of_getElem? hc
      have hbreach := (hreach hb hbb).mpr hmem
      refine ⟨some c, hidom, ?_, ?_⟩
      · simp only [reduceCtorEq, false_iff, not_or, not_not]
        refine ⟨?_, hbreach⟩
        rintro rfl
        cases hrb.symm.trans hbb
        have := (FlowGraph.idomOf?_eq_none hmem').mpr hrindex
        simp [hlookup] at this
      · rintro _ ⟨⟩
        refine ⟨hcmem, ?_, (hdom hcmem hb hcb hbb).mpr hdb, fun e he heb => ?_⟩
        · rintro rfl
          cases hcb.symm.trans hbb
          exact hne rfl
        · -- A dominator of a block that control gets to is a block of the list.
          obtain ⟨hemem, -⟩ := reaches_index (fun _ => False) hg hroot hflow (by simp)
            (heb.reaches hbreach)
          obtain ⟨n, hn⟩ := List.mem_iff_getElem?.mp hemem
          obtain ⟨eb, heb', -⟩ := hnum n e hn
          have hmemE : eb.index ∈ g.dominatorsOf bb.index := g.mem_dominatorsOf.mpr
            ⟨g.mem_reachable_none.mp ((hreach hemem heb').mp (heb.reaches hbreach)),
              fun h => he ((hnum.eq_iff hemem hb heb' hbb).mpr h),
              (hdom hemem hb heb' hbb).mp heb⟩
          rw [hdom hemem hcmem heb' hcb]
          rcases (FlowGraph.mem_dominatorsOf_of_length hd hlength).mp hmemE with heq | hmemD
          · exact heq ▸ .refl _
          · exact (g.mem_dominatorsOf.mp hmemD).2.2

end Exact

/-! ### There is a tree -/

/-- Blocks that are numbered by their positions have a flow graph if control stays within
them. -/
theorem NumberedBy.exists_flowGraph (hnum : a.NumberedBy blocks) (hne : blocks ≠ [])
    (hflow : ∀ b ∈ blocks, ∀ t, a.Flows b t → t ∈ blocks) : ∃ g, a.flowGraph blocks = .ok g := by
  have hmem {b : BlockId} (hb : b ∈ blocks) : ∃ bb, a.blocks[b.idx]? = some bb := by
    obtain ⟨n, hn⟩ := List.mem_iff_getElem?.mp hb
    obtain ⟨bb, hbb, -⟩ := hnum n b hn
    exact ⟨bb, hbb⟩
  have hnumbers : (blocks.mapM fun b => do return (← a.block b).index)
      = (.ok (List.range blocks.length) : Except Fault (List Nat)) := by
    refine except_mapM_eq_ok.mpr (List.forall₂_iff_get.mpr ⟨by simp, fun n hn hn' => ?_⟩)
    obtain ⟨bb, hbb, hindex⟩ := hnum n _ (List.getElem?_eq_getElem hn)
    simp [hbb, hindex]
  have hpos : 0 < blocks.length := List.length_pos_iff.mpr hne
  have hseen := exists_foldlM_iff.mpr ⟨List.nodup_range,
    (by simp : ∀ n ∈ List.range blocks.length, n ∉ [])⟩
  -- Every exit leads to a block of the list, whose number is another one.
  obtain ⟨ess, hess⟩ := exists_forall₂ (l := blocks) (R := fun b es => a.edgesFrom b = .ok es)
      fun b hb => by
    obtain ⟨bb, hbb⟩ := hmem hb
    obtain ⟨es, hes⟩ := exists_forall₂ (l := bb.exits.toList.filter (· ≠ b)) (R := fun s e => (do
        let n := (← a.block s).index
        if n = bb.index then throw Fault.selfEdge
        return (bb.index, n)) = (.ok e : Except Fault (Nat × Nat))) fun t ht => by
      obtain ⟨ht, hne⟩ := List.mem_filter.mp ht
      have htmem := hflow b hb t ⟨bb, hbb, ht⟩
      obtain ⟨tb, htb⟩ := hmem htmem
      have hindex : tb.index ≠ bb.index := fun e =>
        of_decide_eq_true hne (hnum.eq_of_index htmem hb htb hbb e)
      refine ⟨(bb.index, tb.index), ?_⟩
      rw [except_bind_eq_ok]
      exact ⟨tb, block_eq_ok.mpr htb, by simp [hindex]⟩
    refine ⟨es, ?_⟩
    rw [edgesFrom, except_bind_eq_ok]
    exact ⟨bb, block_eq_ok.mpr hbb, except_mapM_eq_ok.mpr hes⟩
  refine ⟨⟨0, ess.flatten⟩, ?_⟩
  rw [flowGraph, except_bind_eq_ok]
  refine ⟨_, hnumbers, ?_⟩
  rw [except_bind_eq_ok]
  refine ⟨0, by simp [hpos], ?_⟩
  rw [except_bind_eq_ok]
  refine ⟨⟨⟩, except_discard_eq_ok.mpr hseen, ?_⟩
  rw [except_bind_eq_ok]
  exact ⟨ess.flatten, except_flatMapM_eq_ok.mpr ⟨ess, hess, rfl⟩, rfl⟩

/-- Blocks that are numbered by their positions have a dominator tree if control stays within
them. -/
theorem NumberedBy.exists_dominanceOf (hnum : a.NumberedBy blocks) (hne : blocks ≠ [])
    (hflow : ∀ b ∈ blocks, ∀ t, a.Flows b t → t ∈ blocks) :
    ∃ tree, a.dominanceOf blocks = .ok tree := by
  obtain ⟨g, hg⟩ := hnum.exists_flowGraph hne hflow
  obtain ⟨root, hroot⟩ : ∃ root, blocks[0]? = some root :=
    ⟨_, List.getElem?_eq_getElem (List.length_pos_iff.mpr hne)⟩
  have hlt {n : Nat} (hn : n ∈ g.reachable none) : n < blocks.length := by
    obtain ⟨b, hb, bb, hbb, rfl, -⟩ := reaches_of_index (fun _ => False) hg hnum hroot
      hflow (by simp) (g.mem_reachable_none.mp hn)
    exact hnum.index_lt hb hbb
  obtain ⟨idom, hidom⟩ := exists_foldlM (l := blocks) (a.keepIdom blocks g.immediateDominators)
      (fun b hb idom => by
    obtain ⟨n, hn⟩ := List.mem_iff_getElem?.mp hb
    obtain ⟨bb, hbb, -⟩ := hnum n b hn
    have hk := hnum.index_lt hb hbb
    cases hlookup : g.immediateDominators.lookup bb.index with
    | none => exact ⟨idom, by simp [keepIdom, hbb, hlookup]⟩
    | some d =>
      rw [FlowGraph.lookup_immediateDominators] at hlookup
      split at hlookup
      case isFalse => simp at hlookup
      case isTrue hreach =>
        have hd := hlt (g.mem_reachable_none.mpr
          (g.mem_dominatorsOf.mp (FlowGraph.idomOf?_eq_some hlookup).1).1)
        refine ⟨idom.setIfInBounds bb.index (some blocks[d]), ?_⟩
        rw [keepIdom, except_bind_eq_ok]
        refine ⟨bb, block_eq_ok.mpr hbb, ?_⟩
        simp only [FlowGraph.lookup_immediateDominators, if_pos hreach, hlookup]
        rw [except_bind_eq_ok]
        exact ⟨blocks[d], entry_eq_ok.mpr (List.getElem?_eq_getElem hd), by rw [if_pos hk]; rfl⟩)
    (Array.replicate blocks.length none)
  obtain ⟨depth, hdepth⟩ := exists_foldlM (l := g.treeDepths) (fun (depth : Array (Option Nat)) p =>
    (if p.1 < blocks.length then return depth.setIfInBounds p.1 (some p.2)
      else throw Fault.outOfRange : Except Fault (Array (Option Nat)))) (fun p hp depth => by
    exact ⟨_, by rw [if_pos (hlt (FlowGraph.mem_treeDepths.mp hp).1)]; rfl⟩)
      (Array.replicate blocks.length none)
  refine ⟨⟨idom, depth⟩, ?_⟩
  rw [dominanceOf, except_bind_eq_ok]
  refine ⟨g, hg, ?_⟩
  rw [except_bind_eq_ok]
  refine ⟨idom, hidom, ?_⟩
  rw [except_bind_eq_ok]
  exact ⟨depth, hdepth, rfl⟩

end Arena

end ShaderCompiler
