import ShaderCompiler.Proofs.Paths

/-!
# Queries of the dominator tree

The queries for reachability, dominance and immediate dominators, in terms of walks. A walk is a
path along the exits of blocks from the first block of a function. If the edges of the function are
those that are computed from its lists, and what is cached about it is what would be computed, then
after the dominator tree was required every query returns, changes nothing and tells what all walks
have in common.

Requiring an analysis computes it only if it is marked as stale, so the statement depends on what
is cached: `Arena.CachesCurrent` says that the numbers of the blocks and the tree are up to date as
far as they are marked so. Right after the edges were computed nothing is (`Edit.relink_current`).
-/

namespace ShaderCompiler

variable {a a' : Arena} {f : FunctionId} {b d root : BlockId} {blocks : List BlockId}
  {tree : Dominance} {g : Function} {path : List BlockId} {t : BlockId} {y : Unit}
  {wanted : Analyses}

/-! ### Paths and walks -/

namespace Arena

/-- Control gets to a block, and passes through the other block on every walk there. -/
def OnEveryWalk (a : Arena) (f : FunctionId) (d b : BlockId) : Prop :=
  (∃ path, a.Walk f path b) ∧ ∀ path, a.Walk f path b → d ∈ path ++ [b]

/-- A path that enters no closed block is a walk through open ones. -/
theorem exists_walk_of_reaches {closed : BlockId → Prop} (hroot : a.entryOf f = some root)
    (h : Reaches root a.Flows closed b) :
    ∃ path, a.Walk f path b ∧ ∀ x ∈ path ++ [b], ¬ closed x := by
  induction h with
  | root hr => exact ⟨[], .entry hroot, by simpa using hr⟩
  | @step x y _ hflow hy ih =>
    obtain ⟨path, hwalk, hopen⟩ := ih
    refine ⟨path ++ [x], hwalk.step hflow, fun z hz => ?_⟩
    rcases List.mem_append.mp hz with hz | hz
    · exact hopen z hz
    · exact List.mem_singleton.mp hz ▸ hy

theorem exists_walk_iff (hroot : a.entryOf f = some root) :
    (∃ path, a.Walk f path b) ↔ Reaches root a.Flows (fun _ => False) b := by
  constructor
  · rintro ⟨path, hwalk⟩
    obtain ⟨root', hroot', hreach⟩ := hwalk.reachable
    cases hroot.symm.trans hroot'
    exact hreach
  · intro hreach
    obtain ⟨path, hwalk, -⟩ := exists_walk_of_reaches hroot hreach
    exact ⟨path, hwalk⟩

theorem Walk.congr (hentry : a'.entryOf f = a.entryOf f)
    (hflow : ∀ b t, a.Flows b t → a'.Flows b t) (h : a.Walk f path b) : a'.Walk f path b := by
  induction h with
  | entry h => exact .entry (hentry.trans h)
  | step _ hbt ih => exact ih.step (hflow _ _ hbt)

theorem walk_congr (hentry : a'.entryOf f = a.entryOf f)
    (hflow : ∀ b t, a'.Flows b t ↔ a.Flows b t) : a'.Walk f path b ↔ a.Walk f path b :=
  ⟨.congr hentry.symm fun b t => (hflow b t).mp, .congr hentry fun b t => (hflow b t).mpr⟩

theorem onEveryWalk_iff (hroot : a.entryOf f = some root) :
    a.OnEveryWalk f d b ↔
      Reaches root a.Flows (fun _ => False) b ∧ Dominates root a.Flows d b := by
  refine and_congr (exists_walk_iff hroot) ⟨fun hall hreach => ?_, fun hdom path hwalk => ?_⟩
  · obtain ⟨path, hwalk, hopen⟩ := exists_walk_of_reaches hroot hreach
    exact hopen d (hall path hwalk) rfl
  · by_cases hdb : d = b
    · simp [hdb]
    · exact List.mem_append_left _ (hwalk.mem_of_dominates hroot hdom hdb)

/-! ### Cached analyses -/

/-- The numbers of the blocks of a function are what would be computed. -/
def OrderCurrent (a : Arena) (blocks : List BlockId) : Prop :=
  (a.numberBlocks blocks 0).blocks = a.blocks

/-- The numbers of the blocks and the tree are up to date as far as they are marked so. -/
def CachesCurrent (a : Arena) (f : FunctionId) : Prop :=
  ∀ g ∈ a.functions[f.idx]?, ∀ blocks ∈ (a.blocksOf f).toOption,
    (g.valid.blockOrder = true → a.OrderCurrent blocks)
      ∧ (g.valid.dominance = true → a.OrderCurrent blocks
        ∧ ∃ tree ∈ g.dominance, (a.dominanceOf blocks).toOption = some tree)

instance : Decidable (a.OrderCurrent blocks) :=
  inferInstanceAs (Decidable (_ = _))

instance : Decidable (a.CachesCurrent f) :=
  inferInstanceAs (Decidable (∀ g ∈ a.functions[f.idx]?, ∀ blocks ∈ (a.blocksOf f).toOption,
    (g.valid.blockOrder = true → a.OrderCurrent blocks)
      ∧ (g.valid.dominance = true → a.OrderCurrent blocks
        ∧ ∃ tree ∈ g.dominance, (a.dominanceOf blocks).toOption = some tree)))

theorem flows_of_numberBlocks (h : a'.blocks = (a.numberBlocks blocks 0).blocks) {b : BlockId} :
    a'.Flows b t ↔ a.Flows b t := by
  unfold Flows
  rw [h, numberBlocks_blocks]
  cases a.blocks[b.idx]? <;> simp

theorem numberedBy_of_numberBlocks (h : a'.blocks = (a.numberBlocks blocks 0).blocks)
    (hnodup : blocks.Nodup) (hpresent : ∀ b ∈ blocks, (a.blocks[b.idx]?).isSome = true) :
    a'.NumberedBy blocks := by
  intro n b hb
  obtain ⟨bb, hbb⟩ := Option.isSome_iff_exists.mp (hpresent b (List.mem_of_getElem? hb))
  refine ⟨{ bb with index := lastPosition b blocks 0 bb.index }, ?_, ?_⟩
  · rw [h, numberBlocks_blocks, hbb]
    rfl
  · rw [lastPosition_of_nodup hnodup hb, Nat.zero_add]

/-- The tree of a function is cached, and so are the numbers of its blocks. -/
structure TreeCurrent (a : Arena) (f : FunctionId) (blocks : List BlockId) (tree : Dominance) :
    Prop where
  function : ∃ g, a.functions[f.idx]? = some g ∧ g.valid.blockOrder = true
    ∧ g.valid.dominance = true ∧ g.dominance = some tree
  blocksOf : a.blocksOf f = .ok blocks
  dominance : a.dominanceOf blocks = .ok tree
  numbered : a.NumberedBy blocks

end Arena

/-! ### Requiring the tree -/

namespace Edit

theorem refresh_eq_ok {stale : Function → Bool} {compute : Edit Unit} :
    refresh f stale compute a = .ok y a' ↔ ∃ g, a.functions[f.idx]? = some g
      ∧ if stale g = true then compute a = .ok y a' else a = a' := by
  simp only [refresh, bind_eq_ok, look_eq_ok, Arena.function_eq_ok]
  constructor
  · rintro ⟨g, _, ⟨hg, rfl⟩, h⟩
    refine ⟨g, hg, ?_⟩
    split at h
    case isTrue hs => rwa [if_pos hs]
    case isFalse hs =>
      rw [if_neg hs]
      exact (pure_eq_ok.mp h).2
  · rintro ⟨g, hg, h⟩
    refine ⟨g, a, ⟨hg, rfl⟩, ?_⟩
    split at h
    case isTrue hs => rwa [if_pos hs]
    case isFalse hs =>
      rw [if_neg hs]
      exact pure_eq_ok.mpr ⟨rfl, h⟩

theorem refresh_order (wanted : Analyses) (hw : wanted.dominance = true)
    (hg : a.functions[f.idx]? = some g) (hblocks : a.blocksOf f = .ok blocks)
    (hcurrent : g.valid.blockOrder = true → a.OrderCurrent blocks)
    (h : refresh f (fun g => (wanted.blockOrder || wanted.dominance) && !g.valid.blockOrder)
      (renewOrder f) a = .ok y a') :
    a'.blocks = (a.numberBlocks blocks 0).blocks ∧ a'.constructs = a.constructs
      ∧ a'.functions[f.idx]? = some { g with valid := { g.valid with blockOrder := true } } := by
  obtain ⟨g', hg', h⟩ := refresh_eq_ok.mp h
  cases hg.symm.trans hg'
  cases hv : g.valid.blockOrder with
  | true =>
    obtain rfl : a = a' := by simpa [hv] using h
    refine ⟨(hcurrent hv).symm, rfl, ?_⟩
    rw [hg, ← hv]
  | false =>
    simp only [hw, hv, Bool.or_true, Bool.not_false, Bool.and_self, if_true, renewOrder, bind_eq_ok,
      indexBlocks_eq_ok, setFunction_eq_ok] at h
    obtain ⟨_, _, ⟨blocks', hblocks', rfl⟩, rfl⟩ := h
    cases hblocks.symm.trans hblocks'
    refine ⟨rfl, rfl, ?_⟩
    rw [Arena.modifyFunction_functions_get, if_pos rfl]
    exact congrArg (Option.map _) hg

theorem refresh_instrs (hg : a.functions[f.idx]? = some g)
    (h : refresh f (fun g => wanted.instrOrder && !g.valid.instrOrder) (renewInstrs f) a
      = .ok y a') :
    a'.blocks = a.blocks ∧ a'.constructs = a.constructs
      ∧ ∃ valid, valid.blockOrder = g.valid.blockOrder ∧ valid.dominance = g.valid.dominance
        ∧ a'.functions[f.idx]? = some { g with valid := valid } := by
  obtain ⟨g', hg', h⟩ := refresh_eq_ok.mp h
  cases hg.symm.trans hg'
  split at h
  case isFalse =>
    subst h
    exact ⟨rfl, rfl, g.valid, rfl, rfl, hg⟩
  case isTrue =>
    simp only [renewInstrs, bind_eq_ok, indexInstrs_eq_ok, setFunction_eq_ok] at h
    obtain ⟨_, _, ⟨blocks, -, -, -, rfl⟩, rfl⟩ := h
    refine ⟨rfl, rfl, { g.valid with instrOrder := true }, rfl, rfl, ?_⟩
    rw [Arena.modifyFunction_functions_get, if_pos rfl]
    exact congrArg (Option.map _) hg

theorem refresh_tree (hw : wanted.dominance = true)
    (hg : a.functions[f.idx]? = some g) (hblocks : a.blocksOf f = .ok blocks)
    (hcurrent : g.valid.dominance = true → ∃ tree, g.dominance = some tree
      ∧ a.dominanceOf blocks = .ok tree)
    (h : refresh f (fun g => wanted.dominance && !g.valid.dominance) (renewTree f) a
      = .ok y a') :
    a'.blocks = a.blocks ∧ a'.constructs = a.constructs
      ∧ ∃ tree, a.dominanceOf blocks = .ok tree ∧ a'.functions[f.idx]? = some
        { g with dominance := some tree, valid := { g.valid with dominance := true } } := by
  obtain ⟨g', hg', h⟩ := refresh_eq_ok.mp h
  cases hg.symm.trans hg'
  cases hv : g.valid.dominance with
  | true =>
    obtain rfl : a = a' := by simpa [hv] using h
    obtain ⟨tree, htree, hdom⟩ := hcurrent hv
    refine ⟨rfl, rfl, tree, hdom, ?_⟩
    rw [hg, ← hv, ← htree]
  | false =>
    simp only [hw, hv, Bool.not_false, Bool.and_self, if_true, renewTree, bind_eq_ok, look_eq_ok,
      except_bind_eq_ok, setFunction_eq_ok] at h
    obtain ⟨tree, _, ⟨⟨blocks', hblocks', hdom⟩, rfl⟩, rfl⟩ := h
    cases hblocks.symm.trans hblocks'
    refine ⟨rfl, rfl, tree, hdom, ?_⟩
    rw [Arena.modifyFunction_functions_get, if_pos rfl, hg]
    rfl

/-- Requiring the tree makes it current, and numbers the blocks. -/
theorem require_treeCurrent (hw : wanted.dominance = true)
    (hc : a.CachesCurrent f) (hblocks : a.blocksOf f = .ok blocks)
    (h : require f wanted a = .ok y a') :
    a'.blocks = (a.numberBlocks blocks 0).blocks ∧ ∃ tree, a'.TreeCurrent f blocks tree := by
  rw [require] at h
  simp only [bind_eq_ok] at h
  obtain ⟨_, a₁, h1, _, a₂, h2, h3⟩ := h
  obtain ⟨g, hg, -⟩ := refresh_eq_ok.mp h1
  obtain ⟨horder, htree⟩ := hc g hg blocks (by simp [hblocks, Except.toOption])
  obtain ⟨hb₁, hc₁, hg₁⟩ := refresh_order wanted hw hg hblocks horder h1
  obtain ⟨hb₂, hc₂, valid, hv, hvd, hg₂⟩ := refresh_instrs hg₁ h2
  have hblocks₂ : a₂.blocksOf f = .ok blocks := by
    rw [← hblocks]
    exact Arena.blocksOf_congr (hc₂.trans hc₁) (by rw [hg₂, hg]; rfl)
  -- A tree that was cached is the one that the numbers give, which stay as they are.
  have hcached : valid.dominance = true → ∃ tree, g.dominance = some tree
      ∧ a₂.dominanceOf blocks = .ok tree := by
    intro hvalid
    obtain ⟨hsame, tree, hmem, hdom⟩ := htree (hvd.symm.trans hvalid)
    refine ⟨tree, hmem, ?_⟩
    rw [Arena.dominanceOf_congr ((hb₂.trans hb₁).trans hsame)]
    exact eq_ok_of_mem_toOption hdom
  obtain ⟨hb₃, hc₃, tree, hdom, hg₃⟩ := refresh_tree hw hg₂ hblocks₂ hcached h3
  have hblocks₃ : a'.blocks = (a.numberBlocks blocks 0).blocks := (hb₃.trans hb₂).trans hb₁
  refine ⟨hblocks₃, tree, ⟨_, hg₃, hv, rfl, rfl⟩, ?_, ?_, ?_⟩
  · rw [← hblocks₂]
    exact Arena.blocksOf_congr hc₃ (by rw [hg₃, hg₂]; rfl)
  · rwa [Arena.dominanceOf_congr hb₃]
  · obtain ⟨graph, hgraph⟩ := Arena.exists_flowGraph hdom
    obtain ⟨-, ⟨numbers, -, hnumbers⟩, -⟩ := Arena.flowGraph_spec hgraph
    refine Arena.numberedBy_of_numberBlocks hblocks₃ (Arena.nodup_of_dominanceOf hdom) fun b hb => ?_
    obtain ⟨m, -, bb, hbb, -⟩ := exists_of_forall₂ hnumbers hb
    rw [← Arena.numberBlocks_isSome 0 b, ← hb₁, ← hb₂, hbb, Option.isSome_some]

theorem exists_refresh (stale : Function → Bool) (compute : Edit Unit)
    (hg : a.functions[f.idx]? = some g) (h : ∃ a', compute a = .ok () a') :
    ∃ a', refresh f stale compute a = .ok () a' := by
  obtain ⟨a', h⟩ := h
  by_cases hs : stale g = true
  · exact ⟨a', refresh_eq_ok.mpr ⟨g, hg, by rwa [if_pos hs]⟩⟩
  · exact ⟨a, refresh_eq_ok.mpr ⟨g, hg, by rw [if_neg hs]⟩⟩

/-- The tree of a function can be required if its blocks are different and there, and control does
not leave them. -/
theorem exists_require (hc : a.CachesCurrent f) (hg : a.functions[f.idx]? = some g)
    (hblocks : a.blocksOf f = .ok blocks) (hne : blocks ≠ []) (hnodup : blocks.Nodup)
    (hpresent : ∀ b ∈ blocks, (a.blocks[b.idx]?).isSome = true)
    (hflow : ∀ b ∈ blocks, ∀ t, a.Flows b t → t ∈ blocks) :
    ∃ a', require f ⟨false, true, false⟩ a = .ok () a' := by
  obtain ⟨a₁, h1⟩ := exists_refresh (fun g => (false || true) && !g.valid.blockOrder)
    (renewOrder f) hg ⟨_, bind_eq_ok.mpr
      ⟨(), _, indexBlocks_eq_ok.mpr ⟨blocks, hblocks, rfl⟩, setFunction_eq_ok.mpr rfl⟩⟩
  obtain ⟨horder, -⟩ := hc g hg blocks (by simp [hblocks, Except.toOption])
  obtain ⟨hb₁, hc₁, hg₁⟩ := refresh_order ⟨false, true, false⟩ rfl hg hblocks horder h1
  have hblocks₁ : a₁.blocksOf f = .ok blocks := by
    rw [← hblocks]
    exact Arena.blocksOf_congr hc₁ (by rw [hg₁, hg]; rfl)
  obtain ⟨tree, htree⟩ := (Arena.numberedBy_of_numberBlocks hb₁ hnodup hpresent).exists_dominanceOf
    hne fun b hb t hbt => hflow b hb t ((Arena.flows_of_numberBlocks hb₁).mp hbt)
  obtain ⟨a', h3⟩ := exists_refresh (fun g => true && !g.valid.dominance)
    (renewTree f) hg₁ ⟨_, bind_eq_ok.mpr ⟨tree, a₁, look_eq_ok.mpr
      ⟨except_bind_eq_ok.mpr ⟨blocks, hblocks₁, htree⟩,
      rfl⟩, setFunction_eq_ok.mpr rfl⟩⟩
  refine ⟨a', ?_⟩
  rw [require]
  exact bind_eq_ok.mpr ⟨(), a₁, h1, bind_eq_ok.mpr
    ⟨(), a₁, refresh_eq_ok.mpr ⟨_, hg₁, by simp⟩, h3⟩⟩

end Edit

/-! ### Answers -/

namespace Arena.TreeCurrent

open Edit

variable (h : a.TreeCurrent f blocks tree)

include h

theorem dominanceTree : dominanceTree f a = .ok tree a := by
  obtain ⟨g, hg, hv, hvd, htree⟩ := h.function
  have hrequire : require f ⟨false, true, false⟩ a = .ok () a := by
    rw [require]
    refine bind_eq_ok.mpr ⟨(), a, refresh_eq_ok.mpr ⟨g, hg, by simp [hv]⟩,
      bind_eq_ok.mpr ⟨(), a, refresh_eq_ok.mpr ⟨g, hg, by simp⟩,
        refresh_eq_ok.mpr ⟨g, hg, by simp [hvd]⟩⟩⟩
  simp only [Edit.dominanceTree, bind_eq_ok, look_eq_ok, function_eq_ok, liftM_eq_ok,
    present_eq_ok]
  exact ⟨(), a, hrequire, g, a, ⟨hg, rfl⟩, htree, rfl⟩

theorem nodup : blocks.Nodup :=
  nodup_of_dominanceOf h.dominance

theorem exists_block (hb : b ∈ blocks) : ∃ bb, a.blocks[b.idx]? = some bb := by
  obtain ⟨n, hn⟩ := List.mem_iff_getElem?.mp hb
  obtain ⟨bb, hbb, -⟩ := h.numbered n b hn
  exact ⟨bb, hbb⟩

theorem root_eq (hroot : a.entryOf f = some root) : blocks[0]? = some root := by
  rw [← List.head?_eq_getElem?]
  simpa [entryOf, h.blocksOf, Except.toOption] using hroot

theorem flows_closed (hflow : a.FlowsWithin f) (b : BlockId) (hb : b ∈ blocks) (t : BlockId)
    (hbt : a.Flows b t) : t ∈ blocks := by
  simpa [scopeOf, h.blocksOf, Except.toOption] using
    hflow b (by simpa [scopeOf, h.blocksOf, Except.toOption] using hb) t hbt

variable (hroot : a.entryOf f = some root) (hflow : a.FlowsWithin f)

include hroot hflow

theorem exists_isReachable (hb : b ∈ blocks) : ∃ r, isReachable f (some b) a = .ok r a
    ∧ (r = true ↔ ∃ path, a.Walk f path b) := by
  obtain ⟨bb, hbb⟩ := h.exists_block hb
  obtain ⟨depth, hdepth, hiff⟩ := depthAt_iff h.dominance h.numbered (h.root_eq hroot)
    (h.flows_closed hflow) hb hbb
  refine ⟨depth.isSome, ?_, hiff.trans (exists_walk_iff hroot).symm⟩
  simp only [isReachable, bind_eq_ok, look_eq_ok, except_bind_eq_ok, present_eq_ok, block_eq_ok,
    except_pure_eq_ok]
  exact ⟨tree, a, h.dominanceTree, ⟨b, rfl, bb, hbb, depth, hdepth, rfl⟩, rfl⟩

theorem exists_dominates (hd : d ∈ blocks) (hb : b ∈ blocks) :
    ∃ r, dominates f (some d) (some b) a = .ok r a ∧ (r = true ↔ a.OnEveryWalk f d b) := by
  obtain ⟨bb, hbb⟩ := h.exists_block hb
  obtain ⟨db, hdb⟩ := h.exists_block hd
  obtain ⟨r, hr, hiff⟩ := dominatesIn_iff h.dominance h.numbered (h.root_eq hroot)
    (h.flows_closed hflow) hd hb hdb hbb
  refine ⟨r, ?_, hiff.trans (onEveryWalk_iff hroot).symm⟩
  simp only [dominates, bind_eq_ok, look_eq_ok, except_bind_eq_ok, present_eq_ok, block_eq_ok]
  exact ⟨tree, a, h.dominanceTree, ⟨d, rfl, db, hdb, b, rfl, bb, hbb, hr⟩, rfl⟩

theorem exists_immediateDominator (hb : b ∈ blocks) : ∃ r, immediateDominator f b a = .ok r a
    ∧ (r = none ↔ b = root ∨ ¬ ∃ path, a.Walk f path b)
    ∧ ∀ d, r = some d → d ∈ blocks ∧ d ≠ b ∧ a.OnEveryWalk f d b
      ∧ ∀ e, e ≠ b → a.OnEveryWalk f e b → a.OnEveryWalk f e d := by
  obtain ⟨bb, hbb⟩ := h.exists_block hb
  obtain ⟨r, hr, hnone, hsome⟩ := idomAt_iff h.dominance h.numbered (h.root_eq hroot)
    (h.flows_closed hflow) hb hbb
  refine ⟨r, ?_, ?_, fun d hd => ?_⟩
  · simp only [immediateDominator, bind_eq_ok, look_eq_ok, except_bind_eq_ok, block_eq_ok]
    exact ⟨tree, a, h.dominanceTree, ⟨bb, hbb, hr⟩, rfl⟩
  · rw [hnone, exists_walk_iff hroot]
  · obtain ⟨hmem, hne, hdom, hleast⟩ := hsome d hd
    -- A block with an immediate dominator is one that control gets to.
    have hreach : Reaches root a.Flows (fun _ => False) b := by
      by_contra hnot
      exact absurd (hnone.mpr (.inr hnot)) (by simp [hd])
    simp only [onEveryWalk_iff hroot]
    exact ⟨hmem, hne, ⟨hreach, hdom⟩, fun e he heb => ⟨hdom.reaches hreach, hleast e he heb.2⟩⟩

end Arena.TreeCurrent

/-- Control does not leave the blocks of a function whose edges are current. -/
theorem Arena.EdgesCurrent.flows_closed (he : a.EdgesCurrent f) (hblocks : a.blocksOf f = .ok blocks)
    (hnodup : blocks.Nodup) (hb : b ∈ blocks) (hbt : a.Flows b t) : t ∈ blocks := by
  obtain ⟨g, region, hg, hregion, -⟩ := he.exists_region
  obtain rfl := (blocksOf_eq_ok hg hregion).mp hblocks
  exact (he.edged hg hregion hnodup).flows_closed hb hbt

namespace Edit

/-- If the edges of a function are those that are computed for it, and what is cached is what would
be computed, the tree can be required. Then a block is reachable exactly if there is a walk to it,
and dominates another one exactly if it is on every walk there and there is one. A block other than
the first that is reachable has as its immediate dominator the strict dominator that all strict
dominators dominate, and other blocks have none. -/
theorem queries_match_walks (he : a.EdgesCurrent f) (hc : a.CachesCurrent f) :
    ∃ blocks root, a.blocksOf f = .ok blocks ∧ blocks.head? = some root
      ∧ (blocks.Nodup → ∃ a', require f ⟨false, true, false⟩ a = .ok () a')
      ∧ ∀ wanted a', wanted.dominance = true → require f wanted a = .ok () a' → ∀ b ∈ blocks,
        (∃ r, isReachable f (some b) a' = .ok r a' ∧ (r = true ↔ ∃ path, a.Walk f path b))
        ∧ (∀ d ∈ blocks, ∃ r, dominates f (some d) (some b) a' = .ok r a'
          ∧ (r = true ↔ a.OnEveryWalk f d b))
        ∧ ∃ r, immediateDominator f b a' = .ok r a'
          ∧ (r = none ↔ b = root ∨ ¬ ∃ path, a.Walk f path b)
          ∧ ∀ d, r = some d → d ∈ blocks ∧ d ≠ b ∧ a.OnEveryWalk f d b
            ∧ ∀ e, e ≠ b → a.OnEveryWalk f e b → a.OnEveryWalk f e d := by
  obtain ⟨g, region, hg, hregion, hpresent⟩ := he.exists_region
  have hblocks := (Arena.blocksOf_eq_ok hg hregion).mpr rfl
  obtain ⟨root, hroot⟩ : ∃ root, (region.blocks ++ [g.finish]).head? = some root :=
    ⟨_, List.head?_eq_some_head (by simp)⟩
  refine ⟨_, root, hblocks, hroot, fun hnodup => ?_, fun wanted a' hw hrun b hb => ?_⟩
  · exact exists_require hc hg hblocks (by simp) hnodup hpresent
      fun b hb t hbt => he.flows_closed hblocks hnodup hb hbt
  · obtain ⟨hsame, tree, htree⟩ := require_treeCurrent hw hc hblocks hrun
    have hflows (b t : BlockId) : a'.Flows b t ↔ a.Flows b t := Arena.flows_of_numberBlocks hsame
    have hentry : a'.entryOf f = a.entryOf f := by
      rw [Arena.entryOf, Arena.entryOf, htree.blocksOf, hblocks]
    have hroot' : a'.entryOf f = some root := by
      rw [hentry]
      simpa [Arena.entryOf, hblocks, Except.toOption] using hroot
    have hwithin : a'.FlowsWithin f := by
      intro x hx t hxt
      simp only [Arena.scopeOf, htree.blocksOf, Except.toOption, Option.getD_some] at hx ⊢
      exact he.flows_closed hblocks htree.nodup hx ((hflows x t).mp hxt)
    have hwalk (path : List BlockId) (b : BlockId) : a'.Walk f path b ↔ a.Walk f path b :=
      Arena.walk_congr hentry hflows
    have hreach := htree.exists_isReachable hroot' hwithin hb
    have hdom {d : BlockId} (hd : d ∈ region.blocks ++ [g.finish]) :=
      htree.exists_dominates hroot' hwithin hd hb
    have hidom := htree.exists_immediateDominator hroot' hwithin hb
    simp only [Arena.OnEveryWalk, hwalk] at hreach hdom hidom
    exact ⟨hreach, fun d hd => hdom hd, hidom⟩

/-- Behind a loop control comes from the block that leaves it, whatever went round before. -/
theorem queries_match_walks_countedLoop :
    countedLoop.built.EdgesCurrent ⟨0⟩ ∧ countedLoop.built.CachesCurrent ⟨0⟩
      ∧ ∃ a', require ⟨0⟩ ⟨false, true, false⟩ countedLoop.built = .ok () a'
        ∧ immediateDominator ⟨0⟩ ⟨6⟩ a' = .ok (some ⟨4⟩) a'
        ∧ countedLoop.built.OnEveryWalk ⟨0⟩ ⟨4⟩ ⟨6⟩
        ∧ ∀ e, e ≠ ⟨6⟩ → countedLoop.built.OnEveryWalk ⟨0⟩ e ⟨6⟩ →
          countedLoop.built.OnEveryWalk ⟨0⟩ e ⟨4⟩ := by
  have he : countedLoop.built.EdgesCurrent ⟨0⟩ := by decide +kernel
  have hc : countedLoop.built.CachesCurrent ⟨0⟩ := by decide +kernel
  obtain ⟨blocks, root, hblocks, -, hrequire, hqueries⟩ := queries_match_walks he hc
  have hlist : (countedLoop.built.blocksOf ⟨0⟩).toOption
      = some [⟨1⟩, ⟨2⟩, ⟨4⟩, ⟨3⟩, ⟨5⟩, ⟨6⟩, ⟨0⟩] := by decide +kernel
  rw [eq_ok_of_mem_toOption hlist] at hblocks
  cases hblocks
  obtain ⟨a', hrun⟩ := hrequire (by decide)
  obtain ⟨-, -, r, hr, -, hidom⟩ := hqueries ⟨false, true, false⟩ a' rfl hrun ⟨6⟩ (by decide)
  have hanswer : result? (do
      require ⟨0⟩ ⟨false, true, false⟩
      immediateDominator ⟨0⟩ ⟨6⟩) countedLoop.built = some (some ⟨4⟩) := by decide +kernel
  obtain rfl : r = some ⟨4⟩ := by
    obtain ⟨a'', hboth⟩ := result?_eq_some.mp hanswer
    simp only [bind_eq_ok, hrun, EStateM.Result.ok.injEq] at hboth
    obtain ⟨_, _, ⟨-, rfl⟩, h⟩ := hboth
    cases hr.symm.trans h
    rfl
  obtain ⟨-, -, hevery, hleast⟩ := hidom ⟨4⟩ rfl
  exact ⟨he, hc, a', hrun, hr, hevery, hleast⟩

end Edit

end ShaderCompiler
