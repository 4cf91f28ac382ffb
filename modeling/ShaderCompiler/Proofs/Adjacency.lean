import ShaderCompiler.Proofs.Passes.Edges
import ShaderCompiler.Proofs.Queries

/-!
# Edges from both ends

A block leads to at least one other block and lists none twice, since the two branches of an `if`
start with different blocks. Predecessors are listed once for each edge, so the lists of both ends
of an edge agree, and those of predecessors are in program order.
-/

namespace ShaderCompiler

variable {a : Arena} {s t : BlockId} {blocks : List BlockId} {f : FunctionId} {g : Function}
  {region : Region}

namespace Arena

/-- A block is listed as a predecessor once for each of its edges. -/
theorem count_predsIn (hnodup : blocks.Nodup) (hs : s ∈ blocks) :
    (a.predsIn blocks t).count s = (a.exitsOf s).toList.count t := by
  rw [predsIn, List.count_flatMap]
  rw [List.sum_map_eq_nsmul_single s, List.count_eq_one_of_mem hnodup hs, one_nsmul,
    Function.comp_apply, List.count_replicate_self]
  intro c hc _
  simp [List.count_replicate, hc]

/-- Predecessors with one edge each are listed in program order. -/
theorem predsIn_sublist (h : ∀ b ∈ blocks, (a.exitsOf b).toList.Nodup) :
    (a.predsIn blocks t).Sublist blocks := by
  induction blocks with
  | nil => exact List.Sublist.refl _
  | cons b blocks ih =>
    have hrest := ih fun c hc => h c (List.mem_cons_of_mem b hc)
    have hone : List.Sublist (List.replicate ((a.exitsOf b).toList.count t) b) [b] :=
      List.replicate_sublist_iff.mpr
        ((List.nodup_iff_count_le_one.mp (h b List.mem_cons_self) t).trans (by simp))
    exact hone.append hrest

end Arena

namespace Edit

/-- After the edges of a function were computed, they are current, and nothing is cached. This is
what queries need to tell what walks have in common. -/
theorem relink_current {a₁ : Arena} (hg : a.functions[f.idx]? = some g)
    (hregion : a.bodyRegion f = .ok region) (hnodup : (region.blocks ++ [g.finish]).Nodup)
    (hstructured : region.Structured) (hrun : relink f a = .ok () a₁) :
    a₁.EdgesCurrent f ∧ a₁.CachesCurrent f := by
  obtain ⟨hedged, -, hregion₁, hg₁⟩ := relink_spec hg hregion hnodup hrun
  refine ⟨hedged.edgesCurrent (g := { g with valid := .none, dominance := none }) hg₁ hregion₁ hnodup
    hstructured (relink_present hg hregion hrun (by simp)), fun g' hg' blocks _ => ?_⟩
  rw [Option.mem_def, hg₁] at hg'
  cases hg'
  simp [Analyses.none]

/-- The stack walk of a list lists its blocks in preorder. The edges of a function with distinct
blocks whose lists start with blocks can be computed if its jumps fit. Then each block lists its
predecessors in program order, and as often as these lead to it, which is once at most. Every block
leads somewhere, except for the last one. Computing the edges again changes nothing. -/
theorem relink_agrees (hg : a.functions[f.idx]? = some g)
    (hregion : a.bodyRegion f = .ok region) (hnodup : (region.preorder ++ [g.finish]).Nodup)
    (hfinish : (a.blocks[g.finish.idx]?).isSome = true) (hstructured : region.Structured) :
    (∀ items r, a.region items = .ok r → a.blocksIn items = .ok r.preorder)
    ∧ (region.JumpsFit a false → ∃ a₁, relink f a = .ok () a₁)
    ∧ ∀ a₁, relink f a = .ok () a₁ →
      (∀ s ∈ region.preorder ++ [g.finish], ∀ t ∈ region.preorder ++ [g.finish],
        ∃ tb, a₁.blocks[t.idx]? = some tb ∧ tb.preds.count s = (a₁.exitsOf s).toList.count t
          ∧ tb.preds.count s ≤ 1 ∧ tb.preds.Sublist (region.preorder ++ [g.finish]))
      ∧ (∀ b ∈ region.preorder, a₁.exitsOf b ≠ .nowhere) ∧ a₁.exitsOf g.finish = .nowhere
      ∧ ∃ a₂, relink f a₁ = .ok () a₂ ∧ a₂.blocks = a₁.blocks := by
  refine ⟨fun items r hr => ?_, exists_relink hg hregion hfinish hstructured, fun a₁ hrun => ?_⟩
  · simp [Arena.blocksIn, hr, Region.blocks_eq_preorder]
  rw [← Region.blocks_eq_preorder] at hnodup ⊢
  obtain ⟨hedged, -⟩ := relink_spec hg hregion hnodup hrun
  have hpre : region.preorder.Nodup :=
    Region.blocks_eq_preorder region ▸ (List.nodup_append'.mp hnodup).1
  have hpresent (b : BlockId) (hb : b ∈ region.blocks ++ [g.finish]) :=
    relink_present hg hregion hrun hb
  have honce : ∀ b ∈ region.blocks ++ [g.finish], (a₁.exitsOf b).toList.Nodup := by
    intro b hb
    rcases List.mem_append.mp hb with hb | hb
    · exact (hedged.linked.exits_spec hpre (Region.blocks_eq_preorder region ▸ hb)).2
    · rw [List.mem_singleton.mp hb, hedged.ends]
      exact List.nodup_nil
  refine ⟨fun s hs t ht => ?_, fun b hb hnowhere => ?_, hedged.ends, ?_⟩
  · obtain ⟨tb, htb⟩ := Option.isSome_iff_exists.mp (hpresent t ht)
    have hcount : tb.preds.count s = (a₁.exitsOf s).toList.count t := by
      rw [hedged.preds t ht tb htb, Arena.count_predsIn hnodup hs]
    refine ⟨tb, htb, hcount, ?_, ?_⟩
    · rw [hcount]
      exact List.nodup_iff_count_le_one.mp (honce s hs) t
    · rw [hedged.preds t ht tb htb]
      exact Arena.predsIn_sublist honce
  · rw [Region.blocks_eq_preorder] at hb
    exact (hedged.linked.exits_spec hpre hb).1 (by rw [hnowhere]; rfl)
  · exact (relink_current hg hregion hnodup hstructured hrun).1

/-- The edges of a loop that counts agree from both ends. -/
theorem relink_agrees_countedLoop :
    ∃ g region a₁, countedLoop.built.functions[0]? = some g
      ∧ countedLoop.built.bodyRegion ⟨0⟩ = .ok region ∧ relink ⟨0⟩ countedLoop.built = .ok () a₁
      ∧ (∀ b ∈ region.preorder, a₁.exitsOf b ≠ .nowhere) ∧ a₁.exitsOf g.finish = .nowhere
      ∧ ∃ a₂, relink ⟨0⟩ a₁ = .ok () a₂ ∧ a₂.blocks = a₁.blocks := by
  obtain ⟨g, hg, region, hregion, hnodup, hfinish, hstructured, hjumps⟩ :
      ∃ g ∈ countedLoop.built.functions[0]?,
        ∃ region ∈ (countedLoop.built.bodyRegion ⟨0⟩).toOption,
          (region.preorder ++ [g.finish]).Nodup
            ∧ (countedLoop.built.blocks[g.finish.idx]?).isSome = true
            ∧ region.Structured ∧ region.JumpsFit countedLoop.built false := by
    decide +kernel
  have hregion := eq_ok_of_mem_toOption hregion
  obtain ⟨-, hruns, hagrees⟩ := relink_agrees hg hregion hnodup hfinish hstructured
  obtain ⟨a₁, hrun⟩ := hruns hjumps
  exact ⟨g, region, a₁, hg, hregion, hrun, (hagrees a₁ hrun).2⟩

end Edit

end ShaderCompiler
