import ShaderCompiler.Proofs.DeadCode.Finds
import ShaderCompiler.Proofs.Forwarding.Valid
import ShaderCompiler.Proofs.Passes.Edges

/-!
# Functions that stay in order

Both passes ask more of a function than that it passes the check. Its edges are current, its last
block is empty, numbers and instructions are distinct, and so on. They also keep all of this, and
most of it for the same reasons: blocks lose instructions at most, and jumps are left.
-/

namespace ShaderCompiler

variable {reader : Option InstrId}

namespace Arena

/-- What removing dead code asks of a function that passes the check. -/
structure Sweepable (a : Arena) (f : FunctionId) : Prop where
  edges : a.EdgesCurrent f
  finish : a.FinishEmpty f
  numbers : a.NumbersDistinct f
  distinct : a.InstrsDistinct f
  unchecked : a.UncheckedInOrder f
  lists : a.ListsRead [a.scopeOf f]
  loops : a.LoopsAfterBlocks f
  known : a.IntrinsicsKnown f
  count : a.CountFits f

/-- What both passes ask of a function that passes the check. -/
structure Orderly (a : Arena) (f : FunctionId) : Prop extends a.Sweepable f where
  own : a.ListsOwn [a.scopeOf f]
  wide : a.ValuesHaveLanes f

variable {a a' : Arena} {f : FunctionId} {g : Function} {region : Region} {b : BlockId}
  {d : InstrId} {u : UseId} {v : ValueId}

/-! ### What passes leave in order -/

theorem Obeys.scope_blocks (hr : a.Obeys f g region) :
    (a.scopeOf f).blocks = region.blocks ++ [g.finish] := by
  simp [scopeOf, (blocksOf_eq_ok hr.function hr.bodyRegion).mpr rfl, Except.toOption]

theorem Obeys.mem_of_askedAt (hr : a.Obeys f g region)
    (hasked : a.AskedAt f u b reader) : b ∈ (a.scopeOf f).blocks := by
  cases hasked with
  | source hb _ _ _ _ => exact hb
  | incoming hb hi hins _ hpred => exact hr.preds _ hb _ hi _ hins _ _ hpred
  | condition hregion hc _ _ =>
    cases hr.bodyRegion.symm.trans hregion
    rw [hr.scope_blocks, Region.blocks_eq_preorder]
    exact List.mem_append_left _ ((mem_branches hc).resolve_left (by simp))

namespace Upholds

variable (h : Upholds a a' f region) (hr : a.Obeys f g region)

include h hr

theorem defined_of_defined (hv : (a'.scopeOf f).defined v) : (a.scopeOf f).defined v := by
  obtain ⟨d, hd⟩ := defined_iff_standsFor.mp hv
  exact defined_iff_standsFor.mpr ⟨d, h.evolves.standsFor hr.function hr.wired hd⟩

/-- What is left and stood in an earlier block still does. -/
theorem exists_earlier (hdistinct : a.InstrsDistinct f) (hd : a'.StandsFor f d v)
    {home : BlockId} (hmem : d ∈ a.body home) (hsub : [home, b].Sublist (a.scopeOf f).blocks) :
    ∃ home, d ∈ a'.body home ∧ [home, b].Sublist (a'.scopeOf f).blocks := by
  obtain ⟨home', hhome', hmem', -⟩ := hd
  rw [h.scope_blocks hr] at hhome' ⊢
  obtain rfl := hdistinct.home_eq hhome' (hsub.subset (by simp))
    ((h.body_sublist hr hhome').subset hmem') hmem
  exact ⟨home', hmem', hsub⟩

/-- What is left stands where it stood before. -/
theorem standsBefore (hdistinct : a.InstrsDistinct f)
    (hb : b ∈ (a.scopeOf f).blocks) (hd : a'.StandsFor f d v)
    (hreader : ∀ i, reader = some i → i ∈ a'.body b)
    (hbefore : a.StandsBefore f d b (a.placeOf b reader)) :
    a'.StandsBefore f d b (a'.placeOf b reader) := by
  rcases hbefore with htake | ⟨home', hmem', hsub⟩
  · exact .inl (h.mem_take hr hdistinct hb hd hreader htake)
  · exact .inr (h.exists_earlier hr hdistinct hd hmem' hsub)

/-- Readings that the check does not look at stay behind their definitions. -/
theorem uncheckedInOrder (hw : a.FlowsWithin f) (hdistinct : a.InstrsDistinct f)
    (hbefore : ∀ u b k, a.UncheckedAt f u b k → a'.Reads (a.scopeOf f) u → ∀ use v d,
      a'.uses[u.idx]? = some use → use.value = some v → a'.StandsFor f d v →
        a.StandsBefore f d b k) : a'.UncheckedInOrder f := by
  rintro u b k (⟨hasked, hb⟩ | ⟨hregion, hc, hcon, hshape⟩) use v d huse hval hd
  · have hasked₀ := h.askedAt hr hasked
    have hread := h.reads_of_askedAt hr hasked
    rw [h.reachable_iff hr hw] at hb
    exact h.standsBefore hr hdistinct (hr.mem_of_askedAt hasked₀) hd hasked.mem_body
      (hbefore u b _ (.unreached hasked₀ hb) hread use v d huse hval hd)
  · rw [h.evolves.bodyRegion_eq hr.function] at hregion
    have hstruct := hr.shaped.2.structured
    cases hr.bodyRegion.symm.trans hregion
    obtain ⟨⟨_, _, _, _, heq, hbranch⟩, -⟩ := Region.branching_of_mem hc hstruct
    cases heq
    have hread : a'.Reads (a.scopeOf f) u :=
      .inr ⟨_, scopeOf_ifs hr.bodyRegion ▸ List.mem_map_of_mem hbranch, _, _, _, hcon, hshape⟩
    rcases hbefore u b 0 (.behind hr.bodyRegion hc (h.evolves.constructs ▸ hcon) hshape) hread use v d
      huse hval hd with htake | ⟨home, hmem, hsub⟩
    · simp at htake
    · exact .inr (h.exists_earlier hr hdistinct hd hmem hsub)

theorem numbersDistinct (hnumbers : a.NumbersDistinct f) : a'.NumbersDistinct f := by
  have hnumber {v : ValueId} (hv : (a.scopeOf f).defined v) : a'.number? v = a.number? v := by
    obtain ⟨x, hx⟩ := hr.wired.value v hv
    obtain ⟨x', hx', hindex, -⟩ := h.evolves.value v x hx
    simp [number?, hx, hx', hindex]
  intro v w hv hw heq
  have hv₀ := h.defined_of_defined hr hv
  have hw₀ := h.defined_of_defined hr hw
  exact hnumbers v w hv₀ hw₀ ((hnumber hv₀).symm.trans (heq.trans (hnumber hw₀)))

theorem valuesHaveLanes (hwide : a.ValuesHaveLanes f) : a'.ValuesHaveLanes f := by
  intro v x' hv hx'
  have hv₀ := h.defined_of_defined hr hv
  obtain ⟨x, hx⟩ := hr.wired.value v hv₀
  obtain ⟨-, hcomps, -⟩ := h.evolves.value_eq hx hx'
  exact hcomps ▸ hwide v x hv₀ hx

theorem intrinsicsKnown (hknown : a.IntrinsicsKnown f) : a'.IntrinsicsKnown f := by
  intro b hb i hi ins' hins' op dest srcs base hact
  rw [h.scope_blocks hr] at hb
  obtain ⟨hi₀, ins, hins, hact', -⟩ := h.evolves.exists_before hr.wired hb hi hins'
  exact hknown b hb i hi₀ ins hins op dest srcs base (hact'.symm.trans hact)

theorem finishEmpty (hempty : a.FinishEmpty f) : a'.FinishEmpty f := by
  intro g' hg'
  obtain ⟨g'', hg'', -, hfinish, -⟩ := h.evolves.exists_function hr.function
  cases hg'.symm.trans hg''
  have hsub := h.body_sublist hr (b := g.finish) (by simp [hr.scope_blocks])
  rw [hempty g hr.function] at hsub
  rw [hfinish]
  exact List.sublist_nil.mp hsub

/-- A pass keeps what removing dead code asks for, if it leaves the jumps, keeps readings behind
their definitions, and leaves use-lists that list readings. -/
theorem sweepable (hs : a.Sweepable f)
    (hleft : ∀ b ∈ (a.scopeOf f).blocks, ∀ i ∈ a.body b, ∀ ins kind, a.instrs[i.idx]? = some ins →
      ins.action = .jump kind → i ∈ a'.body b)
    (hbefore : ∀ u b k, a.UncheckedAt f u b k → a'.Reads (a.scopeOf f) u → ∀ use v d,
      a'.uses[u.idx]? = some use → use.value = some v → a'.StandsFor f d v → a.StandsBefore f d b k)
    (hlists : a'.ListsRead [a'.scopeOf f]) (hw : a.FlowsWithin f) : a'.Sweepable f where
  edges := h.edgesCurrent hr hs.distinct hleft hs.edges
  finish := h.finishEmpty hr hs.finish
  numbers := h.numbersDistinct hr hs.numbers
  distinct := h.instrsDistinct hr hs.distinct
  unchecked := h.uncheckedInOrder hr hw hs.distinct hbefore
  lists := hlists
  loops region' hregion' := by
    rw [h.evolves.bodyRegion_eq hr.function] at hregion'
    exact hs.loops region' hregion'
  known := h.intrinsicsKnown hr hs.known
  count g' hg' := by
    obtain ⟨g'', hg'', -, -, hcount⟩ := h.evolves.exists_function hr.function
    cases hg'.symm.trans hg''
    exact hcount ▸ hs.count g hr.function

end Upholds

end Arena

end ShaderCompiler
