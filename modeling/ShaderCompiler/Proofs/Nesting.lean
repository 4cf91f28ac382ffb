import ShaderCompiler.Proofs.Adjacency

/-!
# Scopes

A block of a list dominates what comes after it in the list, however deep it is nested there, and
the header of a loop dominates the loop and what comes after the loop. Breaks, continues and returns
in between only take paths away. So a value may be used wherever control gets to after its
definition in the same list or in a list around the use.

The answers are those of the queries, after the edges were computed from the lists and the
dominator tree was required.
-/

namespace ShaderCompiler

open Edit

variable {a a' : Arena} {f : FunctionId} {g : Function} {region : Region} {b t root : BlockId}
  {blocks : List BlockId} {tree : Dominance}

theorem Region.mem_loops_of_mem_tails {r body rest : Region} {c : ConstructId}
    (h : .loop c body rest ∈ r.tails) : body ∈ r.loops := by
  induction r with
  | done => simp [tails] at h
  | block b rest ih => exact ih (by simpa [tails] using h)
  | branch c' yes no rest ihy ihn ihr =>
    simp only [tails, loops, List.mem_cons, List.mem_append, reduceCtorEq, false_or] at h ⊢
    exact h.imp (fun h => h.imp ihy ihn) ihr
  | loop c' body' rest' ihb ihr =>
    simp only [tails, loops, List.mem_cons, List.mem_append, loop.injEq] at h ⊢
    rcases h with ⟨-, rfl, -⟩ | h | h
    · exact .inl rfl
    · exact .inr (.inl (ihb h))
    · exact .inr (.inr (ihr h))

namespace Arena

/-- The queries return, and a block is said to dominate another one that is said to be
reachable. -/
def Covers (a : Arena) (f : FunctionId) (b t : BlockId) : Prop :=
  ∃ r, isReachable f (some t) a = .ok r a
    ∧ (r = true → dominates f (some b) (some t) a = .ok true a)

theorem TreeCurrent.covers (h : a.TreeCurrent f blocks tree) (hroot : a.entryOf f = some root)
    (hflow : a.FlowsWithin f) (hb : b ∈ blocks) (ht : t ∈ blocks)
    (hdom : Dominates root a.Flows b t) : a.Covers f b t := by
  obtain ⟨r, hr, hreach⟩ := h.exists_isReachable hroot hflow ht
  refine ⟨r, hr, fun htrue => ?_⟩
  obtain ⟨r', hr', hevery⟩ := h.exists_dominates hroot hflow hb ht
  obtain rfl : r' = true :=
    hevery.mpr ((onEveryWalk_iff hroot).mpr ⟨(exists_walk_iff hroot).mp (hreach.mp htrue), hdom⟩)
  exact hr'

/-- The check has nothing to say about a use in a block that the block of the definition
covers. -/
theorem Covers.dominanceProblems (h : a.Covers f b t) (hne : b ≠ t) {d : InstrId} {ins : Instr}
    (hd : a.instrs[d.idx]? = some ins) (hb : ins.block = some b) (reader : Option InstrId)
    (user : Edit String) : dominanceProblems f d (some t) reader user a = .ok [] a := by
  obtain ⟨r, hr, hdom⟩ := h
  simp only [Edit.dominanceProblems, bind_eq_ok, look_eq_ok, instr_eq_ok]
  refine ⟨ins, a, ⟨hd, rfl⟩, r, a, hr, ?_⟩
  cases r with
  | false => rfl
  | true =>
    have hother : ins.block ≠ some t := by
      rw [hb]
      exact fun h => hne (Option.some.inj h)
    rw [if_neg (by simp), if_neg hother, bind_eq_ok]
    exact ⟨true, a, hb ▸ hdom rfl, rfl⟩

end Arena

namespace Edit

/-- After the edges of a function were computed, and its tree: a block covers what stands behind it
in its list, with all that is nested there, and a definition in the block may be used there. The
header of a loop covers the loop and what stands behind it. -/
theorem relink_covers_scopes (hg : a.functions[f.idx]? = some g)
    (hregion : a.bodyRegion f = .ok region) (hnodup : (region.blocks ++ [g.finish]).Nodup)
    (hfinish : (a.blocks[g.finish.idx]?).isSome = true) (hstructured : region.Structured)
    (hjumps : region.JumpsFit a false) :
    ∃ a₁ a₂, relink f a = .ok () a₁ ∧ require f ⟨false, true, false⟩ a₁ = .ok () a₂
      ∧ (∀ b rest, .block b rest ∈ region.tails → ∀ t ∈ rest.preorder, a₂.Covers f b t
        ∧ ∀ d ins, a₂.instrs[d.idx]? = some ins → ins.block = some b →
          ∀ reader user, dominanceProblems f d (some t) reader user a₂ = .ok [] a₂)
      ∧ ∀ c body rest, .loop c body rest ∈ region.tails → ∃ header, body.header = .ok header
        ∧ ∀ t ∈ body.preorder ++ rest.preorder, a₂.Covers f header t := by
  obtain ⟨a₁, hrun⟩ := exists_relink hg hregion hfinish hstructured hjumps
  obtain ⟨hedged, -, hregion₁, hg₁⟩ := relink_spec hg hregion hnodup hrun
  have hblocks := (Arena.blocksOf_eq_ok hg₁ hregion₁).mpr rfl
  have hclosed (b : BlockId) (hb : b ∈ region.blocks ++ [g.finish]) (t : BlockId)
      (hbt : a₁.Flows b t) : t ∈ region.blocks ++ [g.finish] := hedged.flows_closed hb hbt
  have hcaches := (relink_current hg hregion hnodup hstructured hrun).2
  obtain ⟨a₂, hrequire⟩ := exists_require hcaches hg₁ hblocks (by simp) hnodup
    (fun b hb => relink_present hg hregion hrun hb) hclosed
  obtain ⟨hsame, tree, htree⟩ := require_treeCurrent rfl hcaches hblocks hrequire
  have hflows : a₂.Flows = a₁.Flows := by
    funext b t
    exact propext (Arena.flows_of_numberBlocks hsame)
  obtain ⟨root, hroot⟩ : ∃ root, (region.blocks ++ [g.finish])[0]? = some root :=
    ⟨_, List.getElem?_eq_getElem (by simp)⟩
  have hentry : a₂.entryOf f = some root := by
    simpa [Arena.entryOf, htree.blocksOf, Except.toOption, List.head?_eq_getElem?] using hroot
  have hwithin : a₂.FlowsWithin f := by
    intro b hb t hbt
    simp only [Arena.scopeOf, htree.blocksOf, Except.toOption, Option.getD_some] at hb ⊢
    exact hclosed b hb t (hflows ▸ hbt)
  -- The first block of a part covers the part.
  have hcovers {s : Region} {b t : BlockId} (hs : s ∈ region.tails) (hgate : s.Gated)
      (hb : s.preorder.head? = some b) (ht : t ∈ s.preorder) : a₂.Covers f b t := by
    have hmem {x : BlockId} (hx : x ∈ s.preorder) : x ∈ region.blocks ++ [g.finish] := by
      rw [Region.blocks_eq_preorder]
      exact List.mem_append_left _ (Region.mem_of_mem_tails hs hx)
    refine htree.covers hentry hwithin (hmem (List.mem_of_mem_head? hb)) (hmem ht) ?_
    exact hflows ▸ hedged.first_dominates hnodup hroot hs hgate hb ht
  refine ⟨a₁, a₂, hrun, hrequire, fun b rest hs t ht => ?_, fun c body rest hs => ?_⟩
  · have hcover : a₂.Covers f b t := hcovers hs trivial rfl (List.mem_cons_of_mem b ht)
    refine ⟨hcover, fun d ins hd hb => hcover.dominanceProblems ?_ hd hb⟩
    rintro rfl
    rw [Region.blocks_eq_preorder] at hnodup
    have hpart := (List.nodup_append'.mp hnodup).1.sublist (Region.infix_of_mem_tails hs).sublist
    exact (List.nodup_cons.mp hpart).1 ht
  · obtain ⟨header, inner, rfl⟩ := (hstructured.startsWithBlock_of_mem_loops
      (Region.mem_loops_of_mem_tails hs)).exists_eq
    exact ⟨header, rfl, fun t ht => hcovers hs trivial rfl ht⟩

/-- The header of the loop covers the block behind the loop, which control only gets to by a break
in an `if`, and what the header defines may be used behind the `if`. -/
theorem relink_covers_scopes_countedLoop :
    ∃ g region, countedLoop.built.functions[0]? = some g
      ∧ countedLoop.built.bodyRegion ⟨0⟩ = .ok region ∧ (region.blocks ++ [g.finish]).Nodup
      ∧ (countedLoop.built.blocks[g.finish.idx]?).isSome = true ∧ region.Structured
      ∧ region.JumpsFit countedLoop.built false
      ∧ ∃ a₁ a₂, relink ⟨0⟩ countedLoop.built = .ok () a₁
        ∧ require ⟨0⟩ ⟨false, true, false⟩ a₁ = .ok () a₂ ∧ a₂.Covers ⟨0⟩ ⟨2⟩ ⟨6⟩
        ∧ ∀ d ins, a₂.instrs[d.idx]? = some ins → ins.block = some ⟨2⟩ →
          ∀ reader user, dominanceProblems ⟨0⟩ d (some ⟨5⟩) reader user a₂ = .ok [] a₂ := by
  obtain ⟨g, hg, region, hregion, hnodup, hfinish, hstructured, hjumps, hshape⟩ :
      ∃ g ∈ countedLoop.built.functions[0]?,
        ∃ region ∈ (countedLoop.built.bodyRegion ⟨0⟩).toOption,
          (region.blocks ++ [g.finish]).Nodup
            ∧ (countedLoop.built.blocks[g.finish.idx]?).isSome = true
            ∧ region.Structured ∧ region.JumpsFit countedLoop.built false
            ∧ region = .block ⟨1⟩ (.loop ⟨0⟩ (.block ⟨2⟩ (.branch ⟨1⟩ (.block ⟨4⟩ .done)
              (.block ⟨3⟩ .done) (.block ⟨5⟩ .done))) (.block ⟨6⟩ .done)) := by
    decide +kernel
  have hregion := eq_ok_of_mem_toOption hregion
  obtain ⟨a₁, a₂, hrun, hrequire, hblock, hloop⟩ :=
    relink_covers_scopes hg hregion hnodup hfinish hstructured hjumps
  subst hshape
  -- The loop stands behind the first block, and its header is the first block of its body.
  obtain ⟨header, hheader, hcovers⟩ := hloop _ _ _ (List.mem_cons_of_mem _ List.mem_cons_self)
  cases hheader
  have hbehind := hblock _ _
    (List.mem_cons_of_mem _ (List.mem_cons_of_mem _ (List.mem_append_left _ List.mem_cons_self)))
  exact ⟨g, _, hg, hregion, hnodup, hfinish, hstructured, hjumps, a₁, a₂, hrun, hrequire,
    hcovers ⟨6⟩ (by simp [Region.preorder]),
    (hbehind ⟨5⟩ (by simp [Region.preorder])).2⟩

end Edit

end ShaderCompiler
