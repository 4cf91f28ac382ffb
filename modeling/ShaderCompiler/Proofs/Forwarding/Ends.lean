import ShaderCompiler.Proofs.Forwarding.Settled

/-!
# Runs of forwarding end

If control gets to every block of a function, the check makes sure that what an instruction reads
is defined further up in the dominator tree, or in front of it in its block. So copies can not read
each other in a circle: a copy ranks above what it reads, if the rank of a value is the number of
instructions that stand further up or in front of its definition. A run then turns each use at most
once for every instruction, and its queue runs empty within its bound.
-/

namespace ShaderCompiler

namespace Arena

variable {a a₁ : Arena} {f : FunctionId} {g : Function} {region : Region} {tree : Dominance}
  {defs : Edit.Definitions} {b : BlockId} {e i : InstrId} {v : ValueId}

/-- Control gets to every block of a function, along exits between its blocks. -/
def Connected (a : Arena) (f : FunctionId) : Prop :=
  ∃ root, a.entryOf f = some root ∧ ∀ b ∈ (a.scopeOf f).blocks,
    Reaches root (fun c t => a.Flows c t ∧ t ∈ (a.scopeOf f).blocks) (fun _ => False) b

/-- The place of an instruction: the depth of its block in the tree, and its number. -/
def placeIn (a : Arena) (tree : Dominance) (i : InstrId) : Nat ×ₗ Nat :=
  (a.instrs[i.idx]?).elim (toLex (0, 0)) fun ins => toLex
    ((((ins.block.bind fun b => a.blocks[b.idx]?).bind fun bb => tree.depth[bb.index]?).join).getD 0,
      ins.index)

/-- The rank of a value: how many instructions stand further up or in front of its definition. -/
def rankIn (a : Arena) (tree : Dominance) (v : ValueId) : Nat :=
  ((a.values[v.idx]?).bind Value.definedBy).elim 0 fun i =>
    ((Finset.range a.instrs.size).filter fun k => a.placeIn tree ⟨k⟩ < a.placeIn tree i).card

theorem rankIn_le (a : Arena) (tree : Dominance) (v : ValueId) :
    a.rankIn tree v ≤ a.instrs.size := by
  unfold rankIn
  cases (a.values[v.idx]?).bind Value.definedBy with
  | none => exact Nat.zero_le _
  | some i => exact (Finset.card_filter_le _ _).trans (Finset.card_range _).le

/-- What stands further up or in front has a lower rank. -/
theorem rankIn_lt {d w : ValueId} {x y : Value} (hx : a.values[w.idx]? = some x)
    (he : x.definedBy = some e) (hy : a.values[d.idx]? = some y) (hi : y.definedBy = some i)
    (hsize : e.idx < a.instrs.size) (hlt : a.placeIn tree e < a.placeIn tree i) :
    a.rankIn tree w < a.rankIn tree d := by
  simp only [rankIn, hx, hy, Option.bind_some, he, hi, Option.elim_some]
  refine Finset.card_lt_card (Finset.ssubset_iff_of_subset ?_ |>.mpr ⟨e.idx, ?_, ?_⟩)
  · intro k hk
    rw [Finset.mem_filter] at hk ⊢
    exact ⟨hk.1, hk.2.trans hlt⟩
  · exact Finset.mem_filter.mpr ⟨Finset.mem_range.mpr hsize, hlt⟩
  · simp

namespace Surveyed

variable (h : a.Surveyed f a₁ g region tree)

include h

/-- The number of a block that control gets to can be reached in the graph of numbers. -/
theorem reaches_index {graph : FlowGraph}
    (hgraph : a₁.flowGraph (region.blocks ++ [g.finish]) = .ok graph) {root : BlockId}
    (hroot : a.entryOf f = some root)
    (hb : Reaches root (fun c t => a.Flows c t ∧ t ∈ (a.scopeOf f).blocks) (fun _ => False) b) :
    b ∈ (a.scopeOf f).blocks ∧ ∀ bb, a₁.blocks[b.idx]? = some bb →
      Reaches graph.root graph.Edge (fun _ => False) bb.index := by
  obtain ⟨⟨r, rb, hr, hrb, hindex⟩, -, hedges, -⟩ := flowGraph_spec hgraph
  induction hb with
  | root _ =>
    rw [h.entryOf_eq, hr] at hroot
    cases hroot
    refine ⟨h.scope_blocks ▸ List.mem_of_getElem? hr, fun bb hbb => ?_⟩
    cases hrb.symm.trans hbb
    exact hindex ▸ .root id
  | @step c t _ hflow _ ih =>
    obtain ⟨hc, hreach⟩ := ih
    refine ⟨hflow.2, fun tb htb => ?_⟩
    obtain ⟨cb, hcb, ht⟩ := h.flows_iff.mpr hflow.1
    by_cases htc : t = c
    · subst htc
      exact hreach tb htb
    · obtain ⟨tb', htb', hedge⟩ := hedges c (h.scope_blocks ▸ hc) cb t hcb ht htc
      cases htb.symm.trans htb'
      exact (hreach cb hcb).step hedge id

/-- A definition that precedes a reading stands further up or in front of it. -/
theorem placeIn_lt (hconn : a.Connected f) (hb : b ∈ (a.scopeOf f).blocks) {ins dns : Instr}
    (hins : a₁.instrs[i.idx]? = some ins) (hplace : ins.block = some b)
    (hdns : a₁.instrs[e.idx]? = some dns)
    (hhome : ∀ home, dns.block = some home → home ∈ (a.scopeOf f).blocks)
    (hprec : a₁.Precedes tree e (some b) (some i)) :
    a₁.placeIn tree e < a₁.placeIn tree i := by
  obtain ⟨graph, hgraph, htree⟩ := treeOf_dominanceOf h.dominance h.numberedBy
  obtain ⟨root, hroot, hall⟩ := hconn
  have hreach {c : BlockId} {cb : Block} (hc : c ∈ (a.scopeOf f).blocks)
      (hcb : a₁.blocks[c.idx]? = some cb) : cb.index ∈ graph.reachable none :=
    graph.mem_reachable_none.mpr ((h.reaches_index hgraph hroot (hall c hc)).2 cb hcb)
  have hdepth {n : Nat} (hn : n ∈ graph.reachable none) :
      tree.depth[n]? = some (some (graph.dominatorsOf n).length) := by
    rw [htree.depth n (htree.lt n hn), if_pos hn]
  obtain ⟨dns', b', bb, depth, hdns', heq, hbb, hat, hcases⟩ := hprec
  cases heq
  cases hdns.symm.trans hdns'
  simp only [placeIn, hdns, hins, Option.elim_some, Prod.Lex.toLex_lt_toLex, hplace,
    Option.bind_some, hbb, hdepth (hreach hb hbb), Option.join_some, Option.getD_some]
  rcases hcases with rfl | ⟨hsame, hindex⟩ | ⟨hother, home, hb', hhome', hhb, hdom⟩
  · simp [htree.depthAt_of_mem (hreach hb hbb)] at hat
  · obtain ⟨ins', hins', hlt⟩ := hindex i rfl
    cases hins.symm.trans hins'
    simp only [hsame, Option.bind_some, hbb, hdepth (hreach hb hbb), Option.join_some,
      Option.getD_some]
    exact .inr ⟨trivial, hlt⟩
  · have hmem := hhome home hhome'
    have hhr := hreach hmem hhb
    simp only [hhome', Option.bind_some, hhb, hdepth hhr, Option.join_some, Option.getD_some]
    refine .inl (FlowGraph.length_dominatorsOf_lt (graph.mem_dominatorsOf.mpr
      ⟨graph.mem_reachable_none.mp hhr, fun heq => hother ?_, ?_⟩))
    · rw [hhome', h.numberedBy.eq_of_index (h.scope_blocks ▸ hmem) (h.scope_blocks ▸ hb) hhb hbb heq]
    · obtain ⟨r, hr, hiff⟩ := htree.exists_dominatesIn (htree.lt _ hhr)
        (htree.lt _ (hreach hb hbb))
      cases hdom.symm.trans hr
      exact (hiff.mp rfl).2

end Surveyed

/-- In a function that passes the check copies rank above what they read, if control gets to all
blocks. -/
theorem Checked.falling (h : a.Checked f a₁ g region tree defs) (hconn : a.Connected f) :
    a.Falling [a.scopeOf f] fun s => a₁.rankIn tree s.1 := by
  rintro ⟨d, l⟩ ⟨w, m⟩ ⟨i, b, p, -, ⟨T, hT, hb, hi, ins, hins, hplace, hact, hdest, -⟩, -, -, hlane⟩
  obtain ⟨src, suse, hsrc, hsuse, hsval⟩ := offers_of_laneOf hlane
  obtain rfl := List.mem_singleton.mp hT
  obtain ⟨use, w', x, e, huse, hval, hdef, hx, hby, -, hprec⟩ :=
    h.source_precedes hb hi hins (Instr.mem_sources_of_alu hact hsrc)
  cases hsuse.symm.trans huse
  cases hsval.symm.trans hval
  obtain ⟨-, y, hy, hyi⟩ := h.wired.value_of_definition hb hi hins (v := d)
    (by simp [Instr.definitions, hact, hdest])
  have hown : ins.incoming src = none := by simp [Instr.incoming, hact]
  rw [hown] at hprec
  -- The definition is an instruction of the function.
  obtain ⟨home, hhome, hmem, ens, hens, -⟩ := h.mem_defs.mp hdef
  have hins₁ := h.instr i
  have hens₁ := h.instr e
  rw [hins, Option.map_some] at hins₁
  rw [hens, Option.map_some] at hens₁
  refine rankIn_lt (h.values ▸ hx) hby (h.values ▸ hy) hyi (Array.getElem?_eq_some_iff.mp hens₁).1
    (h.placeIn_lt hconn hb hins₁ hplace hens₁ (fun home' hblock => ?_) hprec)
  obtain rfl : home = home' :=
    Option.some.inj ((h.homed.place home hhome e hmem ens hens).symm.trans hblock)
  exact hhome

/-! ### Runs end -/

theorem Evolves.queueBound_le {S : Scope} {a' : Arena} (h : Evolves S a a') :
    a.queueBound ≤ a'.queueBound := by
  have huses : a.uses.size ≤ a'.uses.size := by
    by_contra hlt
    obtain ⟨_, huse, -⟩ := h.use ⟨a'.uses.size⟩ _ (Array.getElem?_eq_getElem (not_le.mp hlt))
    simp at huse
  have hinstrs : a.instrs.size ≤ a'.instrs.size := by
    by_contra hlt
    obtain ⟨_, hins, -⟩ := h.instr ⟨a'.instrs.size⟩ _ (Array.getElem?_eq_getElem (not_le.mp hlt))
    simp at hins
  unfold queueBound
  gcongr

/-- A run ends if moved lanes fall in rank. -/
theorem exists_forwardCopies_of_falling (hf : a.Runnable f) {rank : ValueId × Nat → Nat}
    (hfall : a.Falling [a.scopeOf f] rank) (hrank : ∀ s, rank s ≤ maxLanes * a.instrs.size) :
    ∃ progress a', Edit.forwardCopies f a = .ok progress a' := by
  rw [Edit.forwardCopies_eq_within]
  rcases Edit.exists_forwardCopiesWithin hf queueBound with
    ⟨-, -, a₂, hkept, hbound⟩ | ⟨progress, a', hrun, -⟩
  · -- The bound covers all turns that there can be.
    have hlow := hbound rank hfall
    have htoll : a.toll rank ≤ a.uses.size * (maxLanes * a.instrs.size) := toll_le hrank
    have hqueue := hkept.evolves.queueBound_le
    have hcover : 2 * (a.uses.size * (maxLanes * a.instrs.size)) ≤ a.queueBound := by
      unfold queueBound maxLanes
      nlinarith
    omega
  · exact ⟨progress, a', hrun⟩

/-- A run on a function that passes the check ends, if control gets to all blocks. -/
theorem exists_forwardCopies (hacc : a.Accepted f) (hlists : a.ListsRead [a.scopeOf f])
    (hown : a.ListsOwn [a.scopeOf f]) (hwide : a.ValuesHaveLanes f) (hconn : a.Connected f) :
    ∃ progress a', Edit.forwardCopies f a = .ok progress a' := by
  obtain ⟨a₁, g, region, tree, defs, hc⟩ := hacc.checked
  refine exists_forwardCopies_of_falling (runnable_of_accepted hacc hlists hown hwide)
    (hc.falling hconn) fun s => ?_
  have hsize : a₁.instrs.size = a.instrs.size := by
    simpa [code] using congrArg (·.instrs.size) hc.code
  have hle := rankIn_le a₁ tree s.1
  unfold maxLanes
  omega

/-- A run on a function that passes the check ends if control gets to all of its blocks. Whenever a
run ends, whichever bound it has, no use of the function is left that could look through a copy,
and another run reports no progress and changes nothing. -/
theorem forwardCopies_settles (hacc : a.Accepted f) (hlists : a.ListsRead [a.scopeOf f])
    (hown : a.ListsOwn [a.scopeOf f]) :
    Edit.forwardCopies f = Edit.forwardCopiesWithin queueBound f
      ∧ (a.ValuesHaveLanes f → a.Connected f →
        ∃ progress a', Edit.forwardCopies f a = .ok progress a')
      ∧ ∀ bound progress a', Edit.forwardCopiesWithin bound f a = .ok progress a' →
        a'.Folded f ∧ ∀ bound', Edit.forwardCopiesWithin bound' f a' = .ok false a' :=
  ⟨Edit.forwardCopies_eq_within f, exists_forwardCopies hacc hlists hown, fun _ _ _ =>
    folded_of_forwardCopiesWithin hacc hlists hown⟩

/-- Control gets to both sides of the `if` of the sample, to what follows, and to the end. -/
theorem connected_guardedCopy : Edit.guardedCopy.built.Connected ⟨0⟩ := by
  have hscope : (Edit.guardedCopy.built.scopeOf ⟨0⟩).blocks = [⟨1⟩, ⟨3⟩, ⟨2⟩, ⟨4⟩, ⟨0⟩] := by
    decide +kernel
  have hflow : ∀ e ∈ [(1, 3), (1, 2), (2, 4), (4, 0)],
      Edit.guardedCopy.built.Flows ⟨e.1⟩ ⟨e.2⟩ := by
    decide +kernel
  refine ⟨⟨1⟩, by decide +kernel, ?_⟩
  simp only [hscope]
  have entry : Reaches (⟨1⟩ : BlockId) (fun c t => Edit.guardedCopy.built.Flows c t
      ∧ t ∈ [⟨1⟩, ⟨3⟩, ⟨2⟩, ⟨4⟩, (⟨0⟩ : BlockId)]) (fun _ => False) ⟨1⟩ := .root id
  have yes := entry.step (y := ⟨3⟩) ⟨hflow (1, 3) (by simp), by simp⟩ id
  have no := entry.step (y := ⟨2⟩) ⟨hflow (1, 2) (by simp), by simp⟩ id
  have after := no.step (y := ⟨4⟩) ⟨hflow (2, 4) (by simp), by simp⟩ id
  have finish := after.step (y := ⟨0⟩) ⟨hflow (4, 0) (by simp), by simp⟩ id
  intro b hb
  fin_cases hb
  exacts [entry, yes, no, after, finish]

/-- The copy of the sample is taken out, and a second run finds nothing to do. -/
theorem forwardCopies_settles_guardedCopy :
    ∃ a', Edit.forwardCopies ⟨0⟩ Edit.guardedCopy.built = .ok true a' ∧ a'.Folded ⟨0⟩
      ∧ Edit.forwardCopies ⟨0⟩ a' = .ok false a' := by
  obtain ⟨-, hends, hleaves⟩ := forwardCopies_settles (a := Edit.guardedCopy.built) (f := ⟨0⟩)
    (by decide +kernel) (by decide +kernel) (by decide +kernel)
  obtain ⟨progress, a', hrun⟩ := hends (by decide +kernel) connected_guardedCopy
  obtain ⟨_, hprogress⟩ := Edit.result?_eq_some.mp
    (show (Edit.forwardCopies ⟨0⟩).result? Edit.guardedCopy.built = some true by decide +kernel)
  cases hrun.symm.trans hprogress
  obtain ⟨hfolded, hagain⟩ := hleaves queueBound true a' hrun
  exact ⟨a', hrun, hfolded, hagain queueBound⟩

end Arena

end ShaderCompiler
