import ShaderCompiler.Proofs.Placement

/-!
# Definitions along paths

What the check promises, in terms of paths. A walk is a finite path along the exits of blocks
that starts at the entry of a function. Up to a position in its last block it executes the
instructions of the blocks that it leaves and those in front of the position. In a function that
passes the check, every walk to a reading has executed the instruction that defines the value
which is read, and the entries of a φ are the predecessors of its block.
-/

namespace ShaderCompiler

variable {root : BlockId} {srcs : List (BlockId × UseId)} {ins : Instr} {dest : Option ValueId}

namespace Arena

variable {a : Arena} {f : FunctionId} {b t : BlockId} {d i : InstrId} {k : Nat} {u : UseId}
  {path : List BlockId}

/-- Control can go from the entry of a function through the blocks of a list, and from the last
of them to the given block. -/
inductive Walk (a : Arena) (f : FunctionId) : List BlockId → BlockId → Prop
  | entry {b : BlockId} (h : a.entryOf f = some b) : Walk a f [] b
  | step {path : List BlockId} {b t : BlockId} (h : Walk a f path b) (hbt : a.Flows b t) :
      Walk a f (path ++ [b]) t

/-- The instructions that a walk has executed when it is in front of position `k` of its last
block. -/
def executed (a : Arena) (path : List BlockId) (b : BlockId) (k : Nat) : List InstrId :=
  path.flatMap a.body ++ (a.body b).take k

/-- No φ of a function reads one use twice, for two predecessors or as its indirect source. -/
def PhiSourcesDistinct (a : Arena) (f : FunctionId) : Prop :=
  ∀ b ∈ (a.scopeOf f).blocks, ∀ i ∈ a.body b, ∀ ins ∈ a.instrs[i.idx]?,
    ins.isPhi = true → ins.sources.Nodup

instance : Decidable (a.PhiSourcesDistinct f) :=
  inferInstanceAs (Decidable (∀ b ∈ (a.scopeOf f).blocks, ∀ i ∈ a.body b,
    ∀ ins ∈ a.instrs[i.idx]?, ins.isPhi = true → ins.sources.Nodup))

/-- A use needs its value in front of position `k` of a block: as an ordinary or indirect source
of the instruction there, at the end of the block as the source for this predecessor of a φ that
control may get to, or as the condition of the `if` right after the block. -/
inductive NeededAt (a : Arena) (f : FunctionId) (u : UseId) : BlockId → Nat → Prop
  | source {b : BlockId} {k : Nat} {i : InstrId} {ins : Instr} (hi : (a.body b)[k]? = some i)
      (hins : a.instrs[i.idx]? = some ins) (hu : some u ∈ ins.sources)
      (hphi : ins.isPhi = true → ins.indirect = some u) : NeededAt a f u b k
  | incoming {b pred : BlockId} {i : InstrId} {ins : Instr} {dest : Option ValueId}
      {srcs : List (BlockId × UseId)} (hb : a.Reachable f b) (hi : i ∈ a.body b)
      (hins : a.instrs[i.idx]? = some ins) (hact : ins.action = .phi dest srcs)
      (hu : (pred, u) ∈ srcs) : NeededAt a f u pred (a.body pred).length
  | condition {b : BlockId} {c : ConstructId} {con : Construct} {yes no : List Item}
      {region : Region} (hregion : a.bodyRegion f = .ok region)
      (hc : (c, some b) ∈ region.branches none) (hcon : a.constructs[c.idx]? = some con)
      (hshape : con.shape = .branch (some u) yes no) : NeededAt a f u b (a.body b).length

/-! ### Walks -/

theorem Walk.reachable (h : a.Walk f path b) : a.Reachable f b := by
  induction h with
  | entry h => exact ⟨_, h, .root (by simp)⟩
  | step _ hbt ih => exact ih.flow hbt

/-- A walk that does not meet a block is a path that avoids it. -/
theorem Walk.reaches {d : BlockId} (h : a.Walk f path b) (hroot : a.entryOf f = some root)
    (hpath : d ∉ path) (hd : b ≠ d) : Reaches root a.Flows (· = d) b := by
  induction h with
  | entry h =>
    cases hroot.symm.trans h
    exact .root hd
  | step _ hbt ih =>
    simp only [List.mem_append, List.mem_singleton, not_or] at hpath
    exact (ih hpath.1 fun h => hpath.2 h.symm).step hbt hd

/-- A walk to a block meets its dominators. -/
theorem Walk.mem_of_dominates {home : BlockId} (h : a.Walk f path b)
    (hroot : a.entryOf f = some root) (hdom : Dominates root a.Flows home b) (hne : home ≠ b) :
    home ∈ path := by
  by_contra hnot
  exact hdom (h.reaches hroot hnot hne.symm)

/-- What is done before a position was executed on every walk there. -/
theorem DoneBefore.mem_executed (hd : a.DoneBefore f d b k) (h : a.Walk f path b) :
    d ∈ a.executed path b k := by
  rcases hd with hd | ⟨home, root, hne, hd, hroot, hdom⟩
  · exact List.mem_append_right _ hd
  · exact List.mem_append_left _
      (List.mem_flatMap.mpr ⟨home, h.mem_of_dominates hroot hdom hne, hd⟩)

/-! ### The entries of a φ -/

/-- As many entries as predecessors, with one for each predecessor, are one for each. -/
theorem countP_eq_of_phiSourceFor {preds : List BlockId}
    (hnodup : preds.Nodup) (hlength : srcs.length = preds.length)
    (hall : ∀ p ∈ preds, (phiSourceFor srcs p).isSome = true) (t : BlockId) :
    srcs.countP (·.1 = t) = if t ∈ preds then 1 else 0 := by
  have hsub : preds ⊆ srcs.map Prod.fst := by
    intro p hp
    obtain ⟨w, hw⟩ := Option.isSome_iff_exists.mp (hall p hp)
    exact List.mem_map_of_mem (mem_of_lookup hw)
  have hperm : preds.Perm (srcs.map Prod.fst) :=
    (List.subperm_of_subset hnodup hsub).perm_of_length_le (by simp [hlength])
  have hcount : srcs.countP (·.1 = t) = (srcs.map Prod.fst).count t := by
    rw [List.count, List.countP_map]
    exact List.countP_congr fun s _ => by simp
  rw [hcount, ← hperm.count_eq, hnodup.count]

/-- The sources of a φ are its entries, and behind them its indirect source. -/
theorem sources_of_phi
    (hact : ins.action = .phi dest srcs) :
    ins.sources = (srcs.map Prod.snd ++ ins.indirect.toList).map some := by
  unfold Instr.sources
  rw [hact]
  cases ins.indirect <;> simp

/-- In a φ that reads no use twice, the check looks at a use where it is read. -/
theorem PhiSourcesDistinct.nodup (h : a.PhiSourcesDistinct f) (hb : b ∈ (a.scopeOf f).blocks)
    (hi : i ∈ a.body b) (hins : a.instrs[i.idx]? = some ins)
    (hact : ins.action = .phi dest srcs) :
    (srcs.map Prod.snd ++ ins.indirect.toList).Nodup := by
  have hnodup := h b hb i hi ins hins (by simp [Instr.isPhi, hact])
  rw [sources_of_phi hact] at hnodup
  exact hnodup.of_map

/-! ### Soundness of the check -/

namespace Checked

variable {a₁ : Arena} {g : Function} {region : Region} {tree : Dominance}
  {defs : Edit.Definitions} (h : a.Checked f a₁ g region tree defs)

include h

/-- The definition of a value that is needed at a place that control gets to is done there. -/
theorem doneBefore_of_neededAt (hw : a.FlowsWithin f) (hdistinct : a.InstrsDistinct f)
    (hphis : a.PhiSourcesDistinct f) (hb : a.Reachable f b) (hu : a.NeededAt f u b k) :
    ∃ use v d, a.uses[u.idx]? = some use ∧ use.value = some v ∧ (v, d) ∈ defs
      ∧ a.DoneBefore f d b k := by
  have hmem := hw.mem_of_reachable hb
  cases hu with
  | @source _ _ i ins hi hins hu hphi =>
    have hown (dest : Option ValueId) (srcs : List (BlockId × UseId))
        (hact : ins.action = .phi dest srcs) : u ∉ srcs.map Prod.snd := fun hentry => by
      have hnodup := hphis.nodup hmem (List.mem_of_getElem? hi) hins hact
      rw [hphi (by simp [Instr.isPhi, hact])] at hnodup
      exact (List.nodup_append'.mp hnodup).2.2 hentry (by simp)
    obtain ⟨use, v, x, d, huse, hval, hvd, -, -, -, hprecedes⟩ :=
      h.source_precedes hmem (List.mem_of_getElem? hi) hins hu
    rw [incoming_eq_none.mpr hown] at hprecedes
    refine ⟨use, v, d, huse, hval, hvd, h.doneBefore hw hdistinct hb hmem hvd hprecedes ?_ (by simp)⟩
    intro j hj
    cases hj
    exact hi
  | @incoming c _ i ins dest srcs hc hi hins hact hu =>
    have hentries := (hphis.nodup (hw.mem_of_reachable hc) hi hins hact).of_append_left
    have honly (other : BlockId) (hother : (other, u) ∈ srcs) : other = b :=
      congrArg Prod.fst (List.inj_on_of_nodup_map hentries hother hu rfl)
    obtain ⟨use, v, x, d, huse, hval, hvd, -, -, -, hprecedes⟩ :=
      h.source_precedes (hw.mem_of_reachable hc) hi hins (Instr.mem_sources_of_phi hact hu)
    rw [incoming_eq_some hact hu honly] at hprecedes
    exact ⟨use, v, d, huse, hval, hvd,
      h.doneBefore hw hdistinct hb hmem hvd hprecedes (by simp) fun _ => rfl⟩
  | @condition _ c con yes no region' hregion hc hcon hshape =>
    cases h.bodyRegion.symm.trans hregion
    obtain ⟨_, use, v, x, d, heq, huse, hval, hvd, -, -, -, hprecedes⟩ :=
      h.condition_precedes hc hcon hshape
    cases heq
    exact ⟨use, v, d, huse, hval, hvd,
      h.doneBefore hw hdistinct hb hmem hvd hprecedes (by simp) fun _ => rfl⟩

theorem phi_entries {bb : Block}
    (hmem : b ∈ (a.scopeOf f).blocks)
    (hbb : a.blocks[b.idx]? = some bb) (hi : i ∈ bb.instrs) (hins : a.instrs[i.idx]? = some ins)
    (hact : ins.action = .phi dest srcs) : srcs.length = bb.preds.length
      ∧ ∀ p ∈ bb.preds, (phiSourceFor srcs p).isSome = true := by
  have hbody : i ∈ a.body b := by simpa [Arena.body, hbb] using hi
  obtain ⟨bb₁, ins₁, hbb₁, hins₁, -, hfits⟩ := h.fits.instr _ (h.mem_placed hmem hbody)
  have hsame := h.instr i
  rw [hins, Option.map_some, hins₁] at hsame
  cases hsame
  have hblock := h.block b
  rw [hbb, Option.map_some, hbb₁] at hblock
  cases hblock
  rw [show ({ ins with index := _ } : Instr).action = .phi dest srcs from hact] at hfits
  exact hfits.2

end Checked

/-- In a function that passes the check, every walk to a reading has executed the instruction
that defines the value, and a φ has one entry for each predecessor of its block and no other. The
check looks at a use of a φ for the first entry only that has it, so no φ may read a use twice. -/
theorem executed_before_read (hacc : a.Accepted f) (hdistinct : a.InstrsDistinct f)
    (hphis : a.PhiSourcesDistinct f) (hw : a.FlowsWithin f) :
    (∀ u b k path, a.NeededAt f u b k → a.Walk f path b → ∃ use v x d ins,
      a.uses[u.idx]? = some use ∧ use.value = some v ∧ a.values[v.idx]? = some x
        ∧ x.definedBy = some d ∧ a.instrs[d.idx]? = some ins ∧ some v ∈ ins.definitions
        ∧ d ∈ a.executed path b k)
    ∧ ∀ b bb, a.Reachable f b → a.blocks[b.idx]? = some bb → bb.preds.Nodup → ∀ i ∈ bb.instrs,
      ∀ ins dest srcs, a.instrs[i.idx]? = some ins → ins.action = .phi dest srcs → ∀ t,
        srcs.countP (·.1 = t) = if t ∈ bb.preds then 1 else 0 := by
  obtain ⟨a₁, g, region, tree, defs, h⟩ := hacc.checked
  refine ⟨fun u b k path hu hwalk => ?_, fun b bb hb hbb hnodup i hi ins dest srcs hins hact => ?_⟩
  · obtain ⟨use, v, d, huse, hval, hvd, hdone⟩ :=
      h.doneBefore_of_neededAt hw hdistinct hphis hwalk.reachable hu
    obtain ⟨x, hx, hby, -⟩ := h.value_of_mem_defs hvd
    obtain ⟨-, -, -, ins, hins, hdef⟩ := h.mem_defs.mp hvd
    exact ⟨use, v, x, d, ins, huse, hval, hx, hby, hins, hdef, hdone.mem_executed hwalk⟩
  · obtain ⟨hlength, hall⟩ := h.phi_entries (hw.mem_of_reachable hb) hbb hi hins hact
    exact countP_eq_of_phiSourceFor hnodup hlength hall

end Arena

namespace Edit

/-- Adds the initial value to a counter until the counter is not zero. -/
def countedLoop : Edit Unit := do
  let c ← newFunction "main"
  let _ ← c.const [0]
  let entry ← c.block
  let (_, c) ← c.openLoop
  let i ← c.phi 1
  let (_, c) ← c.openIf (some ⟨1⟩)
  let _ ← c.jump .leaveLoop
  let (_, c) ← c.closeIf
  let _ ← c.alu ⟨15⟩ 1 [some ⟨1⟩, some ⟨0⟩]
  addPhiSource i entry (some ⟨0⟩)
  addPhiSource i (← c.block) (some ⟨2⟩)
  let (_, c) ← c.closeLoop
  c.finish

end Edit

namespace Arena

open Edit

/-- On the way round the loop, the sum is computed before the φ of the header takes it. -/
theorem executed_before_read_countedLoop :
    countedLoop.built.Accepted ⟨0⟩ ∧ countedLoop.built.InstrsDistinct ⟨0⟩
      ∧ countedLoop.built.PhiSourcesDistinct ⟨0⟩ ∧ countedLoop.built.FlowsWithin ⟨0⟩
      ∧ countedLoop.built.NeededAt ⟨0⟩ ⟨4⟩ ⟨5⟩ 1
      ∧ countedLoop.built.Walk ⟨0⟩ [⟨1⟩, ⟨2⟩, ⟨3⟩] ⟨5⟩
      ∧ ∃ use v x d ins, countedLoop.built.uses[4]? = some use ∧ use.value = some v
        ∧ countedLoop.built.values[v.idx]? = some x ∧ x.definedBy = some d
        ∧ countedLoop.built.instrs[d.idx]? = some ins ∧ some v ∈ ins.definitions
        ∧ d ∈ countedLoop.built.executed [⟨1⟩, ⟨2⟩, ⟨3⟩] ⟨5⟩ 1 := by
  have hacc : countedLoop.built.Accepted ⟨0⟩ := by decide +kernel
  have hdistinct : countedLoop.built.InstrsDistinct ⟨0⟩ := by decide +kernel
  have hphis : countedLoop.built.PhiSourcesDistinct ⟨0⟩ := by decide +kernel
  have hw : countedLoop.built.FlowsWithin ⟨0⟩ := by decide +kernel
  have hflow : ∀ e ∈ [(1, 2), (2, 3), (3, 5)], countedLoop.built.Flows ⟨e.1⟩ ⟨e.2⟩ := by
    decide +kernel
  have hheader : countedLoop.built.Walk ⟨0⟩ [⟨1⟩] ⟨2⟩ :=
    .step (.entry (by decide +kernel)) (hflow (1, 2) (by simp))
  have hwalk : countedLoop.built.Walk ⟨0⟩ [⟨1⟩, ⟨2⟩, ⟨3⟩] ⟨5⟩ :=
    (hheader.step (hflow (2, 3) (by simp))).step (hflow (3, 5) (by simp))
  obtain ⟨ins, hins, hact⟩ : ∃ ins ∈ countedLoop.built.instrs[1]?,
      ins.action = .phi (some ⟨1⟩) [(⟨1⟩, ⟨3⟩), (⟨5⟩, ⟨4⟩)] := by
    decide +kernel
  have hlength : (countedLoop.built.body ⟨5⟩).length = 1 := by decide +kernel
  have hneeded : countedLoop.built.NeededAt ⟨0⟩ ⟨4⟩ ⟨5⟩ 1 :=
    hlength ▸ .incoming hheader.reachable (i := ⟨1⟩) (by decide +kernel) hins hact (by simp)
  exact ⟨hacc, hdistinct, hphis, hw, hneeded, hwalk,
    (executed_before_read hacc hdistinct hphis hw).1 ⟨4⟩ ⟨5⟩ 1 [⟨1⟩, ⟨2⟩, ⟨3⟩] hneeded hwalk⟩

end Arena

namespace Edit

/-- Computes a constant on one branch of an `if` and takes it in a φ behind, whose two entries share
the use of the constant. -/
def sharedEntry : Edit Unit := do
  let c ← newFunction "main"
  let _ ← c.const [5]
  let (_, c) ← c.openIf (some ⟨0⟩)
  let _ ← c.const [7]
  let yes ← c.block
  let c ← c.switchToElse
  let no ← c.block
  let (_, c) ← c.closeIf
  let i ← c.phi 1
  addPhiSource i yes (some ⟨1⟩)
  setAction i fun
    | .phi dest srcs => .phi dest (srcs ++ srcs.map fun s => (no, s.2))
    | action => action
  c.finish

/-- The check accepts a φ that takes, from the branch that does not compute it, a shared use. -/
example : sharedEntry.built.Accepted ⟨0⟩ ∧ ¬ sharedEntry.built.PhiSourcesDistinct ⟨0⟩
    ∧ ⟨1⟩ ∉ sharedEntry.built.executed [⟨1⟩] ⟨2⟩ (sharedEntry.built.body ⟨2⟩).length := by
  decide +kernel

end Edit

end ShaderCompiler
