import ShaderCompiler.Proofs.Accepted
import ShaderCompiler.Proofs.Execution
import ShaderCompiler.Proofs.Order

/-!
# Definitions and readings along executions

An instruction is done before a position of a block if it stands earlier in the block or in a
block that dominates it. This is what an execution can rely on: whenever control is at the
position, the instruction was executed, and nothing after it has changed what it read.

In a function that passes the check and whose edges are up to date, every reading at a place
that control gets to finds its definition done.
-/

namespace ShaderCompiler

variable {c root home : BlockId} {m : Nat} {p : Alu} {blocks : List BlockId} {dns ins : Instr}
  {bb : Block} {reader : Option InstrId}

namespace Arena

variable {a a₁ : Arena} {f : FunctionId} {g : Function} {region : Region} {tree : Dominance}
  {defs : Edit.Definitions} {b t : BlockId} {d e i : InstrId} {k : Nat} {u : UseId}

/-- An instruction is done whenever control is in front of position `k` of a block. -/
def DoneBefore (a : Arena) (f : FunctionId) (d : InstrId) (b : BlockId) (k : Nat) : Prop :=
  d ∈ (a.body b).take k ∨ ∃ home root, home ≠ b ∧ d ∈ a.body home ∧ a.entryOf f = some root
    ∧ Dominates root a.Flows home b

/-- A use is read in front of position `k` of a block: by the instruction there, or at the end of
the block by a φ of the block entered next or as a condition. -/
inductive ReadAt (a : Arena) (f : FunctionId) (u : UseId) : BlockId → Nat → Prop
  | source {b : BlockId} {k : Nat} {i : InstrId} {ins : Instr} (hi : (a.body b)[k]? = some i)
      (hins : a.instrs[i.idx]? = some ins) (hphi : ins.isPhi = false)
      (hu : some u ∈ ins.sources) : ReadAt a f u b k
  | incoming {b t : BlockId} {i : InstrId} {ins : Instr} {dest : Option ValueId}
      {srcs : List (BlockId × UseId)} (hbt : a.Flows b t) (hi : i ∈ a.body t)
      (hins : a.instrs[i.idx]? = some ins) (hact : ins.action = .phi dest srcs)
      (hu : phiSourceFor srcs b = some u) : ReadAt a f u b (a.body b).length
  | condition {b : BlockId} (hu : a.conditionAfter f b = some u) :
      ReadAt a f u b (a.body b).length

/-- Every instruction of a function has one place, and definitions are done before control gets
to a reading. Arithmetic instructions and the lanes of sources fit. -/
structure Laid (a : Arena) (f : FunctionId) : Prop where
  wired : a.Wired (a.scopeOf f)
  homed : a.Homed (a.scopeOf f)
  reachable : ∀ b, a.Reachable f b → b ∈ (a.scopeOf f).blocks
  nodup : ∀ b ∈ (a.scopeOf f).blocks, (a.body b).Nodup
  alu : ∀ b ∈ (a.scopeOf f).blocks, ∀ i ∈ a.body b, ∀ ins p, a.instrs[i.idx]? = some ins →
    ins.action = .alu p → a.AluFits p
  read : ∀ u b k, a.Reachable f b → a.ReadAt f u b k → ∃ use v x d, a.uses[u.idx]? = some use
    ∧ use.value = some v ∧ (a.scopeOf f).defined v ∧ a.values[v.idx]? = some x
    ∧ x.definedBy = some d ∧ a.DoneBefore f d b k ∧ (use.guards = none → a.LanesFit u x.comps)

/-- No instruction occurs twice in a function. -/
def InstrsDistinct (a : Arena) (f : FunctionId) : Prop :=
  ((a.scopeOf f).blocks.flatMap a.body).Nodup

/-- Control does not leave the blocks of a function. -/
def FlowsWithin (a : Arena) (f : FunctionId) : Prop :=
  ∀ b ∈ (a.scopeOf f).blocks, ∀ t, a.Flows b t → t ∈ (a.scopeOf f).blocks

/-- No φ of a function reads one use for two predecessors. -/
def PhiUsesDistinct (a : Arena) (f : FunctionId) : Prop :=
  ∀ b ∈ (a.scopeOf f).blocks, ∀ i ∈ a.body b, ∀ ins dest srcs, a.instrs[i.idx]? = some ins →
    ins.action = .phi dest srcs → (srcs.map Prod.snd).Nodup

instance : Decidable (a.InstrsDistinct f) :=
  inferInstanceAs (Decidable (List.Nodup _))

instance : Decidable (a.FlowsWithin f) :=
  decidable_of_iff (∀ b ∈ (a.scopeOf f).blocks, ∀ bb ∈ a.blocks[b.idx]?, ∀ t ∈ bb.exits.toList,
      t ∈ (a.scopeOf f).blocks) <| by
    refine forall₂_congr fun b _ => ?_
    simp only [Flows, Option.mem_def, forall_exists_index, and_imp]
    exact ⟨fun h t bb hbb => h bb hbb t, fun h bb hbb t => h t bb hbb⟩

/-- The uses that a φ reads. -/
def phiUses (ins : Instr) : List UseId :=
  match ins.action with
  | .phi _ srcs => srcs.map Prod.snd
  | _ => []

instance : Decidable (a.PhiUsesDistinct f) :=
  decidable_of_iff (∀ b ∈ (a.scopeOf f).blocks, ∀ i ∈ a.body b, ∀ ins ∈ a.instrs[i.idx]?,
      (phiUses ins).Nodup) <| by
    refine forall₄_congr fun b _ i _ => forall_congr' fun ins => ?_
    cases hact : ins.action <;> simp [Option.mem_def, phiUses, hact]

theorem InstrsDistinct.nodup_body (h : a.InstrsDistinct f) (hb : b ∈ (a.scopeOf f).blocks) :
    (a.body b).Nodup :=
  (List.nodup_flatMap.mp h).1 b hb

theorem InstrsDistinct.home_eq (h : a.InstrsDistinct f)
    (hb : b ∈ (a.scopeOf f).blocks) (hc : c ∈ (a.scopeOf f).blocks) (hib : i ∈ a.body b)
    (hic : i ∈ a.body c) : b = c := by
  by_contra hne
  have : Std.Symm (Function.onFun List.Disjoint a.body) := ⟨fun _ _ hdisjoint => hdisjoint.symm⟩
  exact (List.nodup_flatMap.mp h).2.forall hb hc hne hib hic

theorem mem_of_entryOf (h : a.entryOf f = some root) :
    root ∈ (a.scopeOf f).blocks := by
  obtain ⟨blocks, hblocks, hhead⟩ := Option.bind_eq_some_iff.mp h
  rw [scopeOf, hblocks]
  exact List.mem_of_mem_head? hhead

theorem FlowsWithin.mem_of_reachable (h : a.FlowsWithin f) (hb : a.Reachable f b) :
    b ∈ (a.scopeOf f).blocks := by
  obtain ⟨root, hroot, hreach⟩ := hb
  induction hreach with
  | root _ => exact mem_of_entryOf hroot
  | step _ hflow _ ih => exact h _ ih _ hflow

theorem lt_of_mem_take {l : List InstrId} (hl : l.Nodup) (hm : l[m]? = some d)
    (hd : d ∈ l.take k) : m < k := by
  obtain ⟨n, hn⟩ := List.mem_iff_getElem?.mp hd
  rw [List.getElem?_take] at hn
  split at hn
  case isTrue hlt =>
    have := (List.getElem?_inj (List.getElem?_eq_some_iff.mp hn).1 hl).mp (hn.trans hm.symm)
    omega
  case isFalse => simp at hn

/-- What an arithmetic instruction asks for depends on the widths of values only. -/
theorem AluFits.congr {a' : Arena} (h : a.AluFits p)
    (hv : a'.code.values = a.code.values) : a'.AluFits p := by
  obtain ⟨info, hinfo, hlen, hout⟩ := h
  refine ⟨info, hinfo, hlen, fun hne => ?_⟩
  obtain ⟨d, x, hd, hx, hcomps⟩ := hout hne
  obtain ⟨_, _, hx'⟩ := value_of_values hv hx
  exact ⟨d, _, hd, hx', hcomps⟩

/-! ### Functions that pass the check -/

/-- Blocks with different numbers are different. -/
theorem nodup_of_numbers {numbers : List Nat}
    (hnumbers : List.Forall₂ (fun b n => ∃ bb : Block, a.blocks[b.idx]? = some bb ∧ bb.index = n)
      blocks numbers) (hnodup : numbers.Nodup) : blocks.Nodup := by
  induction hnumbers with
  | nil => exact List.nodup_nil
  | @cons b n blocks numbers hb hrest ih =>
    obtain ⟨hn, hnodup⟩ := List.nodup_cons.mp hnodup
    refine List.nodup_cons.mpr ⟨fun hmem => ?_, ih hnodup⟩
    -- The same block would have the same number.
    obtain ⟨bb, hbb, rfl⟩ := hb
    obtain ⟨j, hj⟩ := List.mem_iff_getElem?.mp hmem
    have hlt : j < numbers.length := hrest.length_eq ▸ (List.getElem?_eq_some_iff.mp hj).1
    obtain ⟨bb', hbb', hindex⟩ := List.forall₂_iff_get.mp hrest |>.2 j
      (List.getElem?_eq_some_iff.mp hj).1 hlt
    rw [List.get_eq_getElem, (List.getElem?_eq_some_iff.mp hj).2, hbb] at hbb'
    cases hbb'
    exact hn (hindex ▸ List.get_mem _ _)

/-- Blocks that have a dominator tree are different. -/
theorem nodup_of_dominanceOf (h : a.dominanceOf blocks = .ok tree) :
    blocks.Nodup := by
  obtain ⟨graph, hgraph⟩ := exists_flowGraph h
  obtain ⟨-, ⟨numbers, hnodup, hnumbers⟩, -⟩ := flowGraph_spec hgraph
  exact nodup_of_numbers hnumbers hnodup

namespace Surveyed

variable (h : a.Surveyed f a₁ g region tree)

include h

theorem flows_iff : a₁.Flows b t ↔ a.Flows b t := by
  constructor
  · rintro ⟨_, hbb, ht⟩
    rw [h.block, Option.map_eq_some_iff] at hbb
    obtain ⟨bb, hbb', rfl⟩ := hbb
    exact ⟨bb, hbb', ht⟩
  · rintro ⟨bb, hbb, ht⟩
    have hbb₁ := h.block b
    rw [hbb, Option.map_some] at hbb₁
    exact ⟨_, hbb₁, ht⟩

theorem nodup_blocks : (region.blocks ++ [g.finish]).Nodup :=
  nodup_of_dominanceOf h.dominance

theorem charted (he : a.EdgesCurrent f) : a.Charted region g.finish where
  toEdged := he.edged h.function h.bodyRegion h.nodup_blocks
  starts := Region.Shaped.startsWithBlock h.shaped.1
  structured := h.shaped.2.structured
  nodup := h.nodup_blocks

theorem numberedBy : a₁.NumberedBy (region.blocks ++ [g.finish]) := by
  intro n b hb
  obtain ⟨bb, hbb⟩ := h.present b (List.mem_of_getElem? hb)
  refine ⟨{ bb with index := lastPosition b (region.blocks ++ [g.finish]) 0 bb.index }, ?_, ?_⟩
  · rw [h.block, hbb]
    rfl
  · rw [lastPosition_of_nodup h.nodup_blocks hb, Nat.zero_add]

theorem entryOf_eq :
    a.entryOf f = some root ↔ (region.blocks ++ [g.finish])[0]? = some root := by
  simp [entryOf, h.blocksOf, Except.toOption, List.head?_eq_getElem?]

theorem flows_eq : a₁.Flows = a.Flows := by
  funext b t
  exact propext h.flows_iff

theorem lanesFit_iff {n : Nat} : a₁.LanesFit u n ↔ a.LanesFit u n := by
  unfold LanesFit
  rw [h.uses, ← reads_code a₁, h.code, reads_code]

/-- The number of an instruction is its position in the function. -/
theorem index_lt_index (hdistinct : a.InstrsDistinct f) (hb : b ∈ (a.scopeOf f).blocks)
    (hd : (a.body b)[m]? = some d) (hi : (a.body b)[k]? = some i)
    (hdns : a₁.instrs[d.idx]? = some dns) (hins : a₁.instrs[i.idx]? = some ins) :
    dns.index < ins.index ↔ m < k := by
  obtain ⟨before, after, hsplit⟩ := List.append_of_mem hb
  unfold InstrsDistinct at hdistinct
  have hget {j : InstrId} {n : Nat} (hj : (a.body b)[n]? = some j) :
      ((a.scopeOf f).blocks.flatMap a.body)[(before.flatMap a.body).length + n]? = some j := by
    rw [hsplit, List.flatMap_append, List.flatMap_cons, List.getElem?_append_right (by omega),
      Nat.add_sub_cancel_left, List.getElem?_append_left (List.getElem?_eq_some_iff.mp hj).1, hj]
  have hindex {j : InstrId} {jns : Instr} {n : Nat} (hj : (a.body b)[n]? = some j)
      (hjns : a₁.instrs[j.idx]? = some jns) :
      jns.index = (before.flatMap a.body).length + n := by
    rw [h.instr, Option.map_eq_some_iff] at hjns
    obtain ⟨jns₀, -, rfl⟩ := hjns
    have := lastPosition_of_nodup (k := 0) (n := jns₀.index) hdistinct (hget hj)
    rw [← h.scope_blocks]
    simpa using this
  rw [hindex hd hdns, hindex hi hins]
  omega

theorem flowsWithin (he : a.EdgesCurrent f) : a.FlowsWithin f := by
  unfold FlowsWithin
  rw [h.scope_blocks]
  exact fun b hb t hbt => (h.charted he).flows_closed hb hbt

theorem exists_entryOf : ∃ root, a.entryOf f = some root :=
  ⟨_, h.entryOf_eq.mpr (List.getElem?_eq_getElem (by simp))⟩

/-- A block has a depth in the tree if and only if control gets to it. -/
theorem exists_depthAt (hw : a.FlowsWithin f) (hb : b ∈ (a.scopeOf f).blocks)
    (hbb : a₁.blocks[b.idx]? = some bb) :
    ∃ depth, tree.depthAt bb.index = .ok depth ∧ (depth.isSome = true ↔ a.Reachable f b) := by
  obtain ⟨root, hroot⟩ := h.exists_entryOf
  rw [h.scope_blocks] at hb
  obtain ⟨depth, hdepth, hiff⟩ := depthAt_iff h.dominance h.numberedBy (h.entryOf_eq.mp hroot)
    (h.scope_blocks ▸ fun b hb t hbt => hw b hb t (h.flows_iff.mp hbt)) hb hbb
  refine ⟨depth, hdepth, hiff.trans ?_⟩
  rw [h.flows_eq]
  refine ⟨fun hreach => ⟨root, hroot, hreach⟩, ?_⟩
  rintro ⟨root', hroot', hreach⟩
  cases hroot.symm.trans hroot'
  exact hreach

/-- A block dominates another one in the tree if and only if it does so along the exits and
control gets there. -/
theorem exists_dominatesIn (hw : a.FlowsWithin f)
    (hroot : a.entryOf f = some root) (hhome : home ∈ (a.scopeOf f).blocks)
    (hb : b ∈ (a.scopeOf f).blocks) {hb₁ : Block} (hhb : a₁.blocks[home.idx]? = some hb₁)
    (hbb : a₁.blocks[b.idx]? = some bb) : ∃ r, a₁.dominatesIn tree hb₁.index bb.index = .ok r
      ∧ (r = true ↔ a.Reachable f b ∧ Dominates root a.Flows home b) := by
  rw [h.scope_blocks] at hhome hb
  obtain ⟨r, hr, hiff⟩ := dominatesIn_iff h.dominance h.numberedBy (h.entryOf_eq.mp hroot)
    (h.scope_blocks ▸ fun b hb t hbt => hw b hb t (h.flows_iff.mp hbt)) hhome hb hhb hbb
  refine ⟨r, hr, hiff.trans ?_⟩
  rw [h.flows_eq]
  refine and_congr_left fun _ => ⟨fun hreach => ⟨root, hroot, hreach⟩, ?_⟩
  rintro ⟨root', hroot', hreach⟩
  cases hroot.symm.trans hroot'
  exact hreach

/-- What the check asks the tree and the numbers for: a definition is done before a reading, if
control gets there. -/
theorem precedes_iff (hw : a.FlowsWithin f) (hdistinct : a.InstrsDistinct f)
    (hhome : home ∈ (a.scopeOf f).blocks) (hd : d ∈ a.body home)
    (hdns : a.instrs[d.idx]? = some dns) (hplace : dns.block = some home) (hb : b ∈ (a.scopeOf f).blocks)
    (hreader : ∀ i, reader = some i → (a.body b)[k]? = some i
      ∧ ∃ ins, a.instrs[i.idx]? = some ins)
    (hend : reader = none → k = (a.body b).length) :
    a₁.Precedes tree d (some b) reader ↔ (a.Reachable f b → a.DoneBefore f d b k) := by
  obtain ⟨root, hroot⟩ := h.exists_entryOf
  obtain ⟨bb₀, hbb₀⟩ := h.present b (h.scope_blocks ▸ hb)
  obtain ⟨hb₀, hhb₀⟩ := h.present home (h.scope_blocks ▸ hhome)
  have hbb := h.block b
  have hhb := h.block home
  have hdns₁ := h.instr d
  rw [hbb₀, Option.map_some] at hbb
  rw [hhb₀, Option.map_some] at hhb
  rw [hdns, Option.map_some] at hdns₁
  obtain ⟨depth, hdepth, hdepth_iff⟩ := h.exists_depthAt hw hb hbb
  obtain ⟨r, hr, hr_iff⟩ := h.exists_dominatesIn hw hroot hhome hb hhb hbb
  obtain ⟨m, hm⟩ := List.mem_iff_getElem?.mp hd
  constructor
  · rintro ⟨dns', b', bb', depth', hdns', heq, hbb', hdepth', hcases⟩ hreach
    cases heq
    cases hbb.symm.trans hbb'
    cases hdepth.symm.trans hdepth'
    cases hdns₁.symm.trans hdns'
    rcases hcases with rfl | ⟨hsame, hindex⟩ | ⟨hother, home', hb', hhome', hhb', hdom⟩
    · exact absurd (hdepth_iff.mpr hreach) (by simp)
    · obtain rfl : home = b := Option.some.inj (hplace.symm.trans hsame)
      refine .inl (List.mem_iff_getElem?.mpr ⟨m, ?_⟩)
      rw [List.getElem?_take, if_pos, hm]
      cases reader with
      | none =>
        rw [hend rfl]
        exact (List.getElem?_eq_some_iff.mp hm).1
      | some i =>
        obtain ⟨ins, hins, hlt⟩ := hindex i rfl
        exact (h.index_lt_index hdistinct hhome hm (hreader i rfl).1 hdns₁ hins).mp hlt
    · obtain rfl : home = home' := Option.some.inj (hplace.symm.trans hhome')
      cases hhb.symm.trans hhb'
      cases hdom.symm.trans hr
      exact .inr ⟨home, root, fun heq => hother (heq ▸ hplace), hd, hroot, (hr_iff.mp rfl).2⟩
  · intro hdone
    refine ⟨_, b, _, depth, hdns₁, rfl, hbb, hdepth, ?_⟩
    by_cases hreach : a.Reachable f b
    · refine .inr ?_
      rcases hdone hreach with htake | ⟨home', root', hne, hmem', hroot', hdom⟩
      · obtain rfl := hdistinct.home_eq hhome hb hd (List.mem_of_mem_take htake)
        refine .inl ⟨hplace, fun i hi => ?_⟩
        obtain ⟨hk, ins, hins⟩ := hreader i hi
        have hins₁ := h.instr i
        rw [hins, Option.map_some] at hins₁
        refine ⟨_, hins₁, (h.index_lt_index hdistinct hhome hm hk hdns₁ hins₁).mpr ?_⟩
        exact lt_of_mem_take (hdistinct.nodup_body hhome) hm htake
      · cases hroot.symm.trans hroot'
        obtain ⟨root', hroot', hreach'⟩ := id hreach
        cases hroot.symm.trans hroot'
        obtain rfl := hdistinct.home_eq hhome
          (hw.mem_of_reachable ⟨root, hroot, hdom.reaches hreach'⟩) hd hmem'
        refine .inr ⟨fun heq => hne (Option.some.inj (hplace.symm.trans heq)), home, _, hplace, hhb, ?_⟩
        rw [hr, hr_iff.mpr ⟨hreach, hdom⟩]
    · refine .inl ?_
      cases depth with
      | none => rfl
      | some n => exact absurd (hdepth_iff.mp rfl) hreach

end Surveyed

namespace Checked

variable (h : a.Checked f a₁ g region tree defs)

include h

/-- A definition that the check finds to precede a reading is done before it, if control gets
there. -/
theorem doneBefore (hw : a.FlowsWithin f) (hdistinct : a.InstrsDistinct f)
    (hb : a.Reachable f b) (hmem : b ∈ (a.scopeOf f).blocks) {v : ValueId} (hd : (v, d) ∈ defs)
    (hp : a₁.Precedes tree d (some b) reader)
    (hreader : ∀ i, reader = some i → (a.body b)[k]? = some i)
    (hend : reader = none → k = (a.body b).length) : a.DoneBefore f d b k := by
  obtain ⟨home, hhome, hdmem, dns, hdns, -⟩ := h.mem_defs.mp hd
  refine (h.precedes_iff hw hdistinct hhome hdmem hdns (h.homed.place home hhome d hdmem dns hdns)
    hmem (fun i hi => ⟨hreader i hi, ?_⟩) hend).mp hp hb
  exact h.wired.instr b hmem i (List.mem_of_getElem? (hreader i hi))

theorem aluFits (hb : b ∈ (a.scopeOf f).blocks) (hi : i ∈ a.body b)
    (hins : a.instrs[i.idx]? = some ins) (hact : ins.action = .alu p) : a.AluFits p := by
  obtain ⟨bb, ins₁, -, hins₁, -, hfits⟩ := h.fits.instr _ (h.mem_placed hb hi)
  have hsame := h.instr i
  rw [hins, Option.map_some, hins₁] at hsame
  cases hsame
  rw [show ({ ins with index := _ } : Instr).action = .alu p from hact] at hfits
  exact AluFits.congr hfits (congrArg (·.values) h.code.symm)

/-- What the check finds out about a source. -/
theorem source_precedes (hb : b ∈ (a.scopeOf f).blocks) (hi : i ∈ a.body b)
    (hins : a.instrs[i.idx]? = some ins) (hu : some u ∈ ins.sources) :
    ∃ use v x d, a.uses[u.idx]? = some use ∧ use.value = some v ∧ (v, d) ∈ defs
      ∧ a.values[v.idx]? = some x ∧ x.definedBy = some d ∧ a.LanesFit u x.comps
      ∧ match ins.incoming u with
        | some pred => a₁.Precedes tree d (some pred) none
        | none => a₁.Precedes tree d (some b) (some i) := by
  have hins₁ := h.instr i
  rw [hins, Option.map_some] at hins₁
  obtain ⟨_, heq, ins', use, v, x, d, hins', huse, hval, hx, -, -, -, hlanes, hd, hprecedes⟩ :=
    h.fits.source _ (h.mem_placed hb hi) _ hins₁ (some u) hu
  cases heq
  cases hins₁.symm.trans hins'
  have hvd := mem_of_lookup hd
  obtain ⟨x', hx', hby, -⟩ := h.value_of_mem_defs hvd
  rw [h.values, hx'] at hx
  cases hx
  exact ⟨use, v, x, d, h.uses ▸ huse, hval, hvd, hx', hby, h.lanesFit_iff.mp hlanes,
    h.homed.place b hb i hi ins hins ▸ hprecedes⟩

/-- What the check finds out about the condition of an `if` right after a block. -/
theorem condition_precedes {c : ConstructId} {con : Construct} {cond : Option UseId}
    {yes no : List Item} (hc : (c, some b) ∈ region.branches none)
    (hcon : a.constructs[c.idx]? = some con) (hshape : con.shape = .branch cond yes no) :
    ∃ u use v x d, cond = some u ∧ a.uses[u.idx]? = some use ∧ use.value = some v
      ∧ (v, d) ∈ defs ∧ a.values[v.idx]? = some x ∧ x.definedBy = some d
      ∧ use.guards = some c ∧ a₁.Precedes tree d (some b) none := by
  obtain ⟨con', u, _, _, use, v, x, d, hcon', hshape', huse, hval, -, hguards, -, -, hd,
    hprecedes⟩ := h.fits.condition _ hc
  rw [constructs_of_code h.code, hcon] at hcon'
  cases hcon'
  cases hshape.symm.trans hshape'
  have hvd := mem_of_lookup hd
  obtain ⟨x', hx', hby, -⟩ := h.value_of_mem_defs hvd
  exact ⟨u, use, v, x', d, rfl, h.uses ▸ huse, hval, hvd, hx', hby, hguards, hprecedes b rfl⟩

end Checked

/-- The check takes a use of a φ to come from the predecessor it stands for. -/
theorem incoming_eq_some {dest : Option ValueId} {srcs : List (BlockId × UseId)}
    (hact : ins.action = .phi dest srcs) (hu : (b, u) ∈ srcs)
    (honly : ∀ other, (other, u) ∈ srcs → other = b) : ins.incoming u = some b := by
  unfold Instr.incoming
  rw [hact]
  obtain ⟨s, hs⟩ : ∃ s, srcs.find? (fun s => s.2 = u) = some s := by
    refine Option.isSome_iff_exists.mp (List.find?_isSome.mpr ⟨(b, u), hu, by simp⟩)
  obtain rfl : s.2 = u := by simpa using List.find?_some hs
  simp [hs, honly s.1 (List.mem_of_find?_eq_some hs)]

/-- The check takes a use to be read where its instruction stands, unless it is an entry of a
φ. -/
theorem incoming_eq_none : ins.incoming u = none ↔
    ∀ dest srcs, ins.action = .phi dest srcs → u ∉ srcs.map Prod.snd := by
  unfold Instr.incoming
  cases ins.action with
  | phi dest srcs =>
    have hfind : srcs.find? (fun s => s.2 = u) = none ↔ u ∉ srcs.map Prod.snd := by
      rw [List.find?_eq_none, List.mem_map, not_exists]
      simp
    simpa using hfind
  | _ => simp

/-- The condition at the end of a block is the one of an `if` of the function. -/
theorem conditionAfter_spec (h : a.conditionAfter f b = some u) : ∃ c ∈ (a.scopeOf f).ifs,
    ∃ con yes no, a.constructs[c.idx]? = some con ∧ con.shape = .branch (some u) yes no := by
  unfold conditionAfter at h
  cases hregion : a.bodyRegion f with
  | error e => simp [hregion, Except.toOption] at h
  | ok region =>
    simp only [hregion, Except.toOption, Option.bind_eq_bind, Option.bind_some,
      Option.bind_eq_some_iff] at h
    obtain ⟨p, hp, con, hcon, hcond⟩ := h
    refine ⟨p.1, ?_, con, ?_⟩
    · simp only [scopeOf, hregion, Except.toOption, Option.elim_some]
      exact List.mem_map_of_mem (List.mem_of_find?_eq_some hp)
    · cases hshape : con.shape with
      | branch cond yes no =>
        rw [hshape] at hcond
        have hcond : cond = some u := hcond
        exact ⟨yes, no, hcon, by rw [hcond]⟩
      | loop body => simp [hshape] at hcond

/-- In a function that passes the check, definitions are done before control gets to a reading. -/
theorem laid_of_accepted (hacc : a.Accepted f) (he : a.EdgesCurrent f)
    (hdistinct : a.InstrsDistinct f) (hphi : a.PhiUsesDistinct f) : a.Laid f := by
  obtain ⟨a₁, g, region, tree, defs, h⟩ := hacc.checked
  have hw := h.flowsWithin he
  have hmem : ∀ b, a.Reachable f b → b ∈ (a.scopeOf f).blocks :=
    fun b hb => hw.mem_of_reachable hb
  refine ⟨h.wired, h.homed, hmem, fun b hb => hdistinct.nodup_body hb,
    fun b hb i hi ins p hins hact => h.aluFits hb hi hins hact, fun u b k hb hread => ?_⟩
  cases hread with
  | @source _ i ins hi hins hnot hu =>
    obtain ⟨use, v, x, d, huse, hval, hvd, hx, hby, hlanes, hprecedes⟩ :=
      h.source_precedes (hmem b hb) (List.mem_of_getElem? hi) hins hu
    have hnone : ins.incoming u = none :=
      incoming_eq_none.mpr fun dest srcs hact => by simp [Instr.isPhi, hact] at hnot
    rw [hnone] at hprecedes
    refine ⟨use, v, x, d, huse, hval, h.defined_iff.mpr ⟨d, hvd⟩, hx, hby,
      h.doneBefore hw hdistinct hb (hmem b hb) hvd hprecedes ?_ (by simp), fun _ => hlanes⟩
    rintro j hj
    cases hj
    exact hi
  | @incoming t i ins dest srcs hbt hi hins hact hu =>
    have ht := hmem t (hb.flow hbt)
    have hmemsrc : (b, u) ∈ srcs := mem_of_lookup hu
    obtain ⟨use, v, x, d, huse, hval, hvd, hx, hby, hlanes, hprecedes⟩ :=
      h.source_precedes ht hi hins (Instr.mem_sources_of_phi hact hmemsrc)
    have hnodup := hphi t ht i hi ins dest srcs hins hact
    rw [incoming_eq_some hact hmemsrc fun other hother =>
      congrArg Prod.fst (List.inj_on_of_nodup_map hnodup hother hmemsrc rfl)] at hprecedes
    exact ⟨use, v, x, d, huse, hval, h.defined_iff.mpr ⟨d, hvd⟩, hx, hby,
      h.doneBefore hw hdistinct hb (hmem b hb) hvd hprecedes
        (by simp) fun _ => rfl, fun _ => hlanes⟩
  | condition hu =>
    simp only [conditionAfter, h.bodyRegion, Except.toOption, Option.bind_eq_bind,
      Option.bind_some, Option.bind_eq_some_iff] at hu
    obtain ⟨p, hp, con, hcon, hcond⟩ := hu
    obtain ⟨c, place⟩ := p
    obtain rfl : place = some b := by simpa using List.find?_some hp
    cases hshape : con.shape with
    | loop => simp [hshape] at hcond
    | branch cond yes no =>
      obtain ⟨u', use, v, x, d, rfl, huse, hval, hvd, hx, hby, hguards, hprecedes⟩ :=
        h.condition_precedes (List.mem_of_find?_eq_some hp) hcon hshape
      rw [hshape] at hcond
      cases hcond
      exact ⟨use, v, x, d, huse, hval, h.defined_iff.mpr ⟨d, hvd⟩, hx, hby,
        h.doneBefore hw hdistinct hb (hmem b hb) hvd hprecedes (by simp) fun _ => rfl,
        by simp [hguards]⟩

/-! ### The order of places -/

theorem doneBefore_succ (hi : (a.body b)[k]? = some i) :
    a.DoneBefore f d b (k + 1) ↔ a.DoneBefore f d b k ∨ d = i := by
  unfold DoneBefore
  rw [List.take_add_one, hi, Option.toList_some, List.mem_append, List.mem_singleton,
    or_right_comm]

/-- What is done in front of a block is done at the end of the block that was left. -/
theorem doneBefore_of_flows (hbt : a.Flows b t) (hd : a.DoneBefore f d t 0) :
    a.DoneBefore f d b (a.body b).length := by
  rcases hd with htake | ⟨home, root, hne, hmem, hroot, hdom⟩
  · simp at htake
  · by_cases hhome : home = b
    · subst hhome
      exact .inl (by simpa using hmem)
    · exact .inr ⟨home, root, hhome, hmem, hroot, hdom.of_edge hbt fun heq => hne heq.symm⟩

/-- Nothing is done in front of the first block. -/
theorem not_doneBefore_entry (hroot : a.entryOf f = some root) :
    ¬ a.DoneBefore f d root 0 := by
  rintro (htake | ⟨home, root', hne, -, hroot', hdom⟩)
  · simp at htake
  · cases hroot.symm.trans hroot'
    exact hdom (.root fun heq => hne heq.symm)

/-- An instruction that is done stands at a place that control gets to. -/
theorem place_of_done (hb : a.Reachable f b) (hd : a.DoneBefore f d b k) :
    ∃ (home : BlockId) (m : Nat), a.Reachable f home ∧ (a.body home)[m]? = some d := by
  rcases hd with hd | ⟨home, root, -, hmem, hroot, hdom⟩
  · obtain ⟨m, hm⟩ := List.mem_iff_getElem?.mp (List.mem_of_mem_take hd)
    exact ⟨b, m, hb, hm⟩
  · obtain ⟨m, hm⟩ := List.mem_iff_getElem?.mp hmem
    obtain ⟨root', hroot', hreach⟩ := hb
    cases hroot.symm.trans hroot'
    exact ⟨home, m, ⟨root, hroot, hdom.reaches hreach⟩, hm⟩

/-- What is done before an instruction that is done is done. -/
theorem DoneBefore.trans {home : BlockId} {m : Nat} (hd : a.DoneBefore f d b k)
    (hnodup : (a.body home).Nodup) (honly : ∀ c, a.Reachable f c → d ∈ a.body c → c = home)
    (hb : a.Reachable f b) (hm : (a.body home)[m]? = some d)
    (he : a.Reachable f home → a.DoneBefore f e home m) : a.DoneBefore f e b k := by
  rcases hd with htake | ⟨home', root, hne, hmem, hroot, hdom⟩
  · obtain rfl := honly b hb (List.mem_of_mem_take htake)
    have hlt := lt_of_mem_take hnodup hm htake
    exact (he hb).imp (fun he => (List.take_sublist_take_left hlt.le).subset he) id
  · obtain ⟨root', hroot', hreach⟩ := hb
    cases hroot.symm.trans hroot'
    have hhome : a.Reachable f home' := ⟨root, hroot, hdom.reaches hreach⟩
    obtain rfl := honly home' hhome hmem
    rcases he hhome with htake | ⟨home₂, root₂, hne₂, hmem₂, hroot₂, hdom₂⟩
    · exact .inr ⟨home', root, hne, List.mem_of_mem_take htake, hroot, hdom⟩
    · cases hroot.symm.trans hroot₂
      refine .inr ⟨home₂, root, ?_, hmem₂, hroot, hdom₂.trans hdom⟩
      rintro rfl
      exact hne (hdom.antisymm hdom₂ (hdom.reaches hreach))

namespace Laid

variable (h : a.Laid f)

include h

theorem home_unique (hb : b ∈ (a.scopeOf f).blocks) (hc : c ∈ (a.scopeOf f).blocks)
    (hib : i ∈ a.body b) (hic : i ∈ a.body c) : b = c := by
  obtain ⟨ins, hins⟩ := h.wired.instr b hb i hib
  exact Option.some.inj ((h.homed.place b hb i hib ins hins).symm.trans
    (h.homed.place c hc i hic ins hins))

/-- An instruction is not done in front of its own place. -/
theorem irrefl (hb : a.Reachable f b) (hd : (a.body b)[k]? = some d) : ¬ a.DoneBefore f d b k := by
  have hbm := h.reachable b hb
  rintro (htake | ⟨home, root, hne, hmem, hroot, hdom⟩)
  · exact lt_irrefl k (lt_of_mem_take (h.nodup b hbm) hd htake)
  · obtain ⟨root', hroot', hreach⟩ := hb
    cases hroot.symm.trans hroot'
    exact hne (h.home_unique (h.reachable home ⟨root, hroot, hdom.reaches hreach⟩) hbm hmem
      (List.mem_of_getElem? hd))

theorem trans {home : BlockId} {m : Nat} (hb : a.Reachable f b) (hd : a.DoneBefore f d b k)
    (hhome : a.Reachable f home) (hm : (a.body home)[m]? = some d)
    (he : a.DoneBefore f e home m) : a.DoneBefore f e b k :=
  hd.trans (h.nodup home (h.reachable home hhome)) (fun c hc hdc => h.home_unique
    (h.reachable c hc) (h.reachable home hhome) hdc (List.mem_of_getElem? hm)) hb hm fun _ => he

end Laid

end Arena

end ShaderCompiler
