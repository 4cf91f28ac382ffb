import ShaderCompiler.Proofs.DeadCode.Order
import ShaderCompiler.Proofs.DeadCode.Removal
import ShaderCompiler.Proofs.Rules

/-!
# The dead code of a function

A function that passes the check can be scanned and its dead code taken out, unless the scan runs
into one of four things that the check lets pass: an entry of a use-list that reads another value,
a loop that does not stand right behind a block, an intrinsic that is not in the table, or a count
of values that is far below zero.
-/

namespace ShaderCompiler

variable {ins : Instr} {v : ValueId}

theorem Region.ifs_eq_branches (r : Region) (before : Option BlockId) :
    r.ifs = (r.branches before).map Prod.fst := by
  induction r generalizing before with
  | done => rfl
  | block b rest ih => exact ih (some b)
  | branch c yes no rest ihYes ihNo ihRest =>
    rw [Region.ifs, Region.branches, List.map_cons, List.map_append, List.map_append, ihYes none,
      ihNo none, ihRest none]
  | loop c body rest ihBody ihRest =>
    rw [Region.ifs, Region.branches, List.map_append, ihBody none, ihRest none]

/-- A live set can be made for all but some negative numbers of values. -/
theorem LiveSet.exists_ofCount {n : Int} (h : -127 < n) : ∃ s, LiveSet.ofCount n = .ok s := by
  have hgroups : ¬ (n + 63).tdiv 64 < 0 := by
    rw [Int.tdiv_eq_ediv]
    split
    · omega
    · rw [Int.sign_eq_one_of_pos (by decide)]
      omega
  exact ⟨_, if_neg hgroups⟩

/-- Whether an instruction is no intrinsic, or one of the table. -/
def Instr.intrinsicKnown (ins : Instr) : Bool :=
  match ins.action with
  | .intrinsic op _ _ _ => op.info.isOk
  | _ => true

theorem Instr.intrinsicKnown_iff : ins.intrinsicKnown = true
    ↔ ∀ op dest srcs base, ins.action = .intrinsic op dest srcs base →
      ∃ row, op.info = .ok row := by
  unfold Instr.intrinsicKnown
  split
  case h_1 op dest srcs base hact =>
    rw [hact]
    refine ⟨fun hok op' _ _ _ heq => ?_, fun h => ?_⟩
    · cases heq
      cases hinfo : op.info with
      | ok row => exact ⟨row, rfl⟩
      | error e => simp [hinfo, Except.isOk, Except.toBool] at hok
    · obtain ⟨row, hrow⟩ := h op dest srcs base rfl
      rw [hrow]
      rfl
  case h_2 hother =>
    exact iff_of_true rfl fun op dest srcs base hact => (hother op dest srcs base hact).elim

namespace Arena

variable {a a₁ : Arena} {V : ValueId → Prop} {U : UseId → Prop} {f : FunctionId} {g : Function}
  {region : Region} {s : LiveSet} {T : Scope} {tree : Dominance} {defs : Edit.Definitions}

/-- What taking out the dead code of a function relies on. The scope `T` has the blocks and the
conditions of the function, and the uses that it reads are known to the use-lists. -/
structure Prunable (a : Arena) (V : ValueId → Prop) (U : UseId → Prop) (T : Scope) (f : FunctionId)
    (g : Function) (region : Region) (s : LiveSet) : Prop where
  function : a.functions[f.idx]? = some g
  bodyRegion : a.bodyRegion f = .ok region
  room : LiveSet.ofCount g.valueCount = .ok s
  structured : region.Structured
  loops : region.LoopsAfterBlocks false
  nodup : region.preorder.Nodup
  blocks : region.preorder ⊆ T.blocks
  ifs : region.ifs ⊆ T.ifs
  wired : a.Wired T
  homed : a.Homed T
  index : ∀ v, T.defined v → ∀ x, a.values[v.idx]? = some x → 0 ≤ x.index ∧ x.index < g.valueCount
  known : ∀ b ∈ T.blocks, ∀ i ∈ a.body b, ∀ ins, a.instrs[i.idx]? = some ins →
    ∀ op dest srcs base, ins.action = .intrinsic op dest srcs base → ∃ row, op.info = .ok row
  lists : a.UseLists V U
  reads : ∀ u, a.Reads T u → U u

/-- The marks that a scan of a function leaves. -/
def scanned (a : Arena) (always : Bool) (region : Region) (s : LiveSet) : Marks :=
  a.outline.scan always s.marks.size none region ⟨∅, ∅⟩

namespace Prunable

variable (h : a.Prunable V U T f g region s)

include h

theorem number (hv : T.defined v) :
    ∃ n, a.number? v = some n ∧ 0 ≤ n ∧ n < s.marks.size := by
  obtain ⟨x, hx⟩ := h.wired.value v hv
  obtain ⟨hpos, hlt⟩ := h.index v hv x hx
  refine ⟨x.index, by rw [number?, hx, Option.map_some], hpos, ?_⟩
  exact hlt.trans_le (LiveSet.ofCount_eq_ok h.room).2

theorem readNumber {u : UseId} {use : Use} (huse : a.uses[u.idx]? = some use)
    (hval : use.value = some v) (hv : T.defined v) :
    ∃ n, a.readNumber? u = some n ∧ 0 ≤ n ∧ n < s.marks.size := by
  obtain ⟨n, hn, hfit⟩ := h.number hv
  exact ⟨n, by rw [readNumber?, huse, Option.bind_some, hval, Option.bind_some, hn], hfit⟩

theorem instrScannable {b : BlockId} {i : InstrId} (hb : b ∈ region.preorder)
    (hi : i ∈ a.body b) (hins : a.instrs[i.idx]? = some ins) :
    a.InstrScannable s.marks.size ins where
  definition d hd := by
    obtain ⟨v, x, rfl, hv, -⟩ := h.wired.definition b (h.blocks hb) i hi ins hins d hd
    obtain ⟨n, hn, hfit⟩ := h.number hv
    exact ⟨v, n, rfl, hn, hfit⟩
  source t ht := by
    obtain ⟨u, use, v, rfl, huse, hval, hv, -⟩ := h.wired.source b (h.blocks hb) i hi ins hins t ht
    obtain ⟨n, hn, hfit⟩ := h.readNumber huse hval hv
    exact ⟨u, n, rfl, hn, hfit⟩
  known := h.known b (h.blocks hb) i hi ins hins

theorem removable : a.Removable U s.marks.size region where
  presents := by
    refine ⟨rfl, fun _ _ => rfl, fun b hb => h.wired.block b (h.blocks hb), ?_, fun c hc => ?_⟩
    · rintro i ⟨b, hb, hi⟩
      obtain ⟨ins, hins⟩ := h.wired.instr b (h.blocks hb) i hi
      exact ⟨ins, hins, h.instrScannable hb hi hins⟩
    · obtain ⟨con, u, yes, no, use, v, hcon, hshape, huse, hval, hv, -⟩ :=
        h.wired.condition c (h.ifs hc)
      obtain ⟨n, hn, hfit⟩ := h.readNumber huse hval hv
      exact ⟨con, u, yes, no, n, hcon, hshape, hn, hfit⟩
  source := by
    rintro i ⟨b, hb, hi⟩ ins hins u hu
    exact h.reads u (.inl ⟨b, h.blocks hb, i, hi, ins, hins, hu⟩)
  once b hb i hi hdefs := by
    obtain ⟨ins, hins⟩ := h.wired.instr b (h.blocks hb) i hi
    refine h.homed.once b (h.blocks hb) i hi ins hins fun hnone => hdefs ?_
    simp [outline, hins, hnone, List.reduceOption]
  home b hb c hc i hib hic := by
    obtain ⟨ins, hins⟩ := h.wired.instr b (h.blocks hb) i hib
    have hplace := h.homed.place b (h.blocks hb) i hib ins hins
    rw [h.homed.place c (h.blocks hc) i hic ins hins] at hplace
    exact (Option.some.inj hplace).symm

/-- The run of the pass takes out what the scan of the function leaves unmarked. -/
theorem run (always : Bool) : ∃ progress a', Edit.removeDead f always a = .ok progress a'
    ∧ Pruned V U a (a.keptIn region.preorder.toFinset (a.scanned always region s).instrs)
      (a.deadIn region.preorder.toFinset (a.scanned always region s).instrs) a'
    ∧ (progress = true ↔ ∃ i, a.outline.Stands region i
      ∧ i ∉ (a.scanned always region s).instrs) :=
  Edit.removeDead_spec h.function h.bodyRegion h.room h.lists h.removable h.structured h.loops
    h.nodup always

end Prunable

/-! ### Functions that pass the check -/

/-- Every loop of the function stands right behind a block. -/
def LoopsAfterBlocks (a : Arena) (f : FunctionId) : Prop :=
  ∀ region, a.bodyRegion f = .ok region → region.LoopsAfterBlocks false

/-- The intrinsics of the function are in the table. -/
def IntrinsicsKnown (a : Arena) (f : FunctionId) : Prop :=
  ∀ b ∈ (a.scopeOf f).blocks, ∀ i ∈ a.body b, ∀ ins, a.instrs[i.idx]? = some ins →
    ∀ op dest srcs base, ins.action = .intrinsic op dest srcs base → ∃ row, op.info = .ok row

/-- A live set can be made for the values of the function. -/
def CountFits (a : Arena) (f : FunctionId) : Prop :=
  ∀ g, a.functions[f.idx]? = some g → -127 < g.valueCount

instance decidableLoopsAfterBlocks :
    (afterBlock : Bool) → DecidablePred (Region.LoopsAfterBlocks afterBlock)
  | _, .done => .isTrue trivial
  | _, .block _ rest => decidableLoopsAfterBlocks true rest
  | _, .branch _ yes no rest =>
      have := decidableLoopsAfterBlocks false yes
      have := decidableLoopsAfterBlocks false no
      have := decidableLoopsAfterBlocks false rest
      inferInstanceAs (Decidable (yes.LoopsAfterBlocks false ∧ no.LoopsAfterBlocks false
        ∧ rest.LoopsAfterBlocks false))
  | afterBlock, .loop _ body rest =>
      have := decidableLoopsAfterBlocks false body
      have := decidableLoopsAfterBlocks false rest
      inferInstanceAs (Decidable (afterBlock = true ∧ body.LoopsAfterBlocks false
        ∧ rest.LoopsAfterBlocks false))

instance : Decidable (a.LoopsAfterBlocks f) :=
  match h : a.bodyRegion f with
  | .ok region => decidable_of_iff (region.LoopsAfterBlocks false) <| by
      simp [LoopsAfterBlocks, h]
  | .error _ => isTrue <| by simp [LoopsAfterBlocks, h]

instance : Decidable (a.IntrinsicsKnown f) :=
  decidable_of_iff (∀ b ∈ (a.scopeOf f).blocks, ∀ i ∈ a.body b, ∀ ins ∈ a.instrs[i.idx]?,
      ins.intrinsicKnown = true) <| by
    simp only [Option.mem_def, Instr.intrinsicKnown_iff, IntrinsicsKnown]

instance : Decidable (a.CountFits f) :=
  decidable_of_iff (∀ g ∈ a.functions[f.idx]?, -127 < g.valueCount) <| by
    simp [CountFits, Option.mem_def]

theorem Checked.prunable (h : a.Checked f a₁ g region tree defs) (fs : List FunctionId)
    (hf : f ∈ fs) (hacc : ∀ f ∈ fs, a.Accepted f) (hlists : a.ListsRead (fs.map a.scopeOf))
    (hloops : a.LoopsAfterBlocks f) (hknown : a.IntrinsicsKnown f) (hcount : a.CountFits f) :
    ∃ s, a.Prunable (DefinedBy (fs.map a.scopeOf)) (a.InUse (fs.map a.scopeOf)) (a.scopeOf f) f g
      region s := by
  obtain ⟨s, hs⟩ := LiveSet.exists_ofCount (hcount g h.function)
  have hnodup := h.nodup_blocks
  rw [Region.blocks_eq_preorder] at hnodup
  refine ⟨s, h.function, h.bodyRegion, hs, h.shaped.2.structured, hloops region h.bodyRegion,
    (List.nodup_append'.mp hnodup).1, ?_, ?_, h.wired, h.homed, ?_, hknown,
    useLists_of_accepted hacc hlists, fun u hu => .inl ⟨_, List.mem_map_of_mem hf, hu⟩⟩
  · rw [h.scope_blocks, Region.blocks_eq_preorder]
    exact List.subset_append_left _ _
  · rw [h.scope_ifs, Region.ifs_eq_branches region none]
    exact List.Subset.refl _
  · intro v hv x hx
    obtain ⟨i, hd⟩ := h.defined_iff.mp hv
    obtain ⟨x', hx', -, hfit⟩ := h.value_of_mem_defs hd
    cases hx.symm.trans hx'
    exact hfit

end Arena

end ShaderCompiler
