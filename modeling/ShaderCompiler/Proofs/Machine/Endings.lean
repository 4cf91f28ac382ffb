import ShaderCompiler.Proofs.Machine.Emission

/-!
# Where programs end

A block without instructions passes control on. What follows a block is therefore the blocks with
instructions that control gets to through blocks without any, and the last instruction of a block
ends the program exactly if there are none. The search for them goes depth first over pending
blocks and keeps the blocks it has seen. It takes each edge at most once, whether blocks without
instructions form a circle, share successors or are no part of the program, so it always ends.
-/

namespace ShaderCompiler.Machine

variable {n k pos : Nat} {s : Operand} {si : SourceInfo}

namespace Listing

variable {l l' : Listing} {p : Program} {b c : Nat} {pending visited : List Nat} {found : Bool}

/-- Control gets from a block to another one, through blocks without instructions. -/
inductive Passes (l : Listing) : Nat → Nat → Prop
  | here (b : Nat) : l.Passes b b
  | through {b s c : Nat} (hb : l.instrsOf b = []) (hs : s ∈ l.succOf b) (h : l.Passes s c) :
      l.Passes b c

/-- Control that gets to a block gets to an instruction. -/
def Continues (l : Listing) (b : Nat) : Prop :=
  ∃ c, l.Passes b c ∧ l.instrsOf c ≠ []

theorem continues_of_ne_nil (h : l.instrsOf b ≠ []) : l.Continues b :=
  ⟨b, .here b, h⟩

/-- Control gets from a block without instructions to where it gets from its successors. -/
theorem continues_iff_of_nil (h : l.instrsOf b = []) :
    l.Continues b ↔ ∃ s ∈ l.succOf b, l.Continues s := by
  constructor
  · rintro ⟨c, hpass, hc⟩
    cases hpass with
    | here => exact absurd h hc
    | through _ hs hpass => exact ⟨_, hs, c, hpass, hc⟩
  · rintro ⟨s, hs, c, hpass, hc⟩
    exact ⟨c, .through h hs hpass, hc⟩

/-! ### The search ends -/

/-- The search from pending blocks on, with the blocks seen so far: whether all blocks that it
finds are without instructions. -/
inductive Searches (l : Listing) : List Nat → List Nat → Bool → Prop
  | done {visited : List Nat} : l.Searches [] visited true
  | seen {b : Nat} {pending visited : List Nat} {found : Bool} (hb : b ∈ visited)
      (h : l.Searches pending visited found) : l.Searches (b :: pending) visited found
  | empty {b : Nat} {pending visited : List Nat} {found : Bool} (hb : b ∉ visited)
      (he : l.instrsOf b = []) (h : l.Searches (l.succOf b ++ pending) (b :: visited) found) :
      l.Searches (b :: pending) visited found
  | full {b : Nat} {pending visited : List Nat} (hb : b ∉ visited) (he : l.instrsOf b ≠ []) :
      l.Searches (b :: pending) visited false

/-- The number of edges of a listing. -/
def edgeCount (l : Listing) : Nat :=
  (l.blocks.toList.flatMap (·.succ)).length

/-- The number of edges out of blocks that were not seen. -/
def unseenEdges (l : Listing) (visited : List Nat) : Nat :=
  ∑ b ∈ (Finset.range l.blocks.size).filter (· ∉ visited), (l.succOf b).length

theorem unseenEdges_nil : l.unseenEdges [] = l.edgeCount := by
  rw [unseenEdges, edgeCount, List.length_flatMap, Finset.filter_true_of_mem (by simp),
    ← Array.length_toList, Finset.sum_range, ← Fin.sum_univ_fun_getElem]
  refine Finset.sum_congr rfl fun i _ => ?_
  simp [succOf]

/-- Seeing a block for the first time takes its edges away. -/
theorem unseenEdges_cons (hb : b ∉ visited) :
    l.unseenEdges (b :: visited) + (l.succOf b).length = l.unseenEdges visited := by
  have herase : (Finset.range l.blocks.size).filter (· ∉ b :: visited)
      = ((Finset.range l.blocks.size).filter (· ∉ visited)).erase b := by
    ext c
    simp only [Finset.mem_filter, Finset.mem_erase, List.mem_cons, not_or]
    tauto
  rw [unseenEdges, unseenEdges, herase]
  by_cases hlt : b < l.blocks.size
  · exact Finset.sum_erase_add _ _ (Finset.mem_filter.mpr ⟨Finset.mem_range.mpr hlt, hb⟩)
  · rw [Finset.erase_eq_of_notMem (by simp [hlt])]
    simp [succOf, Array.getElem?_eq_none (Nat.le_of_not_lt hlt)]

/-- The search ends within one step for each pending block and each edge that was not followed. -/
theorem Searches.of_onlyEmpty (h : pending.length + l.unseenEdges visited ≤ n) :
    l.Searches pending visited (l.onlyEmpty n pending visited) := by
  fun_induction onlyEmpty l n pending visited with
  | case1 pending visited =>
    obtain rfl : pending = [] := List.length_eq_zero_iff.mp (by omega)
    exact .done
  | case2 => exact .done
  | case3 visited n b pending hb ih =>
    rw [List.length_cons] at h
    exact .seen hb (ih (by omega))
  | case4 visited n b pending hb hempty ih =>
    rw [List.length_cons, ← unseenEdges_cons hb] at h
    refine .empty hb (List.isEmpty_iff.mp hempty) (ih ?_)
    rw [List.length_append]
    omega
  | case5 visited n b pending hb hempty =>
    exact .full hb fun he => hempty (List.isEmpty_iff.mpr he)

/-! ### What the search decides -/

/-- The blocks seen so far have no instructions, and lead to blocks that are seen or pending. -/
structure Explored (l : Listing) (pending visited : List Nat) : Prop where
  empty : ∀ b ∈ visited, l.instrsOf b = []
  closed : ∀ b ∈ visited, ∀ s ∈ l.succOf b, s ∈ visited ∨ s ∈ pending

/-- Once nothing is pending, control stays in the blocks that were seen. -/
theorem Explored.not_continues (h : l.Explored [] visited) (hb : b ∈ visited) :
    ¬ l.Continues b := by
  rintro ⟨c, hpass, hc⟩
  induction hpass with
  | here b => exact hc (h.empty b hb)
  | through _ hs _ ih =>
    exact ih ((h.closed _ hb _ hs).resolve_right List.not_mem_nil) hc

/-- The search finds out whether control gets from a seen or pending block to an instruction. -/
theorem Searches.iff_not_continues (h : l.Searches pending visited found)
    (hx : l.Explored pending visited) :
    found = true ↔ ∀ b, b ∈ visited ∨ b ∈ pending → ¬ l.Continues b := by
  induction h with
  | done => exact iff_of_true rfl fun b hb => hx.not_continues (hb.resolve_right List.not_mem_nil)
  | @seen b pending visited found hb _ ih =>
    have hsame (c : Nat) : c ∈ visited ∨ c ∈ b :: pending ↔ c ∈ visited ∨ c ∈ pending := by
      rw [List.mem_cons]
      refine ⟨?_, Or.imp_right .inr⟩
      rintro (hc | rfl | hc)
      exacts [.inl hc, .inl hb, .inr hc]
    simp only [hsame]
    exact ih ⟨hx.empty, fun c hc s hs => (hsame s).mp (hx.closed c hc s hs)⟩
  | @empty b pending visited found hb he _ ih =>
    rw [ih ⟨?_, ?_⟩]
    · constructor
      · rintro hnone c (hc | hc)
        · exact hnone c (.inl (List.mem_cons_of_mem _ hc))
        · rcases List.mem_cons.mp hc with rfl | hc
          · exact hnone c (.inl List.mem_cons_self)
          · exact hnone c (.inr (List.mem_append_right _ hc))
      · -- A successor of the block leads nowhere, since the block does not.
        rintro hnone c (hc | hc)
        · rcases List.mem_cons.mp hc with rfl | hc
          · exact hnone c (.inr List.mem_cons_self)
          · exact hnone c (.inl hc)
        · rcases List.mem_append.mp hc with hc | hc
          · intro hcont
            exact hnone b (.inr List.mem_cons_self) ((continues_iff_of_nil he).mpr ⟨c, hc, hcont⟩)
          · exact hnone c (.inr (List.mem_cons_of_mem _ hc))
    · intro c hc
      rcases List.mem_cons.mp hc with rfl | hc
      exacts [he, hx.empty c hc]
    · intro c hc s hs
      rcases List.mem_cons.mp hc with rfl | hc
      · exact .inr (List.mem_append_left _ hs)
      · rcases hx.closed c hc s hs with hs | hs
        · exact .inl (List.mem_cons_of_mem _ hs)
        · rcases List.mem_cons.mp hs with rfl | hs
          exacts [.inl List.mem_cons_self, .inr (List.mem_append_right _ hs)]
  | full hb he =>
    refine iff_of_false Bool.false_ne_true fun hnone => ?_
    exact hnone _ (.inr List.mem_cons_self) (continues_of_ne_nil he)

/-- The search from a block ends, also if it may take more steps. -/
theorem searches_onlyEmpty (hn : l.edgeCount < n) (b : Nat) :
    l.Searches [b] [] (l.onlyEmpty n [b] []) := by
  refine .of_onlyEmpty ?_
  rw [unseenEdges_nil, List.length_singleton]
  omega

theorem onlyEmpty_iff (hn : l.edgeCount < n) :
    l.onlyEmpty n [b] [] = true ↔ ¬ l.Continues b := by
  rw [(searches_onlyEmpty hn b).iff_not_continues ⟨by simp, by simp⟩]
  simp

/-- A block is terminal if control that gets to it gets to no instruction. -/
theorem isTerminal_iff : l.isTerminal b = true ↔ ¬ l.Continues b :=
  onlyEmpty_iff (Nat.lt_succ_self _)

/-- Execution stops behind an instruction of a program: it is the last one of its block, and
control gets from no successor of the block to an instruction. -/
def Stops (l : Listing) (s : Site) : Prop :=
  s.index + 1 = (l.instrsOf s.block).length ∧ ∀ c ∈ l.succOf s.block, ¬ l.Continues c

theorem endsProgram_iff {s : Site} : l.endsProgram s.block s.index = true ↔ l.Stops s := by
  rw [endsProgram, Bool.and_eq_true, decide_eq_true_eq, List.all_eq_true]
  simp only [isTerminal_iff]
  rfl

end Listing

/-! ### The action in a word -/

namespace Instr

variable {ins : Instr} {info : OpInfo} {flow : UInt8} {d : Int} {w v : Word}

/-- Everything of an instruction but its operation, page and flow-control action stands below
bit 48. -/
def Low (w : Word) : Prop :=
  w.toNat < 2 ^ 48

theorem low_or (hw : Low w) (hv : Low v) : Low (w ||| v) := by
  rw [Low, BitVec.toNat_or]
  exact Nat.or_lt_two_pow hw hv

theorem low_field (hn : n < 2 ^ k) (hk : pos + k ≤ 48) : Low (field n pos) := by
  rw [Low, field, BitVec.toNat_shiftLeft, BitVec.toNat_ofNat]
  have hsmall : n < 2 ^ 64 := hn.trans_le (Nat.pow_le_pow_right (by norm_num) (by omega))
  have hshift : n <<< pos < 2 ^ 48 := by
    rw [Nat.shiftLeft_eq]
    calc n * 2 ^ pos < 2 ^ k * 2 ^ pos := Nat.mul_lt_mul_of_pos_right hn (Nat.two_pow_pos pos)
      _ = 2 ^ (pos + k) := by rw [← pow_add, Nat.add_comm]
      _ ≤ 2 ^ 48 := Nat.pow_le_pow_right (by norm_num) hk
  rw [Nat.mod_eq_of_lt hsmall]
  exact (Nat.mod_le _ _).trans_lt hshift

theorem low_bool (x : Bool) (hpos : pos < 48) : Low (field x.toNat pos) :=
  low_field (k := 1) (Bool.toNat_lt x) hpos

theorem low_byte (x : UInt8) (hpos : pos ≤ 40) : Low (field x.toNat pos) :=
  low_field (k := 8) x.toNat_lt (by omega)

theorem lanePos_le (h : info ∈ Opcode.table) : ∀ si ∈ info.srcs, si.lanePos ≤ 46 := by
  have htable : ∀ row ∈ Opcode.table, ∀ si ∈ row.srcs, si.lanePos ≤ 46 := by decide +kernel
  exact htable info h

theorem low_modifierBits {i : Nat} (hpos : si.lanePos ≤ 46)
    (h : ins.modifierBits i si s = .ok w) : Low w := by
  obtain ⟨-, -, c, hc, rfl⟩ := modifierBits_eq_ok h
  have hlanes : c < 2 ^ 2 := by simpa [hc] using si.lanes.getD_code?_lt s.halves
  have hsign : signPos i ≤ 38 := Nat.sub_le 38 _
  exact low_or (low_or (low_or (low_bool _ (by omega)) (low_bool _ (by omega)))
    (low_bool _ (by omega))) (low_field hlanes (by omega))

theorem low_sourcesBits (hsrcs : info.srcs.length ≤ 4) (hpos : ∀ si ∈ info.srcs, si.lanePos ≤ 46)
    {l : List (Operand × Nat)} (h : ins.sourcesBits info l = .ok w) : Low w := by
  induction l generalizing w with
  | nil =>
    simp only [sourcesBits, except_pure_eq_ok] at h
    subst h
    exact Nat.two_pow_pos 48
  | cons q l ih =>
    obtain ⟨s, i⟩ := q
    rw [sourcesBits] at h
    cases hsi : info.srcs[i]? with
    | none =>
      simp only [hsi, except_bind_eq_ok] at h
      obtain ⟨-, -, h⟩ := h
      exact ih h
    | some si =>
      simp only [hsi, except_bind_eq_ok, except_pure_eq_ok, sourceBits_eq_ok] at h
      obtain ⟨-, -, byte, ⟨haddr, rfl⟩, mods, hmods, rest, hrest, rfl⟩ := h
      have hi := (List.getElem?_eq_some_iff.mp hsi).1
      have hbyte : s.byte < 2 ^ 8 := byte_lt_of_addressable haddr
      exact low_or (low_or (low_field hbyte (by omega))
        (low_modifierBits (hpos si (List.mem_of_getElem? hsi)) hmods)) (ih hrest)

theorem low_firstSourceBits (hsrcs : info.srcs = [si]) (hpos : si.lanePos ≤ 46)
    (h : ins.firstSourceBits info = .ok w) : Low w := by
  simp only [firstSourceBits, hsrcs, List.headD_cons, except_bind_eq_ok, except_pure_eq_ok,
    sourceBits_eq_ok] at h
  obtain ⟨byte, ⟨haddr, rfl⟩, mods, hmods, rfl⟩ := h
  have hbyte : ins.src[0].byte < 2 ^ 8 := byte_lt_of_addressable haddr
  exact low_or (low_field hbyte (by omega)) (low_modifierBits hpos hmods)

theorem low_flagBits (h : ins.flagBits info = .ok w) : Low w := by
  simp only [flagBits, except_bind_eq_ok, refuseIf_eq_ok, except_pure_eq_ok] at h
  obtain ⟨-, -, -, -, -, -, -, -, -, -, rfl⟩ := h
  exact low_or (low_or (low_or (low_or (low_byte _ (by omega)) (low_byte _ (by omega)))
    (low_byte _ (by omega))) (low_byte _ (by omega))) (low_byte _ (by omega))

theorem low_destBits (h : ins.destBits s = .ok n) (hpos : pos ≤ 40) :
    Low (field n pos) := by
  obtain ⟨hbare, -, rfl⟩ := destBits_eq_ok.mp h
  have hmask := s.halves.mask_lt
  have hvalue := hbare.value
  exact low_field (k := 8) (by omega) (by omega)

theorem low_stagingBits {write : Bool} (h : ins.stagingBits s write = .ok n) :
    Low (field n destPos) := by
  obtain ⟨hbare, -, rfl⟩ := stagingBits_eq_ok.mp h
  have hvalue := hbare.value
  exact low_field (k := 8) (by split <;> omega) (by decide)

/-- The bits of a class stand below the operation. -/
theorem low_packClass (hmem : info ∈ Opcode.table) (h : ins.packClass info d = .ok w) : Low w := by
  have hi := OpInfo.wellLaid hmem
  have hpos := lanePos_le hmem
  have hone (hc : info.opClass = .immediate ∨ info.opClass = .branch) {v : Word}
      (hv : ins.firstSourceBits info = .ok v) : Low v := by
    obtain ⟨si, hsi, -⟩ := hi.one hc
    exact low_firstSourceBits hsi (hpos si (hsi ▸ List.mem_singleton_self si)) hv
  have hfull : Low (field 0xc0 destPos) := low_field (k := 8) (by decide) (by decide)
  have hoffset : Low (field ins.offset.toBitVec.toNat 8) :=
    low_field (k := 16) ins.offset.toBitVec.isLt (by decide)
  cases hclass : info.opClass <;>
    simp only [packClass, hclass, packNop, packAlu, packImmediate, packLoad, packStore, packTexture,
      packBranch, allSourcesBits, except_bind_eq_ok, except_pure_eq_ok, refuseIf_eq_ok] at h
  case nop =>
    obtain ⟨-, -, -, -, -, -, rfl⟩ := h
    exact hfull
  case alu =>
    obtain ⟨-, -, sources, hsources, flags, hflags, dest, hdest, rfl⟩ := h
    exact low_or (low_or (low_or (low_sourcesBits hi.srcs hpos hsources) (low_flagBits hflags))
      (low_field (k := 8) hi.secondary (by decide))) (low_destBits hdest (by decide))
  case immediate =>
    obtain ⟨-, -, source, hsource, -, -, -, -, dest, hdest, rfl⟩ := h
    exact low_or (low_or (hone (.inl hclass) hsource)
      (low_field (k := 32) ins.imm.toNat_lt (by decide))) (low_destBits hdest (by decide))
  case load =>
    obtain ⟨-, -, sources, hsources, -, -, staging, hstaging, rfl⟩ := h
    exact low_or (low_or (low_sourcesBits hi.srcs hpos hsources) hoffset) (low_stagingBits hstaging)
  case store =>
    obtain ⟨-, -, sources, hsources, -, -, staging, hstaging, rfl⟩ := h
    exact low_or (low_or (low_sourcesBits hi.srcs hpos hsources) hoffset) (low_stagingBits hstaging)
  case texture =>
    obtain ⟨-, -, sources, hsources, -, -, -, -, -, -, dest, hdest, staging, hstaging, rfl⟩ := h
    exact low_or (low_or (low_or (low_or (low_or (low_or (low_sourcesBits hi.srcs hpos hsources)
      (low_byte _ (by decide))) (low_byte _ (by decide))) (low_byte _ (by decide)))
      (low_bool _ (by decide))) (low_destBits hdest (by decide))) (low_stagingBits hstaging)
  case branch =>
    obtain ⟨-, -, -, -, -, -, -, -, source, hsource, rfl⟩ := h
    exact low_or (low_or (low_or (hone (.inr hclass) hsource)
      (low_field (k := 27) (BitVec.isLt _) (by decide)))
      (low_field (k := 1) (by split <;> decide) (by decide))) hfull

/-- The sources of a packed instruction have a byte. -/
theorem takes_of_packClass (hi : info.WellLaid) (h : ins.packClass info d = .ok w) (i : Nat)
    (si : SourceInfo) (hsi : info.srcs[i]? = some si) : si.Takes (ins.srcAt i) := by
  have hall {v : Word} (hv : ins.allSourcesBits info = .ok v) :=
    (allSourcesBits_eq_assemble 0 0 hi.srcs hv).1 i si hsi
  have hone (hc : info.opClass = .immediate ∨ info.opClass = .branch) {v : Word}
      (hv : ins.firstSourceBits info = .ok v) : si.Takes (ins.srcAt i) := by
    obtain ⟨si', hsi', -⟩ := hi.one hc
    exact (firstSourceBits_eq_assemble 0 0 hsi' hv).1 i si hsi
  cases hclass : info.opClass <;>
    simp only [packClass, hclass, packNop, packAlu, packImmediate, packLoad, packStore, packTexture,
      packBranch, except_bind_eq_ok] at h
  case nop => simp [hi.none hclass] at hsi
  case immediate =>
    obtain ⟨-, -, source, hsource, -⟩ := h
    exact hone (.inl hclass) hsource
  case branch =>
    obtain ⟨-, -, -, -, -, -, -, -, source, hsource, -⟩ := h
    exact hone (.inr hclass) hsource
  all_goals
    obtain ⟨-, -, sources, hsources, -⟩ := h
    exact hall hsources

/-- A word has the flow-control action that it was packed with. -/
theorem flow_of_packWith (h : ins.packWith flow d = .ok w) : bitsAt w 59 4 = flow.toNat := by
  simp only [packWith, except_bind_eq_ok, refuseIf_eq_ok, except_pure_eq_ok] at h
  obtain ⟨info, hinfo, -, hflow, bits, hbits, page, hpage, rfl⟩ := h
  have hmem := mem_table_of_info (info_eq_ok.mp hinfo)
  have hi := OpInfo.wellLaid hmem
  have hlow := low_packClass hmem hbits
  have hsmall := page_lt_of_sharedPage (takes_of_packClass hi hbits) hpage
  have hle : flow.toNat ≤ 13 := UInt8.le_iff_toNat_le.mp (UInt8.not_lt.mp hflow)
  have hzero {n k i : Nat} (hn : n < 2 ^ k) (hk : k ≤ i) : n.testBit i = false :=
    Nat.testBit_lt_two_pow (hn.trans_le (Nat.pow_le_pow_right (by norm_num) hk))
  refine Nat.eq_of_testBit_eq fun i => ?_
  rw [testBit_bitsAt]
  by_cases hlt : i < 4
  · -- The class ends at bit 48, the operation at bit 57 and the page at bit 59.
    have hexact : info.exact < 2 ^ 9 := hi.exact
    have hpage4 : page < 2 ^ 2 := hsmall
    simp only [BitVec.toNat_or, Nat.testBit_or, testBit_field, hzero hlow (by omega : 48 ≤ 59 + i),
      hzero hexact (by omega : 9 ≤ 59 + i - 48), hzero hpage4 (by omega : 2 ≤ 59 + i - 57)]
    simp only [hlt, Nat.add_sub_cancel_left, (by omega : 59 + i < 64), Nat.le_add_right, and_self,
      decide_true, Bool.true_and, Bool.and_false, Bool.false_or]
  · have hfits : flow.toNat < 2 ^ 4 := by omega
    rw [decide_eq_false hlt, Bool.false_and, hzero hfits (Nat.le_of_not_lt hlt)]

end Instr

/-! ### Programs -/

namespace Listing

variable {l : Listing} {p : Program}

/-- The words of a program have the actions of its instructions at their places. -/
theorem flow_of_emit {l' : Listing} {bytes : List UInt8} (h : l.emit p = (.ok bytes, l'))
    {s : Site} (hs : (l.sites p)[k]? = some s) :
    bitsAt (wordAt bytes k) 59 4 = (l.flowAt s).toNat := by
  rcases emit_cases l p with ⟨hn, -⟩ | ⟨-, ws, hws, hemit⟩ | ⟨-, fault, -, hemit⟩
  · rw [List.length_eq_zero_iff.mp (length_sites.trans hn)] at hs
    cases hs
  · obtain ⟨rfl, -⟩ : (pad ws).flatMap wordBytes = bytes ∧ _ = l' := by simpa using hemit.symm.trans h
    obtain ⟨w, d, hw, -, hpack⟩ := (packWith_place hws).2 k s hs
    have hpad : (pad ws)[k]? = some w := by
      rw [pad, List.getElem?_append_left (List.getElem?_eq_some_iff.mp hw).1, hw]
    rw [wordAt_flatMap hpad, Instr.flow_of_packWith hpack]
  · cases hemit.symm.trans h

/-- The end of the program is put exactly where execution stops. The search for what follows a
block ends in every listing, and finds out whether control gets to an instruction. Whenever a
program is emitted, the word of an instruction behind which execution stops has the action that ends
the program, and the word of every other instruction has the action of the instruction. -/
theorem emit_ends_where_execution_stops (l : Listing) :
    (∀ b, l.Searches [b] [] (l.isTerminal b) ∧ (l.isTerminal b = true ↔ ¬ l.Continues b))
    ∧ ∀ (p : Program) (bytes : List UInt8) (l' : Listing), l.emit p = (.ok bytes, l') →
      ∀ (k : Nat) (s : Site), (l.sites p)[k]? = some s →
        (l.Stops s → bitsAt (wordAt bytes k) 59 4 = endFlow.toNat)
        ∧ (¬ l.Stops s → bitsAt (wordAt bytes k) 59 4 = s.ins.flow.toNat) := by
  refine ⟨fun b => ⟨searches_onlyEmpty (Nat.lt_succ_self _) b, isTerminal_iff⟩,
    fun p bytes l' h k s hs => ?_⟩
  rw [flow_of_emit h hs, flowAt]
  refine ⟨fun hstops => ?_, fun hgoes => ?_⟩
  · rw [if_pos (endsProgram_iff.mpr hstops)]
  · rw [if_neg fun hends => hgoes (endsProgram_iff.mp hends)]

/-- Two blocks that copy a register, the second one in front of two empty blocks that lead to each
other and to a third one outside of the program. -/
def idle : Listing :=
  let copy := { Instr.bare ⟨1⟩ with
    dest := .register 1, src := #v[.register 4, .null, .null, .null], flow := 3 }
  ⟨#[⟨⟨0, "first"⟩, [copy], [1], none⟩, ⟨⟨1, "second"⟩, [copy], [2, 3], none⟩,
    ⟨⟨2, "left"⟩, [], [3, 4], none⟩, ⟨⟨3, "right"⟩, [], [2], none⟩, ⟨⟨4, "away"⟩, [], [], none⟩], ⟨0, 0⟩⟩

/-- The first copy of the sample keeps its action, and the second one ends the program. -/
theorem emit_ends_where_execution_stops_idle : ∃ bytes l', idle.emit [0, 2, 1, 3] = (.ok bytes, l')
    ∧ bitsAt (wordAt bytes 0) 59 4 = 3 ∧ bitsAt (wordAt bytes 1) 59 4 = 11
    ∧ idle.Searches [2] [] true := by
  obtain ⟨bytes, hbytes⟩ : ∃ bytes, (idle.emit [0, 2, 1, 3]).1 = .ok bytes := by
    have hok : (idle.emit [0, 2, 1, 3]).1.toOption.isSome = true := by decide +kernel
    cases h : (idle.emit [0, 2, 1, 3]).1 with
    | ok bytes => exact ⟨bytes, rfl⟩
    | error fault => simp [h, Except.toOption] at hok
  have h : idle.emit [0, 2, 1, 3] = (.ok bytes, (idle.emit [0, 2, 1, 3]).2) := by rw [← hbytes]
  obtain ⟨hsearch, hwords⟩ := emit_ends_where_execution_stops idle
  refine ⟨bytes, _, h, (hwords _ _ _ h 0 _ rfl).2 ?_, (hwords _ _ _ h 1 _ rfl).1 ?_, ?_⟩
  · rw [← endsProgram_iff]
    decide +kernel
  · rw [← endsProgram_iff]
    decide +kernel
  · have hterminal : idle.isTerminal 2 = true := by decide +kernel
    exact hterminal ▸ (hsearch 2).1

end Listing

end ShaderCompiler.Machine
