import ShaderCompiler.Proofs.DeadCode.Run

/-!
# What removing dead code leaves

Outside of rounds the scan takes out what it finds dead, and after the rounds of an outermost loop
it sweeps the body of the loop. Either way the blocks that were scanned have lost exactly the
instructions that stay unmarked.
-/

namespace ShaderCompiler

namespace Arena

/-- The instructions of a block, only those of a set if the block was scanned. -/
def keptIn (a : Arena) (done : Finset BlockId) (live : Finset InstrId) (b : BlockId) :
    List InstrId :=
  if b ∈ done then (a.body b).filter (· ∈ live) else a.body b

/-- The instructions of scanned blocks that are not in a set. -/
def deadIn (a : Arena) (done : Finset BlockId) (live : Finset InstrId) : Finset InstrId :=
  (done.biUnion fun b => (a.body b).toFinset) \ live

/-- What removing relies on: the scan is presented with the region, its sources are known to the
use-lists, no instruction stands in two blocks, and those that define something stand once in
theirs. -/
structure Removable (a : Arena) (U : UseId → Prop) (room : Nat) (r : Region) : Prop where
  presents : a.Presents a.outline room r
  source : ∀ i, a.outline.Stands r i → ∀ ins, a.instrs[i.idx]? = some ins →
    ∀ u, some u ∈ ins.sources → U u
  once : ∀ b ∈ r.preorder, ∀ i ∈ a.body b, a.outline.defs i ≠ [] → (a.body b).count i = 1
  home : ∀ b ∈ r.preorder, ∀ c ∈ r.preorder, ∀ i ∈ a.body b, i ∈ a.body c → b = c

variable {a : Arena} {done : Finset BlockId} {live live' : Finset InstrId} {b : BlockId}
  {i : InstrId}

theorem mem_deadIn : i ∈ a.deadIn done live ↔ (∃ b ∈ done, i ∈ a.body b) ∧ i ∉ live := by
  simp [deadIn]

theorem keptIn_insert (hb : b ∉ done) :
    Function.update (a.keptIn done live) b ((a.body b).filter (· ∈ live))
      = a.keptIn (insert b done) live := by
  funext c
  by_cases hc : c = b
  · subst hc
    simp [keptIn]
  · simp [keptIn, hc]

theorem deadIn_insert : a.deadIn done live ∪ (a.body b).toFinset.filter (· ∉ live)
    = a.deadIn (insert b done) live := by
  ext i
  simp only [Finset.mem_union, mem_deadIn, Finset.mem_filter, List.mem_toFinset,
    Finset.mem_insert, exists_eq_or_imp]
  rw [← or_and_right, or_comm]

theorem keptIn_sublist (a : Arena) (done : Finset BlockId) (live : Finset InstrId) (b : BlockId) :
    (a.keptIn done live b).Sublist (a.body b) := by
  unfold keptIn
  split
  · exact List.filter_sublist
  · exact List.Sublist.refl _

/-- Only what stands in scanned blocks matters. -/
theorem keptIn_congr (h : ∀ b ∈ done, ∀ i ∈ a.body b, i ∈ live ↔ i ∈ live') :
    a.keptIn done live = a.keptIn done live' ∧ a.deadIn done live = a.deadIn done live' := by
  refine ⟨?_, ?_⟩
  · funext b
    unfold keptIn
    split
    case isTrue hb => exact List.filter_congr fun i hi => by simp [h b hb i hi]
    case isFalse => rfl
  · ext i
    rw [mem_deadIn, mem_deadIn]
    refine and_congr_right fun ⟨b, hb, hi⟩ => ?_
    rw [h b hb i hi]

end Arena

namespace Scan

open Arena

variable {V : ValueId → Prop} {U : UseId → Prop} {room : Nat} {a₀ a a' base : Arena}
  {done : List BlockId} {s s' : LiveSet} {m m' : Marks} {b p : BlockId} {i : InstrId} {always : Bool}
  {lists : BlockId → List InstrId} {gone live : Finset InstrId} {r R : Region}
  {preheader : Option BlockId}

/-! ### The instructions of a block -/

/-- What is known of instructions that are to be visited. -/
structure Visitable (a₀ : Arena) (U : UseId → Prop) (room : Nat) (l : List InstrId) : Prop where
  instr : ∀ i ∈ l, ∃ ins, a₀.instrs[i.idx]? = some ins ∧ a₀.InstrScannable room ins
    ∧ ∀ u, some u ∈ ins.sources → U u
  once : ∀ i ∈ l, a₀.outline.defs i ≠ [] → l.count i = 1

theorem Visitable.of_sublist {l l' : List InstrId} (h : Visitable a₀ U room l)
    (hl : l'.Sublist l) : Visitable a₀ U room l' := by
  refine ⟨fun i hi => h.instr i (hl.subset hi), fun i hi hdefs => ?_⟩
  have hle := hl.count_le i
  rw [h.once i (hl.subset hi) hdefs] at hle
  have hpos := List.count_pos_iff.mpr hi
  omega

/-- An instruction that stands twice in a block and is dead once is dead for good. -/
theorem Visitable.dead {l : List InstrId} (h : Visitable a₀ U room (l ++ [i])) (hi : i ∈ l)
    (hdead : a₀.outline.isLive m i = false) (m' : Marks) : a₀.outline.isLive m' i = false := by
  have hdefs : a₀.outline.defs i = [] := by
    by_contra hne
    have hcount := h.once i (by simp) hne
    have hpos := List.count_pos_iff.mpr hi
    simp at hcount
    omega
  have heffect : a₀.outline.effect i = false := by
    simp only [Outline.isLive, Bool.or_eq_false_iff] at hdead
    exact hdead.1
  simp [Outline.isLive, hdefs, heffect]

theorem Pruned.scannable (hp : Arena.Pruned V U a₀ lists gone a) {ins : Instr}
    (hins : a₀.instrs[i.idx]? = some ins) (hscan : a₀.InstrScannable room ins) :
    ∃ ins', a.instrs[i.idx]? = some ins' ∧ a.InstrScannable room ins' := by
  obtain ⟨ins', hins', hact, hind⟩ := hp.exists_action hins
  exact ⟨ins', hins', hscan.congr hp.values hp.uses hact hind⟩

theorem Pruned.isLive_eq (hp : Arena.Pruned V U a₀ lists gone a) (m : Marks) (i : InstrId) :
    a.outline.isLive m i = a₀.outline.isLive m i := by
  rw [hp.outline_eq]
  rfl

theorem Pruned.visit_eq (hp : Arena.Pruned V U a₀ lists gone a) (i : InstrId) (m : Marks) :
    a.outline.visit i m = a₀.outline.visit i m := by
  rw [hp.outline_eq]
  rfl

/-- A dead instruction is taken out. -/
theorem Visitable.conclude {l l' : List InstrId} {bb : Block} (h : Visitable a₀ U room l)
    (hi : i ∈ l) (hl : i ∈ l') (hbb : a₀.blocks[b.idx]? = some bb)
    (hp : Arena.Pruned V U a₀ (Function.update lists b l') gone a) :
    ∃ a', Edit.conclude none b i false a = .ok true a'
      ∧ Arena.Pruned V U a₀ (Function.update lists b (l'.erase i)) (insert i gone) a'
      ∧ ∀ j, a'.verdict j = a.verdict j := by
  obtain ⟨ins₀, hins₀, hscan₀, hU⟩ := h.instr i hi
  obtain ⟨a₁, hrun, hp₁, hverdict⟩ := hp.remove hbb (by rwa [Function.update_self]) hins₀
    fun t ht => by
      obtain ⟨u, n, rfl, -⟩ := hscan₀.source t ht
      exact ⟨u, rfl, hU u ht⟩
  rw [Function.update_idem, Function.update_self] at hp₁
  have heliminate : Edit.eliminate b i a = .ok ()
      (a₁.recount fun c => { c with instrsEliminated := c.instrsEliminated + 1 }) :=
    (Edit.bind_of_ok hrun).trans (Edit.count_eq_ok.mpr rfl)
  exact ⟨_, Edit.bind_of_ok heliminate, hp₁.recount _, hverdict⟩

/-- The first instructions of a block are visited, the last one first. Those that stay unmarked are
taken out. -/
theorem instrsBelow_removes {bb : Block} (hbb : a₀.blocks[b.idx]? = some bb)
    {pre kept : List InstrId} (hpre : Visitable a₀ U room pre)
    (hp : Arena.Pruned V U a₀ (Function.update lists b (pre ++ kept)) gone a) (hs : Shows room s m)
    (hagree : a₀.outline.Agree m) :
    ∃ s' a' y, (instrsBelow none b pre.length).Gives s a y s' a'
      ∧ Shows room s' (a₀.outline.visitAll pre m)
      ∧ Arena.Pruned V U a₀ (Function.update lists b
          (pre.filter (· ∈ (a₀.outline.visitAll pre m).instrs) ++ kept))
        (gone ∪ pre.toFinset.filter (· ∉ (a₀.outline.visitAll pre m).instrs)) a'
      ∧ (y.1 = true ↔ ∃ i ∈ pre, i ∉ (a₀.outline.visitAll pre m).instrs) := by
  induction hn : pre.length generalizing pre kept gone s a m with
  | zero =>
    obtain rfl := List.eq_nil_of_length_eq_zero hn
    exact ⟨s, a, (false, false), .pure _, hs, by simpa using hp, by simp⟩
  | succ n ih =>
    obtain ⟨pre, i, rfl⟩ := (List.eq_nil_or_concat' pre).resolve_left fun h => by simp [h] at hn
    have hlen : pre.length = n := by simpa using hn
    have hentry : (look fun a => do entry (← a.block b).instrs n).Gives s a i s a := by
      refine entry_gives.mpr ⟨?_, rfl, rfl⟩
      rw [hp.body, Function.update_self, ← hlen]
      simp
    obtain ⟨ins₀, hins₀, hscan₀, hU⟩ := hpre.instr i (by simp)
    obtain ⟨ins, hins, hscan⟩ := Pruned.scannable hp hins₀ hscan₀
    have hvisit : a₀.outline.visitAll (pre ++ [i]) m
        = a₀.outline.visitAll pre (a₀.outline.visit i m) := Outline.visitAll_append
    have hinstr {a₁ : Arena} {removed : Bool}
        (hend : Edit.conclude none b i (a₀.outline.isLive m i) a = .ok removed a₁) :
        ∃ s' changed, (instr none b i).Gives s a (removed, changed) s' a₁
          ∧ Shows room s' (a₀.outline.visit i m) := by
      rw [← Pruned.isLive_eq hp] at hend
      obtain ⟨s', hrun, hshows⟩ := instr_gives hs hins hscan hend
      exact ⟨s', _, hrun, Pruned.visit_eq hp i m ▸ hshows⟩
    cases hlive : a₀.outline.isLive m i with
    | true =>
      have hend : Edit.conclude none b i (a₀.outline.isLive m i) a = .ok false a := by
        rw [hlive]
        rfl
      obtain ⟨s₁, changed, hrun, hshows⟩ := hinstr hend
      rw [List.append_assoc] at hp
      obtain ⟨s₂, a₂, y, hrun₂, hs₂, hp₂, hremoved⟩ :=
        ih (hpre.of_sublist (List.sublist_append_left _ _)) hp hshows hagree.visit hlen
      have hi : i ∈ (a₀.outline.visitAll pre (a₀.outline.visit i m)).instrs :=
        (a₀.outline.le_visitAll pre _).2 (Outline.mem_instrs_visit.mpr (.inr ⟨hlive, rfl⟩))
      rw [hvisit]
      refine ⟨s₂, a₂, _, .bind hentry (.bind hrun (.bind hrun₂ (.pure _))), hs₂, ?_, ?_⟩
      · simpa [List.filter_append, hi, Finset.filter_insert] using hp₂
      · simp [hremoved, hi]
    | false =>
      obtain ⟨a₁, hend, hp₁, -⟩ := hpre.conclude (i := i) (by simp) (by simp) hbb hp
      obtain ⟨s₁, changed, hrun, hshows⟩ := hinstr (hlive ▸ hend)
      rw [Outline.visit_of_dead hlive] at hshows
      rw [List.erase_append_left kept (show i ∈ pre ++ [i] by simp)] at hp₁
      have hvisit' : a₀.outline.visitAll ((pre ++ [i]).erase i) m
          = a₀.outline.visitAll (pre ++ [i]) m := by
        by_cases hi : i ∈ pre
        · exact Outline.visitAll_erase (hpre.dead hi hlive)
        · rw [List.erase_append_right _ hi, List.erase_cons_head, List.append_nil, hvisit,
            Outline.visit_of_dead hlive]
      obtain ⟨s₂, a₂, y, hrun₂, hs₂, hp₂, -⟩ :=
        ih (hpre.of_sublist List.erase_sublist) hp₁ hshows hagree
          (by rw [List.length_erase_of_mem (by simp)]; simpa using hlen)
      rw [hvisit'] at hs₂ hp₂
      have hi : i ∉ (a₀.outline.visitAll (pre ++ [i]) m).instrs := fun hmem => by
        by_cases hi : i ∈ pre
        · simpa [hpre.dead hi hlive] using (hagree.visitAll i hmem).1
        · rw [hvisit, Outline.visit_of_dead hlive] at hmem
          have hold := (Outline.mem_instrs_visitAll hmem).resolve_right hi
          simpa [hlive] using (hagree i hold).1
      refine ⟨s₂, a₂, _, .bind hentry (.bind hrun (.bind hrun₂ (.pure _))), hs₂, ?_, ?_⟩
      · rw [← List.erase_filter, List.erase_of_not_mem (by simp [hi])] at hp₂
        convert hp₂ using 1
        ext j
        by_cases hj : j = i
        · simp [hj, hi]
        · simp [hj, List.mem_erase_of_ne hj]
      · exact iff_of_true rfl ⟨i, by simp, hi⟩

/-! ### Blocks that were scanned in rounds -/

/-- The instructions of a block are swept in order. Those whose recorded verdict is dead are
taken out. -/
theorem foldlM_sweeps {bb : Block} (hbb : a₀.blocks[b.idx]? = some bb)
    (kept : List InstrId) {rest : List InstrId} (hkept : ∀ i ∈ kept, i ∈ live)
    (hrest : Visitable a₀ U room rest)
    (hp : Arena.Pruned V U a₀ (Function.update lists b (kept ++ rest)) gone a)
    (hverdict : ∀ i ∈ rest, a.verdict i = decide (i ∈ live)) (removed : Bool) :
    ∃ a' removed', (rest.foldlM (sweepInstr b) removed).Gives s a removed' s a'
      ∧ Arena.Pruned V U a₀ (Function.update lists b (kept ++ rest.filter (· ∈ live)))
        (gone ∪ rest.toFinset.filter (· ∉ live)) a'
      ∧ (∀ j, a'.verdict j = a.verdict j)
      ∧ (removed' = true ↔ removed = true ∨ ∃ i ∈ rest, i ∉ live) := by
  induction rest generalizing kept gone a removed with
  | nil => exact ⟨a, removed, .pure _, by simpa using hp, fun _ => rfl, by simp⟩
  | cons i rest ih =>
    obtain ⟨ins₀, hins₀, -, -⟩ := hrest.instr i List.mem_cons_self
    obtain ⟨ins, hins, -⟩ := hp.exists_action hins₀
    have hlive : ins.live = decide (i ∈ live) := by
      rw [← hverdict i List.mem_cons_self, Arena.verdict, hins]
      rfl
    have hsweep {a₁ : Arena} (taken : Bool)
        (hend : Edit.conclude none b i (decide (i ∈ live)) a = .ok taken a₁) :
        (sweepInstr b removed i).Gives s a (taken || removed) s a₁ :=
      .bind (.look (Arena.instr_eq_ok.mpr hins)) (.bind (.lift (hlive ▸ hend)) (.pure _))
    have hrest' : Visitable a₀ U room rest := hrest.of_sublist (List.sublist_cons_self _ _)
    simp only [List.foldlM_cons]
    by_cases hi : i ∈ live
    · obtain ⟨a', removed', hrun, hp', hv', hremoved⟩ := ih (kept ++ [i])
        (fun j hj => by
          rcases List.mem_append.mp hj with hj | hj
          · exact hkept j hj
          · exact List.mem_singleton.mp hj ▸ hi)
        hrest' (by simpa using hp) (fun j hj => hverdict j (List.mem_cons_of_mem _ hj)) removed
      refine ⟨a', removed', .bind (hsweep false (by rw [decide_eq_true hi]; rfl)) hrun, ?_, hv', ?_⟩
      · simpa [hi, Finset.filter_insert] using hp'
      · simp [hremoved, hi]
    · obtain ⟨a₁, hend, hp₁, hv₁⟩ := hrest.conclude List.mem_cons_self (by simp) hbb hp
      rw [List.erase_append_right _ fun hmem => hi (hkept i hmem), List.erase_cons_head] at hp₁
      obtain ⟨a', removed', hrun, hp', hv', hremoved⟩ := ih kept hkept hrest' hp₁
        (fun j hj => (hv₁ j).trans (hverdict j (List.mem_cons_of_mem _ hj))) true
      refine ⟨a', removed', .bind (hsweep true (by rwa [decide_eq_false hi])) hrun, ?_,
        fun j => (hv' j).trans (hv₁ j), ?_⟩
      · simpa [hi, Finset.filter_insert] using hp'
      · simp [hremoved, hi]

theorem Visitable.of_removable (hR : a₀.Removable U room R) (hb : b ∈ R.preorder) :
    Visitable a₀ U room (a₀.body b) := by
  refine ⟨fun i hi => ?_, hR.once b hb⟩
  obtain ⟨ins, hins, hscan⟩ := hR.presents.instr i ⟨b, hb, hi⟩
  exact ⟨ins, hins, hscan, hR.source i ⟨b, hb, hi⟩ ins hins⟩

/-- Sweeping blocks whose verdicts are recorded. -/
theorem foldlM_sweepBlock (hR : a₀.Removable U room R) {done : Finset BlockId} {bs : List BlockId}
    (hbs : bs ⊆ R.preorder) (hnodup : bs.Nodup) (hnew : ∀ b ∈ bs, b ∉ done)
    (hp : Arena.Pruned V U a₀ (a₀.keptIn done live) (a₀.deadIn done live) a)
    (hverdict : ∀ b ∈ bs, ∀ i ∈ a₀.body b, a.verdict i = decide (i ∈ live)) (removed : Bool) :
    ∃ a' removed', (bs.foldlM (fun removed b => return (← sweepBlock b) || removed) removed :
        Scan Bool).Gives s a removed' s a'
      ∧ Arena.Pruned V U a₀ (a₀.keptIn (bs.toFinset ∪ done) live)
        (a₀.deadIn (bs.toFinset ∪ done) live) a'
      ∧ (removed' = true ↔ removed = true ∨ ∃ b ∈ bs, ∃ i ∈ a₀.body b, i ∉ live) := by
  induction bs generalizing done a removed with
  | nil => exact ⟨a, removed, .pure _, by simpa using hp, by simp⟩
  | cons b bs ih =>
    obtain ⟨hbnew, hnodup⟩ := List.nodup_cons.mp hnodup
    have hb := hbs List.mem_cons_self
    have hkept : a₀.keptIn done live b = a₀.body b := if_neg (hnew b List.mem_cons_self)
    obtain ⟨bb₀, hbb₀⟩ := hR.presents.block b hb
    obtain ⟨bb, hbb⟩ := hp.block hbb₀
    have hinstrs : bb.instrs = a₀.body b := by
      rw [← Arena.body_of_block hbb, hp.body, hkept]
    have hp₀ : Arena.Pruned V U a₀ (Function.update (a₀.keptIn done live) b ([] ++ a₀.body b))
        (a₀.deadIn done live) a := by
      rwa [List.nil_append, ← hkept, Function.update_eq_self]
    obtain ⟨a₁, removed₁, hrun₁, hp₁, hv₁, hremoved₁⟩ := foldlM_sweeps (s := s) hbb₀ []
      (by simp) (.of_removable hR hb) hp₀ (hverdict b List.mem_cons_self) false
    rw [List.nil_append, Arena.keptIn_insert (hnew b List.mem_cons_self), Arena.deadIn_insert] at hp₁
    obtain ⟨a', removed', hrun, hp', hremoved⟩ := ih (fun c hc => hbs (List.mem_cons_of_mem _ hc))
      hnodup (fun c hc => by
        rw [Finset.mem_insert, not_or]
        exact ⟨fun h => hbnew (h ▸ hc), hnew c (List.mem_cons_of_mem _ hc)⟩)
      hp₁ (fun c hc i hi => (hv₁ i).trans (hverdict c (List.mem_cons_of_mem _ hc) i hi))
      (removed₁ || removed)
    refine ⟨a', removed', ?_, ?_, ?_⟩
    · rw [List.foldlM_cons]
      refine .bind (.bind (y := removed₁) ?_ (.pure _)) hrun
      rw [sweepBlock]
      exact .bind (.look (Arena.block_eq_ok.mpr hbb)) (hinstrs ▸ hrun₁)
    · rwa [List.toFinset_cons, Finset.insert_union, ← Finset.union_insert]
    · rw [hremoved, Bool.or_eq_true, hremoved₁]
      simp only [Bool.false_eq_true, false_or, List.mem_cons, exists_eq_or_imp]
      rw [or_assoc]
      exact or_left_comm

/-! ### What a run has done so far -/

/-- What a run outside of rounds has done so far: the live set shows the marks, and the blocks
that were scanned have lost what stays unmarked. -/
structure Removing (V : ValueId → Prop) (U : UseId → Prop) (a₀ : Arena) (room : Nat)
    (done : List BlockId) (s : LiveSet) (a : Arena) (m : Marks) : Prop where
  shows : Shows room s m
  agree : a₀.outline.Agree m
  pruned : Arena.Pruned V U a₀ (a₀.keptIn done.toFinset m.instrs) (a₀.deadIn done.toFinset m.instrs) a

/-- What a run has done so far, inside rounds that started with the arena `base` or outside. -/
def Doing (V : ValueId → Prop) (U : UseId → Prop) (a₀ : Arena) (room : Nat) (base : Arena)
    (done : List BlockId) (s : LiveSet) (a : Arena) (m : Marks) : Option BlockId → Prop
  | some _ => Recording a₀.outline room base (fun i => ∃ b ∈ done, i ∈ a₀.outline.body b) s a m
  | none => Removing V U a₀ room done s a m

/-- What a run in a region relies on. -/
def Ready (U : UseId → Prop) (a₀ : Arena) (room : Nat) (base : Arena) (R : Region) :
    Option BlockId → Prop
  | some _ => base.Presents a₀.outline room R
  | none => a₀.Removable U room R

/-- A part of a region that is still to be scanned. -/
structure Pending (R r : Region) (done : List BlockId) : Prop where
  blocks : r.preorder ++ done ⊆ R.preorder
  ifs : r.ifs ⊆ R.ifs
  nodup : (r.preorder ++ done).Nodup

/-- A part of what is to be scanned, once another part was scanned. -/
theorem Pending.part {t : Region} {later : List BlockId} (h : Pending R r done)
    (ht : (t.preorder ++ later).Sublist (r.preorder ++ done)) (hifs : t.ifs ⊆ r.ifs) :
    Pending R t later :=
  ⟨List.Subset.trans ht.subset h.blocks, List.Subset.trans hifs h.ifs, ht.nodup h.nodup⟩

/-- Outside of rounds, a run tells whether more instructions are taken out. -/
def Tells (preheader : Option BlockId) (removed : Bool) (gone gone' : Finset InstrId) : Prop :=
  preheader = none → gone.card ≤ gone'.card ∧ (removed = true ↔ gone.card < gone'.card)

theorem Tells.trans {removed removed' : Bool} {gone' gone'' : Finset InstrId}
    (h : Tells preheader removed gone gone') (h' : Tells preheader removed' gone' gone'') :
    Tells preheader (removed || removed') gone gone'' := by
  intro hout
  obtain ⟨hle, htell⟩ := h hout
  obtain ⟨hle', htell'⟩ := h' hout
  refine ⟨hle.trans hle', ?_⟩
  rw [Bool.or_eq_true, htell, htell']
  omega

/-- What is taken out of more blocks was not taken out before, since no instruction stands in two
blocks. -/
theorem tells_deadIn (hR : a₀.Removable U room R) {bs : List BlockId} (hbs : bs ++ done ⊆ R.preorder)
    (hdisjoint : bs.Disjoint done) {removed : Bool}
    (h : removed = true ↔ ∃ b ∈ bs, ∃ i ∈ a₀.body b, i ∉ live) :
    Tells preheader removed (a₀.deadIn done.toFinset live) (a₀.deadIn (bs ++ done).toFinset live) := by
  have hunion : a₀.deadIn (bs ++ done).toFinset live
      = a₀.deadIn bs.toFinset live ∪ a₀.deadIn done.toFinset live := by
    ext i
    simp only [Finset.mem_union, mem_deadIn, List.mem_toFinset, List.mem_append, or_and_right, exists_or]
  have hapart : Disjoint (a₀.deadIn bs.toFinset live) (a₀.deadIn done.toFinset live) := by
    refine Finset.disjoint_left.mpr fun i hi hi' => ?_
    obtain ⟨⟨b, hb, hib⟩, -⟩ := mem_deadIn.mp hi
    obtain ⟨⟨c, hc, hic⟩, -⟩ := mem_deadIn.mp hi'
    rw [List.mem_toFinset] at hb hc
    obtain rfl := hR.home b (hbs (List.mem_append_left _ hb)) c
      (hbs (List.mem_append_right _ hc)) i hib hic
    exact hdisjoint hb hc
  have hsome : removed = true ↔ 0 < (a₀.deadIn bs.toFinset live).card := by
    rw [h, Finset.card_pos]
    constructor
    · rintro ⟨b, hb, i, hi, hdead⟩
      exact ⟨i, mem_deadIn.mpr ⟨⟨b, List.mem_toFinset.mpr hb, hi⟩, hdead⟩⟩
    · rintro ⟨i, hi⟩
      obtain ⟨⟨b, hb, hi⟩, hdead⟩ := mem_deadIn.mp hi
      exact ⟨b, List.mem_toFinset.mp hb, i, hi, hdead⟩
  intro _
  rw [hunion, Finset.card_union_of_disjoint hapart, hsome]
  omega

/-- Marks of other instructions do not matter for blocks that were scanned. -/
theorem Removable.deadIn_eq (hR : a₀.Removable U room R) (hp : Pending R r done)
    (hle : m ≤ m') (hnew : ∀ i ∈ m'.instrs, i ∈ m.instrs ∨ a₀.outline.Stands r i) :
    a₀.keptIn done.toFinset m.instrs = a₀.keptIn done.toFinset m'.instrs
      ∧ a₀.deadIn done.toFinset m.instrs = a₀.deadIn done.toFinset m'.instrs := by
  refine keptIn_congr fun c hc i hi => ⟨fun hmem => hle.2 hmem, fun hmem => ?_⟩
  refine (hnew i hmem).resolve_right ?_
  rintro ⟨b, hb, hib⟩
  rw [List.mem_toFinset] at hc
  obtain rfl := hR.home b (hp.blocks (List.mem_append_left _ hb)) c
    (hp.blocks (List.mem_append_right _ hc)) i hib hi
  exact (List.nodup_append'.mp hp.nodup).2.2 hb hc

namespace Doing

theorem shows (h : Doing V U a₀ room base done s a m preheader) : Shows room s m := by
  cases preheader
  · exact Removing.shows h
  · exact Recording.shows h

/-- The arena still presents what is to be scanned. -/
theorem presents (h : Doing V U a₀ room base done s a m preheader)
    (hready : Ready U a₀ room base R preheader) (hpending : Pending R r done) :
    a.Presents a₀.outline room r := by
  have hblocks : r.preorder ⊆ R.preorder :=
    List.Subset.trans (List.subset_append_left _ _) hpending.blocks
  cases preheader with
  | some p => exact (Recording.presents h hready).mono hblocks hpending.ifs
  | none =>
    have hR : a₀.Removable U room R := hready
    have hpruned := Removing.pruned h
    refine ⟨hpruned.outline_eq, fun b hb => ?_, fun b hb => ?_, fun i hi => ?_, fun c hc => ?_⟩
    · rw [hpruned.body]
      refine if_neg fun hdone => ?_
      exact (List.nodup_append'.mp hpending.nodup).2.2 hb (List.mem_toFinset.mp hdone)
    · obtain ⟨bb, hbb⟩ := hR.presents.block b (hblocks hb)
      exact hpruned.block hbb
    · obtain ⟨ins, hins, hscan⟩ := hR.presents.instr i (hi.mono hblocks)
      exact Pruned.scannable hpruned hins hscan
    · obtain ⟨con, u, yes, no, n, hcon, hshape, hn, hfit⟩ := hR.presents.condition c (hpending.ifs hc)
      refine ⟨con, u, yes, no, n, hpruned.constructs ▸ hcon, hshape, ?_, hfit⟩
      rw [readNumber?_of_uses hpruned.values hpruned.uses, hn]

/-- A condition is marked. -/
theorem test (h : Doing V U a₀ room base done s a m preheader) {numbers : List Int}
    (hs : Shows room s' (m.test numbers)) :
    Doing V U a₀ room base done s' a (m.test numbers) preheader := by
  cases preheader with
  | some p =>
    have h : Recording a₀.outline room base _ s a m := h
    exact ⟨hs, h.agree.test _, h.unmarked, h.verdict⟩
  | none =>
    have h : Removing V U a₀ room done s a m := h
    exact ⟨hs, h.agree.test _, h.pruned⟩

/-- One more block is scanned. -/
theorem block (h : Doing V U a₀ room base done s a m preheader)
    (hready : Ready U a₀ room base R preheader) (hpending : Pending R (.block b .done) done) :
    ∃ s' a' y, (block preheader b).Gives s a y s' a'
      ∧ Doing V U a₀ room base (b :: done) s' a' (a₀.outline.visitAll (a₀.body b) m) preheader
      ∧ Tells preheader y.1 (a₀.deadIn done.toFinset m.instrs)
        (a₀.deadIn (b :: done).toFinset (a₀.outline.visitAll (a₀.body b) m).instrs) := by
  have hb : b ∈ R.preorder := hpending.blocks List.mem_cons_self
  cases preheader with
  | some p =>
    obtain ⟨s', a', hrun, h'⟩ := Recording.block h hready hb p
    refine ⟨s', a', _, hrun, h'.weaken fun i hi => ?_, nofun⟩
    simpa [or_comm] using hi
  | none =>
    have hR : a₀.Removable U room R := hready
    have h : Removing V U a₀ room done s a m := h
    have hnew : b ∉ done.toFinset := by
      simpa using (List.nodup_append'.mp hpending.nodup).2.2 List.mem_cons_self
    have hkept : a₀.keptIn done.toFinset m.instrs b = a₀.body b := if_neg hnew
    obtain ⟨bb₀, hbb₀⟩ := hR.presents.block b hb
    have hp₀ : Arena.Pruned V U a₀ (Function.update (a₀.keptIn done.toFinset m.instrs) b
        (a₀.body b ++ [])) (a₀.deadIn done.toFinset m.instrs) a := by
      rw [List.append_nil, ← hkept, Function.update_eq_self]
      exact h.pruned
    obtain ⟨s', a', y, hrun, hs', hp', hremoved⟩ := instrsBelow_removes hbb₀
      (.of_removable hR hb) hp₀ h.shows h.agree
    obtain ⟨hsame, hsame'⟩ := Removable.deadIn_eq hR hpending (a₀.outline.le_visitAll (a₀.body b) m)
      fun i hi => (Outline.mem_instrs_visitAll hi).imp_right fun hi => ⟨b, List.mem_cons_self, hi⟩
    rw [List.append_nil, hsame, hsame', keptIn_insert hnew, deadIn_insert, ← List.toFinset_cons] at hp'
    refine ⟨s', a', y, block_gives.mpr ⟨h.pruned.block hbb₀, ?_⟩, ⟨hs', h.agree.visitAll, hp'⟩, ?_⟩
    · rw [h.pruned.body, hkept]
      exact hrun
    · rw [hsame']
      have hblocks : [b] ++ done ⊆ R.preorder := hpending.blocks
      exact tells_deadIn hR hblocks (List.nodup_append'.mp hpending.nodup).2.2 (by simpa using hremoved)

end Doing

/-- What a run does to a part of a region: it marks what the scan of the outline marks, takes out or
records what stays unmarked, and tells whether there was any. -/
def Does (V : ValueId → Prop) (U : UseId → Prop) (a₀ : Arena) (room : Nat) (always : Bool)
    (preheader : Option BlockId) (before : Except Fault BlockId) (r : Region) : Prop :=
  ∀ ⦃base : Arena⦄ ⦃R : Region⦄ ⦃done : List BlockId⦄ ⦃s : LiveSet⦄ ⦃a : Arena⦄ ⦃m : Marks⦄,
    Ready U a₀ room base R preheader → Pending R r done →
    Doing V U a₀ room base done s a m preheader → ∃ s' a' progress,
      (region always preheader before r).Gives s a progress s' a'
        ∧ Doing V U a₀ room base (r.preorder ++ done) s' a'
          (a₀.outline.scan always room before.toOption r m) preheader
        ∧ Tells preheader progress (a₀.deadIn done.toFinset m.instrs)
          (a₀.deadIn (r.preorder ++ done).toFinset
            (a₀.outline.scan always room before.toOption r m).instrs)

/-- The rounds of a loop mark what the scan of the outline marks. Outside of other rounds, the body
is swept. -/
theorem Doing.visit {header : BlockId} {inner : Region}
    (h : Doing V U a₀ room base done s a m preheader) (hready : Ready U a₀ room base R preheader)
    (hpending : Pending R (.block header inner) done)
    (hinner : Does V U a₀ room always (some p) (.ok header) inner) :
    ∃ s' a' removed, (visit preheader (round always p header inner) (.block header inner)).Gives s a
        removed s' a'
      ∧ Doing V U a₀ room base ((Region.block header inner).preorder ++ done) s' a'
        (ShaderCompiler.rounds (a₀.outline.scan always room none (.block header inner))
          (a₀.outline.again always room (some p) (.block header inner)) (room + 1) m) preheader
      ∧ Tells preheader removed (a₀.deadIn done.toFinset m.instrs)
        (a₀.deadIn ((Region.block header inner).preorder ++ done).toFinset
          (ShaderCompiler.rounds (a₀.outline.scan always room none (.block header inner))
            (a₀.outline.again always room (some p) (.block header inner)) (room + 1) m).instrs) := by
  have hp := h.presents hready hpending
  have hsize := h.shows.size
  cases preheader with
  | some q =>
    have h : Recording a₀.outline room base (fun i => ∃ b ∈ done, i ∈ a₀.outline.body b) s a m := h
    have hbase : base.Presents a₀.outline room R := hready
    obtain ⟨s₁, a₁, hrun₁, h₁⟩ := h.rounds (hbase.mono (List.Subset.trans
      (List.subset_append_left _ _) hpending.blocks) hpending.ifs) fun {s a m} h => by
        obtain ⟨s', a', y, hrun, h', -⟩ := hinner hready (hpending.part
          (List.sublist_cons_self _ _) (List.Subset.refl _)) h
        refine ⟨s', a', y, hrun, Recording.weaken h' fun i hi => ?_⟩
        simpa [or_and_right, exists_or, Outline.Stands, or_comm] using hi
    refine ⟨s₁, a₁, false, .bind (.bind .get (hsize.symm ▸ hrun₁)) (.pure _),
      h₁.weaken fun i hi => ?_, by rintro ⟨⟩⟩
    simpa [or_and_right, exists_or, Outline.Stands, or_comm] using hi
  | none =>
    have hR : a₀.Removable U room R := hready
    have h : Removing V U a₀ room done s a m := h
    have hstart : Recording a₀.outline room a
        (fun i => ∃ b ∈ ([] : List BlockId), i ∈ a₀.outline.body b) s a m :=
      ⟨h.shows, h.agree, rfl, by simp⟩
    obtain ⟨s₁, a₁, hrun₁, h₁⟩ := hstart.rounds hp fun {s a m} h => by
      have hpinner : Pending (.block header inner) inner [] := by
        refine ⟨by simp [Region.preorder], List.Subset.refl _, ?_⟩
        simpa using (List.nodup_cons.mp (List.nodup_append'.mp hpending.nodup).1).2
      obtain ⟨s', a', y, hrun, h', -⟩ := hinner hp hpinner h
      refine ⟨s', a', y, hrun, Recording.weaken h' fun i hi => ?_⟩
      simpa [Outline.Stands] using hi
    obtain ⟨hkept, hdead⟩ := Removable.deadIn_eq hR hpending
      (a₀.outline.le_rounds_scan always room _ _ (room + 1) m)
      fun i hi => Outline.mem_instrs_rounds_scan hi
    have hp₁ := h.pruned.congr (Arena.code_of_unmarked h₁.unmarked)
      (Arena.values_of_unmarked h₁.unmarked) (Arena.uses_of_unmarked h₁.unmarked)
    rw [hkept, hdead] at hp₁
    obtain ⟨hnodup, -, hdisjoint⟩ := List.nodup_append'.mp hpending.nodup
    obtain ⟨a₂, removed, hrun₂, hp₂, hremoved⟩ := foldlM_sweepBlock (s := s₁) hR
      (List.Subset.trans (List.subset_append_left _ _) hpending.blocks) hnodup
      (fun b hb hdone => hdisjoint hb (List.mem_toFinset.mp hdone)) hp₁
      (fun b hb i hi => h₁.verdict i (.inr ⟨b, hb, hi⟩)) false
    rw [← List.toFinset_append] at hp₂
    refine ⟨s₁, a₂, removed, .bind (.bind .get (hsize.symm ▸ hrun₁)) ?_, ⟨h₁.shows, h₁.agree, hp₂⟩, ?_⟩
    · change (Scan.sweep (.block header inner)).Gives s₁ a₁ removed s₁ a₂
      rw [Scan.sweep, Region.blocks_eq_preorder]
      exact hrun₂
    · rw [hdead]
      exact tells_deadIn hR hpending.blocks hdisjoint (by simpa using hremoved)

/-- A run marks what the scan of the outline marks, and takes out or records what stays unmarked. -/
theorem region_does (always : Bool) : ∀ (preheader : Option BlockId) (before : Except Fault BlockId)
    {r : Region}, r.Structured → r.LoopsAfterBlocks before.toOption.isSome →
      Does V U a₀ room always preheader before r
  | _, _, .done, _, _ => fun _ _ _ s a _ _ _ h => ⟨s, a, false, .pure _, h, fun _ => by
      simp [Region.preorder, Outline.scan]⟩
  | preheader, _, .block b rest, hstruct, hloops => fun _ _ done s a m hready hpending h => by
    obtain ⟨s₁, a₁, later, hrun₁, h₁, htells₁⟩ := region_does always preheader (.ok b) (r := rest)
      hstruct hloops hready (hpending.part (List.sublist_cons_self _ _) (List.Subset.refl _)) h
    obtain ⟨s₂, a₂, here, hrun₂, h₂, htells₂⟩ := h₁.block hready
      (hpending.part (List.Sublist.refl _) (List.nil_subset _))
    exact ⟨s₂, a₂, _, .bind hrun₁ (.bind hrun₂ (.pure _)), h₂, htells₁.trans htells₂⟩
  | preheader, _, .branch c yes no rest, ⟨⟨_, hyes⟩, ⟨_, hno⟩, hrest⟩, ⟨hlyes, hlno, hlrest⟩ =>
      fun _ R done s a m hready hpending h => by
    have hall : (Region.branch c yes no rest).preorder ++ done
        = yes.preorder ++ (no.preorder ++ (rest.preorder ++ done)) := by
      simp [Region.preorder]
    have hpart {t : Region} {later : List BlockId} (hifs : t.ifs ⊆ (Region.branch c yes no rest).ifs)
        (ht : (t.preorder ++ later).Sublist (yes.preorder ++ (no.preorder ++ (rest.preorder ++ done)))) :
        Pending R t later := hpending.part (hall ▸ ht) hifs
    obtain ⟨s₁, a₁, later, hrun₁, h₁, htells₁⟩ := region_does always preheader (.error .notABlock)
      hrest hlrest hready (hpart (fun d hd => by simp [Region.ifs, hd])
        ((List.sublist_append_right _ _).trans (List.sublist_append_right _ _))) h
    obtain ⟨s₂, a₂, inNo, hrun₂, h₂, htells₂⟩ := region_does always preheader (.error .outOfRange)
      hno hlno hready (hpart (fun d hd => by simp [Region.ifs, hd]) (List.sublist_append_right _ _)) h₁
    obtain ⟨s₃, a₃, inYes, hrun₃, h₃, htells₃⟩ := region_does always preheader (.error .outOfRange)
      hyes hlyes hready (hpart (fun d hd => by simp [Region.ifs, hd]) (List.Sublist.refl _)) h₂
    have hp : a₃.Presents a₀.outline room (.branch c .done .done .done) :=
      h₃.presents hready (hpart (by simp [Region.ifs]) (List.Sublist.refl _))
    obtain ⟨con, u, yesItems, noItems, n, hcon, hshape, hn, hfit⟩ := hp.condition c List.mem_cons_self
    obtain ⟨s₄, hrun₄, hshows⟩ := markCondition_gives h₃.shows hcon hshape hn hfit
    rw [hp.tests_eq] at hshows
    rw [hall]
    exact ⟨s₄, a₃, _, .bind hrun₁ (.bind hrun₂ (.bind hrun₃ (.bind hrun₄ (.pure _)))), h₃.test hshows,
      (htells₁.trans htells₂).trans htells₃⟩
  | preheader, .ok q, .loop c (.block header inner) rest, ⟨⟨_, hinner⟩, hrest⟩, ⟨_, hlbody, hlrest⟩ =>
      fun _ R done s a m hready hpending h => by
    have hall : (Region.loop c (.block header inner) rest).preorder ++ done
        = (Region.block header inner).preorder ++ (rest.preorder ++ done) := List.append_assoc ..
    obtain ⟨s₁, a₁, later, hrun₁, h₁, htells₁⟩ := region_does always preheader (.error .notABlock)
      hrest hlrest hready (hpending.part (hall ▸ List.sublist_append_right _ _)
        (List.subset_append_right _ _)) h
    have hpbody : Pending R (.block header inner) (rest.preorder ++ done) :=
      hpending.part (hall ▸ List.Sublist.refl _) (List.subset_append_left _ _)
    have hp := h₁.presents hready hpbody
    obtain ⟨bb, hbb⟩ := hp.block header List.mem_cons_self
    have honce : a₀.outline.once always (some q) (.block header inner)
        = (!always && decide (bb.preds = [q])) := by
      rw [hp.preds_eq hbb]
      rfl
    rw [region_loop, show (Except.ok q : Except Fault BlockId).toOption = some q from rfl,
      Outline.scan_loop, honce, hall]
    have hlook : (look (·.block header) >>= fun bb => pure (!always && bb.preds = [q]) : Scan Bool).Gives
        s₁ a₁ (!always && bb.preds = [q]) s₁ a₁ := .bind (.look (block_eq_ok.mpr hbb)) (.pure _)
    have hbody {p : Option BlockId} : Does V U a₀ room always p (.ok header) inner :=
      region_does always p (.ok header) (r := inner) hinner hlbody
    cases hcase : !always && decide (bb.preds = [q]) with
    | true =>
      rw [hcase] at hlook
      obtain ⟨s₂, a₂, inBody, hrun₂, h₂, htells₂⟩ := hbody hready (hpbody.part
        (List.sublist_cons_self _ _) (List.Subset.refl _)) h₁
      obtain ⟨s₃, a₃, inHeader, hrun₃, h₃, htells₃⟩ := h₂.block hready (hpbody.part
        (List.Sublist.refl _) (List.nil_subset _))
      exact ⟨s₃, a₃, _, .bind hrun₁ (.bind (.except rfl)
        (.bind hlook (.bind hrun₂ (.bind hrun₃ (.pure _))))),
        h₃, (htells₁.trans htells₂).trans htells₃⟩
    | false =>
      rw [hcase] at hlook
      obtain ⟨s₂, a₂, swept, hrun₂, h₂, htells₂⟩ := h₁.visit hready hpbody (hbody (p := some q))
      refine ⟨s₂, a₂, _, .bind hrun₁ (.bind (.except rfl) (.bind hlook (.bind hrun₂ (.pure _)))), h₂, ?_⟩
      rw [Bool.or_comm]
      exact htells₁.trans htells₂
  | _, .error e, .loop c body rest, _, ⟨hafter, _⟩ => by
    simp [Except.toOption] at hafter
  | _, .ok q, .loop c .done rest, ⟨⟨hstarts, _⟩, _⟩, _
  | _, .ok q, .loop c (.branch ..) rest, ⟨⟨hstarts, _⟩, _⟩, _
  | _, .ok q, .loop c (.loop ..) rest, ⟨⟨hstarts, _⟩, _⟩, _ => hstarts.elim

end Scan

namespace Edit

/-- The pass takes out what the scan of the outline leaves unmarked, and tells whether there was
anything. -/
theorem removeDead_spec {V : ValueId → Prop} {U : UseId → Prop} {a : Arena} {f : FunctionId}
    {g : Function} {region : Region} {s : LiveSet} (hg : a.functions[f.idx]? = some g)
    (hregion : a.bodyRegion f = .ok region) (hs : LiveSet.ofCount g.valueCount = .ok s)
    (hlists : a.UseLists V U) (hR : a.Removable U s.marks.size region) (hstruct : region.Structured)
    (hloops : region.LoopsAfterBlocks false) (hnodup : region.preorder.Nodup) (always : Bool) :
    ∃ progress a', removeDead f always a = .ok progress a'
      ∧ Arena.Pruned V U a
        (a.keptIn region.preorder.toFinset
          (a.outline.scan always s.marks.size none region ⟨∅, ∅⟩).instrs)
        (a.deadIn region.preorder.toFinset
          (a.outline.scan always s.marks.size none region ⟨∅, ∅⟩).instrs) a'
      ∧ (progress = true ↔ ∃ i, a.outline.Stands region i
        ∧ i ∉ (a.outline.scan always s.marks.size none region ⟨∅, ∅⟩).instrs) := by
  have hkept : a.keptIn ∅ ∅ = a.body := funext fun b => if_neg (by simp)
  have hdead : a.deadIn ∅ ∅ = ∅ := by simp [Arena.deadIn]
  have hstart : Scan.Doing V U a s.marks.size a [] s a ⟨∅, ∅⟩ none := by
    refine ⟨⟨(LiveSet.ofCount_eq_ok hs).1, rfl⟩, by simp [Outline.Agree], ?_⟩
    rw [List.toFinset_nil, hkept, hdead]
    exact .refl hlists
  obtain ⟨s', a₁, progress, hrun, h, htells⟩ := Scan.region_does always none (.error .outOfRange)
    hstruct hloops hR ⟨by simp, List.Subset.refl _, by simpa using hnodup⟩ hstart
  rw [List.append_nil] at h htells
  obtain ⟨a', hpreserve⟩ : ∃ a', preserve f (keptBy progress) a₁ = .ok () a' :=
    ⟨_, setFunction_eq_ok.mpr rfl⟩
  refine ⟨progress, a', removeDead_eq_ok.mpr ⟨g, s, region, s', a₁, Arena.function_eq_ok.mpr hg, hs,
    hregion, hrun, hpreserve⟩, ?_, ?_⟩
  · obtain rfl := setFunction_eq_ok.mp hpreserve
    exact h.pruned.congr (Arena.code_modifyFunction_of_bare fun _ => rfl) rfl rfl
  · rw [(htells rfl).2, List.toFinset_nil, hdead, Finset.card_empty, Finset.card_pos]
    refine exists_congr fun i => Arena.mem_deadIn.trans (and_congr_left fun _ => ?_)
    simp [Outline.Stands, Arena.outline]

end Edit

end ShaderCompiler
