import ShaderCompiler.Proofs.DeadCode.Visits

/-!
# Runs of the scan

A run of the scan marks what the scan of the outline marks. Inside rounds it leaves the verdicts
on the instructions behind. Outside it leaves the blocks of the region without the instructions
that stay unmarked. Such an instruction is taken out on the spot, or when the rounds of the
outermost loop around it have come to their end.
-/

namespace ShaderCompiler

/-- An arena shows the scan the blocks of a region as an outline has them. -/
structure Arena.Presents (a : Arena) (o : Outline) (room : Nat) (r : Region) : Prop where
  outline : a.outline = { o with body := a.body }
  body : ∀ b ∈ r.preorder, a.body b = o.body b
  block : ∀ b ∈ r.preorder, ∃ bb, a.blocks[b.idx]? = some bb
  instr : ∀ i, o.Stands r i → ∃ ins, a.instrs[i.idx]? = some ins ∧ a.InstrScannable room ins
  condition : ∀ c ∈ r.ifs, ∃ con u yes no n, a.constructs[c.idx]? = some con
    ∧ con.shape = .branch (some u) yes no ∧ a.readNumber? u = some n ∧ 0 ≤ n ∧ n < room

/-- Every loop stands right behind a block. -/
def Region.LoopsAfterBlocks : Bool → Region → Prop
  | _, .done => True
  | _, .block _ rest => rest.LoopsAfterBlocks true
  | _, .branch _ yes no rest =>
      yes.LoopsAfterBlocks false ∧ no.LoopsAfterBlocks false ∧ rest.LoopsAfterBlocks false
  | afterBlock, .loop _ body rest =>
      afterBlock = true ∧ body.LoopsAfterBlocks false ∧ rest.LoopsAfterBlocks false

namespace Arena

variable {a a' : Arena} {o : Outline} {room : Nat} {r s : Region}

theorem InstrScannable.congr {ins ins' : Instr} (h : a.InstrScannable room ins)
    (hv : a'.code.values = a.code.values) (hu : a'.code.uses = a.code.uses)
    (hact : ins'.action = ins.action) (hind : ins'.indirect = ins.indirect) :
    a'.InstrScannable room ins' := by
  have hnumber := number?_of_values hv
  have hread := readNumber?_of_uses hv hu
  constructor
  · rw [Instr.definitions_congr hact]
    intro d hd
    obtain ⟨v, n, hv, hn, hfit⟩ := h.definition d hd
    exact ⟨v, n, hv, (hnumber v).trans hn, hfit⟩
  · rw [Instr.sources_congr hact hind]
    intro t ht
    obtain ⟨u, n, hu, hn, hfit⟩ := h.source t ht
    exact ⟨u, n, hu, (hread u).trans hn, hfit⟩
  · rw [hact]
    exact h.known

namespace Presents

theorem of_code (h : a.Presents o room r) (hcode : a'.code = a.code) : a'.Presents o room r := by
  have hbody := body_of_code hcode
  refine ⟨?_, ?_, fun b hb => ?_, fun i hi => ?_, fun c hc => ?_⟩
  · rw [outline_congr hcode, h.outline, hbody]
  · rw [hbody]
    exact h.body
  · obtain ⟨bb, hbb⟩ := h.block b hb
    obtain ⟨n, hbb'⟩ := block_of_code hcode hbb
    exact ⟨_, hbb'⟩
  · obtain ⟨ins, hins, hscan⟩ := h.instr i hi
    obtain ⟨n, l, hins'⟩ := instr_of_code hcode hins
    exact ⟨_, hins', hscan.congr (congrArg (·.values) hcode) (congrArg (·.uses) hcode) rfl rfl⟩
  · obtain ⟨con, u, yes, no, n, hcon, hshape, hn, hfit⟩ := h.condition c hc
    refine ⟨con, u, yes, no, n, constructs_of_code hcode ▸ hcon, hshape, ?_, hfit⟩
    rw [readNumber?_of_uses (congrArg (·.values) hcode) (congrArg (·.uses) hcode), hn]

theorem mono (h : a.Presents o room r) (hs : s.preorder ⊆ r.preorder) (hifs : s.ifs ⊆ r.ifs) :
    a.Presents o room s :=
  ⟨h.outline, fun b hb => h.body b (hs hb), fun b hb => h.block b (hs hb),
    fun i hi => h.instr i (hi.mono hs), fun c hc => h.condition c (hifs hc)⟩

theorem tail {b : BlockId} (h : a.Presents o room (.block b r)) : a.Presents o room r :=
  h.mono (List.subset_cons_self b _) (List.Subset.refl _)

theorem visit_eq (h : a.Presents o room r) (i : InstrId) (m : Marks) :
    a.outline.visit i m = o.visit i m := by
  rw [h.outline]
  rfl

theorem isLive_eq (h : a.Presents o room r) (m : Marks) (i : InstrId) :
    a.outline.isLive m i = o.isLive m i := by
  rw [h.outline]
  rfl

theorem reads_eq (h : a.Presents o room r) (i : InstrId) : a.outline.reads i = o.reads i := by
  rw [h.outline]

theorem tests_eq (h : a.Presents o room r) (c : ConstructId) : a.outline.tests c = o.tests c := by
  rw [h.outline]

theorem preds_eq (h : a.Presents o room r) {b : BlockId} {bb : Block}
    (hbb : a.blocks[b.idx]? = some bb) : bb.preds = o.preds b := by
  have hpreds : a.outline.preds b = o.preds b := by rw [h.outline]
  simp [← hpreds, Arena.outline, hbb]

end Presents

end Arena

/-- The numbers that fit into the room. -/
def numbersBelow (room : Nat) : Finset Int :=
  (Finset.range room).map Nat.castEmbedding

theorem mem_numbersBelow {room : Nat} {n : Int} : n ∈ numbersBelow room ↔ 0 ≤ n ∧ n < room := by
  simp only [numbersBelow, Finset.mem_map, Finset.mem_range, Nat.castEmbedding_apply]
  constructor
  · rintro ⟨k, hk, rfl⟩
    omega
  · rintro ⟨hn, hlt⟩
    exact ⟨n.toNat, by omega, by omega⟩

theorem card_numbersBelow (room : Nat) : (numbersBelow room).card = room := by
  simp [numbersBelow]

theorem Arena.Presents.mem_of_asks {a : Arena} {o : Outline} {room : Nat} {r : Region} {n : Int}
    (h : a.Presents o room r) (hn : o.Asks r n) : n ∈ numbersBelow room := by
  rw [mem_numbersBelow]
  rcases hn with ⟨i, hi, x, hx, rfl⟩ | ⟨c, hc, hn⟩
  · obtain ⟨ins, hins, hscan⟩ := h.instr i hi
    rw [← h.reads_eq, Scan.reads_outline hins] at hx
    obtain ⟨u, hu, hnumber, -⟩ := Arena.exists_of_mem_readings hx
    obtain ⟨w, k, heq, hk, hfit⟩ := hscan.source _ hu
    cases heq
    cases hnumber.symm.trans hk
    exact hfit
  · obtain ⟨con, u, yes, no, k, hcon, hshape, hk, hfit⟩ := h.condition c hc
    rw [← h.tests_eq] at hn
    simp only [Arena.outline, hcon, Option.map_some, hshape, Option.bind_some, hk,
      Option.toList_some, List.mem_singleton] at hn
    exact hn ▸ hfit

namespace Scan

variable {o : Outline} {room : Nat} {base a a' : Arena} {P Q : InstrId → Prop} {s s' : LiveSet}
  {m : Marks} {b p : BlockId} {i : InstrId} {r : Region}

/-! ### Inside rounds -/

/-- What a run inside rounds that started with the arena `base` has done so far: the live set
shows the marks, and the verdicts on the instructions `P` are recorded. -/
structure Recording (o : Outline) (room : Nat) (base : Arena) (P : InstrId → Prop) (s : LiveSet)
    (a : Arena) (m : Marks) : Prop where
  shows : Shows room s m
  agree : o.Agree m
  unmarked : a.unmarked = base.unmarked
  verdict : ∀ i, P i → a.verdict i = decide (i ∈ m.instrs)

namespace Recording

theorem weaken (h : Recording o room base P s a m) (hQ : ∀ i, Q i → P i) :
    Recording o room base Q s a m :=
  ⟨h.shows, h.agree, h.unmarked, fun i hi => h.verdict i (hQ i hi)⟩

theorem recount (h : Recording o room base P s a m) (k : Counters → Counters) :
    Recording o room base P s (a.recount k) m :=
  ⟨h.shows, h.agree, h.unmarked, h.verdict⟩

theorem presents (h : Recording o room base P s a m) (hp : base.Presents o room r) :
    a.Presents o room r :=
  hp.of_code (Arena.code_of_unmarked h.unmarked)

/-- A visit records one more verdict. -/
theorem visit (h : Recording o room base P s a m) (hp : base.Presents o room r)
    (hi : o.Stands r i) (p b : BlockId) :
    ∃ s' a', (instr (some p) b i).Gives s a
        (false, o.isLive m i && bringsNew (some p) (o.reads i) m.values) s' a'
      ∧ Recording o room base (fun j => P j ∨ j = i) s' a' (o.visit i m) := by
  have hpa := h.presents hp
  obtain ⟨ins, hins, hscan⟩ := hpa.instr i hi
  obtain ⟨s', hrun, hshows⟩ := instr_gives (b := b) h.shows hins hscan
    (Edit.conclude_some (p := p).mpr ⟨rfl, rfl⟩)
  rw [hpa.isLive_eq, hpa.reads_eq] at hrun
  rw [hpa.visit_eq] at hshows
  refine ⟨s', _, hrun, hshows, h.agree.visit, ?_, fun j hj => ?_⟩
  · rw [Arena.unmarked_record]
    exact h.unmarked
  · rw [Arena.verdict_record hins]
    split
    case isTrue hji =>
      subst hji
      -- An instruction that was marked before is live.
      have hmem : j ∈ (o.visit j m).instrs ↔ o.isLive m j = true := by
        rw [Outline.mem_instrs_visit]
        exact ⟨fun h' => h'.elim (fun hold => (h.agree j hold).1) (·.1), fun hl => .inr ⟨hl, rfl⟩⟩
      cases hlive : o.isLive m j <;> simp [hmem, hlive]
    case isFalse hji =>
      rw [h.verdict j (hj.resolve_right hji)]
      have hmem : j ∈ (o.visit i m).instrs ↔ j ∈ m.instrs := by
        rw [Outline.mem_instrs_visit]
        exact ⟨fun h' => h'.elim id fun h' => absurd h'.2 hji, .inl⟩
      simp [hmem]

/-- The first instructions of a block, the last one first. -/
theorem instrsBelow {l rest : List InstrId} (h : Recording o room base P s a m)
    (hp : base.Presents o room r) (hb : b ∈ r.preorder) (p : BlockId) (hl : o.body b = l ++ rest) :
    ∃ s' a', (instrsBelow (some p) b l.length).Gives s a (false, o.newIn (some p) l m) s' a'
      ∧ Recording o room base (fun j => P j ∨ j ∈ l) s' a' (o.visitAll l m) := by
  induction l using List.reverseRecOn generalizing P s a m rest with
  | nil => exact ⟨s, a, .pure _, h.weaken fun j hj => by simpa using hj⟩
  | append_singleton l i ih =>
    rw [List.append_assoc, List.singleton_append] at hl
    obtain ⟨s₁, a₁, hrun₁, h₁⟩ := h.visit (i := i) hp ⟨b, hb, by simp [hl]⟩ p b
    obtain ⟨s₂, a₂, hrun₂, h₂⟩ := ih h₁ hl
    have hnew : o.newIn (some p) (l ++ [i]) m
        = ((o.isLive m i && bringsNew (some p) (o.reads i) m.values)
          || o.newIn (some p) l (o.visit i m)) := Outline.newIn_append
    have hentry : (a.body b)[l.length]? = some i := by simp [(h.presents hp).body b hb, hl]
    rw [hnew, Outline.visitAll_append, List.length_append]
    refine ⟨s₂, a₂, .bind (entry_gives.mpr ⟨hentry, rfl, rfl⟩) (.bind hrun₁ (.bind hrun₂ (.pure _))),
      h₂.weaken fun j hj => ?_⟩
    rw [List.mem_append, List.mem_singleton] at hj
    tauto

theorem block (h : Recording o room base P s a m) (hp : base.Presents o room r)
    (hb : b ∈ r.preorder) (p : BlockId) :
    ∃ s' a', (block (some p) b).Gives s a (false, o.newIn (some p) (o.body b) m) s' a'
      ∧ Recording o room base (fun j => P j ∨ j ∈ o.body b) s' a' (o.visitAll (o.body b) m) := by
  have hpa := h.presents hp
  obtain ⟨s', a', hrun, h'⟩ := h.instrsBelow hp hb p (List.append_nil _).symm
  exact ⟨s', a', block_gives.mpr ⟨hpa.block b hb, (hpa.body b hb).symm ▸ hrun⟩, h'⟩

end Recording

/-- Rounds that each keep an invariant, and establish one, until they come to their end. -/
theorem rounds_give {round : Scan Bool} {step : Marks → Marks} {again : Marks → Bool}
    {I J : LiveSet → Arena → Marks → Prop}
    (hround : ∀ s a m, I s a m → ∃ s' a', round.Gives s a (again m) s' a' ∧ J s' a' (step m))
    (hcount : ∀ s a m k, I s a m → I s (a.recount k) m) (hback : ∀ s a m, J s a m → I s a m)
    {k : Nat} (hsettles : Settles step again k m) (h : I s a m) :
    ∃ s' a', (rounds round k).Gives s a () s' a' ∧ J s' a' (ShaderCompiler.rounds step again k m) := by
  induction k generalizing s a m with
  | zero => exact hsettles.elim
  | succ k ih =>
    obtain ⟨s₁, a₁, hrun, h₁⟩ := hround s _ m (hcount s a m _ h)
    have hstart : (liftM (Edit.count fun c => { c with loopRounds := c.loopRounds + 1 }) :
        Scan Unit).Gives s a () s (a.recount fun c => { c with loopRounds := c.loopRounds + 1 }) :=
      .lift (Edit.count_eq_ok.mpr rfl)
    rw [ShaderCompiler.rounds]
    cases hagain : again m with
    | true =>
      rw [hagain] at hrun
      obtain ⟨s', a', hrest, h'⟩ := ih (hsettles hagain) (hback _ _ _ h₁)
      exact ⟨s', a', .bind hstart (.bind hrun hrest), h'⟩
    | false =>
      rw [hagain] at hrun
      exact ⟨s₁, a₁, .bind hstart (.bind hrun (.pure _)), h₁⟩

theorem Shows.values_subset (h : Shows room s m) : m.values ⊆ numbersBelow room := by
  intro n hn
  rw [← h.values, LiveSet.mem_marked] at hn
  rw [mem_numbersBelow]
  exact ⟨hn.1.1, h.size ▸ hn.1.2⟩

/-- Rounds through the body of a loop, until nothing new comes around it. -/
theorem Recording.rounds {always : Bool} {header : BlockId} {inner : Region}
    (h : Recording o room base P s a m) (hp : base.Presents o room (.block header inner))
    (hinner : ∀ {s a m}, Recording o room base P s a m → ∃ s' a' y,
      (region always (some p) (.ok header) inner).Gives s a y s' a'
        ∧ Recording o room base (fun i => P i ∨ o.Stands inner i) s' a'
          (o.scan always room (some header) inner m)) :
    ∃ s' a', (Scan.rounds (round always p header inner) (room + 1)).Gives s a () s' a'
      ∧ Recording o room base (fun i => P i ∨ o.Stands (.block header inner) i) s' a'
        (ShaderCompiler.rounds (o.scan always room none (.block header inner))
          (o.again always room (some p) (.block header inner)) (room + 1) m) := by
  refine rounds_give (I := Recording o room base P) (fun s a m h => ?_)
    (fun s a m k h => h.recount k) (fun s a m h => h.weaken fun i hi => .inl hi)
    (Outline.settles_scan (card_numbersBelow room).le (some p) (fun n hn => hp.mem_of_asks hn)
      h.shows.values_subset) h
  obtain ⟨s₁, a₁, y, hrun₁, h₁⟩ := hinner h
  obtain ⟨s₂, a₂, hrun₂, h₂⟩ := h₁.block hp List.mem_cons_self p
  refine ⟨s₂, a₂, .bind (.discard hrun₁) (.bind hrun₂ (.pure _)), h₂.weaken fun i hi => ?_⟩
  rw [Outline.stands_block] at hi
  tauto

end Scan

end ShaderCompiler
