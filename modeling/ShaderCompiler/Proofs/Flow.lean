import ShaderCompiler.Proofs.Check.Shape
import ShaderCompiler.Proofs.Dominance

/-!
# Edges along the region of a function

The edges that are computed for a function follow its region: a block leads to where its jump
goes, to both branches of the `if` after it, or to what comes next. Predecessors are listed in
program order, once for each edge.

Computing the edges afresh first clears all of them. Then exits are set, region by region, and
each region only touches its own blocks. Predecessors are entered last.
-/

namespace ShaderCompiler

variable {r rest : Region} {c : ConstructId} {y : Unit} {blocks : List BlockId}

variable {a a' : Arena} {finish next : BlockId} {around : Option LoopTargets} {b t : BlockId}

/-- The exits of a block in front of a region that is followed by `next`. -/
def Arena.exitsAt (a : Arena) (finish b : BlockId) (rest : Region) (next : BlockId)
    (around : Option LoopTargets) : Except Fault Exits := do
  let follow ← rest.follow next
  match ← a.jumpOf b with
  | some (_, kind) => return .goto (← kind.target finish around)
  | none =>
      match rest with
      | .branch _ yes no _ => return .fork (← yes.entry) (← no.entry)
      | _ => return .goto follow

/-- The exits of all blocks of a region that is followed by `next`. -/
def Region.Linked (a : Arena) (finish : BlockId) : Region → BlockId → Option LoopTargets → Prop
  | .done, _, _ => True
  | .block b rest, next, around =>
      (∃ exits, (a.blocks[b.idx]?).map Block.exits = some exits
        ∧ a.exitsAt finish b rest next around = .ok exits) ∧ rest.Linked a finish next around
  | .branch _ yes no rest, next, around =>
      ∃ follow, rest.follow next = .ok follow ∧ yes.Linked a finish follow around
        ∧ no.Linked a finish follow around ∧ rest.Linked a finish next around
  | .loop _ body rest, next, around =>
      ∃ follow header, rest.follow next = .ok follow ∧ body.header = .ok header
        ∧ body.Linked a finish header (some ⟨header, follow⟩) ∧ rest.Linked a finish next around

/-- The exits of a block. -/
def Arena.exitsOf (a : Arena) (b : BlockId) : Exits :=
  (a.blocks[b.idx]?).elim .nowhere (·.exits)

/-- The blocks of a list from which edges lead to a block, once for each edge. -/
def Arena.predsIn (a : Arena) (blocks : List BlockId) (t : BlockId) : List BlockId :=
  blocks.flatMap fun b => List.replicate ((a.exitsOf b).toList.count t) b

/-- The edges of a function with the given region. -/
structure Arena.Edged (a : Arena) (region : Region) (finish : BlockId) : Prop where
  linked : region.Linked a finish finish none
  ends : a.exitsOf finish = .nowhere
  preds : ∀ t ∈ region.blocks ++ [finish], ∀ bb, a.blocks[t.idx]? = some bb →
    bb.preds = a.predsIn (region.blocks ++ [finish]) t

/-- The edges of a function are those that are computed from its region. -/
def Arena.EdgesCurrent (a : Arena) (f : FunctionId) : Prop :=
  ∃ a₁, Edit.relink f a = .ok () a₁ ∧ a₁.blocks = a.blocks

instance (a : Arena) (f : FunctionId) : Decidable (a.EdgesCurrent f) :=
  match h : Edit.relink f a with
  | .ok _ a₁ =>
      decidable_of_iff (a₁.blocks = a.blocks) <| by
        simp [Arena.EdgesCurrent, h]
  | .error _ _ => isFalse fun ⟨_, h', _⟩ => by simp [h] at h'

/-! ### Setting exits -/

theorem Arena.jumpOf_congr (hi : a'.instrs = a.instrs)
    (hb : (a'.blocks[b.idx]?).map Block.instrs = (a.blocks[b.idx]?).map Block.instrs) :
    a'.jumpOf b = a.jumpOf b := by
  unfold Arena.jumpOf Arena.block Arena.instr
  rw [hi]
  obtain ⟨hbb', hbb⟩ | ⟨bb', bb, hbb', hbb, heq⟩ := map_eq_map_cases hb
  · rw [hbb', hbb]
  · rw [hbb', hbb]
    cases bb'
    subst heq
    rfl

/-- A region stays linked if its blocks keep their exits and their jumps. -/
theorem Region.Linked.congr (h : r.Linked a finish next around)
    (hexits : ∀ b ∈ r.preorder,
      (a'.blocks[b.idx]?).map Block.exits = (a.blocks[b.idx]?).map Block.exits)
    (hjump : ∀ b ∈ r.preorder, a'.jumpOf b = a.jumpOf b) : r.Linked a' finish next around := by
  induction r generalizing next around with
  | done => trivial
  | block b rest ih =>
    simp only [preorder, List.mem_cons, forall_eq_or_imp] at hexits hjump
    obtain ⟨⟨exits, hbb, hat⟩, hrest⟩ := h
    refine ⟨⟨exits, by rw [hexits.1, hbb], ?_⟩, ih hrest hexits.2 hjump.2⟩
    rw [← hat]
    unfold Arena.exitsAt
    rw [hjump.1]
  | branch c yes no rest ihy ihn ihr =>
    simp only [preorder, List.mem_append] at hexits hjump
    obtain ⟨follow, hfollow, hyes, hno, hrest⟩ := h
    exact ⟨follow, hfollow,
      ihy hyes (fun b hb => hexits b (.inl (.inl hb))) fun b hb => hjump b (.inl (.inl hb)),
      ihn hno (fun b hb => hexits b (.inl (.inr hb))) fun b hb => hjump b (.inl (.inr hb)),
      ihr hrest (fun b hb => hexits b (.inr hb)) fun b hb => hjump b (.inr hb)⟩
  | loop c body rest ihb ihr =>
    simp only [preorder, List.mem_append] at hexits hjump
    obtain ⟨follow, header, hfollow, hheader, hbody, hrest⟩ := h
    exact ⟨follow, header, hfollow, hheader,
      ihb hbody (fun b hb => hexits b (.inl hb)) fun b hb => hjump b (.inl hb),
      ihr hrest (fun b hb => hexits b (.inr hb)) fun b hb => hjump b (.inr hb)⟩

/-- Nothing but blocks was changed. -/
structure OnlyBlocks (a a' : Arena) : Prop where
  instrs : a'.instrs = a.instrs
  constructs : a'.constructs = a.constructs
  functions : a'.functions = a.functions

theorem OnlyBlocks.refl (a : Arena) : OnlyBlocks a a := ⟨rfl, rfl, rfl⟩

theorem OnlyBlocks.trans {a₁ a₂ a₃ : Arena} (h : OnlyBlocks a₁ a₂) (h' : OnlyBlocks a₂ a₃) :
    OnlyBlocks a₁ a₃ :=
  ⟨h'.instrs.trans h.instrs, h'.constructs.trans h.constructs, h'.functions.trans h.functions⟩

/-- The exits of some blocks were set, and nothing else was done. -/
structure Rewired (bs : List BlockId) (a a' : Arena) : Prop extends OnlyBlocks a a' where
  other : ∀ b ∉ bs, (a'.blocks[b.idx]?).map Block.exits = (a.blocks[b.idx]?).map Block.exits
  block : ∀ b : BlockId, ∃ e : Block → Exits,
    a'.blocks[b.idx]? = (a.blocks[b.idx]?).map fun bb => { bb with exits := e bb }

namespace Rewired

variable {bs cs : List BlockId} {a₁ a₂ a₃ : Arena}

theorem trans (h : Rewired bs a₁ a₂) (h' : Rewired cs a₂ a₃) : Rewired (bs ++ cs) a₁ a₃ where
  other b hb := by
    rw [List.mem_append, not_or] at hb
    rw [h'.other b hb.2, h.other b hb.1]
  block b := by
    obtain ⟨e, he⟩ := h.block b
    obtain ⟨e', he'⟩ := h'.block b
    refine ⟨fun bb => e' { bb with exits := e bb }, ?_⟩
    rw [he', he, Option.map_map]
    rfl
  toOnlyBlocks := h.toOnlyBlocks.trans h'.toOnlyBlocks

theorem jumpOf (h : Rewired bs a a') (b : BlockId) : a'.jumpOf b = a.jumpOf b := by
  obtain ⟨e, he⟩ := h.block b
  refine Arena.jumpOf_congr h.instrs ?_
  rw [he, Option.map_map]
  rfl

theorem exitsAt (h : Rewired bs a a') (b : BlockId) (rest : Region) :
    a'.exitsAt finish b rest next around = a.exitsAt finish b rest next around := by
  unfold Arena.exitsAt
  rw [h.jumpOf]

/-- Setting exits elsewhere leaves a region linked. -/
theorem linked (h : Rewired bs a a') (hr : ∀ b ∈ r.preorder, b ∉ bs)
    (hl : r.Linked a finish next around) : r.Linked a' finish next around :=
  hl.congr (fun b hb => h.other b (hr b hb)) fun b _ => h.jumpOf b

theorem modifyBlock (a : Arena) (b : BlockId) (e : Block → Exits) :
    Rewired [b] a (a.modifyBlock b fun bb => { bb with exits := e bb }) where
  other c hc := by
    rw [Arena.modifyBlock_blocks_get, if_neg (by simpa using hc)]
  block c := by
    rw [Arena.modifyBlock_blocks_get]
    split
    · exact ⟨e, rfl⟩
    · exact ⟨Block.exits, by simp⟩
  toOnlyBlocks := ⟨rfl, rfl, rfl⟩

end Rewired

namespace Edit

theorem linkBlock_spec
    (hnone : ∀ bb, a.blocks[b.idx]? = some bb → bb.exits = .nowhere)
    (h : linkBlock finish b rest next around a = .ok y a') :
    Rewired [b] a a' ∧ ∃ exits, (a'.blocks[b.idx]?).map Block.exits = some exits
      ∧ a.exitsAt finish b rest next around = .ok exits := by
  simp only [linkBlock, bind_eq_ok, look_eq_ok, liftM_eq_ok] at h
  obtain ⟨follow, _, ⟨hfollow, rfl⟩, jump, _, ⟨hjump, rfl⟩, h⟩ := h
  obtain ⟨bb, hbb⟩ : ∃ bb, a.blocks[b.idx]? = some bb := by
    simp only [Arena.jumpOf, except_bind_eq_ok, Arena.block_eq_ok] at hjump
    obtain ⟨bb, hbb, -⟩ := hjump
    exact ⟨bb, hbb⟩
  have hset (e : Block → Exits) :
      ((a.modifyBlock b fun bb => { bb with exits := e bb }).blocks[b.idx]?).map Block.exits
        = some (e bb) := by
    rw [Arena.modifyBlock_blocks_get, if_pos rfl, hbb]
    rfl
  -- A first exit is set in a block that has none.
  have hfirst (t : BlockId) : Rewired [b] a (a.modifyBlock b fun bb =>
      { bb with exits := bb.exits.withFirst t })
      ∧ ((a.modifyBlock b fun bb =>
        { bb with exits := bb.exits.withFirst t }).blocks[b.idx]?).map Block.exits
          = some (.goto t) := by
    refine ⟨.modifyBlock a b fun bb => bb.exits.withFirst t, ?_⟩
    rw [hset, hnone bb hbb]
    rfl
  unfold Arena.exitsAt
  rw [hfollow, hjump]
  cases jump with
  | some q =>
    simp only [bind_eq_ok, liftM_eq_ok, setFirstExit, setBlock_eq_ok] at h
    obtain ⟨t, _, ⟨ht, rfl⟩, rfl⟩ := h
    obtain ⟨hrewired, hexits⟩ := hfirst t
    exact ⟨hrewired, .goto t, hexits, by simp [ht]⟩
  | none =>
    cases rest with
    | branch c yes no rest =>
      simp only [bind_eq_ok, liftM_eq_ok, setBlock_eq_ok] at h
      obtain ⟨ty, _, ⟨hty, rfl⟩, tn, _, ⟨htn, rfl⟩, rfl⟩ := h
      exact ⟨.modifyBlock a b fun _ => .fork ty tn, .fork ty tn, hset _, by simp [hty, htn]⟩
    | done | block _ _ | loop _ _ _ =>
      simp only [setFirstExit, setBlock_eq_ok] at h
      subst h
      obtain ⟨hrewired, hexits⟩ := hfirst follow
      exact ⟨hrewired, .goto follow, hexits, by simp⟩

/-- Setting the exits of a region links it, if its blocks had none. -/
theorem linkRegion_spec (hnodup : r.preorder.Nodup)
    (hnone : ∀ b ∈ r.preorder, ∀ bb, a.blocks[b.idx]? = some bb → bb.exits = .nowhere)
    (h : linkRegion finish r next around a = .ok y a') :
    Rewired r.preorder a a' ∧ r.Linked a' finish next around := by
  -- Blocks outside of a part that was linked have no exits yet.
  have hlater {bs : List BlockId} {a a₁ : Arena} (hrew : Rewired bs a a₁) {s : Region}
      (hdisjoint : ∀ b ∈ s.preorder, b ∉ bs)
      (hs : ∀ b ∈ s.preorder, ∀ bb, a.blocks[b.idx]? = some bb → bb.exits = .nowhere) :
      ∀ b ∈ s.preorder, ∀ bb, a₁.blocks[b.idx]? = some bb → bb.exits = .nowhere := by
    intro b hb bb hbb
    have hsame := hrew.other b (hdisjoint b hb)
    rw [hbb, Option.map_some, eq_comm, Option.map_eq_some_iff] at hsame
    obtain ⟨bb₀, hbb₀, heq⟩ := hsame
    rw [← heq, hs b hb bb₀ hbb₀]
  induction r generalizing a a' next around y with
  | done =>
    obtain ⟨-, rfl⟩ := pure_eq_ok.mp h
    exact ⟨⟨.refl a, fun _ _ => rfl, fun b => ⟨Block.exits, by simp⟩⟩, trivial⟩
  | block b rest ih =>
    simp only [Region.preorder, List.mem_cons, forall_eq_or_imp, List.nodup_cons] at hnone hnodup
    rw [linkRegion, bind_eq_ok] at h
    obtain ⟨_, a₁, h1, h2⟩ := h
    obtain ⟨hrew, exits, hbb, hexits⟩ := linkBlock_spec hnone.1 h1
    have hdisjoint : ∀ c ∈ rest.preorder, c ∉ [b] := by
      rintro c hc hcb
      exact hnodup.1 (List.mem_singleton.mp hcb ▸ hc)
    obtain ⟨hrew', hlinked⟩ := ih hnodup.2 (hlater hrew hdisjoint hnone.2) h2
    refine ⟨hrew.trans hrew', ⟨exits, ?_, ?_⟩, hlinked⟩
    · rw [hrew'.other b hnodup.1, hbb]
    · rw [hrew'.exitsAt, hrew.exitsAt, hexits]
  | branch c yes no rest ihy ihn ihr =>
    simp only [Region.preorder, List.mem_append, List.nodup_append'] at hnone hnodup
    obtain ⟨⟨hny, hnn, hyn⟩, hnr, hr⟩ := hnodup
    rw [linkRegion] at h
    simp only [bind_eq_ok, liftM_eq_ok] at h
    obtain ⟨follow, _, ⟨hfollow, rfl⟩, _, a₁, h1, _, a₂, h2, h3⟩ := h
    obtain ⟨hrew₁, hyes⟩ := ihy hny (fun b hb => hnone b (.inl (.inl hb))) h1
    obtain ⟨hrew₂, hno⟩ := ihn hnn (hlater hrew₁ (fun b hb hb' => hyn hb' hb)
      fun b hb => hnone b (.inl (.inr hb))) h2
    have hrew := hrew₁.trans hrew₂
    have hdisjoint : ∀ b ∈ rest.preorder, b ∉ yes.preorder ++ no.preorder :=
      fun b hb hb' => hr hb' hb
    obtain ⟨hrew₃, hrest⟩ := ihr hnr (hlater hrew hdisjoint fun b hb => hnone b (.inr hb)) h3
    refine ⟨hrew.trans hrew₃, follow, hfollow, ?_, ?_, hrest⟩
    · exact (hrew₂.trans hrew₃).linked (fun b hb hb' => (List.mem_append.mp hb').elim
        (hyn hb) (hr (List.mem_append_left _ hb))) hyes
    · exact hrew₃.linked (fun b hb => hr (List.mem_append_right _ hb)) hno
  | loop c body rest ihb ihr =>
    simp only [Region.preorder, List.mem_append, List.nodup_append'] at hnone hnodup
    obtain ⟨hnb, hnr, hr⟩ := hnodup
    rw [linkRegion] at h
    simp only [bind_eq_ok, liftM_eq_ok] at h
    obtain ⟨follow, _, ⟨hfollow, rfl⟩, header, _, ⟨hheader, rfl⟩, _, a₁, h1, h2⟩ := h
    obtain ⟨hrew, hbody⟩ := ihb hnb (fun b hb => hnone b (.inl hb)) h1
    obtain ⟨hrew', hrest⟩ := ihr hnr (hlater hrew (fun b hb hb' => hr hb' hb)
      fun b hb => hnone b (.inr hb)) h2
    exact ⟨hrew.trans hrew', follow, header, hfollow, hheader,
      hrew'.linked (fun b hb => hr hb) hbody, hrest⟩

/-! ### All edges of a function -/

theorem clearEdges_spec (h : clearEdges blocks a = .ok y a') :
    OnlyBlocks a a' ∧ ∀ b : BlockId, a'.blocks[b.idx]? = if b ∈ blocks
      then (a.blocks[b.idx]?).map fun bb => { bb with preds := [], exits := .nowhere }
      else a.blocks[b.idx]? := by
  induction blocks generalizing a with
  | nil =>
    obtain ⟨-, rfl⟩ := pure_eq_ok.mp h
    exact ⟨.refl a, by simp⟩
  | cons c blocks ih =>
    simp only [clearEdges, List.forM_eq_forM, List.forM_cons, bind_eq_ok, setBlock_eq_ok] at h ih
    obtain ⟨_, _, rfl, h⟩ := h
    obtain ⟨honly, hblocks⟩ := ih h
    refine ⟨⟨honly.instrs, honly.constructs, honly.functions⟩, fun b => ?_⟩
    rw [hblocks, Arena.modifyBlock_blocks_get]
    by_cases hbc : b = c
    · subst hbc
      by_cases hb : b ∈ blocks <;> simp [hb, Function.comp_def]
    · simp [hbc]

theorem pushPreds_spec {l : List BlockId}
    (h : (l.forM fun s => setBlock s fun bb => { bb with preds := bb.preds ++ [b] }) a
      = .ok y a') :
    OnlyBlocks a a' ∧ ∀ t : BlockId, a'.blocks[t.idx]? = (a.blocks[t.idx]?).map fun bb =>
      { bb with preds := bb.preds ++ List.replicate (l.count t) b } := by
  induction l generalizing a with
  | nil =>
    obtain ⟨-, rfl⟩ := pure_eq_ok.mp h
    exact ⟨.refl a, by simp⟩
  | cons s l ih =>
    simp only [List.forM_eq_forM, List.forM_cons, bind_eq_ok, setBlock_eq_ok] at h ih
    obtain ⟨_, _, rfl, h⟩ := h
    obtain ⟨honly, hblocks⟩ := ih h
    refine ⟨⟨honly.instrs, honly.constructs, honly.functions⟩, fun t => ?_⟩
    rw [hblocks, Arena.modifyBlock_blocks_get]
    by_cases hts : t = s
    · subst hts
      simp [Function.comp_def, List.replicate_succ]
    · have hst : ¬ s = t := fun hst => hts hst.symm
      simp [hts, hst]

/-- Changing predecessors leaves exits as they are. -/
theorem exitsOf_of_preds {k : Block → BlockId → List BlockId}
    (h : ∀ t : BlockId, a'.blocks[t.idx]? = (a.blocks[t.idx]?).map fun bb =>
      { bb with preds := k bb t }) (c : BlockId) : a'.exitsOf c = a.exitsOf c := by
  unfold Arena.exitsOf
  rw [h]
  cases a.blocks[c.idx]? <;> rfl

theorem linkPreds_spec (h : linkPreds blocks a = .ok y a') :
    OnlyBlocks a a' ∧ (∀ t : BlockId, a'.blocks[t.idx]? = (a.blocks[t.idx]?).map fun bb =>
      { bb with preds := bb.preds ++ a.predsIn blocks t })
      ∧ ∀ b ∈ blocks, (a.blocks[b.idx]?).isSome = true := by
  induction blocks generalizing a with
  | nil =>
    obtain ⟨-, rfl⟩ := pure_eq_ok.mp h
    exact ⟨.refl a, by simp [Arena.predsIn], by simp⟩
  | cons b blocks ih =>
    simp only [linkPreds, List.forM_eq_forM, List.forM_cons, bind_eq_ok, look_eq_ok,
      Arena.block_eq_ok] at h ih
    obtain ⟨_, a₁, ⟨bb, _, ⟨hbb, rfl⟩, h1⟩, h2⟩ := h
    obtain ⟨honly₁, hblocks₁⟩ := pushPreds_spec h1
    obtain ⟨honly, hblocks, hpresent⟩ := ih h2
    -- The exits stay the same, so the other blocks add what they would have added before.
    have hrest (t : BlockId) : a₁.predsIn blocks t = a.predsIn blocks t := by
      simp only [Arena.predsIn, exitsOf_of_preds hblocks₁]
    refine ⟨honly₁.trans honly, fun t => ?_, List.forall_mem_cons.mpr ⟨by simp [hbb], fun c hc => ?_⟩⟩
    · have hb : a.exitsOf b = bb.exits := by simp [Arena.exitsOf, hbb]
      rw [hblocks, hblocks₁, hrest, Option.map_map]
      simp [Arena.predsIn, hb, Function.comp_def]
    · have hsome := hpresent c hc
      rwa [hblocks₁, Option.isSome_map] at hsome

variable {f : FunctionId} {g : Function} {region : Region}

/-- Edges are taken away, exits are set, and then predecessors are entered. -/
theorem relink_eq_ok {y : Unit} (hg : a.functions[f.idx]? = some g)
    (hregion : a.bodyRegion f = .ok region) : relink f a = .ok y a' ↔ ∃ a₁ a₂ a₃,
      clearEdges (region.blocks ++ [g.finish]) a = .ok () a₁
        ∧ linkRegion g.finish region g.finish none a₁ = .ok () a₂
        ∧ linkPreds (region.blocks ++ [g.finish]) a₂ = .ok () a₃
        ∧ a₃.modifyFunction f (fun g => { g with valid := .none, dominance := none }) = a' := by
  have hlook : look (·.function f) a = .ok g a :=
    look_eq_ok.mpr ⟨Arena.function_eq_ok.mpr hg, rfl⟩
  rw [relink, bind_of_ok (look_eq_ok.mpr ⟨hregion, rfl⟩), bind_of_ok hlook]
  simp only [bind_eq_ok, setFunction_eq_ok]
  constructor
  · rintro ⟨_, a₁, h1, _, a₂, h2, _, a₃, h3, h⟩
    exact ⟨a₁, a₂, a₃, h1, h2, h3, h⟩
  · rintro ⟨a₁, a₂, a₃, h1, h2, h3, h⟩
    exact ⟨(), a₁, h1, (), a₂, h2, (), a₃, h3, h⟩

/-- Edges are computed only if all blocks are there. -/
theorem relink_present (hg : a.functions[f.idx]? = some g)
    (hregion : a.bodyRegion f = .ok region) (h : relink f a = .ok y a')
    (hb : b ∈ region.blocks ++ [g.finish]) : (a'.blocks[b.idx]?).isSome = true := by
  obtain ⟨a₁, a₂, a₃, -, -, h3, rfl⟩ := (relink_eq_ok hg hregion).mp h
  obtain ⟨-, hblocks, hpresent⟩ := linkPreds_spec h3
  rw [show (a₃.modifyFunction f _).blocks = a₃.blocks from rfl, hblocks, Option.isSome_map]
  exact hpresent b hb

/-- Edges that were computed afresh are those of the region. -/
theorem relink_spec (hg : a.functions[f.idx]? = some g)
    (hregion : a.bodyRegion f = .ok region) (hnodup : (region.blocks ++ [g.finish]).Nodup)
    (h : relink f a = .ok y a') : a'.Edged region g.finish ∧ (∀ b, a'.jumpOf b = a.jumpOf b)
      ∧ a'.bodyRegion f = .ok region
      ∧ a'.functions[f.idx]? = some { g with valid := .none, dominance := none } := by
  obtain ⟨a₁, a₂, a₃, h1, h2, h3, rfl⟩ := (relink_eq_ok hg hregion).mp h
  obtain ⟨honly₁, hblocks₁⟩ := clearEdges_spec h1
  obtain ⟨honly₃, hblock, -⟩ := linkPreds_spec h3
  have hnodup' := hnodup
  rw [Region.blocks_eq_preorder] at hnodup'
  obtain ⟨hnr, -, hfinish⟩ := List.nodup_append'.mp hnodup'
  have hcleared : ∀ b ∈ region.blocks ++ [g.finish], ∀ bb, a₁.blocks[b.idx]? = some bb →
      bb.exits = .nowhere ∧ bb.preds = [] := by
    intro b hb bb hbb
    rw [hblocks₁, if_pos hb, Option.map_eq_some_iff] at hbb
    obtain ⟨bb₀, -, rfl⟩ := hbb
    exact ⟨rfl, rfl⟩
  obtain ⟨hrew, hlinked⟩ := linkRegion_spec hnr (fun b hb bb hbb => (hcleared b (by
    simp [Region.blocks_eq_preorder, hb]) bb hbb).1) h2
  have honly := honly₁.trans (hrew.toOnlyBlocks.trans honly₃)
  -- Entering predecessors changes no exits and no instructions.
  have hexits := exitsOf_of_preds hblock
  have hjump (b : BlockId) : a₃.jumpOf b = a₂.jumpOf b := by
    refine Arena.jumpOf_congr honly₃.instrs ?_
    rw [hblock, Option.map_map]
    rfl
  have hg₁ : (a₃.modifyFunction f fun g => { g with valid := .none, dominance := none }
      ).functions[f.idx]? = some { g with valid := .none, dominance := none } := by
    rw [Arena.modifyFunction_functions_get, if_pos rfl, honly.functions, hg]
    rfl
  have hregion₁ : (a₃.modifyFunction f _).bodyRegion f = a.bodyRegion f :=
    Arena.bodyRegion_congr honly.constructs (by rw [hg, hg₁]; rfl)
  refine ⟨⟨hlinked.congr (fun b _ => ?_) fun b _ => hjump b, ?_, fun t ht bb hbb => ?_⟩,
    fun b => ?_, hregion₁.trans hregion, hg₁⟩
  · rw [show (a₃.modifyFunction f _).blocks = a₃.blocks from rfl, hblock, Option.map_map]
    rfl
  · have hother := hrew.other g.finish fun hmem => hfinish hmem List.mem_cons_self
    refine (hexits g.finish).trans ?_
    unfold Arena.exitsOf
    cases hb₂ : a₂.blocks[g.finish.idx]? with
    | none => rfl
    | some bb₂ =>
      rw [hb₂, Option.map_some, eq_comm, Option.map_eq_some_iff] at hother
      obtain ⟨bb₁, hbb₁, heq⟩ := hother
      exact heq.symm.trans (hcleared _ (by simp) bb₁ hbb₁).1
  · obtain ⟨e, he⟩ := hrew.block t
    rw [show (a₃.modifyFunction f _).blocks = a₃.blocks from rfl, hblock, he, Option.map_map,
      Option.map_eq_some_iff] at hbb
    obtain ⟨bb₁, hbb₁, rfl⟩ := hbb
    have hsame : a₂.predsIn (region.blocks ++ [g.finish]) t
        = a₃.predsIn (region.blocks ++ [g.finish]) t := by
      simp only [Arena.predsIn, hexits]
    simp only [Function.comp_apply, (hcleared t ht bb₁ hbb₁).2, List.nil_append, hsame]
    rfl
  · refine (hjump b).trans ((hrew.jumpOf b).trans (Arena.jumpOf_congr honly₁.instrs ?_))
    rw [hblocks₁]
    split
    · rw [Option.map_map]
      rfl
    · rfl

end Edit

/-- Edges that are those computed from the region. -/
theorem Arena.EdgesCurrent.edged {f : FunctionId} {g : Function} {region : Region}
    (h : a.EdgesCurrent f) (hg : a.functions[f.idx]? = some g)
    (hregion : a.bodyRegion f = .ok region) (hnodup : (region.blocks ++ [g.finish]).Nodup) :
    a.Edged region g.finish := by
  obtain ⟨a', h, hsame⟩ := h
  obtain ⟨⟨hlinked, hends, hpreds⟩, hjump, -⟩ := Edit.relink_spec hg hregion hnodup h
  have hexits (b : BlockId) : a.exitsOf b = a'.exitsOf b := by
    unfold exitsOf
    rw [hsame]
  refine ⟨hlinked.congr (fun b _ => by rw [hsame]) fun b _ => (hjump b).symm,
    (hexits _).trans hends, fun t ht bb hbb => ?_⟩
  rw [hpreds t ht bb (hsame ▸ hbb)]
  simp only [predsIn, hexits]

/-- A function with current edges has a body, and its blocks are there. -/
theorem Arena.EdgesCurrent.exists_region {f : FunctionId} (h : a.EdgesCurrent f) :
    ∃ g region, a.functions[f.idx]? = some g ∧ a.bodyRegion f = .ok region
      ∧ ∀ b ∈ region.blocks ++ [g.finish], (a.blocks[b.idx]?).isSome = true := by
  obtain ⟨a', h, hsame⟩ := h
  have hrun := h
  simp only [Edit.relink, Edit.bind_eq_ok, Edit.look_eq_ok, Arena.function_eq_ok] at hrun
  obtain ⟨region, _, ⟨hregion, rfl⟩, g, _, ⟨hg, rfl⟩, -⟩ := hrun
  exact ⟨g, region, hg, hregion, fun b hb => hsame ▸ Edit.relink_present hg hregion h hb⟩

end ShaderCompiler
