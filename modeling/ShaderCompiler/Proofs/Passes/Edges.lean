import ShaderCompiler.Proofs.Structured
import ShaderCompiler.Proofs.Upkeep

/-!
# Edges that stay current

The edges of a function follow from its region and from the jumps at the ends of its blocks. So
computing them again gives what there is if they are edges of the region already, and edges that
are current stay so under changes that leave the jumps where they are.
-/

namespace ShaderCompiler

variable {a a' : Arena} {finish next : BlockId} {around : Option LoopTargets} {b t : BlockId}
  {f : FunctionId} {g : Function} {region r : Region} {kind : JumpKind} {bb : Block}

/-! ### Edges follow from jumps -/

/-- The exits of a linked region follow from the jumps of its blocks. -/
theorem Region.Linked.exits_eq (h : r.Linked a finish next around)
    (h' : r.Linked a' finish next around) (hjump : ∀ b ∈ r.preorder, a'.jumpOf b = a.jumpOf b)
    (hb : b ∈ r.preorder) :
    (a'.blocks[b.idx]?).map Block.exits = (a.blocks[b.idx]?).map Block.exits := by
  induction r generalizing next around with
  | done => simp [preorder] at hb
  | block c rest ih =>
    obtain ⟨⟨exits, hexits, hat⟩, hrest⟩ := h
    obtain ⟨⟨exits', hexits', hat'⟩, hrest'⟩ := h'
    rcases List.mem_cons.mp hb with rfl | hb
    · have hsame : a'.exitsAt finish b rest next around = a.exitsAt finish b rest next around := by
        unfold Arena.exitsAt
        rw [hjump b List.mem_cons_self]
      rw [hat, hat', Except.ok.injEq] at hsame
      rw [hexits, hexits', hsame]
    · exact ih hrest hrest' (fun b hb => hjump b (List.mem_cons_of_mem _ hb)) hb
  | branch c yes no rest ihy ihn ihr =>
    obtain ⟨follow, hfollow, hyes, hno, hrest⟩ := h
    obtain ⟨follow', hfollow', hyes', hno', hrest'⟩ := h'
    cases hfollow.symm.trans hfollow'
    simp only [preorder, List.mem_append] at hb hjump
    rcases hb with (hb | hb) | hb
    · exact ihy hyes hyes' (fun b hb => hjump b (.inl (.inl hb))) hb
    · exact ihn hno hno' (fun b hb => hjump b (.inl (.inr hb))) hb
    · exact ihr hrest hrest' (fun b hb => hjump b (.inr hb)) hb
  | loop c body rest ihb ihr =>
    obtain ⟨follow, header, hfollow, hheader, hbody, hrest⟩ := h
    obtain ⟨follow', header', hfollow', hheader', hbody', hrest'⟩ := h'
    cases hfollow.symm.trans hfollow'
    cases hheader.symm.trans hheader'
    simp only [preorder, List.mem_append] at hb hjump
    rcases hb with hb | hb
    · exact ihb hbody hbody' (fun b hb => hjump b (.inl hb)) hb
    · exact ihr hrest hrest' (fun b hb => hjump b (.inr hb)) hb

theorem JumpKind.of_target_eq_ok (h : kind.target finish around = .ok t) :
    kind = .leaveFunction ∨ around.isSome = true ∧ (kind = .leaveLoop ∨ kind = .nextIteration) := by
  cases kind <;> cases around <;> simp_all [JumpKind.target, except_bind_eq_ok]

/-- The jumps of a linked region lead somewhere. -/
theorem Region.Linked.jumpsFit (h : r.Linked a finish next around) :
    r.JumpsFit a around.isSome := by
  induction r generalizing next around with
  | done => trivial
  | block c rest ih =>
    obtain ⟨⟨exits, -, hat⟩, hrest⟩ := h
    refine ⟨?_, ih hrest⟩
    simp only [Arena.exitsAt, except_bind_eq_ok] at hat
    obtain ⟨follow, -, jump, hjump, hat⟩ := hat
    refine ⟨jump, by simp [hjump, Except.toOption], fun q hq => ?_⟩
    rw [Option.mem_def.mp hq] at hat
    simp only [except_bind_eq_ok] at hat
    obtain ⟨t, ht, -⟩ := hat
    exact JumpKind.of_target_eq_ok ht
  | branch c yes no rest ihy ihn ihr =>
    obtain ⟨follow, -, hyes, hno, hrest⟩ := h
    exact ⟨ihy hyes, ihn hno, ihr hrest⟩
  | loop c body rest ihb ihr =>
    obtain ⟨follow, header, -, -, hbody, hrest⟩ := h
    exact ⟨ihb hbody, ihr hrest⟩

namespace Edit

/-- Computing edges changes edges at most, and those of other blocks only where edges lead. -/
theorem relink_blocks {y : Unit} (hg : a.functions[f.idx]? = some g)
    (hregion : a.bodyRegion f = .ok region) (hnodup : region.preorder.Nodup)
    (h : relink f a = .ok y a') (b : BlockId) :
    ∃ k : Block → Block, a'.blocks[b.idx]? = (a.blocks[b.idx]?).map k
      ∧ ∀ bb, a.blocks[b.idx]? = some bb → { k bb with exits := bb.exits, preds := bb.preds } = bb
        ∧ (b ∉ region.blocks ++ [g.finish] → (k bb).exits = bb.exits
          ∧ (k bb).preds = bb.preds ++ a'.predsIn (region.blocks ++ [g.finish]) b) := by
  obtain ⟨a₁, a₂, a₃, h1, h2, h3, rfl⟩ := (relink_eq_ok hg hregion).mp h
  obtain ⟨-, hblocks₁⟩ := clearEdges_spec h1
  obtain ⟨-, hblocks₃, -⟩ := linkPreds_spec h3
  obtain ⟨hrew, -⟩ := linkRegion_spec hnodup (fun c hc cb hcb => by
    rw [hblocks₁, if_pos (by simp [Region.blocks_eq_preorder, hc]), Option.map_eq_some_iff] at hcb
    obtain ⟨_, -, rfl⟩ := hcb
    rfl) h2
  obtain ⟨e, he⟩ := hrew.block b
  have hpreds : a₂.predsIn (region.blocks ++ [g.finish]) b
      = a₃.predsIn (region.blocks ++ [g.finish]) b := by
    simp only [Arena.predsIn, exitsOf_of_preds hblocks₃]
  have hthree : (a₃.modifyFunction f fun g => { g with valid := .none, dominance := none }).blocks
      = a₃.blocks := rfl
  rw [hthree, hblocks₃, he, hblocks₁]
  by_cases hmem : b ∈ region.blocks ++ [g.finish]
  · rw [if_pos hmem, Option.map_map, Option.map_map]
    exact ⟨_, rfl, fun bb _ => ⟨rfl, fun hnot => absurd hmem hnot⟩⟩
  · rw [if_neg hmem, Option.map_map]
    refine ⟨_, rfl, fun bb hbb => ⟨rfl, fun _ => ⟨?_, ?_⟩⟩⟩
    · -- Exits are set in the region only.
      have hother := hrew.other b fun hb => hmem (by simp [Region.blocks_eq_preorder, hb])
      rw [he, hblocks₁, if_neg hmem, hbb] at hother
      simpa using hother
    · rw [Function.comp_apply, hpreds]
      rfl

end Edit

/-- Edges that are those of the region are those that are computed. -/
theorem Arena.Edged.edgesCurrent (h : a.Edged region g.finish) (hg : a.functions[f.idx]? = some g)
    (hregion : a.bodyRegion f = .ok region) (hnodup : (region.blocks ++ [g.finish]).Nodup)
    (hstructured : region.Structured) (hfinish : (a.blocks[g.finish.idx]?).isSome = true) :
    a.EdgesCurrent f := by
  obtain ⟨a₁, hrun⟩ := Edit.exists_relink hg hregion hfinish hstructured h.linked.jumpsFit
  obtain ⟨hedged, hjump, -⟩ := Edit.relink_spec hg hregion hnodup hrun
  have hpre : region.preorder.Nodup := by
    rw [Region.blocks_eq_preorder] at hnodup
    exact (List.nodup_append'.mp hnodup).1
  have hexits {c : BlockId} (hc : c ∈ region.blocks ++ [g.finish]) : a₁.exitsOf c = a.exitsOf c := by
    rcases List.mem_append.mp hc with hc | hc
    · have hsame := h.linked.exits_eq hedged.linked (fun b _ => hjump b)
        (Region.blocks_eq_preorder region ▸ hc)
      unfold exitsOf
      cases hb : a.blocks[c.idx]? <;> cases hb' : a₁.blocks[c.idx]? <;> simp_all
    · rw [List.mem_singleton.mp hc, hedged.ends, h.ends]
  have hpreds (t : BlockId) : a₁.predsIn (region.blocks ++ [g.finish]) t
      = a.predsIn (region.blocks ++ [g.finish]) t :=
    List.flatMap_congr fun c hc => by rw [hexits hc]
  refine ⟨a₁, hrun, Array.ext_getElem? fun n => ?_⟩
  obtain ⟨k, hk, hsame⟩ := Edit.relink_blocks hg hregion hpre hrun ⟨n⟩
  cases hbb : a.blocks[n]? with
  | none => rw [hk, hbb, Option.map_none]
  | some bb =>
    obtain ⟨hrest, houtside⟩ := hsame bb hbb
    have hnew : a₁.blocks[n]? = some (k bb) := by rw [hk, hbb, Option.map_some]
    have hedges : (k bb).exits = bb.exits ∧ (k bb).preds = bb.preds := by
      by_cases hmem : (⟨n⟩ : BlockId) ∈ region.blocks ++ [g.finish]
      · refine ⟨by simpa [exitsOf, hnew, hbb] using hexits hmem, ?_⟩
        rw [hedged.preds ⟨n⟩ hmem _ hnew, h.preds ⟨n⟩ hmem bb hbb, hpreds]
      · obtain ⟨hexit, hpred⟩ := houtside hmem
        refine ⟨hexit, ?_⟩
        -- No edge leads out of the function.
        have hnone : a₁.predsIn (region.blocks ++ [g.finish]) ⟨n⟩ = [] := by
          rw [predsIn, List.flatMap_eq_nil_iff]
          intro c hc
          rw [List.replicate_eq_nil_iff, List.count_eq_zero]
          intro hmem'
          cases hcb : a₁.blocks[c.idx]? with
          | none => simp [exitsOf, hcb, Exits.toList] at hmem'
          | some cb =>
            exact hmem (hedged.flows_closed hc ⟨cb, hcb, by simpa [exitsOf, hcb] using hmem'⟩)
        rw [hpred, hnone, List.append_nil]
    rw [hnew, Option.some.injEq]
    refine Eq.trans ?_ hrest
    rw [← hedges.1, ← hedges.2]

/-- Edges are those of the region as long as blocks keep their edges and jumps. -/
theorem Arena.Edged.congr (h : a.Edged region finish)
    (hblock : ∀ c ∈ region.blocks ++ [finish], ∃ cb cb', a.blocks[c.idx]? = some cb
      ∧ a'.blocks[c.idx]? = some cb' ∧ cb'.preds = cb.preds ∧ cb'.exits = cb.exits)
    (hjump : ∀ c ∈ region.preorder, a'.jumpOf c = a.jumpOf c) : a'.Edged region finish := by
  have hexits {c : BlockId} (hc : c ∈ region.blocks ++ [finish]) : a'.exitsOf c = a.exitsOf c := by
    obtain ⟨cb, cb', hcb, hcb', -, hexits⟩ := hblock c hc
    simp [exitsOf, hcb, hcb', hexits]
  refine ⟨h.linked.congr (fun c hc => ?_) hjump, ?_, fun t ht bb' hbb' => ?_⟩
  · obtain ⟨cb, cb', hcb, hcb', -, hexits⟩ :=
      hblock c (List.mem_append_left _ (Region.blocks_eq_preorder region ▸ hc))
    rw [hcb, hcb', Option.map_some, Option.map_some, hexits]
  · rw [hexits (by simp), h.ends]
  · obtain ⟨tb, tb', htb, htb', hpreds, -⟩ := hblock t ht
    cases hbb'.symm.trans htb'
    rw [hpreds, h.preds t ht tb htb]
    exact List.flatMap_congr fun c hc => by rw [hexits hc]

theorem Arena.jumpOf_code (a : Arena) (b : BlockId) : a.code.jumpOf b = a.jumpOf b := by
  unfold jumpOf block
  rw [code_blocks]
  cases a.blocks[b.idx]? with
  | none => rfl
  | some bb =>
    simp only [Option.map_some, present, bind, Except.bind, Block.bare, instr_code]
    cases bb.instrs.getLast? with
    | none => rfl
    | some i =>
      dsimp only
      cases a.instr i <;> rfl

/-- Whether edges are current is a matter of the code. -/
theorem Arena.EdgesCurrent.of_code (he : a.EdgesCurrent f) (hg : a'.functions[f.idx]? = some g)
    (hregion : a'.bodyRegion f = .ok region) (hnodup : (region.blocks ++ [g.finish]).Nodup)
    (hstructured : region.Structured)
    (hpresent : ∀ b ∈ region.blocks ++ [g.finish], ∃ bb, a'.blocks[b.idx]? = some bb)
    (hcode : a'.code = a.code) : a'.EdgesCurrent f := by
  have hback : Evolves (a'.scopeOf f) a' a := .of_code hcode.symm
  obtain ⟨g₀, hg₀, -, hfinish, -⟩ := hback.exists_function hg
  have hedged := he.edged hg₀ ((hback.bodyRegion_eq hg).trans hregion) (hfinish ▸ hnodup)
  rw [hfinish] at hedged
  obtain ⟨fb, hfb⟩ := hpresent g.finish (by simp)
  refine (hedged.congr (fun c hc => ?_) fun c _ => ?_).edgesCurrent hg hregion hnodup hstructured
    (by rw [hfb, Option.isSome_some])
  · obtain ⟨cb', hcb'⟩ := hpresent c hc
    obtain ⟨cb, hcb, -, hpreds, hexits, -⟩ := hback.block c cb' hcb'
    exact ⟨cb, cb', hcb, hcb', hpreds.symm, hexits.symm⟩
  · rw [← jumpOf_code, hcode, jumpOf_code]

/-! ### Passes that leave the jumps -/

namespace Arena

theorem jumpOf_of_getLast? {i : InstrId} {ins : Instr}
    (hbb : a.blocks[b.idx]? = some bb) (hlast : bb.instrs.getLast? = some i)
    (hins : a.instrs[i.idx]? = some ins) (hact : ins.action = .jump kind) :
    a.jumpOf b = .ok (some (i, kind)) := by
  simp only [jumpOf, except_bind_eq_ok, block_eq_ok]
  refine ⟨bb, hbb, ?_⟩
  simp only [hlast, except_bind_eq_ok, instr_eq_ok, except_pure_eq_ok]
  exact ⟨ins, hins, by simp [Instr.jump?, hact]⟩

theorem jumpOf_of_forall_ne (hbb : a.blocks[b.idx]? = some bb)
    (hnone : ∀ i ∈ bb.instrs, ∃ ins, a.instrs[i.idx]? = some ins ∧ ∀ kind, ins.action ≠ .jump kind) :
    a.jumpOf b = .ok none := by
  simp only [jumpOf, except_bind_eq_ok, block_eq_ok]
  refine ⟨bb, hbb, ?_⟩
  cases hlast : bb.instrs.getLast? with
  | none => rfl
  | some i =>
    obtain ⟨ins, hins, hne⟩ := hnone i (List.mem_of_getLast? hlast)
    simp only [except_bind_eq_ok, instr_eq_ok, except_pure_eq_ok]
    refine ⟨ins, hins, ?_⟩
    cases hact : ins.action with
    | jump kind => exact absurd hact (hne kind)
    | _ => simp [Instr.jump?, hact]

namespace Upholds

variable (h : Upholds a a' f region) (hr : a.Obeys f g region) (hdistinct : a.InstrsDistinct f)
  (hleft : ∀ b ∈ (a.scopeOf f).blocks, ∀ i ∈ a.body b, ∀ ins kind, a.instrs[i.idx]? = some ins →
    ins.action = .jump kind → i ∈ a'.body b)

include h hr hdistinct hleft

/-- Jumps that are left stand at the ends of their blocks. -/
theorem jumpOf_eq (hb : b ∈ (a.scopeOf f).blocks) : a'.jumpOf b = a.jumpOf b := by
  obtain ⟨bb, hbb⟩ := hr.wired.block b hb
  obtain ⟨bb', hbb', hsub, -⟩ := h.evolves.block b bb hbb
  have hbody := body_of_block hbb
  have hinstr {i : InstrId} (hi : i ∈ bb.instrs) : ∃ ins ins', a.instrs[i.idx]? = some ins
      ∧ a'.instrs[i.idx]? = some ins' ∧ ins'.action = ins.action := by
    obtain ⟨ins, hins⟩ := hr.wired.instr b hb i (hbody ▸ hi)
    obtain ⟨ins', hins', hact, -⟩ := h.evolves.instr i ins hins
    exact ⟨ins, ins', hins, hins', hact⟩
  by_cases hjump : ∃ i ∈ bb.instrs, ∃ ins kind, a.instrs[i.idx]? = some ins
      ∧ ins.action = .jump kind
  · obtain ⟨i, hi, ins, kind, hins, hact⟩ := hjump
    obtain ⟨bb₀, ins₀, hbb₀, hins₀, -, hfits⟩ := hr.fits b hb i (hbody ▸ hi)
    cases hbb.symm.trans hbb₀
    cases hins.symm.trans hins₀
    rw [hact] at hfits
    have hlast : bb.instrs.getLast? = some i := hfits
    have hi' := hleft b hb i (hbody ▸ hi) ins kind hins hact
    obtain ⟨_, ins', hins₁, hins', hact'⟩ := hinstr hi
    cases hins.symm.trans hins₁
    rw [jumpOf_of_getLast? hbb hlast hins hact]
    refine jumpOf_of_getLast? hbb' ?_ hins' (hact'.trans hact)
    exact getLast?_of_sublist hsub (hbody ▸ hdistinct.nodup_body hb) (body_of_block hbb' ▸ hi') hlast
  · have hne {i : InstrId} (hi : i ∈ bb.instrs) {ins : Instr} (hins : a.instrs[i.idx]? = some ins)
        (kind : JumpKind) : ins.action ≠ .jump kind :=
      fun hact => hjump ⟨i, hi, ins, kind, hins, hact⟩
    rw [jumpOf_of_forall_ne hbb fun i hi => by
        obtain ⟨ins, -, hins, -⟩ := hinstr hi
        exact ⟨ins, hins, hne hi hins⟩,
      jumpOf_of_forall_ne hbb' fun i hi => by
        obtain ⟨ins, ins', hins, hins', hact⟩ := hinstr (hsub.subset hi)
        exact ⟨ins', hins', fun kind => hact ▸ hne (hsub.subset hi) hins kind⟩]

/-- A pass that leaves the jumps keeps edges current. -/
theorem edgesCurrent (he : a.EdgesCurrent f) : a'.EdgesCurrent f := by
  obtain ⟨g', hg', -, hfinish, -⟩ := h.evolves.exists_function hr.function
  have hedged := he.edged hr.function hr.bodyRegion hr.nodup
  have hmem {c : BlockId} (hc : c ∈ region.blocks ++ [g.finish]) : c ∈ (a.scopeOf f).blocks := by
    simpa [scopeOf, (blocksOf_eq_ok hr.function hr.bodyRegion).mpr rfl, Except.toOption] using hc
  have hblock : ∀ c ∈ region.blocks ++ [g.finish], ∃ cb cb', a.blocks[c.idx]? = some cb
      ∧ a'.blocks[c.idx]? = some cb' ∧ cb'.preds = cb.preds ∧ cb'.exits = cb.exits := by
    intro c hc
    obtain ⟨cb, hcb⟩ := hr.wired.block c (hmem hc)
    obtain ⟨cb', hcb', -, hpreds, hexits, -⟩ := h.evolves.block c cb hcb
    exact ⟨cb, cb', hcb, hcb', hpreds, hexits⟩
  have hedged' := hedged.congr hblock fun c hc => h.jumpOf_eq hr hdistinct hleft
    (hmem (List.mem_append_left _ (Region.blocks_eq_preorder region ▸ hc)))
  rw [← hfinish] at hedged'
  obtain ⟨fb, fb', -, hfb', -⟩ := hblock g.finish (by simp)
  refine hedged'.edgesCurrent hg' ((h.evolves.bodyRegion_eq hr.function).trans hr.bodyRegion)
    (hfinish ▸ hr.nodup) hr.shaped.2.structured ?_
  rw [hfinish, hfb', Option.isSome_some]

end Upholds

end Arena

end ShaderCompiler
