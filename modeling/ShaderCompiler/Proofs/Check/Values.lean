import ShaderCompiler.Proofs.Check.Shape

/-!
# Values that obey the rules

The second half of the check looks at instructions, sources, conditions and use-lists, one
after the other. Each of its parts finds nothing exactly if a predicate holds of the thing it
looks at, and then leaves the arena as it is. The predicates say what the part checks and no
more: whether a use that a value lists reads that value is not among it.

Dominance is asked of the tree that a function has cached. `Arena.Precedes` is the answer that
makes a reading acceptable: the place can not be reached, or its block is the one of the
definition and the reader comes later, or the block of the definition dominates the place.
-/

namespace ShaderCompiler

variable {i : InstrId} {count : Int} {defs defs' : Definitions}

variable {a a' : Arena}

namespace Arena

/-- The definitions of an instruction. -/
def definitionsOf (a : Arena) (i : InstrId) : List (Option ValueId) :=
  (a.instrs[i.idx]?).elim [] (·.definitions)

/-- An arithmetic instruction has the sources and the width its operation asks for. -/
def AluFits (a : Arena) (p : Alu) : Prop :=
  ∃ info, p.op.info = .ok info ∧ p.srcs.length = info.inputs.length ∧
    (info.output ≠ 0 → ∃ d x, p.dest = some d ∧ a.values[d.idx]? = some x ∧ x.comps = info.output)

/-- A φ stands before all other instructions and has a source for each predecessor. -/
def PhiFits (a : Arena) (bb : Block) (i : InstrId) (srcs : List (BlockId × UseId)) : Prop :=
  (∀ j ∈ bb.instrs.takeWhile (· ≠ i), ∃ ins, a.instrs[j.idx]? = some ins ∧ ins.isPhi = true)
    ∧ srcs.length = bb.preds.length ∧ ∀ p ∈ bb.preds, (phiSourceFor srcs p).isSome = true

/-- What the kind of an instruction asks for at its place. -/
def ActionFits (a : Arena) (bb : Block) (i : InstrId) : Action → Prop
  | .phi _ srcs => a.PhiFits bb i srcs
  | .jump _ => bb.instrs.getLast? = some i
  | .alu p => a.AluFits p
  | _ => True

/-- An instruction knows its block and stands where its kind may stand. -/
def InstrFits (a : Arena) (b : BlockId) (i : InstrId) : Prop :=
  ∃ bb ins, a.blocks[b.idx]? = some bb ∧ a.instrs[i.idx]? = some ins ∧ ins.block = some b
    ∧ a.ActionFits bb i ins.action

/-- A value points to the instruction that defines it and has a number in range. -/
def Defines (a : Arena) (count : Int) (i : InstrId) (v : ValueId) : Prop :=
  ∃ x, a.values[v.idx]? = some x ∧ x.definedBy = some i ∧ 0 ≤ x.index ∧ x.index < count

end Arena

namespace Edit

theorem passes_aluProblems {p : Alu} : (aluProblems i p).Passes a (a.AluFits p) := by
  refine (passes_liftM fun info _ => passes_unless (passes_ite passes_nil
    (passes_liftM fun d _ => passes_look fun x _ => passes_problemIf))).congr ?_
  simp only [Arena.AluFits, present_eq_ok, Arena.value_eq_ok]
  grind

theorem mapM_instr_eq_ok {l : List InstrId} {t : Instr → Bool} :
    (∃ ys, (l.mapM fun j => look (·.instr j)) a = .ok ys a' ∧ ys.all t = true) ↔
      (∀ j ∈ l, ∃ ins, a.instrs[j.idx]? = some ins ∧ t ins = true) ∧ a = a' := by
  induction l with
  | nil => simp [pure_eq_ok]
  | cons j l ih =>
    simp only [List.mapM_cons, bind_eq_ok, look_eq_ok, pure_eq_ok, Arena.instr_eq_ok,
      List.mem_cons, forall_eq_or_imp]
    constructor
    · rintro ⟨_, ⟨ins, _, ⟨hins, rfl⟩, zs, _, hl, rfl, rfl⟩, hall⟩
      rw [List.all_cons, Bool.and_eq_true] at hall
      obtain ⟨hrest, rfl⟩ := ih.mp ⟨zs, hl, hall.2⟩
      exact ⟨⟨⟨ins, hins, hall.1⟩, hrest⟩, rfl⟩
    · rintro ⟨⟨⟨ins, hins, htest⟩, hrest⟩, rfl⟩
      obtain ⟨zs, hzs, hall⟩ := ih.mpr ⟨hrest, rfl⟩
      exact ⟨ins :: zs, ⟨ins, a, ⟨hins, rfl⟩, zs, a, hzs, rfl, rfl⟩, by simp [htest, hall]⟩

theorem passes_phiProblems {bb : Block} {srcs : List (BlockId × UseId)} :
    (phiProblems bb i srcs).Passes a (a.PhiFits bb i srcs) := by
  -- A predecessor without a source would be a finding.
  have hmissing {x : BlockId → Edit Problem} :
      ((bb.preds.filter fun p => (phiSourceFor srcs p).isNone).mapM x).Passes a
        (∀ p ∈ bb.preds, (phiSourceFor srcs p).isSome = true) := by
    cases hf : bb.preds.filter fun p => (phiSourceFor srcs p).isNone with
    | nil =>
      refine passes_nil.congr ?_
      simpa [List.filter_eq_nil_iff, ← Option.isSome_iff_ne_none] using hf
    | cons p ps =>
      obtain ⟨hp, hnone⟩ := List.mem_filter.mp (hf ▸ List.mem_cons_self : p ∈ _)
      refine (Reports.passes (by simp [Reports])).congr ⟨False.elim, fun h => ?_⟩
      simp [Option.isSome_iff_ne_none.mp (h p hp)] at hnone
  refine (passes_read (S := fun earlier => ((bb.instrs.takeWhile (· ≠ i)).mapM fun j =>
    look (·.instr j)) a = .ok earlier a) (fun earlier a' => ⟨fun hmap => ?_, fun h => h.2 ▸ h.1⟩)
      fun earlier _ => passes_problemIf.bind (passes_problemIf.bind hmissing.append)).congr ⟨?_, ?_⟩
  · obtain ⟨-, rfl⟩ := (mapM_instr_eq_ok (t := fun _ => true)).mp ⟨earlier, hmap, by simp⟩
    exact ⟨hmap, rfl⟩
  · rintro ⟨earlier, hmap, hphi, hlen, hsrc⟩
    exact ⟨(mapM_instr_eq_ok.mp ⟨earlier, hmap, by simpa using hphi⟩).1, not_not.mp hlen, hsrc⟩
  · rintro ⟨hphi, hlen, hsrc⟩
    obtain ⟨earlier, hmap, hall⟩ := mapM_instr_eq_ok.mpr ⟨hphi, rfl⟩
    exact ⟨earlier, hmap, by simp [hall], not_not.mpr hlen, hsrc⟩

theorem passes_placeProblems {b : BlockId} :
    (placeProblems b i).Passes a (a.InstrFits b i) := by
  refine (passes_look fun bb _ => passes_look fun ins _ =>
    passes_problemIf.bind (Q := a.ActionFits bb i ins.action) ?_ ?_).congr ?_
  · cases ins.action with
    | phi _ srcs => exact passes_phiProblems.append
    | jump _ => exact (passes_problemIf.congr not_not).append
    | alu p => exact passes_aluProblems.append
    | _ => exact passes_nil
  · intro l hl
    cases ins.action <;> simp [Reports, hl]
  · simp only [Arena.InstrFits, Arena.block_eq_ok, Arena.instr_eq_ok, not_not]
    grind

/-! ### Definitions -/

theorem passes_definitionProblems {d : Option ValueId} :
    (definitionProblems count i defs d).Passes a
      (∃ v, d = some v ∧ a.Defines count i v ∧ defs.lookup v = none) := by
  cases d with
  | none => exact (Reports.passes (by simp [Reports, definitionProblems])).congr (by simp)
  | some v =>
    refine (passes_look (R := fun x => defs.lookup v = none ∧ x.definedBy = some i
      ∧ 0 ≤ x.index ∧ x.index < count) fun x _ => ?_).congr ?_
    · cases hl : defs.lookup v with
      | some j => exact (Reports.passes (by simp [Reports])).congr (by simp)
      | none =>
        refine (passes_unless passes_problemIf).congr ?_
        grind
    · simp only [Arena.value_eq_ok, Arena.Defines]
      grind

theorem lookup_eq_none {v : ValueId} :
    defs.lookup v = none ↔ v ∉ defs.map Prod.fst := by
  rw [List.lookup_eq_none_iff]
  constructor
  · intro h hv
    obtain ⟨d, hd, rfl⟩ := List.mem_map.mp hv
    simpa using h d hd
  · intro h d hd
    refine bne_iff_ne.mpr fun hv => h ?_
    exact hv ▸ List.mem_map_of_mem hd

/-- Entering definitions without a problem lists them, and none of them is known before. -/
theorem enterDefinitions_eq_ok
    {ds : List (Option ValueId)} :
    enterDefinitions count i defs ds a = .ok ([], defs') a' ↔
      (∃ vs : List ValueId, ds = vs.map some ∧ defs' = defs ++ vs.map (·, i)
        ∧ (∀ v ∈ vs, a.Defines count i v ∧ v ∉ defs.map Prod.fst) ∧ vs.Nodup) ∧ a = a' := by
  induction ds generalizing defs with
  | nil =>
    simp only [enterDefinitions, pure_eq_ok, Prod.mk.injEq, true_and]
    constructor
    · rintro ⟨rfl, rfl⟩
      exact ⟨⟨[], by simp⟩, rfl⟩
    · rintro ⟨⟨vs, hvs, rfl, -⟩, rfl⟩
      obtain rfl : vs = [] := by simpa using hvs.symm
      simp
  | cons d ds ih =>
    simp only [enterDefinitions, bind_eq_ok, pure_eq_ok, Prod.mk.injEq, List.append_eq_nil_iff]
    constructor
    · rintro ⟨here, _, h1, ⟨there, defs''⟩, _, h2, ⟨⟨rfl, rfl⟩, rfl⟩, rfl⟩
      obtain ⟨⟨v, rfl, hv, hnone⟩, rfl⟩ := (passes_definitionProblems _).mp h1
      obtain ⟨⟨vs, rfl, rfl, hvs, hnodup⟩, rfl⟩ := ih.mp h2
      simp only [List.isEmpty_nil, ↓reduceIte, Option.toList_some, List.map_cons, List.map_nil,
        List.map_append, List.mem_append, List.mem_singleton, not_or] at hvs ⊢
      refine ⟨⟨v :: vs, rfl, by simp, fun w hw => ?_, ?_⟩, trivial⟩
      · rcases List.mem_cons.mp hw with rfl | hw
        · exact ⟨hv, lookup_eq_none.mp hnone⟩
        · exact ⟨(hvs w hw).1, (hvs w hw).2.1⟩
      · exact List.nodup_cons.mpr ⟨fun hm => (hvs v hm).2.2 rfl, hnodup⟩
    · rintro ⟨⟨vs, hvs, rfl, hall, hnodup⟩, rfl⟩
      cases vs with
      | nil => simp at hvs
      | cons v vs =>
        obtain ⟨rfl, rfl⟩ := by simpa using hvs
        obtain ⟨hv, hnone⟩ := hall v List.mem_cons_self
        obtain ⟨hnot, hnodup⟩ := List.nodup_cons.mp hnodup
        refine ⟨[], a, (passes_definitionProblems a).mpr
          ⟨⟨v, rfl, hv, lookup_eq_none.mpr hnone⟩, rfl⟩, ([], _), a, ih.mpr ⟨⟨vs, rfl, by simp,
            fun w hw => ⟨(hall w (List.mem_cons_of_mem _ hw)).1, ?_⟩, hnodup⟩, rfl⟩, by simp⟩
        simp only [List.isEmpty_nil, ↓reduceIte, Option.toList_some, List.map_cons, List.map_nil,
          List.map_append, List.mem_append, List.mem_singleton, not_or]
        exact ⟨(hall w (List.mem_cons_of_mem _ hw)).2, fun h => hnot (h ▸ hw)⟩

/-- The list of definitions is that of the instructions in order, and has no value twice. -/
structure Lists (a : Arena) (count : Int) (instrs : List (BlockId × InstrId))
    (defs : Definitions) : Prop where
  eq : defs.map (fun d => (some d.1, d.2)) =
    instrs.flatMap fun p => (a.definitionsOf p.2).map (·, p.2)
  defines : ∀ d ∈ defs, a.Defines count d.2 d.1
  nodup : (defs.map Prod.fst).Nodup

theorem instrProblems_eq_ok
    {instrs : List (BlockId × InstrId)} :
    instrProblems count defs instrs a = .ok ([], defs') a' ↔
      (∃ new, defs' = defs ++ new ∧ Lists a count instrs new
        ∧ (∀ p ∈ instrs, a.InstrFits p.1 p.2) ∧ ∀ d ∈ new, d.1 ∉ defs.map Prod.fst)
        ∧ a = a' := by
  induction instrs generalizing defs with
  | nil =>
    simp only [instrProblems, pure_eq_ok, Prod.mk.injEq, true_and]
    constructor
    · rintro ⟨rfl, rfl⟩
      exact ⟨⟨[], by simp, ⟨rfl, by simp, by simp⟩, by simp, by simp⟩, rfl⟩
    · rintro ⟨⟨new, rfl, hnew, -⟩, rfl⟩
      obtain rfl : new = [] := by simpa using hnew.eq
      simp
  | cons p instrs ih =>
    obtain ⟨b, i⟩ := p
    simp only [instrProblems, bind_eq_ok, look_eq_ok, pure_eq_ok, Prod.mk.injEq,
      List.append_eq_nil_iff, Arena.instr_eq_ok]
    constructor
    · rintro ⟨place, _, h1, ins, _, ⟨hins, rfl⟩, ⟨here, defs₁⟩, _, h2, ⟨there, defs₂⟩, _, h3,
        ⟨⟨⟨rfl, rfl⟩, rfl⟩, rfl⟩, rfl⟩
      obtain ⟨hfits, rfl⟩ := (passes_placeProblems _).mp h1
      obtain ⟨⟨vs, hvs, rfl, hdef, hnodup⟩, rfl⟩ := enterDefinitions_eq_ok.mp h2
      obtain ⟨⟨new, rfl, hnew, hrest, hfresh⟩, rfl⟩ := ih.mp h3
      simp only [List.map_append, List.mem_append, List.map_map, not_or] at hfresh
      refine ⟨⟨vs.map (·, i) ++ new, by simp, ⟨?_, fun d hd => ?_, ?_⟩, fun q hq => ?_,
        fun d hd => ?_⟩, rfl⟩
      · simp [hnew.eq, Arena.definitionsOf, hins, hvs, Function.comp_def]
      · rcases List.mem_append.mp hd with hd | hd
        · obtain ⟨v, hv, rfl⟩ := List.mem_map.mp hd
          exact (hdef v hv).1
        · exact hnew.defines d hd
      · rw [List.map_append, List.map_map]
        refine List.nodup_append.mpr ⟨by simpa [Function.comp_def] using hnodup, hnew.nodup, ?_⟩
        rintro v hv w hw rfl
        obtain ⟨d, hd, rfl⟩ := List.mem_map.mp hw
        exact (hfresh d hd).2 hv
      · rcases List.mem_cons.mp hq with rfl | hq
        · exact hfits
        · exact hrest q hq
      · rcases List.mem_append.mp hd with hd | hd
        · obtain ⟨v, hv, rfl⟩ := List.mem_map.mp hd
          exact (hdef v hv).2
        · exact (hfresh d hd).1
    · rintro ⟨⟨new, rfl, hnew, hfits, hfresh⟩, rfl⟩
      obtain ⟨bb, ins, hbb, hins, hplace, hact⟩ := hfits (b, i) List.mem_cons_self
      have heq := hnew.eq
      simp only [List.flatMap_cons, Arena.definitionsOf, hins, Option.elim_some] at heq
      -- The first instruction accounts for the first entries of the list.
      obtain ⟨first, later, rfl, hfirst, hlater⟩ := List.map_eq_append_iff.mp heq
      have hsplit : first = (first.map Prod.fst).map (·, i) := by
        rw [List.map_map]
        refine (List.map_id first).symm.trans (List.map_congr_left fun d hd => ?_)
        have : (some d.1, d.2) ∈ ins.definitions.map (·, i) :=
          hfirst ▸ List.mem_map_of_mem hd
        obtain ⟨_, -, h⟩ := List.mem_map.mp this
        exact Prod.ext rfl (Prod.mk.inj h).2.symm
      have hdefs : ins.definitions = (first.map Prod.fst).map some := by
        have := congrArg (List.map Prod.fst) hfirst
        simpa [Function.comp_def] using this.symm
      have hnodup := hnew.nodup
      rw [List.map_append] at hnodup
      obtain ⟨hn1, hn2, hdisj⟩ := List.nodup_append.mp hnodup
      have hkeys : (first.map Prod.fst).map (·, i) = first := hsplit.symm
      refine ⟨[], a, (passes_placeProblems a).mpr ⟨⟨bb, ins, hbb, hins, hplace, hact⟩, rfl⟩, ins, a,
        ⟨hins, rfl⟩, ([], defs ++ first), a, enterDefinitions_eq_ok.mpr
          ⟨⟨first.map Prod.fst, hdefs, by rw [hkeys], fun v hv => ?_, hn1⟩, rfl⟩,
        ([], defs ++ (first ++ later)), a, ih.mpr ⟨⟨later, by simp, ⟨hlater, fun d hd =>
          hnew.defines d (List.mem_append_right _ hd), hn2⟩, fun q hq =>
          hfits q (List.mem_cons_of_mem _ hq), fun d hd => ?_⟩, rfl⟩, by simp⟩
      · obtain ⟨d, hd, rfl⟩ := List.mem_map.mp hv
        have hi : d.2 = i := by
          rw [hsplit] at hd
          obtain ⟨_, -, rfl⟩ := List.mem_map.mp hd
          rfl
        have hm := List.mem_append_left later hd
        exact ⟨hi ▸ hnew.defines d hm, hfresh d hm⟩
      · rw [List.map_append, List.mem_append, not_or]
        exact ⟨hfresh d (List.mem_append_right _ hd), fun h =>
          hdisj _ h _ (List.mem_map_of_mem hd) rfl⟩

end Edit

end ShaderCompiler
