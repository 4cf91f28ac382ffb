import ShaderCompiler.Proofs.Forwarding.Order

/-!
# What forwarding leaves

A run leaves no use of a copy that could look through the copy. So another run finds nothing to do:
it asks every use of every copy, is told no, and changes nothing.
-/

namespace ShaderCompiler

variable {srcs : List (Option UseId)} {r : Bool}

namespace Arena

variable {a a' : Arena} {Ts : List Scope} {T : Scope} {U : UseId → Prop} {f : FunctionId}
  {b : BlockId} {i : InstrId} {p : Alu} {d v : ValueId} {u : UseId} {use : Use}

/-! ### Uses that could look through a copy -/

/-- A use is a source of an arithmetic instruction. -/
def AluSource (a : Arena) (u : UseId) : Prop :=
  ∃ use j ins q, a.uses[u.idx]? = some use ∧ use.user = some j ∧ a.instrs[j.idx]? = some ins
    ∧ ins.action = .alu q ∧ some u ∈ q.srcs

/-- All lanes that a use reads of a gathering operation come from one value. -/
def GathersOne (a : Arena) (p : Alu) (u : UseId) (v : ValueId) : Prop :=
  ∃ use n, a.uses[u.idx]? = some use ∧ a.reads u = .ok n ∧ ∀ k < n, ∃ lane src suse,
    use.swizzle[k]? = some lane ∧ p.srcs[lane]? = some (some src)
      ∧ a.uses[src.idx]? = some suse ∧ suse.value = some v

/-- A use could look through a copy: a source of an arithmetic instruction if the copy is a `mov`
or if all lanes it reads come from one value, and another use if the copy reproduces its source. -/
def Foldable (a : Arena) (p : Alu) (u : UseId) : Prop :=
  a.AluSource u ∧ (p.op = .mov ∨ p.op ≠ .mov ∧ ∃ v, a.GathersOne p u v)
    ∨ ¬ a.AluSource u ∧ a.isExactCopy p = .ok true

/-- No source and no condition of a function reads a copy through which it could look. -/
def Folded (a : Arena) (f : FunctionId) : Prop :=
  ∀ b ∈ (a.scopeOf f).blocks, ∀ i ∈ a.body b, ∀ ins p d, a.instrs[i.idx]? = some ins →
    ins.action = .alu p → p.dest = some d → a.movesLanes p = true →
      ∀ u, a.Reads (a.scopeOf f) u → ∀ use, a.uses[u.idx]? = some use → use.value = some d →
        ¬ a.Foldable p u

theorem aluPosition_eq_some {q : Alu} {k : Nat} (h : a.aluPosition u = .ok (some (q, k))) :
    a.AluSource u := by
  simp only [aluPosition, except_bind_eq_ok, use_eq_ok] at h
  obtain ⟨use, huse, h⟩ := h
  cases huser : use.user with
  | none => simp [huser] at h
  | some j =>
    simp only [huser, except_bind_eq_ok, instr_eq_ok] at h
    obtain ⟨ins, hins, h⟩ := h
    cases halu : ins.alu? with
    | none => simp [halu] at h
    | some q' =>
      simp only [halu, except_pure_eq_ok, Option.map_eq_some_iff, Prod.mk.injEq] at h
      obtain ⟨m, hm, rfl, -⟩ := h
      obtain ⟨hlt, heq, -⟩ := List.findIdx?_eq_some_iff_getElem.mp hm
      refine ⟨use, j, ins, q', huse, huser, hins, Instr.alu?_eq_some.mp halu, ?_⟩
      rw [← of_decide_eq_true heq]
      exact List.getElem_mem hlt

theorem aluPosition_eq_none (h : a.aluPosition u = .ok none) : ¬ a.AluSource u := by
  rintro ⟨use, j, ins, q, huse, huser, hins, hact, hmem⟩
  simp only [aluPosition, except_bind_eq_ok, use_eq_ok] at h
  obtain ⟨use', huse', h⟩ := h
  cases huse.symm.trans huse'
  simp only [huser, except_bind_eq_ok, instr_eq_ok] at h
  obtain ⟨ins', hins', h⟩ := h
  cases hins.symm.trans hins'
  simp only [Instr.alu?_eq_some.mpr hact, except_pure_eq_ok, Option.map_eq_none_iff,
    List.findIdx?_eq_none_iff, decide_eq_false_iff_not] at h
  exact h _ hmem rfl

/-- Lanes that all come from one value are found to do so. -/
theorem selectsOneValue_ne_false {s : Swizzle} {l : List Nat}
    (h : ∀ k ∈ l, ∃ lane src suse, s[k]? = some lane ∧ srcs[lane]? = some (some src)
      ∧ a.uses[src.idx]? = some suse ∧ suse.value = some v) :
    a.selectsOneValue srcs s (some v) l ≠ .ok false := by
  induction l with
  | nil => simp [selectsOneValue]
  | cons k l ih =>
    obtain ⟨lane, src, suse, hlane, hsrc, hsuse, hval⟩ := h k List.mem_cons_self
    rw [selectsOneValue]
    simp only [ne_eq, except_bind_eq_ok, lane_eq_ok, entry_eq_ok, present_eq_ok, use_eq_ok, hlane,
      Option.some.injEq, exists_eq_left', hsrc, hsuse, hval, if_true]
    exact ih fun m hm => h m (List.mem_cons_of_mem _ hm)

/-- A use that is found to be stuck could not look through the copy. -/
theorem not_foldable_of_mayTurn (h : a.mayTurn p u = .ok false) : ¬ a.Foldable p u := by
  simp only [mayTurn, except_bind_eq_ok] at h
  obtain ⟨position, hpos, h⟩ := h
  cases position with
  | none =>
    rintro (⟨hsource, -⟩ | ⟨-, hexact⟩)
    · exact aluPosition_eq_none hpos hsource
    · cases h.symm.trans hexact
  | some position =>
    obtain ⟨q, k⟩ := position
    simp only [except_bind_eq_ok] at h
    obtain ⟨n, hn, h⟩ := h
    split at h
    case isTrue => simp at h
    case isFalse hmov =>
      rintro (⟨-, hop | ⟨-, v, use, m, huse, hm, hall⟩⟩ | ⟨hother, -⟩)
      · exact hmov hop
      · obtain rfl : n = m := by
          simp only [reads, hpos, except_bind_eq_ok, Except.ok.injEq, exists_eq_left'] at hm
          exact Except.ok.inj (hn.symm.trans hm)
        simp only [except_bind_eq_ok, use_eq_ok, lane_eq_ok, entry_eq_ok, present_eq_ok] at h
        obtain ⟨use', huse', lane, hlane, s, hs, src, rfl, suse, hsuse, h⟩ := h
        cases huse.symm.trans huse'
        cases n with
        | zero => simp [selectsOneValue] at h
        | succ n =>
          obtain ⟨lane', src', suse', hlane', hsrc', hsuse', hval'⟩ := hall 0 (Nat.succ_pos n)
          cases hlane.symm.trans hlane'
          cases hs.symm.trans hsrc'
          cases hsuse.symm.trans hsuse'
          rw [hval'] at h
          refine selectsOneValue_ne_false (fun k hk => hall k ?_) h
          rw [List.mem_range'_1] at hk
          omega
      · exact hother (aluPosition_eq_some hpos)

theorem anyModified_of_isPlain (hplain : srcs.all a.isPlain = true)
    (h : a.anyModified srcs = .ok r) : r = false := by
  induction srcs with
  | nil => exact (except_pure_eq_ok.mp h).symm
  | cons s srcs ih =>
    obtain ⟨hs, hrest⟩ := Bool.and_eq_true_iff.mp hplain
    simp only [anyModified, except_bind_eq_ok, present_eq_ok, use_eq_ok] at h
    obtain ⟨u, rfl, use, huse, h⟩ := h
    obtain ⟨habs, hneg⟩ : use.absolute = false ∧ use.negated = false := by
      simpa [isPlain, huse] using hs
    simp only [habs, hneg, Bool.or_self, Bool.false_eq_true, if_false] at h
    exact ih hrest h

/-- An operation that only moves lanes is found to be a copy. -/
theorem isCopy_of_movesLanes (hmoves : a.movesLanes p = true) (h : a.isCopy p = .ok r) :
    r = true := by
  simp only [movesLanes, Bool.and_eq_true, Bool.not_eq_true', Bool.or_eq_true,
    decide_eq_true_eq] at hmoves
  obtain ⟨⟨hsat, hop⟩, hplain⟩ := hmoves
  simp only [isCopy, hsat, Bool.false_eq_true, if_false] at h
  split at h
  case isTrue =>
    simp only [except_bind_eq_ok, entry_eq_ok, present_eq_ok, use_eq_ok, except_pure_eq_ok] at h
    obtain ⟨s, hs, u, rfl, use, huse, rfl⟩ := h
    simpa [isPlain, huse] using List.all_eq_true.mp hplain _ (List.mem_of_getElem? hs)
  case isFalse hmov =>
    rw [if_pos (hop.resolve_left hmov)] at h
    simp only [except_bind_eq_ok, except_pure_eq_ok] at h
    obtain ⟨m, hm, rfl⟩ := h
    rw [anyModified_of_isPlain hplain hm]
    rfl

/-- No use could look through a copy if all are stuck. -/
theorem Settled.not_foldable (h : a.Settled Ts) (hs : a.Sound Ts U) (hT : T ∈ Ts)
    (hi : a.StandsAs Ts i b p d) (hu : a.Reads T u) (huse : a.uses[u.idx]? = some use)
    (hval : use.value = some d) : ¬ a.Foldable p u := by
  obtain ⟨-, x, hx, -⟩ := hs.dest hi
  obtain ⟨hU, hatt⟩ := hs.reads T hT u hu
  have hstuck := (h i b p d x hi hx _ u (hs.listed hU hatt huse hval hx)).resolve_right id
  cases hguards : use.guards.isSome with
  | false =>
    rw [hguards] at hstuck
    exact not_foldable_of_mayTurn hstuck
  | true =>
    rw [hguards] at hstuck
    rintro (⟨⟨use', j, -, -, huse', huser, -⟩, -⟩ | ⟨-, hexact⟩)
    · cases huse.symm.trans huse'
      rw [(hs.user u hU use huse).1 hguards] at huser
      cases huser
    · cases hstuck.symm.trans hexact

end Arena

/-! ### Runs that find nothing to do -/

namespace Edit

open Arena

variable {a : Arena} {Ts : List Scope} {T : Scope} {U : UseId → Prop} {f : FunctionId}
  {b : BlockId} {i : InstrId} {p : Alu} {d : ValueId}

theorem foldlM_idle {α β : Type} {k : β → α → Edit β} {l : List α} {st : β}
    (h : ∀ x ∈ l, k st x a = .ok st a) : l.foldlM k st a = .ok st a := by
  induction l with
  | nil => rfl
  | cons x l ih =>
    rw [List.foldlM_cons, bind_of_ok (h x List.mem_cons_self)]
    exact ih fun y hy => h y (List.mem_cons_of_mem _ hy)

theorem forwardEach_idle {forward : UseId → Edit Bool} {l : List UseId} {st : Bool × List InstrId}
    (h : ∀ u ∈ l, forward u a = .ok false a) : forwardEach forward l st a = .ok st a := by
  induction l with
  | nil => rfl
  | cons u l ih =>
    rw [forwardEach, bind_of_ok (h u List.mem_cons_self)]
    exact ih fun t ht => h t (List.mem_cons_of_mem _ ht)

theorem visitCopy_idle (hs : a.Sound Ts U) (hset : a.Settled Ts) (hi : a.StandsAs Ts i b p d)
    (queue : List InstrId) : visitCopy i p queue a = .ok (false, queue) a := by
  obtain ⟨-, x, hx, -⟩ := hs.dest hi
  have hdest : p.dest = some d := by
    obtain ⟨-, -, -, -, -, -, -, -, hdest, -⟩ := hi
    exact hdest
  have hstuck (c : Bool) {u : UseId} (hu : u ∈ x.usesOf c) : a.turnable p c u = .ok false :=
    (hset i b p d x hi hx c u hu).resolve_right id
  simp only [visitCopy, bind_eq_ok, liftM_eq_ok, present_eq_ok, look_eq_ok, value_eq_ok]
  exact ⟨d, a, ⟨hdest, rfl⟩, x, a, ⟨hx, rfl⟩, (false, queue), a,
    forwardEach_idle fun u hu => forwardUse_false.mpr ⟨hstuck false hu, rfl⟩, x, a, ⟨hx, rfl⟩,
    (false, queue), a,
    forwardEach_idle fun u hu => forwardExact_false.mpr ⟨hstuck true hu, rfl⟩, x, a, ⟨hx, rfl⟩, rfl⟩

theorem visitInstr_idle (hs : a.Sound Ts U) (hset : a.Settled Ts) (hT : T ∈ Ts) (hb : b ∈ T.blocks)
    (hi : i ∈ a.body b)
    (hcopy : ∀ ins p, a.instrs[i.idx]? = some ins → ins.action = .alu p → ∃ r, a.isCopy p = .ok r)
    (st : Bool × List InstrId) : visitInstr b st i a = .ok st a := by
  obtain ⟨ins, hins⟩ := (hs.wired T hT).instr b hb i hi
  have hblock := (hs.homed T hT).place b hb i hi ins hins
  have hlook : look (·.instr i) a = .ok ins a := look_eq_ok.mpr ⟨instr_eq_ok.mpr hins, rfl⟩
  rw [visitInstr, bind_of_ok hlook, if_pos hblock]
  cases halu : ins.alu? with
  | none => rfl
  | some p =>
    have hact := Instr.alu?_eq_some.mp halu
    obtain ⟨r, hr⟩ := hcopy ins p hins hact
    have hask : look (·.isCopy p) a = .ok r a := look_eq_ok.mpr ⟨hr, rfl⟩
    simp only [bind_of_ok hask]
    cases r with
    | false => rfl
    | true =>
      obtain ⟨e, x, he, -⟩ := (hs.wired T hT).definition b hb i hi ins hins p.dest
        (by simp [Instr.definitions, hact])
      have hstands : a.StandsAs Ts i b p e := ⟨T, hT, hb, hi, ins, hins, hblock, hact, he, hr⟩
      simp only [if_true, bind_of_ok (visitCopy_idle hs hset hstands st.2), Bool.or_false]
      rfl

/-- Once analyses are declared stale there is nothing left to declare. -/
theorem preserve_all_of_preserve {kept : Analyses} {a' : Arena}
    (h : preserve f kept a = .ok () a') : preserve f .all a' = .ok () a' := by
  obtain rfl := preserve_eq_ok.mp h
  rw [preserve_eq_ok, modifyFunction_modifyFunction]
  congr 1
  funext g
  obtain ⟨order, tree, instrs⟩ := g.valid.inter kept
  cases tree <;> simp [Analyses.inter, Analyses.all]

/-- A run on a function of the scopes does nothing if all uses of copies are stuck. -/
theorem forwardCopiesWithin_idle (hs : a.Sound Ts U) (hset : a.Settled Ts) (hT : T ∈ Ts)
    (hblocks : a.blocksOf f = .ok T.blocks)
    (hcopy : ∀ b ∈ T.blocks, ∀ i ∈ a.body b, ∀ ins p, a.instrs[i.idx]? = some ins →
      ins.action = .alu p → ∃ r, a.isCopy p = .ok r) (bound : Arena → Nat) {a' : Arena}
    (hpreserve : preserve f .all a = .ok () a') :
    forwardCopiesWithin bound f a = .ok false a' := by
  have hvisit (b : BlockId) (hb : b ∈ T.blocks) (st : Bool × List InstrId) :
      visitBlock st b a = .ok st a := by
    obtain ⟨bb, hbb⟩ := (hs.wired T hT).block b hb
    have hlook : look (·.block b) a = .ok bb a := look_eq_ok.mpr ⟨block_eq_ok.mpr hbb, rfl⟩
    rw [visitBlock, bind_of_ok hlook]
    exact foldlM_idle fun i hi => visitInstr_idle hs hset hT hb (body_of_block hbb ▸ hi)
      (hcopy b hb i (body_of_block hbb ▸ hi)) st
  have hlook : look (·.blocksOf f) a = .ok T.blocks a := look_eq_ok.mpr ⟨hblocks, rfl⟩
  have hget : (get : Edit Arena) a = .ok a a := rfl
  have hdrain (steps : Nat) : drainQueue steps [] false a = .ok false a := by
    cases steps <;> rfl
  rw [forwardCopiesWithin, bind_of_ok hlook, bind_of_ok (foldlM_idle fun b hb => hvisit b hb _)]
  simp only [bind_of_ok hget, bind_of_ok (hdrain _)]
  exact bind_of_ok hpreserve

end Edit

/-! ### What a run leaves -/

namespace Arena

variable {a a' : Arena} {U : UseId → Prop} {f : FunctionId}

theorem Forwards.values {Ts : List Scope} (h : Forwards Ts U a a') :
    a'.code.values = a.code.values :=
  h.conserves (q := (·.values)) (fun ht _ => ht.values) fun _ _ _ => rfl

/-- Whether what is left of a function are copies can be found out. -/
theorem Evolves.exists_isCopy {T : Scope} (h : Evolves T a a')
    (hvalues : a'.code.values = a.code.values)
    (hfits : ∀ b ∈ T.blocks, ∀ i ∈ a.body b, a.InstrFits b i) (hw : a.Wired T) (hw' : a'.Wired T)
    {b : BlockId} {i : InstrId} {ins : Instr} {p : Alu} (hb : b ∈ T.blocks) (hi : i ∈ a'.body b)
    (hins : a'.instrs[i.idx]? = some ins) (hact : ins.action = .alu p) :
    ∃ r, a'.isCopy p = .ok r := by
  obtain ⟨hi₀, ins₀, hins₀, hact₀, -⟩ := h.exists_before hw hb hi hins
  obtain ⟨bb, ins₁, -, hins₁, -, hfit⟩ := hfits b hb i hi₀
  cases hins₀.symm.trans hins₁
  rw [← hact₀, hact] at hfit
  refine Arena.exists_isCopy (AluFits.congr hfit hvalues) fun s hs => ?_
  obtain ⟨u, use, -, rfl, huse, -⟩ := hw'.source b hb i hi ins hins s
    (Instr.mem_sources_of_alu hact hs)
  exact ⟨u, use, rfl, huse⟩

/-- After a run no use could look through a copy, and another run does nothing. -/
theorem folded_of_forwardCopiesWithin (hacc : a.Accepted f) (hlists : a.ListsRead [a.scopeOf f])
    (hown : a.ListsOwn [a.scopeOf f]) {bound : Arena → Nat} {progress : Bool}
    (hrun : Edit.forwardCopiesWithin bound f a = .ok progress a') :
    a'.Folded f ∧ ∀ bound', Edit.forwardCopiesWithin bound' f a' = .ok false a' := by
  obtain ⟨_, g, region, _, _, hc⟩ := hacc.checked
  have hblocks : a.blocksOf f = .ok (a.scopeOf f).blocks := hc.scope_blocks ▸ hc.blocksOf
  have hT := List.mem_singleton_self (a.scopeOf f)
  obtain ⟨hs, hsteps, hpending, -⟩ := Edit.forwardCopiesWithin_spec hT hblocks
    (sound_scope hacc hlists hown) (pending_scope a _) hrun
  have hset : a'.Settled [a.scopeOf f] := hpending
  have hpreserved : Edit.preserve f .all a' = .ok () a' := by
    simp only [Edit.forwardCopiesWithin, Edit.bind_eq_ok] at hrun
    obtain ⟨_, _, -, _, _, -, _, _, -, _, _, -, _, _, hpreserve, hpure⟩ := hrun
    obtain ⟨-, rfl⟩ := Edit.pure_eq_ok.mp hpure
    exact Edit.preserve_all_of_preserve hpreserve
  have hcopy {b : BlockId} {i : InstrId} {ins : Instr} {p : Alu}
      (hb : b ∈ (a.scopeOf f).blocks) (hi : i ∈ a'.body b) (hins : a'.instrs[i.idx]? = some ins)
      (hact : ins.action = .alu p) : ∃ r, a'.isCopy p = .ok r :=
    hsteps.evolves.exists_isCopy hsteps.values (fun b hb i hi => hc.instrFits hb hi) hc.wired
      (hs.wired _ hT) hb hi hins hact
  have hblocks' := hsteps.evolves.scope_blocks hc.function
  have hreads {u : UseId} : a'.Reads (a'.scopeOf f) u ↔ a'.Reads (a.scopeOf f) u := by
    unfold Reads
    rw [hblocks', hsteps.evolves.scope_ifs hc.function]
  refine ⟨fun b hb i hi ins p d hins hact hdest hmoves u hu use huse hval => ?_, fun bound' => ?_⟩
  · rw [hblocks'] at hb
    obtain ⟨r, hr⟩ := hcopy hb hi hins hact
    obtain rfl := isCopy_of_movesLanes hmoves hr
    have hplace := (hs.homed _ hT).place b hb i hi ins hins
    exact hset.not_foldable hs hT ⟨_, hT, hb, hi, ins, hins, hplace, hact, hdest, hr⟩
      (hreads.mp hu) huse hval
  · refine Edit.forwardCopiesWithin_idle hs hset hT ?_ (fun b hb i hi ins p => hcopy hb hi) bound'
      hpreserved
    rw [hsteps.evolves.blocksOf_eq hc.function, hblocks]

end Arena

end ShaderCompiler
