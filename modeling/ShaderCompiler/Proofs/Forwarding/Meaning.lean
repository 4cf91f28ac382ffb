import ShaderCompiler.Proofs.Forwarding.Copies
import ShaderCompiler.Proofs.Forwarding.Run

/-!
# Forwarding is not observed

A run of forwarding is a sequence of steps, and each of them keeps what is read. When a use of a
copy is turned to what the copy reads, then wherever the use is read the copy is done and holds,
so that the use finds the same lanes as before. And a copy is taken out only when no reading is
left that refers to it.
-/

namespace ShaderCompiler

variable {g : Use → Use} {z : Swizzle} {Ts : List Scope} {use : Use}

namespace Arena

variable {a a' a'' : Arena} {f : FunctionId} {b c : BlockId} {k : Nat} {i d : InstrId}
  {u t : UseId} {p : Alu} {env : Env}

/-- An instruction stands in a block of the scope. -/
def Stands (a : Arena) (T : Scope) (i : InstrId) : Prop :=
  ∃ b ∈ T.blocks, i ∈ a.body b

/-- Whether an instruction stands in a block of the scope. -/
def standing (a : Arena) (T : Scope) (i : InstrId) : Bool :=
  (T.blocks.flatMap a.body).contains i

/-- A use that is read at a place of `a` finds the same there in `a'`, provided that the copies of
`a` hold: what it reads is done, and still stands if the reader does. -/
def Rereads (a a' : Arena) (f : FunctionId) (u : UseId) (b : BlockId) (k : Nat) : Prop :=
  ∃ use v x d, a'.uses[u.idx]? = some use ∧ use.value = some v ∧ (a.scopeOf f).defined v
    ∧ a.values[v.idx]? = some x ∧ x.definedBy = some d ∧ a.DoneBefore f d b k
    ∧ (a'.Reads (a.scopeOf f) u → a'.Stands (a.scopeOf f) d)
    ∧ (use.guards = none → a'.LanesFit u x.comps
      ∧ ∀ env, a.CopiesHold f b k env → a'.operand env u = a.operand env u)
    ∧ (use.guards.isSome = true → ∀ env, a.CopiesHold f b k env →
      a'.conditionLanes env u = a.conditionLanes env u)

/-- What a run of forwarding that came from `a` to `a'` has kept. -/
structure Forwarded (a a' : Arena) (f : FunctionId) : Prop where
  evolves : Evolves (a.scopeOf f) a a'
  values : a'.code.values = a.code.values
  functions : a'.code.functions = a.code.functions
  exits : ∀ b : BlockId, (a'.blocks[b.idx]?).map Block.exits = (a.blocks[b.idx]?).map Block.exits
  plain : ∀ s, a'.isPlain s = a.isPlain s
  gone : ∀ b ∈ (a.scopeOf f).blocks, ∀ i ∈ a.body b, i ∈ a'.body b
    ∨ ∃ ins p, a.instrs[i.idx]? = some ins ∧ ins.action = .alu p
  read : ∀ u b k, a.Reachable f b → a.ReadAt f u b k → Rereads a a' f u b k

/-! ### What a use reads depends on the code -/

section Code

@[simp] theorem operand_code (a : Arena) (env : Env) (u : UseId) :
    a.code.operand env u = a.operand env u := by
  unfold operand
  rw [code_uses, reads_code]
  cases a.uses[u.idx]? <;> rfl

theorem widthOf_of_values (h : a'.code.values = a.code.values) (v : ValueId) :
    a'.widthOf v = a.widthOf v := by
  have hcode (x : Arena) : x.widthOf v = x.code.widthOf v := by
    unfold widthOf
    rw [code_values]
    cases x.values[v.idx]? <;> rfl
  rw [hcode a', hcode a, widthOf, widthOf, h]

@[simp] theorem conditionLanes_code (a : Arena) (env : Env) (u : UseId) :
    a.code.conditionLanes env u = a.conditionLanes env u := by
  have hwidth (v : ValueId) : a.code.widthOf v = a.widthOf v := by
    unfold widthOf
    rw [code_values]
    cases a.values[v.idx]? <;> rfl
  unfold conditionLanes
  simp only [hwidth]
  rw [code_uses]
  cases a.uses[u.idx]? <;> rfl

@[simp] theorem isPlain_code (a : Arena) (s : Option UseId) : a.code.isPlain s = a.isPlain s := by
  unfold isPlain
  cases s with
  | none => rfl
  | some u =>
    rw [Option.bind_some, Option.bind_some, code_uses]
    cases a.uses[u.idx]? <;> rfl

theorem operand_modifyUse_of_ne (hg : ∀ use, (g use).user = use.user)
    (ht : t ≠ u) : (a.modifyUse u g).operand env t = a.operand env t := by
  unfold operand
  rw [reads_modifyUse_of_ne hg ht, modifyUse_uses, if_neg ht]

theorem conditionLanes_modifyUse_of_ne (ht : t ≠ u) :
    (a.modifyUse u g).conditionLanes env t = a.conditionLanes env t := by
  unfold conditionLanes
  rw [modifyUse_uses, if_neg ht]
  rfl

theorem isPlain_modifyUse (hg : ∀ use, (g use).absolute = use.absolute
    ∧ (g use).negated = use.negated) (s : Option UseId) :
    (a.modifyUse u g).isPlain s = a.isPlain s := by
  unfold isPlain
  cases s with
  | none => rfl
  | some t =>
    rw [Option.bind_some, Option.bind_some, modifyUse_uses]
    split
    · cases a.uses[t.idx]? with
      | none => rfl
      | some use => simp [hg use]
    · rfl

end Code

theorem standing_iff {T : Scope} : a.standing T i = true ↔ a.Stands T i := by
  simp [standing, Stands]

theorem eq_filter_of_sublist {l l' : List InstrId} {keep : InstrId → Bool} (h : l'.Sublist l)
    (hl : l.Nodup) (hkeep : ∀ i ∈ l, keep i = true ↔ i ∈ l') : l' = l.filter keep := by
  have hself : l'.filter keep = l' :=
    List.filter_eq_self.mpr fun i hi => (hkeep i (h.subset hi)).mpr hi
  have hsub : l'.Sublist (l.filter keep) := hself ▸ h.filter keep
  refine hsub.eq_of_length_le ((hl.filter keep).subperm fun i hi => ?_).length_le
  obtain ⟨hi, hk⟩ := List.mem_filter.mp hi
  exact (hkeep i hi).mp hk

theorem map_of_functions {α : Type} (h : a'.code.functions = a.code.functions) (f : FunctionId)
    (g : Function → α) (hg : ∀ x, g (Function.bare x) = g x) :
    (a'.functions[f.idx]?).map g = (a.functions[f.idx]?).map g := by
  have hcode (x : Arena) : (x.functions[f.idx]?).map g = (x.code.functions[f.idx]?).map g := by
    rw [code_functions, Option.map_map]
    exact congrFun (congrArg _ (funext fun y => (hg y).symm)) _
  rw [hcode a', hcode a, h]

theorem exits_of_blocks (h : a'.code.blocks = a.code.blocks) (b : BlockId) :
    (a'.blocks[b.idx]?).map Block.exits = (a.blocks[b.idx]?).map Block.exits := by
  rw [← exits_code, h, exits_code]

/-! ### Steps that turn no use -/

theorem Laid.forwarded (h : a.Laid f) : Forwarded a a f where
  evolves := .refl _ a
  values := rfl
  functions := rfl
  exits _ := rfl
  plain _ := rfl
  gone _ _ _ hi := .inl hi
  read u b k hb hread := by
    obtain ⟨use, v, x, d, huse, hval, hv, hx, hby, hdone, hlanes⟩ := h.read u b k hb hread
    refine ⟨use, v, x, d, huse, hval, hv, hx, hby, hdone, fun _ => ?_,
      fun hguards => ⟨hlanes hguards, fun _ _ => rfl⟩, fun _ _ _ => rfl⟩
    obtain ⟨home, m, hhome, hm⟩ := place_of_done hb hdone
    exact ⟨home, h.reachable home hhome, List.mem_of_getElem? hm⟩

/-- Another use reads the same as before. -/
theorem Rereads.turn_other {v : ValueId} (ht : Turned a' a'' u v z) (hne : t ≠ u)
    (hr : Rereads a a' f t b k) : Rereads a a'' f t b k := by
  obtain ⟨use, w, y, e, huse, hval, hw, hy, hby, hdone, hstands, hsource, hcondition⟩ := hr
  obtain ⟨slot, huse'⟩ := ht.use_other hne huse
  have hcode : a''.code = _ := ht
  refine ⟨{ use with slot := slot }, w, y, e, huse', hval, hw, hy, hby, hdone, fun hr => ?_,
    fun hguards => ?_, fun hguards env henv => ?_⟩
  · unfold Stands
    rw [body_of_blocks ht.blocks]
    exact hstands (ht.reads.mp hr)
  · obtain ⟨hlanes, hoperand⟩ := hsource hguards
    refine ⟨?_, fun env henv => ?_⟩
    · rwa [← lanesFit_code, hcode, lanesFit_modifyUse_of_ne (by exact fun _ => rfl) hne,
        lanesFit_code]
    · rw [← operand_code, hcode, operand_modifyUse_of_ne (by exact fun _ => rfl) hne, operand_code,
        hoperand env henv]
  · rw [← conditionLanes_code, hcode, conditionLanes_modifyUse_of_ne hne, conditionLanes_code,
      hcondition hguards env henv]

/-- A use that is turned reads as many lanes as before, and each of them through the copy. -/
theorem Turned.folds {v w : ValueId} (ht : Turned a' a'' u v z)
    (hf : a'.Folds p u v z) (hi : a'.StandsAs Ts i c p w)
    (huse : a'.uses[u.idx]? = some use) (hval : use.value = some w) {n : Nat} {x : Value}
    (hn : a'.reads u = .ok n) (hmax : n ≤ maxLanes) (hnot : some u ∉ p.srcs)
    (hbound : ∀ lane ∈ use.swizzle.toList.take n, lane < x.comps) {l m : List UseId}
    (hx : a'.values[w.idx]? = some { x with uses := l, conditions := m }) :
    a''.reads u = .ok n ∧ ∀ j < n, ∃ lane target, use.swizzle[j]? = some lane
      ∧ z[j]? = some target ∧ a'.laneOf p lane = some (v, target) := by
  obtain ⟨slot, huse'⟩ := ht.use_self huse
  cases hf with
  | @lanes use₁ user k n' _ huse₁ hpos hn' hz =>
    cases huse.symm.trans huse₁
    have hreads : a'.reads u = a'.sourceWidth user k := by
      unfold Arena.reads
      rw [hpos]
      rfl
    have hreads' : a''.reads u = a''.sourceWidth user k := by
      unfold Arena.reads
      rw [ht.aluPosition, hpos]
      rfl
    have hwidth : a''.sourceWidth user k = a'.sourceWidth user k := by
      rw [← sourceWidth_code, show a''.code = _ from ht, ← sourceWidth_code a']
      rfl
    refine ⟨by rw [hreads', hwidth, ← hreads, hn], fun j hj => ?_⟩
    rw [hreads, hn'] at hn
    cases hn
    obtain ⟨lane, target, hlane, hlaneOf, hz⟩ := hz (.inl hnot) j hj
    exact ⟨lane, target, hlane, hz, hlaneOf⟩
  | @exact use₁ huse₁ hpos h =>
    cases huse.symm.trans huse₁
    obtain ⟨d, x', y, hd, hx', hy, hcomps, hlanes⟩ := h
    obtain ⟨-, -, -, -, -, -, -, -, hdest, -⟩ := hi
    cases hdest.symm.trans hd
    cases hx.symm.trans hx'
    rw [reads_of_none hpos huse hval hx] at hn
    cases hn
    obtain ⟨l', m', hy'⟩ := value_of_values ht.values hy
    refine ⟨?_, fun j hj => ?_⟩
    · rw [reads_of_none (ht.aluPosition.trans hpos) huse' rfl hy']
      exact congrArg _ hcomps
    · have hlt : j < 16 := lt_of_lt_of_le hj hmax
      refine ⟨use.swizzle[j], use.swizzle[j], by simp, by simp, ?_⟩
      refine hlanes _ (hbound _ (List.mem_of_getElem? (i := j) ?_))
      rw [List.getElem?_take, if_pos hj, Vector.getElem?_toList]
      simp

theorem conditionLanes_of_value {v : ValueId} (huse : a.uses[u.idx]? = some use)
    (hval : use.value = some v) :
    a.conditionLanes env u = some ((List.range (a.widthOf v)).map (env v)) := by
  unfold conditionLanes
  simp [huse, hval]

/-- A use without a user is turned only if the copy reproduces the value. -/
theorem Folds.reproduces {v w : ValueId} (hf : a'.Folds p u v z)
    (huse : a'.uses[u.idx]? = some use) (huser : use.user = none)
    (hi : a'.StandsAs Ts i c p w) {x : Value} (hx : a'.values[w.idx]? = some x) :
    ∃ y, a'.values[v.idx]? = some y ∧ y.comps = x.comps
      ∧ ∀ lane < x.comps, a'.laneOf p lane = some (v, lane) := by
  cases hf with
  | lanes _ hpos =>
    simp only [Arena.aluPosition, except_bind_eq_ok, use_eq_ok] at hpos
    obtain ⟨use', huse', hpos⟩ := hpos
    cases huse.symm.trans huse'
    simp [huser] at hpos
  | exact _ _ h =>
    obtain ⟨d, x', y, hd, hx', hy, hcomps, hlanes⟩ := h
    obtain ⟨-, -, -, -, -, -, -, -, hdest, -⟩ := hi
    cases hdest.symm.trans hd
    cases hx.symm.trans hx'
    exact ⟨y, hy, hcomps, hlanes⟩

/-- A condition is read by no instruction. -/
theorem Laid.user_of_guards (h : a.Laid f) (hb : a.Reachable f b) (hread : a.ReadAt f u b k)
    (huse : a.uses[u.idx]? = some use) (hguards : use.guards.isSome = true) :
    use.user = none := by
  have hsource {c : BlockId} {j : InstrId} {jns : Instr} (hc : a.Reachable f c) (hj : j ∈ a.body c)
      (hjns : a.instrs[j.idx]? = some jns) (hu : some u ∈ jns.sources) : False := by
    simp [(h.wired.reader_of_source (h.reachable c hc) hj hjns hu huse).2] at hguards
  cases hread with
  | source hj hjns _ hu => exact (hsource hb (List.mem_of_getElem? hj) hjns hu).elim
  | incoming hbt hj hjns hphi hu =>
    exact (hsource (hb.flow hbt) hj hjns (Instr.mem_sources_of_phi hphi (mem_of_lookup hu))).elim
  | condition hu =>
    obtain ⟨cid, hcid, con, yes, no, hcon, hshape⟩ := conditionAfter_spec hu
    exact (h.wired.reader_of_condition hcid hcon hshape huse).2

namespace Forwarded

variable (h : Forwarded a a' f)

include h

/-- Bookkeeping changes nothing. -/
theorem congr (hcode : a''.code = a'.code) : Forwarded a a'' f where
  evolves := h.evolves.trans (.of_code hcode)
  values := (congrArg (·.values) hcode).trans h.values
  functions := (congrArg (·.functions) hcode).trans h.functions
  exits b := (exits_of_blocks (congrArg (·.blocks) hcode) b).trans (h.exits b)
  plain s := by rw [← isPlain_code, hcode, isPlain_code, h.plain]
  gone := by
    rw [body_of_code hcode]
    exact h.gone
  read u b k hb hread := by
    obtain ⟨use, v, x, d, huse, hval, hv, hx, hby, hdone, hstands, hsource, hcondition⟩ :=
      h.read u b k hb hread
    obtain ⟨slot, huse''⟩ := use_of_code hcode huse
    have hbody := body_of_code hcode
    refine ⟨{ use with slot := slot }, v, x, d, huse'', hval, hv, hx, hby, hdone, fun hr => ?_,
      fun hguards => ?_, fun hguards env henv => ?_⟩
    · rw [reads_congr hbody (congrArg (·.instrs) hcode) (constructs_of_code hcode)] at hr
      unfold Stands
      rw [hbody]
      exact hstands hr
    · obtain ⟨hlanes, hoperand⟩ := hsource hguards
      refine ⟨?_, fun env henv => ?_⟩
      · rwa [← lanesFit_code, hcode, lanesFit_code]
      · rw [← operand_code, hcode, operand_code, hoperand env henv]
    · rw [← conditionLanes_code, hcode, conditionLanes_code, hcondition hguards env henv]

/-- Taking out a copy that nobody reads. -/
theorem take {U : UseId → Prop} (hl : a.Laid f) (hs : a'.Sound [a.scopeOf f] U) {v : ValueId} {x : Value}
    (hi : a'.StandsAs [a.scopeOf f] i c p v) (hx : a'.values[v.idx]? = some x)
    (hfree : x.isUnused = true) : Forwarded a (a'.without c i) f where
  evolves := h.evolves.trans (Loses.of_without rfl).evolves
  values := h.values
  functions := h.functions
  exits b := ((Loses.of_without rfl).exits_eq b).trans (h.exits b)
  plain s := h.plain s
  gone b hb j hj := by
    rcases h.gone b hb j hj with hj' | hgone
    · by_cases hji : j = i
      · subst hji
        obtain ⟨ins, hins⟩ := hl.wired.instr b hb j hj
        obtain ⟨ins', hins', hact, -⟩ := h.evolves.instr j ins hins
        obtain ⟨-, -, -, -, ins'', hins'', -, hact', -⟩ := hi
        cases hins'.symm.trans hins''
        exact .inr ⟨ins, p, hins, hact.symm.trans hact'⟩
      · exact .inl ((Loses.of_without rfl).kept b j hj' (by simpa using hji))
    · exact .inr hgone
  read u b k hb hread := by
    obtain ⟨use, w, y, d, huse, hval, hw, hy, hby, hdone, hstands, hsource, hcondition⟩ :=
      h.read u b k hb hread
    refine ⟨use, w, y, d, huse, hval, hw, hy, hby, hdone, fun hr => ?_, fun hguards => ?_,
      hcondition⟩
    · -- A reading that is left is listed by its value, which is not the unused one.
      have hr' := (Loses.of_without rfl).reads_of_reads hr
      obtain ⟨home, hhome, hd⟩ := hstands hr'
      have hne : d ≠ i := by
        rintro rfl
        refine hs.value_ne_of_isUnused (List.mem_singleton_self _) hr' huse hval hx hfree ?_
        obtain ⟨T, hT, -, -, ins, hins, -, hact, hdest, -⟩ := hi
        obtain rfl := List.mem_singleton.mp hT
        obtain ⟨y', j, jns, hy', hby', hjns, hdef, -⟩ := (hs.homed _ hT).definer w hw
        obtain ⟨l, m, hy''⟩ := value_of_values h.values hy
        cases hy''.symm.trans hy'
        cases hby.symm.trans hby'
        cases hins.symm.trans hjns
        simpa [Instr.definitions, hact, hdest] using hdef
      exact ⟨home, hhome, (Loses.of_without rfl).kept home d hd (by simpa using hne)⟩
    · obtain ⟨hlanes, hoperand⟩ := hsource hguards
      refine ⟨?_, fun env henv => ?_⟩
      · exact (Loses.of_without rfl).lanesFit_iff.mpr hlanes
      · rw [← hoperand env henv]
        unfold operand
        rw [(Loses.of_without rfl).reads_eq]
        rfl

/-! ### Turning a use -/

variable {v w : ValueId} {x : Value} {U : UseId → Prop}

/-- A copy that is done has its place in `a`, with the same action. -/
theorem copy_place (hl : a.Laid f) (hi : a'.StandsAs Ts i c p v)
    (hb : a.Reachable f b) (hdone : a.DoneBefore f i b k) :
    ∃ (home : BlockId) (m : Nat) (ins : Instr), a.Reachable f home ∧ (a.body home)[m]? = some i
      ∧ a.instrs[i.idx]? = some ins ∧ ins.action = .alu p := by
  obtain ⟨home, m, hhome, hm⟩ := place_of_done hb hdone
  obtain ⟨ins, hins⟩ := hl.wired.instr home (hl.reachable home hhome) i (List.mem_of_getElem? hm)
  obtain ⟨-, -, -, -, ins', hins', -, hact, -⟩ := hi
  obtain ⟨hact', -⟩ := h.evolves.action_eq hins hins'
  exact ⟨home, m, ins, hhome, hm, hins, hact'.symm.trans hact⟩

/-- The sources of a copy that is done read what they always read. -/
theorem copy_source (hl : a.Laid f) (hs : a'.Sound [a.scopeOf f] U)
    (hi : a'.StandsAs [a.scopeOf f] i c p v) (hb : a.Reachable f b)
    (hdone : a.DoneBefore f i b k) {src : UseId} (hsrc : some src ∈ p.srcs) :
    ∃ use w y e, a'.uses[src.idx]? = some use ∧ use.value = some w ∧ (a.scopeOf f).defined w
      ∧ a.values[w.idx]? = some y ∧ y.definedBy = some e ∧ a.DoneBefore f e b k
      ∧ a'.Stands (a.scopeOf f) e ∧ a'.LanesFit src y.comps
      ∧ ∀ env, a.CopiesHold f b k env → a'.operand env src = a.operand env src := by
  obtain ⟨home, m, ins, hhome, hm, hins, hact⟩ := h.copy_place hl hi hb hdone
  have hphi : ins.isPhi = false := by simp [Instr.isPhi, hact]
  obtain ⟨use, w, y, e, huse, hval, hw, hy, hby, he, hstands, hsource, -⟩ := h.read src home m hhome
    (.source hm hins hphi (Instr.mem_sources_of_alu hact hsrc))
  obtain ⟨T, hT, hc, hmem, ins', hins', -, hact', -⟩ := hi
  obtain rfl := List.mem_singleton.mp hT
  have hsources := Instr.mem_sources_of_alu hact' hsrc
  obtain ⟨_, use', -, heq, huse', -, -, -, hguards⟩ :=
    (hs.wired _ hT).source c hc i hmem ins' hins' _ hsources
  cases heq
  cases huse.symm.trans huse'
  obtain ⟨hlanes, hoperand⟩ := hsource hguards
  refine ⟨use, w, y, e, huse, hval, hw, hy, hby, hl.trans hb hdone hhome hm he,
    hstands (.inl ⟨c, hc, i, hmem, ins', hins', hsources⟩), hlanes, fun env henv => ?_⟩
  -- The copies that are done before the copy are among those that hold.
  refine hoperand env fun d dns q z hd => henv d dns q z (hl.trans hb hdone hhome hm hd)

/-- Where a copy is done, its lanes are lanes of what it reads. -/
theorem copy_lane (hl : a.Laid f) (hs : a'.Sound [a.scopeOf f] U)
    (hi : a'.StandsAs [a.scopeOf f] i c p v) (hb : a.Reachable f b)
    (hdone : a.DoneBefore f i b k) (hx : a'.values[v.idx]? = some x) {lane target : Nat}
    (hlane : lane < x.comps) (hlaneOf : a'.laneOf p lane = some (w, target)) :
    (∃ y, a.values[w.idx]? = some y ∧ target < y.comps)
      ∧ ∀ env, a.CopiesHold f b k env → env v lane = env w target := by
  obtain ⟨home, m, ins, hhome, hm, hins, hact⟩ := h.copy_place hl hi hb hdone
  have hfits := hl.alu home (hl.reachable home hhome) i (List.mem_of_getElem? hm) ins p hins hact
  have hsource {src : UseId} (hsrc : some src ∈ p.srcs) := h.copy_source hl hs hi hb hdone hsrc
  obtain ⟨T, hT, hc, hmem, ins', hins', -, hact', hdest, hcopy⟩ := hi
  obtain rfl := List.mem_singleton.mp hT
  obtain ⟨hmoves, hop⟩ := movesLanes_of_isCopy (hfits.congr h.values) hcopy
  have hsrcs : a'.SourcesOf i p := by
    refine ⟨⟨ins', hins', hact'⟩, fun s hmems => ?_⟩
    obtain ⟨u, use, w, rfl, huse, hval, -, huser, -⟩ := (hs.wired _ hT).source c hc i hmem ins' hins' _
      (Instr.mem_sources_of_alu hact' hmems)
    exact ⟨u, use, w, rfl, huse, hval, huser⟩
  obtain ⟨⟨src, use, n, hsrc, huse, hval, hn, htarget⟩, hmoved⟩ :=
    laneOf_spec (hfits.congr h.values) hsrcs hop hdest hx hlane hlaneOf
  refine ⟨?_, fun env henv => ?_⟩
  · obtain ⟨use', w', y, e, huse', hval', -, hy, -, -, -, hlanes, -⟩ := hsource hsrc
    cases huse.symm.trans huse'
    cases hval.symm.trans hval'
    obtain ⟨use', n', huse', hn', -, hbound⟩ := hlanes
    cases huse.symm.trans huse'
    cases hn.symm.trans hn'
    exact ⟨y, hy, hbound target htarget⟩
  · have hmoves' : a.movesLanes p = true := by
      rw [← hmoves, movesLanes, movesLanes, show a.isPlain = a'.isPlain from
        funext fun s => (h.plain s).symm]
    rw [henv i ins p v hdone hins hact hdest hmoves', ← hmoved env]
    refine (congrFun (moved_congr fun u hu => ?_) lane).symm
    obtain ⟨-, -, -, -, -, -, -, -, -, -, -, -, hoperand⟩ := hsource hu
    exact hoperand env henv

/-- A use is not a source of a copy that is done where the use is read. -/
theorem notMem_srcs (hl : a.Laid f) (hi : a'.StandsAs [a.scopeOf f] i c p v)
    (hb : a.Reachable f b) (hread : a.ReadAt f u b k) (hdone : a.DoneBefore f i b k) :
    some u ∉ p.srcs := by
  intro hmem
  obtain ⟨home, m, ins, hhome, hm, hins, hact⟩ := h.copy_place hl hi hb hdone
  obtain ⟨use, -, huse, -, -, huser, hguards⟩ := hl.wired.use_of_source (hl.reachable home hhome)
    (List.mem_of_getElem? hm) hins (Instr.mem_sources_of_alu hact hmem)
  -- A reader of the use would be the copy itself.
  have hself {c : BlockId} {j : InstrId} {jns : Instr} (hc : a.Reachable f c) (hj : j ∈ a.body c)
      (hjns : a.instrs[j.idx]? = some jns) (hu : some u ∈ jns.sources) : j = i := by
    obtain ⟨huser', -⟩ := hl.wired.reader_of_source (hl.reachable c hc) hj hjns hu huse
    exact Option.some.inj (huser'.symm.trans huser)
  cases hread with
  | source hj hjns _ hu =>
    obtain rfl := hself hb (List.mem_of_getElem? hj) hjns hu
    exact hl.irrefl hb hj hdone
  | incoming hbt hj hjns hphi hu =>
    obtain rfl := hself (hb.flow hbt) hj hjns
      (Instr.mem_sources_of_phi hphi (mem_of_lookup hu))
    cases hins.symm.trans hjns
    cases hact.symm.trans hphi
  | condition hu =>
    obtain ⟨cid, hcid, con, yes, no, hcon, hshape⟩ := conditionAfter_spec hu
    simp [(hl.wired.reader_of_condition hcid hcon hshape huse).1] at hguards

/-- A use that is turned reads the same lanes elsewhere. -/
theorem turn_self (hl : a.Laid f) (hs : a'.Sound [a.scopeOf f] U)
    (hi : a'.StandsAs [a.scopeOf f] i c p w) (huse : a'.uses[u.idx]? = some use)
    (hval : use.value = some w) (hf : a'.Folds p u v z) (ho : a'.Offers p v)
    (ht : Turned a' a'' u v z) (hb : a.Reachable f b) (hread : a.ReadAt f u b k) :
    Rereads a a'' f u b k := by
  obtain ⟨use₀, w₀, x, e, huse₀, hval₀, hw, hx, hby, hdone, -, hsource, hcondition⟩ :=
    h.read u b k hb hread
  cases huse.symm.trans huse₀
  cases hval.symm.trans hval₀
  obtain ⟨l, m, hx'⟩ := value_of_values h.values hx
  obtain rfl : e = i := by
    obtain ⟨-, x', hx'', hby'⟩ := hs.dest hi
    cases hx'.symm.trans hx''
    exact Option.some.inj (hby.symm.trans hby')
  have hnot := h.notMem_srcs hl hi hb hread hdone
  obtain ⟨src, suse, hsrc, hsuse, hsval⟩ := ho
  obtain ⟨suse', v', y, d, hsuse', hsval', hv, hy, hby', hd, hstands, -⟩ :=
    h.copy_source hl hs hi hb hdone hsrc
  cases hsuse.symm.trans hsuse'
  cases hsval.symm.trans hsval'
  obtain ⟨slot, huse'⟩ := ht.use_self huse
  have hcopy {lane target : Nat} (hlane : lane < x.comps)
      (hlaneOf : a'.laneOf p lane = some (v, target)) : target < y.comps
        ∧ ∀ env, a.CopiesHold f b k env → env w lane = env v target := by
    obtain ⟨⟨y', hy', hlt⟩, hlanes⟩ := h.copy_lane hl hs hi hb hdone hx' hlane hlaneOf
    cases hy.symm.trans hy'
    exact ⟨hlt, hlanes⟩
  refine ⟨_, v, y, d, huse', rfl, hv, hy, hby', hd, fun _ => ?_, fun hguards => ?_,
    fun hguards env henv => ?_⟩
  · obtain ⟨home, hhome, hmem⟩ := hstands
    exact ⟨home, hhome, body_of_blocks ht.blocks ▸ hmem⟩
  · obtain ⟨⟨use₁, n, huse₁, hn, hmax, hbound⟩, hoperand⟩ := hsource hguards
    cases huse.symm.trans huse₁
    obtain ⟨hn'', hlanes⟩ := ht.folds hf hi huse hval hn hmax hnot hbound hx'
    have hget {j : Nat} (hj : j < n) (s : Swizzle) : (s.toList.take n)[j]? = s[j]? := by
      rw [List.getElem?_take, if_pos hj, Vector.getElem?_toList]
    refine ⟨⟨_, n, huse', hn'', hmax, fun target htarget => ?_⟩, fun env henv => ?_⟩
    · obtain ⟨j, hj⟩ := List.mem_iff_getElem?.mp htarget
      have hjn : j < n := by
        by_contra hge
        rw [List.getElem?_take, if_neg hge] at hj
        simp at hj
      obtain ⟨lane, target', hlane, hz, hlaneOf⟩ := hlanes j hjn
      rw [hget hjn, hz] at hj
      cases hj
      exact (hcopy (hbound lane (List.mem_of_getElem? ((hget hjn _).trans hlane))) hlaneOf).1
    · rw [← hoperand env henv, operand_of_reads huse' rfl hn'', operand_of_reads huse hval hn]
      congr 2
      refine List.ext_getElem? fun j => ?_
      rw [List.getElem?_map, List.getElem?_map]
      by_cases hjn : j < n
      · obtain ⟨lane, target, hlane, hz, hlaneOf⟩ := hlanes j hjn
        have hlt := hbound lane (List.mem_of_getElem? ((hget hjn _).trans hlane))
        rw [hget hjn, hget hjn, hlane, hz, Option.map_some, Option.map_some,
          (hcopy hlt hlaneOf).2 env henv]
      · rw [List.getElem?_take, if_neg hjn, List.getElem?_take, if_neg hjn]
        rfl
  · -- A condition has no user, so the copy reproduces a value of the same width lane by lane.
    obtain ⟨use₀, -, -, -, huse₀, -⟩ := hl.read u b k hb hread
    obtain ⟨huser, hguards₁⟩ := h.evolves.reader_eq huse₀ huse
    have hnone := huser.trans
      (hl.user_of_guards hb hread huse₀ (by rw [← hguards₁]; exact hguards))
    obtain ⟨y₁, hy₁, hcomps, hlanes⟩ := hf.reproduces huse hnone hi hx'
    obtain ⟨l', m', hy'⟩ := value_of_values h.values hy
    cases hy'.symm.trans hy₁
    have hwidth : a''.widthOf v = a'.widthOf w := by
      rw [widthOf_of_values ht.values, widthOf, widthOf, hy', hx']
      exact hcomps
    have hwidth' : a'.widthOf w = x.comps := by
      rw [widthOf, hx']
      rfl
    rw [← hcondition hguards env henv, conditionLanes_of_value huse' rfl,
      conditionLanes_of_value huse hval, hwidth, hwidth']
    refine congrArg some (List.map_congr_left fun lane hlane => ?_)
    have hlt := List.mem_range.mp hlane
    exact ((hcopy hlt (hlanes lane hlt)).2 env henv).symm

/-- Turning a use of a copy to what the copy reads. -/
theorem turn (hl : a.Laid f) (hs : a'.Sound [a.scopeOf f] U)
    (hi : a'.StandsAs [a.scopeOf f] i c p w) (huse : a'.uses[u.idx]? = some use)
    (hval : use.value = some w) (hf : a'.Folds p u v z) (ho : a'.Offers p v)
    (ht : Turned a' a'' u v z) : Forwarded a a'' f where
  evolves := by
    obtain ⟨src, suse, hsrc, hsuse, hsval⟩ := ho
    obtain ⟨suse', v', hsuse', hsval', ⟨T, hT, hv⟩, -⟩ := hs.source hi hsrc
    cases hsuse.symm.trans hsuse'
    cases hsval.symm.trans hsval'
    obtain rfl := List.mem_singleton.mp hT
    exact h.evolves.trans (.turned ht fun _ _ _ _ _ => hv)
  values := ht.values.trans h.values
  functions := ht.functions.trans h.functions
  exits b := (exits_of_blocks ht.blocks b).trans (h.exits b)
  plain s := by
    rw [← isPlain_code, show a''.code = _ from ht, isPlain_modifyUse (by exact fun _ => ⟨rfl, rfl⟩),
      isPlain_code, h.plain]
  gone := by
    rw [body_of_blocks ht.blocks]
    exact h.gone
  read t b k hb hread := by
    by_cases htu : t = u
    · subst htu
      exact h.turn_self hl hs hi huse hval hf ho ht hb hread
    · exact (h.read t b k hb hread).turn_other ht htu

/-- Every step keeps what was kept so far. -/
theorem step (hl : a.Laid f) (hstep : ForwardStep [a.scopeOf f] U a' a'') : Forwarded a a'' f := by
  cases hstep with
  | turn hs hi huse hval hf ho ht => exact h.turn hl hs hi huse hval hf ho ht
  | take hs hi hx hfree hcode => exact (h.take hl hs hi hx hfree).congr hcode
  | same hcode => exact h.congr hcode

/-! ### The whole run -/

/-- What is left of a block are the instructions that still stand. -/
theorem body_eq (hl : a.Laid f) (hb : b ∈ (a.scopeOf f).blocks) :
    a'.body b = (a.body b).filter (a'.standing (a.scopeOf f)) := by
  obtain ⟨bb, hbb⟩ := hl.wired.block b hb
  refine eq_filter_of_sublist (h.evolves.body_sublist hbb) (hl.nodup b hb) fun i hi => ?_
  rw [standing_iff]
  constructor
  · rintro ⟨c, hc, hic⟩
    obtain ⟨cb, hcb⟩ := hl.wired.block c hc
    rwa [hl.home_unique hb hc hi ((h.evolves.body_sublist hcb).subset hic)]
  · exact fun hi => ⟨b, hb, hi⟩

/-- A reading that is left refers to nothing that was taken out. -/
theorem not_takenOut (hl : a.Laid f) (hb : a.Reachable f b) (hread : a.ReadAt f u b k)
    (hreads : a'.Reads (a.scopeOf f) u) (huse : a'.uses[u.idx]? = some use)
    (hval : use.value = some v) : ¬ a.TakenOut f (a'.standing (a.scopeOf f)) v := by
  obtain ⟨use', v', x, d, huse', hval', -, hx, hby, -, hstands, -⟩ := h.read u b k hb hread
  cases huse.symm.trans huse'
  cases hval.symm.trans hval'
  rintro ⟨c, i, ins, hc, hi, hgone, hins, hdef⟩
  obtain ⟨-, x', hx', hby'⟩ := hl.wired.value_of_definition (hl.reachable c hc) hi hins hdef
  cases hx.symm.trans hx'
  cases hby.symm.trans hby'
  have hstanding := standing_iff.mpr (hstands hreads)
  simp [hgone] at hstanding

/-- The sources of an instruction that still stands are still read. -/
theorem reads_of_standing (hkeep : a'.standing (a.scopeOf f) i = true) {ins : Instr}
    (hins : a.instrs[i.idx]? = some ins) (hu : some u ∈ ins.sources) :
    a'.Reads (a.scopeOf f) u := by
  obtain ⟨c, hc, hi⟩ := standing_iff.mp hkeep
  obtain ⟨ins', hins', hact, hind⟩ := h.evolves.instr i ins hins
  exact .inl ⟨c, hc, i, hi, ins', hins', by rwa [Instr.sources_congr hact hind]⟩

theorem sameReading (hl : a.Laid f) (hb : a.Reachable f b) (hread : a.ReadAt f u b k)
    (hreads : a'.Reads (a.scopeOf f) u) (huse : a.uses[u.idx]? = some use)
    (hguards : use.guards = none) : SameReading a a'
      (a.TakenOut f (a'.standing (a.scopeOf f))) (a.CopiesHold f b k) u where
  operand := by
    obtain ⟨use', v, x, d, huse', -, -, -, -, -, -, hsource, -⟩ := h.read u b k hb hread
    obtain ⟨-, hguards''⟩ := h.evolves.reader_eq huse huse'
    exact (hsource (hguards''.trans hguards)).2
  kept _ _ huse' hval := h.not_takenOut hl hb hread hreads huse' hval

/-- Forwarding takes out copies and turns readings, and does nothing else. -/
theorem reduction (hl : a.Laid f) :
    Reduction a a' f (a'.standing (a.scopeOf f)) (a.CopiesHold f) where
  blocksOf := blocksOf_congr h.evolves.constructs
    (map_of_functions h.functions f _ (by exact fun _ => rfl))
  bodyRegion := bodyRegion_congr h.evolves.constructs
    (map_of_functions h.functions f _ (by exact fun _ => rfl))
  constructs := h.evolves.constructs
  exits := h.exits
  body b hb := h.body_eq hl (hl.reachable b hb)
  instr := h.evolves.instr
  listed b hb := hl.wired.instr b (hl.reachable b hb)
  width := widthOf_of_values h.values
  plain := h.plain
  silent b hb i hi hgone ins hins env := by
    rcases h.gone b (hl.reachable b hb) i hi with hmem | ⟨ins', p, hins', hact⟩
    · have hstanding : a'.standing (a.scopeOf f) i = true :=
        standing_iff.mpr ⟨b, hl.reachable b hb, hmem⟩
      simp [hgone] at hstanding
    · cases hins.symm.trans hins'
      simp [events, hact]
  source b hb k i hi hkeep ins hins hphi u hu := by
    obtain ⟨use, -, huse, -, -, -, hguards⟩ := hl.wired.use_of_source (hl.reachable b hb)
      (List.mem_of_getElem? hi) hins hu
    exact h.sameReading hl hb (.source hi hins hphi hu) (h.reads_of_standing hkeep hins hu) huse
      hguards
  incoming b hb t hbt i hi hkeep ins dest srcs u hins hact hu := by
    have hmem := Instr.mem_sources_of_phi hact (mem_of_lookup hu)
    obtain ⟨use, -, huse, -, -, -, hguards⟩ :=
      hl.wired.use_of_source (hl.reachable t (hb.flow hbt)) hi hins hmem
    exact h.sameReading hl hb (.incoming hbt hi hins hact hu) (h.reads_of_standing hkeep hins hmem)
      huse hguards
  condition b hb u hu := by
    obtain ⟨cid, hcid, con, yes, no, hcon, hshape⟩ := conditionAfter_spec hu
    have hreads : a'.Reads (a.scopeOf f) u :=
      .inr ⟨cid, hcid, con, yes, no, by rw [h.evolves.constructs, hcon], hshape⟩
    obtain ⟨use, -, huse, -, -, hguards, -⟩ := hl.wired.use_of_condition hcid hcon hshape
    obtain ⟨use', -, -, -, huse', -, -, -, -, -, -, -, hcondition⟩ :=
      h.read u b _ hb (.condition hu)
    obtain ⟨-, hguards''⟩ := h.evolves.reader_eq huse huse'
    exact ⟨hcondition (by simp [hguards'', hguards]),
      fun _ _ huse hval => h.not_takenOut hl hb (.condition hu) hreads huse hval⟩
  first root env hroot := copiesHold_first hroot
  step b hb k i hi env henv m past := hl.copiesHold_step hb hi henv m past
  flow b hb t hbt env henv m := hl.copiesHold_flow hb hbt henv m

end Forwarded

/-- Forwarding is not observed: in every meaning of the operations and from every environment,
the function enters the same blocks as before, and its effects read the same operands. -/
theorem observe_forwardCopies (hacc : a.Accepted f) (he : a.EdgesCurrent f)
    (hdistinct : a.InstrsDistinct f) (hphi : a.PhiUsesDistinct f)
    (hlists : a.ListsRead [a.scopeOf f]) (hown : a.ListsOwn [a.scopeOf f]) {progress : Bool}
    (hrun : Edit.forwardCopies f a = .ok progress a') (m : Meaning) (env : Env) (n : Nat) :
    a'.observe m f env n = a.observe m f env n := by
  have hl := laid_of_accepted hacc he hdistinct hphi
  obtain ⟨_, _, _, _, _, hc⟩ := hacc.checked
  have hs : a.Sound [a.scopeOf f] (a.InUse [a.scopeOf f]) :=
    sound_of_accepted [f] (by simpa using hacc) hlists hown
  have hpending : a.Pending [a.scopeOf f] fun b _ _ _ => False ∨ b ∈ (a.scopeOf f).blocks := by
    rintro i b p d x ⟨T, hT, hb, -⟩ - c u -
    obtain rfl := List.mem_singleton.mp hT
    exact .inr (.inr hb)
  have hblocks : a.blocksOf f = .ok (a.scopeOf f).blocks := by
    rw [hc.scope_blocks, hc.blocksOf]
  obtain ⟨-, hsteps, -⟩ := Edit.forwardCopies_spec (List.mem_singleton_self _) hblocks hs hpending
    hrun
  clear hrun
  have hend : Forwarded a a' f := by
    induction hsteps with
    | refl => exact hl.forwarded
    | tail _ hstep ih => exact ih.step hl hstep
  exact (hend.reduction hl).observe_eq m env n

/-- The copy of the sample is forwarded, and nobody notices. -/
theorem observe_forwardCopies_guardedCopy :
    ∃ a', Edit.forwardCopies ⟨0⟩ Edit.guardedCopy.built = .ok true a' ∧ ∀ m env n,
      a'.observe m ⟨0⟩ env n = Edit.guardedCopy.built.observe m ⟨0⟩ env n := by
  obtain ⟨a', hrun⟩ := Edit.result?_eq_some.mp
    (show (Edit.forwardCopies ⟨0⟩).result? Edit.guardedCopy.built = some true by decide +kernel)
  exact ⟨a', hrun, fun m env n => observe_forwardCopies (by decide +kernel) (by decide +kernel)
    (by decide +kernel) (by decide +kernel) (by decide +kernel) (by decide +kernel) hrun m env n⟩

end Arena

end ShaderCompiler
