import ShaderCompiler.Proofs.Build.Skeleton

/-!
# What builder calls do to the skeleton

A new instruction is made in steps: it is entered without a block, it gets its values and its
sources, and last it is put into the current block. Whichever instruction it is, the skeleton ends
up with one new instruction in the block at the end of the current list, which defines new values.
The calls for control flow add items at the end of a list, and lists of one new block.
-/

namespace ShaderCompiler

variable {a : Arena} {b : BlockId} {p : Option Owner} {e : ListRef}
  {lists : ListRef → Option (List Item)}

namespace Edit

variable {α β : Type} {P : Arena → Prop}

/-- Every run that succeeds leads from `P` to `Q`. -/
def Yields (P : Arena → Prop) (x : Edit α) (Q : α → Arena → Prop) : Prop :=
  ∀ ⦃a y a'⦄, P a → x a = .ok y a' → Q y a'

theorem Yields.bind {Q : α → Arena → Prop} {R : β → Arena → Prop} {x : Edit α} {k : α → Edit β}
    (hx : x.Yields P Q) (hk : ∀ y, (k y).Yields (Q y) R) : (x >>= k).Yields P R := by
  intro a z a' ha h
  obtain ⟨y, a₁, hxy, hky⟩ := bind_eq_ok.mp h
  exact hk y (hx ha hxy) hky

theorem Yields.mono {Q R : α → Arena → Prop} {x : Edit α} (hx : x.Yields P Q)
    (h : ∀ y a, Q y a → R y a) : x.Yields P R :=
  fun _ y a' ha hrun => h y a' (hx ha hrun)

theorem yields_pure {Q : α → Arena → Prop} {y : α} (h : ∀ a, P a → Q y a) :
    (pure y : Edit α).Yields P Q := by
  intro a z a' ha hrun
  obtain ⟨rfl, rfl⟩ := pure_eq_ok.mp hrun
  exact h a ha

theorem yields_throw {Q : α → Arena → Prop} (e : Fault) : (throw e : Edit α).Yields P Q := by
  intro a y a' _ h
  cases h

theorem yields_look (view : Arena → Except Fault α) : (look view).Yields P fun _ => P := by
  intro a y a' ha h
  obtain ⟨-, rfl⟩ := look_eq_ok.mp h
  exact ha

theorem yields_liftM (x : Except Fault α) : (liftM x : Edit α).Yields P fun _ => P := by
  intro a y a' ha h
  obtain ⟨-, rfl⟩ := liftM_eq_ok.mp h
  exact ha

theorem yields_ite {Q : α → Arena → Prop} {c : Prop} [Decidable c] {x y : Edit α}
    (hx : x.Yields P Q) (hy : y.Yields P Q) : (if c then x else y).Yields P Q := by
  split
  · exact hx
  · exact hy

theorem yields_forM {γ : Type} {k : γ → Edit Unit} (hk : ∀ x, (k x).Yields P fun _ => P)
    (l : List γ) : (l.forM k).Yields P fun _ => P := by
  induction l with
  | nil => exact yields_pure fun _ h => h
  | cons x l ih =>
    rw [List.forM_eq_forM, List.forM_cons]
    exact (hk x).bind fun _ => ih

theorem Yields.of_and {Q : α → Arena → Prop} {p : Prop} {x : Edit α} (h : p → x.Yields P Q) :
    x.Yields (fun a => p ∧ P a) Q :=
  fun _ _ _ ha hrun => h ha.1 ha.2 hrun

/-- A computation that stops under a condition. -/
theorem yields_unless {Q : α → Arena → Prop} {c : Prop} [Decidable c] {e : Fault} {x : Edit α}
    (hx : x.Yields P Q) :
    (if c then (throw e >>= fun _ : PUnit => x) else x : Edit α).Yields P Q :=
  yields_ite (fun _ _ _ _ hrun => by simp at hrun) hx

/-- A computation keeps what depends on a view that it conserves. -/
theorem Conserves.yields {σ : Type} {q : Arena → σ} {x : Edit α} (hx : x.Conserves q)
    (hP : ∀ a a', q a' = q a → P a → P a') : x.Yields P fun _ => P :=
  fun a _ a' ha hrun => hP a a' (hx hrun) ha

theorem yields_checkComps (n : Int) : (checkComps n).Yields P fun _ => P :=
  yields_ite (yields_throw _) (yields_pure fun _ h => h)

end Edit

/-! ### Changes of the skeleton -/

namespace Skeleton

variable (s : Skeleton)

/-- Whether an instruction is a φ. -/
def isPhi (i : InstrId) : Bool :=
  (s.instr i).any (·.isPhi)

/-- A list ends with a block. -/
def Ends (r : ListRef) (b : BlockId) : Prop :=
  ∃ l, s.items r = some l ∧ l.getLast? = some (.block b)

/-- New values of a function, which say that an instruction defines them. -/
def numbered (f : FunctionId) (i : InstrId) (vs : List ValueId) : Skeleton :=
  { s with
    value := fun v => if v ∈ vs then (s.count f).map fun k => (k + vs.idxOf v, some i) else s.value v
    count := fun g => if g = f then (s.count g).map (· + vs.length) else s.count g }

/-- A new instruction, and new values that say it defines them. -/
def drafted (f : FunctionId) (i : InstrId) (role : Role) (vs : List ValueId) : Skeleton :=
  { s.numbered f i vs with instr := Function.update s.instr i (some role) }

/-- The instructions of a block with a new one among them: a φ goes behind those that are there, and
other instructions to the end. -/
def withNew (b : BlockId) (i : InstrId) (isPhi : Bool) : List InstrId :=
  if isPhi then (s.body b).takeWhile s.isPhi ++ i :: (s.body b).dropWhile s.isPhi
  else s.body b ++ [i]

/-- A new instruction in a block, with the values that it defines. -/
def insert (f : FunctionId) (b : BlockId) (i : InstrId) (isPhi : Bool) (vs : List ValueId) :
    Skeleton :=
  let t := s.drafted f i ⟨some b, isPhi, vs.map some⟩ vs
  { t with body := Function.update s.body b (t.withNew b i isPhi) }

/-- A list gets a new item at its end. Apart from that there may be lists of the new item, with one
new block at most. -/
structure Grows (r : ListRef) (x : Item) (t : Skeleton) : Prop where
  value : t.value = s.value
  instr : t.instr = s.instr
  body : t.body = s.body
  count : t.count = s.count
  finish : t.finish = s.finish
  parent : t.parent x = some (some r.owner)
  keeps : ∀ item p, s.parent item = some p → t.parent item = some p
  construct : ∀ n p, t.parent (.construct n) = some p →
    s.parent (.construct n) = some p ∨ .construct n = x
  longer : ∃ l, s.items r = some l ∧ t.items r = some (l ++ [x])
  same : ∀ e l, e ≠ r → s.items e = some l → t.items e = some l
  start : ∀ e l, e ≠ r → t.items e = some l → s.items e = some l
    ∨ (∃ n, x = .construct n ∧ e.owner = .construct n)
      ∧ (l = [] ∨ ∃ b, l = [.block b] ∧ t.parent (.block b) = some (some e.owner))

/-- A new function with an exit block, whose body is one block. -/
def founded (f : FunctionId) (finish b : BlockId) : Skeleton :=
  { s with
    parent := fun item =>
      if item = .block b ∨ item = .block finish then some (some (.function f)) else s.parent item
    items := Function.update s.items (.body f) (some [.block b])
    count := Function.update s.count f (some 0)
    finish := Function.update s.finish f (some finish) }

/-- An instruction is being made: it has been entered with an action and is in no block, and there
are new values that say it defines them. -/
structure Drafting (f : FunctionId) (i : InstrId) (act : Action → Prop) (vs : List ValueId)
    (a : Arena) : Prop where
  fresh : s.instr i = none
  new : ∀ v ∈ vs, s.value v = none
  nodup : vs.Nodup
  drafted : ∃ x, act x ∧ a.instrs[i.idx]? = some ⟨none, 0, false, none, x⟩
    ∧ a.skeleton = s.drafted f i (Instr.role ⟨none, 0, false, none, x⟩) vs

/-- A call at a cursor has put a new instruction into the current block. -/
def Inserted (c : Cursor) (a : Arena) : Prop :=
  ∃ b i isPhi vs, s.Ends c.list b ∧ s.instr i = none ∧ (∀ v ∈ vs, s.value v = none) ∧ vs.Nodup
    ∧ a.skeleton = s.insert c.function b i isPhi vs

/-- The block at the end of the list of a cursor is there. -/
def Ready (c : Cursor) : Prop :=
  ∀ b, s.Ends c.list b → ∃ p, s.parent (.block b) = some p

end Skeleton

theorem Arena.skeleton_isPhi :
    a.skeleton.isPhi = fun j => a.instrs[j.idx]?.any (·.isPhi) := by
  funext j
  rw [Skeleton.isPhi, skeleton, Option.any_map]
  rfl

namespace Edit

open Arena

variable {α : Type} {s : Skeleton} {f : FunctionId} {i : InstrId} {act : Action → Prop}
  {vs : List ValueId}

/-! ### Making instructions -/

theorem newInstr_drafts (f : FunctionId) (act : Action → Prop) {x : Action} (hx : act x) :
    (newInstr x).Yields (·.skeleton = s) fun i => s.Drafting f i act [] := by
  rintro a i a' rfl hrun
  cases hrun
  refine ⟨?_, nofun, List.nodup_nil, x, hx, ?_, ?_⟩
  · simp [skeleton]
  · simp
  · rw [skeleton_pushInstr]
    refine Skeleton.ext ?_ rfl rfl rfl rfl ?_ rfl
    · simp [Skeleton.drafted, Skeleton.numbered]
    · funext g
      simp [Skeleton.drafted, Skeleton.numbered]

/-- What leaves the skeleton and the instructions alone leaves the draft as it is. -/
theorem Conserves.drafts {x : Edit α} (hx : x.Conserves fun a => (a.skeleton, a.instrs)) :
    x.Yields (s.Drafting f i act vs) fun _ => s.Drafting f i act vs := by
  refine hx.yields fun a a' hsame h => ?_
  obtain ⟨hskeleton, hinstrs⟩ := Prod.mk.inj hsame
  obtain ⟨y, hy, hins, hdraft⟩ := h.drafted
  exact ⟨h.fresh, h.new, h.nodup, y, hy, by rw [hinstrs, hins], by rw [hskeleton, hdraft]⟩

theorem listless_draft : Listless fun a => (a.skeleton, a.instrs) where
  push _ _ := rfl
  modify _ _ _ := rfl
  withUses a v asCondition l := Prod.ext (listless_skeleton.withUses a v asCondition l) rfl

theorem listless_constructs : Listless fun a => (a.skeleton, a.constructs) where
  push _ _ := rfl
  modify _ _ _ := rfl
  withUses a v asCondition l := Prod.ext (listless_skeleton.withUses a v asCondition l) rfl

theorem setAction_drafts (act' : Action → Prop) {k : Action → Action}
    (hk : ∀ x, act x → act' (k x)) :
    (setAction i k).Yields (s.Drafting f i act vs) fun _ => s.Drafting f i act' vs := by
  intro a y a' h hrun
  obtain ⟨x, hx, hins, hdraft⟩ := h.drafted
  obtain rfl := setInstr_eq_ok.mp hrun
  refine ⟨h.fresh, h.new, h.nodup, k x, hk x hx, ?_, ?_⟩
  · rw [modifyInstr_instrs_get, if_pos rfl, hins]
    rfl
  · rw [skeleton_modifyInstr a hins, hdraft]
    simp [Skeleton.drafted]

theorem newValue_drafts (comps : Int) : (newValue f comps (some i)).Yields (s.Drafting f i act vs)
    fun v => s.Drafting f i act (vs ++ [v]) := by
  intro a v a' h hrun
  obtain ⟨x, hx, hins, hdraft⟩ := h.drafted
  simp only [newValue, bind_eq_ok, look_eq_ok, function_eq_ok, setFunction_eq_ok] at hrun
  obtain ⟨_, _, hcheck, g, _, ⟨hg, rfl⟩, _, _, rfl, hadd⟩ := hrun
  obtain rfl : a = _ := yields_checkComps (P := (a = ·)) comps rfl hcheck
  cases hadd
  have hcount : s.count f = some (g.valueCount - vs.length) := by
    have hnow : a.skeleton.count f = some g.valueCount := by simp [skeleton, hg]
    rw [hdraft] at hnow
    simp only [Skeleton.drafted, Skeleton.numbered, if_pos, Option.map_eq_some_iff] at hnow
    obtain ⟨k, hk, hsum⟩ := hnow
    rw [hk, ← hsum]
    simp
  have habsent : a.skeleton.value ⟨a.values.size⟩ = none := by simp [skeleton]
  have hnew : (⟨a.values.size⟩ : ValueId) ∉ vs := by
    intro hmem
    rw [hdraft] at habsent
    simp [Skeleton.drafted, Skeleton.numbered, hmem, hcount] at habsent
  have hvalue : s.value ⟨a.values.size⟩ = none := by
    rw [hdraft] at habsent
    simpa [Skeleton.drafted, Skeleton.numbered, hnew] using habsent
  refine ⟨h.fresh, ?_, ?_, x, hx, hins, ?_⟩
  · intro w hw
    rcases List.mem_append.mp hw with hw | hw
    · exact h.new w hw
    · obtain rfl := List.mem_singleton.mp hw
      exact hvalue
  · exact List.nodup_append.mpr ⟨h.nodup, List.nodup_singleton _, by
      rintro w hw _ hw' rfl
      exact hnew (List.mem_singleton.mp hw' ▸ hw)⟩
  · have hbody : a.skeleton.items (.body f) = some g.body := by
      rw [skeleton_items_body, hg, Option.map_some]
    rw [skeleton_pushValue, skeleton_modifyFunction a hg _ rfl,
      ← hbody, Function.update_eq_self, hdraft]
    refine Skeleton.ext (funext fun w => ?_) rfl rfl rfl rfl (funext fun e => ?_) rfl
    · simp only [modifyFunction_values, Skeleton.drafted, Skeleton.numbered, hcount,
        Function.update_apply, List.mem_append, List.mem_singleton]
      by_cases hw : w = ⟨a.values.size⟩
      · subst hw
        simp [hnew, List.idxOf_append_of_notMem]
      · by_cases hmem : w ∈ vs
        · simp [hw, hmem, List.idxOf_append_of_mem]
        · simp [hw, hmem]
    · simp only [Skeleton.drafted, Skeleton.numbered, hcount, Function.update_apply,
        List.length_append]
      by_cases he : e = f
      · subst he
        simp only [if_pos, hcount, Option.map_some, List.length_singleton]
        exact congrArg some (by omega)
      · simp [he]

theorem newUse_drafts (v : Option ValueId) :
    (newUse i v).Yields (s.Drafting f i act vs) fun _ => s.Drafting f i act vs :=
  (listless_draft.conserves_newUse i v).drafts

theorem linkSources_drafts {action : List (Option UseId) → Action} (h : ∀ uses, act (action uses))
    (made : List (Option UseId)) (srcs : List (Option ValueId)) :
    (linkSources i action made srcs).Yields (s.Drafting f i act vs)
      fun _ => s.Drafting f i act vs := by
  induction srcs generalizing made with
  | nil => exact yields_pure fun _ ha => ha
  | cons v srcs ih =>
    exact (newUse_drafts v).bind fun u => (setAction_drafts act fun _ _ => h _).bind fun _ => ih _

theorem linkTexSources_drafts {action : List (TexRole × UseId) → Action}
    (h : ∀ uses, act (action uses)) (made : List (TexRole × UseId))
    (srcs : List (TexRole × Option ValueId)) :
    (linkTexSources i action made srcs).Yields (s.Drafting f i act vs)
      fun _ => s.Drafting f i act vs := by
  induction srcs generalizing made with
  | nil => exact yields_pure fun _ ha => ha
  | cons v srcs ih =>
    exact (newUse_drafts v.2).bind fun u => (setAction_drafts act fun _ _ => h _).bind fun _ => ih _

end Edit

/-- An instruction that is made goes into a block. -/
theorem Skeleton.Drafting.insert {s : Skeleton} {f : FunctionId} {i : InstrId}
    {act : Action → Prop} {vs : List ValueId} (h : s.Drafting f i act vs a)
    (hp : s.parent (.block b) = some p) {isPhi : Bool} {k : Instr → Instr}
    (hk : ∀ x, act x → (k ⟨none, 0, false, none, x⟩).role = ⟨some b, isPhi, vs.map some⟩)
    {kb : Block → Block} (hkb : ∀ bb, bb.instrs = s.body b → (kb bb).parent = bb.parent
      ∧ (kb bb).instrs = (s.drafted f i ⟨some b, isPhi, vs.map some⟩ vs).withNew b i isPhi) :
    ((a.modifyInstr i k).modifyBlock b kb).skeleton = s.insert f b i isPhi vs := by
  obtain ⟨x, hx, hins, hdraft⟩ := h.drafted
  have hparent : a.skeleton.parent (.block b) = some p := by
    rw [hdraft]
    exact hp
  rw [Arena.skeleton_parent_block, Option.map_eq_some_iff] at hparent
  obtain ⟨bb, hbb, rfl⟩ := hparent
  have hbody : bb.instrs = s.body b := by
    rw [← Arena.body_of_block hbb]
    exact congrFun (congrArg Skeleton.body hdraft) b
  obtain ⟨hsame, hnew⟩ := hkb bb hbody
  rw [Arena.skeleton_modifyBlock _ (by rwa [Arena.modifyInstr_blocks]),
    Arena.skeleton_modifyInstr a hins, hdraft, hnew, hsame, hk x hx]
  refine Skeleton.ext rfl ?_ rfl ?_ rfl rfl rfl
  · exact Function.update_idem _ _ _
  · exact Function.update_eq_self_iff.mpr hp.symm

namespace Cursor

open Arena Edit

variable {s : Skeleton} (c : Cursor)

theorem block_ends {P : Arena → Prop} (hP : ∀ a, P a → a.skeleton.items c.list = s.items c.list) :
    c.block.Yields P fun b a => s.Ends c.list b ∧ P a := by
  intro a b a' ha hrun
  simp only [block, bind_eq_ok, look_eq_ok] at hrun
  obtain ⟨l, _, ⟨hl, rfl⟩, hrun⟩ := hrun
  have hitems : s.items c.list = some l := (hP a ha) ▸ skeleton_items_eq_some.mpr hl
  cases hlast : l.getLast? with
  | none => simp [hlast] at hrun
  | some item =>
    cases item with
    | construct n => simp [hlast] at hrun
    | block b' =>
      rw [hlast] at hrun
      obtain ⟨rfl, rfl⟩ := pure_eq_ok.mp hrun
      exact ⟨⟨l, hitems, hlast⟩, ha⟩

/-- An instruction that is made goes to the end of the current block. -/
theorem insert_inserts {i : InstrId} {act : Action → Prop} {vs : List ValueId} (hc : s.Ready c)
    (hact : ∀ x, act x → Instr.role ⟨none, 0, false, none, x⟩ = ⟨none, false, vs.map some⟩) :
    (c.insert i).Yields (s.Drafting c.function i act vs) fun _ => s.Inserted c := by
  have hP (a : Arena) (h : s.Drafting c.function i act vs a) :
      a.skeleton.items c.list = s.items c.list := by
    obtain ⟨x, -, -, hdraft⟩ := h.drafted
    rw [hdraft]
    rfl
  refine (c.block_ends hP).bind fun b => ?_
  rintro a _ a' ⟨hends, h⟩ hrun
  simp only [appendInstr, bind_eq_ok, setInstr_eq_ok, setBlock_eq_ok] at hrun
  obtain ⟨_, _, ⟨_, _, rfl, rfl⟩, hend⟩ := hrun
  obtain ⟨rfl, rfl⟩ := pure_eq_ok.mp hend
  obtain ⟨p, hp⟩ := hc b hends
  refine ⟨b, i, false, vs, hends, h.fresh, h.new, h.nodup, h.insert hp (fun x hx => ?_) ?_⟩
  · obtain ⟨-, hphi, hdefs⟩ := Role.mk.inj (hact x hx)
    exact congrArg₂ (Role.mk (some b)) hphi hdefs
  · rintro bb hbody
    exact ⟨rfl, by rw [hbody]; rfl⟩

/-! ### Instructions -/

/-- Every run that succeeds puts a new instruction into the current block. -/
abbrev Inserts {α : Type} (s : Skeleton) (x : Edit α) : Prop :=
  x.Yields (·.skeleton = s) fun _ => s.Inserted c

section Instructions

variable (hc : s.Ready c)

include hc

theorem const_inserts (values : List UInt64) : c.Inserts s (c.const values) :=
  (yields_checkComps _).bind fun _ => (newInstr_drafts _ (fun _ => True) trivial).bind fun i =>
    (newValue_drafts _).bind fun v =>
      (setAction_drafts (· = .const (some v) values) fun _ _ => rfl).bind fun _ =>
        c.insert_inserts hc fun x hx => by rw [hx]; rfl

theorem undef_inserts (comps : Int) : c.Inserts s (c.undef comps) :=
  (yields_checkComps _).bind fun _ => (newInstr_drafts _ (fun _ => True) trivial).bind fun i =>
    (newValue_drafts _).bind fun v =>
      (setAction_drafts (· = .undef (some v)) fun _ _ => rfl).bind fun _ =>
        c.insert_inserts hc fun x hx => by rw [hx]; rfl

theorem alu_inserts (op : AluOp) (comps : Int) (srcs : List (Option ValueId)) :
    c.Inserts s (c.alu op comps srcs) := by
  refine (yields_liftM _).bind fun info => yields_unless <| (yields_checkComps _).bind fun _ =>
    (newInstr_drafts _ (fun _ => True) trivial).bind fun i => (newValue_drafts _).bind fun v => ?_
  let act (x : Action) : Prop := ∃ uses, x = .alu ⟨op, some v, false, uses⟩
  exact (setAction_drafts act fun _ _ => ⟨_, rfl⟩).bind fun _ =>
    (linkSources_drafts (fun uses => ⟨uses, rfl⟩) _ _).bind fun _ =>
      c.insert_inserts hc fun x ⟨uses, hx⟩ => by rw [hx]; rfl

theorem aluOfSources_inserts (op : AluOp) (srcs : List (Option ValueId)) :
    c.Inserts s (c.aluOfSources op srcs) :=
  (yields_liftM _).bind fun _ => yields_ite (c.alu_inserts hc op _ srcs) <|
    (yields_liftM _).bind fun _ => (yields_liftM _).bind fun _ => (yields_look _).bind fun _ =>
      c.alu_inserts hc op _ srcs

omit hc in
theorem setSource_inserts (i : InstrId) (k : Nat) (f : Use → Use) :
    (setSource i k f).Yields (s.Inserted c) fun _ => s.Inserted c := by
  refine (yields_look _).bind fun _ => (yields_liftM _).bind fun _ => (yields_liftM _).bind fun u => ?_
  exact (listless_skeleton.conserves_setUse u f).yields fun a a' hsame h => by
    rwa [Skeleton.Inserted, hsame]

theorem mov_inserts (v : Option ValueId) (swizzle : List Nat) : c.Inserts s (c.mov v swizzle) := by
  refine yields_ite ?_ ?_
  · exact (yields_liftM _).bind fun _ => (yields_look _).bind fun _ => c.alu_inserts hc _ _ _
  · exact (c.alu_inserts hc _ _ _).bind fun i => (c.setSource_inserts i 0 _).bind fun _ =>
      yields_pure fun _ h => h

theorem gather_inserts (lanes : List (Option ValueId × Nat)) : c.Inserts s (c.gather lanes) :=
  (yields_liftM _).bind fun _ => (c.alu_inserts hc _ _ _).bind fun i =>
    (yields_forM (fun lane : (Option ValueId × Nat) × Nat => c.setSource_inserts i lane.2 _) _).bind
      fun _ => yields_pure fun _ h => h

theorem intrinsic_inserts (op : Intrinsic) (comps : Int) (srcs : List (Option ValueId)) :
    c.Inserts s (c.intrinsic op comps srcs) := by
  let act (dest : Option ValueId) (x : Action) : Prop := ∃ uses, x = .intrinsic op dest uses 0
  refine (yields_liftM _).bind fun info => yields_unless <|
    (newInstr_drafts c.function (act none) ⟨_, rfl⟩).bind fun i =>
      (linkSources_drafts (fun uses => ⟨uses, rfl⟩) _ _).bind fun _ => yields_ite ?_ ?_
  · refine (newValue_drafts comps).bind fun v =>
      (setAction_drafts (act (some v)) fun x ⟨uses, hx⟩ => ⟨uses, by rw [hx]⟩).bind fun _ => ?_
    exact c.insert_inserts hc fun x ⟨uses, hx⟩ => by rw [hx]; rfl
  · exact c.insert_inserts hc fun x ⟨uses, hx⟩ => by rw [hx]; rfl

theorem tex_inserts (op : TexOp) (comps texture sampler : Int)
    (srcs : List (TexRole × Option ValueId)) :
    c.Inserts s (c.tex op comps texture sampler srcs) := by
  refine (yields_checkComps _).bind fun _ => (newInstr_drafts _ (fun _ => True) trivial).bind fun i =>
    (newValue_drafts _).bind fun v => ?_
  let act (x : Action) : Prop := ∃ uses, x = .tex op (some v) uses texture sampler
  exact (setAction_drafts act fun _ _ => ⟨_, rfl⟩).bind fun _ =>
    (linkTexSources_drafts (fun uses => ⟨uses, rfl⟩) _ _).bind fun _ =>
      c.insert_inserts hc fun x ⟨uses, hx⟩ => by rw [hx]; rfl

theorem call_inserts (callee : String) (params : List (Option ValueId)) :
    c.Inserts s (c.call callee params) := by
  let act (x : Action) : Prop := ∃ uses, x = .call callee uses
  exact (newInstr_drafts _ act ⟨_, rfl⟩).bind fun i =>
    (linkSources_drafts (fun uses => ⟨uses, rfl⟩) _ _).bind fun _ =>
      c.insert_inserts hc fun x ⟨uses, hx⟩ => by rw [hx]; rfl

theorem jump_inserts (kind : JumpKind) : c.Inserts s (c.jump kind) :=
  (newInstr_drafts _ (· = .jump kind) rfl).bind fun _ =>
    c.insert_inserts hc fun x hx => by rw [hx]; rfl

omit hc in
/-- Each entry of a parallel copy comes with a value of its own. -/
theorem copyEntries_drafts {i : InstrId} (made : List (ValueId × UseId))
    (srcs : List (Option ValueId)) : (c.copyEntries i made srcs).Yields
      (s.Drafting c.function i (· = .parallelCopy made) (made.map (·.1))) fun _ a =>
        ∃ entries : List (ValueId × UseId),
          s.Drafting c.function i (· = .parallelCopy entries) (entries.map (·.1)) a := by
  induction srcs generalizing made with
  | nil => exact yields_pure fun _ h => ⟨made, h⟩
  | cons v srcs ih =>
    refine (yields_liftM _).bind fun _ => (yields_look _).bind fun _ =>
      (newValue_drafts _).bind fun dest => (newUse_drafts v).bind fun u => ?_
    refine (setAction_drafts (· = .parallelCopy (made ++ [(dest, u)])) fun _ _ => rfl).bind fun _ => ?_
    simpa only [List.map_append, List.map_cons, List.map_nil] using ih (made ++ [(dest, u)])

theorem parallelCopy_inserts (srcs : List (Option ValueId)) :
    c.Inserts s (c.parallelCopy srcs) := by
  refine (newInstr_drafts _ (· = .parallelCopy []) rfl).bind fun i =>
    (c.copyEntries_drafts [] srcs).bind fun _ => ?_
  rintro a _ a' ⟨entries, h⟩ hrun
  refine c.insert_inserts hc (fun x hx => ?_) h hrun
  rw [hx, List.map_map]
  rfl

/-- A φ goes behind the φs of the current block. -/
theorem phi_inserts (comps : Int) : c.Inserts s (c.phi comps) := by
  refine (c.block_ends fun a h => by rw [h]).bind fun b => .of_and fun hends =>
    (yields_checkComps _).bind fun _ => (newInstr_drafts _ (fun _ => True) trivial).bind fun i =>
      (newValue_drafts _).bind fun v => ?_
  rintro a _ a' h hrun
  obtain ⟨p, hp⟩ := hc b hends
  simp only [bind_eq_ok, setInstr_eq_ok, get_eq_ok, look_eq_ok, block_eq_ok, setBlock_eq_ok] at hrun
  obtain ⟨_, _, rfl, _, _, ⟨rfl, rfl⟩, bb, _, ⟨hbb, rfl⟩, _, _, rfl, hend⟩ := hrun
  obtain ⟨rfl, rfl⟩ := pure_eq_ok.mp hend
  refine ⟨b, i, true, _, hends, h.fresh, h.new, h.nodup, h.insert hp (fun x _ => rfl) ?_⟩
  obtain ⟨x, -, hins, hdraft⟩ := h.drafted
  have hbody : bb.instrs = s.body b := by
    rw [← body_of_block (a := a) hbb]
    exact congrFun (congrArg Skeleton.body hdraft) b
  have hroles : (a.modifyInstr i fun ins =>
      { ins with block := some b, action := .phi (some v) [] }).skeleton.instr
      = (s.drafted c.function i ⟨some b, true, [some v]⟩ [v]).instr := by
    rw [skeleton_modifyInstr a hins, hdraft]
    exact Function.update_idem _ _ _
  intro _ _
  refine ⟨rfl, ?_⟩
  have hphis := skeleton_isPhi.symm.trans (funext fun j => congrArg (Option.any _) (congrFun hroles j))
  dsimp only
  rw [hbody, hphis]
  rfl

end Instructions

end Cursor

/-! ### Control flow -/

namespace Edit

open Arena

variable {s : Skeleton}

theorem setItems_eq_ok {a' : Arena} {r : ListRef} {l : List Item} {y : Unit} :
    setItems r l a = .ok y a' ↔ a.withItems r l = a' := by
  cases r <;> exact ⟨fun h => by cases h; rfl, fun h => by cases h; rfl⟩

theorem appendItem_appends (r : ListRef) (x : Item) :
    (appendItem r x).Yields (·.skeleton = s) fun _ a => ∃ l, s.items r = some l
      ∧ a.skeleton = { s with items := Function.update s.items r (some (l ++ [x])) } := by
  rintro a _ a' rfl hrun
  simp only [appendItem, bind_eq_ok, look_eq_ok, setItems_eq_ok] at hrun
  obtain ⟨l, _, ⟨hl, rfl⟩, rfl⟩ := hrun
  exact ⟨l, skeleton_items_eq_some.mpr hl, skeleton_withItems (skeleton_items_eq_some.mpr hl) _⟩

theorem openBlock_opens (r : ListRef) (owner : Owner) :
    (openBlock r owner).Yields (·.skeleton = s) fun _ a => ∃ b l,
      s.parent (.block b) = none ∧ s.items r = some l
        ∧ a.skeleton = { s with
            parent := Function.update s.parent (.block b) (some (some owner))
            items := Function.update s.items r (some (l ++ [.block b])) } := by
  rintro a _ a' rfl hrun
  obtain ⟨b, a₁, hadd, happend⟩ := bind_eq_ok.mp hrun
  cases hadd
  obtain ⟨l, hl, happended⟩ := appendItem_appends r _ (skeleton_pushBlock a (some owner)) happend
  refine ⟨⟨a.blocks.size⟩, l, ?_, hl, happended⟩
  simp [skeleton_parent_block]

/-- What was there keeps its owner. -/
theorem update_parent_keeps {x item : Item} {q : Option Owner} (hx : s.parent x = none)
    (hp : s.parent item = some p) : Function.update s.parent x (some q) item = some p := by
  rw [← hp]
  exact Function.update_of_ne (by rintro rfl; simp [hx] at hp) _ _

/-- A block is opened at the end of a list. -/
theorem openBlock_grows (r : ListRef) : (openBlock r r.owner).Yields (·.skeleton = s)
    fun _ a => ∃ b, s.Grows r (.block b) a.skeleton := by
  refine (openBlock_opens r r.owner).mono fun _ a ⟨b, l, hb, hl, hskeleton⟩ => ⟨b, ?_⟩
  rw [hskeleton]
  refine ⟨rfl, rfl, rfl, rfl, rfl, Function.update_self _ _ _,
    fun item p hp => update_parent_keeps hb hp,
    fun n p hp => ?_, ⟨l, hl, Function.update_self _ _ _⟩, fun e l' he h => ?_, fun e l' he h => ?_⟩
  · exact .inl (by simpa [Function.update_of_ne] using hp)
  · rw [← h]
    exact Function.update_of_ne he _ _
  · exact .inl (by simpa [Function.update_of_ne he] using h)

end Edit

namespace Skeleton

variable {s t : Skeleton} {r : ListRef} {n : ConstructId} {l : List Item}

/-- A construct is new: it comes behind all that are there, and it has no lists. -/
structure NewConstruct (s : Skeleton) (n : ConstructId) : Prop where
  behind : ∀ m p, s.parent (.construct m) = some p → m.idx < n.idx
  noItems : ∀ e : ListRef, e.owner = .construct n → s.items e = none

theorem NewConstruct.parent (hn : s.NewConstruct n) : s.parent (.construct n) = none := by
  cases h : s.parent (.construct n) with
  | none => rfl
  | some p => exact absurd (hn.behind n p h) (lt_irrefl _)

/-- A list of a construct that has come to the end of a list gets its first block. -/
theorem Grows.starts (h : s.Grows r (.construct n) t)
    (hn : s.NewConstruct n) (he : e.owner = .construct n) (hb : t.parent (.block b) = none) :
    s.Grows r (.construct n) { t with
      parent := Function.update t.parent (.block b) (some (some (.construct n)))
      items := Function.update t.items e (some [.block b]) } := by
  have hne {d : ListRef} {l : List Item} (hl : s.items d = some l) : d ≠ e := by
    rintro rfl
    simp [hn.noItems d he] at hl
  obtain ⟨l₀, hl₀, hlonger⟩ := h.longer
  refine ⟨h.value, h.instr, h.body, h.count, h.finish,
    Edit.update_parent_keeps (q := some (.construct n)) hb h.parent,
    fun item p hp => Edit.update_parent_keeps hb (h.keeps item p hp), fun m p hp => ?_,
    ⟨l₀, hl₀, (Function.update_of_ne (hne hl₀) _ _).trans hlonger⟩, fun d l hd hl => ?_,
    fun d l hd hl => ?_⟩
  · exact h.construct m p (by simpa [Function.update_of_ne] using hp)
  · exact (Function.update_of_ne (hne hl) _ _).trans (h.same d l hd hl)
  · dsimp only at hl
    by_cases hde : d = e
    · subst hde
      rw [Function.update_self] at hl
      exact .inr ⟨⟨n, rfl, he⟩, .inr ⟨b, (Option.some.inj hl).symm, he ▸ Function.update_self _ _ _⟩⟩
    · rw [Function.update_of_ne hde] at hl
      exact (h.start d l hd hl).imp_right fun ⟨hown, hl⟩ =>
        ⟨hown, hl.imp_right fun ⟨c, hc, hp⟩ => ⟨c, hc, Edit.update_parent_keeps hb hp⟩⟩

/-- A construct has come to the end of a list, and its own lists are being made. -/
def Opening (s : Skeleton) (r : ListRef) (n : ConstructId) (lists : ListRef → Option (List Item))
    (t : Skeleton) : Prop :=
  s.Grows r (.construct n) t ∧ ∀ e : ListRef, e.owner = .construct n → t.items e = lists e

end Skeleton

theorem Arena.newConstruct (a : Arena) : a.skeleton.NewConstruct ⟨a.constructs.size⟩ where
  behind m p h := by
    rw [skeleton_parent_construct, Option.map_eq_some_iff] at h
    obtain ⟨x, hx, -⟩ := h
    exact (Array.getElem?_eq_some_iff.mp hx).1
  noItems e he := by
    rw [skeleton_items_construct he]
    simp

namespace Cursor

open Arena Edit

variable {s : Skeleton} (c : Cursor)

/-- The cursor in a list of a construct that was opened. -/
def into (n : ConstructId) (r : ListRef) : Cursor :=
  ⟨c.function, r, .construct n, ⟨n, c.list⟩ :: c.frames⟩

/-- A call at a cursor has opened a construct, whose lists have their first blocks. -/
def Opens (s : Skeleton) (c c' : Cursor) (a : Arena) : Prop :=
  ∃ n r b, s.NewConstruct n ∧ s.Grows c.list (.construct n) a.skeleton ∧ c' = c.into n r
    ∧ (∀ e : ListRef, e.owner = .construct n → a.skeleton.items e ≠ some [])
    ∧ r.owner = .construct n ∧ a.skeleton.items r = some [.block b]

/-- A new construct without items comes to the end of a list. -/
theorem appendItem_opens {r : ListRef} {n : ConstructId} (shape : Shape) (hn : s.NewConstruct n)
    (hr : ∃ l, s.items r = some l) (hempty : ∀ e l, shape.items? e = some l → l = []) :
    (appendItem r (.construct n)).Yields
      (fun a => a.skeleton = s.withConstruct n (some r.owner) shape)
      fun _ a => s.Opening r n shape.items? a.skeleton := by
  refine (appendItem_appends r _).mono fun _ a ⟨l, hl, ha⟩ => ?_
  obtain ⟨l₀, hl₀⟩ := hr
  have hne {e : ListRef} {l : List Item} (hl : s.items e = some l) : e.owner ≠ .construct n :=
    fun ho => by simp [hn.noItems e ho] at hl
  rw [Skeleton.withConstruct_items_of_ne (hne hl₀), hl₀] at hl
  cases hl
  have hlisted (e : ListRef) (ho : e.owner = .construct n) :
      a.skeleton.items e = shape.items? e := by
    rw [ha]
    exact (Function.update_of_ne (by rintro rfl; exact hne hl₀ ho) _ _).trans (if_pos ho)
  refine ⟨?_, hlisted⟩
  rw [ha] at hlisted ⊢
  refine ⟨rfl, rfl, rfl, rfl, rfl, Function.update_self _ _ _,
    fun item p hp => update_parent_keeps hn.parent hp,
    fun m p hp => ?_, ⟨l, hl₀, Function.update_self _ _ _⟩, fun e l he hl => ?_, fun e l he hl => ?_⟩
  · by_cases hm : m = n
    · exact .inr (by rw [hm])
    · exact .inl (by rwa [Skeleton.withConstruct_parent_of_ne (by simpa using hm)] at hp)
  · rw [← hl]
    exact (Function.update_of_ne he _ _).trans (Skeleton.withConstruct_items_of_ne (hne hl))
  · by_cases ho : e.owner = .construct n
    · exact .inr ⟨⟨n, rfl, ho⟩, .inl (hempty e l ((hlisted e ho).symm.trans hl))⟩
    · exact .inl ((Skeleton.withConstruct_items_of_ne ho).symm.trans
        ((Function.update_of_ne he _ _).symm.trans hl))

/-- A list of the new construct gets its first block. -/
theorem openBlock_starts {r : ListRef} {n : ConstructId}
    (hn : s.NewConstruct n) (he : e.owner = .construct n) (hempty : lists e = some []) :
    (openBlock e (.construct n)).Yields (fun a => s.Opening r n lists a.skeleton) fun _ a =>
      ∃ b, s.Opening r n (Function.update lists e (some [.block b])) a.skeleton := by
  rintro a y a' ⟨hgrows, hlisted⟩ hrun
  obtain ⟨b, l, hb, hl, ha⟩ := openBlock_opens e _ rfl hrun
  rw [hlisted e he, hempty] at hl
  cases hl
  refine ⟨b, ?_⟩
  rw [ha]
  refine ⟨hgrows.starts hn he hb, fun d hd => ?_⟩
  simp only [Function.update_apply, hlisted d hd, List.nil_append]

theorem opens_of_opening {n : ConstructId} {r : ListRef}
    (hn : s.NewConstruct n)
    (h : s.Opening c.list n lists a.skeleton) (hr : r.owner = .construct n)
    (hfirst : lists r = some [.block b])
    (hfull : ∀ e : ListRef, e.owner = .construct n → lists e ≠ some []) :
    c.Opens s (c.into n r) a :=
  ⟨n, r, b, hn, h.1, rfl, fun e he => h.2 e he ▸ hfull e he, hr, (h.2 r hr).trans hfirst⟩

theorem openLoop_opens (howner : c.owner = c.list.owner) (hlist : ∃ l, s.items c.list = some l) :
    c.openLoop.Yields (·.skeleton = s) fun y => c.Opens s y.2 := by
  rintro a y a' rfl hrun
  obtain ⟨n, a₁, hadd, hrun⟩ := bind_eq_ok.mp hrun
  cases hadd
  have hn := a.newConstruct
  obtain ⟨_, a₂, happend, hrun⟩ := bind_eq_ok.mp hrun
  have h₂ := appendItem_opens (.loop []) hn hlist (fun e l h => by
    cases e <;> simp_all [Shape.items?]) (howner ▸ skeleton_pushConstruct a _) happend
  obtain ⟨_, a₃, hopen, hrun⟩ := bind_eq_ok.mp hrun
  obtain ⟨b, h₃⟩ := openBlock_starts hn rfl rfl h₂ hopen
  obtain ⟨rfl, rfl⟩ := pure_eq_ok.mp hrun
  refine c.opens_of_opening hn h₃ rfl (Function.update_self _ _ _) fun e he => ?_
  cases e with
  | body f => cases he
  | yes m | no m | loop m =>
    obtain rfl : m = _ := Owner.construct.inj he
    simp [Shape.items?]

theorem openIf_opens (howner : c.owner = c.list.owner) (hlist : ∃ l, s.items c.list = some l)
    (cond : Option ValueId) :
    (c.openIf cond).Yields (·.skeleton = s) fun y => c.Opens s y.2 := by
  rintro a y a' rfl hrun
  obtain ⟨v, _, hv, hrun⟩ := bind_eq_ok.mp hrun
  obtain ⟨-, rfl⟩ := liftM_eq_ok.mp hv
  obtain ⟨n, a₁, hadd, hrun⟩ := bind_eq_ok.mp hrun
  cases hadd
  have hn := a.newConstruct
  obtain ⟨u, a₂, huse, hrun⟩ := bind_eq_ok.mp hrun
  obtain ⟨_, a₃, hlink, hrun⟩ := bind_eq_ok.mp hrun
  have hsame := (listless_constructs.unlisted.placeless.lists.link v u hlink).trans
    (listless_constructs.conserves_addUse _ huse)
  obtain ⟨hskeleton, hconstructs⟩ := Prod.mk.inj hsame
  obtain ⟨_, a₄, hset, hrun⟩ := bind_eq_ok.mp hrun
  cases hset
  have hconstruct : a₃.constructs[(⟨a.constructs.size⟩ : ConstructId).idx]?
      = some ⟨.branch none [] [], some c.owner⟩ := by
    rw [hconstructs]
    simp
  -- The condition is no part of the skeleton: the construct is entered as it was.
  have h₄ := skeleton_modifyConstruct a₃ hconstruct
    fun x => { x with shape := .branch (some u) [] [] }
  rw [hskeleton, skeleton_pushConstruct, Skeleton.withConstruct_idem, howner] at h₄
  obtain ⟨_, a₅, happend, hrun⟩ := bind_eq_ok.mp hrun
  have h₅ := appendItem_opens (.branch (some u) [] []) hn hlist (fun e l h => by
    cases e <;> simp_all [Shape.items?]) h₄ happend
  obtain ⟨_, a₆, hno, hrun⟩ := bind_eq_ok.mp hrun
  obtain ⟨b, h₆⟩ := openBlock_starts hn rfl rfl h₅ hno
  obtain ⟨_, a₇, hyes, hrun⟩ := bind_eq_ok.mp hrun
  obtain ⟨b', h₇⟩ := openBlock_starts hn rfl (Function.update_of_ne (by simp) _ _) h₆ hyes
  obtain ⟨rfl, rfl⟩ := pure_eq_ok.mp hrun
  refine c.opens_of_opening hn h₇ rfl (Function.update_self _ _ _) fun e he => ?_
  cases e with
  | body f => cases he
  | yes m | no m | loop m =>
    obtain rfl : m = _ := Owner.construct.inj he
    simp [Shape.items?]

/-- The cursor behind the innermost construct. -/
def behind (fr : Frame) (frames : List Frame) : Cursor :=
  ⟨c.function, fr.outer, fr.outer.owner, frames⟩

/-- A call at a cursor has closed the innermost construct. -/
def Closes (s : Skeleton) (c c' : Cursor) (a : Arena) : Prop :=
  ∃ fr frames b, c.frames = fr :: frames ∧ c' = c.behind fr frames
    ∧ s.Grows fr.outer (.block b) a.skeleton

theorem yields_innermost {P : Arena → Prop} :
    c.innermost.Yields P fun p a => c.frames = p.1 :: p.2 ∧ P a := by
  intro a p a' ha hrun
  unfold innermost at hrun
  cases hframes : c.frames with
  | nil => simp [hframes] at hrun
  | cons fr frames =>
    rw [hframes] at hrun
    obtain ⟨rfl, rfl⟩ := pure_eq_ok.mp hrun
    exact ⟨rfl, ha⟩

/-- Where there is an `if`, there is a list for its second branch. -/
theorem yields_isIf (n : ConstructId) : (isIf n).Yields (·.skeleton = s) fun y a =>
    (y = true → ∃ l, s.items (.no n) = some l) ∧ a.skeleton = s := by
  rintro a y a' rfl hrun
  obtain ⟨x, _, hlook, hrun⟩ := bind_eq_ok.mp hrun
  obtain ⟨hx, rfl⟩ := look_eq_ok.mp hlook
  cases hshape : x.shape with
  | loop body =>
    rw [hshape] at hrun
    obtain ⟨rfl, rfl⟩ := pure_eq_ok.mp hrun
    exact ⟨nofun, rfl⟩
  | branch cond yes no =>
    rw [hshape] at hrun
    obtain ⟨rfl, rfl⟩ := pure_eq_ok.mp hrun
    refine ⟨fun _ => ⟨no, ?_⟩, rfl⟩
    rw [skeleton_items_construct rfl, construct_eq_ok.mp hx, Option.bind_some, hshape]
    rfl

section Closing

variable (hparent : ∀ fr ∈ c.frames, s.parent (.construct fr.construct) = some (some fr.outer.owner))

include hparent

theorem leave_closes {fr : Frame} {frames : List Frame} (hframes : c.frames = fr :: frames) :
    (c.leave fr frames).Yields (·.skeleton = s) fun y => c.Closes s y.2 := by
  rintro a y a' rfl hrun
  obtain ⟨x, _, hlook, hrun⟩ := bind_eq_ok.mp hrun
  obtain ⟨hx, rfl⟩ := look_eq_ok.mp hlook
  obtain ⟨owner, _, hpresent, hrun⟩ := bind_eq_ok.mp hrun
  obtain ⟨howner, rfl⟩ := liftM_eq_ok.mp hpresent
  obtain ⟨_, a₁, hopen, hrun⟩ := bind_eq_ok.mp hrun
  obtain ⟨rfl, rfl⟩ := pure_eq_ok.mp hrun
  have hp := hparent fr (hframes ▸ List.mem_cons_self)
  rw [skeleton_parent_construct, construct_eq_ok.mp hx, Option.map_some,
    present_eq_ok.mp howner] at hp
  obtain rfl : owner = fr.outer.owner := Option.some.inj (Option.some.inj hp)
  obtain ⟨b, hgrows⟩ := openBlock_grows fr.outer rfl hopen
  exact ⟨fr, frames, b, hframes, rfl, hgrows⟩

theorem closeIf_closes : c.closeIf.Yields (·.skeleton = s) fun y => c.Closes s y.2 :=
  c.yields_innermost.bind fun _ => .of_and fun hframes => (yields_isIf _).bind fun _ =>
    .of_and fun _ => yields_ite (c.leave_closes hparent hframes) (yields_throw _)

theorem closeLoop_closes : c.closeLoop.Yields (·.skeleton = s) fun y => c.Closes s y.2 :=
  c.yields_innermost.bind fun _ => .of_and fun hframes => (yields_isIf _).bind fun _ =>
    .of_and fun _ => yields_ite (yields_throw _) (c.leave_closes hparent hframes)

end Closing

theorem switchToElse_switches : c.switchToElse.Yields (·.skeleton = s) fun c' a =>
    a.skeleton = s ∧ ∃ fr frames l, c.frames = fr :: frames ∧ s.items (.no fr.construct) = some l
      ∧ c' = { c with list := .no fr.construct } := by
  refine c.yields_innermost.bind fun p => .of_and fun hframes => (yields_isIf _).bind fun isIf =>
    .of_and fun hif => ?_
  cases isIf with
  | false => exact yields_throw _
  | true =>
    obtain ⟨l, hl⟩ := hif rfl
    exact yields_pure fun _ ha => ⟨ha, p.1, p.2, l, hframes, hl, rfl⟩

end Cursor

namespace Edit

open Arena

variable {s : Skeleton}

theorem newFunction_founds (name : String) :
    (newFunction name).Yields (·.skeleton = s) fun c a => ∃ f finish b,
      c = ⟨f, .body f, .function f, []⟩ ∧ a.skeleton = s.founded f finish b
        ∧ s.items (.body f) = none ∧ s.count f = none ∧ s.parent (.block finish) = none
        ∧ s.parent (.block b) = none := by
  rintro a y a' rfl hrun
  obtain ⟨finish, a₁, hfinish, hrun⟩ := bind_eq_ok.mp hrun
  cases hfinish
  obtain ⟨f, a₂, hfunction, hrun⟩ := bind_eq_ok.mp hrun
  cases hfunction
  obtain ⟨_, a₃, hset, hrun⟩ := bind_eq_ok.mp hrun
  obtain rfl := setBlock_eq_ok.mp hset
  obtain ⟨_, a₄, hopen, hrun⟩ := bind_eq_ok.mp hrun
  obtain ⟨rfl, rfl⟩ := pure_eq_ok.mp hrun
  have hempty : a.body ⟨a.blocks.size⟩ = [] := by simp [body]
  have hadded : (a.blocks.push (Block.empty none))[(⟨a.blocks.size⟩ : BlockId).idx]?
      = some (Block.empty none) := by
    simp
  have h₃ := skeleton_modifyBlock { a with
    blocks := a.blocks.push (Block.empty none)
    functions := a.functions.push ⟨some ⟨name, true⟩, [], ⟨a.blocks.size⟩, 0, .none, none⟩ }
    hadded fun bb => { bb with parent := some (.function ⟨a.functions.size⟩) }
  rw [skeleton_function { a with blocks := a.blocks.push (Block.empty none) }
    (f := ⟨a.functions.size⟩) (entered_push FunctionId.idx_injective rfl _), skeleton_pushBlock] at h₃
  dsimp only [Block.empty] at h₃
  rw [Function.update_idem] at h₃
  obtain ⟨b, l, hb, hl, h⟩ := openBlock_opens _ _ h₃ hopen
  dsimp only at hb hl h
  rw [Function.update_self] at hl
  cases hl
  have hne : (⟨a.blocks.size⟩ : BlockId) ≠ b := by
    rintro rfl
    simp at hb
  rw [Function.update_of_ne (by simpa using hne.symm)] at hb
  refine ⟨⟨a.functions.size⟩, ⟨a.blocks.size⟩, b, rfl, ?_, by simp [skeleton_items_body],
    by simp [skeleton], by simp [skeleton_parent_block], hb⟩
  rw [h]
  refine Skeleton.ext rfl rfl ?_ (funext fun item => ?_) ?_ rfl rfl
  · exact Function.update_eq_self_iff.mpr hempty.symm
  · simp only [Skeleton.founded, Function.update_apply]
    split
    · next hitem => rw [if_pos (.inl hitem)]
    · next hitem => simp only [hitem, false_or]
  · exact Function.update_idem _ _ _

end Edit

end ShaderCompiler
