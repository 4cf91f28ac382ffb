import ShaderCompiler.Proofs.UseLists

/-!
# Wiring of a function

The blocks and conditions of a function make up its scope, together with the values that it
defines. A scope is wired if every reference from its instructions and conditions leads
somewhere: destinations are values of the scope that point back to their instruction, and
sources are uses that read a value of the scope and point back to their reader.

Passes forward uses from one value of the scope to another one and take instructions out of
blocks. `Arena.Evolves` is what such changes have in common, and it keeps the wiring.
-/

namespace ShaderCompiler

variable {ins' : Instr} {p : Alu}

/-- Blocks, conditions and values of a function. -/
structure Scope where
  blocks : List BlockId
  ifs : List ConstructId
  defined : ValueId → Prop

/-- One of the scopes defines the value. -/
def DefinedBy (Ts : List Scope) (v : ValueId) : Prop :=
  ∃ T ∈ Ts, T.defined v

namespace Arena

variable {S : Scope} {a a' a₁ a₂ a₃ : Arena}

/-- Every reference of a scope leads somewhere. -/
structure Wired (a : Arena) (S : Scope) : Prop where
  block : ∀ b ∈ S.blocks, ∃ bb, a.blocks[b.idx]? = some bb
  instr : ∀ b ∈ S.blocks, ∀ i ∈ a.body b, ∃ ins, a.instrs[i.idx]? = some ins
  definition : ∀ b ∈ S.blocks, ∀ i ∈ a.body b, ∀ ins, a.instrs[i.idx]? = some ins →
    ∀ d ∈ ins.definitions, ∃ v x, d = some v ∧ S.defined v ∧ a.values[v.idx]? = some x
      ∧ x.definedBy = some i
  source : ∀ b ∈ S.blocks, ∀ i ∈ a.body b, ∀ ins, a.instrs[i.idx]? = some ins →
    ∀ s ∈ ins.sources, ∃ u use v, s = some u ∧ a.uses[u.idx]? = some use ∧ use.value = some v
      ∧ S.defined v ∧ use.user = some i ∧ use.guards = none
  condition : ∀ c ∈ S.ifs, ∃ con u yes no use v, a.constructs[c.idx]? = some con
    ∧ con.shape = .branch (some u) yes no ∧ a.uses[u.idx]? = some use ∧ use.value = some v
    ∧ S.defined v ∧ use.guards = some c ∧ use.user = none
  value : ∀ v, S.defined v → ∃ x, a.values[v.idx]? = some x

/-- A use is a source of an instruction or the condition of an `if` of the scope. -/
def Reads (a : Arena) (S : Scope) (u : UseId) : Prop :=
  (∃ b ∈ S.blocks, ∃ i ∈ a.body b, ∃ ins, a.instrs[i.idx]? = some ins ∧ some u ∈ ins.sources)
    ∨ ∃ c ∈ S.ifs, ∃ con yes no, a.constructs[c.idx]? = some con
      ∧ con.shape = .branch (some u) yes no

/-- Instructions of the scope know their block, those that define something stand in it once,
and every value of the scope knows its instruction, which is taken out or stands in the scope. -/
structure Homed (a : Arena) (S : Scope) : Prop where
  place : ∀ b ∈ S.blocks, ∀ i ∈ a.body b, ∀ ins, a.instrs[i.idx]? = some ins → ins.block = some b
  once : ∀ b ∈ S.blocks, ∀ i ∈ a.body b, ∀ ins, a.instrs[i.idx]? = some ins →
    ins.definitions ≠ [] → (a.body b).count i = 1
  definer : ∀ v, S.defined v → ∃ x i ins, a.values[v.idx]? = some x ∧ x.definedBy = some i
    ∧ a.instrs[i.idx]? = some ins ∧ some v ∈ ins.definitions
    ∧ ∀ b, ins.block = some b → b ∈ S.blocks ∧ i ∈ a.body b

/-- What the changes of passes have in common: blocks lose instructions at most, uses stay with
their readers and with values of the scope, and all else of the code is the same. -/
structure Evolves (S : Scope) (a a' : Arena) : Prop where
  block : ∀ (b : BlockId) bb, a.blocks[b.idx]? = some bb → ∃ bb', a'.blocks[b.idx]? = some bb'
    ∧ bb'.instrs.Sublist bb.instrs ∧ bb'.preds = bb.preds ∧ bb'.exits = bb.exits
    ∧ bb'.parent = bb.parent
  instr : ∀ (i : InstrId) ins, a.instrs[i.idx]? = some ins → ∃ ins', a'.instrs[i.idx]? = some ins'
    ∧ ins'.action = ins.action ∧ ins'.indirect = ins.indirect
  use : ∀ (u : UseId) use, a.uses[u.idx]? = some use → ∃ use', a'.uses[u.idx]? = some use'
    ∧ use'.user = use.user ∧ use'.guards = use.guards
    ∧ use'.absolute = use.absolute ∧ use'.negated = use.negated
    ∧ ∀ v, use.value = some v → S.defined v → ∃ v', use'.value = some v' ∧ S.defined v'
  value : ∀ (v : ValueId) x, a.values[v.idx]? = some x → ∃ x', a'.values[v.idx]? = some x'
    ∧ x'.index = x.index ∧ x'.comps = x.comps ∧ x'.definedBy = x.definedBy
  constructs : a'.constructs = a.constructs
  function : ∀ (f : FunctionId) g, a.functions[f.idx]? = some g → ∃ g', a'.functions[f.idx]? = some g'
    ∧ g'.bare = g.bare

end Arena

theorem Instr.sources_congr {ins : Instr} (ha : ins'.action = ins.action)
    (hi : ins'.indirect = ins.indirect) : ins'.sources = ins.sources := by
  unfold Instr.sources
  rw [ha, hi]

theorem Instr.alu?_eq_some {ins : Instr} : ins.alu? = some p ↔ ins.action = .alu p := by
  unfold Instr.alu?
  split
  case h_1 q hq => rw [hq, Option.some.injEq, Action.alu.injEq]
  case h_2 hne => simpa using hne p

theorem Instr.mem_sources_of_alu {ins : Instr} (h : ins.action = .alu p)
    {s : Option UseId} (hs : s ∈ p.srcs) : s ∈ ins.sources := by
  unfold Instr.sources
  rw [h]
  cases ins.indirect <;> simp [hs]

theorem Instr.mem_sources_of_phi {ins : Instr} {dest : Option ValueId}
    {srcs : List (BlockId × UseId)} (h : ins.action = .phi dest srcs) {pred : BlockId} {u : UseId}
    (hu : (pred, u) ∈ srcs) : some u ∈ ins.sources := by
  have hmem : some u ∈ srcs.map fun s => some s.2 := List.mem_map.mpr ⟨(pred, u), hu, rfl⟩
  unfold Instr.sources
  rw [h]
  cases ins.indirect with
  | none => exact hmem
  | some _ => exact List.mem_append_left _ hmem

theorem Instr.mem_sources_of_parallelCopy {ins : Instr} {entries : List (ValueId × UseId)}
    (h : ins.action = .parallelCopy entries) {v : ValueId} {u : UseId} (hu : (v, u) ∈ entries) :
    some u ∈ ins.sources := by
  have hmem : some u ∈ entries.map fun e => some e.2 := List.mem_map.mpr ⟨(v, u), hu, rfl⟩
  unfold Instr.sources
  rw [h]
  cases ins.indirect with
  | none => exact hmem
  | some _ => exact List.mem_append_left _ hmem

theorem Instr.definitions_congr {ins : Instr} (ha : ins'.action = ins.action) :
    ins'.definitions = ins.definitions := by
  unfold Instr.definitions
  rw [ha]

namespace Arena

variable {S : Scope} {a a' a₁ a₂ a₃ : Arena}

/-! ### The two changes of passes -/

theorem blocks_without (a : Arena) (b : BlockId) (i : InstrId) (c : BlockId) :
    (a.without b i).blocks[c.idx]? = if c = b
      then (a.blocks[c.idx]?).map fun bb => { bb with instrs := bb.instrs.erase i }
      else a.blocks[c.idx]? := by
  rw [without, modifyInstr_blocks, modifyBlock_blocks_get]

theorem instrs_without (a : Arena) (b : BlockId) (i j : InstrId) :
    (a.without b i).instrs[j.idx]? = if j = i
      then (a.instrs[j.idx]?).map fun ins => { ins with block := none }
      else a.instrs[j.idx]? := by
  rw [without, modifyInstr_instrs_get, modifyBlock_instrs]

theorem body_without (a : Arena) (b : BlockId) (i : InstrId) (c : BlockId) :
    (a.without b i).body c = if c = b then (a.body c).erase i else a.body c := by
  unfold body
  rw [blocks_without]
  split
  · cases a.blocks[c.idx]? <;> rfl
  · rfl

theorem reads_congr (hbody : a'.body = a.body) (hinstrs : a'.code.instrs = a.code.instrs)
    (hconstructs : a'.constructs = a.constructs) {u : UseId} : a'.Reads S u ↔ a.Reads S u := by
  unfold Reads
  rw [hbody, hconstructs]
  refine or_congr ⟨?_, ?_⟩ Iff.rfl
  · rintro ⟨b, hb, i, hi, ins', hins', hmem⟩
    obtain ⟨n, l, hins⟩ := instr_of_instrs hinstrs.symm hins'
    exact ⟨b, hb, i, hi, _, hins, hmem⟩
  · rintro ⟨b, hb, i, hi, ins, hins, hmem⟩
    obtain ⟨n, l, hins'⟩ := instr_of_instrs hinstrs hins
    exact ⟨b, hb, i, hi, _, hins', hmem⟩

/-- The code where a use reads another value through another swizzle. -/
def Turned (a a' : Arena) (u : UseId) (v : ValueId) (s : Swizzle) : Prop :=
  a'.code = a.code.modifyUse u fun use => { use with value := some v, swizzle := s }

namespace Turned

variable {u t : UseId} {v : ValueId} {s : Swizzle} {use : Use}

theorem values (h : Turned a a' u v s) : a'.code.values = a.code.values :=
  congrArg (·.values) h

theorem instrs (h : Turned a a' u v s) : a'.code.instrs = a.code.instrs :=
  congrArg (·.instrs) h

theorem blocks (h : Turned a a' u v s) : a'.code.blocks = a.code.blocks :=
  congrArg (·.blocks) h

theorem functions (h : Turned a a' u v s) : a'.code.functions = a.code.functions :=
  congrArg (·.functions) h

theorem constructs (h : Turned a a' u v s) : a'.constructs = a.constructs :=
  congrArg (·.constructs) h

theorem uses_get (h : Turned a a' u v s) (t : UseId) : (a'.uses[t.idx]?).map Use.bare
    = if t = u then (a.uses[t.idx]?).map fun use => { use.bare with value := some v, swizzle := s }
      else (a.uses[t.idx]?).map Use.bare := by
  rw [← code_uses, show a'.code.uses = _ from congrArg (·.uses) h, modifyUse_uses, code_uses,
    Option.map_map]
  rfl

theorem use_self (h : Turned a a' u v s) (huse : a.uses[u.idx]? = some use) :
    ∃ k, a'.uses[u.idx]? = some { use with value := some v, swizzle := s, slot := k } := by
  have hu := h.uses_get u
  rw [if_pos rfl, huse, Option.map_some, Option.map_eq_some_iff] at hu
  obtain ⟨y, hy, hbare⟩ := hu
  refine ⟨y.slot, hy.trans (congrArg some ?_)⟩
  exact Use.eq_of_bare (x := { use with value := some v, swizzle := s }) hbare

theorem use_other (h : Turned a a' u v s) (ht : t ≠ u) (huse : a.uses[t.idx]? = some use) :
    ∃ k, a'.uses[t.idx]? = some { use with slot := k } := by
  have hu := h.uses_get t
  rw [if_neg ht, huse, Option.map_some, Option.map_eq_some_iff] at hu
  obtain ⟨y, hy, hbare⟩ := hu
  exact ⟨y.slot, hy.trans (congrArg some (Use.eq_of_bare hbare))⟩

end Turned

namespace Evolves

theorem refl (S : Scope) (a : Arena) : Evolves S a a where
  block _ bb h := ⟨bb, h, List.Sublist.refl _, rfl, rfl, rfl⟩
  instr _ ins h := ⟨ins, h, rfl, rfl⟩
  use _ use h := ⟨use, h, rfl, rfl, rfl, rfl, fun v hv hS => ⟨v, hv, hS⟩⟩
  value _ x h := ⟨x, h, rfl, rfl, rfl⟩
  constructs := rfl
  function _ g h := ⟨g, h, rfl⟩

theorem trans (h : Evolves S a₁ a₂) (h' : Evolves S a₂ a₃) : Evolves S a₁ a₃ where
  block b bb hb := by
    obtain ⟨bb₂, h2, hs, hp, he, ho⟩ := h.block b bb hb
    obtain ⟨bb₃, h3, hs', hp', he', ho'⟩ := h'.block b bb₂ h2
    exact ⟨bb₃, h3, hs'.trans hs, hp'.trans hp, he'.trans he, ho'.trans ho⟩
  instr i ins hi := by
    obtain ⟨ins₂, h2, ha, hd⟩ := h.instr i ins hi
    obtain ⟨ins₃, h3, ha', hd'⟩ := h'.instr i ins₂ h2
    exact ⟨ins₃, h3, ha'.trans ha, hd'.trans hd⟩
  use u use hu := by
    obtain ⟨use₂, h2, hr, hg, ha, hn, hv⟩ := h.use u use hu
    obtain ⟨use₃, h3, hr', hg', ha', hn', hv'⟩ := h'.use u use₂ h2
    refine ⟨use₃, h3, hr'.trans hr, hg'.trans hg, ha'.trans ha, hn'.trans hn, fun v hval hS => ?_⟩
    obtain ⟨v₂, hval₂, hS₂⟩ := hv v hval hS
    exact hv' v₂ hval₂ hS₂
  value v x hx := by
    obtain ⟨x₂, h2, hi, hc, hd⟩ := h.value v x hx
    obtain ⟨x₃, h3, hi', hc', hd'⟩ := h'.value v x₂ h2
    exact ⟨x₃, h3, hi'.trans hi, hc'.trans hc, hd'.trans hd⟩
  constructs := h'.constructs.trans h.constructs
  function f g hg := by
    obtain ⟨g₂, h2, hb⟩ := h.function f g hg
    obtain ⟨g₃, h3, hb'⟩ := h'.function f g₂ h2
    exact ⟨g₃, h3, hb'.trans hb⟩

theorem body_sublist (h : Evolves S a a') {b : BlockId} {bb : Block}
    (hb : a.blocks[b.idx]? = some bb) : (a'.body b).Sublist (a.body b) := by
  obtain ⟨bb', hb', hs, -⟩ := h.block b bb hb
  rwa [body_of_block hb, body_of_block hb']

theorem action_eq (h : Evolves S a a') {i : InstrId} {ins : Instr}
    (hins : a.instrs[i.idx]? = some ins) (hins' : a'.instrs[i.idx]? = some ins') :
    ins'.action = ins.action ∧ ins'.indirect = ins.indirect := by
  obtain ⟨ins'', hins'', hsame⟩ := h.instr i ins hins
  cases hins'.symm.trans hins''
  exact hsame

theorem reader_eq (h : Evolves S a a') {u : UseId} {use use' : Use}
    (huse : a.uses[u.idx]? = some use) (huse' : a'.uses[u.idx]? = some use') :
    use'.user = use.user ∧ use'.guards = use.guards := by
  obtain ⟨use'', huse'', huser, hguards, -⟩ := h.use u use huse
  cases huse'.symm.trans huse''
  exact ⟨huser, hguards⟩

/-- An instruction that still stands stood in the same block and does the same. -/
theorem exists_before (h : Evolves S a a') (hw : a.Wired S) {b : BlockId} {i : InstrId}
    (hb : b ∈ S.blocks) (hi : i ∈ a'.body b) (hins' : a'.instrs[i.idx]? = some ins') :
    i ∈ a.body b ∧ ∃ ins, a.instrs[i.idx]? = some ins
      ∧ ins'.action = ins.action ∧ ins'.indirect = ins.indirect := by
  obtain ⟨bb, hbb⟩ := hw.block b hb
  have hi₀ := (h.body_sublist hbb).subset hi
  obtain ⟨ins, hins⟩ := hw.instr b hb i hi₀
  exact ⟨hi₀, ins, hins, h.action_eq hins hins'⟩

theorem value_eq (h : Evolves S a a') {v : ValueId} {x x' : Value}
    (hx : a.values[v.idx]? = some x) (hx' : a'.values[v.idx]? = some x') :
    x'.index = x.index ∧ x'.comps = x.comps ∧ x'.definedBy = x.definedBy := by
  obtain ⟨x'', hx'', hsame⟩ := h.value v x hx
  cases hx'.symm.trans hx''
  exact hsame

/-- Arenas with the same code evolve into each other. -/
theorem of_code (h : a'.code = a.code) : Evolves S a a' where
  block b bb hb := by
    obtain ⟨n, hn⟩ := block_of_code h hb
    exact ⟨_, hn, List.Sublist.refl _, rfl, rfl, rfl⟩
  instr i ins hi := by
    obtain ⟨n, v, hn⟩ := instr_of_code h hi
    exact ⟨_, hn, rfl, rfl⟩
  use u use hu := by
    obtain ⟨k, hk⟩ := use_of_code h hu
    exact ⟨_, hk, rfl, rfl, rfl, rfl, fun v hv hS => ⟨v, hv, hS⟩⟩
  value v x hx := by
    obtain ⟨l, m, hl⟩ := value_of_code h hx
    exact ⟨_, hl, rfl, rfl, rfl⟩
  constructs := constructs_of_code h
  function f g hg := by
    obtain ⟨s, d, hs⟩ := function_of_code h hg
    exact ⟨_, hs, rfl⟩

/-- Turning a use from a value of the scope to another one is such a change. -/
theorem turned {u : UseId} {v : ValueId} {s : Swizzle} (h : Turned a a' u v s)
    (hS : ∀ use w, a.uses[u.idx]? = some use → use.value = some w → S.defined w → S.defined v) :
    Evolves S a a' where
  block b bb hb := by
    obtain ⟨n, hn⟩ := block_of_blocks h.blocks hb
    exact ⟨_, hn, List.Sublist.refl _, rfl, rfl, rfl⟩
  instr i ins hi := by
    obtain ⟨n, l, hn⟩ := instr_of_instrs h.instrs hi
    exact ⟨_, hn, rfl, rfl⟩
  use t use ht := by
    by_cases htu : t = u
    · subst htu
      obtain ⟨k, hk⟩ := h.use_self ht
      exact ⟨_, hk, rfl, rfl, rfl, rfl, fun w hw hdef => ⟨v, rfl, hS use w ht hw hdef⟩⟩
    · obtain ⟨k, hk⟩ := h.use_other htu ht
      exact ⟨_, hk, rfl, rfl, rfl, rfl, fun w hw hdef => ⟨w, hw, hdef⟩⟩
  value w x hx := by
    obtain ⟨l, m, hl⟩ := value_of_values h.values hx
    exact ⟨_, hl, rfl, rfl, rfl⟩
  constructs := h.constructs
  function f g hg := by
    obtain ⟨s, d, hs⟩ := function_of_functions h.functions hg
    exact ⟨_, hs, rfl⟩

end Evolves

/-- Wiring is kept by the changes of passes. -/
theorem Wired.evolve (h : a.Wired S) (he : Evolves S a a') : a'.Wired S := by
  constructor
  · intro b hb
    obtain ⟨bb, hbb⟩ := h.block b hb
    obtain ⟨bb', hbb', -⟩ := he.block b bb hbb
    exact ⟨bb', hbb'⟩
  · intro b hb i hi
    obtain ⟨bb, hbb⟩ := h.block b hb
    obtain ⟨ins, hins⟩ := h.instr b hb i ((he.body_sublist hbb).subset hi)
    obtain ⟨ins', hins', -⟩ := he.instr i ins hins
    exact ⟨ins', hins'⟩
  · intro b hb i hi ins' hins' d hd
    obtain ⟨hi₀, ins, hins, hact, -⟩ := he.exists_before h hb hi hins'
    rw [Instr.definitions_congr hact] at hd
    obtain ⟨v, x, hdv, hS, hx, hby⟩ := h.definition b hb i hi₀ ins hins d hd
    obtain ⟨x', hx', -, -, hby'⟩ := he.value v x hx
    exact ⟨v, x', hdv, hS, hx', hby'.trans hby⟩
  · intro b hb i hi ins' hins' s hs
    obtain ⟨hi₀, ins, hins, hact, hind⟩ := he.exists_before h hb hi hins'
    rw [Instr.sources_congr hact hind] at hs
    obtain ⟨u, use, v, hsu, huse, hval, hS, huser, hguards⟩ := h.source b hb i hi₀ ins hins s hs
    obtain ⟨use', huse', huser', hguards', -, -, hval'⟩ := he.use u use huse
    obtain ⟨v', hv', hS'⟩ := hval' v hval hS
    exact ⟨u, use', v', hsu, huse', hv', hS', huser'.trans huser, hguards'.trans hguards⟩
  · intro c hc
    obtain ⟨con, u, yes, no, use, v, hcon, hshape, huse, hval, hS, hguards, huser⟩ :=
      h.condition c hc
    obtain ⟨use', huse', huser', hguards', -, -, hval'⟩ := he.use u use huse
    obtain ⟨v', hv', hS'⟩ := hval' v hval hS
    exact ⟨con, u, yes, no, use', v', he.constructs ▸ hcon, hshape, huse', hv', hS',
      hguards'.trans hguards, huser'.trans huser⟩
  · intro v hv
    obtain ⟨x, hx⟩ := h.value v hv
    obtain ⟨x', hx', -⟩ := he.value v x hx
    exact ⟨x', hx'⟩

/-! ### Following a reference -/

namespace Wired

variable (hw : a.Wired S) {b : BlockId} {i : InstrId} {ins : Instr} {c : ConstructId}
  {con : Construct} {yes no : List Item} {u : UseId} {use : Use} {v : ValueId}

include hw

/-- What an instruction defines knows the instruction. -/
theorem value_of_definition (hb : b ∈ S.blocks) (hi : i ∈ a.body b)
    (hins : a.instrs[i.idx]? = some ins) (hv : some v ∈ ins.definitions) :
    S.defined v ∧ ∃ x, a.values[v.idx]? = some x ∧ x.definedBy = some i := by
  obtain ⟨_, x, heq, hdefined, hx⟩ := hw.definition b hb i hi ins hins _ hv
  cases heq
  exact ⟨hdefined, x, hx⟩

/-- A source knows the instruction that reads it. -/
theorem use_of_source (hb : b ∈ S.blocks) (hi : i ∈ a.body b)
    (hins : a.instrs[i.idx]? = some ins) (hu : some u ∈ ins.sources) :
    ∃ use v, a.uses[u.idx]? = some use ∧ use.value = some v ∧ S.defined v
      ∧ use.user = some i ∧ use.guards = none := by
  obtain ⟨_, use, v, heq, huse⟩ := hw.source b hb i hi ins hins _ hu
  cases heq
  exact ⟨use, v, huse⟩

/-- A condition knows its `if`. -/
theorem use_of_condition (hc : c ∈ S.ifs) (hcon : a.constructs[c.idx]? = some con)
    (hshape : con.shape = .branch (some u) yes no) :
    ∃ use v, a.uses[u.idx]? = some use ∧ use.value = some v ∧ S.defined v
      ∧ use.guards = some c ∧ use.user = none := by
  obtain ⟨con', _, _, _, use, v, hcon', hshape', huse⟩ := hw.condition c hc
  cases hcon.symm.trans hcon'
  cases hshape.symm.trans hshape'
  exact ⟨use, v, huse⟩

theorem reader_of_source (hb : b ∈ S.blocks) (hi : i ∈ a.body b)
    (hins : a.instrs[i.idx]? = some ins) (hu : some u ∈ ins.sources)
    (huse : a.uses[u.idx]? = some use) : use.user = some i ∧ use.guards = none := by
  obtain ⟨use', v, huse', -, -, hreader⟩ := hw.use_of_source hb hi hins hu
  cases huse.symm.trans huse'
  exact hreader

theorem reader_of_condition (hc : c ∈ S.ifs) (hcon : a.constructs[c.idx]? = some con)
    (hshape : con.shape = .branch (some u) yes no) (huse : a.uses[u.idx]? = some use) :
    use.guards = some c ∧ use.user = none := by
  obtain ⟨use', v, huse', -, -, hreader⟩ := hw.use_of_condition hc hcon hshape
  cases huse.symm.trans huse'
  exact hreader

/-- What a scope reads is one of its values. -/
theorem defined_of_reads (hu : a.Reads S u) (huse : a.uses[u.idx]? = some use)
    (hval : use.value = some v) : S.defined v := by
  obtain ⟨use', w, huse', hval', hdefined⟩ : ∃ use' w, a.uses[u.idx]? = some use'
      ∧ use'.value = some w ∧ S.defined w := by
    rcases hu with ⟨b, hb, i, hi, ins, hins, hmem⟩ | ⟨c, hc, con, yes, no, hcon, hshape⟩
    · obtain ⟨use', w, huse', hval', hdefined, -⟩ := hw.use_of_source hb hi hins hmem
      exact ⟨use', w, huse', hval', hdefined⟩
    · obtain ⟨use', w, huse', hval', hdefined, -⟩ := hw.use_of_condition hc hcon hshape
      exact ⟨use', w, huse', hval', hdefined⟩
  cases huse.symm.trans huse'
  cases hval.symm.trans hval'
  exact hdefined

end Wired

/-! ### Homes -/

/-- Homes depend on values, instructions and blocks only. -/
theorem Homed.congr (h : a.Homed S) (hv : a'.code.values = a.code.values)
    (hi : a'.code.instrs = a.code.instrs) (hb : a'.code.blocks = a.code.blocks) : a'.Homed S := by
  have hinstr {i : InstrId} {ins' : Instr} (hins' : a'.instrs[i.idx]? = some ins') :
      ∃ ins, a.instrs[i.idx]? = some ins ∧ ins.block = ins'.block
        ∧ ins.definitions = ins'.definitions := by
    obtain ⟨n, l, hins⟩ := instr_of_instrs hi.symm hins'
    exact ⟨_, hins, rfl, rfl⟩
  constructor
  · intro b hbS i hib ins' hins'
    rw [body_of_blocks hb] at hib
    obtain ⟨ins, hins, hblock, -⟩ := hinstr hins'
    rw [← hblock, h.place b hbS i hib ins hins]
  · intro b hbS i hib ins' hins' hdef
    rw [body_of_blocks hb] at hib ⊢
    obtain ⟨ins, hins, -, hdefs⟩ := hinstr hins'
    exact h.once b hbS i hib ins hins (hdefs ▸ hdef)
  · intro v hvS
    obtain ⟨x, i, ins, hx, hby, hins, hdef, hhome⟩ := h.definer v hvS
    obtain ⟨l, m, hx'⟩ := value_of_values hv hx
    obtain ⟨n, l', hins'⟩ := instr_of_instrs hi hins
    rw [body_of_blocks hb]
    exact ⟨_, i, _, hx', hby, hins', hdef, hhome⟩

/-! ### Taking out instructions -/

section Lists

/-- The arena with other lists of instructions. The instructions of a set stand in no block. -/
def relisted (a : Arena) (lists : BlockId → List InstrId) (gone : Finset InstrId) : Arena :=
  { a with
    blocks := a.blocks.mapIdx fun k bb => { bb with instrs := lists ⟨k⟩ }
    instrs := a.instrs.mapIdx fun k ins =>
      if (⟨k⟩ : InstrId) ∈ gone then { ins with block := none } else ins }

/-- Instructions were taken out of their blocks. The others still stand, in the same order. -/
structure Loses (gone : Finset InstrId) (a a' : Arena) : Prop where
  code : a'.code = (a.relisted a'.body gone).code
  sublist : ∀ b, (a'.body b).Sublist (a.body b)
  kept : ∀ b, ∀ i ∈ a.body b, i ∉ gone → i ∈ a'.body b

variable {lists lists' : BlockId → List InstrId} {gone gone' : Finset InstrId} {b : BlockId}
  {i : InstrId} {ins : Instr} {bb : Block} {u : UseId}

theorem relisted_blocks (a : Arena) (lists : BlockId → List InstrId) (gone : Finset InstrId)
    (b : BlockId) : (a.relisted lists gone).blocks[b.idx]?
      = (a.blocks[b.idx]?).map fun bb => { bb with instrs := lists b } := by
  simp [relisted]

theorem relisted_instrs (a : Arena) (lists : BlockId → List InstrId) (gone : Finset InstrId)
    (i : InstrId) : (a.relisted lists gone).instrs[i.idx]?
      = (a.instrs[i.idx]?).map fun ins => if i ∈ gone then { ins with block := none } else ins := by
  simp [relisted]

theorem relisted_body (h : a.blocks[b.idx]? = some bb) :
    (a.relisted lists gone).body b = lists b := by
  rw [body, relisted_blocks, h]
  rfl

theorem relisted_self (a : Arena) : a.relisted a.body ∅ = a := by
  have hblocks : a.blocks.mapIdx (fun k bb => { bb with instrs := a.body ⟨k⟩ }) = a.blocks := by
    refine Array.ext_getElem? fun k => ?_
    rw [Array.getElem?_mapIdx]
    cases h : a.blocks[k]? with
    | none => rfl
    | some bb =>
      have hbody : a.body ⟨k⟩ = bb.instrs := body_of_block h
      rw [Option.map_some, hbody]
  have hinstrs : a.instrs.mapIdx (fun k ins =>
      if (⟨k⟩ : InstrId) ∈ (∅ : Finset InstrId) then { ins with block := none } else ins)
      = a.instrs := by
    refine Array.ext_getElem? fun k => ?_
    simp
  rw [relisted, hblocks, hinstrs]

theorem relisted_code (a : Arena) (lists : BlockId → List InstrId) (gone : Finset InstrId) :
    (a.relisted lists gone).code = a.code.relisted lists gone := by
  simp only [code, relisted, mk.injEq, true_and, and_true]
  constructor <;> refine Array.ext_getElem? fun k => ?_
  · simp only [Array.getElem?_map, Array.getElem?_mapIdx]
    cases a.instrs[k]? with
    | none => rfl
    | some ins =>
      simp only [Option.map_some]
      split <;> rfl
  · simp only [Array.getElem?_map, Array.getElem?_mapIdx, Option.map_map]
    rfl

theorem relisted_relisted (a : Arena) : (a.relisted lists gone).relisted lists' gone'
    = a.relisted lists' (gone ∪ gone') := by
  simp only [relisted, mk.injEq, true_and, and_true]
  constructor <;> refine Array.ext_getElem? fun k => ?_
  · simp only [Array.getElem?_mapIdx]
    cases a.instrs[k]? with
    | none => rfl
    | some ins =>
      by_cases h : (⟨k⟩ : InstrId) ∈ gone <;> by_cases h' : (⟨k⟩ : InstrId) ∈ gone' <;> simp [h, h']
  · simp only [Array.getElem?_mapIdx, Option.map_map]
    rfl

theorem without_eq_relisted (a : Arena) (b : BlockId) (i : InstrId) :
    a.without b i = a.relisted (fun c => if c = b then (a.body c).erase i else a.body c) {i} := by
  have hinstrs : (a.without b i).instrs = (a.relisted (a.without b i).body {i}).instrs := by
    refine Array.ext_getElem? fun k => ?_
    rw [instrs_without a b i ⟨k⟩, relisted_instrs a _ _ ⟨k⟩]
    simp only [Finset.mem_singleton]
    split <;> simp
  have hblocks : (a.without b i).blocks = (a.relisted (a.without b i).body {i}).blocks := by
    refine Array.ext_getElem? fun k => ?_
    rw [relisted_blocks a _ _ ⟨k⟩, body_without, blocks_without a b i ⟨k⟩]
    cases h : a.blocks[k]? with
    | none => simp
    | some bb =>
      rw [show a.body ⟨k⟩ = bb.instrs from body_of_block h]
      split <;> rfl
  rw [← funext (a.body_without b i)]
  simp only [relisted, without, modifyInstr, modifyBlock, mk.injEq, true_and, and_true]
  exact ⟨hinstrs, hblocks⟩

/-- Shorter lists are a change that passes make. -/
theorem evolves_relisted
    (h : ∀ (b : BlockId) bb, a.blocks[b.idx]? = some bb → (lists b).Sublist bb.instrs) :
    Evolves S a (a.relisted lists gone) where
  block b bb hb := by
    refine ⟨{ bb with instrs := lists b }, ?_, h b bb hb, rfl, rfl, rfl⟩
    rw [relisted_blocks, hb, Option.map_some]
  instr i ins hi := by
    refine ⟨if i ∈ gone then { ins with block := none } else ins, ?_, ?_⟩
    · rw [relisted_instrs, hi, Option.map_some]
    · split <;> exact ⟨rfl, rfl⟩
  use _ use hu := ⟨use, hu, rfl, rfl, rfl, rfl, fun v hv hS => ⟨v, hv, hS⟩⟩
  value _ x hx := ⟨x, hx, rfl, rfl, rfl⟩
  constructs := rfl
  function _ g hg := ⟨g, hg, rfl⟩

/-- What a use reads does not depend on where instructions stand. -/
theorem aluPosition_relisted (a : Arena) (lists : BlockId → List InstrId) (gone : Finset InstrId)
    (u : UseId) : (a.relisted lists gone).aluPosition u = a.aluPosition u := by
  unfold aluPosition
  refine bind_congr fun use => ?_
  cases use.user with
  | none => rfl
  | some j =>
    simp only [instr, relisted_instrs]
    cases a.instrs[j.idx]? with
    | none => rfl
    | some ins =>
      rw [Option.map_some]
      split <;> rfl

theorem reads_relisted (a : Arena) (lists : BlockId → List InstrId) (gone : Finset InstrId)
    (u : UseId) : (a.relisted lists gone).reads u = a.reads u := by
  simp only [reads, aluPosition_relisted]
  rfl

namespace Loses

theorem of_code (h : a'.code = a.code) : Loses ∅ a a' := by
  refine ⟨?_, ?_, ?_⟩ <;> rw [body_of_code h]
  · rw [relisted_self, h]
  · exact fun b => List.Sublist.refl _
  · exact fun b i hi _ => hi

theorem of_without (h : a'.code = (a.without b i).code) : Loses {i} a a' := by
  refine ⟨?_, fun c => ?_, fun c j hj hji => ?_⟩
  · rw [h, body_of_code h, funext (a.body_without b i), without_eq_relisted]
  all_goals
    rw [body_of_code h, body_without]
    split
  · exact List.erase_sublist
  · exact List.Sublist.refl _
  · exact (List.mem_erase_of_ne (by simpa using hji)).mpr hj
  · exact hj

theorem trans (h : Loses gone a₁ a₂) (h' : Loses gone' a₂ a₃) : Loses (gone ∪ gone') a₁ a₃ where
  code := by rw [h'.code, relisted_code, h.code, ← relisted_code, relisted_relisted]
  sublist b := (h'.sublist b).trans (h.sublist b)
  kept b i hi hnot := by
    obtain ⟨hgone, hgone'⟩ := not_or.mp fun hmem => hnot (Finset.mem_union.mpr hmem)
    exact h'.kept b i (h.kept b i hi hgone) hgone'

variable (h : Loses gone a a')

include h

theorem evolves : Evolves S a a' :=
  (evolves_relisted fun b _ hbb => body_of_block hbb ▸ h.sublist b).trans (.of_code h.code)

theorem values : a'.code.values = a.code.values :=
  congrArg (·.values) h.code

theorem uses : a'.code.uses = a.code.uses :=
  congrArg (·.uses) h.code

theorem functions : a'.code.functions = a.code.functions :=
  congrArg (·.functions) h.code

theorem constructs : a'.constructs = a.constructs :=
  congrArg (·.constructs) h.code

theorem exists_use {use : Use} (huse : a'.uses[u.idx]? = some use) {v : ValueId}
    (hval : use.value = some v) : ∃ use₀, a.uses[u.idx]? = some use₀ ∧ use₀.value = some v := by
  obtain ⟨k, huse₀⟩ := use_of_uses h.uses.symm huse
  exact ⟨_, huse₀, hval⟩

theorem exits_eq (b : BlockId) :
    (a'.blocks[b.idx]?).map Block.exits = (a.blocks[b.idx]?).map Block.exits := by
  rw [← exits_code, h.code, exits_code, relisted_blocks, Option.map_map]
  rfl

theorem aluPosition_eq (u : UseId) : a'.aluPosition u = a.aluPosition u := by
  rw [← aluPosition_code, h.code, aluPosition_code, aluPosition_relisted]

theorem reads_eq (u : UseId) : a'.reads u = a.reads u := by
  rw [← reads_code, h.code, reads_code, reads_relisted]

theorem instr (hins : a.instrs[i.idx]? = some ins) : ∃ n l, a'.instrs[i.idx]?
    = some { (if i ∈ gone then { ins with block := none } else ins) with index := n, live := l } :=
  instr_of_code h.code (by rw [relisted_instrs, hins, Option.map_some])

theorem exists_action (hins : a.instrs[i.idx]? = some ins) : ∃ ins', a'.instrs[i.idx]? = some ins'
    ∧ ins'.action = ins.action ∧ ins'.indirect = ins.indirect := by
  obtain ⟨n, l, hins'⟩ := h.instr hins
  refine ⟨_, hins', ?_⟩
  split <;> exact ⟨rfl, rfl⟩

/-- An instruction that is not gone is as it was. -/
theorem instr_of_notMem (hi : i ∉ gone) (hins : a.instrs[i.idx]? = some ins) :
    ∃ n l, a'.instrs[i.idx]? = some { ins with index := n, live := l } := by
  simpa only [if_neg hi] using h.instr hins

theorem exists_instr_before (hins' : a'.instrs[i.idx]? = some ins') : ∃ ins n l,
    a.instrs[i.idx]? = some ins ∧ ins'
      = { (if i ∈ gone then { ins with block := none } else ins) with index := n, live := l } := by
  obtain ⟨n, l, hold⟩ := instr_of_code h.code.symm hins'
  rw [relisted_instrs] at hold
  obtain ⟨ins, hins, -⟩ := Option.map_eq_some_iff.mp hold
  obtain ⟨n', l', hnew⟩ := h.instr hins
  exact ⟨ins, n', l', hins, Option.some.inj (hins'.symm.trans hnew)⟩

/-- What is still read was read before. -/
theorem reads_of_reads (hu : a'.Reads S u) : a.Reads S u := by
  rcases hu with ⟨b, hb, j, hj, jns', hjns', hu⟩ | ⟨c, hc, con, yes, no, hcon, hshape⟩
  · obtain ⟨jns, n, l, hjns, rfl⟩ := h.exists_instr_before hjns'
    refine .inl ⟨b, hb, j, (h.sublist b).subset hj, jns, hjns, ?_⟩
    split at hu <;> exact hu
  · exact .inr ⟨c, hc, con, yes, no, h.constructs ▸ hcon, hshape⟩

section Scopes

variable (hw : a.Wired S) (hleft : ∀ b ∈ S.blocks, ∀ i ∈ a'.body b, i ∉ gone)

include hw hleft

theorem exists_instr (hb : b ∈ S.blocks) (hi : i ∈ a'.body b) : i ∈ a.body b
    ∧ ∃ ins, a.instrs[i.idx]? = some ins
      ∧ ∃ n l, a'.instrs[i.idx]? = some { ins with index := n, live := l } := by
  have hib := (h.sublist b).subset hi
  obtain ⟨ins, hins⟩ := hw.instr b hb i hib
  exact ⟨hib, ins, hins, h.instr_of_notMem (hleft b hb i hi) hins⟩

/-- A scope still reads what it read, apart from the sources of what is gone. -/
theorem reads_iff (hgone : ∀ i ∈ gone, ∃ T, a.Wired T ∧ ∃ b ∈ T.blocks, i ∈ a.body b) :
    a'.Reads S u ↔ a.Reads S u
      ∧ ∀ i ∈ gone, ∀ ins, a.instrs[i.idx]? = some ins → some u ∉ ins.sources := by
  -- The user of a source of an instruction that is gone is this instruction.
  have huser {i : InstrId} {ins : Instr} (hi : i ∈ gone) (hins : a.instrs[i.idx]? = some ins)
      (hu : some u ∈ ins.sources) {use : Use} (huse : a.uses[u.idx]? = some use) :
      use.user = some i := by
    obtain ⟨T, hwT, c, hc, hic⟩ := hgone i hi
    exact (hwT.reader_of_source hc hic hins hu huse).1
  constructor
  · refine fun hread => ⟨h.reads_of_reads hread, fun i hi ins hins hmem => ?_⟩
    rcases hread with ⟨b, hb, j, hj, jns', hjns', hu⟩ | ⟨c, hc, con, yes, no, hcon, hshape⟩
    · obtain ⟨hjb, jns, hjns, n, l, hjns''⟩ := h.exists_instr hw hleft hb hj
      cases hjns'.symm.trans hjns''
      obtain ⟨use, -, huse, -, -, hj', -⟩ := hw.use_of_source hb hjb hjns hu
      obtain rfl := Option.some.inj (hj'.symm.trans (huser hi hins hmem huse))
      exact hleft b hb j hj hi
    · obtain ⟨use, -, huse, -, -, -, hnone⟩ := hw.use_of_condition hc (h.constructs ▸ hcon) hshape
      simp [huser hi hins hmem huse] at hnone
  · rintro ⟨⟨b, hb, j, hj, jns, hjns, hu⟩ | ⟨c, hc, con, yes, no, hcon, hshape⟩, hnot⟩
    · have hjgone : j ∉ gone := fun hgone => hnot j hgone jns hjns hu
      obtain ⟨n, l, hjns'⟩ := h.instr_of_notMem hjgone hjns
      exact .inl ⟨b, hb, j, h.kept b j hj hjgone, _, hjns', hu⟩
    · exact .inr ⟨c, hc, con, yes, no, h.constructs ▸ hcon, hshape⟩

/-- Instructions of a scope are still at home. -/
theorem homed (hh : a.Homed S) : a'.Homed S where
  place b hb i hi ins' hins' := by
    obtain ⟨hib, ins, hins, n, l, hins''⟩ := h.exists_instr hw hleft hb hi
    cases hins'.symm.trans hins''
    exact hh.place b hb i hib ins hins
  once b hb i hi ins' hins' hdefs := by
    obtain ⟨hib, ins, hins, n, l, hins''⟩ := h.exists_instr hw hleft hb hi
    cases hins'.symm.trans hins''
    have hle := (h.sublist b).count_le i
    rw [hh.once b hb i hib ins hins hdefs] at hle
    have hpos := List.count_pos_iff.mpr hi
    omega
  definer v hv := by
    obtain ⟨x, i, ins, hx, hby, hins, hdef, hhome⟩ := hh.definer v hv
    obtain ⟨m, m', hx'⟩ := value_of_values h.values hx
    obtain ⟨n, l, hins'⟩ := h.instr hins
    by_cases hi : i ∈ gone
    · rw [if_pos hi] at hins'
      exact ⟨_, i, _, hx', hby, hins', hdef, by simp⟩
    · rw [if_neg hi] at hins'
      refine ⟨_, i, _, hx', hby, hins', hdef, fun b hb => ?_⟩
      obtain ⟨hbS, hib⟩ := hhome b hb
      exact ⟨hbS, h.kept b i hib hi⟩

end Scopes

end Loses

end Lists

end Arena

end ShaderCompiler
