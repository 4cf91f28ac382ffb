import ShaderCompiler.Proofs.Paths

/-!
# Edges and structured execution

A region can be run as it is nested, without looking at edges: lists in order, one branch of an
`if` after the other has been ruled out, the body of a loop again and again, and jumps to the
ends of the innermost loop or out of the function. A `Tour` is such a run, cut off after some
number of steps. It remembers the blocks it visited and the branches it chose.

The edges that are computed for a function are exactly those that its tours take, provided that
every `if` stands right behind a block. The block in front of an `if` is the one that gets two
exits. An `if` right behind another construct has no such block, and its second branch is never
entered.
-/

namespace ShaderCompiler

variable {a a' : Arena} {finish next root : BlockId} {around : Option LoopTargets} {b t : BlockId}
  {inLoop : Bool} {rest body : Region} {f : FunctionId} {g : Function} {s : Tour}

/-! ### Structured execution -/

/-- What is to be done when a nested list ends. -/
inductive Deferred where
  /-- The list around an `if` goes on. -/
  | after (rest : Region)
  /-- The body of a loop runs again; behind the loop, the list around it goes on. -/
  | again (body rest : Region)
deriving DecidableEq

/-- Something that happens during structured execution. -/
inductive Mark where
  | visit (b : BlockId)
  | choose (yes : Bool)
deriving DecidableEq

/-- The block that a mark visits. -/
def Mark.block? : Mark → Option BlockId
  | .visit b => some b
  | .choose _ => none

/-- A structured execution that was cut off. -/
structure Tour where
  /-- The list at hand and what is pending, innermost first. At the end there is nothing to do. -/
  todo : Option (Region × List Deferred)
  /-- What has happened, in order. -/
  marks : List Mark
deriving DecidableEq

namespace Deferred

/-- Whether a loop is pending. -/
def isLoop : Deferred → Bool
  | .after _ => false
  | .again _ _ => true

/-- What is left to do after a jump. Jumps that lead nowhere leave the function. -/
def obey (stack : List Deferred) : JumpKind → Region × List Deferred
  | .leaveLoop =>
      match stack.dropWhile (!·.isLoop) with
      | .again _ rest :: outer => (rest, outer)
      | _ => (.done, [])
  | .nextIteration =>
      match stack.dropWhile (!·.isLoop) with
      | .again body rest :: outer => (body, .again body rest :: outer)
      | _ => (.done, [])
  | _ => (.done, [])

/-- What is left to do after a block. -/
def leave (a : Arena) (b : BlockId) (rest : Region) (stack : List Deferred) :
    Region × List Deferred :=
  match a.jumpOf b with
  | .ok (some (_, kind)) => obey stack kind
  | _ => (rest, stack)

end Deferred

namespace Tour

/-- The blocks that a tour visits. -/
def visited (s : Tour) : List BlockId := s.marks.filterMap Mark.block?

/-- A step of structured execution. If it is at an `if`, the outcome decides for a branch. -/
def step (a : Arena) (finish : BlockId) (s : Tour) (outcome : Bool) : Tour :=
  match s.todo with
  | none => s
  | some (.done, []) => ⟨none, s.marks ++ [.visit finish]⟩
  | some (.done, .after rest :: stack) => ⟨some (rest, stack), s.marks⟩
  | some (.done, .again body rest :: stack) => ⟨some (body, .again body rest :: stack), s.marks⟩
  | some (.block b rest, stack) => ⟨some (Deferred.leave a b rest stack), s.marks ++ [.visit b]⟩
  | some (.branch _ yes no rest, stack) =>
      ⟨some (if outcome then yes else no, .after rest :: stack), s.marks ++ [.choose outcome]⟩
  | some (.loop _ body rest, stack) => ⟨some (body, .again body rest :: stack), s.marks⟩

end Tour

/-- The structured execution of a region, with as many steps as there are outcomes. -/
def Arena.tour (a : Arena) (finish : BlockId) (region : Region) (outcomes : List Bool) : Tour :=
  outcomes.foldl (Tour.step a finish) ⟨some (region, []), []⟩

/-- Visits and choices along exits, from a block on: a choice is made at a block with two exits,
and for the first of them if it is `true`. -/
inductive Arena.Trail (a : Arena) (root : BlockId) : List Mark → Prop
  | nil : Trail a root []
  | root : Trail a root [.visit root]
  | goto {marks : List Mark} {b t : BlockId} (h : Trail a root (marks ++ [.visit b]))
      (hb : a.exitsOf b = .goto t) : Trail a root (marks ++ [.visit b] ++ [.visit t])
  | choose {marks : List Mark} {b yes no : BlockId} (h : Trail a root (marks ++ [.visit b]))
      (hb : a.exitsOf b = .fork yes no) (outcome : Bool) :
      Trail a root (marks ++ [.visit b] ++ [.choose outcome])
  | fork {marks : List Mark} {b yes no : BlockId} {outcome : Bool}
      (h : Trail a root (marks ++ [.visit b] ++ [.choose outcome]))
      (hb : a.exitsOf b = .fork yes no) :
      Trail a root (marks ++ [.visit b] ++ [.choose outcome]
        ++ [.visit (if outcome then yes else no)])

/-! ### The regions in question -/

/-- A block does not end with a jump to a loop that is not there, or of an unknown kind. -/
def Arena.JumpFits (a : Arena) (inLoop : Bool) (b : BlockId) : Prop :=
  ∃ jump ∈ (a.jumpOf b).toOption, ∀ q ∈ jump,
    q.2 = .leaveFunction ∨ inLoop = true ∧ (q.2 = .leaveLoop ∨ q.2 = .nextIteration)

instance (a : Arena) (inLoop : Bool) (b : BlockId) : Decidable (a.JumpFits inLoop b) :=
  inferInstanceAs (Decidable (∃ jump ∈ (a.jumpOf b).toOption, ∀ q ∈ jump,
    q.2 = .leaveFunction ∨ inLoop = true ∧ (q.2 = .leaveLoop ∨ q.2 = .nextIteration)))

namespace Region

/-- Every `if` stands right behind a block. -/
def IfsAfterBlocks : Bool → Region → Prop
  | _, .done => True
  | _, .block _ rest => rest.IfsAfterBlocks true
  | afterBlock, .branch _ yes no rest => afterBlock = true ∧ yes.IfsAfterBlocks false
      ∧ no.IfsAfterBlocks false ∧ rest.IfsAfterBlocks false
  | _, .loop _ body rest => body.IfsAfterBlocks false ∧ rest.IfsAfterBlocks false

/-- Jumps to the ends of a loop are inside of one. -/
def JumpsFit (a : Arena) : Bool → Region → Prop
  | _, .done => True
  | inLoop, .block b rest => a.JumpFits inLoop b ∧ rest.JumpsFit a inLoop
  | inLoop, .branch _ yes no rest =>
      yes.JumpsFit a inLoop ∧ no.JumpsFit a inLoop ∧ rest.JumpsFit a inLoop
  | inLoop, .loop _ body rest => body.JumpsFit a true ∧ rest.JumpsFit a inLoop

instance : DecidablePred StartsWithBlock
  | .block _ _ => .isTrue trivial
  | .done => .isFalse id
  | .branch .. => .isFalse id
  | .loop .. => .isFalse id

instance decidableStructured : DecidablePred Structured
  | .done => .isTrue trivial
  | .block _ rest => decidableStructured rest
  | .branch _ yes no rest =>
      have := decidableStructured yes
      have := decidableStructured no
      have := decidableStructured rest
      inferInstanceAs (Decidable ((yes.StartsWithBlock ∧ yes.Structured)
        ∧ (no.StartsWithBlock ∧ no.Structured) ∧ rest.Structured))
  | .loop _ body rest =>
      have := decidableStructured body
      have := decidableStructured rest
      inferInstanceAs (Decidable ((body.StartsWithBlock ∧ body.Structured) ∧ rest.Structured))

instance decidableIfsAfterBlocks : (afterBlock : Bool) → DecidablePred (IfsAfterBlocks afterBlock)
  | _, .done => .isTrue trivial
  | _, .block _ rest => decidableIfsAfterBlocks true rest
  | afterBlock, .branch _ yes no rest =>
      have := decidableIfsAfterBlocks false yes
      have := decidableIfsAfterBlocks false no
      have := decidableIfsAfterBlocks false rest
      inferInstanceAs (Decidable (afterBlock = true ∧ yes.IfsAfterBlocks false
        ∧ no.IfsAfterBlocks false ∧ rest.IfsAfterBlocks false))
  | _, .loop _ body rest =>
      have := decidableIfsAfterBlocks false body
      have := decidableIfsAfterBlocks false rest
      inferInstanceAs (Decidable (body.IfsAfterBlocks false ∧ rest.IfsAfterBlocks false))

instance decidableJumpsFit (a : Arena) : (inLoop : Bool) → DecidablePred (JumpsFit a inLoop)
  | _, .done => .isTrue trivial
  | inLoop, .block b rest =>
      have := decidableJumpsFit a inLoop rest
      inferInstanceAs (Decidable (a.JumpFits inLoop b ∧ rest.JumpsFit a inLoop))
  | inLoop, .branch _ yes no rest =>
      have := decidableJumpsFit a inLoop yes
      have := decidableJumpsFit a inLoop no
      have := decidableJumpsFit a inLoop rest
      inferInstanceAs (Decidable (yes.JumpsFit a inLoop ∧ no.JumpsFit a inLoop
        ∧ rest.JumpsFit a inLoop))
  | inLoop, .loop _ body rest =>
      have := decidableJumpsFit a true body
      have := decidableJumpsFit a inLoop rest
      inferInstanceAs (Decidable (body.JumpsFit a true ∧ rest.JumpsFit a inLoop))

theorem StartsWithBlock.exists_entry {r : Region} (h : r.StartsWithBlock) :
    ∃ b, r.entry = .ok b ∧ r.header = .ok b := by
  obtain ⟨b, rest, rfl⟩ := h.exists_eq
  exact ⟨b, rfl, rfl⟩

/-- Control knows where to go in front of a region whose lists start with blocks. -/
theorem Structured.exists_follow {r : Region} (h : r.Structured) (next : BlockId) :
    ∃ t, r.follow next = .ok t := by
  cases r with
  | done => exact ⟨next, rfl⟩
  | block b rest => exact ⟨b, rfl⟩
  | branch c yes no rest =>
    obtain ⟨b, hb, -⟩ := h.1.1.exists_entry
    exact ⟨b, hb⟩
  | loop c body rest =>
    obtain ⟨b, inner, rfl⟩ := h.1.1.exists_eq
    exact ⟨b, rfl⟩

end Region

/-! ### The edges can be computed -/

/-- The same blocks are there, with the same jumps at their ends. -/
structure SameJumps (a a' : Arena) : Prop where
  jump : ∀ c, a'.jumpOf c = a.jumpOf c
  block : ∀ c : BlockId, (a'.blocks[c.idx]?).isSome = (a.blocks[c.idx]?).isSome

namespace SameJumps

theorem refl (a : Arena) : SameJumps a a := ⟨fun _ => rfl, fun _ => rfl⟩

theorem trans {a₁ a₂ a₃ : Arena} (h : SameJumps a₁ a₂) (h' : SameJumps a₂ a₃) :
    SameJumps a₁ a₃ :=
  ⟨fun c => (h'.jump c).trans (h.jump c), fun c => (h'.block c).trans (h.block c)⟩

theorem modifyBlock (a : Arena) (b : BlockId) {f : Block → Block}
    (hf : ∀ bb, (f bb).instrs = bb.instrs) : SameJumps a (a.modifyBlock b f) where
  jump c := by
    refine Arena.jumpOf_congr rfl ?_
    rw [Arena.modifyBlock_blocks_get]
    split
    · cases a.blocks[c.idx]? <;> simp [hf]
    · rfl
  block c := by
    rw [Arena.modifyBlock_blocks_get]
    split
    · simp
    · rfl

theorem jumpsFit {r : Region} (h : SameJumps a a') (hj : r.JumpsFit a inLoop) :
    r.JumpsFit a' inLoop := by
  induction r generalizing inLoop with
  | done => trivial
  | block b rest ih => exact ⟨by simpa only [Arena.JumpFits, h.jump] using hj.1, ih hj.2⟩
  | branch c yes no rest ihy ihn ihr => exact ⟨ihy hj.1, ihn hj.2.1, ihr hj.2.2⟩
  | loop c body rest ihb ihr => exact ⟨ihb hj.1, ihr hj.2⟩

end SameJumps

/-- The blocks of a region whose jumps fit are there. -/
theorem Region.JumpsFit.isSome {r : Region} (h : r.JumpsFit a inLoop)
    (hb : b ∈ r.preorder) : (a.blocks[b.idx]?).isSome = true := by
  induction r generalizing inLoop with
  | done => simp [preorder] at hb
  | block c rest ih =>
    rcases List.mem_cons.mp hb with rfl | hb
    · obtain ⟨jump, hjump, -⟩ := h.1
      have hjump := eq_ok_of_mem_toOption hjump
      simp only [Arena.jumpOf, except_bind_eq_ok, Arena.block_eq_ok] at hjump
      obtain ⟨bb, hbb, -⟩ := hjump
      rw [hbb, Option.isSome_some]
    · exact ih h.2 hb
  | branch c yes no rest ihy ihn ihr =>
    simp only [preorder, List.mem_append] at hb
    rcases hb with (hb | hb) | hb
    · exact ihy h.1 hb
    · exact ihn h.2.1 hb
    · exact ihr h.2.2 hb
  | loop c body rest ihb ihr =>
    simp only [preorder, List.mem_append] at hb
    rcases hb with hb | hb
    · exact ihb h.1 hb
    · exact ihr h.2 hb

namespace Edit

theorem exists_linkBlock (finish next : BlockId) (hs : rest.Structured)
    (hj : a.JumpFits around.isSome b) :
    ∃ a', linkBlock finish b rest next around a = .ok () a' ∧ SameJumps a a' := by
  obtain ⟨follow, hfollow⟩ := hs.exists_follow next
  suffices h : ∃ e : Block → Exits, linkBlock finish b rest next around a
      = .ok () (a.modifyBlock b fun bb => { bb with exits := e bb }) by
    obtain ⟨e, he⟩ := h
    exact ⟨_, he, .modifyBlock a b fun _ => rfl⟩
  obtain ⟨jump, hjump, hfits⟩ := hj
  have hjump := eq_ok_of_mem_toOption hjump
  simp only [linkBlock, bind_eq_ok, liftM_eq_ok, look_eq_ok]
  cases jump with
  | some q =>
    obtain ⟨t, ht⟩ : ∃ t, q.2.target finish around = .ok t := by
      rcases hfits q rfl with hkind | ⟨hin, hkind⟩
      · exact ⟨finish, by rw [hkind]; rfl⟩
      · obtain ⟨l, rfl⟩ := Option.isSome_iff_exists.mp hin
        rcases hkind with hkind | hkind
        · exact ⟨l.after, by rw [hkind]; rfl⟩
        · exact ⟨l.header, by rw [hkind]; rfl⟩
    refine ⟨fun bb => bb.exits.withFirst t, follow, a, ⟨hfollow, rfl⟩, some q, a, ⟨hjump, rfl⟩, ?_⟩
    simp [ht, setFirstExit]
  | none =>
    cases rest with
    | branch c yes no rest =>
      obtain ⟨ty, hty, -⟩ := hs.1.1.exists_entry
      obtain ⟨tn, htn, -⟩ := hs.2.1.1.exists_entry
      refine ⟨fun _ => .fork ty tn, follow, a, ⟨hfollow, rfl⟩, none, a, ⟨hjump, rfl⟩, ?_⟩
      simp [hty, htn]
    | done | block _ _ | loop _ _ _ =>
      refine ⟨fun bb => bb.exits.withFirst follow, follow, a, ⟨hfollow, rfl⟩, none, a,
        ⟨hjump, rfl⟩, ?_⟩
      simp [setFirstExit]

theorem exists_linkRegion {r : Region} (finish next : BlockId) (around : Option LoopTargets)
    (hs : r.Structured) (hj : r.JumpsFit a around.isSome) :
    ∃ a', linkRegion finish r next around a = .ok () a' ∧ SameJumps a a' := by
  induction r generalizing a next around with
  | done => exact ⟨a, rfl, .refl a⟩
  | block b rest ih =>
    obtain ⟨a₁, h1, hsame₁⟩ := exists_linkBlock finish next (show rest.Structured from hs) hj.1
    obtain ⟨a₂, h2, hsame₂⟩ := ih next around hs (hsame₁.jumpsFit hj.2)
    refine ⟨a₂, ?_, hsame₁.trans hsame₂⟩
    rw [linkRegion, bind_eq_ok]
    exact ⟨(), a₁, h1, h2⟩
  | branch c yes no rest ihy ihn ihr =>
    obtain ⟨hy, hn, hr⟩ := hs
    obtain ⟨follow, hfollow⟩ := hr.exists_follow next
    obtain ⟨a₁, h1, hsame₁⟩ := ihy follow around hy.2 hj.1
    obtain ⟨a₂, h2, hsame₂⟩ := ihn follow around hn.2 (hsame₁.jumpsFit hj.2.1)
    have hsame := hsame₁.trans hsame₂
    obtain ⟨a₃, h3, hsame₃⟩ := ihr next around hr (hsame.jumpsFit hj.2.2)
    refine ⟨a₃, ?_, hsame.trans hsame₃⟩
    rw [linkRegion]
    simp only [bind_eq_ok, liftM_eq_ok]
    exact ⟨follow, a, ⟨hfollow, rfl⟩, (), a₁, h1, (), a₂, h2, h3⟩
  | loop c body rest ihb ihr =>
    obtain ⟨hb, hr⟩ := hs
    obtain ⟨follow, hfollow⟩ := hr.exists_follow next
    obtain ⟨header, -, hheader⟩ := hb.1.exists_entry
    obtain ⟨a₁, h1, hsame₁⟩ := ihb header (some ⟨header, follow⟩) hb.2 hj.1
    obtain ⟨a₂, h2, hsame₂⟩ := ihr next around hr (hsame₁.jumpsFit hj.2)
    refine ⟨a₂, ?_, hsame₁.trans hsame₂⟩
    rw [linkRegion]
    simp only [bind_eq_ok, liftM_eq_ok]
    exact ⟨follow, a, ⟨hfollow, rfl⟩, header, a, ⟨hheader, rfl⟩, (), a₁, h1, h2⟩

/-- A loop over a list runs through if each of its steps does. -/
theorem exists_forM {α : Type} {l : List α} {k : α → Edit Unit} (a : Arena)
    (hk : ∀ x ∈ l, ∀ a₁, SameJumps a a₁ → ∃ a', k x a₁ = .ok () a' ∧ SameJumps a₁ a') :
    ∃ a', l.forM k a = .ok () a' ∧ SameJumps a a' := by
  suffices h : ∀ a₁, SameJumps a a₁ → ∃ a', l.forM k a₁ = .ok () a' ∧ SameJumps a a' from
    h a (.refl a)
  induction l with
  | nil => exact fun a₁ h₁ => ⟨a₁, rfl, h₁⟩
  | cons x l ih =>
    intro a₁ h₁
    obtain ⟨a₂, h2, hsame⟩ := hk x List.mem_cons_self a₁ h₁
    obtain ⟨a₃, h3, hsame₃⟩ := ih (fun y hy => hk y (List.mem_cons_of_mem x hy)) a₂
      (h₁.trans hsame)
    exact ⟨a₃, bind_eq_ok.mpr ⟨(), a₂, h2, h3⟩, hsame₃⟩

/-- The edges of a function can be computed if its lists start with blocks and its jumps fit. -/
theorem exists_relink {region : Region}
    (hg : a.functions[f.idx]? = some g) (hregion : a.bodyRegion f = .ok region)
    (hfinish : (a.blocks[g.finish.idx]?).isSome = true) (hs : region.Structured)
    (hj : region.JumpsFit a false) : ∃ a', relink f a = .ok () a' := by
  have hset {k : Block → Block} (hk : ∀ bb, (k bb).instrs = bb.instrs) (b : BlockId) (a₁ : Arena) :
      ∃ a', setBlock b k a₁ = .ok () a' ∧ SameJumps a₁ a' :=
    ⟨_, setBlock_eq_ok.mpr rfl, .modifyBlock a₁ b hk⟩
  obtain ⟨a₁, h1, hsame₁⟩ := exists_forM (l := region.blocks ++ [g.finish]) a fun b _ a₁ _ =>
    hset (k := fun bb => { bb with preds := [], exits := .nowhere }) (fun _ => rfl) b a₁
  obtain ⟨a₂, h2, hsame₂⟩ := exists_linkRegion g.finish g.finish none hs (hsame₁.jumpsFit hj)
  have hblocks : ∀ b ∈ region.blocks ++ [g.finish], (a₂.blocks[b.idx]?).isSome = true := by
    intro b hb
    rw [(hsame₁.trans hsame₂).block]
    rcases List.mem_append.mp hb with hb | hb
    · exact hj.isSome (region.blocks_eq_preorder ▸ hb)
    · exact List.mem_singleton.mp hb ▸ hfinish
  obtain ⟨a₃, h3, -⟩ := exists_forM (l := region.blocks ++ [g.finish]) a₂
    (k := fun b => do
      (← look (·.block b)).exits.toList.forM fun s =>
        setBlock s fun bb => { bb with preds := bb.preds ++ [b] }) fun b hb a₁ hsame => by
    obtain ⟨bb, hbb⟩ := Option.isSome_iff_exists.mp ((hsame.block b).trans (hblocks b hb))
    obtain ⟨a', h', hsame'⟩ := exists_forM (l := bb.exits.toList) a₁ fun s _ a₂ _ =>
      hset (k := fun bb => { bb with preds := bb.preds ++ [b] }) (fun _ => rfl) s a₂
    refine ⟨a', ?_, hsame'⟩
    simp only [bind_eq_ok, look_eq_ok, Arena.block_eq_ok]
    exact ⟨bb, a₁, ⟨hbb, rfl⟩, h'⟩
  exact ⟨_, (relink_eq_ok hg hregion).mpr ⟨a₁, a₂, a₃, h1, h2, h3, rfl⟩⟩

end Edit

/-! ### Tours along edges -/

/-- A region whose edges are in place and whose ifs stand behind blocks. -/
structure Region.Ready (a : Arena) (finish : BlockId) (r : Region) (next : BlockId)
    (around : Option LoopTargets) (afterBlock : Bool) : Prop where
  linked : r.Linked a finish next around
  structured : r.Structured
  ifs : r.IfsAfterBlocks afterBlock

/-- Where control goes when the list at hand ends, and where jumps to the ends of a loop go. -/
def Deferred.Leads (a : Arena) (finish : BlockId) :
    List Deferred → BlockId → Option LoopTargets → Prop
  | [], next, around => next = finish ∧ around = none
  | .after rest :: stack, next, around => ∃ outer, rest.follow outer = .ok next
      ∧ rest.Ready a finish outer around false ∧ Leads a finish stack outer around
  | .again body rest :: stack, header, around => ∃ outer wider after,
      around = some ⟨header, after⟩ ∧ body.StartsWithBlock ∧ body.header = .ok header
        ∧ body.Ready a finish header around false ∧ rest.follow outer = .ok after
        ∧ rest.Ready a finish outer wider false ∧ Leads a finish stack outer wider

namespace Tour

/-- The block that is visited next is `t`, whatever the outcomes. -/
def Heading (a : Arena) (finish : BlockId) (p : Region × List Deferred) (t : BlockId) : Prop :=
  ∃ next around, p.1.Ready a finish next around false ∧ Deferred.Leads a finish p.2 next around
    ∧ p.1.follow next = .ok t

/-- The next step is at an `if` with branches that start at `yes` and `no`. -/
def AtFork (a : Arena) (finish : BlockId) (p : Region × List Deferred) (yes no : BlockId) : Prop :=
  ∃ next around c ry rn rest, p.1 = .branch c ry rn rest ∧ p.1.Ready a finish next around true
    ∧ Deferred.Leads a finish p.2 next around ∧ ry.entry = .ok yes ∧ rn.entry = .ok no

/-- A tour goes on as exits say. -/
def Onward (a : Arena) (finish : BlockId) (p : Region × List Deferred) : Exits → Prop
  | .nowhere => False
  | .goto t => Heading a finish p t
  | .fork yes no => AtFork a finish p yes no

variable {r : Region} {stack : List Deferred} {p : Region × List Deferred} {marks : List Mark}

/-- Inside a loop, the innermost loop is pending. -/
theorem exists_of_leads {l : LoopTargets} (h : Deferred.Leads a finish stack next (some l)) :
    ∃ body rest outer, stack.dropWhile (!·.isLoop) = .again body rest :: outer
      ∧ Deferred.Leads a finish (.again body rest :: outer) l.header (some l) := by
  induction stack generalizing next with
  | nil => simp [Deferred.Leads] at h
  | cons q stack ih =>
    cases q with
    | after rest =>
      obtain ⟨outer, -, -, h⟩ := h
      obtain ⟨body, rest', outer', hdrop, hleads⟩ := ih h
      exact ⟨body, rest', outer', by simpa [Deferred.isLoop] using hdrop, hleads⟩
    | again body rest =>
      have hheader : l.header = next := by
        obtain ⟨_, _, _, heq, -⟩ := h
        cases heq
        rfl
      exact ⟨body, rest, stack, by simp [Deferred.isLoop], hheader ▸ h⟩

theorem heading_of_again
    (h : Deferred.Leads a finish (.again body rest :: stack) next around) :
    Heading a finish (body, .again body rest :: stack) next := by
  refine ⟨next, around, ?_, h, ?_⟩
  · obtain ⟨_, _, _, -, -, -, hready, -⟩ := h
    exact hready
  · obtain ⟨_, _, _, -, hstart, hheader, -⟩ := h
    obtain ⟨b, inner, rfl⟩ := hstart.exists_eq
    exact hheader

theorem heading_of_loop {c : ConstructId}
    (h : Heading a finish (.loop c body rest, stack) t) :
    Heading a finish (body, .again body rest :: stack) t := by
  obtain ⟨next, around, hr, hl, ht⟩ := h
  obtain ⟨⟨follow, header, hfollow, hheader, hbody, hrest⟩, ⟨hstart, hrest'⟩, hifs⟩ := hr
  have hleads : Deferred.Leads a finish (.again body rest :: stack) header
      (some ⟨header, follow⟩) :=
    ⟨next, around, follow, rfl, hstart.1, hheader, ⟨hbody, hstart.2, hifs.1⟩, hfollow,
      ⟨hrest, hrest', hifs.2⟩, hl⟩
  obtain rfl : header = t := by
    obtain ⟨b, inner, rfl⟩ := hstart.1.exists_eq
    exact (Except.ok.inj hheader).symm.trans (Except.ok.inj ht)
  exact heading_of_again hleads

/-- A jump leads where its edge leads. -/
theorem heading_obey {kind : JumpKind} (hl : Deferred.Leads a finish stack next around)
    (ht : kind.target finish around = .ok t) : Heading a finish (Deferred.obey stack kind) t := by
  have hleave (htf : finish = t) : Heading a finish (.done, []) t :=
    ⟨finish, none, ⟨trivial, trivial, trivial⟩, ⟨rfl, rfl⟩, congrArg Except.ok htf⟩
  cases kind with
  | leaveFunction => exact hleave (Except.ok.inj ht)
  | unknown n => cases ht
  | leaveLoop =>
    cases around with
    | none => cases ht
    | some l =>
      obtain ⟨body, rest, outer, hdrop, next', wider, after, hl', -, -, -, hfollow, hready, hleads⟩ :=
        exists_of_leads hl
      have hafter : l.after = after := congrArg LoopTargets.after (Option.some.inj hl')
      rw [Deferred.obey, hdrop]
      exact ⟨next', wider, hready, hleads, hfollow.trans (hafter ▸ ht)⟩
  | nextIteration =>
    cases around with
    | none => cases ht
    | some l =>
      obtain ⟨body, rest, outer, hdrop, hleads⟩ := exists_of_leads hl
      rw [Deferred.obey, hdrop]
      exact Except.ok.inj ht ▸ heading_of_again hleads

/-- A visited block is left as its exits say. -/
theorem step_block {afterBlock : Bool}
    (hr : (Region.block b rest).Ready a finish next around afterBlock)
    (hl : Deferred.Leads a finish stack next around) (marks : List Mark) (outcome : Bool) :
    ∃ p, step a finish ⟨some (.block b rest, stack), marks⟩ outcome
      = ⟨some p, marks ++ [.visit b]⟩ ∧ Onward a finish p (a.exitsOf b) := by
  obtain ⟨⟨⟨exits, hbb, hat⟩, hlinked⟩, hstruct, hifs⟩ := hr
  have hexits : a.exitsOf b = exits := by
    obtain ⟨bb, hb, rfl⟩ := Option.map_eq_some_iff.mp hbb
    simp [Arena.exitsOf, hb]
  rw [hexits]
  refine ⟨Deferred.leave a b rest stack, rfl, ?_⟩
  simp only [Arena.exitsAt, except_bind_eq_ok] at hat
  obtain ⟨follow, hfollow, jump, hjump, hat⟩ := hat
  rw [Deferred.leave, hjump]
  cases jump with
  | some q =>
    simp only [except_bind_eq_ok, except_pure_eq_ok] at hat
    obtain ⟨t, ht, rfl⟩ := hat
    exact heading_obey hl ht
  | none =>
    cases rest with
    | branch c yes no rest =>
      simp only [except_bind_eq_ok, except_pure_eq_ok] at hat
      obtain ⟨ty, hty, tn, htn, rfl⟩ := hat
      exact ⟨next, around, c, yes, no, rest, rfl, ⟨hlinked, hstruct, hifs⟩, hl, hty, htn⟩
    | done | block _ _ | loop _ _ _ =>
      obtain rfl : Exits.goto follow = exits := except_pure_eq_ok.mp hat
      exact ⟨next, around, ⟨hlinked, hstruct, hifs⟩, hl, hfollow⟩

/-- A step of a tour that is heading for a block gets it there or closer. -/
theorem Heading.step (h : Heading a finish p t) (marks : List Mark) (outcome : Bool) :
    (∃ p', step a finish ⟨some p, marks⟩ outcome = ⟨some p', marks⟩ ∧ Heading a finish p' t)
    ∨ step a finish ⟨some p, marks⟩ outcome = ⟨none, marks ++ [.visit t]⟩
    ∨ ∃ p', step a finish ⟨some p, marks⟩ outcome = ⟨some p', marks ++ [.visit t]⟩
      ∧ Onward a finish p' (a.exitsOf t) := by
  obtain ⟨r, stack⟩ := p
  obtain ⟨next, around, hr, hl, ht⟩ := h
  cases r with
  | done =>
    cases Except.ok.inj ht
    cases stack with
    | nil => exact .inr (.inl (by rw [hl.1]; rfl))
    | cons q stack =>
      cases q with
      | after rest =>
        obtain ⟨outer, hfollow, hready, hleads⟩ := hl
        exact .inl ⟨(rest, stack), rfl, outer, around, hready, hleads, hfollow⟩
      | again body rest => exact .inl ⟨_, rfl, heading_of_again hl⟩
  | block b rest =>
    cases Except.ok.inj ht
    exact .inr (.inr (step_block hr hl marks outcome))
  | branch c yes no rest => exact absurd hr.ifs.1 (by simp)
  | loop c body rest => exact .inl ⟨_, rfl, heading_of_loop ⟨next, around, hr, hl, ht⟩⟩

/-- At an `if`, the outcome chooses the branch. -/
theorem AtFork.step {yes no : BlockId} (h : AtFork a finish p yes no) (marks : List Mark)
    (outcome : Bool) : ∃ p', step a finish ⟨some p, marks⟩ outcome
      = ⟨some p', marks ++ [.choose outcome]⟩
        ∧ Heading a finish p' (if outcome then yes else no) := by
  obtain ⟨r, stack⟩ := p
  obtain ⟨next, around, c, ry, rn, rest, rfl, hr, hl, hyes, hno⟩ := h
  obtain ⟨⟨follow, hfollow, hly, hln, hlr⟩, ⟨hsy, hsn, hsr⟩, -, hiy, hin, hir⟩ := hr
  have hleads : Deferred.Leads a finish (.after rest :: stack) follow around :=
    ⟨next, hfollow, ⟨hlr, hsr, hir⟩, hl⟩
  have hbranch {s : Region} {t : BlockId} (hstart : s.StartsWithBlock) (ht : s.entry = .ok t) :
      s.follow follow = .ok t := by
    obtain ⟨b, inner, rfl⟩ := hstart.exists_eq
    exact ht
  refine ⟨(if outcome then ry else rn, .after rest :: stack), rfl, follow, around, ?_, hleads, ?_⟩
  · cases outcome
    · exact ⟨hln, hsn.2, hin⟩
    · exact ⟨hly, hsy.2, hiy⟩
  · cases outcome
    · exact hbranch hsn.1 hno
    · exact hbranch hsy.1 hyes

/-! ### Tours stay on trails -/

/-- A tour has followed the exits of blocks and is about to go on like this. -/
inductive OnTrail (a : Arena) (finish root : BlockId) : Tour → Prop
  | heading {p : Region × List Deferred} {marks : List Mark} {t : BlockId}
      (h : Heading a finish p t) (hmarks : a.Trail root marks)
      (hnext : a.Trail root (marks ++ [.visit t])) : OnTrail a finish root ⟨some p, marks⟩
  | fork {p : Region × List Deferred} {marks : List Mark} {b yes no : BlockId}
      (h : AtFork a finish p yes no) (hb : a.exitsOf b = .fork yes no)
      (hmarks : a.Trail root (marks ++ [.visit b])) :
      OnTrail a finish root ⟨some p, marks ++ [.visit b]⟩
  | stopped {marks : List Mark} (hmarks : a.Trail root marks) : OnTrail a finish root ⟨none, marks⟩

theorem OnTrail.trail (h : OnTrail a finish root s) : a.Trail root s.marks := by
  cases h with
  | heading _ hmarks _ => exact hmarks
  | fork _ _ hmarks => exact hmarks
  | stopped hmarks => exact hmarks

theorem OnTrail.step (h : OnTrail a finish root s) (outcome : Bool) :
    OnTrail a finish root (s.step a finish outcome) := by
  cases h with
  | @heading p marks t h hmarks hnext =>
    rcases h.step marks outcome with ⟨p', heq, h'⟩ | heq | ⟨p', heq, honward⟩
    · exact heq ▸ .heading h' hmarks hnext
    · exact heq ▸ .stopped hnext
    · rw [heq]
      cases hexits : a.exitsOf t with
      | nowhere => exact (hexits ▸ honward : Onward a finish p' .nowhere).elim
      | goto t' =>
        have hheading : Onward a finish p' (.goto t') := hexits ▸ honward
        exact .heading hheading hnext (hnext.goto hexits)
      | fork yes no =>
        have hfork : Onward a finish p' (.fork yes no) := hexits ▸ honward
        exact .fork hfork hexits hnext
  | @fork p marks b yes no h hb hmarks =>
    obtain ⟨p', heq, h'⟩ := h.step (marks ++ [.visit b]) outcome
    have hchoose := hmarks.choose hb outcome
    exact heq ▸ .heading h' hchoose (hchoose.fork hb)
  | stopped hmarks => exact .stopped hmarks

/-! ### Tours take every exit -/

/-- A tour has just visited a block and is about to leave it as its exits say. -/
def Arrived (a : Arena) (finish : BlockId) (s : Tour) (marks : List Mark) (t : BlockId) : Prop :=
  s.marks = marks ++ [.visit t]
    ∧ (t = finish ∨ ∃ p, s.todo = some p ∧ Onward a finish p (a.exitsOf t))

theorem arrived_of_block (h : Heading a finish (r, stack) t) (hstart : r.StartsWithBlock)
    (marks : List Mark) :
    Arrived a finish (Tour.step a finish ⟨some (r, stack), marks⟩ true) marks t := by
  obtain ⟨next, around, hr, hl, ht⟩ := h
  obtain ⟨b, rest, rfl⟩ := hstart.exists_eq
  cases Except.ok.inj ht
  obtain ⟨p', heq, honward⟩ := step_block hr hl marks true
  rw [heq]
  exact ⟨rfl, .inr ⟨p', rfl, honward⟩⟩

theorem exists_arrived_of_ne_done (h : Heading a finish (r, stack) t) (hne : r ≠ .done)
    (marks : List Mark) : ∃ outcomes : List Bool,
      Arrived a finish (outcomes.foldl (Tour.step a finish) ⟨some (r, stack), marks⟩) marks t := by
  have hr := h
  obtain ⟨_, _, hr, -⟩ := hr
  cases r with
  | done => exact absurd rfl hne
  | block b rest => exact ⟨[true], arrived_of_block h trivial marks⟩
  | branch c yes no rest => exact absurd hr.ifs.1 (by simp)
  | loop c body rest =>
    exact ⟨[true, true], arrived_of_block (heading_of_loop h) hr.structured.1.1 marks⟩

/-- A tour that is heading for a block gets there. -/
theorem Heading.exists_arrived (h : Heading a finish (r, stack) t) (marks : List Mark) :
    ∃ outcomes : List Bool,
      Arrived a finish (outcomes.foldl (Tour.step a finish) ⟨some (r, stack), marks⟩) marks t := by
  -- Lists that are over are dropped one after the other until a block or a loop comes.
  induction stack generalizing r with
  | nil =>
    by_cases hr : r = .done
    · subst hr
      obtain ⟨_, _, -, hl, ht⟩ := h
      obtain rfl : finish = t := hl.1.symm.trans (Except.ok.inj ht)
      exact ⟨[true], rfl, .inl rfl⟩
    · exact exists_arrived_of_ne_done h hr marks
  | cons q stack ih =>
    by_cases hr : r = .done
    · subst hr
      obtain ⟨next, around, -, hl, ht⟩ := h
      cases Except.ok.inj ht
      cases q with
      | after rest =>
        obtain ⟨outer, hfollow, hready, hleads⟩ := hl
        obtain ⟨outcomes, harrived⟩ := ih ⟨outer, around, hready, hleads, hfollow⟩
        exact ⟨true :: outcomes, harrived⟩
      | again body rest =>
        have hstart : body.StartsWithBlock := by
          obtain ⟨_, _, _, -, hstart, -⟩ := hl
          exact hstart
        exact ⟨[true, true], arrived_of_block (heading_of_again hl) hstart marks⟩
    · exact exists_arrived_of_ne_done h hr marks

/-- A tour can be made to leave a block through any of its exits. -/
theorem Arrived.exists_next (h : Arrived a finish s marks b)
    (hends : a.exitsOf finish = .nowhere) (ht : t ∈ (a.exitsOf b).toList) :
    ∃ (outcomes : List Bool) (marks' : List Mark),
      Arrived a finish (outcomes.foldl (Tour.step a finish) s) marks' t
        ∧ marks'.filterMap Mark.block? = s.visited := by
  obtain ⟨todo, smarks⟩ := s
  obtain ⟨hmarks, rfl | ⟨⟨r, stack⟩, htodo, honward⟩⟩ := h
  · simp [hends, Exits.toList] at ht
  · cases htodo
    cases hexits : a.exitsOf b with
    | nowhere => simp [hexits, Exits.toList] at ht
    | goto t' =>
      have hheading : Onward a finish (r, stack) (.goto t') := hexits ▸ honward
      obtain rfl : t = t' := by simpa [hexits, Exits.toList] using ht
      obtain ⟨outcomes, harrived⟩ := Heading.exists_arrived hheading smarks
      exact ⟨outcomes, smarks, harrived, rfl⟩
    | fork yes no =>
      have hfork : AtFork a finish (r, stack) yes no := by
        have honward' : Onward a finish (r, stack) (.fork yes no) := hexits ▸ honward
        exact honward'
      obtain ⟨outcome, rfl⟩ : ∃ outcome : Bool, t = if outcome then yes else no := by
        rw [hexits] at ht
        rcases List.mem_cons.mp ht with rfl | ht
        · exact ⟨true, rfl⟩
        · exact ⟨false, List.mem_singleton.mp ht⟩
      obtain ⟨p', heq, hheading⟩ := hfork.step smarks outcome
      obtain ⟨outcomes, harrived⟩ := Heading.exists_arrived hheading (smarks ++ [.choose outcome])
      refine ⟨outcome :: outcomes, smarks ++ [.choose outcome], ?_, ?_⟩
      · rw [List.foldl_cons, heq]
        exact harrived
      · simp [visited, Mark.block?]

end Tour

/-! ### Tours and paths -/

namespace Arena

variable {region : Region}

theorem mem_exitsOf_iff : t ∈ (a.exitsOf b).toList ↔ a.Flows b t := by
  unfold exitsOf Flows
  cases hbb : a.blocks[b.idx]? with
  | none => simp [Exits.toList]
  | some bb => simp

/-- Tours only depend on the jumps at the ends of blocks. -/
theorem tour_congr (h : ∀ b, a'.jumpOf b = a.jumpOf b) (outcomes : List Bool) :
    a'.tour finish region outcomes = a.tour finish region outcomes := by
  have hstep : Tour.step a' finish = Tour.step a finish := by
    funext s outcome
    simp only [Tour.step, Deferred.leave, h]
  rw [tour, tour, hstep]

/-- A tour of a region follows the exits of its blocks. -/
theorem trail_tour (h : Tour.Heading a finish (region, []) root) (outcomes : List Bool) :
    a.Trail root (a.tour finish region outcomes).marks := by
  have hrun (s : Tour) (hs : s.OnTrail a finish root) :
      (outcomes.foldl (Tour.step a finish) s).OnTrail a finish root := by
    induction outcomes generalizing s with
    | nil => exact hs
    | cons outcome outcomes ih => exact ih _ (hs.step outcome)
  exact (hrun _ (.heading h .nil .root)).trail

/-- Every walk along exits is a tour. -/
theorem Walk.exists_tour {path : List BlockId} (h : a.Walk f path b)
    (hroot : a.entryOf f = some root) (hheading : Tour.Heading a finish (region, []) root)
    (hends : a.exitsOf finish = .nowhere) : ∃ (outcomes : List Bool) (marks : List Mark),
      Tour.Arrived a finish (a.tour finish region outcomes) marks b
        ∧ marks.filterMap Mark.block? = path := by
  induction h with
  | entry h =>
    cases hroot.symm.trans h
    obtain ⟨outcomes, harrived⟩ := hheading.exists_arrived []
    exact ⟨outcomes, [], harrived, rfl⟩
  | @step path b t h hbt ih =>
    obtain ⟨outcomes, marks, harrived, hmarks⟩ := ih
    obtain ⟨more, marks', harrived', hmarks'⟩ :=
      harrived.exists_next hends (mem_exitsOf_iff.mpr hbt)
    refine ⟨outcomes ++ more, marks', ?_, ?_⟩
    · rw [tour, List.foldl_append]
      exact harrived'
    · rw [hmarks', Tour.visited, harrived.1, List.filterMap_append, hmarks]
      rfl

/-- The edges that are computed for a function are those of its structured execution: every tour
goes along them, with the first exit of a block for a branch that is taken, and every path along
them is the list of blocks that some tour visits. -/
theorem relink_traces_tours {f : FunctionId} {g : Function} (hg : a.functions[f.idx]? = some g)
    (hregion : a.bodyRegion f = .ok region) (hnodup : (region.blocks ++ [g.finish]).Nodup)
    (hfinish : (a.blocks[g.finish.idx]?).isSome = true) (hstart : region.StartsWithBlock)
    (hstructured : region.Structured) (hifs : region.IfsAfterBlocks false)
    (hjumps : region.JumpsFit a false) :
    ∃ a' root, Edit.relink f a = .ok () a' ∧ region.entry = .ok root
      ∧ (∀ outcomes, a'.Trail root (a.tour g.finish region outcomes).marks)
      ∧ ∀ path b, a'.Walk f path b →
        ∃ outcomes, (a.tour g.finish region outcomes).visited = path ++ [b] := by
  obtain ⟨a', h⟩ := Edit.exists_relink hg hregion hfinish hstructured hjumps
  obtain ⟨hedged, hjump, hregion', hg'⟩ := Edit.relink_spec hg hregion hnodup h
  obtain ⟨root, rest, rfl⟩ := hstart.exists_eq
  have hheading : Tour.Heading a' g.finish (.block root rest, []) root :=
    ⟨g.finish, none, ⟨hedged.linked, hstructured, hifs⟩, ⟨rfl, rfl⟩, rfl⟩
  have hroot : a'.entryOf f = some root := by
    have hblocks := (blocksOf_eq_ok hg' hregion').mpr rfl
    simp [entryOf, hblocks, Except.toOption, Region.blocks_eq_preorder, Region.preorder]
  refine ⟨a', root, h, rfl, fun outcomes => ?_, fun path b hwalk => ?_⟩
  · rw [← tour_congr hjump]
    exact trail_tour hheading outcomes
  · obtain ⟨outcomes, marks, harrived, hmarks⟩ := hwalk.exists_tour hroot hheading hedged.ends
    refine ⟨outcomes, ?_⟩
    rw [← tour_congr hjump, Tour.visited, harrived.1, List.filterMap_append, hmarks]
    rfl

open Edit in
/-- The loop, its exit and its `if` are run along the edges. -/
theorem relink_traces_tours_countedLoop :
    ∃ g region, countedLoop.built.functions[0]? = some g
      ∧ countedLoop.built.bodyRegion ⟨0⟩ = .ok region ∧ (region.blocks ++ [g.finish]).Nodup
      ∧ (countedLoop.built.blocks[g.finish.idx]?).isSome = true ∧ region.StartsWithBlock
      ∧ region.Structured ∧ region.IfsAfterBlocks false ∧ region.JumpsFit countedLoop.built false
      ∧ ∃ a' root, relink ⟨0⟩ countedLoop.built = .ok () a' ∧ region.entry = .ok root
        ∧ (∀ outcomes, a'.Trail root (countedLoop.built.tour g.finish region outcomes).marks)
        ∧ ∀ path b, a'.Walk ⟨0⟩ path b →
          ∃ outcomes, (countedLoop.built.tour g.finish region outcomes).visited = path ++ [b] := by
  obtain ⟨g, hg, region, hregion, hnodup, hfinish, hstart, hstructured, hifs, hjumps⟩ :
      ∃ g ∈ countedLoop.built.functions[0]?,
        ∃ region ∈ (countedLoop.built.bodyRegion ⟨0⟩).toOption,
          (region.blocks ++ [g.finish]).Nodup
            ∧ (countedLoop.built.blocks[g.finish.idx]?).isSome = true ∧ region.StartsWithBlock
            ∧ region.Structured ∧ region.IfsAfterBlocks false
            ∧ region.JumpsFit countedLoop.built false := by
    decide +kernel
  have hregion := eq_ok_of_mem_toOption hregion
  exact ⟨g, region, hg, hregion, hnodup, hfinish, hstart, hstructured, hifs, hjumps,
    relink_traces_tours hg hregion hnodup hfinish hstart hstructured hifs hjumps⟩

end Arena

end ShaderCompiler
