import ShaderCompiler.Proofs.Build.Steps

/-!
# Lists under construction

While functions are built, every list starts with a block, has no two blocks next to each other, and
its items point to its owner. A list ends with a block too, unless a construct at its end is open: then
a builder has put it aside. The list in which a builder works always ends with a block.

The constructs that a builder has open are nested: the list of each of them stands at the end of a
list of the next one, and the last of these lists is the body of the function. Builders of different
functions work in different lists, since following owners leads from a list to one function only.
-/

namespace ShaderCompiler

variable {l : List Item} {fr : Frame} {n : ConstructId} {e : ListRef} {item : Item} {x : Item}

theorem Separated.append {afterBlock : Bool} (h : Separated afterBlock l)
    (hx : l.getLast?.elim afterBlock (·.isBlock) = true → x.isBlock = false) :
    Separated afterBlock (l ++ [x]) := by
  induction l generalizing afterBlock with
  | nil => exact ⟨fun ⟨hb, hxb⟩ => by simp [hx hb] at hxb, trivial⟩
  | cons y l ih =>
    refine ⟨h.1, ih h.2 fun hlast => hx ?_⟩
    rw [List.getLast?_cons]
    cases hl : l.getLast? with
    | none => simpa [hl] using hlast
    | some z => simpa [hl] using hlast

namespace Skeleton

variable {s t : Skeleton} {f g : FunctionId} {o : Owner}

/-- The function or construct is there. -/
def OwnerThere (s : Skeleton) : Owner → Prop
  | .function f => ∃ b, s.finish f = some b
  | .construct n => ∃ p, s.parent (.construct n) = some p

/-- Following owners leads to the function. -/
inductive Within (s : Skeleton) (f : FunctionId) : Owner → Prop
  | function : Within s f (.function f)
  | construct {n : ConstructId} {o : Owner} (hp : s.parent (.construct n) = some (some o))
      (ho : Within s f o) : Within s f (.construct n)

theorem Within.function_eq (hf : s.Within f o) (hg : s.Within g o) : f = g := by
  induction hf with
  | function =>
    cases hg
    rfl
  | construct hp _ ih =>
    cases hg with
    | construct hp' ho' =>
      cases hp.symm.trans hp'
      exact ih ho'

theorem Within.mono (h : s.Within f o)
    (hkeeps : ∀ item p, s.parent item = some p → t.parent item = some p) : t.Within f o := by
  induction h with
  | function => exact .function
  | construct hp _ ih => exact .construct (hkeeps _ _ hp) ih

/-- Open constructs are nested: each stands at the end of a list of the next one, and the last of
them at the end of the body. -/
def Chain (s : Skeleton) (f : FunctionId) : ListRef → List Frame → Prop
  | r, [] => r = .body f
  | r, fr :: frames => r.owner = .construct fr.construct
      ∧ (∃ l, s.items fr.outer = some l ∧ l.getLast? = some (.construct fr.construct))
      ∧ Chain s f fr.outer frames

section Chain

variable {r : ListRef} {frames : List Frame}

theorem Chain.last (h : s.Chain f r frames) (hfr : fr ∈ frames) :
    ∃ l, s.items fr.outer = some l ∧ l.getLast? = some (.construct fr.construct) := by
  induction frames generalizing r with
  | nil => cases hfr
  | cons first frames ih =>
    obtain ⟨-, hlast, hchain⟩ := h
    rcases List.mem_cons.mp hfr with rfl | hfr
    · exact hlast
    · exact ih hchain hfr

theorem Chain.congr (h : s.Chain f r frames)
    (hsame : ∀ fr ∈ frames, t.items fr.outer = s.items fr.outer) : t.Chain f r frames := by
  induction frames generalizing r with
  | nil => exact h
  | cons fr frames ih =>
    obtain ⟨howner, hlast, hchain⟩ := h
    refine ⟨howner, ?_, ih hchain fun fr' hfr' => hsame fr' (List.mem_cons_of_mem _ hfr')⟩
    rwa [hsame fr List.mem_cons_self]

/-- The list of an open construct is one of the function or of a construct that was open before. -/
theorem Chain.exists_of_owner (h : s.Chain f r frames) (hfr : fr ∈ frames)
    (hn : fr.outer.owner = .construct n) :
    ∃ fr' ∈ frames.tail, fr'.construct = n := by
  induction frames generalizing r with
  | nil => cases hfr
  | cons first frames ih =>
    obtain ⟨-, -, hchain⟩ := h
    rcases List.mem_cons.mp hfr with rfl | hfr
    · cases frames with
      | nil =>
        rw [show fr.outer = .body f from hchain] at hn
        cases hn
      | cons second frames =>
        refine ⟨second, List.mem_cons_self, Owner.construct.inj ?_⟩
        exact hchain.1.symm.trans hn
    · obtain ⟨fr', hfr', hconstruct⟩ := ih hchain hfr
      exact ⟨fr', List.mem_of_mem_tail hfr', hconstruct⟩

end Chain

/-! ### All lists -/

/-- What holds of all lists. -/
structure Lists (s : Skeleton) : Prop where
  head : ∀ r l, s.items r = some l → l.head?.any (·.isBlock) = true
  separated : ∀ r l, s.items r = some l → Separated false l
  parent : ∀ r l, s.items r = some l → ∀ item ∈ l, s.parent item = some (some r.owner)
  owner : ∀ r l, s.items r = some l → s.OwnerThere r.owner
  placed : ∀ n p, s.parent (.construct n) = some p → ∃ r l, s.items r = some l ∧ .construct n ∈ l
  order : ∀ n m, s.parent (.construct n) = some (some (.construct m)) → m.idx < n.idx
  finish : ∀ f b, s.finish f = some b → s.parent (.block b) = some (some (.function f))

theorem Chain.parent {r : ListRef} {frames : List Frame} (h : s.Chain f r frames) (hs : s.Lists)
    {fr : Frame} (hfr : fr ∈ frames) :
    s.parent (.construct fr.construct) = some (some fr.outer.owner) := by
  obtain ⟨l, hl, hlast⟩ := h.last hfr
  exact hs.parent _ l hl _ (List.mem_of_getLast? hlast)

theorem Chain.within {r : ListRef} {frames : List Frame} (h : s.Chain f r frames) (hs : s.Lists) :
    s.Within f r.owner ∧ ∀ fr ∈ frames, s.Within f (.construct fr.construct) := by
  induction frames generalizing r with
  | nil =>
    rw [show r = .body f from h]
    exact ⟨.function, nofun⟩
  | cons fr frames ih =>
    have hparent := h.parent hs List.mem_cons_self
    obtain ⟨howner, -, hchain⟩ := h
    obtain ⟨houter, hrest⟩ := ih hchain
    have hfr : s.Within f (.construct fr.construct) := .construct hparent houter
    refine ⟨howner ▸ hfr, fun fr' hfr' => ?_⟩
    rcases List.mem_cons.mp hfr' with rfl | hfr'
    · exact hfr
    · exact hrest fr' hfr'

theorem Grows.mem_items {r : ListRef} (h : s.Grows r x t)
    (hl : s.items e = some l) (hitem : item ∈ l) : ∃ l', t.items e = some l' ∧ item ∈ l' := by
  by_cases he : e = r
  · subst he
    obtain ⟨l₀, hl₀, hlonger⟩ := h.longer
    cases hl.symm.trans hl₀
    exact ⟨_, hlonger, List.mem_append_left _ hitem⟩
  · exact ⟨l, h.same e l he hl, hitem⟩

/-- A list of the larger skeleton is the longer one, an old one, or one of a single new block. -/
theorem Grows.items_cases {r : ListRef} (h : s.Grows r x t)
    (hfull : ∀ n, x = .construct n → ∀ e : ListRef, e.owner = .construct n → t.items e ≠ some [])
    (hl : t.items e = some l) : (e = r ∧ ∃ k, s.items r = some k ∧ l = k ++ [x]) ∨ s.items e = some l
      ∨ ∃ n b, x = .construct n ∧ e.owner = .construct n ∧ l = [.block b]
        ∧ t.parent (.block b) = some (some e.owner) := by
  by_cases he : e = r
  · subst he
    obtain ⟨k, hk, hlonger⟩ := h.longer
    exact .inl ⟨rfl, k, hk, Option.some.inj (hl.symm.trans hlonger)⟩
  · rcases h.start e l he hl with hl | ⟨⟨n, hx, ho⟩, rfl | ⟨b, rfl, hb⟩⟩
    · exact .inr (.inl hl)
    · exact absurd hl (hfull n hx e ho)
    · exact .inr (.inr ⟨n, b, hx, ho, rfl, hb⟩)

/-- A list may grow at its end, by a block only if it does not end with one. -/
theorem Lists.grows (hs : s.Lists) {r : ListRef} (h : s.Grows r x t)
    (hlast : ∀ l, s.items r = some l → l.getLast?.any (·.isBlock) = true → x.isBlock = false)
    (hbehind : ∀ n, x = .construct n → s.NewConstruct n)
    (hfull : ∀ n, x = .construct n → ∀ e : ListRef, e.owner = .construct n → t.items e ≠ some []) :
    t.Lists := by
  obtain ⟨l₀, hl₀, hlonger⟩ := h.longer
  have hthere {o : Owner} (ho : s.OwnerThere o) : t.OwnerThere o := by
    cases o with
    | function f => simpa only [OwnerThere, h.finish] using ho
    | construct n => exact ho.imp fun p hp => h.keeps _ p hp
  have hcases {P : ListRef → List Item → Prop} (hlong : P r (l₀ ++ [x]))
      (hold : ∀ e l, s.items e = some l → P e l)
      (hnew : ∀ e b, t.parent (.block b) = some (some e.owner) →
        (∃ n, x = .construct n ∧ e.owner = .construct n) → P e [.block b]) :
      ∀ e l, t.items e = some l → P e l := by
    intro e l hl
    rcases h.items_cases hfull hl with ⟨rfl, k, hk, rfl⟩ | hl | ⟨n, b, hx, ho, rfl, hb⟩
    · cases hl₀.symm.trans hk
      exact hlong
    · exact hold e l hl
    · exact hnew e b hb ⟨n, hx, ho⟩
  refine ⟨hcases ?_ hs.head fun _ _ _ _ => rfl, hcases ?_ hs.separated fun _ _ _ _ => ?_,
    hcases ?_ (fun e l hl item hitem => h.keeps _ _ (hs.parent e l hl item hitem)) ?_,
    hcases ?_ (fun e l hl => hthere (hs.owner e l hl)) ?_, fun n p hp => ?_, fun n m hp => ?_,
    fun f b hb => ?_⟩
  · have hhead := hs.head r l₀ hl₀
    rw [List.head?_append]
    cases hl : l₀.head? with
    | none => simp [hl] at hhead
    | some y => simpa [hl] using hhead
  · refine (hs.separated r l₀ hl₀).append fun hends => hlast l₀ hl₀ ?_
    cases hl : l₀.getLast? with
    | none => simp [hl] at hends
    | some y => simpa [hl] using hends
  · exact ⟨by simp, trivial⟩
  · intro item hitem
    rcases List.mem_append.mp hitem with hitem | hitem
    · exact h.keeps _ _ (hs.parent r l₀ hl₀ item hitem)
    · rw [List.mem_singleton.mp hitem]
      exact h.parent
  · intro e b hb _ item hitem
    rwa [List.mem_singleton.mp hitem]
  · exact hthere (hs.owner r l₀ hl₀)
  · rintro e b - ⟨n, rfl, he⟩
    rw [he]
    exact ⟨_, h.parent⟩
  · rcases h.construct n p hp with hp | rfl
    · obtain ⟨e, l, hl, hmem⟩ := hs.placed n p hp
      exact ⟨e, h.mem_items hl hmem⟩
    · exact ⟨r, _, hlonger, List.mem_append_right _ (List.mem_singleton_self _)⟩
  · rcases h.construct n _ hp with hp | rfl
    · exact hs.order n m hp
    · have howner : r.owner = .construct m :=
        Option.some.inj (Option.some.inj (h.parent.symm.trans hp))
      have hm := hs.owner r l₀ hl₀
      rw [howner] at hm
      obtain ⟨p, hp⟩ := hm
      exact (hbehind n rfl).behind m p hp
  · rw [h.finish] at hb
    exact h.keeps _ _ (hs.finish f b hb)

/-! ### Builders -/

/-- A builder of a function works at the end of a block, behind open constructs that are nested. -/
structure Points (s : Skeleton) (f : FunctionId) (c : Cursor) : Prop where
  function : c.function = f
  owner : c.owner = c.list.owner
  ends : ∃ b, s.Ends c.list b
  chain : s.Chain f c.list c.frames
  nodup : (c.frames.map (·.construct)).Nodup

/-- A builder has put a list aside, and works in a construct at its end. -/
def Suspended (cs : FunctionId → Option Cursor) (r : ListRef) : Prop :=
  ∃ f c fr, cs f = some c ∧ fr ∈ c.frames ∧ fr.outer = r

/-- What holds of all lists and builders. -/
structure Nested (s : Skeleton) (cs : FunctionId → Option Cursor) : Prop where
  lists : s.Lists
  last : ∀ r l, s.items r = some l → l.getLast?.any (·.isBlock) = true ∨ Suspended cs r
  points : ∀ f c, cs f = some c → s.Points f c

variable {cs : FunctionId → Option Cursor} {c : Cursor}

/-- Builders work in different lists. -/
theorem Nested.list_ne (h : s.Nested cs) {d : Cursor} (hc : cs f = some c) (hd : cs g = some d)
    (hne : g ≠ f) : d.list ≠ c.list := by
  intro heq
  refine hne (((h.points g d hd).chain.within h.lists).1.function_eq ?_)
  rw [heq]
  exact ((h.points f c hc).chain.within h.lists).1

/-- What is put aside ends with a construct. -/
theorem Chain.outer_ne {r : ListRef} {frames : List Frame} (h : s.Chain f r frames) {b : BlockId}
    (he : s.Ends e b) (hfr : fr ∈ frames) : fr.outer ≠ e := by
  rintro rfl
  obtain ⟨l, hl, hlast⟩ := he
  obtain ⟨l', hl', hlast'⟩ := h.last hfr
  cases hl.symm.trans hl'
  cases hlast.symm.trans hlast'

theorem Grows.items_eq {r : ListRef} (h : s.Grows r x t) (he : e ≠ r)
    (hl : s.items e = some l) : t.items e = s.items e := by
  rw [hl, h.same e l he hl]

/-- A builder does not notice what happens at the end of another list. -/
theorem Points.grows (h : s.Points f c) {r : ListRef} (hg : s.Grows r x t)
    (hlist : c.list ≠ r) (hframes : ∀ fr ∈ c.frames, fr.outer ≠ r) : t.Points f c where
  function := h.function
  owner := h.owner
  ends := by
    obtain ⟨b, l, hl, hlast⟩ := h.ends
    exact ⟨b, l, hg.same _ l hlist hl, hlast⟩
  chain := h.chain.congr fun fr hfr => by
    obtain ⟨l, hl, -⟩ := h.chain.last hfr
    exact hg.items_eq (hframes fr hfr) hl
  nodup := h.nodup

theorem Suspended.update {c' : Cursor} {r : ListRef} (h : Suspended cs r)
    (hframes : ∀ c, cs f = some c → ∀ fr ∈ c.frames, fr.outer = r → fr ∈ c'.frames) :
    Suspended (Function.update cs f (some c')) r := by
  obtain ⟨g, d, fr, hd, hfr, hr⟩ := h
  by_cases hg : g = f
  · subst hg
    exact ⟨g, c', fr, Function.update_self _ _ _, hframes d hd fr hfr hr, hr⟩
  · exact ⟨g, d, fr, by rwa [Function.update_of_ne hg], hfr, hr⟩

/-- Opening a construct keeps lists and builders in order. -/
theorem Nested.opens (h : s.Nested cs) (hc : cs f = some c) {r : ListRef}
    {b : BlockId} (hn : s.NewConstruct n) (hg : s.Grows c.list (.construct n) t)
    (hfull : ∀ e : ListRef, e.owner = .construct n → t.items e ≠ some [])
    (hr : r.owner = .construct n) (hstart : t.items r = some [.block b]) :
    t.Nested (Function.update cs f (some (c.into n r))) := by
  have hp := h.points f c hc
  obtain ⟨last, hends⟩ := hp.ends
  obtain ⟨l₀, hl₀, hlonger⟩ := hg.longer
  have hfull' (m : ConstructId) (hm : Item.construct n = .construct m) (e : ListRef)
      (he : e.owner = .construct m) : t.items e ≠ some [] :=
    hfull e (he.trans (congrArg _ (Item.construct.inj hm).symm))
  refine ⟨h.lists.grows hg (fun _ _ _ => rfl) (fun m hm => Item.construct.inj hm ▸ hn) hfull',
    fun e l hl => ?_, fun g d hd => ?_⟩
  · rcases hg.items_cases hfull' hl with ⟨he, -⟩ | hl | ⟨-, -, -, -, rfl, -⟩
    · exact .inr ⟨f, c.into n r, ⟨n, c.list⟩, Function.update_self _ _ _, List.mem_cons_self, he.symm⟩
    · refine (h.last e l hl).imp_right fun hsus => hsus.update fun c' hc' fr hfr _ => ?_
      cases hc.symm.trans hc'
      exact List.mem_cons_of_mem _ hfr
    · exact .inl rfl
  · by_cases hgf : g = f
    · subst hgf
      rw [Function.update_self] at hd
      cases hd
      refine ⟨hp.function, hr.symm, ⟨b, _, hstart, rfl⟩, ⟨hr, ⟨_, hlonger, by simp⟩, ?_⟩,
        List.nodup_cons.mpr ⟨fun hmem => ?_, hp.nodup⟩⟩
      · refine hp.chain.congr fun fr hfr => ?_
        obtain ⟨l, hl, -⟩ := hp.chain.last hfr
        exact hg.items_eq (hp.chain.outer_ne hends hfr) hl
      · obtain ⟨fr, hfr, hconstruct⟩ := List.mem_map.mp hmem
        have hparent := hp.chain.parent h.lists hfr
        rw [show fr.construct = n from hconstruct, hn.parent] at hparent
        cases hparent
    · rw [Function.update_of_ne hgf] at hd
      have hq := h.points g d hd
      exact hq.grows hg (h.list_ne hc hd hgf) fun fr hfr => hq.chain.outer_ne hends hfr

/-- Closing the innermost construct keeps lists and builders in order. -/
theorem Nested.closes (h : s.Nested cs) (hc : cs f = some c) {frames : List Frame}
    (hframes : c.frames = fr :: frames) {b : BlockId} (hg : s.Grows fr.outer (.block b) t) :
    t.Nested (Function.update cs f (some (c.behind fr frames))) := by
  have hp := h.points f c hc
  have hmem : fr ∈ c.frames := hframes ▸ List.mem_cons_self
  obtain ⟨l₀, hl₀, hlonger⟩ := hg.longer
  obtain ⟨l, hl, hlast⟩ := hp.chain.last hmem
  cases hl₀.symm.trans hl
  -- Only the construct that is closed stands at the end of its list.
  have hother {r : ListRef} {rest : List Frame} {g : FunctionId} (hchain : s.Chain g r rest)
      {fr' : Frame} (hfr' : fr' ∈ rest) (heq : fr'.outer = fr.outer) :
      fr'.construct = fr.construct := by
    obtain ⟨l', hl', hlast'⟩ := hchain.last hfr'
    rw [heq, hl₀] at hl'
    cases hl'
    exact (Item.construct.inj (Option.some.inj (hlast.symm.trans hlast'))).symm
  refine ⟨h.lists.grows hg (fun l hl hblock => ?_) nofun nofun, fun e l hl => ?_, fun g d hd => ?_⟩
  · cases hl₀.symm.trans hl
    simp [hlast, Item.isBlock] at hblock
  · by_cases he : e = fr.outer
    · subst he
      cases hlonger.symm.trans hl
      simp [Item.isBlock]
    · rcases hg.items_cases nofun hl with ⟨heq, -⟩ | hl | ⟨-, -, -, -, rfl, -⟩
      · exact absurd heq he
      · refine (h.last e l hl).imp_right fun hsus => hsus.update fun c' hc' fr' hfr' houter => ?_
        cases hc.symm.trans hc'
        rw [hframes] at hfr'
        exact (List.mem_cons.mp hfr').resolve_left fun heq => he (heq ▸ houter.symm)
      · exact .inl rfl
  · by_cases hgf : g = f
    · subst hgf
      rw [Function.update_self] at hd
      cases hd
      have hchain := hp.chain
      have hnodup := hp.nodup
      rw [hframes] at hchain hnodup
      obtain ⟨-, -, hchain⟩ := hchain
      obtain ⟨hnew, hnodup⟩ := List.nodup_cons.mp hnodup
      refine ⟨hp.function, rfl, ⟨b, _, hlonger, by simp⟩, hchain.congr fun fr' hfr' => ?_, hnodup⟩
      obtain ⟨l', hl', -⟩ := hchain.last hfr'
      refine hg.items_eq (fun heq => hnew ?_) hl'
      exact List.mem_map.mpr ⟨fr', hfr', hother hchain hfr' heq⟩
    · rw [Function.update_of_ne hgf] at hd
      have hq := h.points g d hd
      refine hq.grows hg (fun heq => ?_) fun fr' hfr' heq => hgf ?_
      · obtain ⟨b', hends⟩ := hq.ends
        exact hp.chain.outer_ne hends hmem heq.symm
      · have hwithin := (hq.chain.within h.lists).2 fr' hfr'
        rw [hother hq.chain hfr' heq] at hwithin
        exact hwithin.function_eq ((hp.chain.within h.lists).2 fr hmem)

theorem exists_block_of_any {x : Option Item} (h : x.any (·.isBlock) = true) :
    ∃ b, x = some (.block b) := by
  cases x with
  | none => cases h
  | some item =>
    cases item with
    | block b => exact ⟨b, rfl⟩
    | construct n => cases h

/-- No list of the innermost construct has been put aside. -/
theorem Nested.not_suspended (h : s.Nested cs) (hc : cs f = some c)
    {frames : List Frame} (hframes : c.frames = fr :: frames) {r : ListRef}
    (hr : r.owner = .construct fr.construct) : ¬ Suspended cs r := by
  rintro ⟨g, d, fr', hd, hfr', rfl⟩
  have hp := h.points f c hc
  have hq := h.points g d hd
  obtain ⟨fr'', hfr'', hconstruct⟩ := hq.chain.exists_of_owner hfr' hr
  have hg : g = f := by
    refine ((hq.chain.within h.lists).2 fr'' (List.mem_of_mem_tail hfr'')).function_eq ?_
    rw [hconstruct]
    exact (hp.chain.within h.lists).2 fr (hframes ▸ List.mem_cons_self)
  subst hg
  cases hc.symm.trans hd
  have hnodup := hp.nodup
  rw [hframes] at hfr'' hnodup
  exact (List.nodup_cons.mp hnodup).1 (List.mem_map.mpr ⟨fr'', hfr'', hconstruct⟩)

/-- Going on with the second branch of the innermost `if` keeps lists and builders in order. -/
theorem Nested.switches (h : s.Nested cs) (hc : cs f = some c) {frames : List Frame}
    (hframes : c.frames = fr :: frames) (hl : s.items (.no fr.construct) = some l) :
    s.Nested (Function.update cs f (some { c with list := .no fr.construct })) := by
  have hp := h.points f c hc
  have hsuspended {r : ListRef} (hr : Suspended cs r) :
      Suspended (Function.update cs f (some { c with list := .no fr.construct })) r :=
    hr.update fun c' hc' fr' hfr' _ => by
      cases hc.symm.trans hc'
      exact hfr'
  refine ⟨h.lists, fun e l hl => (h.last e l hl).imp_right hsuspended, fun g d hd => ?_⟩
  by_cases hgf : g = f
  · subst hgf
    rw [Function.update_self] at hd
    cases hd
    have hchain := hp.chain
    rw [hframes] at hchain
    obtain ⟨b, hb⟩ := exists_block_of_any
      ((h.last _ l hl).resolve_right (h.not_suspended hc hframes rfl))
    refine ⟨hp.function, hp.owner.trans hchain.1, ⟨b, l, hl, hb⟩, ?_, hp.nodup⟩
    dsimp only
    rw [hframes]
    exact ⟨rfl, hchain.2⟩
  · rw [Function.update_of_ne hgf] at hd
    exact h.points g d hd

theorem Chain.exists_body {r : ListRef} {frames : List Frame} (h : s.Chain f r frames)
    (hr : ∃ l, s.items r = some l) : ∃ l, s.items (.body f) = some l := by
  induction frames generalizing r with
  | nil => rwa [show r = .body f from h] at hr
  | cons fr frames ih =>
    obtain ⟨-, ⟨l, hl, -⟩, hchain⟩ := h
    exact ih hchain ⟨l, hl⟩

section Founding

variable {finish b : BlockId}

theorem founded_parent (item : Item) : (s.founded f finish b).parent item
    = if item = .block b ∨ item = .block finish then some (some (.function f)) else s.parent item :=
  rfl

theorem founded_items_self : (s.founded f finish b).items (.body f) = some [.block b] :=
  Function.update_self _ _ _

theorem founded_finish_self : (s.founded f finish b).finish f = some finish :=
  Function.update_self _ _ _

theorem founded_finish_of_ne (hg : g ≠ f) : (s.founded f finish b).finish g = s.finish g :=
  Function.update_of_ne hg _ _

theorem founded_keeps (hfinish : s.parent (.block finish) = none) (hb : s.parent (.block b) = none)
    (item : Item) (p : Option Owner) (hp : s.parent item = some p) :
    (s.founded f finish b).parent item = some p := by
  rw [founded_parent, if_neg, hp]
  rintro (rfl | rfl)
  · simp [hb] at hp
  · simp [hfinish] at hp

theorem founded_items (hbody : s.items (.body f) = none)
    (hl : s.items e = some l) : (s.founded f finish b).items e = some l := by
  rw [← hl]
  exact Function.update_of_ne (by rintro rfl; simp [hbody] at hl) _ _

/-- The list of a new function holds its first block, and all other lists were there before. -/
theorem founded_items_cases {P : ListRef → List Item → Prop} (hnew : P (.body f) [.block b])
    (hold : ∀ e l, s.items e = some l → P e l) (e : ListRef) (l : List Item)
    (hl : (s.founded f finish b).items e = some l) : P e l := by
  by_cases he : e = .body f
  · subst he
    cases founded_items_self.symm.trans hl
    exact hnew
  · exact hold e l ((Function.update_of_ne he _ _).symm.trans hl)

theorem founded_finish_cases {P : FunctionId → BlockId → Prop} (hnew : P f finish)
    (hold : ∀ g b, s.finish g = some b → P g b) (g : FunctionId) (b' : BlockId)
    (hb' : (s.founded f finish b).finish g = some b') : P g b' := by
  by_cases hg : g = f
  · subst hg
    cases founded_finish_self.symm.trans hb'
    exact hnew
  · exact hold g b' (by rwa [founded_finish_of_ne hg] at hb')

/-- A new function keeps lists in order. -/
theorem Lists.founds (h : s.Lists) (hbody : s.items (.body f) = none)
    (hfinish : s.parent (.block finish) = none) (hb : s.parent (.block b) = none) :
    (s.founded f finish b).Lists := by
  have hkeeps := founded_keeps (f := f) hfinish hb
  have hconstruct (n : ConstructId) :
      (s.founded f finish b).parent (.construct n) = s.parent (.construct n) := by
    rw [founded_parent, if_neg (by simp)]
  refine ⟨founded_items_cases rfl h.head, founded_items_cases ⟨by simp, trivial⟩ h.separated,
    founded_items_cases ?_ fun e l hl item hitem => hkeeps _ _ (h.parent e l hl item hitem),
    founded_items_cases ⟨finish, founded_finish_self⟩ fun e l hl => ?_, fun n p hp => ?_,
    fun n m hp => h.order n m (by rwa [hconstruct] at hp),
    founded_finish_cases (by rw [founded_parent, if_pos (.inr rfl)]) fun g b' hb' =>
      hkeeps _ _ (h.finish g b' hb')⟩
  · intro item hitem
    rw [List.mem_singleton.mp hitem, founded_parent, if_pos (.inl rfl)]
    rfl
  · have hthere := h.owner e l hl
    cases ho : e.owner with
    | construct n =>
      rw [ho] at hthere
      exact hthere.imp fun p hp => hkeeps _ p hp
    | function g =>
      rw [ho] at hthere
      by_cases hg : g = f
      · subst hg
        exact ⟨finish, founded_finish_self⟩
      · exact hthere.imp fun b' hb' => (founded_finish_of_ne hg).trans hb'
  · rw [hconstruct] at hp
    obtain ⟨e, l, hl, hmem⟩ := h.placed n p hp
    exact ⟨e, l, founded_items hbody hl, hmem⟩

/-- A new function keeps lists and builders in order. -/
theorem Nested.founds (h : s.Nested cs) (hbody : s.items (.body f) = none)
    (hfinish : s.parent (.block finish) = none) (hb : s.parent (.block b) = none) :
    (s.founded f finish b).Nested (Function.update cs f (some ⟨f, .body f, .function f, []⟩)) := by
  refine ⟨h.lists.founds hbody hfinish hb, founded_items_cases (.inl rfl) fun e l hl => ?_,
    fun g d hd => ?_⟩
  · refine (h.last e l hl).imp_right fun hsus => hsus.update fun c hc => ?_
    -- A builder of the function would have its body already.
    have hp := h.points f c hc
    obtain ⟨_, l, hl, -⟩ := hp.ends
    obtain ⟨l, hl⟩ := hp.chain.exists_body ⟨l, hl⟩
    cases hbody.symm.trans hl
  · by_cases hg : g = f
    · subst hg
      rw [Function.update_self] at hd
      cases hd
      exact ⟨rfl, rfl, ⟨b, _, founded_items_self, rfl⟩, rfl, List.nodup_nil⟩
    · rw [Function.update_of_ne hg] at hd
      have hq := h.points g d hd
      obtain ⟨b', l, hl, hlast⟩ := hq.ends
      refine ⟨hq.function, hq.owner, ⟨b', l, founded_items hbody hl, hlast⟩,
        hq.chain.congr fun fr hfr => ?_, hq.nodup⟩
      obtain ⟨l, hl, -⟩ := hq.chain.last hfr
      rw [founded_items hbody hl, hl]

end Founding

/-- Lists and builders do not depend on what is in blocks. -/
theorem Nested.congr (h : s.Nested cs) (hparent : t.parent = s.parent) (hitems : t.items = s.items)
    (hfinish : t.finish = s.finish) : t.Nested cs := by
  obtain ⟨⟨head, separated, parent, owner, placed, order, finish⟩, last, points⟩ := h
  have hthere (o : Owner) (ho : s.OwnerThere o) : t.OwnerThere o := by
    cases o <;> simpa only [OwnerThere, hparent, hfinish] using ho
  refine ⟨⟨hitems ▸ head, hitems ▸ separated, hitems ▸ hparent ▸ parent, fun r l hl => ?_,
    hitems ▸ hparent ▸ placed, hparent ▸ order, hparent ▸ hfinish ▸ finish⟩, hitems ▸ last,
    fun f c hc => ?_⟩
  · exact hthere _ (owner r l (hitems ▸ hl))
  · have hp := points f c hc
    obtain ⟨b, l, hl, hlast⟩ := hp.ends
    exact ⟨hp.function, hp.owner, ⟨b, l, hitems ▸ hl, hlast⟩,
      hp.chain.congr fun fr _ => by rw [hitems], hp.nodup⟩

end Skeleton

end ShaderCompiler
