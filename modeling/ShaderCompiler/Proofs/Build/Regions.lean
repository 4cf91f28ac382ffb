import ShaderCompiler.Proofs.Build.Contents
import ShaderCompiler.Proofs.DeadCode.Finds

/-!
# Regions of functions under construction

The body of a function can be read off as a region at any time while it is built: a construct is newer
than the one in whose list it stands, hence none contains itself. The region has the blocks from
which owners lead to the function, and the function defines the values of the instructions in them.

A function without open constructs has the shape that the check asks for.
-/

namespace ShaderCompiler

variable {n : ConstructId} {g : Function}

namespace Region

/-- The constructs of a region own the lists that it shows. -/
def Nests (a : Arena) : Region → Prop
  | .done => True
  | .block _ rest => rest.Nests a
  | .branch n yes no rest =>
      (∃ x cond, a.constructs[n.idx]? = some x ∧ x.shape = .branch cond yes.items no.items)
        ∧ yes.Nests a ∧ no.Nests a ∧ rest.Nests a
  | .loop n body rest =>
      (∃ x, a.constructs[n.idx]? = some x ∧ x.shape = .loop body.items)
        ∧ body.Nests a ∧ rest.Nests a

/-- A region shows a list and the lists nested in it. -/
def Depicts (a : Arena) (l : List Item) (r : Region) : Prop :=
  r.items = l ∧ r.Nests a

theorem mem_preorder_of_mem_items {r : Region} {b : BlockId} (h : .block b ∈ r.items) :
    b ∈ r.preorder := by
  induction r with
  | done => cases h
  | block b' rest ih =>
    rcases List.mem_cons.mp h with heq | h
    · cases heq
      exact List.mem_cons_self
    · exact List.mem_cons_of_mem _ (ih h)
  | branch n yes no rest _ _ ih =>
    exact List.mem_append_right _ (ih ((List.mem_cons.mp h).resolve_left nofun))
  | loop n body rest _ ih =>
    exact List.mem_append_right _ (ih ((List.mem_cons.mp h).resolve_left nofun))

end Region

namespace Arena

variable {a : Arena} {r : ListRef} {l : List Item}

theorem skeleton_items_of_shape {x : Construct}
    (hx : a.constructs[n.idx]? = some x) (hr : r.owner = .construct n)
    (hl : x.shape.items? r = some l) : a.skeleton.items r = some l := by
  rw [skeleton_items_construct hr, hx, Option.bind_some, hl]

/-! ### Reading off regions -/

theorem exists_layer {enter : List Item → Except Fault Region}
    (hthere : ∀ n, .construct n ∈ l → ∃ x, a.constructs[n.idx]? = some x)
    (henter : ∀ n, .construct n ∈ l → ∀ r : ListRef, r.owner = .construct n →
      ∀ k, a.skeleton.items r = some k → ∃ region, enter k = .ok region ∧ region.Depicts a k) :
    ∃ region, a.layer enter l = .ok region ∧ region.Depicts a l := by
  induction l with
  | nil => exact ⟨.done, rfl, rfl, trivial⟩
  | cons item rest ih =>
    obtain ⟨region, hrun, rfl, hnests⟩ := ih (fun n hn => hthere n (List.mem_cons_of_mem _ hn))
      fun n hn => henter n (List.mem_cons_of_mem _ hn)
    cases item with
    | block b => exact ⟨.block b region, by rw [layer, hrun]; rfl, rfl, hnests⟩
    | construct n =>
      obtain ⟨x, hx⟩ := hthere n List.mem_cons_self
      have hlists {e : ListRef} (he : e.owner = .construct n) :
          a.skeleton.items e = x.shape.items? e := by
        rw [skeleton_items_construct he, hx, Option.bind_some]
      have hfind : a.construct n = .ok x := construct_eq_ok.mpr hx
      cases hshape : x.shape with
      | branch cond yes no =>
        obtain ⟨ry, hyes, rfl, hny⟩ := henter n List.mem_cons_self (.yes n) rfl yes
          ((hlists rfl).trans (by rw [hshape]; rfl))
        obtain ⟨rn, hno, rfl, hnn⟩ := henter n List.mem_cons_self (.no n) rfl no
          ((hlists rfl).trans (by rw [hshape]; rfl))
        refine ⟨.branch n ry rn region, ?_, rfl, ⟨x, cond, hx, hshape⟩, hny, hnn, hnests⟩
        simp [layer, hfind, hshape, hyes, hno, hrun]
      | loop body =>
        obtain ⟨rb, hbody, rfl, hnb⟩ := henter n List.mem_cons_self (.loop n) rfl body
          ((hlists rfl).trans (by rw [hshape]; rfl))
        refine ⟨.loop n rb region, ?_, rfl, ⟨x, hx, hshape⟩, hnb, hnests⟩
        simp [layer, hfind, hshape, hbody, hrun]

/-- Nested constructs are newer, so what is left of the array bounds the depth. -/
theorem exists_regionAt (hs : a.skeleton.Lists) (depth : Nat) (hl : a.skeleton.items r = some l)
    (hdeep : ∀ n, .construct n ∈ l → a.constructs.size ≤ n.idx + depth) :
    ∃ region, a.regionAt depth l = .ok region ∧ region.Depicts a l := by
  have hthere {r : ListRef} {l : List Item} (hl : a.skeleton.items r = some l) (n : ConstructId)
      (hn : .construct n ∈ l) : ∃ x, a.constructs[n.idx]? = some x := by
    have hp := hs.parent r l hl _ hn
    rw [skeleton_parent_construct, Option.map_eq_some_iff] at hp
    exact hp.imp fun _ h => h.1
  induction depth generalizing r l with
  | zero =>
    refine exists_layer (hthere hl) fun n hn => ?_
    obtain ⟨x, hx⟩ := hthere hl n hn
    have hlt : n.idx < a.constructs.size := (Array.getElem?_eq_some_iff.mp hx).1
    have := hdeep n hn
    omega
  | succ depth ih =>
    refine exists_layer (hthere hl) fun n hn e he k hk => ih hk fun m hm => ?_
    have hlt : n.idx < m.idx := hs.order m n (he ▸ hs.parent e k hk _ hm)
    have := hdeep n hn
    omega

end Arena

namespace Skeleton

variable {a : Arena} {r : ListRef} {l : List Item} {f : FunctionId} {o : Owner} {b : BlockId}
  {i : InstrId} {v : ValueId} {region : Region} {cs : FunctionId → Option Cursor} {c : Cursor}

theorem Lists.exists_bodyRegion (hs : a.skeleton.Lists)
    (hg : a.functions[f.idx]? = some g) :
    ∃ region, a.bodyRegion f = .ok region ∧ region.Depicts a g.body := by
  have hbody : a.skeleton.items (.body f) = some g.body := by
    rw [Arena.skeleton_items_body, hg, Option.map_some]
  obtain ⟨region, hregion, hdepicts⟩ :=
    Arena.exists_regionAt hs a.constructs.size hbody fun n _ => Nat.le_add_left _ _
  exact ⟨region, by simp [Arena.bodyRegion, hg, Arena.region, hregion], hdepicts⟩

/-! ### Blocks of a function -/

/-- Owners lead from the blocks of a region to its function. -/
theorem Lists.within_of_mem (hs : a.skeleton.Lists) (h : region.Nests a)
    (hp : ∀ item ∈ region.items, a.skeleton.parent item = some (some o))
    (ho : a.skeleton.Within f o) (hb : b ∈ region.preorder) :
    ∃ p, a.skeleton.parent (.block b) = some (some p) ∧ a.skeleton.Within f p := by
  have hnested {n : ConstructId} {x : Construct} (hx : a.constructs[n.idx]? = some x)
      (e : ListRef) (he : e.owner = .construct n) {k : List Item} (hk : x.shape.items? e = some k)
      (item : Item) (hitem : item ∈ k) :
      a.skeleton.parent item = some (some (.construct n)) := by
    rw [← he]
    exact hs.parent e k (Arena.skeleton_items_of_shape hx he hk) item hitem
  induction region generalizing o with
  | done => simp [Region.preorder] at hb
  | block b' rest ih =>
    rcases List.mem_cons.mp hb with rfl | hb
    · exact ⟨o, hp _ List.mem_cons_self, ho⟩
    · exact ih h (fun item hitem => hp item (List.mem_cons_of_mem _ hitem)) ho hb
  | branch n yes no rest ihy ihn ih =>
    obtain ⟨⟨x, cond, hx, hshape⟩, hy, hn, hrest⟩ := h
    have hin : a.skeleton.Within f (.construct n) := .construct (hp _ List.mem_cons_self) ho
    simp only [Region.preorder, List.mem_append] at hb
    rcases hb with (hb | hb) | hb
    · exact ihy hy (hnested hx (.yes n) rfl (by rw [hshape]; rfl)) hin hb
    · exact ihn hn (hnested hx (.no n) rfl (by rw [hshape]; rfl)) hin hb
    · exact ih hrest (fun item hitem => hp item (List.mem_cons_of_mem _ hitem)) ho hb
  | loop n body rest ihb ih =>
    obtain ⟨⟨x, hx, hshape⟩, hbody, hrest⟩ := h
    have hin : a.skeleton.Within f (.construct n) := .construct (hp _ List.mem_cons_self) ho
    simp only [Region.preorder, List.mem_append] at hb
    rcases hb with hb | hb
    · exact ihb hbody (hnested hx (.loop n) rfl (by rw [hshape]; rfl)) hin hb
    · exact ih hrest (fun item hitem => hp item (List.mem_cons_of_mem _ hitem)) ho hb

theorem Lists.parent_of_depicts (hs : a.skeleton.Lists)
    (hg : a.functions[f.idx]? = some g) (h : region.Depicts a g.body) (item : Item)
    (hitem : item ∈ region.items) : a.skeleton.parent item = some (some (.function f)) := by
  refine hs.parent (.body f) g.body ?_ item (h.1 ▸ hitem)
  rw [Arena.skeleton_items_body, hg, Option.map_some]

/-- Owners lead from the blocks of a function to it. -/
theorem Lists.within_of_mem_blocksOf (hs : a.skeleton.Lists) {blocks : List BlockId}
    (h : a.blocksOf f = .ok blocks) (hb : b ∈ blocks) :
    ∃ p, a.skeleton.parent (.block b) = some (some p) ∧ a.skeleton.Within f p := by
  obtain ⟨g, hg, -⟩ := except_bind_eq_ok.mp h
  rw [Arena.function_eq_ok] at hg
  obtain ⟨region, hregion, hdepicts⟩ := hs.exists_bodyRegion hg
  obtain rfl := (Arena.blocksOf_eq_ok hg hregion).mp h
  rw [Region.blocks_eq_preorder] at hb
  rcases List.mem_append.mp hb with hb | hb
  · exact hs.within_of_mem hdepicts.2 (hs.parent_of_depicts hg hdepicts) .function hb
  · obtain rfl := List.mem_singleton.mp hb
    refine ⟨_, hs.finish f g.finish ?_, .function⟩
    simp [Arena.skeleton, hg]

/-- A list of a construct in a region is depicted by a part of the region. -/
theorem exists_part_of_construct (h : region.Nests a)
    (hn : .construct n ∈ region.items) (hr : r.owner = .construct n)
    (hl : a.skeleton.items r = some l) :
    ∃ part : Region, part.Depicts a l ∧ part.preorder ⊆ region.preorder := by
  rw [Arena.skeleton_items_construct hr] at hl
  induction region with
  | done => cases hn
  | block b rest ih =>
    obtain ⟨part, hpart, hsub⟩ := ih h ((List.mem_cons.mp hn).resolve_left nofun)
    exact ⟨part, hpart, List.Subset.trans hsub (List.subset_cons_self _ _)⟩
  | branch m yes no rest _ _ ih =>
    obtain ⟨⟨x, cond, hx, hshape⟩, hy, hno, hrest⟩ := h
    rcases List.mem_cons.mp hn with heq | hn
    · cases heq
      rw [hx, Option.bind_some, hshape] at hl
      cases r with
      | body | loop => cases hl
      | yes =>
        cases hl
        exact ⟨yes, ⟨rfl, hy⟩, fun b hb => by simp [Region.preorder, hb]⟩
      | no =>
        cases hl
        exact ⟨no, ⟨rfl, hno⟩, fun b hb => by simp [Region.preorder, hb]⟩
    · obtain ⟨part, hpart, hsub⟩ := ih hrest hn
      exact ⟨part, hpart, List.Subset.trans hsub (List.subset_append_right _ _)⟩
  | loop m body rest _ ih =>
    obtain ⟨⟨x, hx, hshape⟩, hbody, hrest⟩ := h
    rcases List.mem_cons.mp hn with heq | hn
    · cases heq
      rw [hx, Option.bind_some, hshape] at hl
      cases r with
      | body | yes | no => cases hl
      | loop =>
        cases hl
        exact ⟨body, ⟨rfl, hbody⟩, List.subset_append_left _ _⟩
    · obtain ⟨part, hpart, hsub⟩ := ih hrest hn
      exact ⟨part, hpart, List.Subset.trans hsub (List.subset_append_right _ _)⟩

/-- Where owners lead to a function, a list is depicted by a part of its region. -/
theorem Lists.exists_part (hs : a.skeleton.Lists) {body : List Item}
    (hbody : a.skeleton.items (.body f) = some body) (h : region.Depicts a body)
    (ho : a.skeleton.Within f o) (hr : r.owner = o) (hl : a.skeleton.items r = some l) :
    ∃ part : Region, part.Depicts a l ∧ part.preorder ⊆ region.preorder := by
  induction ho generalizing r l with
  | function =>
    cases r with
    | yes | no | loop => cases hr
    | body g =>
      cases hr
      rw [hbody] at hl
      cases hl
      exact ⟨region, h, List.Subset.refl _⟩
  | construct hp _ ih =>
    obtain ⟨e, k, hk, hmem⟩ := hs.placed _ _ hp
    have howner := (hs.parent e k hk _ hmem).symm.trans hp
    obtain ⟨whole, ⟨rfl, hnests⟩, hwhole⟩ := ih (Option.some.inj (Option.some.inj howner)) hk
    obtain ⟨part, hpart, hsub⟩ := exists_part_of_construct hnests hmem hr hl
    exact ⟨part, hpart, List.Subset.trans hsub hwhole⟩

/-- Owners lead to a function that is there. -/
theorem Lists.exists_finish {s : Skeleton} (hs : s.Lists) (ho : s.Within f o)
    (hthere : s.OwnerThere o) : ∃ b, s.finish f = some b := by
  induction ho with
  | function => exact hthere
  | construct hp _ ih =>
    obtain ⟨e, k, hk, hmem⟩ := hs.placed _ _ hp
    have howner := (hs.parent e k hk _ hmem).symm.trans hp
    exact ih (Option.some.inj (Option.some.inj howner) ▸ hs.owner e k hk)

/-- A function defines what instructions in its blocks define. -/
theorem Coherent.defined_iff (h : a.skeleton.Coherent cs) :
    (a.scopeOf f).defined v ↔ ∃ i, a.skeleton.Defines i v ∧ a.skeleton.Holds f i := by
  have hs := h.nested.lists
  constructor
  · rintro ⟨b, hb, i, hi, ins, hins, hv⟩
    have hrole : a.skeleton.instr i = some ins.role := by
      change a.instrs[i.idx]?.map Instr.role = _
      rw [hins, Option.map_some]
    obtain ⟨role, hrole', hblock⟩ := h.filled.held b i hi
    refine ⟨i, ⟨_, hrole, hv⟩, ?_⟩
    suffices ∃ o, a.skeleton.parent (.block b) = some (some o) ∧ a.skeleton.Within f o by
      obtain ⟨o, ho, hwithin⟩ := this
      exact ⟨role, b, o, hrole', hblock, ho, hwithin⟩
    cases hblocks : a.blocksOf f with
    | error e =>
      rw [hblocks] at hb
      cases hb
    | ok blocks =>
      rw [hblocks] at hb
      exact hs.within_of_mem_blocksOf hblocks hb
  · rintro ⟨i, ⟨role, hrole, hv⟩, role', b, o, hrole', hblock, ho, hwithin⟩
    cases hrole.symm.trans hrole'
    obtain ⟨b', hblock', hi⟩ := h.filled.home i role hrole
    rw [hblock] at hblock'
    cases hblock'
    obtain ⟨r, l, hl, hb⟩ := h.filled.listed b i hi
    obtain rfl : r.owner = o :=
      Option.some.inj (Option.some.inj ((hs.parent r l hl _ hb).symm.trans ho))
    obtain ⟨finish, hfinish⟩ := hs.exists_finish hwithin (hs.owner r l hl)
    obtain ⟨g, hg, -⟩ := Option.map_eq_some_iff.mp hfinish
    obtain ⟨region, hregion, hdepicts⟩ := hs.exists_bodyRegion hg
    obtain ⟨part, ⟨rfl, -⟩, hsub⟩ := hs.exists_part
      (by rw [Arena.skeleton_items_body, hg, Option.map_some]) hdepicts hwithin rfl hl
    obtain ⟨ins, hins, rfl⟩ := Option.map_eq_some_iff.mp hrole
    refine ⟨b, ?_, i, hi, ins, hins, hv⟩
    change b ∈ (a.scopeOf f).blocks
    rw [Arena.scopeOf_blocks hg hregion, Region.blocks_eq_preorder]
    exact List.mem_append_left _ (hsub (Region.mem_preorder_of_mem_items hb))

/-! ### The shape of a function -/

/-- A list that is not put aside has the right shape. -/
theorem Nested.listShaped (h : a.skeleton.Nested cs) (hl : a.skeleton.items r = some l)
    (hr : ¬ Suspended cs r) : a.ListShaped r.owner l where
  head := h.lists.head r l hl
  last := (h.last r l hl).resolve_right hr
  parent item hitem := Arena.skeleton_parent_eq_some.mp (h.lists.parent r l hl item hitem)
  separated := h.lists.separated r l hl

theorem nestedShaped_of_within (h : region.Nests a)
    (hshaped : ∀ r l, a.skeleton.Within f r.owner → a.skeleton.items r = some l →
      a.ListShaped r.owner l)
    (hin : ∀ n, .construct n ∈ region.items → a.skeleton.Within f (.construct n)) :
    region.NestedShaped a := by
  have hlist {n : ConstructId} (hn : a.skeleton.Within f (.construct n)) {x : Construct}
      (hx : a.constructs[n.idx]? = some x) (e : ListRef) (he : e.owner = .construct n)
      {k : List Item} (hk : x.shape.items? e = some k) : a.ListShaped (.construct n) k := by
    rw [← he]
    exact hshaped e k (he ▸ hn) (Arena.skeleton_items_of_shape hx he hk)
  have hnested {n : ConstructId} (hn : a.skeleton.Within f (.construct n)) {k : List Item}
      (hk : a.ListShaped (.construct n) k) (m : ConstructId) (hm : .construct m ∈ k) :
      a.skeleton.Within f (.construct m) :=
    .construct (Arena.skeleton_parent_eq_some.mpr (hk.parent _ hm)) hn
  induction region with
  | done => trivial
  | block b rest ih => exact ih h fun n hn => hin n (List.mem_cons_of_mem _ hn)
  | branch n yes no rest ihy ihn ih =>
    obtain ⟨⟨x, cond, hx, hshape⟩, hy, hno, hrest⟩ := h
    have hn := hin n List.mem_cons_self
    have hyes := hlist hn hx (.yes n) rfl (by rw [hshape]; rfl)
    have hno' := hlist hn hx (.no n) rfl (by rw [hshape]; rfl)
    exact ⟨hyes, hno', ihy hy (hnested hn hyes), ihn hno (hnested hn hno'),
      ih hrest fun m hm => hin m (List.mem_cons_of_mem _ hm)⟩
  | loop n body rest ihb ih =>
    obtain ⟨⟨x, hx, hshape⟩, hbody, hrest⟩ := h
    have hn := hin n List.mem_cons_self
    have hloop := hlist hn hx (.loop n) rfl (by rw [hshape]; rfl)
    exact ⟨hloop, ihb hbody (hnested hn hloop), ih hrest fun m hm => hin m (List.mem_cons_of_mem _ hm)⟩

/-- Without open constructs a function has the shape that the check asks for. -/
theorem Nested.exists_shaped (h : a.skeleton.Nested cs) (hc : cs f = some c)
    (hclosed : c.frames = []) :
    ∃ region, a.bodyRegion f = .ok region ∧ region.Shaped a (.function f) := by
  -- Only the builder of the function could have put a list of the function aside.
  have hshaped (r : ListRef) (l : List Item) (hr : a.skeleton.Within f r.owner)
      (hl : a.skeleton.items r = some l) : a.ListShaped r.owner l := by
    refine h.listShaped hl ?_
    rintro ⟨g, d, fr, hd, hfr, rfl⟩
    have hwithin := (((h.points g d hd).chain.within h.lists).2 fr hfr)
    have hparent := (h.points g d hd).chain.parent h.lists hfr
    obtain rfl := (Within.construct hparent hr).function_eq hwithin
    cases hc.symm.trans hd
    rw [hclosed] at hfr
    cases hfr
  have hp := h.points f c hc
  obtain ⟨b, l, hl, -⟩ := hp.ends
  obtain ⟨body, hbody⟩ := hp.chain.exists_body ⟨l, hl⟩
  obtain ⟨g, hg, rfl⟩ := Option.map_eq_some_iff.mp ((Arena.skeleton_items_body f).symm.trans hbody)
  obtain ⟨region, hregion, hitems, hnests⟩ := h.lists.exists_bodyRegion hg
  refine ⟨region, hregion, ?_, nestedShaped_of_within hnests hshaped fun n hn => ?_⟩
  · rw [hitems]
    exact hshaped (.body f) g.body .function hbody
  · exact .construct (h.lists.parent _ g.body hbody _ (hitems ▸ hn)) .function

end Skeleton

end ShaderCompiler
