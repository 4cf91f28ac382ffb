import ShaderCompiler.Proofs.Region

/-!
# Functions of the right shape

The first half of the check looks at the lists of a function. It finds nothing exactly if
every list starts and ends with a block, has no two blocks next to each other, and every item
points to the owner of its list. Finding nothing leaves the arena as it is.
-/

namespace ShaderCompiler

variable {owner o : Owner} {items : List Item} {r : Region} {c : Prop} {y : Edit (List Problem)}

variable {a a' : Arena}

/-- No block stands right behind another one. -/
def Separated : Bool → List Item → Prop
  | _, [] => True
  | afterBlock, item :: rest =>
      ¬ (afterBlock = true ∧ item.isBlock = true) ∧ Separated item.isBlock rest

/-- A list of the right shape. -/
structure Arena.ListShaped (a : Arena) (owner : Owner) (items : List Item) : Prop where
  head : items.head?.any (·.isBlock) = true
  last : items.getLast?.any (·.isBlock) = true
  parent : ∀ item ∈ items, a.parentOf item = .ok (some owner)
  separated : Separated false items

namespace Region

/-- The lists that the constructs of a region own have the right shape. -/
def NestedShaped (a : Arena) : Region → Prop
  | .done => True
  | .block _ rest => rest.NestedShaped a
  | .branch c yes no rest =>
      a.ListShaped (.construct c) yes.items ∧ a.ListShaped (.construct c) no.items
        ∧ yes.NestedShaped a ∧ no.NestedShaped a ∧ rest.NestedShaped a
  | .loop c body rest =>
      a.ListShaped (.construct c) body.items ∧ body.NestedShaped a ∧ rest.NestedShaped a

/-- A region and all lists nested in it have the right shape. -/
def Shaped (a : Arena) (owner : Owner) (r : Region) : Prop :=
  a.ListShaped owner r.items ∧ r.NestedShaped a

end Region

namespace Edit

/-! ### Parts of the check -/

section Passes

variable {α : Type} {P Q : Prop} {x : Edit (List Problem)}

/-- A part of the check finds nothing exactly if `P` holds, and then leaves the arena alone. -/
def Passes (x : Edit (List Problem)) (a : Arena) (P : Prop) : Prop :=
  ∀ a', x a = .ok [] a' ↔ P ∧ a = a'

/-- A part of the check that does not end without a finding. -/
def Reports (x : Edit (List Problem)) : Prop :=
  ∀ a a', x a ≠ .ok [] a'

theorem Passes.congr (h : x.Passes a P) (hPQ : P ↔ Q) : x.Passes a Q :=
  fun a' => (h a').trans (and_congr_left' hPQ)

theorem passes_nil : (pure [] : Edit (List Problem)).Passes a True :=
  fun a' => by simp

theorem Reports.passes (h : x.Reports) : x.Passes a False :=
  fun a' => ⟨fun hrun => (h a a' hrun).elim, fun hP => hP.1.elim⟩

theorem passes_problemIf [Decidable c] {p : Edit Problem} :
    (problemIf c p).Passes a (¬ c) := by
  intro a'
  unfold problemIf
  split
  case isTrue h => simp [h]
  case isFalse h => simp [h]

/-- A part that passes on what it found is followed by the other parts. -/
theorem Passes.bind {k : List Problem → Edit (List Problem)} (hx : x.Passes a P)
    (hk : (k []).Passes a Q)
    (hfound : ∀ l, l ≠ [] → (k l).Reports := by intro l hl; simp [Reports, hl]) :
    (x >>= k).Passes a (P ∧ Q) := by
  intro a'
  rw [bind_eq_ok]
  constructor
  · rintro ⟨l, a₁, hrun, hrest⟩
    obtain rfl : l = [] := by_contra fun hl => hfound l hl a₁ a' hrest
    obtain ⟨hP, rfl⟩ := (hx a₁).mp hrun
    obtain ⟨hQ, rfl⟩ := (hk a').mp hrest
    exact ⟨⟨hP, hQ⟩, rfl⟩
  · rintro ⟨⟨hP, hQ⟩, rfl⟩
    exact ⟨[], a, (hx a).mpr ⟨hP, rfl⟩, (hk a).mpr ⟨hQ, rfl⟩⟩

/-- The last part, which is put behind the others. -/
theorem Passes.append (hx : x.Passes a P) : (x >>= fun l => pure ([] ++ l)).Passes a P := by
  simpa using hx

/-- A part that first finds something out, without a change of the arena. -/
theorem passes_read {y : Edit α} {k : α → Edit (List Problem)} {S R : α → Prop}
    (hy : ∀ z a', y a = .ok z a' ↔ S z ∧ a = a') (hk : ∀ z, S z → (k z).Passes a (R z)) :
    (y >>= k).Passes a (∃ z, S z ∧ R z) := by
  intro a'
  rw [bind_eq_ok]
  constructor
  · rintro ⟨z, a₁, hrun, hrest⟩
    obtain ⟨hz, rfl⟩ := (hy z a₁).mp hrun
    obtain ⟨hR, rfl⟩ := (hk z hz a').mp hrest
    exact ⟨⟨z, hz, hR⟩, rfl⟩
  · rintro ⟨⟨z, hz, hR⟩, rfl⟩
    exact ⟨z, a, (hy z a).mpr ⟨hz, rfl⟩, (hk z hz a).mpr ⟨hR, rfl⟩⟩

theorem passes_look {view : Arena → Except Fault α} {k : α → Edit (List Problem)} {R : α → Prop}
    (hk : ∀ z, view a = .ok z → (k z).Passes a (R z)) :
    (look view >>= k).Passes a (∃ z, view a = .ok z ∧ R z) :=
  passes_read (fun _ _ => look_eq_ok) hk

theorem passes_liftM {y : Except Fault α} {k : α → Edit (List Problem)} {R : α → Prop}
    (hk : ∀ z, y = .ok z → (k z).Passes a (R z)) :
    ((liftM y : Edit α) >>= k).Passes a (∃ z, y = .ok z ∧ R z) :=
  passes_read (fun _ _ => liftM_eq_ok) hk

theorem passes_ite [Decidable c] (hx : x.Passes a P)
    (hy : y.Passes a Q) : (if c then x else y).Passes a (if c then P else Q) := by
  split
  · exact hx
  · exact hy

theorem passes_unless [Decidable c] (hy : y.Passes a Q)
    (hx : x.Reports := by simp [Reports]) : (if c then x else y).Passes a (¬ c ∧ Q) := by
  split
  case isTrue hc => exact hx.passes.congr (by simp [hc])
  case isFalse hc => exact hy.congr (by simp [hc])

/-- What is looked for in each entry of a list. -/
theorem passes_flatMapM {γ : Type} {k : γ → Edit (List Problem)} {R : γ → Prop} {l : List γ}
    (h : ∀ z ∈ l, (k z).Passes a (R z)) : (l.flatMapM k).Passes a (∀ z ∈ l, R z) := by
  induction l with
  | nil => exact passes_nil.congr (by simp)
  | cons z l ih =>
    rw [List.flatMapM_cons]
    exact ((h z List.mem_cons_self).bind
      (ih fun w hw => h w (List.mem_cons_of_mem _ hw)).append).congr List.forall_mem_cons.symm

end Passes

/-! ### Lists -/

theorem passes_itemProblems (afterBlock : Bool) : (itemProblems owner afterBlock items).Passes a
    ((∀ item ∈ items, a.parentOf item = .ok (some owner)) ∧ Separated afterBlock items) := by
  induction items generalizing afterBlock with
  | nil => exact passes_nil.congr (by simp [Separated])
  | cons item rest ih =>
    refine (passes_look fun parent _ =>
      passes_problemIf.bind (passes_problemIf.bind (ih item.isBlock).append)).congr ?_
    simp only [Separated, List.forall_mem_cons]
    grind

theorem passes_listProblems : (listProblems owner items).Passes a (a.ListShaped owner items) := by
  refine (passes_unless (passes_problemIf.bind (passes_problemIf.bind
    (passes_itemProblems false).append))).congr ⟨?_, ?_⟩
  · rintro ⟨-, hhead, hlast, hparent, hseparated⟩
    exact ⟨by simpa using hhead, by simpa using hlast, hparent, hseparated⟩
  · rintro ⟨hhead, hlast, hparent, hseparated⟩
    have hsome : ¬ items.isEmpty = true := fun h => by simp [List.isEmpty_iff.mp h] at hhead
    exact ⟨hsome, by simp [hhead], by simp [hlast], hparent, hseparated⟩

theorem passes_nestedProblems : (nestedProblems r).Passes a (r.NestedShaped a) := by
  induction r with
  | done => exact passes_nil
  | block b rest ih => exact ih
  | branch c yes no rest ihy ihn ihr =>
    exact passes_listProblems.bind (passes_listProblems.bind (ihy.bind (ihn.bind ihr.append)))
  | loop c body rest ihb ihr => exact passes_listProblems.bind (ihb.bind ihr.append)

/-- The check of the shape finds nothing exactly if all lists have the right shape. -/
theorem passes_shapeProblems {f : FunctionId} :
    (shapeProblems f r).Passes a (r.Shaped a (.function f)) :=
  passes_listProblems.bind passes_nestedProblems.append

end Edit

/-! ### What the shape means for regions -/

namespace Region

theorem Shaped.startsWithBlock (h : a.ListShaped o r.items) :
    r.StartsWithBlock := by
  have hhead := h.head
  cases r with
  | block => exact trivial
  | done => simp [items] at hhead
  | branch => simp [items, Item.isBlock] at hhead
  | loop => simp [items, Item.isBlock] at hhead

theorem NestedShaped.owned (h : r.NestedShaped a)
    (hp : ∀ item ∈ r.items, a.parentOf item = .ok (some o)) : r.Owned a o := by
  induction r generalizing o with
  | done => trivial
  | block b rest ih =>
    simp only [items, List.mem_cons, forall_eq_or_imp] at hp
    refine ⟨?_, ih h hp.2⟩
    simpa [Arena.parentOf] using hp.1
  | branch c yes no rest ihy ihn ihr =>
    simp only [items, List.mem_cons, forall_eq_or_imp] at hp
    obtain ⟨hy, hn, hyes, hno, hrest⟩ := h
    refine ⟨?_, ihy hyes hy.parent, ihn hno hn.parent, ihr hrest hp.2⟩
    simpa [Arena.parentOf] using hp.1
  | loop c body rest ihb ihr =>
    simp only [items, List.mem_cons, forall_eq_or_imp] at hp
    obtain ⟨hl, hbody, hrest⟩ := h
    refine ⟨?_, ihb hbody hl.parent, ihr hrest hp.2⟩
    simpa [Arena.parentOf] using hp.1

theorem NestedShaped.structured (h : r.NestedShaped a) : r.Structured := by
  induction r with
  | done => trivial
  | block b rest ih => exact ih h
  | branch c yes no rest ihy ihn ihr =>
    obtain ⟨hy, hn, hyes, hno, hrest⟩ := h
    exact ⟨⟨Shaped.startsWithBlock hy, ihy hyes⟩, ⟨Shaped.startsWithBlock hn, ihn hno⟩, ihr hrest⟩
  | loop c body rest ihb ihr =>
    obtain ⟨hl, hbody, hrest⟩ := h
    exact ⟨⟨Shaped.startsWithBlock hl, ihb hbody⟩, ihr hrest⟩

/-- The items of a region of the right shape point to their owners. -/
theorem Shaped.owned {r : Region} {o : Owner} (h : r.Shaped a o) : r.Owned a o :=
  h.2.owned h.1.parent

/-- The shape depends on the parents of blocks and constructs only. -/
theorem ListShaped.mono
    (hp : ∀ item p, a.parentOf item = .ok p → a'.parentOf item = .ok p) (h : a.ListShaped o items) :
    a'.ListShaped o items :=
  ⟨h.head, h.last, fun item hi => hp item _ (h.parent item hi), h.separated⟩

theorem NestedShaped.mono {r : Region}
    (hp : ∀ item p, a.parentOf item = .ok p → a'.parentOf item = .ok p) (h : r.NestedShaped a) :
    r.NestedShaped a' := by
  induction r with
  | done => trivial
  | block b rest ih => exact ih h
  | branch c yes no rest ihy ihn ihr =>
    obtain ⟨hy, hn, hyes, hno, hrest⟩ := h
    exact ⟨ListShaped.mono hp hy, ListShaped.mono hp hn, ihy hyes, ihn hno, ihr hrest⟩
  | loop c body rest ihb ihr =>
    obtain ⟨hl, hbody, hrest⟩ := h
    exact ⟨ListShaped.mono hp hl, ihb hbody, ihr hrest⟩

end Region

end ShaderCompiler
