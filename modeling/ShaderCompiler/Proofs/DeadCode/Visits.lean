import ShaderCompiler.Proofs.DeadCode.Pruned
import ShaderCompiler.Proofs.DeadCode.Steps

/-!
# Visits of instructions

A scan keeps its marks in an array with room for a number of values. As long as the numbers it
meets fit into the room, it finds and marks what a scan of the outline finds and marks. Here this
is shown for what a scan does with a single instruction or condition.
-/

namespace ShaderCompiler

variable {numbers : List Int}

/-! ### Live sets -/

namespace LiveSet

variable {s : LiveSet} {n : Int}

/-- The numbers that a live set marks. -/
def marked (s : LiveSet) : Finset Int :=
  ((Finset.range s.marks.size).filter fun k => s.marks.getD k false = true).map Nat.castEmbedding

/-- A live set has room for a number. -/
def Fits (s : LiveSet) (n : Int) : Prop :=
  0 ≤ n ∧ n < s.marks.size

/-- The live set with one more mark. -/
def put (s : LiveSet) (n : Int) : LiveSet :=
  ⟨s.marks.setIfInBounds n.toNat true⟩

theorem mem_marked : n ∈ s.marked ↔ s.Fits n ∧ s.marks.getD n.toNat false = true := by
  simp only [marked, Finset.mem_map, Finset.mem_filter, Finset.mem_range, Nat.castEmbedding_apply]
  constructor
  · rintro ⟨k, ⟨hk, hmark⟩, rfl⟩
    exact ⟨⟨by omega, by omega⟩, by simpa using hmark⟩
  · rintro ⟨⟨hn, hlt⟩, hmark⟩
    exact ⟨n.toNat, ⟨by omega, hmark⟩, by omega⟩

theorem place_of_fits (h : s.Fits n) : s.place n = .ok (some n.toNat) := by
  obtain ⟨hn, hlt⟩ := h
  rw [place, if_neg (by omega), if_pos (by omega)]

theorem contains_of_fits (h : s.Fits n) : s.contains n = .ok (decide (n ∈ s.marked)) := by
  simp [contains, place_of_fits h, mem_marked, h, bind, Except.bind, pure, Except.pure]

theorem mark_of_fits (h : s.Fits n) : s.mark n = .ok (decide (n ∉ s.marked), s.put n) := by
  simp [mark, place_of_fits h, mem_marked, h, put, bind, Except.bind, pure, Except.pure]

@[simp] theorem size_put : (s.put n).marks.size = s.marks.size := by
  simp [put]

theorem fits_put {k : Int} : (s.put n).Fits k ↔ s.Fits k := by
  simp [Fits]

theorem marked_put (h : s.Fits n) : (s.put n).marked = insert n s.marked := by
  ext k
  rw [mem_marked, fits_put, Finset.mem_insert, mem_marked]
  by_cases hk : s.Fits k
  · have hsame : n.toNat = k.toNat ↔ k = n := by
      obtain ⟨hn, -⟩ := h
      obtain ⟨hk, -⟩ := hk
      omega
    have hlt : k.toNat < s.marks.size := by
      obtain ⟨hk, hlt⟩ := hk
      omega
    by_cases hkn : k = n
    · subst hkn
      simp [hk, put, hlt]
    · have hne : n.toNat ≠ k.toNat := fun he => hkn (hsame.mp he)
      simp [hk, hkn, put, hne]
  · have hkn : k ≠ n := fun he => hk (he ▸ h)
    simp [hk, hkn]

/-- The live set with more marks. -/
def putAll (s : LiveSet) (numbers : List Int) : LiveSet :=
  numbers.foldl put s

@[simp] theorem size_putAll :
    (s.putAll numbers).marks.size = s.marks.size := by
  induction numbers generalizing s with
  | nil => rfl
  | cons n numbers ih => exact ih.trans size_put

theorem fits_putAll : (s.putAll numbers).Fits n ↔ s.Fits n := by
  simp [Fits]

theorem fits_of_mem_filterMap {α : Type} {l : List α} {f : α → Option Int}
    (h : ∀ x ∈ l, ∃ n, f x = some n ∧ s.Fits n) : ∀ n ∈ l.filterMap f, s.Fits n := by
  intro n hn
  obtain ⟨x, hx, hxn⟩ := List.mem_filterMap.mp hn
  obtain ⟨k, hk, hfit⟩ := h x hx
  cases hxn.symm.trans hk
  exact hfit

theorem marked_putAll (h : ∀ n ∈ numbers, s.Fits n) :
    (s.putAll numbers).marked = s.marked ∪ numbers.toFinset := by
  induction numbers generalizing s with
  | nil => simp [putAll]
  | cons n numbers ih =>
    refine (ih fun k hk => fits_put.mpr (h k (List.mem_cons_of_mem _ hk))).trans ?_
    rw [marked_put (h n List.mem_cons_self), List.toFinset_cons, Finset.insert_union,
      Finset.union_insert]

theorem ofCount_eq_ok (h : ofCount n = .ok s) : s.marked = ∅ ∧ n ≤ s.marks.size := by
  unfold ofCount at h
  dsimp only at h
  split at h
  · simp at h
  · cases h
    refine ⟨?_, ?_⟩
    · ext k
      simp only [mem_marked, Array.getD_eq_getD_getElem?, Array.getElem?_replicate,
        Finset.notMem_empty, iff_false, not_and]
      intro _
      split <;> simp
    · simp only [Array.size_replicate]
      have := Int.tdiv_eq_ediv_of_nonneg (a := n + 63) (b := 64)
      omega

end LiveSet

/-! ### Runs of scans -/

/-- What a scan relies on in an instruction: it reads and defines values whose numbers fit into
the room, and it is known whether it has an effect. -/
structure Arena.InstrScannable (a : Arena) (room : Nat) (ins : Instr) : Prop where
  definition : ∀ d ∈ ins.definitions, ∃ v n, d = some v ∧ a.number? v = some n
    ∧ 0 ≤ n ∧ n < room
  source : ∀ t ∈ ins.sources, ∃ u n, t = some u ∧ a.readNumber? u = some n ∧ 0 ≤ n ∧ n < room
  known : ∀ op dest srcs base, ins.action = .intrinsic op dest srcs base →
    ∃ row, op.info = .ok row

namespace Scan

variable {α β : Type} {a a' a'' : Arena} {s s' s'' : LiveSet}

/-- A scan succeeds with this result, and leaves this live set and arena. -/
def Gives (x : Scan α) (s : LiveSet) (a : Arena) (y : α) (s' : LiveSet) (a' : Arena) : Prop :=
  x.run s a = .ok (y, s') a'

namespace Gives

variable {x : Scan α} {k : α → Scan β} {y : α} {z : β}

theorem bind (hx : x.Gives s a y s' a') (hk : (k y).Gives s' a' z s'' a'') :
    (x >>= k).Gives s a z s'' a'' :=
  (Edit.bind_of_ok hx).trans hk

theorem pure (y : α) : (pure y : Scan α).Gives s a y s a :=
  rfl

theorem get : (get : Scan LiveSet).Gives s a s s a :=
  rfl

theorem set (s' : LiveSet) : (set s' : Scan PUnit).Gives s a () s' a :=
  rfl

theorem lift {x : Edit α} (h : x a = .ok y a') : (liftM x : Scan α).Gives s a y s a' :=
  Edit.bind_of_ok h

theorem look {view : Arena → Except Fault α} (h : view a = .ok y) :
    (look view).Gives s a y s a :=
  lift (Edit.look_eq_ok.mpr ⟨h, rfl⟩)

theorem except {x : Except Fault α} (h : x = .ok y) :
    (liftM (liftM x : Edit α) : Scan α).Gives s a y s a :=
  lift (Edit.liftM_eq_ok.mpr ⟨h, rfl⟩)

theorem discard (hx : x.Gives s a y s' a') : (discard x : Scan PUnit).Gives s a () s' a' := by
  change ((fun _ => PUnit.unit) <$> x : Scan PUnit).Gives s a () s' a'
  rw [map_eq_pure_bind]
  exact hx.bind (pure _)

end Gives

theorem bind_gives {x : Scan α} {k : α → Scan β} {z : β} : (x >>= k).Gives s a z s' a' ↔
    ∃ y s₁ a₁, x.Gives s a y s₁ a₁ ∧ (k y).Gives s₁ a₁ z s' a' := by
  constructor
  · intro h
    obtain ⟨⟨y, s₁⟩, a₁, hx, hk⟩ := Edit.bind_eq_ok.mp h
    exact ⟨y, s₁, a₁, hx, hk⟩
  · rintro ⟨y, s₁, a₁, hx, hk⟩
    exact hx.bind hk

theorem pure_gives {y z : α} :
    (pure y : Scan α).Gives s a z s' a' ↔ y = z ∧ s = s' ∧ a = a' := by
  simp [Gives, and_assoc]

theorem lift_gives {x : Edit α} {y : α} :
    (liftM x : Scan α).Gives s a y s' a' ↔ x a = .ok y a' ∧ s' = s := by
  constructor
  · intro h
    obtain ⟨z, a₁, hx, hz⟩ := Edit.bind_eq_ok.mp h
    obtain ⟨heq, rfl⟩ := Edit.pure_eq_ok.mp hz
    obtain ⟨rfl, rfl⟩ := Prod.mk.inj heq
    exact ⟨hx, rfl⟩
  · rintro ⟨hx, rfl⟩
    exact .lift hx

theorem look_gives {view : Arena → Except Fault α} {y : α} :
    (look view).Gives s a y s' a' ↔ view a = .ok y ∧ s' = s ∧ a' = a := by
  unfold look
  rw [lift_gives, Edit.look_eq_ok]
  grind

theorem get_gives {y : LiveSet} :
    (get : Scan LiveSet).Gives s a y s' a' ↔ y = s ∧ s' = s ∧ a' = a := by
  change EStateM.Result.ok (s, s) a = .ok (y, s') a' ↔ _
  grind

section Numbers

variable {u : UseId} {v : ValueId} {n : Int}

theorem markUse_eq_ok {y : Bool} : (markUse u).Gives s a y s' a' ↔
    a' = a ∧ ∃ n, a.readNumber? u = some n ∧ s.mark n = .ok (y, s') := by
  have hlook (n : Int) : (∃ x, (do a.value (← a.valueOf u)) = .ok x ∧ x.index = n)
      ↔ a.readNumber? u = some n := by
    simp only [except_bind_eq_ok, Arena.valueOf_eq_ok, Arena.value_eq_ok, Arena.readNumber?,
      Arena.number?, Option.bind_eq_some_iff, Option.map_eq_some_iff]
    grind
  constructor
  · intro h
    obtain ⟨x, s₁, a₁, hread, h₁⟩ := bind_gives.mp h
    obtain ⟨hx, rfl, rfl⟩ := look_gives.mp hread
    obtain ⟨s₂, s₃, a₂, hget, h₂⟩ := (bind_gives (x := get)).mp h₁
    obtain ⟨rfl, rfl, rfl⟩ := get_gives.mp hget
    obtain ⟨p, s₄, a₃, hview, h₃⟩ := bind_gives.mp h₂
    obtain ⟨hlift, rfl⟩ := lift_gives.mp hview
    obtain ⟨hmark, rfl⟩ := Edit.liftM_eq_ok.mp hlift
    cases h₃
    exact ⟨rfl, x.index, (hlook _).mp ⟨x, hx, rfl⟩, hmark⟩
  · rintro ⟨rfl, n, hn, hmark⟩
    obtain ⟨x, hx, rfl⟩ := (hlook n).mpr hn
    exact .bind (.look hx) (.bind .get (.bind (.except hmark) (.bind (.set _) (.pure _))))

theorem markUse_gives (hn : a.readNumber? u = some n) (hfit : s.Fits n) :
    (markUse u).Gives s a (decide (n ∉ s.marked)) (s.put n) a :=
  markUse_eq_ok.mpr ⟨rfl, n, hn, LiveSet.mark_of_fits hfit⟩

theorem isDestLive_eq_ok {dest : Option ValueId} {y : Bool} : (isDestLive dest).Gives s a y s' a' ↔
    s' = s ∧ a' = a ∧ ∃ v n, dest = some v ∧ a.number? v = some n ∧ s.contains n = .ok y := by
  have hlook (x : Value) : (do a.value (← present dest)) = .ok x
      ↔ ∃ v, dest = some v ∧ a.values[v.idx]? = some x := by
    cases dest <;> simp [present, Arena.value_eq_ok, bind, Except.bind]
  constructor
  · intro h
    obtain ⟨x, s₁, a₁, hread, h₁⟩ := bind_gives.mp h
    obtain ⟨hx, rfl, rfl⟩ := look_gives.mp hread
    obtain ⟨s₂, s₃, a₂, hget, h₂⟩ := (bind_gives (x := get)).mp h₁
    obtain ⟨rfl, rfl, rfl⟩ := get_gives.mp hget
    obtain ⟨hlift, rfl⟩ := lift_gives.mp h₂
    obtain ⟨hmark, rfl⟩ := Edit.liftM_eq_ok.mp hlift
    obtain ⟨v, rfl, hv⟩ := (hlook x).mp hx
    exact ⟨rfl, rfl, v, x.index, rfl, by rw [Arena.number?, hv]; rfl, hmark⟩
  · rintro ⟨rfl, rfl, v, n, rfl, hn, hmark⟩
    obtain ⟨x, hx, rfl⟩ := Option.map_eq_some_iff.mp hn
    exact .bind (.look ((hlook x).mpr ⟨v, rfl, hx⟩)) (.bind .get (.except hmark))

theorem isDestLive_gives (hn : a.number? v = some n) (hfit : s.Fits n) :
    (isDestLive (some v)).Gives s a (decide (n ∈ s.marked)) s a :=
  isDestLive_eq_ok.mpr ⟨rfl, rfl, v, n, rfl, hn, LiveSet.contains_of_fits hfit⟩

theorem isAnyLive_gives {vs : List ValueId}
    (h : ∀ v ∈ vs, ∃ n, a.number? v = some n ∧ s.Fits n) :
    (isAnyLive vs).Gives s a ((vs.filterMap a.number?).any (· ∈ s.marked)) s a := by
  induction vs with
  | nil => exact .pure _
  | cons v vs ih =>
    obtain ⟨n, hn, hfit⟩ := h v List.mem_cons_self
    refine .bind (isDestLive_gives hn hfit) ?_
    rw [List.filterMap_cons_some hn, List.any_cons]
    cases hlive : decide (n ∈ s.marked) with
    | true => exact .pure _
    | false => exact ih fun w hw => h w (List.mem_cons_of_mem _ hw)

theorem markIncoming_gives (pre : Option BlockId) {srcs : List (BlockId × UseId)}
    (h : ∀ x ∈ srcs, ∃ n, a.readNumber? x.2 = some n ∧ s.Fits n) :
    (markIncoming pre srcs).Gives s a
      (bringsNew pre (srcs.filterMap fun x => (a.readNumber? x.2).map (some x.1, ·)) s.marked)
      (s.putAll (srcs.filterMap fun x => a.readNumber? x.2)) a := by
  induction srcs generalizing s with
  | nil => exact .pure _
  | cons x srcs ih =>
    obtain ⟨n, hn, hfit⟩ := h x List.mem_cons_self
    have hrest : ∀ y ∈ srcs, ∃ k, a.readNumber? y.2 = some k ∧ (s.put n).Fits k := fun y hy => by
      obtain ⟨k, hk, hkfit⟩ := h y (List.mem_cons_of_mem _ hy)
      exact ⟨k, hk, LiveSet.fits_put.mpr hkfit⟩
    have hmark := ih hrest
    rw [LiveSet.marked_put hfit] at hmark
    simp only [List.filterMap_cons, hn, Option.map_some, bringsNew, Option.isSome_some,
      Bool.and_true]
    exact .bind (markUse_gives hn hfit) (.bind hmark (.pure _))

theorem forM_markUse_gives {l : List UseId}
    (h : ∀ u ∈ l, ∃ n, a.readNumber? u = some n ∧ s.Fits n) :
    (l.forM fun u => discard <| markUse u : Scan PUnit).Gives s a ()
      (s.putAll (l.filterMap a.readNumber?)) a := by
  induction l generalizing s with
  | nil => exact .pure _
  | cons u l ih =>
    obtain ⟨n, hn, hfit⟩ := h u List.mem_cons_self
    rw [List.filterMap_cons_some hn]
    refine .bind (.discard (markUse_gives hn hfit)) (ih fun t ht => ?_)
    obtain ⟨k, hk, hkfit⟩ := h t (List.mem_cons_of_mem _ ht)
    exact ⟨k, hk, LiveSet.fits_put.mpr hkfit⟩

theorem forM_markPresent_gives {l : List (Option UseId)}
    (h : ∀ t ∈ l, ∃ u n, t = some u ∧ a.readNumber? u = some n ∧ s.Fits n) :
    (l.forM fun u => do discard <| markUse (← liftM (m := Edit) (present u)) : Scan PUnit).Gives
      s a () (s.putAll (l.reduceOption.filterMap a.readNumber?)) a := by
  induction l generalizing s with
  | nil => exact .pure _
  | cons t l ih =>
    obtain ⟨u, n, rfl, hn, hfit⟩ := h t List.mem_cons_self
    rw [List.reduceOption_cons_of_some, List.filterMap_cons_some hn]
    have hmark : (do discard <| markUse (← liftM (m := Edit) (present (some u))) :
        Scan PUnit).Gives s a () (s.put n) a :=
      .bind (.except rfl) (.discard (markUse_gives hn hfit))
    refine .bind hmark (ih fun t ht => ?_)
    obtain ⟨w, k, hw, hk, hkfit⟩ := h t (List.mem_cons_of_mem _ ht)
    exact ⟨w, k, hw, hk, LiveSet.fits_put.mpr hkfit⟩

end Numbers

/-! ### One instruction -/

variable {ins : Instr}

/-- The verdict on an instruction. -/
theorem isLive_gives (h : a.InstrScannable s.marks.size ins) :
    (isLive ins).Gives s a (ins.hasEffect
      || (ins.definitions.reduceOption.filterMap a.number?).any (· ∈ s.marked)) s a := by
  have hdest {dest : Option ValueId} (hdefs : ins.definitions = [dest]) :
      (isDestLive dest).Gives s a
        ((ins.definitions.reduceOption.filterMap a.number?).any (· ∈ s.marked)) s a := by
    obtain ⟨v, n, rfl, hn, hfit⟩ := h.definition dest (by simp [hdefs])
    rw [hdefs]
    simpa [List.reduceOption, hn] using isDestLive_gives hn hfit
  unfold isLive
  cases hact : ins.action with
  | alu p | tex _ _ _ _ _ | phi _ _ | const _ _ | undef _ =>
    rw [show ins.hasEffect = false by simp [Instr.hasEffect, hact], Bool.false_or]
    exact hdest (by simp [Instr.definitions, hact])
  | call _ _ | jump _ =>
    rw [show ins.hasEffect = true by simp [Instr.hasEffect, hact], Bool.true_or]
    exact .pure _
  | parallelCopy entries =>
    have hdefs : ins.definitions.reduceOption = entries.map (·.1) := by
      rw [Instr.definitions, hact, List.reduceOption, List.filterMap_map]
      simp
    rw [show ins.hasEffect = false by simp [Instr.hasEffect, hact], Bool.false_or, hdefs]
    refine isAnyLive_gives fun v hv => ?_
    obtain ⟨e, he, rfl⟩ := List.mem_map.mp hv
    obtain ⟨v, n, heq, hn, hfit⟩ := h.definition (some e.1) (by
      rw [Instr.definitions, hact]
      exact List.mem_map_of_mem he)
    cases heq
    exact ⟨n, hn, hfit⟩
  | intrinsic op dest srcs base =>
    obtain ⟨row, hrow⟩ := h.known op dest srcs base hact
    rw [show ins.hasEffect = !row.eliminable by simp [Instr.hasEffect, hact,
      Intrinsic.isEliminable, hrow]]
    refine .bind (.except hrow) ?_
    cases row.eliminable with
    | false => exact .pure _
    | true =>
      cases dest with
      | none =>
        rw [show ins.definitions = [] by simp [Instr.definitions, hact]]
        exact .pure _
      | some v => exact hdest (by simp [Instr.definitions, hact])

theorem bringsNew_append_of_none (pre : Option BlockId) (rs : List (Option BlockId × Int))
    (ns : List Int) (values : Finset Int) :
    bringsNew pre (rs ++ ns.map (none, ·)) values = bringsNew pre rs values := by
  induction rs generalizing values with
  | nil =>
    induction ns generalizing values with
    | nil => rfl
    | cons n ns ih =>
      have hrest := ih (insert n values)
      simp only [List.nil_append, List.map_cons, bringsNew] at hrest ⊢
      simp [hrest]
  | cons r rs ih => rw [List.cons_append, bringsNew, bringsNew, ih]

theorem map_snd_filterMap {β : Type} {l : List β} {f : β → Option Int}
    {g : β → Option BlockId} :
    (l.filterMap fun x => (f x).map (g x, ·)).map Prod.snd = l.filterMap f := by
  rw [List.map_filterMap]
  congr 1
  funext x
  simp [Option.map_map, Function.comp_def]

theorem filterMap_none_eq_map {β : Type} {l : List β} {f : β → Option Int} :
    (l.filterMap fun x => (f x).map fun n => ((none : Option BlockId), n))
      = (l.filterMap f).map (none, ·) :=
  List.map_filterMap.symm

/-- The marks of the sources of an instruction. -/
theorem markSources_gives (pre : Option BlockId) (h : a.InstrScannable s.marks.size ins) :
    ∃ s', (markSources pre ins).Gives s a (bringsNew pre (a.readings ins) s.marked) s' a
      ∧ s'.marked = s.marked ∪ ((a.readings ins).map Prod.snd).toFinset
      ∧ s'.marks.size = s.marks.size := by
  unfold markSources
  split
  case h_1 dest srcs hact =>
    have hsrcs : ∀ x ∈ srcs, ∃ n, a.readNumber? x.2 = some n ∧ s.Fits n := fun x hx => by
      obtain ⟨u, n, heq, hn, hfit⟩ := h.source _ (Instr.mem_sources_of_phi hact hx)
      cases heq
      exact ⟨n, hn, hfit⟩
    have hindirect : ∀ u ∈ ins.indirect.toList, ∃ n, a.readNumber? u = some n
        ∧ (s.putAll (srcs.filterMap fun x => a.readNumber? x.2)).Fits n := fun u hu => by
      have hmem : some u ∈ ins.sources := by
        simp [Instr.sources, hact, Option.mem_toList.mp hu]
      obtain ⟨w, n, heq, hn, hfit⟩ := h.source _ hmem
      cases heq
      exact ⟨n, hn, LiveSet.fits_putAll.mpr hfit⟩
    rw [Arena.readings_of_phi hact]
    refine ⟨(s.putAll (srcs.filterMap fun x => a.readNumber? x.2)).putAll
      (ins.indirect.toList.filterMap a.readNumber?), ?_, ?_, by simp⟩
    · rw [filterMap_none_eq_map, bringsNew_append_of_none]
      exact .bind (markIncoming_gives pre hsrcs) (.bind (forM_markUse_gives hindirect) (.pure _))
    · rw [LiveSet.marked_putAll (LiveSet.fits_of_mem_filterMap hindirect),
        LiveSet.marked_putAll (LiveSet.fits_of_mem_filterMap hsrcs), List.map_append,
        map_snd_filterMap, map_snd_filterMap, List.toFinset_append, Finset.union_assoc]
  case h_2 hphi =>
    have hall := LiveSet.fits_of_mem_filterMap (s := s) (l := ins.sources.reduceOption)
      (f := a.readNumber?) fun u hu => by
        obtain ⟨w, n, heq, hn, hfit⟩ := h.source _ (List.reduceOption_mem_iff.mp hu)
        cases heq
        exact ⟨n, hn, hfit⟩
    rw [Arena.readings_of_not_phi hphi]
    refine ⟨s.putAll (ins.sources.reduceOption.filterMap a.readNumber?), ?_, ?_, by simp⟩
    · rw [filterMap_none_eq_map, ← List.nil_append (List.map _ _), bringsNew_append_of_none]
      exact .bind (forM_markPresent_gives h.source) (.pure _)
    · rw [LiveSet.marked_putAll hall, map_snd_filterMap]

/-! ### Visits of an outline -/

/-- A live set shows marks. -/
structure Shows (room : Nat) (s : LiveSet) (m : Marks) : Prop where
  values : s.marked = m.values
  size : s.marks.size = room

section Visits

variable {room : Nat} {m : Marks} {b : BlockId} {i : InstrId}

theorem isLive_outline (hins : a.instrs[i.idx]? = some ins) : a.outline.isLive m i
    = (ins.hasEffect
      || (ins.definitions.reduceOption.filterMap a.number?).any (· ∈ m.values)) := by
  simp [Outline.isLive, Arena.outline, hins]

theorem reads_outline (hins : a.instrs[i.idx]? = some ins) :
    a.outline.reads i = a.readings ins := by
  simp [Arena.outline, hins]

variable (hs : Shows room s m) (hins : a.instrs[i.idx]? = some ins)
  (h : a.InstrScannable room ins)

include hs hins h

theorem verdict_gives : (isLive ins).Gives s a (a.outline.isLive m i) s a := by
  rw [isLive_outline hins, ← hs.values]
  exact isLive_gives (hs.size.symm ▸ h)

theorem sources_give (pre : Option BlockId) (hlive : a.outline.isLive m i = true) :
    ∃ s', (markSources pre ins).Gives s a (bringsNew pre (a.outline.reads i) m.values) s' a
      ∧ Shows room s' (a.outline.visit i m) := by
  obtain ⟨s', hrun, hmarked, hsize⟩ := markSources_gives pre (s := s) (hs.size.symm ▸ h)
  rw [← reads_outline hins, hs.values] at hrun hmarked
  rw [Outline.visit_of_live hlive]
  exact ⟨s', hrun, hmarked, hsize.trans hs.size⟩

/-- A visit marks what the visit of the outline marks, and does what the verdict calls for. -/
theorem instr_gives {preheader : Option BlockId} {removed : Bool}
    (hend : Edit.conclude preheader b i (a.outline.isLive m i) a = .ok removed a') :
    ∃ s', (instr preheader b i).Gives s a (removed, a.outline.isLive m i
        && bringsNew preheader (a.outline.reads i) m.values) s' a'
      ∧ Shows room s' (a.outline.visit i m) := by
  have hlook : (Scan.look (·.instr i)).Gives s a ins s a := .look (Arena.instr_eq_ok.mpr hins)
  have hverdict := verdict_gives hs hins h
  rw [instr]
  cases hlive : a.outline.isLive m i with
  | true =>
    rw [hlive] at hverdict hend
    obtain ⟨s', hrun, hshows⟩ := sources_give hs hins h preheader hlive
    exact ⟨s', .bind hlook (.bind hverdict (.bind hrun (.bind (.lift hend) (.pure _)))), hshows⟩
  | false =>
    rw [hlive] at hverdict hend
    rw [Outline.visit_of_dead hlive]
    exact ⟨s, .bind hlook (.bind hverdict (.bind (.pure false) (.bind (.lift hend) (.pure _)))), hs⟩

omit hins h in
/-- A condition is marked. -/
theorem markCondition_gives {c : ConstructId} {con : Construct} {u : UseId} {yes no : List Item}
    {n : Int} (hcon : a.constructs[c.idx]? = some con) (hshape : con.shape = .branch (some u) yes no)
    (hn : a.readNumber? u = some n) (hfit : 0 ≤ n ∧ n < room) :
    ∃ s', (markCondition c).Gives s a () s' a ∧ Shows room s' (m.test (a.outline.tests c)) := by
  have hfits : s.Fits n := ⟨hfit.1, hs.size.symm ▸ hfit.2⟩
  have htests : a.outline.tests c = [n] := by
    simp [Arena.outline, hcon, hshape, hn]
  refine ⟨s.put n, .bind (.look (Arena.construct_eq_ok.mpr hcon)) ?_, ?_, ?_⟩
  · rw [hshape]
    exact .bind (.except rfl) (.discard (markUse_gives hn hfits))
  · rw [LiveSet.marked_put hfits, hs.values, htests]
    simp [Marks.test]
  · rw [LiveSet.size_put, hs.size]

end Visits

/-! ### Blocks -/

variable {b : BlockId} {preheader : Option BlockId}

theorem entry_gives {n : Nat} {i : InstrId} :
    (look fun a => do entry (← a.block b).instrs n).Gives s a i s' a' ↔
      (a.body b)[n]? = some i ∧ s' = s ∧ a' = a := by
  rw [look_gives, and_congr_left_iff]
  intro _
  simp only [except_bind_eq_ok, Arena.block_eq_ok, entry_eq_ok, Arena.body]
  cases a.blocks[b.idx]? <;> simp

theorem exists_of_instrsBelow {n : Nat} {y : Bool × Bool}
    (h : (instrsBelow preheader b (n + 1)).Gives s a y s' a') : ∃ i z w s₁ a₁,
      (a.body b)[n]? = some i ∧ (instr preheader b i).Gives s a z s₁ a₁
        ∧ (instrsBelow preheader b n).Gives s₁ a₁ w s' a' ∧ y = (z.1 || w.1, z.2 || w.2) := by
  obtain ⟨i, s₁, a₁, hlook, h₁⟩ := bind_gives.mp h
  obtain ⟨hi, rfl, rfl⟩ := entry_gives.mp hlook
  obtain ⟨z, s₂, a₂, hinstr, h₂⟩ := bind_gives.mp h₁
  obtain ⟨w, s₃, a₃, hrest, h₃⟩ := bind_gives.mp h₂
  obtain ⟨rfl, rfl, rfl⟩ := pure_gives.mp h₃
  exact ⟨i, z, w, s₂, a₂, hi, hinstr, hrest, rfl⟩

theorem block_gives {y : Bool × Bool} : (block preheader b).Gives s a y s' a' ↔
    (∃ bb, a.blocks[b.idx]? = some bb)
      ∧ (instrsBelow preheader b (a.body b).length).Gives s a y s' a' := by
  constructor
  · intro h
    obtain ⟨bb, s₁, a₁, hlook, hbelow⟩ := bind_gives.mp h
    obtain ⟨hbb, rfl, rfl⟩ := look_gives.mp hlook
    rw [Arena.block_eq_ok] at hbb
    exact ⟨⟨bb, hbb⟩, Arena.body_of_block hbb ▸ hbelow⟩
  · rintro ⟨⟨bb, hbb⟩, h⟩
    exact .bind (.look (Arena.block_eq_ok.mpr hbb)) (Arena.body_of_block hbb ▸ h)

end Scan

end ShaderCompiler
