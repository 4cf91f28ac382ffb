import ShaderCompiler.Proofs.DeadCode.Agreement
import ShaderCompiler.Proofs.Passes.Frame

/-!
# Scans end

A round that brings something new around a loop marks the source of a φ that was not marked before.
Marks are never taken back, so there are no more such rounds than marks that a visit of the loop
adds, whatever else is wrong with the function. Only numbers below zero, which are never marked, have
to be kept out of the sources of φs.
-/

namespace ShaderCompiler

variable {α β : Type} {e : Fault} {preheader : Option BlockId} {b : BlockId}

/-! ### Live sets -/

namespace LiveSet

variable {s s' : LiveSet} {n : Int} {y : Bool}

/-- A live set is below one with the same room and at least the same marks. -/
instance : Preorder LiveSet where
  le s s' := s'.marks.size = s.marks.size ∧ s.marked ⊆ s'.marked
  le_refl _ := ⟨rfl, Finset.Subset.refl _⟩
  le_trans _ _ _ h h' := ⟨h'.1.trans h.1, h.2.trans h'.2⟩

theorem card_marked_le (s : LiveSet) : s.marked.card ≤ s.marks.size := by
  rw [marked, Finset.card_map]
  exact (Finset.card_filter_le _ _).trans_eq (Finset.card_range _)

theorem card_mono (h : s ≤ s') : s.marked.card ≤ s'.marked.card :=
  Finset.card_le_card h.2

/-- What was not marked before and is not below zero counts. -/
theorem mark_eq_ok (h : s.mark n = .ok (y, s')) :
    s ≤ s' ∧ (0 ≤ n → y = true → s.marked.card < s'.marked.card) := by
  by_cases hfit : s.Fits n
  · rw [mark_of_fits hfit] at h
    cases h
    refine ⟨⟨size_put, ?_⟩, fun _ hnew => ?_⟩
    · rw [marked_put hfit]
      exact Finset.subset_insert n _
    · rw [marked_put hfit, Finset.card_insert_of_notMem (of_decide_eq_true hnew)]
      exact Nat.lt_succ_self _
  · obtain ⟨p, hp, h⟩ := except_bind_eq_ok.mp h
    unfold place at hp
    split at hp
    case isTrue hn =>
      split at hp
      · cases hp
        cases h
        exact ⟨le_rfl, fun hpos => absurd hn (by omega)⟩
      · cases hp
    case isFalse hn =>
      rw [if_neg fun hlt => hfit ⟨by omega, by omega⟩] at hp
      cases hp

end LiveSet

/-! ### Sources of φs -/

/-- The sources of a φ. -/
def Instr.phiSources (ins : Instr) : List (BlockId × UseId) :=
  match ins.action with
  | .phi _ srcs => srcs
  | _ => []

namespace Arena

variable {a a' : Arena} {bs : List BlockId}

/-- In the blocks, no source of a φ has a number below zero. -/
def PhisIndexed (a : Arena) (bs : List BlockId) : Prop :=
  ∀ b ∈ bs, ∀ i ∈ a.body b, ∀ ins ∈ a.instrs[i.idx]?, ∀ src ∈ ins.phiSources,
    ∀ n ∈ a.readNumber? src.2, 0 ≤ n

instance : Decidable (a.PhisIndexed bs) :=
  inferInstanceAs (Decidable (∀ b ∈ bs, ∀ i ∈ a.body b, ∀ ins ∈ a.instrs[i.idx]?,
    ∀ src ∈ ins.phiSources, ∀ n ∈ a.readNumber? src.2, 0 ≤ n))

theorem PhisIndexed.of_code (hphis : a.PhisIndexed bs) (h : a'.code = a.code) :
    a'.PhisIndexed bs := by
  intro b hb i hi ins hins src hsrc n hn
  obtain ⟨k, v, hins₀⟩ := instr_of_code h.symm hins
  rw [body_of_code h] at hi
  rw [← readNumber?_code, h, readNumber?_code] at hn
  exact hphis b hb i hi _ hins₀ src hsrc n hn

theorem PhisIndexed.without (hphis : a.PhisIndexed bs) (b : BlockId) (i : InstrId) :
    (a.without b i).PhisIndexed bs := by
  intro c hc j hj ins hins src hsrc n hn
  have hj₀ : j ∈ a.body c := by
    rw [body_without] at hj
    split at hj
    · exact List.mem_of_mem_erase hj
    · exact hj
  rw [Option.mem_def, instrs_without] at hins
  split at hins
  · obtain ⟨ins₀, hins₀, rfl⟩ := Option.map_eq_some_iff.mp hins
    exact hphis c hc j hj₀ ins₀ hins₀ src hsrc n hn
  · exact hphis c hc j hj₀ ins hins src hsrc n hn

end Arena

/-! ### Computations that end -/

namespace Edit

/-- A computation that does not go on forever. -/
def Prompt (x : Edit α) : Prop :=
  ∀ a a', x a ≠ .error .endless a'

theorem bind_error {x : Edit α} {k : α → Edit β} {a a' : Arena}
    (h : (x >>= k) a = .error e a') :
    x a = .error e a' ∨ ∃ y a₁, x a = .ok y a₁ ∧ k y a₁ = .error e a' := by
  change EStateM.bind x k a = _ at h
  cases hx : x a with
  | ok y a₁ =>
    rw [EStateM.bind, hx] at h
    exact .inr ⟨y, a₁, rfl, h⟩
  | error e₁ a₁ =>
    rw [EStateM.bind, hx] at h
    cases h
    exact .inl rfl

theorem prompt_throw (he : e ≠ .endless) : (throw e : Edit α).Prompt := by
  intro a a' herr
  cases herr
  exact he rfl

theorem prompt_views : HoldsOfViews fun _ x => x.Prompt where
  pure _ _ _ := nofun
  bind hx hk a a' herr := by
    rcases bind_error herr with hfirst | ⟨y, a₁, -, hrest⟩
    · exact hx a a' hfirst
    · exact hk y a₁ a' hrest
  throw he := prompt_throw (by rintro rfl; cases he)
  look {_ view} hview a a' herr := by
    cases h : view a with
    | ok y => simp [look, h] at herr
    | error e =>
      simp only [look, h, EStateM.Result.error.injEq] at herr
      cases herr.1 ▸ hview a e h
  lift {_ x} hx a a' herr := by
    cases x with
    | ok y => cases herr
    | error e =>
      cases herr
      cases hx _ rfl

theorem prompt_lists : HoldsOfLists fun _ x => x.Prompt where
  toHoldsOfViews := prompt_views
  slot _ _ _ _ := nofun
  withUses _ _ _ _ _ := nofun
  corrupt _ := prompt_throw nofun

theorem prompt_marking : HoldsOfMarking fun _ x => x.Prompt where
  toHoldsOfViews := prompt_views
  record _ _ _ _ := nofun
  countRound _ _ := nofun

theorem prompt_eliminate (b : BlockId) (i : InstrId) : (eliminate b i).Prompt := by
  refine prompt_views.bind (prompt_views.bind (prompt_views.look fun a => a.clean_block b) fun bb =>
    holds_ite (m := Edit) (J := fun _ x => x.Prompt) ?_ ?_) fun _ _ _ => nofun
  · exact prompt_views.bind (prompt_lists.dropSources i) fun _ _ _ => nofun
  · exact prompt_views.bind (prompt_views.look fun a => a.clean_instrText i) fun _ =>
      prompt_throw nofun

end Edit

/-! ### Scans that end -/

namespace Scan

open Edit

variable {bs : List BlockId} {s s' : LiveSet} {a a' : Arena}

/-- A scan that only adds marks, keeps numbers below zero out of the sources of φs, and ends if they
are. -/
structure Steady (bs : List BlockId) (x : Scan α) : Prop where
  grows : ∀ {s a y s' a'}, x.Gives s a y s' a' → s ≤ s'
  keeps : ∀ {s a y s' a'}, x.Gives s a y s' a' → a.PhisIndexed bs → a'.PhisIndexed bs
  ends : ∀ {s a a'}, a.PhisIndexed bs → x.run s a ≠ .error .endless a'

theorem Steady.lift {x : Edit α} (hx : x.Prompt)
    (hkeeps : ∀ {a y a'}, x a = .ok y a' → a.PhisIndexed bs → a'.PhisIndexed bs) :
    (liftM x : Scan α).Steady bs where
  grows h := (lift_gives.mp h).2 ▸ le_rfl
  keeps h := hkeeps (lift_gives.mp h).1
  ends {s a a'} _ := prompt_views.bind hx (fun y => prompt_views.pure (y, s)) a a'

theorem steady_scans : HoldsOfScans fun _ x => x.Steady bs where
  pure y := .lift (x := pure y) (prompt_views.pure y) fun h => by
    obtain ⟨-, rfl⟩ := pure_eq_ok.mp h
    exact id
  bind hx hk := {
    grows h := by
      obtain ⟨y, s₁, a₁, hfirst, hrest⟩ := bind_gives.mp h
      exact (hx.grows hfirst).trans ((hk y).grows hrest)
    keeps h hphis := by
      obtain ⟨y, s₁, a₁, hfirst, hrest⟩ := bind_gives.mp h
      exact (hk y).keeps hrest (hx.keeps hfirst hphis)
    ends hphis herr := by
      rcases bind_error herr with hfirst | ⟨p, a₁, hfirst, hrest⟩
      · exact hx.ends hphis hfirst
      · exact (hk p.1).ends (hx.keeps hfirst hphis) hrest }
  throw he := {
    grows h := nomatch h
    keeps h := nomatch h
    ends {s a a'} _ := prompt_marking.scans.throw he s a a' }
  look hview := .lift (prompt_views.look hview) fun h => by
    obtain ⟨-, rfl⟩ := look_eq_ok.mp h
    exact id
  view hx := .lift (prompt_views.lift hx) fun h => by
    obtain ⟨-, rfl⟩ := liftM_eq_ok.mp h
    exact id
  get := {
    grows h := (get_gives.mp h).2.1 ▸ le_rfl
    keeps h hphis := (get_gives.mp h).2.2 ▸ hphis
    ends _ := nofun }
  markUse u := {
    grows h := by
      obtain ⟨-, n, -, hmark⟩ := markUse_eq_ok.mp h
      exact (LiveSet.mark_eq_ok hmark).1
    keeps h hphis := (markUse_eq_ok.mp h).1 ▸ hphis
    ends {s a a'} _ := prompt_marking.scans.markUse u s a a' }
  record i live := .lift (prompt_marking.record i live) fun {a _ _} h hphis => by
    obtain rfl := setInstr_eq_ok.mp h
    exact hphis.of_code (Arena.code_of_unmarked (a.unmarked_record i live))
  countRound := .lift prompt_marking.countRound fun h hphis => by
    cases h
    exact hphis

theorem steady_eliminate (b : BlockId) (i : InstrId) :
    (liftM (eliminate b i) : Scan Unit).Steady bs := by
  refine .lift (prompt_eliminate b i) fun {a _ _} h hphis => ?_
  obtain ⟨-, a₁, hcode, -, -, rfl⟩ := exists_of_eliminate h
  exact (hphis.of_code hcode).without b i

/-! ### New marks -/

theorem card_lt_of_markIncoming {srcs : List (BlockId × UseId)}
    (hsrcs : ∀ src ∈ srcs, ∀ n ∈ a.readNumber? src.2, 0 ≤ n)
    (h : (markIncoming preheader srcs).Gives s a true s' a') : s.marked.card < s'.marked.card := by
  induction srcs generalizing s a with
  | nil => cases h
  | cons src rest ih =>
    obtain ⟨isNew, s₁, a₁, huse, h⟩ := bind_gives.mp h
    obtain ⟨later, s₂, a₂, hrest, h⟩ := bind_gives.mp h
    obtain ⟨hflag, rfl, rfl⟩ := pure_gives.mp h
    obtain ⟨rfl, n, hn, hmark⟩ := markUse_eq_ok.mp huse
    obtain ⟨hle, hlt⟩ := LiveSet.mark_eq_ok hmark
    cases later with
    | true =>
      exact (LiveSet.card_mono hle).trans_lt
        (ih (fun src hsrc => hsrcs src (List.mem_cons_of_mem _ hsrc)) hrest)
    | false =>
      have hnew : isNew = true := by
        rw [Bool.or_false, Bool.and_eq_true] at hflag
        exact hflag.1
      have hscans : HoldsOfScans fun _ x => x.Steady [] := steady_scans
      have hgrows : s₁ ≤ s₂ := (hscans.marks.markIncoming preheader rest).grows hrest
      exact (hlt (hsrcs src List.mem_cons_self n hn) hnew).trans_le (LiveSet.card_mono hgrows)

theorem card_lt_of_markSources {ins : Instr}
    (hsrcs : ∀ src ∈ ins.phiSources, ∀ n ∈ a.readNumber? src.2, 0 ≤ n)
    (h : (markSources preheader ins).Gives s a true s' a') : s.marked.card < s'.marked.card := by
  unfold markSources at h
  split at h
  case h_1 dest srcs hphi =>
    rw [Instr.phiSources, hphi] at hsrcs
    obtain ⟨changed, s₁, a₁, hincoming, hrest⟩ := bind_gives.mp h
    obtain ⟨_, s₂, a₂, hindirect, hpure⟩ := bind_gives.mp hrest
    obtain ⟨rfl, rfl, -⟩ := pure_gives.mp hpure
    have hscans : HoldsOfScans fun _ x => x.Steady [] := steady_scans
    have hgrows : s₁ ≤ s₂ := (hscans.forM fun u _ => hscans.discard (hscans.markUse u)).grows hindirect
    exact (card_lt_of_markIncoming hsrcs hincoming).trans_le (LiveSet.card_mono hgrows)
  case h_2 =>
    obtain ⟨_, s₁, a₁, -, hpure⟩ := bind_gives.mp h
    cases (pure_gives.mp hpure).1

theorem card_lt_of_instr {i : InstrId} {y : Bool × Bool}
    (hi : ∀ ins ∈ a.instrs[i.idx]?, ∀ src ∈ ins.phiSources, ∀ n ∈ a.readNumber? src.2, 0 ≤ n)
    (h : (instr preheader b i).Gives s a y s' a') (hy : y.2 = true) :
    s.marked.card < s'.marked.card := by
  rw [instr] at h
  obtain ⟨ins, s₁, a₁, hlook, h₁⟩ := bind_gives.mp h
  obtain ⟨hins, rfl, rfl⟩ := look_gives.mp hlook
  obtain ⟨live, s₂, a₂, hlive, h₂⟩ := bind_gives.mp h₁
  obtain ⟨changed, s₃, a₃, hmark, h₃⟩ := bind_gives.mp h₂
  obtain ⟨removed, s₄, a₄, hlast, h₄⟩ := bind_gives.mp h₃
  obtain ⟨rfl, rfl, -⟩ := pure_gives.mp h₄
  obtain ⟨-, rfl⟩ := lift_gives.mp hlast
  obtain rfl : changed = true := hy
  cases live with
  | true =>
    have hreads : HoldsOfMarking fun _ x => x.Conserves Arena.readNumber? :=
      ⟨conserves_looks.toHoldsOfViews, fun _ _ => conserves_modify fun _ => rfl,
        conserves_modify fun _ => rfl⟩
    have hsame : a₂.readNumber? = a₁.readNumber? := hreads.scans.marks.isLive ins s₁ hlive
    have hsrcs := hsame ▸ hi ins (Arena.instr_eq_ok.mp hins)
    have hsteady : (isLive ins).Steady [] := steady_scans.marks.isLive ins
    have hgrows : s₁ ≤ s₂ := hsteady.grows hlive
    exact (LiveSet.card_mono hgrows).trans_lt (card_lt_of_markSources hsrcs hmark)
  | false => cases (pure_gives.mp hmark).1

theorem card_lt_of_instrsBelow {n : Nat} {y : Bool × Bool}
    (hphis : a.PhisIndexed bs) (hb : b ∈ bs) (h : (instrsBelow preheader b n).Gives s a y s' a')
    (hy : y.2 = true) : s.marked.card < s'.marked.card := by
  induction n generalizing s a y with
  | zero =>
    obtain ⟨rfl, -⟩ := pure_gives.mp h
    cases hy
  | succ n ih =>
    obtain ⟨i, p, q, s₂, a₂, hi, hinstr, hrest, rfl⟩ := exists_of_instrsBelow h
    rcases Bool.or_eq_true_iff.mp hy with hp | hq
    · have hsteady : (instrsBelow preheader b n).Steady bs :=
        steady_scans.instrsBelow (fun _ => steady_eliminate b) n
      have hgrows : s₂ ≤ s' := hsteady.grows hrest
      exact (card_lt_of_instr (hphis b hb i (List.mem_of_getElem? hi)) hinstr hp).trans_le
        (LiveSet.card_mono hgrows)
    · have hsteady : (instr preheader b i).Steady bs :=
        steady_scans.instr (fun _ => steady_eliminate b) i
      exact (LiveSet.card_mono (hsteady.grows hinstr)).trans_lt
        (ih (hsteady.keeps hinstr hphis) hrest hq)

theorem card_lt_of_round {always : Bool} {front header : BlockId} {inner : Region}
    (hinner : (region always (some front) (.ok header) inner).Steady bs) (hheader : header ∈ bs)
    (hphis : a.PhisIndexed bs) (h : (round always front header inner).Gives s a true s' a') :
    s.marked.card < s'.marked.card := by
  obtain ⟨_, s₁, a₁, hrun, h₁⟩ := bind_gives.mp h
  obtain ⟨p, s₂, a₂, hblock, h₂⟩ := bind_gives.mp h₁
  obtain ⟨hp, rfl, rfl⟩ := pure_gives.mp h₂
  obtain ⟨-, hbelow⟩ := block_gives.mp hblock
  have hsteady := steady_scans.discard hinner
  exact (LiveSet.card_mono (hsteady.grows hrun)).trans_lt
    (card_lt_of_instrsBelow (hsteady.keeps hrun hphis) hheader hbelow hp)

/-! ### Rounds -/

section Rounds

variable {round : Scan Bool} (hround : round.Steady bs)

include hround

theorem Steady.of_rounds {n : Nat} (h : (rounds round n).Gives s a () s' a') :
    s ≤ s' ∧ (a.PhisIndexed bs → a'.PhisIndexed bs) := by
  induction n generalizing s a with
  | zero => cases h
  | succ n ih =>
    obtain ⟨_, s₁, a₁, hcount, h₁⟩ := bind_gives.mp h
    obtain ⟨again, s₂, a₂, hfirst, h₂⟩ := bind_gives.mp h₁
    have hkeeps : a.PhisIndexed bs → a₂.PhisIndexed bs := fun hphis =>
      hround.keeps hfirst (steady_scans.countRound.keeps hcount hphis)
    obtain ⟨-, rfl⟩ := lift_gives.mp hcount
    have hle := hround.grows hfirst
    cases again with
    | true => exact ⟨hle.trans (ih h₂).1, fun hphis => (ih h₂).2 (hkeeps hphis)⟩
    | false =>
      obtain ⟨-, rfl, rfl⟩ := pure_gives.mp h₂
      exact ⟨hle, hkeeps⟩

variable (hnew : ∀ {s a s' a'}, a.PhisIndexed bs → round.Gives s a true s' a' →
  s.marked.card < s'.marked.card)

include hnew

/-- Rounds that end need not be more than the marks that they add, and one. -/
theorem rounds_of_new {n m : Nat} (hphis : a.PhisIndexed bs)
    (h : (rounds round n).Gives s a () s' a') (hm : s'.marked.card < m + s.marked.card) :
    (rounds round m).Gives s a () s' a' := by
  induction n generalizing s a m with
  | zero => cases h
  | succ n ih =>
    have hle := LiveSet.card_mono (hround.of_rounds h).1
    obtain ⟨m, rfl⟩ : ∃ k, m = k + 1 := ⟨m - 1, by omega⟩
    obtain ⟨_, s₁, a₁, hcount, h₁⟩ := bind_gives.mp h
    obtain ⟨again, s₂, a₂, hfirst, h₂⟩ := bind_gives.mp h₁
    refine .bind hcount (.bind hfirst ?_)
    have hphis₁ : a₁.PhisIndexed bs := steady_scans.countRound.keeps hcount hphis
    obtain ⟨-, rfl⟩ := lift_gives.mp hcount
    cases again with
    | true =>
      have hlt := hnew hphis₁ hfirst
      exact ih (hround.keeps hfirst hphis₁) h₂ (by omega)
    | false => exact h₂

theorem rounds_end {n : Nat} (hphis : a.PhisIndexed bs) (hn : s.marks.size < n + s.marked.card) :
    (rounds round n).run s a ≠ .error .endless a' := by
  induction n generalizing s a with
  | zero => exact absurd s.card_marked_le (by omega)
  | succ n ih =>
    intro herr
    -- The round is counted first, which no reading of the arena depends on.
    have hphis₁ : (a.recount fun c => { c with loopRounds := c.loopRounds + 1 }).PhisIndexed bs := hphis
    rcases bind_error herr with hfirst | ⟨q, a₂, hfirst, hlast⟩
    · exact hround.ends hphis₁ hfirst
    obtain ⟨again, s₂⟩ := q
    cases again with
    | true =>
      have hlt := hnew hphis₁ hfirst
      have hsize := (hround.grows hfirst).1
      exact ih (hround.keeps hfirst hphis₁) (by omega) hlast
    | false => cases hlast

theorem steady_visit : (do rounds round ((← get).marks.size + 1) : Scan Unit).Steady bs where
  grows h := (hround.of_rounds h).1
  keeps h := (hround.of_rounds h).2
  ends {s _ _} hphis :=
    rounds_end hround hnew hphis (by omega : s.marks.size < s.marks.size + 1 + s.marked.card)

end Rounds

theorem steady_round {always : Bool} {front header : BlockId} {inner : Region}
    (hinner : (region always (some front) (.ok header) inner).Steady bs) :
    (round always front header inner).Steady bs :=
  steady_scans.bind (steady_scans.discard hinner) fun _ =>
    steady_scans.bind (steady_scans.block fun _ => steady_eliminate header) fun _ => steady_scans.pure _

/-- The scan of a region ends, whatever is wrong with the region. -/
theorem steady_region {always : Bool} {before : Except Fault BlockId}
    (hbefore : Clean before) {r : Region} (hr : r.preorder ⊆ bs) :
    (region always preheader before r).Steady bs :=
  steady_scans.region (fun hheader hinner => steady_visit (steady_round hinner)
    (card_lt_of_round hinner hheader)) hbefore hr fun _ b _ => steady_eliminate b

end Scan

namespace Edit

/-- Removing dead code ends, in a function whose lists make up a finite tree and in which no source
of a φ has a number below zero. Nothing else has to be right about the function. A visit of a loop,
with whatever marks and after whatever was taken out, makes at most one round more than it adds
marks. -/
theorem removeDead_ends {f : FunctionId} {always : Bool} {a : Arena} {r : Region}
    (hr : a.bodyRegion f = .ok r) (hphis : a.PhisIndexed r.preorder) :
    (∀ a', removeDead f always a ≠ .error .endless a')
      ∧ ∀ {front header : BlockId} {inner : Region} {s s' : LiveSet} {a₁ a₂ : Arena},
        header ∈ r.preorder → inner.preorder ⊆ r.preorder → a₁.PhisIndexed r.preorder →
        (Scan.rounds (Scan.round always front header inner) (s.marks.size + 1)).Gives s a₁ () s' a₂ →
          s.marked ⊆ s'.marked ∧ a₂.PhisIndexed r.preorder
          ∧ (Scan.rounds (Scan.round always front header inner)
              (s'.marked.card - s.marked.card + 1)).Gives s a₁ () s' a₂ := by
  constructor
  · intro a' herr
    rcases bind_error herr with hlook | ⟨g, a₁, hlook, h₁⟩
    · exact prompt_views.look (fun a => a.clean_function f) _ _ hlook
    obtain ⟨-, rfl⟩ := look_eq_ok.mp hlook
    rcases bind_error h₁ with hmake | ⟨live, a₂, hmake, h₂⟩
    · exact prompt_views.lift (LiveSet.clean_ofCount _) _ _ hmake
    obtain ⟨-, rfl⟩ := liftM_eq_ok.mp hmake
    rcases bind_error h₂ with hread | ⟨r', a₃, hread, h₃⟩
    · simp [look, hr] at hread
    obtain ⟨hr', rfl⟩ := look_eq_ok.mp hread
    cases hr.symm.trans hr'
    rcases bind_error h₃ with hscan | ⟨progress, a₄, -, h₄⟩
    · rcases bind_error (x := (Scan.region always none (.error .outOfRange) r).run live) hscan
        with hregion | ⟨_, _, _, hpure⟩
      · exact (Scan.steady_region (by simp) (List.Subset.refl _)).ends hphis hregion
      · cases hpure
    · cases h₄
  · intro front header inner s s' a₁ a₂ hheader hinner hphis₁ hrounds
    have hbody : (Scan.region always (some front) (.ok header) inner).Steady r.preorder :=
      Scan.steady_region (clean_ok header) hinner
    have hround := Scan.steady_round hbody
    obtain ⟨hle, hkeeps⟩ := hround.of_rounds hrounds
    refine ⟨hle.2, hkeeps hphis₁, Scan.rounds_of_new hround (Scan.card_lt_of_round hbody hheader) hphis₁
      hrounds ?_⟩
    have hcard := LiveSet.card_mono hle
    omega

/-- The loop of `countedLoop` is gone through until the counter, its initial value and the sum are
marked. -/
theorem removeDead_ends_countedLoop : ∃ r inner s s' a₁,
    countedLoop.built.bodyRegion ⟨0⟩ = .ok r ∧ countedLoop.built.PhisIndexed r.preorder
      ∧ (∀ a', removeDead ⟨0⟩ true countedLoop.built ≠ .error .endless a')
      ∧ s.marked.card = 0 ∧ s'.marked.card = 3
      ∧ (Scan.rounds (Scan.round true ⟨1⟩ ⟨2⟩ inner) 4).Gives s countedLoop.built () s' a₁ := by
  obtain ⟨r, hr, hphis, hheader, hinner⟩ : ∃ r ∈ (countedLoop.built.bodyRegion ⟨0⟩).toOption,
      countedLoop.built.PhisIndexed r.preorder ∧ ⟨2⟩ ∈ r.preorder
        ∧ Region.preorder (.branch ⟨1⟩ (.block ⟨4⟩ .done) (.block ⟨3⟩ .done) (.block ⟨5⟩ .done))
          ⊆ r.preorder := by
    decide +kernel
  obtain ⟨s, hs, p, hp, hs', hzero⟩ : ∃ s ∈ (LiveSet.ofCount 3).toOption, ∃ p ∈ result?
      ((Scan.rounds (Scan.round true ⟨1⟩ ⟨2⟩ (.branch ⟨1⟩ (.block ⟨4⟩ .done) (.block ⟨3⟩ .done)
        (.block ⟨5⟩ .done))) (s.marks.size + 1)).run s) countedLoop.built,
      p.2.marked.card = 3 ∧ s.marked.card = 0 := by
    decide +kernel
  obtain ⟨a₁, hrun⟩ := result?_eq_some.mp hp
  have hr := eq_ok_of_mem_toOption hr
  obtain ⟨hends, hrounds⟩ := @removeDead_ends ⟨0⟩ true _ r hr hphis
  obtain ⟨-, -, hfew⟩ := hrounds hheader hinner hphis hrun
  rw [hs', hzero] at hfew
  exact ⟨r, _, s, p.2, a₁, hr, hphis, hends, hzero, hs', hfew⟩

end Edit

end ShaderCompiler
