import ShaderCompiler.Proofs.Passes.Orderly

/-!
# Forwarding keeps functions in order

A run takes out copies and lets uses read what the copies read. A copy stands behind what it reads
and in front of its uses, so readings stay behind their definitions in program order, also where
the check does not look at them.
-/

namespace ShaderCompiler

variable {Ts : List Scope}

namespace Arena

variable {a a' : Arena} {f : FunctionId} {T : Scope} {U : UseId → Prop} {b home : BlockId}
  {d e i : InstrId} {u : UseId} {v : ValueId} {k : Nat}

/-- The steps of a run are changes that passes make. -/
theorem Forwards.evolves_of_mem (h : Forwards Ts U a a') (hT : T ∈ Ts) :
    Evolves T a a' := by
  induction h with
  | refl => exact .refl T _
  | tail _ hstep ih =>
    refine ih.trans ?_
    cases hstep with
    | turn hs hi huse hval _ ho ht =>
      refine .turned ht fun use' w huse' hw hdef => ?_
      cases huse.symm.trans huse'
      cases hval.symm.trans hw
      exact hs.defined_of_offers hi ho hT hdef
    | take _ _ _ _ hcode => exact (Loses.of_without hcode).evolves
    | same hcode => exact .of_code hcode

theorem Forwards.evolves (h : Forwards [T] U a a') : Evolves T a a' :=
  h.evolves_of_mem (List.mem_singleton_self T)

theorem Forwards.functions (h : Forwards Ts U a a') :
    a'.code.functions = a.code.functions :=
  h.conserves (q := (·.functions)) (fun ht _ => ht.functions) fun _ _ _ => rfl

/-- Only uses that are known to the use-lists are turned. -/
theorem Forwards.uses (h : Forwards Ts U a a') (hu : ¬ U u) :
    a'.code.uses[u.idx]? = a.code.uses[u.idx]? := by
  refine h.conserves (q := (·.uses[u.idx]?)) (fun {x y t v z} ht hU => ?_) fun _ _ _ => rfl
  have hne : u ≠ t := fun heq => hu (heq ▸ hU)
  rw [show _ = _ from ht, modifyUse_uses, if_neg hne]

/-- Only operations are taken out. -/
theorem Forwards.mem_body (h : Forwards [T] U a a') (hi : i ∈ a.body b) {ins : Instr}
    (hins : a.instrs[i.idx]? = some ins) (hact : ∀ p, ins.action ≠ .alu p) : i ∈ a'.body b := by
  induction h with
  | refl => exact hi
  | @tail x y hsteps hstep ih =>
    cases hstep with
    | turn _ _ _ _ _ _ ht => rwa [body_of_blocks ht.blocks]
    | @take j c p _ _ _ hj _ _ hcode =>
      obtain ⟨-, -, -, -, jns, hjns, -, hjact, -⟩ := hj
      have hij : i ≠ j := by
        rintro rfl
        obtain ⟨ins', hins', hact', -⟩ := Forwards.evolves hsteps |>.instr i ins hins
        cases hjns.symm.trans hins'
        exact hact p (hact'.symm.trans hjact)
      exact (Loses.of_without hcode).kept b i ih (by simpa using hij)
    | same hcode => rwa [body_of_code hcode]

/-! ### Readings stay behind their definitions -/

/-- The places where a reading has to find its definition, whether the check looks there or
not. -/
def PlacedAt (a : Arena) (f : FunctionId) (u : UseId) (b : BlockId) (k : Nat) : Prop :=
  (∃ reader, a.AskedAt f u b reader ∧ a.placeOf b reader = k) ∨ a.UncheckedAt f u b k

/-- What stands in front of an instruction stands in front of all places behind it. -/
theorem StandsBefore.trans (hdistinct : a.InstrsDistinct f) (hnodup : (a.scopeOf f).blocks.Nodup)
    (hhome : home ∈ (a.scopeOf f).blocks) (hb : b ∈ (a.scopeOf f).blocks) (hi : i ∈ a.body home)
    (hd : a.StandsBefore f d home ((a.body home).idxOf i)) (h : a.StandsBefore f i b k) :
    a.StandsBefore f d b k := by
  rcases h with htake | ⟨home', hi', hsub⟩
  · obtain rfl := hdistinct.home_eq hhome hb hi (List.mem_of_mem_take htake)
    refine hd.imp (fun hd => ?_) id
    have hlt := lt_of_mem_take (hdistinct.nodup_body hhome) (getElem?_idxOf_of_mem hi) htake
    exact List.take_subset_take_left _ hlt.le hd
  · obtain rfl := hdistinct.home_eq hhome (hsub.subset (by simp)) hi hi'
    rcases hd with hd | ⟨home', hd, hsub'⟩
    · exact .inr ⟨home, List.mem_of_mem_take hd, hsub⟩
    · exact .inr ⟨home', hd, pair_sublist_trans hnodup hsub' hsub⟩

/-- Readings stay behind their definitions, since copies stand in between. -/
theorem Forwards.standsBefore (h : Forwards [a.scopeOf f] U a a') (hw : a.Wired (a.scopeOf f))
    (hdistinct : a.InstrsDistinct f) (hnodup : (a.scopeOf f).blocks.Nodup)
    (hplaced : ∀ u b k, a.PlacedAt f u b k → b ∈ (a.scopeOf f).blocks)
    (hstart : ∀ u b k, a.PlacedAt f u b k → ∀ use v e, a.uses[u.idx]? = some use →
      use.value = some v → a.StandsFor f e v → a.StandsBefore f e b k)
    (hu : a.PlacedAt f u b k) {use : Use} (huse : a'.uses[u.idx]? = some use)
    (hval : use.value = some v) (he : a.StandsFor f e v) : a.StandsBefore f e b k := by
  induction h generalizing u b k use v e with
  | refl => exact hstart u b k hu use v e huse hval he
  | @tail x y hsteps hstep ih =>
    cases hstep with
    | @turn i c p d w t tuse z hs hi htuse htval hf ho ht =>
      by_cases hut : u = t
      · subst hut
        obtain ⟨m, huse'⟩ := ht.use_self htuse
        cases huse.symm.trans huse'
        obtain rfl : w = v := Option.some.inj hval
        -- The copy stands in front of the reading, and behind what it reads.
        obtain ⟨T, hT, hc, hmem, ins, hins, -, hact, hdest, -⟩ := hi
        obtain rfl := List.mem_singleton.mp hT
        obtain ⟨hmem₀, ins₀, hins₀, hact₀, -⟩ :=
          (Forwards.evolves hsteps).exists_before hw hc hmem hins
        rw [hact] at hact₀
        obtain ⟨src, suse, hsrc, hsuse, hsval⟩ := ho
        have hcopy : a.StandsFor f i d :=
          ⟨c, hc, hmem₀, ins₀, hins₀, by simp [Instr.definitions, ← hact₀, hdest]⟩
        have hasked : a.AskedAt f src c (some i) :=
          .source hc hmem₀ hins₀ (Instr.mem_sources_of_alu hact₀.symm hsrc)
            (by simp [Instr.incoming, ← hact₀])
        exact StandsBefore.trans hdistinct hnodup hc (hplaced u b k hu) hmem₀
          (ih (.inl ⟨some i, hasked, rfl⟩) hsuse hsval he) (ih hu htuse htval hcopy)
      · obtain ⟨use₀, huse₀⟩ : ∃ use₀, x.uses[u.idx]? = some use₀ := by
          have hget := ht.uses_get u
          rw [if_neg hut, huse, Option.map_some, eq_comm, Option.map_eq_some_iff] at hget
          exact ⟨_, hget.choose_spec.1⟩
        obtain ⟨m, huse'⟩ := ht.use_other hut huse₀
        cases huse.symm.trans huse'
        exact ih hu huse₀ hval he
    | take _ _ _ _ hcode =>
      obtain ⟨m, huse₀⟩ := use_of_code hcode.symm huse
      exact ih hu huse₀ hval he
    | same hcode =>
      obtain ⟨m, huse₀⟩ := use_of_code hcode.symm huse
      exact ih hu huse₀ hval he

/-! ### The function of a run -/

theorem Obeys.mem_of_placedAt {g : Function} {region : Region} (hr : a.Obeys f g region)
    (h : a.PlacedAt f u b k) : b ∈ (a.scopeOf f).blocks := by
  rcases h with ⟨reader, hasked, -⟩ | ⟨hasked, -⟩ | ⟨hregion, hc, -, -⟩
  · exact hr.mem_of_askedAt hasked
  · exact hr.mem_of_askedAt hasked
  · cases hr.bodyRegion.symm.trans hregion
    obtain ⟨-, -, hsub, -⟩ := Region.branching_of_mem hc hr.shaped.2.structured
    rw [hr.scope_blocks, Region.blocks_eq_preorder]
    exact List.mem_append_left _ (hsub.subset (by simp [Region.preorder]))

/-- Before the run every copy may have uses that can be turned. -/
theorem pending_scope (a : Arena) (T : Scope) :
    a.Pending [T] fun b _ _ _ => False ∨ b ∈ T.blocks := by
  rintro i b p d x ⟨T', hT', hb, -⟩ - c u -
  exact .inr (.inr (List.mem_singleton.mp hT' ▸ hb))

/-- A function that passes the check and is in order does and is so after a run. -/
theorem Orderly.forward (ho : a.Orderly f) (hacc : a.Accepted f) {progress : Bool}
    (hrun : Edit.forwardCopies f a = .ok progress a') :
    Forwards [a.scopeOf f] (a.Reads (a.scopeOf f)) a a' ∧ a'.Accepted f ∧ a'.Orderly f := by
  obtain ⟨g, region, hf⟩ :=
    forwardable_of_accepted hacc ho.edges ho.distinct ho.lists ho.own ho.wide
  obtain ⟨a₁, _, _, tree, defs, hc⟩ := hacc.checked
  have hkept : Kept a f a' := by
    rcases Edit.exists_forwardCopiesWithin hf.toRunnable queueBound with
      ⟨_, hendless, -⟩ | ⟨_, _, hrun', hk, -⟩
    · rw [← Edit.forwardCopies_eq_within, hrun] at hendless
      cases hendless
    · rw [← Edit.forwardCopies_eq_within, hrun] at hrun'
      cases hrun'
      exact hk
  obtain ⟨-, hsteps, -⟩ := Edit.forwardCopies_spec (List.mem_singleton_self _) hf.obeys.blocksOf
    hf.sound (pending_scope a _) hrun
  have hup := hkept.upholds hf
  have hnodup : (a.scopeOf f).blocks.Nodup := hf.obeys.scope_blocks ▸ hf.obeys.nodup
  refine ⟨hsteps, hup.accepted hf.obeys hf.within hf.distinct,
    hup.sweepable hf.obeys ho.toSweepable (fun b hb i hi ins kind hins hact => ?_)
      (fun u b k hun _ use v d huse hval hd => ?_) (hkept.listsRead hf) hf.within,
    hkept.listsOwn hf, hup.valuesHaveLanes hf.obeys ho.wide⟩
  · exact hsteps.mem_body hi hins (by simp [hact])
  · refine hsteps.standsBefore hf.obeys.wired ho.distinct hnodup
      (fun u b k => hf.obeys.mem_of_placedAt) ?_ (.inr hun) huse hval
      (hup.evolves.standsFor hf.obeys.function hf.obeys.wired hd)
    rintro u b k (⟨reader, hasked, rfl⟩ | hun) use v e huse hval he
    · exact hc.standsBefore ho.edges ho.distinct ho.unchecked hasked huse hval he
    · exact ho.unchecked u b k hun use v e huse hval he

end Arena

end ShaderCompiler
