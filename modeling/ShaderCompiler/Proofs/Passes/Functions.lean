import ShaderCompiler.Proofs.Passes.Spares

/-!
# Passes on functions side by side

Functions that pass the check and are in order share neither instructions nor values: a block
belongs to the region of one function only, and the last blocks, which belong to no region, are
empty. So while a pass works on one function the others are spared, and all of them pass the
check again and stay in order.
-/

namespace ShaderCompiler

namespace Arena

variable {a a' : Arena} {e f : FunctionId} {fs : List FunctionId} {b : BlockId} {i : InstrId}
  {u : UseId} {v : ValueId}

/-- The functions pass the check and are in order. -/
def InOrder (a : Arena) (fs : List FunctionId) : Prop :=
  ∀ f ∈ fs, a.Accepted f ∧ a.Orderly f

/-! ### Functions share nothing -/

section Apart

variable {a₁ a₂ : Arena} {g g' : Function} {region r : Region} {tree tree' : Dominance}
  {defs defs' : Edit.Definitions} (hf : a.Checked f a₁ g region tree defs)
  (he : a.Checked e a₂ g' r tree' defs') (hf₀ : a.FinishEmpty f) (he₀ : a.FinishEmpty e)
  (hne : f ≠ e)

include hf he hf₀ he₀ hne

theorem Checked.notMem_blocks (hb : b ∈ (a.scopeOf f).blocks) (hi : i ∈ a.body b) :
    b ∉ (a.scopeOf e).blocks := fun hb' =>
  hne (hf.shaped.owned.function_eq he.shaped.owned (hf.mem_preorder_of_mem_body hf₀ hb hi)
    (he.mem_preorder_of_mem_body he₀ hb' hi))

theorem Checked.not_defined (hv : (a.scopeOf f).defined v) : ¬ (a.scopeOf e).defined v := by
  intro hv'
  obtain ⟨d, hd⟩ := defined_iff_standsFor.mp hv
  obtain ⟨d', hd'⟩ := defined_iff_standsFor.mp hv'
  obtain ⟨x, hx, hby⟩ := hd.definedBy hf.wired
  obtain ⟨x', hx', hby'⟩ := hd'.definedBy he.wired
  cases hx.symm.trans hx'
  obtain rfl : d = d' := Option.some.inj (hby.symm.trans hby')
  obtain ⟨home, hhome, hmem, dns, hdns, -⟩ := hd
  obtain ⟨home', hhome', hmem', dns', hdns', -⟩ := hd'
  cases hdns.symm.trans hdns'
  have hplace := hf.homed.place home hhome d hmem dns hdns
  rw [he.homed.place home' hhome' d hmem' dns hdns, Option.some.injEq] at hplace
  exact hf.notMem_blocks he hf₀ he₀ hne hhome hmem (hplace ▸ hhome')

end Apart

namespace InOrder

variable (h : a.InOrder fs)

include h

theorem listsRead : a.ListsRead (fs.map a.scopeOf) := by
  intro v hv
  obtain ⟨f, hf, hdef⟩ := definedBy_scopes.mp hv
  exact (h f hf).2.lists v (definedBy_singleton.mpr hdef)

theorem listsOwn : a.ListsOwn (fs.map a.scopeOf) := by
  intro v hv x hx c u hu
  obtain ⟨f, hf, hdef⟩ := definedBy_scopes.mp hv
  obtain ⟨T, hT, hread⟩ := (h f hf).2.own v (definedBy_singleton.mpr hdef) x hx c u hu
  exact ⟨a.scopeOf f, List.mem_map_of_mem hf, List.mem_singleton.mp hT ▸ hread⟩

theorem sound : a.Sound (fs.map a.scopeOf) (a.InUse (fs.map a.scopeOf)) :=
  sound_of_accepted fs (fun f hf => (h f hf).1) h.listsRead h.listsOwn

theorem not_defined (hf : f ∈ fs) (he : e ∈ fs) (hne : f ≠ e) (hv : (a.scopeOf f).defined v) :
    ¬ (a.scopeOf e).defined v := by
  obtain ⟨_, _, _, _, _, hcf⟩ := (h f hf).1.checked
  obtain ⟨_, _, _, _, _, hce⟩ := (h e he).1.checked
  exact hcf.not_defined hce (h f hf).2.finish (h e he).2.finish hne hv

/-- Use-lists of a function that was spared stay exact, since uses of other functions still read
values of these. -/
theorem listsExact (hev : ∀ e ∈ fs, Evolves (a.scopeOf e) a a')
    (hs' : a'.Sound (fs.map a.scopeOf) (a.InUse (fs.map a.scopeOf))) (he : e ∈ fs)
    (hsp : Spares (a.scopeOf e) a a') : a'.ListsExact (a.scopeOf e) := by
  intro v hv x hx c k u hk
  have hV := definedBy_scopes.mpr ⟨e, he, hv⟩
  refine ⟨?_, hs'.lists.entry v x hV hx c k u hk⟩
  obtain ⟨hU, -, use', huse', hval', -⟩ := hs'.entry hV hx (List.mem_of_getElem? hk)
  obtain ⟨T, hT, hread⟩ : ∃ T ∈ fs.map a.scopeOf, a.Reads T u := by
    rcases hU with hread | ⟨w, y, c', hw, hy, hmem⟩
    · exact hread
    · exact h.listsOwn w hw y hy c' u hmem
  obtain ⟨e', he', rfl⟩ := List.mem_map.mp hT
  have hwired := h.sound.wired _ hT
  by_cases hee : e' = e
  · subst hee
    exact (hsp.reads_iff hwired).mpr hread
  · obtain ⟨use, w, -, huse, hval, -⟩ := h.sound.lists.slot u (.inl ⟨_, hT, hread⟩)
    obtain ⟨use'', huse'', -, -, -, -, hvalue⟩ := (hev e' he').use u use huse
    cases huse'.symm.trans huse''
    obtain ⟨w', hw', hdef⟩ := hvalue w hval (hwired.defined_of_reads hread huse hval)
    cases hval'.symm.trans hw'
    exact absurd hv (h.not_defined he' he hee hdef)

/-- A function that was spared passes the check again and stays in order. -/
theorem spared (hev : ∀ e ∈ fs, Evolves (a.scopeOf e) a a')
    (hs' : a'.Sound (fs.map a.scopeOf) (a.InUse (fs.map a.scopeOf))) (he : e ∈ fs)
    (hsp : Spares (a.scopeOf e) a a') : a'.Accepted e ∧ a'.Orderly e :=
  hsp.keeps (h e he).1 (h e he).2 (fun _ hu => hs'.listed_of_reads (List.mem_map_of_mem he) hu)
    (h.listsExact hev hs' he hsp)

/-! ### The passes -/

/-- Forwarding the copies of a function keeps functions in order. -/
theorem forward (hf : f ∈ fs) {progress : Bool} (hrun : Edit.forwardCopies f a = .ok progress a') :
    a'.InOrder fs := by
  obtain ⟨hacc, ho⟩ := h f hf
  obtain ⟨hsteps, hkept⟩ := ho.forward hacc hrun
  obtain ⟨_, _, _, _, _, hc⟩ := hacc.checked
  obtain ⟨hs', -⟩ := Edit.forwardCopies_spec (Q := fun _ => True) (List.mem_map_of_mem hf)
    (hc.obeys ho.edges ho.distinct).blocksOf h.sound (fun _ _ _ _ _ _ _ _ _ _ => .inr (.inl trivial))
    hrun
  have hsp (e : FunctionId) (he : e ∈ fs) (hne : f ≠ e) : Spares (a.scopeOf e) a a' := by
    obtain ⟨_, _, _, _, _, hce⟩ := (h e he).1.checked
    exact hsteps.spares hc.wired hce.wired hce.homed (fun v => h.not_defined hf he hne)
      fun b hb i hi => hc.notMem_blocks hce ho.finish (h e he).2.finish hne hb hi
  have hev (e : FunctionId) (he : e ∈ fs) : Evolves (a.scopeOf e) a a' := by
    by_cases hfe : f = e
    · exact hfe ▸ hsteps.evolves
    · exact (hsp e he hfe).evolves
  intro e he
  by_cases hfe : f = e
  · exact hfe ▸ hkept
  · exact h.spared hev hs' he (hsp e he hfe)

/-- Removing the dead code of a function goes well and keeps functions in order. -/
theorem sweep (hf : f ∈ fs) (always : Bool) : ∃ progress a',
    Edit.removeDead f always a = .ok progress a' ∧ a'.InOrder fs
      ∧ a'.code.functions = a.code.functions := by
  obtain ⟨hacc, ho⟩ := h f hf
  obtain ⟨_, g, region, _, _, hc⟩ := hacc.checked
  obtain ⟨s, hp⟩ := hc.prunable fs hf (fun e he => (h e he).1) h.listsRead ho.loops ho.known ho.count
  have hfinds := hc.finds_scanned hp ho.edges ho.distinct ho.numbers ho.unchecked always
  obtain ⟨progress, a', hrun, hswept, -⟩ := hp.run always
  refine ⟨progress, a', hrun, fun e he => ?_, congrArg (·.functions) hswept.code⟩
  by_cases hfe : f = e
  · subst hfe
    have hV (v : ValueId) (hv : (a.scopeOf f).defined v) : DefinedBy (fs.map a.scopeOf) v :=
      definedBy_scopes.mpr ⟨f, hf, hv⟩
    obtain ⟨hup, hacc', hs'⟩ := Swept.keeps hswept hp hc hV ho.toSweepable hp.reads
      fun u hu use v huse hval => hc.stands_of_swept ho.finish hp hfinds hswept hu huse hval
    have hr := hc.obeys ho.edges ho.distinct
    exact ⟨hacc', hs', Swept.listsOwn hswept hp hc hV hr ho.own, hup.valuesHaveLanes hr ho.wide⟩
  · obtain ⟨_, _, _, _, _, hce⟩ := (h e he).1.checked
    refine h.spared (fun _ _ => hswept.evolves) (h.sound.sweep hswept hp) he
      (Swept.spares hswept hp hce.wired hce.homed fun b hb i hi hmem => ?_)
    exact hce.notMem_blocks hc (h e he).2.finish ho.finish (Ne.symm hfe) hb hi (hp.blocks hmem)

end InOrder

end Arena

end ShaderCompiler
