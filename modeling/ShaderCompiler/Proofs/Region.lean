import ShaderCompiler.Proofs.Edit
import ShaderCompiler.Check

/-!
# Regions and their owners

The stack walk of a region yields its preorder. A region depends on the item lists of the
arena only, so changes that leave those alone leave it alone.

Every item of a list points to the owner of the list. Following these pointers from a block
leads to one function, hence the regions of two functions have no block in common.
-/

namespace ShaderCompiler

variable {r : Region} {f g : FunctionId} {o : Owner} {b : BlockId}

namespace Region

theorem size_pos (r : Region) : 0 < r.size := by
  cases r <;> simp [size]

namespace Node

/-- The steps that a walk of a node takes at most. -/
def size : Node → Nat
  | .block _ => 1
  | .branch yes no => yes.size + no.size
  | .loop body => body.size

/-- The blocks of a node in program order. -/
def preorder : Node → List BlockId
  | .block b => [b]
  | .branch yes no => yes.preorder ++ no.preorder
  | .loop body => body.preorder

theorem size_pos (node : Node) : 0 < node.size := by
  cases node with
  | block b => exact Nat.one_pos
  | branch yes no => exact Nat.add_pos_left yes.size_pos _
  | loop body => exact body.size_pos

end Node

theorem flatMap_nodes (r : Region) : r.nodes.flatMap Node.preorder = r.preorder := by
  induction r with
  | done => rfl
  | block _ _ ih | branch _ _ _ _ _ _ ih | loop _ _ _ _ ih =>
    simp [nodes, Node.preorder, preorder, ih]

theorem sum_nodes_lt (r : Region) : (r.nodes.map Node.size).sum < r.size := by
  induction r with
  | done => simp [nodes, size]
  | block _ _ ih | branch _ _ _ _ _ _ ih | loop _ _ _ _ ih =>
    simp only [nodes, List.map_cons, List.sum_cons, Node.size, size]
    omega

/-- A stack walk with enough steps for its nodes yields their preorders. -/
theorem unstack_eq_flatMap (n : Nat) (stack : List Node) (h : (stack.map Node.size).sum ≤ n) :
    unstack n stack = stack.flatMap Node.preorder := by
  induction n generalizing stack with
  | zero =>
    cases stack with
    | nil => rfl
    | cons node stack =>
      have := node.size_pos
      simp only [List.map_cons, List.sum_cons] at h
      omega
  | succ n ih =>
    cases stack with
    | nil => rfl
    | cons node stack =>
      cases node with
      | block b =>
        simp only [Node.size, List.map_cons, List.sum_cons] at h
        rw [unstack, ih stack (by omega)]
        rfl
      | branch yes no =>
        have hyes := yes.sum_nodes_lt
        have hno := no.sum_nodes_lt
        simp only [Node.size, List.map_cons, List.sum_cons] at h
        rw [unstack, ih _ (by simp only [List.map_append, List.sum_append]; omega)]
        simp [flatMap_nodes, Node.preorder]
      | loop body =>
        have hbody := body.sum_nodes_lt
        simp only [Node.size, List.map_cons, List.sum_cons] at h
        rw [unstack, ih _ (by simp only [List.map_append, List.sum_append]; omega)]
        simp [flatMap_nodes, Node.preorder]

/-- The stack walk of a region is its preorder. -/
theorem blocks_eq_preorder (r : Region) : r.blocks = r.preorder := by
  rw [blocks, unstack_eq_flatMap _ _ r.sum_nodes_lt.le, flatMap_nodes]

/-- Whether a region starts with a block. -/
def StartsWithBlock : Region → Prop
  | .block _ _ => True
  | _ => False

/-- Every list that a construct owns starts with a block. -/
def Structured : Region → Prop
  | .done => True
  | .block _ rest => rest.Structured
  | .branch _ yes no rest =>
      (yes.StartsWithBlock ∧ yes.Structured) ∧ (no.StartsWithBlock ∧ no.Structured)
        ∧ rest.Structured
  | .loop _ body rest => (body.StartsWithBlock ∧ body.Structured) ∧ rest.Structured

theorem StartsWithBlock.exists_eq (h : r.StartsWithBlock) :
    ∃ b rest, r = .block b rest := by
  cases r with
  | block b rest => exact ⟨b, rest, rfl⟩
  | done => exact h.elim
  | branch => exact h.elim
  | loop => exact h.elim

end Region

namespace Arena

variable {a a' : Arena}

/-! ### What a region depends on -/

theorem layer_congr (h : a'.constructs = a.constructs) (enter : List Item → Except Fault Region)
    (items : List Item) : a'.layer enter items = a.layer enter items := by
  induction items with
  | nil => rfl
  | cons item rest ih =>
    cases item with
    | block b => simp only [layer, ih]
    | construct c => simp only [layer, ih, construct, h]

theorem regionAt_congr (h : a'.constructs = a.constructs) (depth : Nat) :
    a'.regionAt depth = a.regionAt depth := by
  induction depth with
  | zero => exact funext fun items => layer_congr h _ items
  | succ depth ih =>
    funext items
    rw [regionAt, regionAt, ih, layer_congr h]

theorem bodyRegion_congr (hc : a'.constructs = a.constructs)
    (hf : (a'.functions[f.idx]?).map Function.body = (a.functions[f.idx]?).map Function.body) :
    a'.bodyRegion f = a.bodyRegion f := by
  simp only [bodyRegion, function, region, hc, regionAt_congr hc]
  obtain ⟨hg', hg⟩ | ⟨g', g, hg', hg, hbody⟩ := map_eq_map_cases hf
  · rw [hg', hg]
  · rw [hg', hg]
    exact congrArg (a.regionAt a.constructs.size) hbody

/-! ### Owners -/

/-- Following owners from `o` leads to function `f`. -/
inductive RootedIn (a : Arena) (f : FunctionId) : Owner → Prop
  | function : RootedIn a f (.function f)
  | construct {c : ConstructId} {x : Construct} {o : Owner} (hc : a.constructs[c.idx]? = some x)
      (hp : x.parent = some o) (ho : RootedIn a f o) : RootedIn a f (.construct c)

theorem RootedIn.function_eq (hf : RootedIn a f o)
    (hg : RootedIn a g o) : f = g := by
  induction hf with
  | function =>
    cases hg
    rfl
  | construct hc hp _ ih =>
    cases hg with
    | construct hc' hp' ho' =>
      cases hc.symm.trans hc'
      cases hp.symm.trans hp'
      exact ih ho'

end Arena

namespace Region

variable {a : Arena}

/-- Every item of a region points to the owner of its list. -/
def Owned (a : Arena) : Owner → Region → Prop
  | _, .done => True
  | o, .block b rest =>
      (∃ bb, a.blocks[b.idx]? = some bb ∧ bb.parent = some o) ∧ rest.Owned a o
  | o, .branch c yes no rest =>
      (∃ x, a.constructs[c.idx]? = some x ∧ x.parent = some o)
        ∧ yes.Owned a (.construct c) ∧ no.Owned a (.construct c) ∧ rest.Owned a o
  | o, .loop c body rest =>
      (∃ x, a.constructs[c.idx]? = some x ∧ x.parent = some o)
        ∧ body.Owned a (.construct c) ∧ rest.Owned a o

theorem Owned.rootedIn (h : r.Owned a o)
    (ho : a.RootedIn f o) (hb : b ∈ r.preorder) :
    ∃ bb p, a.blocks[b.idx]? = some bb ∧ bb.parent = some p ∧ a.RootedIn f p := by
  induction r generalizing o with
  | done => simp [preorder] at hb
  | block b' rest ih =>
    obtain ⟨⟨bb, hbb, hp⟩, hrest⟩ := h
    rcases List.mem_cons.mp hb with rfl | hb
    · exact ⟨bb, o, hbb, hp, ho⟩
    · exact ih hrest ho hb
  | branch c yes no rest ihy ihn ihr =>
    obtain ⟨⟨x, hx, hp⟩, hyes, hno, hrest⟩ := h
    have hc : a.RootedIn f (.construct c) := .construct hx hp ho
    simp only [preorder, List.mem_append] at hb
    rcases hb with (hb | hb) | hb
    · exact ihy hyes hc hb
    · exact ihn hno hc hb
    · exact ihr hrest ho hb
  | loop c body rest ihb ihr =>
    obtain ⟨⟨x, hx, hp⟩, hbody, hrest⟩ := h
    have hc : a.RootedIn f (.construct c) := .construct hx hp ho
    simp only [preorder, List.mem_append] at hb
    rcases hb with hb | hb
    · exact ihb hbody hc hb
    · exact ihr hrest ho hb

/-- A block belongs to the region of one function only. -/
theorem Owned.function_eq {s : Region} (hr : r.Owned a (.function f))
    (hs : s.Owned a (.function g)) (hbr : b ∈ r.preorder) (hbs : b ∈ s.preorder) :
    f = g := by
  obtain ⟨bb, p, hb, hp, hf⟩ := hr.rootedIn .function hbr
  obtain ⟨bb', p', hb', hp', hg⟩ := hs.rootedIn .function hbs
  cases hb.symm.trans hb'
  cases hp.symm.trans hp'
  exact hf.function_eq hg

end Region

end ShaderCompiler
