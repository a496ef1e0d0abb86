import Mathlib.Data.List.Nodup
import ScriptCompiler.Proofs.Plan

/-!
# The nodes of a program where they stand

A node of a program stands at a path: the positions to follow from the top level down to it. Two
nodes that look the same stand at different paths. What a node may be depends on how it stands in
the construct around it, and what its code is also depends on the function and the loops around it.

## Main definitions

* `Node.children`: the nodes directly inside a node, and how they stand in it
* `Site`: a node where it stands in a program
* `Site.all`, `Site.within`: the sites from a site on downwards, with and without those inside
  functions
* `Program.sites`: all nodes of a program where they stand

## Main results

* `Site.induction`: induction over the nodes inside a node
* `Site.nodup_paths`: no two nodes stand at the same path
* `Site.mem_all_of_prefix_path`: a path that goes on from that of a site leads to a node inside it
-/

namespace ScriptCompiler

/-- How a node stands in the construct around it. -/
inductive Role where
  /-- As a statement. -/
  | statement
  /-- As the statement that a loop repeats. -/
  | loopBody
  /-- As a value. -/
  | value
  /-- As what is assigned to, or as the method that is called: what counts are its object and its
  key, and not its value. -/
  | place
deriving DecidableEq, Repr

/-- Whether a node stands as a statement. -/
def Role.isStatement : Role → Bool
  | statement | loopBody => true
  | value | place => false

namespace Node

/-- **The nodes directly inside a node**, in the order of their code, and how they stand in it. -/
def children : Node → List (Role × Node)
  | declaration _ init => init.toList.map (.value, ·)
  | function _ _ body => body.map (.statement, ·)
  | ret argument => argument.toList.map (.value, ·)
  | ifElse test consequent alternate =>
    (.value, test) :: (.statement, consequent) :: alternate.toList.map (.statement, ·)
  -- What a loop starts with is not repeated by it.
  | forLoop init test step body =>
    init.toList.map (.statement, ·) ++ test.toList.map (.value, ·) ++ [(.loopBody, body)] ++
      step.toList.map (.value, ·)
  | whileLoop test body => [(.value, test), (.loopBody, body)]
  | block statements => statements.map (.statement, ·)
  | array elements => elements.map (.value, ·)
  | member object _ => [(.value, object)]
  | index object key => [(.value, object), (.value, key)]
  | call callee arguments =>
    (if callee.isMethod then .place else .value, callee) :: arguments.map (.value, ·)
  | assign target value | compound _ target value => [(.place, target), (.value, value)]
  | binary _ left right | logical _ left right => [(.value, left), (.value, right)]
  | unary _ argument => [(.value, argument)]
  | update _ _ target => [(.place, target)]
  | conditional test consequent alternate =>
    [(.value, test), (.value, consequent), (.value, alternate)]
  | sequence expressions => expressions.map (.value, ·)
  | breakLoop | continueLoop | ident _ | number _ | string _ | boolean _ | null | undefined
  | unsupported _ => []

/-- The function that a node is. -/
def routine? : Node → Option Routine
  | function name params body => some ⟨name, params, body⟩
  | _ => none

theorem children_of_routine? {node : Node} {r : Routine} (h : node.routine? = some r) :
    node.children = r.body.map (.statement, ·) := by
  cases node with
  | function =>
    cases h
    rfl
  | _ => cases h

theorem sizeOf_lt_of_mem_children {node : Node} {child : Role × Node} (h : child ∈ node.children) :
    sizeOf child.2 < sizeOf node := by
  have inList {role : Role} {nodes : List Node} (hm : child ∈ nodes.map (role, ·)) :
      sizeOf child.2 < sizeOf nodes := by
    obtain ⟨inside, hi, rfl⟩ := List.mem_map.mp hm
    exact List.sizeOf_lt_of_mem hi
  have inOption {role : Role} {node : Option Node} (hm : child ∈ node.toList.map (role, ·)) :
      sizeOf child.2 < sizeOf node := by
    cases node with
    | none => cases hm
    | some node =>
      cases List.mem_singleton.mp hm
      simp only [Option.some.sizeOf_spec]
      omega
  cases node with
  | declaration name init =>
    have := inOption h
    simp only [declaration.sizeOf_spec]
    omega
  | function name params body =>
    have := inList h
    simp only [function.sizeOf_spec]
    omega
  | ret argument =>
    have := inOption h
    simp only [ret.sizeOf_spec]
    omega
  | ifElse test consequent alternate =>
    simp only [children, List.mem_cons] at h
    simp only [ifElse.sizeOf_spec]
    rcases h with rfl | rfl | h
    · dsimp only
      omega
    · dsimp only
      omega
    · have := inOption h
      omega
  | forLoop init test step body =>
    simp only [children, List.mem_append, List.mem_singleton] at h
    simp only [forLoop.sizeOf_spec]
    rcases h with ((h | h) | rfl) | h
    · have := inOption h
      omega
    · have := inOption h
      omega
    · dsimp only
      omega
    · have := inOption h
      omega
  | block statements =>
    have := inList h
    simp only [block.sizeOf_spec]
    omega
  | array elements =>
    have := inList h
    simp only [array.sizeOf_spec]
    omega
  | sequence expressions =>
    have := inList h
    simp only [sequence.sizeOf_spec]
    omega
  | call callee arguments =>
    simp only [children, List.mem_cons] at h
    simp only [call.sizeOf_spec]
    rcases h with rfl | h
    · dsimp only
      omega
    · have := inList h
      omega
  | conditional test consequent alternate =>
    simp only [children, List.mem_cons, List.not_mem_nil, or_false] at h
    simp only [conditional.sizeOf_spec]
    rcases h with rfl | rfl | rfl <;> dsimp only <;> omega
  | whileLoop | index | assign | compound | binary | logical =>
    simp only [children, List.mem_cons, List.not_mem_nil, or_false] at h
    simp only [whileLoop.sizeOf_spec, index.sizeOf_spec, assign.sizeOf_spec, compound.sizeOf_spec,
      binary.sizeOf_spec, logical.sizeOf_spec]
    rcases h with rfl | rfl <;> dsimp only <;> omega
  | member | unary | update =>
    simp only [children, List.mem_singleton] at h
    simp only [h, member.sizeOf_spec, unary.sizeOf_spec, update.sizeOf_spec]
    omega
  | _ => cases h

end Node

/-- **A node where it stands in a program.** -/
structure Site where
  /-- The positions to follow from the top level down to the node. -/
  path : List Nat
  /-- The path of the innermost function around the node; at the top level there is none, and the
  path is empty. -/
  owner : List Nat
  /-- How the node stands in the construct around it. -/
  role : Role
  /-- Whether the node stands in the body of a loop of its function. -/
  inLoop : Bool
  node : Node

namespace Site

/-- Whether a site is that of a function. -/
def isFunction (s : Site) : Bool := s.node.routine?.isSome

/-- The `index`-th of the nodes directly inside a node. A function starts anew: it is what its
statements belong to, and they stand in none of its loops yet. -/
def child (s : Site) (role : Role) (node : Node) (index : Nat) : Site where
  path := s.path ++ [index]
  owner := if s.isFunction then s.path else s.owner
  role := role
  inLoop := !s.isFunction && (role == .loopBody || s.inLoop)
  node := node

/-- **The nodes directly inside a node**, where they stand. -/
def inner (s : Site) : List Site :=
  s.node.children.zipIdx.map fun ((role, node), index) => s.child role node index

theorem mem_inner {s t : Site} :
    t ∈ s.inner ↔ ∃ role node index, s.node.children[index]? = some (role, node) ∧
      t = s.child role node index := by
  constructor
  · intro h
    obtain ⟨⟨⟨role, node⟩, index⟩, hm, rfl⟩ := List.mem_map.mp h
    exact ⟨role, node, index, List.mem_zipIdx_iff_getElem?.mp hm, rfl⟩
  · rintro ⟨role, node, index, hm, rfl⟩
    exact List.mem_map.mpr ⟨((role, node), index), List.mem_zipIdx_iff_getElem?.mpr hm, rfl⟩

theorem mem_children_of_mem_inner {s t : Site} (h : t ∈ s.inner) :
    (t.role, t.node) ∈ s.node.children := by
  obtain ⟨role, node, index, hm, rfl⟩ := mem_inner.mp h
  exact List.mem_of_getElem? hm

theorem exists_mem_inner {s : Site} {role : Role} {node : Node}
    (h : (role, node) ∈ s.node.children) : ∃ index, s.child role node index ∈ s.inner := by
  obtain ⟨index, hi⟩ := List.mem_iff_getElem?.mp h
  exact ⟨index, mem_inner.mpr ⟨role, node, index, hi, rfl⟩⟩

theorem sizeOf_lt_of_mem_inner {s t : Site} (h : t ∈ s.inner) : sizeOf t.node < sizeOf s.node :=
  Node.sizeOf_lt_of_mem_children (mem_children_of_mem_inner h)

/-- **Induction over the nodes inside a node.** -/
theorem induction {P : Site → Prop} (step : ∀ s, (∀ t ∈ s.inner, P t) → P s) (s : Site) : P s := by
  induction hs : sizeOf s.node using Nat.strongRecOn generalizing s with
  | _ size ih => exact step s fun t ht => ih _ (hs ▸ sizeOf_lt_of_mem_inner ht) t rfl

/-- **The sites from a site on downwards.** -/
def all (s : Site) : List Site :=
  s :: s.inner.attach.flatMap fun ⟨t, _⟩ => t.all
termination_by sizeOf s.node
decreasing_by exact sizeOf_lt_of_mem_inner ‹_›

/-- **The sites from a site on downwards, but not inside functions.** -/
def within (s : Site) : List Site :=
  s :: if s.isFunction then [] else s.inner.attach.flatMap fun ⟨t, _⟩ => t.within
termination_by sizeOf s.node
decreasing_by exact sizeOf_lt_of_mem_inner ‹_›

theorem all_eq (s : Site) : s.all = s :: s.inner.flatMap all := by
  rw [all, List.flatMap_subtype (g := all) (fun _ _ => rfl), List.unattach_attach]

theorem within_eq (s : Site) :
    s.within = s :: if s.isFunction then [] else s.inner.flatMap within := by
  rw [within, List.flatMap_subtype (g := within) (fun _ _ => rfl), List.unattach_attach]

theorem mem_all_self (s : Site) : s ∈ s.all := by
  rw [all_eq]
  exact List.mem_cons_self

theorem mem_all {s t : Site} : t ∈ s.all ↔ t = s ∨ ∃ c ∈ s.inner, t ∈ c.all := by
  rw [all_eq, List.mem_cons, List.mem_flatMap]

theorem mem_all_of_mem_inner {s c : Site} (h : c ∈ s.inner) : c ∈ s.all :=
  mem_all.mpr (.inr ⟨c, h, mem_all_self c⟩)

theorem mem_within_self (s : Site) : s ∈ s.within := by
  rw [within_eq]
  exact List.mem_cons_self

theorem mem_within {s t : Site} :
    t ∈ s.within ↔ t = s ∨ s.isFunction = false ∧ ∃ c ∈ s.inner, t ∈ c.within := by
  rw [within_eq, List.mem_cons]
  cases s.isFunction <;> simp

/-- What is inside a node is inside all that is around it. -/
theorem mem_all_trans {s t u : Site} (ht : t ∈ s.all) (hu : u ∈ t.all) : u ∈ s.all := by
  induction s using Site.induction with
  | step s ih =>
    rcases mem_all.mp ht with rfl | ⟨c, hc, ht⟩
    · exact hu
    · exact mem_all.mpr (.inr ⟨c, hc, ih c hc ht⟩)

theorem mem_all_of_mem_within {s t : Site} (h : t ∈ s.within) : t ∈ s.all := by
  induction s using Site.induction with
  | step s ih =>
    rcases mem_within.mp h with rfl | ⟨-, c, hc, ht⟩
    · exact mem_all_self t
    · exact mem_all.mpr (.inr ⟨c, hc, ih c hc ht⟩)

/-- Nodes that are not inside different functions belong to the same function. -/
theorem owner_of_mem_within {s t : Site} (h : t ∈ s.within) : t.owner = s.owner := by
  induction s using Site.induction with
  | step s ih =>
    rcases mem_within.mp h with rfl | ⟨hf, c, hc, ht⟩
    · rfl
    · obtain ⟨role, node, index, -, rfl⟩ := mem_inner.mp hc
      rw [ih _ hc ht, child, if_neg (by simp [hf])]

/-! ## Paths -/

theorem exists_path_of_mem_inner {s t : Site} (h : t ∈ s.inner) :
    ∃ index, t.path = s.path ++ [index] := by
  obtain ⟨role, node, index, -, rfl⟩ := mem_inner.mp h
  exact ⟨index, rfl⟩

theorem prefix_of_mem_all {s t : Site} (h : t ∈ s.all) : s.path <+: t.path := by
  induction s using Site.induction with
  | step s ih =>
    rcases mem_all.mp h with rfl | ⟨c, hc, ht⟩
    · exact List.prefix_refl _
    · obtain ⟨index, hp⟩ := exists_path_of_mem_inner hc
      exact (hp ▸ List.prefix_append _ _).trans (ih c hc ht)

theorem length_path_lt {s c t : Site} (hc : c ∈ s.inner) (ht : t ∈ c.all) :
    s.path.length < t.path.length := by
  obtain ⟨index, hp⟩ := exists_path_of_mem_inner hc
  have := (prefix_of_mem_all ht).length_le
  rw [hp, List.length_append, List.length_singleton] at this
  omega

/-- A path leads into one of the nodes directly inside a node: two paths that do start with that of
the node and go on with an index, which has to agree. -/
theorem eq_of_prefix_path {s c d t u : Site} (hc : c ∈ s.inner) (hd : d ∈ s.inner) (ht : t ∈ c.all)
    (hu : u ∈ d.all) (h : t.path <+: u.path) : c = d := by
  have hp : c.path <+: u.path := (prefix_of_mem_all ht).trans h
  obtain ⟨role, node, index, hi, rfl⟩ := mem_inner.mp hc
  obtain ⟨role', node', index', hi', rfl⟩ := mem_inner.mp hd
  have he : s.path ++ [index] = s.path ++ [index'] :=
    (List.prefix_of_prefix_length_le hp (prefix_of_mem_all hu) (by simp [child])).eq_of_length
      (by simp [child])
  cases List.singleton_inj.mp (List.append_cancel_left he)
  cases hi.symm.trans hi'
  rfl

theorem nodup_inner (s : Site) : s.inner.Nodup := by
  rw [inner, List.Nodup, List.pairwise_map]
  -- The nodes themselves may be equal; their indices are not.
  have h : s.node.children.zipIdx.Pairwise fun a b => a.2 ≠ b.2 := by
    have := List.nodup_range' (s := 0) (n := s.node.children.length)
    rw [← List.zipIdx_map_snd, List.Nodup, List.pairwise_map] at this
    exact this
  refine h.imp fun {a b} hne he => hne ?_
  have := congrArg path he
  simpa [child] using this

/-- **No two nodes inside a node stand at the same path.** -/
theorem nodup_paths (s : Site) : (s.all.map path).Nodup := by
  induction s using Site.induction with
  | step s ih =>
    rw [all_eq, List.map_cons, List.map_flatMap, List.nodup_cons, List.nodup_flatMap]
    refine ⟨fun h => ?_, ih, ?_⟩
    · obtain ⟨c, hc, hp⟩ := List.mem_flatMap.mp h
      obtain ⟨t, ht, hp⟩ := List.mem_map.mp hp
      have := length_path_lt hc ht
      rw [hp] at this
      exact Nat.lt_irrefl _ this
    · refine (List.Pairwise.and_mem.mp s.nodup_inner).imp ?_
      rintro c d ⟨hc, hd, hne⟩ path hm hm'
      obtain ⟨t, ht, rfl⟩ := List.mem_map.mp hm
      obtain ⟨u, hu, he⟩ := List.mem_map.mp hm'
      exact hne (eq_of_prefix_path hc hd ht hu (he ▸ List.prefix_refl _))

/-- **A path that goes on from that of a node leads to a node inside it.** -/
theorem mem_all_of_prefix_path {s t u : Site} (ht : t ∈ s.all) (hu : u ∈ s.all)
    (h : t.path <+: u.path) : u ∈ t.all := by
  induction s using Site.induction with
  | step s ih =>
    rcases mem_all.mp ht with rfl | ⟨c, hc, ht'⟩
    · exact hu
    · rcases mem_all.mp hu with rfl | ⟨d, hd, hu'⟩
      · exact absurd h.length_le (Nat.not_le.mpr (length_path_lt hc ht'))
      · cases eq_of_prefix_path hc hd ht' hu' h
        exact ih c hc ht' hu'

end Site

/-! ## Programs -/

namespace Program

/-- A program as a function that is never called and has neither name nor parameters. -/
def root (program : Program) : Site where
  path := []
  owner := []
  role := .statement
  inLoop := false
  node := .function none [] program.body

/-- **All nodes of a program**, where they stand. -/
def sites (program : Program) : List Site := program.root.inner.flatMap Site.all

theorem all_root (program : Program) : program.root.all = program.root :: program.sites :=
  program.root.all_eq

/-- The nodes inside a node of a program are nodes of the program. -/
theorem mem_sites_of_mem_all {program : Program} {s t : Site} (hs : s ∈ program.sites)
    (ht : t ∈ s.all) : t ∈ program.sites := by
  obtain ⟨c, hc, hs⟩ := List.mem_flatMap.mp hs
  exact List.mem_flatMap.mpr ⟨c, hc, Site.mem_all_trans hs ht⟩

end Program

end ScriptCompiler
