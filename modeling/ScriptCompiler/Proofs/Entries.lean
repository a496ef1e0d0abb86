import ScriptCompiler.Proofs.Discipline
import ScriptCompiler.Proofs.Site

/-!
# Plans and the nodes inside

The plan of a construct holds the code of the nodes directly inside it: of those that stand as
values or as statements, and in place of one that is assigned to, that of its object and its key. So
what the lines of a plan show of every construct on its own, they show of all nodes of a section.

## Main definitions

* `Entry`: a node whose code is part of a plan, as a value or as a statement
* `entries`: the nodes whose code is part of a plan
* `Node.entries`: the nodes inside a node whose code is part of its code
* `Site.Matches`: a node stands as an entry says

## Main results

* `Node.entries_plan`: the code of a node is made of that of the nodes inside it
* `Emits.forall_within`: what the lines of every construct show of it, the lines of a section show
  of all nodes that stand in it
-/

namespace ScriptCompiler

/-- A node whose code is part of a plan. -/
inductive Entry where
  /-- As a value. -/
  | value (node : Node)
  /-- As a statement, in the body of a loop or not. -/
  | statement (inLoop : Bool) (node : Node)

/-- The node whose code is a part, where so many loops are open. -/
def Part.entry? (depth : Nat) : Part → Option Entry
  | value node => some (.value node)
  | statement node => some (.statement (decide (0 < depth)) node)
  | _ => none

/-- **The nodes whose code is part of a plan**, where so many loops are open before it. -/
def entries (depth : Nat) : List Part → List Entry
  | [] => []
  | p :: rest => (p.entry? depth).toList ++ entries ((p.loopDepth depth).getD 0) rest

namespace Node

/-- Whether a node can be assigned to. -/
def isPlace : Node → Bool
  | ident _ | member .. | index .. => true
  | _ => false

/-- The nodes whose code stands for that of a node, which stands as its role says. -/
def entriesAs (inLoop : Bool) (node : Node) : Role → List Entry
  | .statement => [.statement inLoop node]
  | .loopBody => [.statement true node]
  | .value => [.value node]
  | .place => node.children.map fun (_, part) => .value part

/-- **The nodes inside a node whose code is part of its code.** -/
def entries (inLoop : Bool) (node : Node) : List Entry :=
  node.children.flatMap fun (role, child) => child.entriesAs inLoop role

/-- All that a node assigns to can be assigned to. -/
def Assignable (node : Node) : Prop :=
  ∀ target, (.place, target) ∈ node.children → target.isPlace = true

theorem isPlace_of_isMethod {node : Node} (h : node.isMethod = true) : node.isPlace = true := by
  cases node <;> first | rfl | cases h

theorem routine?_of_isPlace {node : Node} (h : node.isPlace = true) : node.routine? = none := by
  cases node <;> first | rfl | cases h

theorem isDeclaredFunction_of_routine? {node : Node} (h : node.routine? = none) :
    node.isDeclaredFunction = false := by
  cases node <;> first | rfl | cases h

theorem placePlan_of_not_isPlace {target : Node} (h : target.isPlace = false)
    (use : Place → List Part) : target.placePlan use = [.fail (.invalidTarget target.kind)] := by
  cases target <;> first | rfl | cases h

/-- What stands in place of a value has its parts as values. -/
theorem role_of_mem_children_of_isPlace {node part : Node} {role : Role}
    (h : node.isPlace = true) (hm : (role, part) ∈ node.children) : role = .value := by
  cases node with
  | ident => cases hm
  | member object property =>
    cases List.mem_singleton.mp hm
    rfl
  | index object key =>
    rcases List.mem_cons.mp hm with hm | hm
    · cases hm
      rfl
    · cases List.mem_singleton.mp hm
      rfl
  | _ => cases h

/-- An expression other than a function has no statements directly inside. -/
theorem isStatement_of_mem_children {node child : Node} {role : Role}
    (h : node.isExpression = true) (hf : node.routine? = none)
    (hm : (role, child) ∈ node.children) : role.isStatement = false := by
  cases node with
  | declaration | ret | ifElse | forLoop | whileLoop | breakLoop | continueLoop | block
  | unsupported => cases h
  | function => cases hf
  | call callee arguments =>
    simp only [children, List.mem_cons, List.mem_map, Prod.mk.injEq] at hm
    rcases hm with ⟨rfl, -⟩ | ⟨_, -, rfl, -⟩
    · cases callee.isMethod <;> rfl
    · rfl
  | array | sequence =>
    obtain ⟨_, -, he⟩ := List.mem_map.mp hm
    cases he
    rfl
  | ident | number | string | boolean | null | undefined => cases hm
  | _ =>
    simp only [children, List.mem_cons, List.not_mem_nil, or_false, Prod.mk.injEq] at hm
    obtain ⟨rfl, -⟩ | ⟨rfl, -⟩ | ⟨rfl, -⟩ := hm <;> rfl

end Node

/-! ## The entries of plans -/

section Plans

open ScriptCompiler.Part

theorem entries_append_line (depth : Nat) (parts : List Part) (l : Line) :
    entries depth (parts ++ [.line l]) = entries depth parts := by
  induction parts generalizing depth with
  | nil => rfl
  | cons p rest ih => rw [List.cons_append, entries, ih, entries]

theorem entries_append_of_straight {depth : Nat} {parts : List Part} (more : List Part)
    (h : ∀ p ∈ parts, p.loopDepth depth = some depth) :
    entries depth (parts ++ more) = entries depth parts ++ entries depth more := by
  induction parts with
  | nil => rfl
  | cons p rest ih =>
    rw [List.forall_mem_cons] at h
    rw [List.cons_append, entries, entries, h.1, Option.getD_some, ih h.2, List.append_assoc]

/-- Where no loop is opened or closed, the entries are those of the parts one by one. -/
theorem entries_map_of_straight {α : Type} {depth : Nat} {part : α → Part} (xs : List α)
    (h : ∀ x, (part x).loopDepth depth = some depth) :
    entries depth (xs.map part) = xs.flatMap fun x => (Part.entry? depth (part x)).toList := by
  induction xs with
  | nil => rfl
  | cons x rest ih => rw [List.map_cons, entries, h, Option.getD_some, ih, List.flatMap_cons]

theorem entries_values (depth : Nat) (nodes : List Node) :
    entries depth (nodes.map .value) = nodes.map .value := by
  rw [entries_map_of_straight nodes fun _ => rfl, List.map_eq_flatMap]
  rfl

theorem entries_statements (depth : Nat) (nodes : List Node) :
    entries depth (nodes.map .statement) = nodes.map (.statement (decide (0 < depth))) := by
  rw [entries_map_of_straight nodes fun _ => rfl, List.map_eq_flatMap]
  rfl

theorem entries_lines (depth : Nat) (lines : List Line) : entries depth (lines.map .line) = [] := by
  rw [entries_map_of_straight lines fun _ => rfl]
  exact List.flatMap_eq_nil_iff.mpr fun _ _ => rfl

theorem entries_binds (depth : Nat) (rs : List Routine) : entries depth (rs.map .bind) = [] := by
  rw [entries_map_of_straight rs fun _ => rfl]
  exact List.flatMap_eq_nil_iff.mpr fun _ _ => rfl

theorem Routine.entries_bindPlan (depth : Nat) (r : Routine) : entries depth r.bindPlan = [] := by
  cases hn : r.name <;> simp [bindPlan, hn, entries, entry?]

theorem flatMap_entriesAs_value (inLoop : Bool) (nodes : List Node) :
    ((nodes.map (Role.value, ·)).flatMap fun (role, child) => child.entriesAs inLoop role) =
      nodes.map .value := by
  rw [List.flatMap_map, List.map_eq_flatMap]
  rfl

theorem flatMap_entriesAs_statement (inLoop : Bool) (nodes : List Node) :
    ((nodes.map (Role.statement, ·)).flatMap fun (role, child) => child.entriesAs inLoop role) =
      nodes.map (.statement inLoop) := by
  rw [List.flatMap_map, List.map_eq_flatMap]
  rfl

theorem entries_sequencePlan (depth : Nat) (nodes : List Node) :
    entries depth (Node.sequencePlan nodes) = nodes.map .value := by
  fun_induction Node.sequencePlan nodes with
  | case1 => rfl
  | case2 => rfl
  | case3 node rest _ ih => simp [entries, entry?, Part.loopDepth, ih]

theorem entries_calleePlan (depth : Nat) (callee : Node) (more : List Part) :
    entries depth (callee.calleePlan ++ more) =
      (if callee.isMethod then callee.children.map fun (_, part) => .value part
        else [.value callee]) ++ entries depth more := by
  obtain ⟨object, property, rfl⟩ | ⟨object, key, rfl⟩ | ⟨hp, hm⟩ := callee.callee_cases
  · rfl
  · rfl
  · rw [hp, hm]
    rfl

/-- **The code of a node is made of that of the nodes inside it.** -/
theorem Node.entries_plan {node : Node} (depth : Nat) (hf : node.routine? = none)
    (ha : node.Assignable) :
    ScriptCompiler.entries depth node.plan = node.entries (decide (0 < depth)) := by
  cases node with
  | function => cases hf
  | declaration name init => cases init <;> rfl
  | ret argument => cases argument <;> rfl
  | ifElse test consequent alternate => cases alternate <;> rfl
  | forLoop init test step body =>
    cases init <;> cases test <;> cases step <;>
      simp [plan, entries, entriesAs, children, ScriptCompiler.entries, entry?, Part.loopDepth]
  | whileLoop test body =>
    simp [plan, entries, entriesAs, children, ScriptCompiler.entries, entry?, Part.loopDepth]
  | block statements =>
    rw [plan, entries_statements, entries, children, flatMap_entriesAs_statement]
  | array elements =>
    rw [plan, entries_append_line, entries_values, entries, children, flatMap_entriesAs_value]
  | sequence expressions =>
    rw [plan, entries_sequencePlan, entries, children, flatMap_entriesAs_value]
  | call callee arguments =>
    rw [plan, List.append_assoc, entries_calleePlan, entries_append_line, entries_values, entries,
      children, List.flatMap_cons, flatMap_entriesAs_value]
    cases callee.isMethod <;> rfl
  | assign target value | compound operator target value =>
    have ht := ha target List.mem_cons_self
    cases target <;> first | rfl | cases ht
  | update operator before target =>
    have ht := ha target List.mem_cons_self
    cases before <;> cases target <;> first | rfl | cases ht
  | _ => rfl

theorem Node.entries_statementPlan {node : Node} (depth : Nat) (hf : node.routine? = none)
    (ha : node.Assignable) :
    ScriptCompiler.entries depth node.statementPlan = node.entries (decide (0 < depth)) := by
  rw [statementPlan, isDeclaredFunction_of_routine? hf, if_neg Bool.false_ne_true]
  split
  · rw [entries_append_line, entries_plan depth hf ha]
  · exact entries_plan depth hf ha

/-- The statements of a section stand in none of its loops. -/
theorem Segment.entries_plan (segment : Segment) :
    entries 0 segment.plan = segment.body.map (.statement false) := by
  have hb : ∀ body, entries 0 (bodyPlan body) = body.map (.statement false) := by
    intro body
    rw [bodyPlan, List.append_assoc, entries_append_of_straight _ (by simp [Part.loopDepth]),
      entries_append_of_straight _ (by simp [Part.loopDepth]), entries_binds, entries_statements]
    exact List.append_nil _
  cases segment with
  | top body => exact hb body
  | function outer r =>
    rw [plan, Routine.plan, entries_append_of_straight _ (by simp [Part.loopDepth]), entries_lines,
      hb]
    rfl

/-- What assigns to a target that cannot be assigned to has no code. -/
theorem Node.plan_of_not_isPlace {node target : Node} (hm : (.place, target) ∈ node.children)
    (ht : target.isPlace = false) : node.plan = [.fail (.invalidTarget target.kind)] := by
  have hp := fun use => placePlan_of_not_isPlace ht use
  cases node with
  | assign | compound | update =>
    simp [children] at hm
    subst hm
    simp [plan, hp]
  | call callee arguments =>
    simp [children] at hm
    obtain ⟨hm, rfl⟩ := hm
    rw [isPlace_of_isMethod] at ht <;> grind
  | _ => simp [children] at hm

/-- What has code assigns only to what can be assigned to. -/
theorem Node.assignable_of_fail_notMem {node : Node} (h : ∀ error, .fail error ∉ node.plan) :
    node.Assignable := by
  intro target hm
  by_contra ht
  rw [Bool.not_eq_true] at ht
  refine h (.invalidTarget target.kind) ?_
  rw [plan_of_not_isPlace hm ht]
  exact List.mem_cons_self

end Plans

/-! ## Sites and entries -/

namespace Site

/-- **A node stands as an entry says.** -/
def Matches (s : Site) : Entry → Prop
  | .value node => s.role = .value ∧ s.node = node
  | .statement inLoop node => s.role.isStatement = true ∧ s.inLoop = inLoop ∧ s.node = node

theorem routine?_eq_none {s : Site} : s.isFunction = false ↔ s.node.routine? = none := by
  rw [isFunction, Option.isSome_eq_false_iff, Option.isNone_iff_eq_none]

/-- The nodes directly inside a node are entries of it, unless they are assigned to. Whether the
node stands in a loop matters only for statements inside it. -/
theorem exists_entry {s c : Site} {inLoop : Bool} (hf : s.isFunction = false)
    (hl : s.node.isExpression = true ∨ s.inLoop = inLoop) (hc : c ∈ s.inner)
    (hr : c.role ≠ .place) : ∃ entry ∈ s.node.entries inLoop, c.Matches entry := by
  obtain ⟨role, node, index, hi, rfl⟩ := mem_inner.mp hc
  have hm := List.mem_of_getElem? hi
  have hentry : ∀ entry, entry ∈ node.entriesAs inLoop role → entry ∈ s.node.entries inLoop :=
    fun entry he => List.mem_flatMap.mpr ⟨_, hm, he⟩
  cases role with
  | place => exact absurd rfl hr
  | value => exact ⟨.value node, hentry _ List.mem_cons_self, rfl, rfl⟩
  | loopBody =>
    exact ⟨.statement true node, hentry _ List.mem_cons_self, rfl, by simp [child, hf], rfl⟩
  | statement =>
    refine ⟨.statement inLoop node, hentry _ List.mem_cons_self, rfl, ?_, rfl⟩
    rcases hl with he | hl
    · cases Node.isStatement_of_mem_children he (routine?_eq_none.mp hf) hm
    · simp [child, hf, hl]

/-- The parts of what is assigned to are entries of the node that assigns to it. -/
theorem exists_entry_of_place {s c d : Site} (inLoop : Bool) (hc : c ∈ s.inner)
    (hr : c.role = .place) (hp : c.node.isPlace = true) (hd : d ∈ c.inner) :
    ∃ entry ∈ s.node.entries inLoop, d.Matches entry := by
  have hm := mem_children_of_mem_inner hc
  have hm' := mem_children_of_mem_inner hd
  refine ⟨.value d.node, List.mem_flatMap.mpr ⟨_, hm, ?_⟩,
    Node.role_of_mem_children_of_isPlace hp hm', rfl⟩
  rw [hr]
  exact List.mem_map.mpr ⟨_, hm', rfl⟩

/-- The entries of a node are nodes that stand in it. -/
theorem exists_mem_within_of_mem_entries {s : Site} {inLoop : Bool} {entry : Entry}
    (hf : s.isFunction = false) (ha : s.node.Assignable)
    (hl : s.node.isExpression = true ∨ s.inLoop = inLoop) (he : entry ∈ s.node.entries inLoop) :
    ∃ t ∈ s.within, t.Matches entry := by
  obtain ⟨⟨role, child⟩, hm, he⟩ := List.mem_flatMap.mp he
  obtain ⟨index, hc⟩ := exists_mem_inner hm
  have hw : ∀ {t}, t ∈ (s.child role child index).within → t ∈ s.within :=
    fun ht => mem_within.mpr (.inr ⟨hf, _, hc, ht⟩)
  cases role with
  | value =>
    cases List.mem_singleton.mp he
    exact ⟨_, hw (mem_within_self _), rfl, rfl⟩
  | loopBody =>
    cases List.mem_singleton.mp he
    exact ⟨_, hw (mem_within_self _), rfl, by simp [Site.child, hf], rfl⟩
  | statement =>
    cases List.mem_singleton.mp he
    refine ⟨_, hw (mem_within_self _), rfl, ?_, rfl⟩
    rcases hl with hx | hl
    · cases Node.isStatement_of_mem_children hx (routine?_eq_none.mp hf) hm
    · simp [Site.child, hf, hl]
  | place =>
    obtain ⟨⟨role, part⟩, hm', rfl⟩ := List.mem_map.mp he
    have hp := ha child hm
    cases Node.role_of_mem_children_of_isPlace hp hm'
    have hf' : (s.child .place child index).isFunction = false :=
      routine?_eq_none.mpr (Node.routine?_of_isPlace hp)
    obtain ⟨index', hd⟩ := exists_mem_inner (s := s.child .place child index) hm'
    exact ⟨_, hw (mem_within.mpr (.inr ⟨hf', _, hd, mem_within_self _⟩)), rfl, rfl⟩

end Site

/-! ## Lines and sites -/

namespace Emits

open ScriptCompiler.Part

variable {chain : List (List String)} {m m' : Mark} {parts : List Part} {lines : List Line}
  {pieces : List Piece}

/-- Elementary parts hold no code of nodes, and they enter and leave loops as they say. -/
theorem depth_of_step {p : Part} {here : List Line} {m₁ : Mark} (h : Step chain m p here m₁) :
    p.entry? m.loops.length = none ∧ m₁.loops.length = (p.loopDepth m.loops.length).getD 0 := by
  cases h with
  | exit =>
    refine ⟨rfl, ?_⟩
    cases hl : m.loops <;> simp [Part.loopDepth]
  | _ => exact ⟨rfl, rfl⟩

theorem loopDepth_of_inner {p : Part} {plan : List Part} (h : p.Inner plan) (depth : Nat) :
    p.loopDepth depth = some depth := by
  cases h <;> rfl

/-- The plan of an entry that has lines holds the code of the nodes inside. -/
theorem entries_of_inner {p : Part} {plan : List Part} {entry : Entry} {s : Site}
    (hp : p.Inner plan) (h : Emits chain m plan lines pieces m') {depth : Nat}
    (he : p.entry? depth = some entry) (hs : s.Matches entry) (hf : s.isFunction = false) :
    s.node.Assignable ∧ (s.node.isExpression = true ∨ s.inLoop = decide (0 < depth)) ∧
      entries depth plan = s.node.entries (decide (0 < depth)) := by
  rw [Site.routine?_eq_none] at hf
  cases hp with
  | @value node hx =>
    cases he
    obtain ⟨-, rfl⟩ := hs
    have ha := Node.assignable_of_fail_notMem h.fail_notMem
    exact ⟨ha, .inl hx, Node.entries_plan depth hf ha⟩
  | @statement node =>
    cases he
    obtain ⟨-, hl, rfl⟩ := hs
    have ha : s.node.Assignable := by
      refine Node.assignable_of_fail_notMem fun error hm => h.fail_notMem error ?_
      rw [Node.statementPlan, Node.isDeclaredFunction_of_routine? hf]
      split
      · exact List.mem_append_left _ hm
      · exact hm
    exact ⟨ha, .inr hl, Node.entries_statementPlan depth hf ha⟩
  | bind => cases he

/-- The code of a function compiles it, unless a section that was compiled before is passed. -/
theorem plan_of_inner_function {p : Part} {plan : List Part} {entry : Entry} {s : Site}
    (hp : p.Inner plan) {depth : Nat} (he : p.entry? depth = some entry) (hs : s.Matches entry)
    {r : Routine} (hr : s.node.routine? = some r) :
    plan = [.literal r] ∨ plan = [.pass, .plain .pop] ∨ plan = [.literal r, .plain .pop] := by
  have hplan : ∀ {node : Node}, node.routine? = some r → node.plan = [.literal r] ∧
      (node.statementPlan = [.pass, .plain .pop] ∨
        node.statementPlan = [.literal r, .plain .pop]) := by
    intro node hn
    cases node with
    | function name params body =>
      cases hn
      cases name
      · exact ⟨rfl, .inr rfl⟩
      · exact ⟨rfl, .inl rfl⟩
    | _ => cases hn
  cases hp with
  | value =>
    cases he
    exact .inl (hplan (hs.2 ▸ hr)).1
  | statement =>
    cases he
    exact .inr (hplan (hs.2.2 ▸ hr)).2
  | bind => cases he

/-- The nodes whose code is part of a construct that has lines stand in it. -/
theorem exists_mem_within_of_inner {p : Part} {plan : List Part} {entry entry' : Entry} {s : Site}
    (hp : p.Inner plan) (h : Emits chain m plan lines pieces m') {depth : Nat}
    (he : p.entry? depth = some entry) (hs : s.Matches entry) (he' : entry' ∈ entries depth plan) :
    ∃ t ∈ s.within, t.Matches entry' := by
  cases hf : s.isFunction with
  | true =>
    obtain ⟨r, hr⟩ := Option.isSome_iff_exists.mp hf
    rcases plan_of_inner_function hp he hs hr with rfl | rfl | rfl <;> cases he'
  | false =>
    obtain ⟨ha, hl, hentries⟩ := entries_of_inner hp h he hs hf
    exact Site.exists_mem_within_of_mem_entries hf ha hl (hentries ▸ he')

/-- **What the lines of every construct show of it, and of what it assigns to, the lines of a
section show of all nodes that stand in it.** -/
theorem forall_within {R : List Line → Site → Prop}
    (mono : ∀ {lines lines' : List Line} {s : Site}, lines ⊆ lines' → R lines s → R lines' s)
    (own : ∀ {chain m plan lines pieces m' entry} {p : Part} {s : Site}, p.Inner plan →
      Emits chain (Mark.inner m) plan lines pieces m' → p.entry? m.loops.length = some entry →
      s.Matches entry → R lines s ∧ ∀ c ∈ s.inner, c.role = .place → R lines c)
    (h : Emits chain m parts lines pieces m') {entry : Entry}
    (he : entry ∈ entries m.loops.length parts) {s : Site} (hs : s.Matches entry) :
    ∀ t ∈ s.within, R lines t := by
  -- The induction is on the lines; a node is inside the construct of the entry or further on.
  induction h generalizing entry s with
  | nil => cases he
  | step hp _ ih =>
    obtain ⟨hn, hl⟩ := depth_of_step hp
    rw [entries, hn, ← hl] at he
    exact fun t ht => mono (List.subset_append_right _ _) (ih he hs t ht)
  | @inner _ m p plan here _ m₁ _ lines _ _ hp hi _ ihi ih =>
    have hl : m₁.loops = m.loops := hi.loops (disciplined_of_inner hp)
    rw [entries, loopDepth_of_inner hp, Option.getD_some, List.mem_append, Option.mem_toList] at he
    rcases he with he | he
    · intro t ht
      refine mono (List.subset_append_left _ _) ?_
      obtain ⟨hs', hc'⟩ := own hp hi he hs
      rcases Site.mem_within.mp ht with rfl | ⟨hf, c, hc, ht⟩
      · exact hs'
      · obtain ⟨ha, hx, hentries⟩ := entries_of_inner hp hi he hs hf
        have behind : ∀ {entry} {d : Site}, entry ∈ s.node.entries (decide (0 < m.loops.length)) →
            d.Matches entry → ∀ t ∈ d.within, R here t :=
          fun he' hd => ihi (hentries ▸ he') hd
        by_cases hr : c.role = .place
        · have hp := ha c.node (hr ▸ Site.mem_children_of_mem_inner hc)
          rcases Site.mem_within.mp ht with rfl | ⟨-, d, hd, ht⟩
          · exact hc' t hc hr
          · obtain ⟨entry, he', hm⟩ :=
              Site.exists_entry_of_place (decide (0 < m.loops.length)) hc hr hp hd
            exact behind he' hm t ht
        · obtain ⟨entry, he', hm⟩ := Site.exists_entry hf hx hc hr
          exact behind he' hm t ht
    · rw [← hl] at he
      exact fun t ht => mono (List.subset_append_right _ _) (ih he hs t ht)
  | literal _ _ _ ih =>
    exact fun t ht => mono (List.subset_cons_of_subset _ (List.Subset.refl _)) (ih he hs t ht)

end Emits

end ScriptCompiler
