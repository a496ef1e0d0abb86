import Mathlib.Tactic.MkIffOfInductiveProp
import ScriptCompiler.Proofs.Emission

/-!
# The discipline of plans

Plans keep to a few rules. Their own lines have a fixed text and the operands that their opcodes
take, they define each of their labels once, and they leave the loops that they enter. So the
lines that a plan comes to are shaped, no label stands for two places in them and the sections of
the functions inside, and the loops around a construct are the same after it as before it.

## Main definitions

* `Line.Fixed`: a line that says nothing of labels, of names in scope or of sections
* `Disciplined`: the rules that plans keep to
* `Mark.Accounts`: labels that have been handed out, each once
* `Line.Planned`: the sorts of lines that disciplined plans come to

## Main results

* `disciplined_of_inner`, `Routine.disciplined_plan`: the plans of constructs and of functions are
  disciplined
* `Emits.planned`, `Emits.shaped`: the lines of a disciplined plan are of a few sorts, and shaped
* `Emits.nodup_defined`: no label stands for two places
* `Emits.loops`: the loops after a construct are those before it
-/

namespace ScriptCompiler

/-- A line of a fixed text, which says nothing of labels, of names in scope or of sections. -/
def Line.Fixed : Line → Prop
  | plain op => op.operandWords = 0
  | unary op _ => op ∈ [.array, .call, .methodCall, .setCallee]
  | binary op _ _ => op = .setArgument
  | number _ => True
  | text op _ => op ∈ [.pushString, .member, .setMember]
  | jump .. | define _ => False

theorem Line.shaped_of_fixed {l : Line} (h : l.Fixed) : l.Shaped := by
  cases l with
  | plain op => exact h
  | unary op operand =>
    simp only [Line.Fixed, List.mem_cons, List.not_mem_nil, or_false] at h
    rcases h with rfl | rfl | rfl | rfl <;> exact ⟨rfl, rfl⟩
  | binary op first second =>
    cases h
    rfl
  | number value => trivial
  | text op string =>
    simp only [Line.Fixed, List.mem_cons, List.not_mem_nil, or_false] at h
    rcases h with rfl | rfl | rfl <;> exact ⟨rfl, rfl⟩
  | jump op label => cases h
  | define label => cases h

@[simp] theorem BinaryOperator.operandWords_opcode (operator : BinaryOperator) :
    operator.opcode.operandWords = 0 := by
  cases operator <;> rfl

@[simp] theorem UnaryOperator.operandWords_opcode (operator : UnaryOperator) :
    operator.opcode.operandWords = 0 := by
  cases operator <;> rfl

@[simp] theorem UpdateOperator.operandWords_opcode (operator : UpdateOperator) :
    operator.opcode.operandWords = 0 := by
  cases operator <;> rfl

@[simp] theorem LogicalOperator.isJump_opcode (operator : LogicalOperator) :
    operator.opcode.isJump = true := by
  cases operator <;> rfl

namespace Part

/-- The lines of a part are fixed, and its jumps are jumps. -/
def Neat : Part → Prop
  | line l => l.Fixed
  | jump op _ => op.isJump = true
  | _ => True

/-- The label that a part defines. -/
def defines : Part → List Nat
  | define index => [index]
  | _ => []

/-- How many loops are open after a part, if so many were open before it. -/
def loopDepth : Part → Nat → Option Nat
  | enter .., depth => some (depth + 1)
  | exit, depth => if depth = 0 then none else some (depth - 1)
  | _, depth => some depth

end Part

/-- How many loops are open after parts, if so many were open before them. -/
def loopDepth (depth : Nat) (parts : List Part) : Option Nat :=
  parts.foldlM (fun depth p => p.loopDepth depth) depth

/-- **The rules that plans keep to.** -/
@[mk_iff]
structure Disciplined (plan : List Part) : Prop where
  neat : ∀ p ∈ plan, p.Neat
  defines : (plan.flatMap Part.defines).Nodup
  loops : loopDepth 0 plan = some 0

/-! ## Plans are disciplined -/

section Plans

open ScriptCompiler.Part

/-- Parts without labels and loops are disciplined. -/
theorem disciplined_of_straight {parts : List Part}
    (h : ∀ p ∈ parts, p.Neat ∧ p.defines = [] ∧ p.loopDepth 0 = some 0) : Disciplined parts := by
  induction parts with
  | nil => exact ⟨by simp, List.nodup_nil, rfl⟩
  | cons p rest ih =>
    rw [List.forall_mem_cons] at h
    obtain ⟨⟨hn, hd, hl⟩, hr⟩ := h
    have ih := ih hr
    refine ⟨List.forall_mem_cons.mpr ⟨hn, ih.neat⟩, ?_, ?_⟩
    · rw [List.flatMap_cons, hd]
      exact ih.defines
    · rw [loopDepth, List.foldlM_cons, hl]
      exact ih.loops

/-! That parts are straight, and that a plan keeps to the rules, is computed along the parts of a
plan that is written out. -/

attribute [local simp] disciplined_iff Neat Line.Fixed Part.defines Part.loopDepth loopDepth

theorem disciplined_sequencePlan (nodes : List Node) : Disciplined (Node.sequencePlan nodes) := by
  fun_induction Node.sequencePlan nodes with
  | case1 => exact ⟨List.forall_mem_singleton.mpr rfl, List.nodup_nil, rfl⟩
  | case2 => exact ⟨List.forall_mem_singleton.mpr trivial, List.nodup_nil, rfl⟩
  | case3 node rest _ ih =>
    exact ⟨List.forall_mem_cons.mpr ⟨trivial, List.forall_mem_cons.mpr ⟨rfl, ih.neat⟩⟩, ih.defines,
      ih.loops⟩

/-- The plan of a node is disciplined. -/
theorem Node.disciplined_plan (node : Node) : Disciplined node.plan := by
  cases node with
  | declaration name init => exact disciplined_of_straight (by cases init <;> simp +decide [plan])
  | ret argument => exact disciplined_of_straight (by cases argument <;> simp +decide [plan])
  | ifElse test consequent alternate => cases alternate <;> simp +decide [plan]
  | forLoop init test step body =>
    cases init <;> cases test <;> cases step <;> simp +decide [plan]
  | whileLoop | logical | conditional => simp +decide [plan]
  | boolean value => exact disciplined_of_straight (by cases value <;> simp +decide [plan])
  | array elements => exact disciplined_of_straight (by simp +decide [plan, or_imp, forall_and])
  | call callee arguments =>
    apply disciplined_of_straight
    obtain ⟨object, property, rfl⟩ | ⟨object, key, rfl⟩ | ⟨hp, hm⟩ := callee.callee_cases
    · simp +decide [plan, calleePlan, isMethod, or_imp, forall_and]
    · simp +decide [plan, calleePlan, isMethod, or_imp, forall_and]
    · rw [plan, hp, hm]
      simp +decide [or_imp, forall_and]
  | assign target value | compound operator target value =>
    apply disciplined_of_straight
    obtain ⟨name, rfl⟩ | ⟨object, property, rfl⟩ | ⟨object, key, rfl⟩ | hf := target.target_cases
    iterate 3
      simp +decide [plan, placePlan]
    rw [plan, hf]
    simp
  | update operator before target =>
    apply disciplined_of_straight
    obtain ⟨name, rfl⟩ | ⟨object, property, rfl⟩ | ⟨object, key, rfl⟩ | hf := target.target_cases
    iterate 3
      cases before <;> simp +decide [plan, placePlan]
    rw [plan, hf]
    simp
  | sequence expressions => exact disciplined_sequencePlan expressions
  | _ => exact disciplined_of_straight (by simp +decide [plan])

theorem Disciplined.append {parts more : List Part} (h : Disciplined parts)
    (hm : ∀ p ∈ more, p.Neat ∧ p.defines = [] ∧ p.loopDepth 0 = some 0) :
    Disciplined (parts ++ more) := by
  have hd : more.flatMap Part.defines = [] := by
    rw [List.flatMap_eq_nil_iff]
    exact fun p hp => (hm p hp).2.1
  refine ⟨List.forall_mem_append.mpr ⟨h.neat, fun p hp => (hm p hp).1⟩, ?_, ?_⟩
  · rw [List.flatMap_append, hd, List.append_nil]
    exact h.defines
  · have hl := h.loops
    rw [loopDepth] at hl
    rw [loopDepth, List.foldlM_append, hl]
    exact (disciplined_of_straight hm).loops

theorem Node.disciplined_statementPlan (node : Node) : Disciplined node.statementPlan := by
  have hp : Disciplined (if node.isDeclaredFunction then [.pass] else node.plan) := by
    split
    · exact disciplined_of_straight (by simp)
    · exact node.disciplined_plan
  rw [statementPlan]
  split
  · exact hp.append (by simp +decide)
  · exact node.disciplined_plan

/-- **The plans of constructs are disciplined.** -/
theorem disciplined_of_inner {p : Part} {plan : List Part} (h : p.Inner plan) :
    Disciplined plan := by
  cases h with
  | value => exact Node.disciplined_plan _
  | statement => exact Node.disciplined_statementPlan _
  | bind =>
    exact disciplined_of_straight (by simp +decide [Routine.bindPlan, or_imp, forall_and])

theorem straight_bodyPlan (body : List Node) :
    ∀ p ∈ bodyPlan body, p.Neat ∧ p.defines = [] ∧ p.loopDepth 0 = some 0 := by
  simp +decide [bodyPlan, endPlan, or_imp, forall_and]

theorem Routine.fixed_prologue (r : Routine) : ∀ l ∈ r.prologue, l.Fixed := by
  intro l hl
  rcases List.mem_append.mp hl with hl | hl
  · obtain ⟨name, -, rfl⟩ := List.mem_map.mp hl
    simp [Line.Fixed]
  · obtain ⟨⟨param, position⟩, -, rfl⟩ := List.mem_map.mp hl
    rfl

/-- **The plans of functions are disciplined.** -/
theorem Routine.disciplined_plan (r : Routine) : Disciplined r.plan := by
  have hl : Disciplined (r.prologue.map .line) := by
    refine disciplined_of_straight fun p hp => ?_
    obtain ⟨l, hl, rfl⟩ := List.mem_map.mp hp
    exact ⟨r.fixed_prologue l hl, rfl, rfl⟩
  rw [plan]
  exact hl.append (straight_bodyPlan r.body)

end Plans

/-- The labels of a construct differ, and all of them have been handed out. -/
structure Mark.Labelled (m : Mark) : Prop where
  nodup : m.own.Nodup
  lt : ∀ label ∈ m.own, label.id < m.labels

theorem Mark.Labelled.fresh {m m₁ : Mark} (h : m.Labelled) (ho : m₁.own = m.own ++ [⟨m.labels⟩])
    (hl : m₁.labels = m.labels + 1) : m₁.Labelled := by
  constructor
  · rw [ho, List.nodup_append]
    refine ⟨h.nodup, by simp, ?_⟩
    intro label hm other hs he
    cases List.mem_singleton.mp hs
    exact Nat.lt_irrefl m.labels (by simpa [he] using h.lt label hm)
  · intro label hm
    rw [ho, List.mem_append, List.mem_singleton] at hm
    rw [hl]
    rcases hm with hm | rfl
    · exact Nat.lt_succ_of_lt (h.lt label hm)
    · exact Nat.lt_succ_self _

theorem Mark.Labelled.of_own {m m₁ : Mark} (h : m.Labelled) (ho : m₁.own = m.own)
    (hl : m.labels ≤ m₁.labels) : m₁.Labelled := by
  refine ⟨ho ▸ h.nodup, fun label hm => ?_⟩
  rw [ho] at hm
  exact Nat.lt_of_lt_of_le (h.lt label hm) hl

/-- **Labels that are accounted for** on the way from a mark to the count `last`: each is one of
those that its construct has at the `indices` or is handed out on the way, and none is there
twice. -/
structure Mark.Accounts (m : Mark) (last : Nat) (indices : List Nat) (labels : List Label) :
    Prop where
  nodup : labels.Nodup
  mem : ∀ label ∈ labels, (∃ index ∈ indices, m.own[index]? = some label) ∨
    m.labels ≤ label.id ∧ label.id < last

namespace Mark.Accounts

variable {m m₁ : Mark} {last : Nat} {indices : List Nat} {labels : List Label}

theorem perm {labels' : List Label} (h : m.Accounts last indices labels)
    (hp : labels.Perm labels') :
    m.Accounts last indices labels' :=
  ⟨hp.nodup_iff.mp h.nodup, fun label hm => h.mem label (hp.mem_iff.mpr hm)⟩

/-- A label that is handed out first counts as handed out on the way. -/
theorem of_fresh (ho : m₁.own = m.own ++ [⟨m.labels⟩]) (hl : m₁.labels = m.labels + 1)
    (hle : m₁.labels ≤ last) (h : m₁.Accounts last indices labels) :
    m.Accounts last indices labels := by
  refine ⟨h.nodup, fun label hm => ?_⟩
  rcases h.mem label hm with ⟨index, hi, hx⟩ | ⟨hlo, hhi⟩
  · rw [ho, List.getElem?_append] at hx
    split at hx
    · exact .inl ⟨index, hi, hx⟩
    · cases List.mem_singleton.mp (List.mem_of_getElem? hx)
      exact .inr ⟨Nat.le_refl _, by simp only; omega⟩
  · exact .inr ⟨by omega, hhi⟩

/-- A label of the construct is defined, and no other definition is of the same one. -/
theorem define {index : Nat} {label : Label} (hm : m.Labelled) (ho : m.own[index]? = some label)
    (hi : index ∉ indices) (h : m.Accounts last indices labels) :
    m.Accounts last (index :: indices) (label :: labels) := by
  refine ⟨List.nodup_cons.mpr ⟨fun hlabel => ?_, h.nodup⟩, fun other hother => ?_⟩
  · rcases h.mem label hlabel with ⟨index', hi', hx⟩ | ⟨hlo, -⟩
    · have he := (List.getElem?_inj (List.getElem?_eq_some_iff.mp ho).1 hm.nodup).mp
        (ho.trans hx.symm)
      exact hi (he ▸ hi')
    · exact Nat.not_lt.mpr hlo (hm.lt label (List.mem_of_getElem? ho))
  · rcases List.mem_cons.mp hother with rfl | hother
    · exact .inl ⟨index, List.mem_cons_self, ho⟩
    · rcases h.mem other hother with ⟨index', hi', hx⟩ | hr
      · exact .inl ⟨index', List.mem_cons_of_mem _ hi', hx⟩
      · exact .inr hr

/-- **A construct or a function inside has labels of its own**: it starts without any, so those that
it defines are handed out in it, before those of what follows. -/
theorem append {m₀ : Mark} {indices' : List Nat} {more : List Label} (hm : m.Labelled)
    (h : m₁.Accounts last indices more) (ho : m₁.own = m.own) (hle : m.labels ≤ m₁.labels)
    (hlast : m₁.labels ≤ last) (inside : m₀.Accounts m₁.labels indices' labels)
    (h₀ : m₀.own = []) (hl : m₀.labels = m.labels) :
    m.Accounts last indices (labels ++ more) := by
  have hin : ∀ label ∈ labels, m.labels ≤ label.id ∧ label.id < m₁.labels := by
    intro label hlabel
    rcases inside.mem label hlabel with ⟨index, -, hx⟩ | hr
    · rw [h₀] at hx
      cases hx
    · exact hl ▸ hr
  refine ⟨List.nodup_append.mpr ⟨inside.nodup, h.nodup, ?_⟩, fun label hlabel => ?_⟩
  · rintro label hlabel _ hmore rfl
    have hr := hin label hlabel
    rcases h.mem label hmore with ⟨index, -, hx⟩ | ⟨hlo, -⟩
    · rw [ho] at hx
      exact Nat.not_lt.mpr hr.1 (hm.lt label (List.mem_of_getElem? hx))
    · exact Nat.not_lt.mpr hlo hr.2
  · rcases List.mem_append.mp hlabel with hlabel | hlabel
    · have hr := hin label hlabel
      exact .inr ⟨hr.1, Nat.lt_of_lt_of_le hr.2 hlast⟩
    · rcases h.mem label hlabel with hx | ⟨hlo, hhi⟩
      · exact .inl (ho ▸ hx)
      · exact .inr ⟨Nat.le_trans hle hlo, hhi⟩

end Mark.Accounts

/-! ## Lines of disciplined plans -/

/-- **The lines that disciplined plans come to.** -/
inductive Line.Planned (chain : List (List String)) : Line → Prop
  | fixed {l : Line} : l.Fixed → Planned chain l
  | load (name : String) : Planned chain (accessLine .pushVariable .pushGlobal chain name)
  | store (name : String) : Planned chain (accessLine .setVariable .setGlobal chain name)
  | jump {op : Opcode} (label : Label) : op.isJump = true → Planned chain (.jump op label)
  | define (label : Label) : Planned chain (.define label)
  | close (id : SectionId) : Planned chain (.unary .close id)

theorem Line.Planned.shaped {chain : List (List String)} {l : Line} (h : l.Planned chain) :
    l.Shaped := by
  cases h with
  | fixed h => exact shaped_of_fixed h
  | load name | store name =>
    rw [accessLine]
    split
    · rfl
    · exact ⟨rfl, rfl⟩
  | jump label h => exact h
  | define label => trivial
  | close id => exact ⟨rfl, rfl⟩

namespace Emits

open ScriptCompiler.Part

variable {chain : List (List String)} {m m' : Mark} {parts : List Part} {lines : List Line}
  {pieces : List Piece}

theorem planned_of_step {p : Part} {here : List Line} {m₁ : Mark}
    (h : Step chain m p here m₁) (hp : p.Neat) : ∀ l ∈ here, l.Planned chain := by
  cases h with
  | line l => exact List.forall_mem_singleton.mpr (.fixed hp)
  | load name => exact List.forall_mem_singleton.mpr (.load name)
  | store name => exact List.forall_mem_singleton.mpr (.store name)
  | jump => exact List.forall_mem_singleton.mpr (.jump _ hp)
  | leave | again => exact List.forall_mem_singleton.mpr (.jump _ rfl)
  | pass => exact List.forall_mem_singleton.mpr (.close _)
  | define => exact List.forall_mem_singleton.mpr (.define _)
  | _ => simp

/-- **The lines of a plan are of a few sorts.** -/
theorem planned (h : Emits chain m parts lines pieces m') (hn : ∀ p ∈ parts, p.Neat) :
    ∀ l ∈ lines, l.Planned chain := by
  induction h with
  | nil => simp
  | step hp _ ih =>
    rw [List.forall_mem_cons] at hn
    exact List.forall_mem_append.mpr ⟨planned_of_step hp hn.1, ih hn.2⟩
  | inner hp _ _ ihi ih =>
    rw [List.forall_mem_cons] at hn
    exact List.forall_mem_append.mpr ⟨ihi (disciplined_of_inner hp).neat, ih hn.2⟩
  | literal _ _ _ ih =>
    rw [List.forall_mem_cons] at hn
    exact List.forall_mem_cons.mpr ⟨.close _, ih hn.2⟩

/-- The lines of a plan are shaped. -/
theorem shaped (h : Emits chain m parts lines pieces m') (hn : ∀ p ∈ parts, p.Neat) :
    ∀ l ∈ lines, l.Shaped :=
  fun l hl => (h.planned hn l hl).shaped

theorem labels_le (h : Emits chain m parts lines pieces m') : m.labels ≤ m'.labels := by
  induction h with
  | nil => exact Nat.le_refl _
  | step hp _ ih =>
    refine Nat.le_trans ?_ ih
    cases hp <;> first | exact Nat.le_refl _ | exact Nat.le_succ _
  | inner _ _ _ ihi ih => exact Nat.le_trans ihi ih
  | literal _ _ ihi ih => exact Nat.le_trans ihi ih

/-- The loops that were open and are not left are open after a plan. -/
theorem drop_loops (h : Emits chain m parts lines pieces m') {depth depth' : Nat}
    (hd : loopDepth depth parts = some depth') : m'.loops.drop depth' = m.loops.drop depth := by
  induction h generalizing depth depth' with
  | nil =>
    cases hd
    rfl
  | step hp _ ih =>
    rw [loopDepth, List.foldlM_cons] at hd
    cases hp with
    | exit =>
      cases depth with
      | zero => cases hd
      | succ depth =>
        rw [ih hd, List.drop_tail]
        rfl
    | _ => exact ih hd
  | inner hp _ _ ihi ih =>
    rw [loopDepth, List.foldlM_cons] at hd
    have hl := ihi (disciplined_of_inner hp).loops
    have hr : List.drop _ _ = List.drop depth _ := ih (by cases hp <;> exact hd)
    rw [hr]
    exact congrArg _ hl
  | literal _ _ _ ih => exact ih hd

/-- **The loops after a disciplined plan** are those before it. -/
theorem loops (h : Emits chain m parts lines pieces m') (hd : Disciplined parts) :
    m'.loops = m.loops :=
  h.drop_loops hd.loops

/-! ## Labels -/

/-- What an elementary part does to labels: it hands one out, it defines one, or nothing. -/
theorem labels_of_step {p : Part} {here : List Line} {m₁ : Mark}
    (h : Step chain m p here m₁) (hp : p.Neat) :
    (p = fresh ∧ here = [] ∧ m₁.own = m.own ++ [⟨m.labels⟩] ∧ m₁.labels = m.labels + 1) ∨
    (∃ index label, p = define index ∧ here = [.define label] ∧ m.own[index]? = some label ∧
      m₁ = m) ∨
    (p.defines = [] ∧ Assembly.defined here = [] ∧ m₁.own = m.own ∧ m₁.labels = m.labels) := by
  cases h with
  | line l =>
    refine .inr (.inr ⟨rfl, ?_, rfl, rfl⟩)
    cases l with
    | define => cases hp
    | _ => rfl
  | load name | store name =>
    refine .inr (.inr ⟨rfl, ?_, rfl, rfl⟩)
    rw [accessLine]
    split <;> rfl
  | fresh => exact .inl ⟨rfl, rfl, rfl, rfl⟩
  | define ho => exact .inr (.inl ⟨_, _, rfl, rfl, ho, rfl⟩)
  | _ => exact .inr (.inr ⟨rfl, rfl, rfl, rfl⟩)

/-- **The labels that a plan defines are accounted for**, in its lines and in the sections of the
functions inside together. -/
theorem accounts (h : Emits chain m parts lines pieces m') (hm : m.Labelled)
    (hn : ∀ p ∈ parts, p.Neat) (hd : (parts.flatMap Part.defines).Nodup) :
    m.Accounts m'.labels (parts.flatMap Part.defines)
      (Assembly.defined (lines ++ pieces.flatMap Piece.lines)) := by
  induction h with
  | nil => exact ⟨List.nodup_nil, by simp⟩
  | @step _ m _ rest _ m₁ lines _ m' hp h ih =>
    rw [List.forall_mem_cons] at hn
    rw [List.flatMap_cons] at hd ⊢
    rw [List.append_assoc, Assembly.defined_append]
    obtain ⟨rfl, rfl, ho, hl⟩ | ⟨index, label, rfl, rfl, ho, rfl⟩ | ⟨hd', he, ho, hl⟩ :=
      labels_of_step hp hn.1
    · exact (ih (hm.fresh ho hl) hn.2 hd).of_fresh ho hl h.labels_le
    · have hd : (index :: rest.flatMap Part.defines).Nodup := hd
      rw [List.nodup_cons] at hd
      exact (ih hm hn.2 hd.2).define hm ho hd.1
    · rw [hd'] at hd ⊢
      rw [he]
      have hacc := ih (hm.of_own ho (Nat.le_of_eq hl.symm)) hn.2 hd
      exact ⟨hacc.nodup, by rw [← ho, ← hl]; exact hacc.mem⟩
  | @inner _ m p plan here inside m₁ rest lines pieces m' hp hi hr ihi ih =>
    rw [List.forall_mem_cons] at hn
    have hd' : p.defines = [] := by cases hp <;> rfl
    rw [List.flatMap_cons, hd', List.nil_append] at hd ⊢
    have hle : m.labels ≤ m₁.labels := hi.labels_le
    have hp' := disciplined_of_inner hp
    have hin := ihi ⟨List.nodup_nil, by simp [Mark.inner]⟩ hp'.neat hp'.defines
    have hout := ih (hm.of_own rfl hle) hn.2 hd
    refine (Mark.Accounts.append hm hout rfl hle hr.labels_le hin rfl rfl).perm ?_
    simp only [List.flatMap_append, Assembly.defined_append, List.append_assoc]
    exact (List.perm_append_comm_assoc _ _ _).append_left _
  | @literal _ m r body inside m₁ rest lines pieces m' hi hr ihi ih =>
    rw [List.forall_mem_cons] at hn
    have hle : m.labels ≤ m₁.labels := hi.labels_le
    have hr' := r.disciplined_plan
    have hin := ihi ⟨List.nodup_nil, by simp [Mark.inside]⟩ hr'.neat hr'.defines
    have hout := ih (hm.of_own rfl hle) hn.2 hd
    refine (Mark.Accounts.append hm hout rfl hle hr.labels_le hin rfl rfl).perm ?_
    have hclose : Assembly.defined (.unary .close m.sections :: lines) = Assembly.defined lines :=
      rfl
    simp only [List.flatMap_append, List.flatMap_cons, Assembly.defined_append, hclose]
    exact List.perm_append_comm_assoc _ _ _

/-- **No label stands for two places** in the lines of a plan and the sections of the functions
inside. -/
theorem nodup_defined (h : Emits chain m parts lines pieces m') (hm : m.own = [])
    (hd : Disciplined parts) :
    (Assembly.defined (lines ++ pieces.flatMap Piece.lines)).Nodup :=
  (h.accounts ⟨by simp [hm], by simp [hm]⟩ hd.neat hd.defines).nodup

end Emits

end ScriptCompiler
