import ScriptCompiler.CompileError
import ScriptCompiler.Generator.Place
import ScriptCompiler.Proofs.Assembly
import ScriptCompiler.Proofs.Routine

/-!
# Plans of code

The code of a construct is planned as a list of parts: lines of assembly, uses of names, labels and
jumps, and the code of the nodes inside. A plan numbers the labels of its own construct in the order
in which they are handed out, so that it says all about the construct and nothing about the place
where the construct stands.

## Main definitions

* `Part`: a part of a plan
* `Node.plan`, `Node.statementPlan`: the code of a node, and of a node in statement position
* `Routine.plan`, `topPlan`: the code of a function, and of the top level of a program
* `Part.routines`: the functions whose sections a part opens

## Main results

* `Node.literals_eq`: the function literals of a node are those in its plan
* `Part.induction`: induction over plans, through the plans behind their parts
-/

namespace ScriptCompiler

/-- **A part of a plan.** Labels of the construct that is planned go by the order in which they are
handed out. -/
inductive Part where
  /-- A line of assembly. -/
  | line (line : Line)
  /-- The value of a name. -/
  | load (name : String)
  /-- Stores the top value under a name. -/
  | store (name : String)
  /-- Hands out a label. -/
  | fresh
  /-- The place one of the labels stands for. -/
  | define (index : Nat)
  /-- A jump to one of the labels. -/
  | jump (op : Opcode) (index : Nat)
  /-- From here on a loop with the given labels is the innermost one. -/
  | enter (next done : Nat)
  /-- The innermost loop ends here. -/
  | exit
  /-- A jump out of the innermost loop. -/
  | leave
  /-- A jump to the next round of the innermost loop. -/
  | again
  /-- The code of a node where a value is needed. -/
  | value (node : Node)
  /-- The code of a node in statement position. -/
  | statement (node : Node)
  /-- A closure over the next of the declared functions that the statements have not passed yet. -/
  | pass
  /-- Counts the next section among those of the declared functions. -/
  | note
  /-- A section for a function, and a closure over it. -/
  | literal (routine : Routine)
  /-- Compiles a declared function and binds it to its name. -/
  | bind (routine : Routine)
  /-- There is no code. -/
  | fail (error : CompileError)

/-- An instruction without operands. -/
abbrev Part.plain (op : Opcode) : Part := .line (.plain op)

/-! ## The plans of constructs -/

namespace Place

/-- The plan of `Place.fetch`. -/
def fetchPlan : Place → List Part
  | ident name => [.load name]
  | member property => [.plain .dup, .line (.text .member property)]
  | index => [.plain .dup2, .plain .index]

/-- The plan of `Place.store`. -/
def storePlan : Place → List Part
  | ident name => [.store name]
  | member property => [.line (.text .setMember property)]
  | index => [.plain .setIndex]

/-- The plan of `Place.keepOld`. -/
def keepPlan : Place → List Part
  | ident _ => [.plain .dup]
  | member _ | index => [.plain .saveTemporary]

/-- The plan of `Place.recallOld`. -/
def recallPlan : Place → List Part
  | ident _ => [.plain .pop]
  | member _ | index => [.plain .pop, .plain .loadTemporary]

/-- The plan of `Place.update`. -/
def updatePlan (op : Opcode) (before : Bool) (place : Place) : List Part :=
  if before then place.fetchPlan ++ .plain op :: place.storePlan
  else place.fetchPlan ++ place.keepPlan ++ .plain op :: place.storePlan ++ place.recallPlan

end Place

namespace Node

/-- The plan of the object and the key of a target and of what is done with the place. -/
def placePlan (use : Place → List Part) : Node → List Part
  | ident name => use (.ident name)
  | member object property => .value object :: use (.member property)
  | index object key => .value object :: .value key :: use .index
  | other => [.fail (.invalidTarget other.kind)]

/-- The plan of what is called: an object and a key for a method, and otherwise a function. -/
def calleePlan : Node → List Part
  | member object property => [.value object, .line (.text .pushString property)]
  | index object key => [.value object, .value key]
  | other => [.value other]

/-- What is assigned to is a name, a member, an element, or nothing that can be. -/
theorem target_cases (target : Node) :
    (∃ name, target = ident name) ∨ (∃ object property, target = member object property) ∨
      (∃ object key, target = index object key) ∨
      ∀ use, target.placePlan use = [.fail (.invalidTarget target.kind)] := by
  cases target with
  | ident name => exact .inl ⟨name, rfl⟩
  | member object property => exact .inr (.inl ⟨object, property, rfl⟩)
  | index object key => exact .inr (.inr (.inl ⟨object, key, rfl⟩))
  | _ => exact .inr (.inr (.inr fun _ => rfl))

/-- What is called is a member, an element, or a value by itself. -/
theorem callee_cases (callee : Node) :
    (∃ object property, callee = member object property) ∨
      (∃ object key, callee = index object key) ∨
      callee.calleePlan = [.value callee] ∧ callee.isMethod = false := by
  cases callee with
  | member object property => exact .inl ⟨object, property, rfl⟩
  | index object key => exact .inr (.inl ⟨object, key, rfl⟩)
  | _ => exact .inr (.inr ⟨rfl, rfl⟩)

/-- The plan of values of which only the last stays on the stack. -/
def sequencePlan : List Node → List Part
  | [] => [.plain .pushUndefined]
  | [node] => [.value node]
  | node :: rest => .value node :: .plain .pop :: sequencePlan rest

/-- **The plan of a node.** -/
def plan : Node → List Part
  | declaration _ none => []
  | declaration name (some value) => [.value value, .store name, .plain .pop]
  | function name params body => [.literal ⟨name, params, body⟩]
  | ret none => [.plain .pushUndefined, .plain .ret]
  | ret (some value) => [.value value, .plain .ret]
  | ifElse test consequent none =>
    [.fresh, .value test, .jump .jumpIfFalse 0, .statement consequent, .define 0]
  | ifElse test consequent (some alternate) =>
    [.fresh, .value test, .jump .jumpIfFalse 0, .statement consequent, .fresh, .jump .jump 1,
      .define 0, .statement alternate, .define 1]
  | forLoop init test step body =>
    init.toList.map .statement ++ [.fresh, .fresh, .fresh, .define 0] ++
      test.elim [] (fun test => [.value test, .jump .jumpIfFalse 2]) ++
      [.enter 1 2, .statement body, .define 1] ++
      step.elim [] (fun step => [.value step, .plain .pop]) ++
      [.jump .jump 0, .define 2, .exit]
  | whileLoop test body =>
    [.fresh, .fresh, .define 0, .value test, .jump .jumpIfFalse 1, .enter 0 1, .statement body,
      .jump .jump 0, .define 1, .exit]
  | breakLoop => [.leave]
  | continueLoop => [.again]
  | block statements => statements.map .statement
  | ident name => [.load name]
  | number value => [.line (.number value)]
  | string value => [.line (.text .pushString value)]
  | boolean value => [.plain (if value then .pushTrue else .pushFalse)]
  | null => [.plain .pushNull]
  | undefined => [.plain .pushUndefined]
  | array elements => elements.map .value ++ [.line (.unary .array elements.length)]
  | member object property => [.value object, .line (.text .member property)]
  | index object key => [.value object, .value key, .plain .index]
  | call callee arguments =>
    callee.calleePlan ++ arguments.map .value ++
      [.line (.unary (if callee.isMethod then .methodCall else .call) arguments.length)]
  | assign target value => target.placePlan fun place => .value value :: place.storePlan
  | binary operator left right => [.value left, .value right, .plain operator.opcode]
  | compound operator target value => target.placePlan fun place =>
    place.fetchPlan ++ .value value :: .plain operator.opcode :: place.storePlan
  | logical operator left right =>
    [.fresh, .value left, .plain .dup, .jump operator.opcode 0, .plain .pop, .value right,
      .define 0]
  | unary operator argument => [.value argument, .plain operator.opcode]
  | update operator before target => target.placePlan (Place.updatePlan operator.opcode before)
  | conditional test consequent alternate =>
    [.fresh, .fresh, .value test, .jump .jumpIfFalse 0, .value consequent, .jump .jump 1,
      .define 0, .value alternate, .define 1]
  | sequence expressions => sequencePlan expressions
  | unsupported kind => [.fail (.unsupportedConstruct kind)]

attribute [simp] Place.fetchPlan Place.storePlan Place.keepPlan Place.recallPlan Place.updatePlan

/-- **The plan of a node in statement position.** The value of an expression is dropped, and a
declared function has been compiled already. -/
def statementPlan (node : Node) : List Part :=
  if node.isExpression then
    (if node.isDeclaredFunction then [.pass] else node.plan) ++ [.plain .pop]
  else node.plan

end Node

/-- The end of every section, which returns undefined. -/
def endPlan : List Part := [.plain .pushUndefined, .plain .ret]

/-- The plan of the statements of a body: the functions declared in it are bound before. -/
def bodyPlan (body : List Node) : List Part :=
  (declaredIn body).map .bind ++ body.map .statement ++ endPlan

namespace Routine

/-- The plan of binding a declared function to its name. -/
def bindPlan (r : Routine) : List Part :=
  .note :: .literal r :: (r.name.toList.map .store ++ [.plain .pop])

/-- The lines that bind the name of a function and its parameters to their slots. -/
def prologue (r : Routine) : List Line :=
  r.name.toList.map (fun name => .unary .setCallee (r.locals.idxOf name)) ++
    r.params.zipIdx.map (fun (param, position) =>
      .binary .setArgument (r.locals.idxOf param) position)

/-- **The plan of a function.** -/
def plan (r : Routine) : List Part := r.prologue.map .line ++ bodyPlan r.body

end Routine

/-! ## Functions in plans -/

namespace Part

/-- The functions whose sections a part opens, those inside them apart. -/
def routines : Part → List Routine
  | value node => node.literals
  | statement node => node.ownLiterals
  | literal r | bind r => [r]
  | _ => []

end Part

section Routines

open ScriptCompiler.Part

theorem flatMap_routines_value (nodes : List Node) :
    (nodes.map .value).flatMap routines = nodes.flatMap Node.literals := by
  rw [List.flatMap_map]
  rfl

theorem flatMap_routines_statement (nodes : List Node) :
    (nodes.map .statement).flatMap routines = nodes.flatMap Node.ownLiterals := by
  rw [List.flatMap_map]
  rfl

theorem flatMap_routines_line (lines : List Line) : (lines.map .line).flatMap routines = [] := by
  simp [List.flatMap_map, routines]

theorem flatMap_routines_bind (rs : List Routine) : (rs.map .bind).flatMap routines = rs := by
  simp [List.flatMap_map, routines]

theorem flatMap_routines_sequencePlan (nodes : List Node) :
    (Node.sequencePlan nodes).flatMap routines = nodes.flatMap Node.literals := by
  fun_induction Node.sequencePlan nodes with
  | case1 => rfl
  | case2 => rfl
  | case3 node rest _ ih => simp [routines, ih]

/-- **The function literals of a node** are those in its plan. -/
theorem Node.literals_eq (node : Node) : node.literals = node.plan.flatMap routines := by
  cases node with
  | declaration name init => cases init <;> simp [literals, plan, routines]
  | ret argument => cases argument <;> simp [literals, plan, routines]
  | ifElse test consequent alternate =>
    cases alternate <;> simp [literals, plan, routines, ownLiterals]
  | forLoop init test step body =>
    cases init <;> cases test <;> cases step <;>
      simp [literals, initLiterals, literalsOptional, plan, routines, ownLiterals]
  | block statements =>
    rw [literals, statementLiterals_eq, plan, flatMap_routines_statement]
  | array elements =>
    simp [literals, literalsAll_eq, plan, flatMap_routines_value, routines]
  | call callee arguments =>
    cases callee <;>
      simp [literals, literalsAll_eq, plan, calleePlan, flatMap_routines_value, routines]
  | sequence expressions =>
    rw [literals, literalsAll_eq, plan, flatMap_routines_sequencePlan]
  | assign target value =>
    cases target <;> simp [literals, plan, placePlan, routines]
  | compound operator target value =>
    cases target <;> simp [literals, plan, placePlan, routines]
  | update operator before target =>
    cases target <;> cases before <;>
      simp [literals, plan, placePlan, routines]
  | _ => simp [literals, plan, routines, ownLiterals]

theorem Node.ownLiterals_eq (node : Node) :
    node.ownLiterals = node.statementPlan.flatMap routines := by
  rw [ownLiterals, unlessDeclared, statementPlan, literals_eq]
  cases hd : node.isDeclaredFunction with
  | true =>
    have he : node.isExpression = true := by
      cases node <;> first | rfl | cases hd
    simp [he, routines]
  | false => cases node.isExpression <;> simp [routines]

theorem Routine.flatMap_routines_bindPlan (r : Routine) : r.bindPlan.flatMap routines = [r] := by
  cases hn : r.name <;> simp [bindPlan, hn, routines]

theorem flatMap_routines_bodyPlan (body : List Node) :
    (bodyPlan body).flatMap routines = functionsIn body := by
  simp [bodyPlan, endPlan, functionsIn, literalsIn, flatMap_routines_statement,
    flatMap_routines_bind, routines]

theorem Routine.flatMap_routines_plan (r : Routine) :
    r.plan.flatMap routines = functionsIn r.body := by
  rw [plan, List.flatMap_append, flatMap_routines_line, flatMap_routines_bodyPlan,
    List.nil_append]

end Routines

/-! ## Plans behind parts -/

namespace Part

/-- A bound on how deep plans stand behind a part. -/
noncomputable def size : Part → Nat
  | value node | statement node => sizeOf node
  | literal r | bind r => sizeOf r.body
  | _ => 0

end Part

section Size

open ScriptCompiler.Part

/-- A bound on how deep plans stand behind parts. -/
noncomputable def sizeOfParts : List Part → Nat
  | [] => 0
  | p :: rest => max (p.size + 1) (sizeOfParts rest)

theorem sizeOfParts_le_iff {parts : List Part} {bound : Nat} :
    sizeOfParts parts ≤ bound ↔ ∀ p ∈ parts, p.size < bound := by
  induction parts with
  | nil => simp [sizeOfParts]
  | cons p rest ih => rw [sizeOfParts, Nat.max_le, ih, List.forall_mem_cons, Nat.succ_le_iff]

theorem sizeOfParts_append (parts more : List Part) :
    sizeOfParts (parts ++ more) = max (sizeOfParts parts) (sizeOfParts more) := by
  induction parts with
  | nil => exact (Nat.zero_max _).symm
  | cons p rest ih => rw [List.cons_append, sizeOfParts, ih, sizeOfParts, Nat.max_assoc]

theorem size_values (nodes : List Node) : ∀ p ∈ nodes.map value, p.size < sizeOf nodes := by
  simpa [size] using fun node => List.sizeOf_lt_of_mem

theorem size_statements (nodes : List Node) :
    ∀ p ∈ nodes.map statement, p.size < sizeOf nodes := by
  simpa [size] using fun node => List.sizeOf_lt_of_mem

theorem size_sequencePlan (nodes : List Node) :
    ∀ p ∈ Node.sequencePlan nodes, p.size < sizeOf nodes := by
  fun_induction Node.sequencePlan nodes with
  | case1 => simp [size]
  | case2 node => exact size_values [node]
  | case3 node rest _ ih =>
    intro p hp
    simp only [List.cons.sizeOf_spec]
    rcases List.mem_cons.mp hp with rfl | hp
    · simp only [size]
      omega
    · rcases List.mem_cons.mp hp with rfl | hp
      · simp only [size]
        omega
      · exact Nat.lt_of_lt_of_le (ih p hp) (Nat.le_add_left _ _)

theorem sizeOfParts_calleePlan_le (callee : Node) :
    sizeOfParts callee.calleePlan ≤ sizeOf callee + 1 := by
  obtain ⟨object, property, rfl⟩ | ⟨object, key, rfl⟩ | ⟨hp, -⟩ := callee.callee_cases
  · simp only [Node.calleePlan, sizeOfParts, size, Node.member.sizeOf_spec]
    omega
  · simp only [Node.calleePlan, sizeOfParts, size, Node.index.sizeOf_spec]
    omega
  · rw [hp, sizeOfParts, sizeOfParts, Nat.max_zero]
    exact Nat.le_refl _

theorem sizeOfParts_placePlan_le {use : Place → List Part} {target : Node} {bound : Nat}
    (hu : ∀ place, sizeOfParts (use place) ≤ bound) (ht : sizeOf target < bound) :
    sizeOfParts (target.placePlan use) ≤ bound := by
  obtain ⟨name, rfl⟩ | ⟨object, property, rfl⟩ | ⟨object, key, rfl⟩ | hf := target.target_cases
  · exact hu _
  · have := hu (.member property)
    rw [Node.member.sizeOf_spec] at ht
    simp only [Node.placePlan, sizeOfParts, size]
    omega
  · have := hu .index
    rw [Node.index.sizeOf_spec] at ht
    simp only [Node.placePlan, sizeOfParts, size]
    omega
  · rw [hf, sizeOfParts, sizeOfParts, Nat.max_zero]
    exact Nat.zero_lt_of_lt ht

theorem Node.sizeOf_pos (node : Node) : 0 < sizeOf node := by
  refine Nat.pos_of_ne_zero fun h => ?_
  cases node <;> simp at h

theorem Node.sizeOfParts_plan_le (node : Node) : sizeOfParts node.plan ≤ sizeOf node := by
  cases node with
  | declaration name init =>
    cases init <;> simp only [plan, sizeOfParts, Nat.max_le, size, declaration.sizeOf_spec,
      Option.some.sizeOf_spec] <;> omega
  | ret argument =>
    cases argument <;> simp only [plan, sizeOfParts, Nat.max_le, size, ret.sizeOf_spec,
      Option.some.sizeOf_spec] <;> omega
  | ifElse test consequent alternate =>
    cases alternate <;> simp only [plan, sizeOfParts, Nat.max_le, size, ifElse.sizeOf_spec,
      Option.some.sizeOf_spec] <;> omega
  | forLoop init test step body =>
    cases init <;> cases test <;> cases step <;>
      simp only [plan, Option.toList, Option.elim, List.map, sizeOfParts_append, sizeOfParts,
        Nat.max_le, size, forLoop.sizeOf_spec, Option.some.sizeOf_spec] <;> omega
  | whileLoop | function | member | index | binary | logical | unary | conditional =>
    simp only [plan, sizeOfParts, Nat.max_le, size, whileLoop.sizeOf_spec, function.sizeOf_spec,
      member.sizeOf_spec, index.sizeOf_spec, binary.sizeOf_spec, logical.sizeOf_spec,
      unary.sizeOf_spec, conditional.sizeOf_spec]
    omega
  | assign target value =>
    rw [plan, assign.sizeOf_spec]
    refine sizeOfParts_placePlan_le (fun place => ?_) (by omega)
    cases place <;> simp only [Place.storePlan, sizeOfParts, Nat.max_le, size] <;> omega
  | compound operator target value =>
    rw [plan, compound.sizeOf_spec]
    refine sizeOfParts_placePlan_le (fun place => ?_) (by omega)
    cases place <;> simp only [Place.fetchPlan, Place.storePlan, sizeOfParts_append, sizeOfParts,
      size] <;> omega
  | update operator before target =>
    rw [plan, update.sizeOf_spec]
    refine sizeOfParts_placePlan_le (fun place => ?_) (by omega)
    cases before <;> cases place <;> simp only [Place.updatePlan, Place.fetchPlan,
      Place.storePlan, Place.keepPlan, Place.recallPlan, sizeOfParts_append, sizeOfParts,
      Nat.max_le, size, Bool.false_eq_true, if_true, if_false] <;> omega
  | block statements =>
    have := sizeOfParts_le_iff.mpr (size_statements statements)
    rw [plan, block.sizeOf_spec]
    omega
  | array elements =>
    have := sizeOfParts_le_iff.mpr (size_values elements)
    simp only [plan, sizeOfParts_append, sizeOfParts, Nat.max_le, size, array.sizeOf_spec]
    omega
  | call callee arguments =>
    have := sizeOfParts_calleePlan_le callee
    have := sizeOfParts_le_iff.mpr (size_values arguments)
    simp only [plan, sizeOfParts_append, sizeOfParts, Nat.max_le, size, call.sizeOf_spec]
    omega
  | sequence expressions =>
    have := sizeOfParts_le_iff.mpr (size_sequencePlan expressions)
    rw [plan, sequence.sizeOf_spec]
    omega
  | _ => exact Nat.max_le.mpr ⟨sizeOf_pos _, Nat.zero_le _⟩

/-- The parts of the plan of a node are smaller than the node. -/
theorem Node.size_plan (node : Node) : ∀ p ∈ node.plan, p.size < sizeOf node :=
  sizeOfParts_le_iff.mp node.sizeOfParts_plan_le

theorem Node.size_statementPlan (node : Node) :
    ∀ p ∈ node.statementPlan, p.size < sizeOf node := by
  intro p hp
  rw [statementPlan] at hp
  split at hp
  · rcases List.mem_append.mp hp with hp | hp
    · split at hp
      · cases List.mem_singleton.mp hp
        exact node.sizeOf_pos
      · exact node.size_plan p hp
    · cases List.mem_singleton.mp hp
      exact node.sizeOf_pos
  · exact node.size_plan p hp

mutual

theorem Node.size_declarations (node : Node) (name : String) (r : Routine)
    (h : (name, some r) ∈ node.declarations) : sizeOf r.body < sizeOf node := by
  cases node with
  | function own params body =>
    cases own with
    | none => cases h
    | some own =>
      cases List.mem_singleton.mp h
      simp only [function.sizeOf_spec]
      omega
  | block statements =>
    have := size_declarationsAll statements name r h
    simp only [block.sizeOf_spec]
    omega
  | ifElse test consequent alternate =>
    cases alternate with
    | none =>
      have := size_declarations consequent name r h
      simp only [ifElse.sizeOf_spec]
      omega
    | some alternate =>
      simp only [ifElse.sizeOf_spec, Option.some.sizeOf_spec]
      rcases List.mem_append.mp h with h | h
      · have := size_declarations consequent name r h
        omega
      · have := size_declarations alternate name r h
        omega
  | forLoop init test step body =>
    cases init with
    | none =>
      have := size_declarations body name r h
      simp only [forLoop.sizeOf_spec]
      omega
    | some init =>
      simp only [forLoop.sizeOf_spec, Option.some.sizeOf_spec]
      rcases List.mem_append.mp h with h | h
      · have := size_declarations init name r h
        omega
      · have := size_declarations body name r h
        omega
  | whileLoop test body =>
    have := size_declarations body name r h
    simp only [whileLoop.sizeOf_spec]
    omega
  | declaration => cases List.mem_singleton.mp h
  | _ => cases h

theorem Node.size_declarationsAll (nodes : List Node) (name : String) (r : Routine)
    (h : (name, some r) ∈ declarationsAll nodes) : sizeOf r.body < sizeOf nodes := by
  cases nodes with
  | nil => cases h
  | cons node rest =>
    simp only [List.cons.sizeOf_spec]
    rcases List.mem_append.mp h with h | h
    · have := size_declarations node name r h
      omega
    · have := size_declarationsAll rest name r h
      omega

end

theorem size_of_mem_declaredIn {body : List Node} {r : Routine} (h : r ∈ declaredIn body) :
    sizeOf r.body < sizeOf body := by
  obtain ⟨node, hn, hr⟩ := List.mem_flatMap.mp h
  obtain ⟨⟨name, _⟩, hd, rfl⟩ := List.mem_filterMap.mp hr
  exact Nat.lt_trans (node.size_declarations name r hd) (List.sizeOf_lt_of_mem hn)

theorem size_binds (body : List Node) :
    ∀ p ∈ (declaredIn body).map bind, p.size < sizeOf body := by
  simpa [size] using fun r => size_of_mem_declaredIn

/-- **Induction over plans.** What a list of parts has if its rest has it and all plans of smaller
parts than its first have it, every list of parts has. -/
theorem Part.induction {P : List Part → Prop} (nil : P [])
    (cons : ∀ p rest, (∀ plan, (∀ q ∈ plan, q.size < p.size) → P plan) → P rest → P (p :: rest))
    (parts : List Part) : P parts := by
  have bounded : ∀ bound parts, (∀ p ∈ parts, p.size < bound) → P parts := by
    intro bound
    induction bound with
    | zero =>
      intro parts hp
      cases parts with
      | nil => exact nil
      | cons p rest => exact absurd (hp p List.mem_cons_self) (Nat.not_lt_zero _)
    | succ bound ih =>
      intro parts hp
      induction parts with
      | nil => exact nil
      | cons p rest ihr =>
        rw [List.forall_mem_cons] at hp
        refine cons p rest (fun plan hs => ih plan fun q hq => ?_) (ihr hp.2)
        exact Nat.lt_of_lt_of_le (hs q hq) (Nat.le_of_lt_succ hp.1)
  obtain ⟨bound, hb⟩ : ∃ bound, ∀ p ∈ parts, p.size < bound := by
    induction parts with
    | nil => exact ⟨0, by simp⟩
    | cons p rest ih =>
      obtain ⟨bound, hb⟩ := ih
      refine ⟨bound + p.size + 1, List.forall_mem_cons.mpr ⟨by omega, fun q hq => ?_⟩⟩
      have := hb q hq
      omega
  exact bounded bound parts hb

end Size

end ScriptCompiler
