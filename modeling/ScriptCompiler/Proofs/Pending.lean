import ScriptCompiler.Proofs.Emission

/-!
# Declared functions on the way through a plan

The functions declared in a body are compiled before its statements, and their sections are noted.
The statements pass the declarations again in the order of the source, so that the next section to
pass is always the right one.

## Main definitions

* `passesOf`: how many declared functions parts pass

## Main results

* `Node.passesOf_statementPlan`: a statement passes the functions that it declares
* `Emits.pending`: what is left to pass after parts
* `Emits.pending_binds`: what is noted by binding functions
-/

namespace ScriptCompiler

namespace Part

/-- How many declared functions a part passes. -/
def passes : Part → Nat
  | statement node => node.declared.length
  | pass => 1
  | _ => 0

/-- Whether a part counts sections among those of the declared functions. -/
def notes : Part → Bool
  | note | bind _ => true
  | _ => false
end Part

/-- How many declared functions parts pass. -/
def passesOf (parts : List Part) : Nat := (parts.map Part.passes).sum

@[simp] theorem passesOf_nil : passesOf [] = 0 := rfl

@[simp] theorem passesOf_cons (p : Part) (rest : List Part) :
    passesOf (p :: rest) = p.passes + passesOf rest := by
  simp [passesOf]

@[simp] theorem passesOf_append (parts more : List Part) :
    passesOf (parts ++ more) = passesOf parts + passesOf more := by
  simp [passesOf]

open ScriptCompiler.Part

theorem passesOf_eq_zero {parts : List Part} (h : ∀ p ∈ parts, p.passes = 0) :
    passesOf parts = 0 := by
  induction parts with
  | nil => rfl
  | cons p rest ih =>
    rw [List.forall_mem_cons] at h
    rw [passesOf_cons, h.1, ih h.2]

theorem passesOf_statements (nodes : List Node) :
    passesOf (nodes.map .statement) = (declaredIn nodes).length := by
  simp [passesOf, declaredIn, List.length_flatMap, Function.comp_def, passes]

theorem passes_sequencePlan (nodes : List Node) : ∀ p ∈ Node.sequencePlan nodes, p.passes = 0 := by
  fun_induction Node.sequencePlan nodes with
  | case1 => simp [passes]
  | case2 => simp [passes]
  | case3 node rest _ ih => exact List.forall_mem_cons.mpr ⟨rfl, List.forall_mem_cons.mpr ⟨rfl, ih⟩⟩

/-- The code of a value passes no declared function. -/
theorem Node.passes_plan {node : Node} (h : node.isExpression = true) :
    ∀ p ∈ node.plan, p.passes = 0 := by
  cases node with
  | declaration | ret | ifElse | forLoop | whileLoop | breakLoop | continueLoop | block
  | unsupported => cases h
  | array elements => simp [plan, or_imp, forall_and, passes]
  | call callee arguments =>
    obtain ⟨object, property, rfl⟩ | ⟨object, key, rfl⟩ | ⟨hp, hm⟩ := callee.callee_cases
    · simp [plan, calleePlan, or_imp, forall_and, passes]
    · simp [plan, calleePlan, or_imp, forall_and, passes]
    · rw [plan, hp]
      simp [or_imp, forall_and, passes]
  | assign target value | compound operator target value =>
    obtain ⟨name, rfl⟩ | ⟨object, property, rfl⟩ | ⟨object, key, rfl⟩ | hf := target.target_cases
    iterate 3 simp [plan, placePlan, passes]
    rw [plan, hf]
    simp [passes]
  | update operator before target =>
    obtain ⟨name, rfl⟩ | ⟨object, property, rfl⟩ | ⟨object, key, rfl⟩ | hf := target.target_cases
    iterate 3 cases before <;> simp [plan, placePlan, passes]
    rw [plan, hf]
    simp [passes]
  | sequence expressions => exact passes_sequencePlan expressions
  | _ => simp [plan, passes]

/-- The statements of a statement pass the functions that it declares. -/
theorem Node.passesOf_plan {node : Node} (h : node.isExpression = false) :
    passesOf node.plan = node.declared.length := by
  cases node with
  | declaration name init => cases init <;> simp [plan, declared, declarations, passes]
  | ret argument => cases argument <;> simp [plan, declared, declarations, passes]
  | ifElse test consequent alternate =>
    cases alternate <;> simp [plan, declared, declarations, passes]
  | forLoop init test step body =>
    cases init <;> cases test <;> cases step <;> simp [plan, declared, declarations, passes]
  | block statements =>
    rw [plan, passesOf_statements, declared, declarations, declarationsAll_eq,
      List.filterMap_flatMap]
    rfl
  | whileLoop | breakLoop | continueLoop | unsupported =>
    simp [plan, declared, declarations, passes]
  | _ => cases h

theorem Node.passesOf_statementPlan (node : Node) :
    passesOf node.statementPlan = node.declared.length := by
  rw [statementPlan]
  cases he : node.isExpression with
  | false => exact passesOf_plan he
  | true =>
    cases hd : node.isDeclaredFunction with
    | true =>
      cases node with
      | function name =>
        cases name with
        | none => cases hd
        | some name => rfl
      | _ => cases hd
    | false =>
      have hn : node.declared = [] := by
        cases node with
        | function name =>
          cases name with
          | none => rfl
          | some name => cases hd
        | _ => first | rfl | cases he
      simp [hn, passesOf_eq_zero (passes_plan he), passes]

/-! ## Notes -/

theorem notes_sequencePlan (nodes : List Node) :
    ∀ p ∈ Node.sequencePlan nodes, p.notes = false := by
  fun_induction Node.sequencePlan nodes with
  | case1 => simp [notes]
  | case2 => simp [notes]
  | case3 node rest _ ih =>
    exact List.forall_mem_cons.mpr ⟨rfl, List.forall_mem_cons.mpr ⟨rfl, ih⟩⟩

/-- Only bodies bind functions. -/
theorem Node.notes_plan (node : Node) : ∀ p ∈ node.plan, p.notes = false := by
  cases node with
  | declaration name init => cases init <;> simp [plan, notes]
  | ret argument => cases argument <;> simp [plan, notes]
  | ifElse test consequent alternate => cases alternate <;> simp [plan, notes]
  | forLoop init test step body =>
    cases init <;> cases test <;> cases step <;> simp [plan, notes]
  | array elements => simp [plan, or_imp, forall_and, notes]
  | call callee arguments =>
    obtain ⟨object, property, rfl⟩ | ⟨object, key, rfl⟩ | ⟨hp, hm⟩ := callee.callee_cases
    · simp [plan, calleePlan, or_imp, forall_and, notes]
    · simp [plan, calleePlan, or_imp, forall_and, notes]
    · rw [plan, hp]
      simp [or_imp, forall_and, notes]
  | assign target value | compound operator target value =>
    obtain ⟨name, rfl⟩ | ⟨object, property, rfl⟩ | ⟨object, key, rfl⟩ | hf := target.target_cases
    iterate 3 simp [plan, placePlan, notes]
    rw [plan, hf]
    simp [notes]
  | update operator before target =>
    obtain ⟨name, rfl⟩ | ⟨object, property, rfl⟩ | ⟨object, key, rfl⟩ | hf := target.target_cases
    iterate 3 cases before <;> simp [plan, placePlan, notes]
    rw [plan, hf]
    simp [notes]
  | sequence expressions => exact notes_sequencePlan expressions
  | _ => simp [plan, notes]

theorem Node.notes_statementPlan (node : Node) : ∀ p ∈ node.statementPlan, p.notes = false := by
  have hp : ∀ p ∈ if node.isDeclaredFunction then [.pass] else node.plan, p.notes = false := by
    split
    · simp [notes]
    · exact node.notes_plan
  rw [statementPlan]
  split
  · exact List.forall_mem_append.mpr ⟨hp, by simp [notes]⟩
  · exact node.notes_plan

/-! ## What is left to pass -/

/-- The sections of functions that are compiled one after the other, where `next` is the first. -/
def starts (next : SectionId) : List Routine → List SectionId
  | [] => []
  | r :: rest => next :: starts (next + r.sections) rest

@[simp] theorem length_starts (next : SectionId) (rs : List Routine) :
    (starts next rs).length = rs.length := by
  induction rs generalizing next with
  | nil => rfl
  | cons r rest ih => simp [starts, ih]

namespace Emits

variable {chain : List (List String)} {m m' : Mark} {parts : List Part} {lines : List Line}
  {pieces : List Piece}

theorem passesOf_of_inner {p : Part} {plan : List Part} (h : p.Inner plan) :
    passesOf plan = p.passes := by
  cases h with
  | value he => exact passesOf_eq_zero (Node.passes_plan he)
  | statement => exact Node.passesOf_statementPlan _
  | bind => exact passesOf_eq_zero (by simp [Routine.bindPlan, or_imp, forall_and, passes])

/-- Parts pass no more declared functions than they say. -/
theorem length_pending_le (h : Emits chain m parts lines pieces m') :
    m.pending.length ≤ m'.pending.length + passesOf parts := by
  induction h with
  | nil => exact Nat.le_refl _
  | step hp _ ih =>
    rw [passesOf_cons]
    cases hp with
    | pass hm =>
      simp only [hm, List.length_cons, passes] at ih ⊢
      omega
    | note =>
      simp only [List.length_append, List.length_singleton, passes] at ih ⊢
      omega
    | _ =>
      simp only [passes] at ih ⊢
      omega
  | inner hp _ _ ihi ih =>
    rw [passesOf_of_inner hp] at ihi
    rw [passesOf_cons]
    simp only [Mark.inner, Mark.outer] at ihi ih
    omega
  | literal _ _ _ ih =>
    rw [passesOf_cons]
    simp only [Mark.after, passes] at ih ⊢
    omega

/-- **What is left to pass after parts.** -/
theorem pending (h : Emits chain m parts lines pieces m') (hn : ∀ p ∈ parts, p.notes = false) :
    m'.pending = m.pending.drop (passesOf parts) := by
  induction h with
  | nil => rfl
  | step hp _ ih =>
    rw [List.forall_mem_cons] at hn
    rw [ih hn.2, passesOf_cons]
    cases hp with
    | pass hm => simp [hm, passes, Nat.add_comm 1]
    | note => cases hn.1
    | _ => simp [passes]
  | inner hp _ _ ihi ih =>
    rw [List.forall_mem_cons] at hn
    rw [ih hn.2, passesOf_cons, ← List.drop_drop]
    congr 1
    rw [← passesOf_of_inner hp]
    cases hp with
    | value => exact ihi (Node.notes_plan _)
    | statement => exact ihi (Node.notes_statementPlan _)
    | bind => cases hn.1
  | literal _ _ _ ih =>
    rw [List.forall_mem_cons] at hn
    rw [ih hn.2, passesOf_cons]
    simp [Mark.after, passes]

/-- The sections of a function are counted. -/
theorem sections_eq (h : Emits chain m parts lines pieces m') :
    m'.sections = m.sections + sectionsOf (parts.flatMap routines) := by
  have hl := congrArg List.length h.segments
  rw [List.length_map, List.length_flatMap] at hl
  simp only [Routine.length_segments] at hl
  rw [h.sections, hl, sectionsOf]

theorem pending_bindPlan {r : Routine} (h : Emits chain m r.bindPlan lines pieces m') :
    m'.pending = m.pending ++ [m.sections] := by
  cases h with
  | inner hp => cases hp
  | step hp h =>
    cases hp
    have hz : passesOf (.literal r :: (r.name.toList.map .store ++ [.plain .pop])) = 0 :=
      passesOf_eq_zero (by simp [or_imp, forall_and, passes])
    rw [h.pending (by simp [or_imp, forall_and, notes]), hz, List.drop_zero]

/-- **What is noted by binding functions** is where their sections start. -/
theorem pending_binds {rs : List Routine}
    (h : Emits chain m (rs.map .bind) lines pieces m') :
    m'.pending = m.pending ++ starts m.sections rs := by
  induction rs generalizing m lines pieces with
  | nil =>
    cases h
    simp [starts]
  | cons r rest ih =>
    cases h with
    | step hp => cases hp
    | inner hp hi h =>
      cases hp
      have hs := hi.sections_eq
      rw [Routine.flatMap_routines_bindPlan, sectionsOf_cons, sectionsOf_nil, Nat.add_zero] at hs
      rw [ih h]
      simp only [Mark.outer, Mark.inner, pending_bindPlan hi, hs, starts, List.append_assoc,
        List.singleton_append]

end Emits

end ScriptCompiler
