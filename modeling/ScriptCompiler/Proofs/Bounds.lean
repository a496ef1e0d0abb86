import ScriptCompiler.Proofs.Compilation

/-!
# Bounds of operands

Some operands count what has been computed before: the elements of an array, the arguments of a
call, the position of a parameter. Each of these took at least a word of code, so that such an
operand is never greater than the number of words of its section.

## Main definitions

* `Line.count`: the operand of a line that counts
* `Counted`: the own lines of parts count no more than what the parts compute
* `weightOf`: how many words the code of parts takes at least

## Main results

* `Emits.weight_le`: code takes as many words as the parts of its plan do at least
* `Assembled.count_le`: a count is at most the number of words of its section
-/

namespace ScriptCompiler

/-- The operand of a line that counts what has been computed before. -/
def Line.count : Line → Nat
  | unary .array count | unary .call count | unary .methodCall count => count
  | binary .setArgument _ position => position
  | _ => 0

/-- An operand in the code of a construct counts what the construct computes, and is at most
`bound`. -/
def Line.Counts (bound : Nat) : Line → Prop
  | unary op operand => op ∈ [.array, .call, .methodCall] ∧ operand ≤ bound
  | binary .. => False
  | _ => True

namespace Line.Counts

variable {bound bound' : Nat} {l : Line}

theorem mono (h : l.Counts bound) (hb : bound ≤ bound') : l.Counts bound' := by
  cases l with
  | unary op operand => exact ⟨h.1, Nat.le_trans h.2 hb⟩
  | _ => exact h

theorem count_le (h : l.Counts bound) : l.count ≤ bound := by
  cases l with
  | unary op operand =>
    cases op with
    | array | call | methodCall => exact h.2
    | _ => exact Nat.zero_le _
  | binary => cases h
  | _ => exact Nat.zero_le _

end Line.Counts

/-- How many words the code of a part takes at least; a part without code counts as any. -/
def Part.weight : Part → Nat
  | line _ | load _ | value _ | literal _ | fail _ => 1
  | _ => 0

/-- How many words the code of parts takes at least. -/
def weightOf (parts : List Part) : Nat := (parts.map Part.weight).sum

@[simp] theorem weightOf_nil : weightOf [] = 0 := rfl

@[simp] theorem weightOf_cons (p : Part) (rest : List Part) :
    weightOf (p :: rest) = p.weight + weightOf rest := by
  simp [weightOf]

@[simp] theorem weightOf_append (parts more : List Part) :
    weightOf (parts ++ more) = weightOf parts + weightOf more := by
  simp [weightOf]

/-! ## Bounds in plans -/

section Plans

open ScriptCompiler.Part

theorem weightOf_values (nodes : List Node) : weightOf (nodes.map .value) = nodes.length := by
  induction nodes with
  | nil => rfl
  | cons node rest ih => simp [ih, weight, Nat.add_comm]

theorem weightOf_lines (lines : List Line) : weightOf (lines.map .line) = lines.length := by
  induction lines with
  | nil => rfl
  | cons l rest ih => simp [ih, weight, Nat.add_comm]

theorem weightOf_calleePlan_pos (callee : Node) : 0 < weightOf callee.calleePlan := by
  cases callee <;> simp [Node.calleePlan, weight]

/-- The code of a value takes some room. -/
theorem Node.weightOf_plan_pos {node : Node} (h : node.isExpression = true) :
    0 < weightOf node.plan := by
  cases node with
  | declaration | ret | ifElse | forLoop | whileLoop | breakLoop | continueLoop | block
  | unsupported => cases h
  | sequence expressions =>
    rw [plan]
    fun_cases sequencePlan expressions <;> simp only [weightOf_cons, weight] <;> omega
  | call callee arguments =>
    have := weightOf_calleePlan_pos callee
    simp only [plan, weightOf_append]
    omega
  | assign target value | compound operator target value =>
    obtain ⟨name, rfl⟩ | ⟨object, property, rfl⟩ | ⟨object, key, rfl⟩ | hf := target.target_cases
    iterate 3
      simp [plan, placePlan, weight]
      try omega
    rw [plan, hf]
    simp [weight]
  | update operator before target =>
    obtain ⟨name, rfl⟩ | ⟨object, property, rfl⟩ | ⟨object, key, rfl⟩ | hf := target.target_cases
    iterate 3 cases before <;> simp [plan, placePlan, weight]
    rw [plan, hf]
    simp [weight]
  | _ => simp [plan, weight]

/-- The own lines of parts count what the parts compute, and no more than the parts weigh. -/
def Counted (parts : List Part) : Prop := ∀ l, .line l ∈ parts → l.Counts (weightOf parts)

/-- Parts whose own lines count nothing are counted. -/
theorem counted_of_zero {parts : List Part} (h : ∀ l, .line l ∈ parts → l.Counts 0) :
    Counted parts :=
  fun l hl => (h l hl).mono (Nat.zero_le _)

theorem Counted.append {parts more : List Part} (h : Counted parts)
    (hm : ∀ l, .line l ∈ more → l.Counts (weightOf parts + weightOf more)) :
    Counted (parts ++ more) := by
  intro l hl
  rw [weightOf_append]
  rcases List.mem_append.mp hl with hl | hl
  · exact (h l hl).mono (Nat.le_add_right _ _)
  · exact hm l hl

theorem counted_sequencePlan (nodes : List Node) : Counted (Node.sequencePlan nodes) := by
  refine counted_of_zero ?_
  fun_induction Node.sequencePlan nodes with
  | case1 => simp [Line.Counts]
  | case2 => simp
  | case3 node rest _ ih => simpa [Line.Counts] using ih

theorem Node.counted_plan (node : Node) : Counted node.plan := by
  cases node with
  | array elements =>
    refine (counted_of_zero (by simp)).append ?_
    simp [Line.Counts, weightOf_values]
  | call callee arguments =>
    refine (counted_of_zero ?_).append ?_
    · cases callee <;> simp [calleePlan, Line.Counts]
    · rw [weightOf_append, weightOf_values]
      cases callee.isMethod <;> simp [Line.Counts] <;> omega
  | sequence expressions => exact counted_sequencePlan expressions
  | declaration name init => cases init <;> exact counted_of_zero (by simp [plan, Line.Counts])
  | ret argument => cases argument <;> exact counted_of_zero (by simp [plan, Line.Counts])
  | ifElse test consequent alternate =>
    cases alternate <;> exact counted_of_zero (by simp [plan])
  | forLoop init test step body =>
    cases init <;> cases test <;> cases step <;>
      exact counted_of_zero (by simp [plan, Line.Counts])
  | assign target value | compound operator target value =>
    obtain ⟨name, rfl⟩ | ⟨object, property, rfl⟩ | ⟨object, key, rfl⟩ | hf := target.target_cases
    iterate 3 exact counted_of_zero (by simp [plan, placePlan, Line.Counts])
    rw [plan, hf]
    exact counted_of_zero (by simp)
  | update operator before target =>
    obtain ⟨name, rfl⟩ | ⟨object, property, rfl⟩ | ⟨object, key, rfl⟩ | hf := target.target_cases
    iterate 3
      cases before <;> exact counted_of_zero (by simp [plan, placePlan, Line.Counts])
    rw [plan, hf]
    exact counted_of_zero (by simp)
  | _ => exact counted_of_zero (by simp [plan, Line.Counts])

/-- **The plans of constructs are counted.** -/
theorem counted_of_inner {p : Part} {plan : List Part} (h : p.Inner plan) : Counted plan := by
  cases h with
  | @value node => exact node.counted_plan
  | @statement node =>
    rw [Node.statementPlan]
    split
    · refine Counted.append ?_ (by simp [Line.Counts])
      split
      · exact counted_of_zero (by simp)
      · exact node.counted_plan
    · exact node.counted_plan
  | bind => exact counted_of_zero (by simp [Routine.bindPlan, Line.Counts])

theorem counted_bodyPlan (body : List Node) : Counted (bodyPlan body) :=
  counted_of_zero (by simp [bodyPlan, endPlan, Line.Counts])

theorem Routine.count_le_of_mem_prologue {r : Routine} {l : Line} (h : l ∈ r.prologue) :
    l.count ≤ r.prologue.length := by
  rcases List.mem_append.mp h with h | h
  · obtain ⟨name, -, rfl⟩ := List.mem_map.mp h
    exact Nat.zero_le _
  · obtain ⟨⟨param, position⟩, hp, rfl⟩ := List.mem_map.mp h
    have := (List.mem_zipIdx hp).2.1
    simp only [Line.count, prologue, List.length_append, List.length_map, List.length_zipIdx]
    omega

/-- The own lines of a segment count no more than its plan weighs. -/
theorem Segment.count_le {segment : Segment} {l : Line} (h : .line l ∈ segment.plan) :
    l.count ≤ weightOf segment.plan := by
  cases segment with
  | top body => exact (counted_bodyPlan body l h).count_le
  | function outer r =>
    simp only [plan, Routine.plan, weightOf_append, weightOf_lines] at h ⊢
    rcases List.mem_append.mp h with h | h
    · rw [List.mem_map_of_injective fun _ _ h => Part.line.inj h] at h
      exact Nat.le_trans (Routine.count_le_of_mem_prologue h) (Nat.le_add_right _ _)
    · exact Nat.le_trans (counted_bodyPlan r.body l h).count_le (Nat.le_add_left _ _)

end Plans

/-! ## Bounds in code -/

namespace Emits

open ScriptCompiler.Part

variable {chain : List (List String)} {m m' : Mark} {parts : List Part} {lines : List Line}
  {pieces : List Piece}

theorem weight_of_step {p : Part} {here : List Line} {m₁ : Mark} (h : Step chain m p here m₁)
    (hp : p.Neat) : p.weight ≤ Assembly.wordCount here := by
  cases h with
  | line l =>
    cases l with
    | define label => cases hp
    | _ => simp [weight, Line.words]
  | load name =>
    rw [accessLine]
    split <;> simp [weight, Line.words]
  | _ => exact Nat.zero_le _

/-- **Code takes as many words as its parts do at least.** -/
theorem weight_le (h : Emits chain m parts lines pieces m') (hn : ∀ p ∈ parts, p.Neat) :
    weightOf parts ≤ Assembly.wordCount lines := by
  induction h with
  | nil => exact Nat.le_refl _
  | step hp _ ih =>
    rw [List.forall_mem_cons] at hn
    rw [weightOf_cons, Assembly.wordCount_append]
    exact Nat.add_le_add (weight_of_step hp hn.1) (ih hn.2)
  | inner hp _ _ ihi ih =>
    rw [List.forall_mem_cons] at hn
    rw [weightOf_cons, Assembly.wordCount_append]
    refine Nat.add_le_add ?_ (ih hn.2)
    have hi := ihi (disciplined_of_inner hp).neat
    cases hp with
    | value he => exact Nat.le_trans (Node.weightOf_plan_pos he) hi
    | _ => exact Nat.zero_le _
  | literal _ _ _ ih =>
    rw [List.forall_mem_cons] at hn
    rw [weightOf_cons, Assembly.wordCount_cons]
    exact Nat.add_le_add (by simp [weight, Line.words]) (ih hn.2)

/-- What the lines of a construct count is no more than its words, if the lines of its own plan do
not count more. -/
theorem count_le (h : Emits chain m parts lines pieces m') (hn : ∀ p ∈ parts, p.Neat)
    {bound : Nat} (hb : Assembly.wordCount lines ≤ bound)
    (hl : ∀ l, .line l ∈ parts → l.count ≤ bound) : ∀ l ∈ lines, l.count ≤ bound := by
  induction h with
  | nil => simp
  | step hp _ ih =>
    rw [List.forall_mem_cons] at hn
    rw [Assembly.wordCount_append] at hb
    refine List.forall_mem_append.mpr ⟨?_, ih hn.2 (by omega) fun l h => hl l (.tail _ h)⟩
    cases hp with
    | line l => exact List.forall_mem_singleton.mpr (hl l List.mem_cons_self)
    | load name | store name =>
      rw [List.forall_mem_singleton, accessLine]
      split <;> exact Nat.zero_le _
    | _ => simp [Line.count]
  | inner hp hi _ ihi ih =>
    rw [List.forall_mem_cons] at hn
    rw [Assembly.wordCount_append] at hb
    have hp' := (disciplined_of_inner hp).neat
    refine List.forall_mem_append.mpr ⟨ihi hp' (by omega) fun l h => ?_,
      ih hn.2 (by omega) fun l h => hl l (.tail _ h)⟩
    have := (counted_of_inner hp l h).count_le
    have := hi.weight_le hp'
    omega
  | literal _ _ _ ih =>
    rw [List.forall_mem_cons] at hn
    rw [Assembly.wordCount_cons] at hb
    exact List.forall_mem_cons.mpr ⟨Nat.zero_le _, ih hn.2 (by omega) fun l h => hl l (.tail _ h)⟩

end Emits

/-- **A count is at most the number of words of its section.** -/
theorem Assembled.count_le {image : Image} {id : Nat} {segment : Segment} {lines : List Line}
    (h : Assembled image id segment lines) : ∀ l ∈ lines, l.count ≤ Assembly.wordCount lines := by
  obtain ⟨_, _, _, he, -⟩ := h.emits
  have hn := (disciplined segment).neat
  exact he.count_le hn (Nat.le_refl _) fun l hl =>
    Nat.le_trans (Segment.count_le hl) (he.weight_le hn)

end ScriptCompiler
