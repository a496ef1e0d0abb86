import ScriptCompiler.Proofs.Context
import ScriptCompiler.Proofs.Plan

/-!
# Carrying out plans

A plan is carried out part by part. For a node inside, its own plan is carried out one level deeper,
and for a function, the plan of its body in a section of its own. Which labels a construct has and
which declared functions its statements have still to pass goes from part to part.

Nothing has to be looked up on the way: a declared function that the statements come to is always
the first of those that they have not passed.

## Main definitions

* `Hand`: what is at hand while a plan is carried out
* `Generator.performPart`, `Generator.perform`: carrying out a part and a plan
* `Generator.routine`: compiling a function
* `Program.performed`: the state after the plan of a whole program

## Main results

* `Generator.perform_append`: of two plans the second is carried out with what the first leaves
* `Generator.perform_statements`: what statements leave
-/

namespace ScriptCompiler

/-- **What is at hand while a plan is carried out.** -/
structure Hand where
  /-- The labels that the construct has been handed out. -/
  own : List Label := []
  /-- The sections of the declared functions that the statements have not passed yet. -/
  pending : List SectionId := []

namespace Node

/-- The plan of a node in statement position, but for what is done with its value. -/
def standingPlan (node : Node) : List Part :=
  if node.isDeclaredFunction then [.pass] else node.plan

theorem statementPlan_eq (node : Node) :
    node.statementPlan = node.standingPlan ++ if node.isExpression then [.plain .pop] else [] := by
  rw [statementPlan, standingPlan]
  cases node with
  | function name => cases name <;> rfl
  | _ => simp [isExpression, isDeclaredFunction]

theorem size_standingPlan (node : Node) : ∀ p ∈ node.standingPlan, p.size < sizeOf node := by
  intro p hp
  refine node.size_statementPlan p ?_
  rw [statementPlan_eq]
  exact List.mem_append_left _ hp

end Node

/-- The plan of a body without the end of its section. -/
def workPlan (body : List Node) : List Part := (declaredIn body).map .bind ++ body.map .statement

theorem size_workPlan (body : List Node) : ∀ p ∈ workPlan body, p.size < sizeOf body :=
  List.forall_mem_append.mpr ⟨size_binds body, size_statements body⟩

namespace Generator

/-- Emits a line. -/
def emitLine : Line → Generator Unit
  | .plain op => emitPlain op
  | .unary op operand => emitUnary op operand
  | .binary op first second => emitBinary op first second
  | .number value => emitNumber value
  | .text op string => emitString op string
  | .jump op label => emitJump op label
  | .define label => define label

/-- One of the labels that a construct has been handed out. -/
def ownLabel (own : List Label) (index : Nat) : Generator Label :=
  match own[index]? with
  | some label => pure label
  | none => throw (.unresolvedLabel ⟨⟨index⟩, 0⟩)

/-- Emits a closure over the first of the declared functions, and gives those that are left. -/
def closePending : List SectionId → Generator (List SectionId)
  | id :: rest => do
    emitUnary .close id
    return rest
  | [] => throw (.unsupportedConstruct "Function")

/-! ## Parts and plans -/

mutual

/-- **Carries out a part** of a plan, and gives what is at hand after that. -/
def performPart (limit : Nat) (hand : Hand) : Part → Generator Hand
  | .line l => do
    emitLine l
    return hand
  | .load name => do
    load name
    return hand
  | .store name => do
    store name
    return hand
  | .fresh => do
    let label ← freshLabel
    return { hand with own := hand.own ++ [label] }
  | .define index => do
    let label ← ownLabel hand.own index
    define label
    return hand
  | .jump op index => do
    let label ← ownLabel hand.own index
    emitJump op label
    return hand
  | .enter next done => do
    let next ← ownLabel hand.own next
    let done ← ownLabel hand.own done
    modify fun s => { s with loops := ⟨next, done⟩ :: s.loops }
    return hand
  | .exit => do
    modify fun s => { s with loops := s.loops.tail }
    return hand
  | .leave => do
    emitBreak
    return hand
  | .again => do
    emitContinue
    return hand
  | .value node => do
    asValue limit node (discard (perform limit { pending := hand.pending } node.plan))
    return hand
  | .statement node => do
    asStatement limit node
      (discard (perform limit { pending := hand.pending } node.standingPlan))
    return { hand with pending := hand.pending.drop node.declared.length }
  | .pass => do
    let pending ← closePending hand.pending
    return { hand with pending }
  | .note => do
    let s ← get
    return { hand with pending := hand.pending ++ [s.sections.size] }
  | .literal r => do
    let id ← inFunction r.name r.params do
      declareAll limit r.body
      discard (perform limit {} (workPlan r.body))
    emitUnary .close id
    return hand
  | .bind r => do
    let id ← inFunction r.name r.params do
      declareAll limit r.body
      discard (perform limit {} (workPlan r.body))
    emitUnary .close id
    r.name.forM store
    emitPlain .pop
    return { hand with pending := hand.pending ++ [id] }
  | .fail error => throw error
termination_by p => (p.size + 1, 0)
decreasing_by
  · exact .left _ _ (Nat.lt_succ_of_le node.sizeOfParts_plan_le)
  · exact .left _ _ (Nat.lt_succ_of_le (sizeOfParts_le_iff.mpr node.size_standingPlan))
  · exact .left _ _ (Nat.lt_succ_of_le (sizeOfParts_le_iff.mpr (size_workPlan r.body)))
  · exact .left _ _ (Nat.lt_succ_of_le (sizeOfParts_le_iff.mpr (size_workPlan r.body)))

/-- **Carries out a plan**, or the rest of one, and gives what is at hand after that. -/
def perform (limit : Nat) (hand : Hand) : List Part → Generator Hand
  | [] => pure hand
  | p :: rest => do
    let hand ← performPart limit hand p
    perform limit hand rest
termination_by parts => (sizeOfParts parts, parts.length + 1)
decreasing_by
  · rcases Nat.lt_or_eq_of_le (Nat.le_max_left (p.size + 1) (sizeOfParts rest)) with h | h
    · exact .left _ _ h
    · rw [sizeOfParts, ← h]
      exact .right _ (Nat.succ_pos _)
  · rcases Nat.lt_or_eq_of_le (Nat.le_max_right (p.size + 1) (sizeOfParts rest)) with h | h
    · exact .left _ _ h
    · rw [sizeOfParts, ← h]
      exact .right _ (Nat.lt_succ_self _)

end

/-- Carries out the plan of a body in the scope of its names. -/
def bodyCode (limit : Nat) (body : List Node) : Generator Unit := do
  declareAll limit body
  discard (perform limit {} (workPlan body))

/-- Compiles a function. -/
def routine (limit : Nat) (r : Routine) : Generator SectionId :=
  inFunction r.name r.params (bodyCode limit r.body)

section Perform

variable (limit : Nat) (hand : Hand)

theorem perform_nil : perform limit hand [] = pure hand := by
  rw [perform]

theorem perform_cons (p : Part) (rest : List Part) :
    perform limit hand (p :: rest) =
      (performPart limit hand p >>= fun hand => perform limit hand rest) := by
  rw [perform]

/-- Of two plans the second is carried out with what the first leaves. -/
theorem perform_append (parts more : List Part) :
    perform limit hand (parts ++ more) =
      (perform limit hand parts >>= fun hand => perform limit hand more) := by
  induction parts generalizing hand with
  | nil => rw [List.nil_append, perform_nil, pure_bind]
  | cons p rest ih => simp only [List.cons_append, perform_cons, ih, bind_assoc]

/-- What is at hand after statements depends only on how many functions they declare. -/
theorem perform_statements (nodes : List Node) :
    perform limit hand (nodes.map .statement) =
      (discard (perform limit { pending := hand.pending } (nodes.map .statement)) >>= fun _ =>
        pure { hand with pending := hand.pending.drop (declaredIn nodes).length }) := by
  induction nodes generalizing hand with
  | nil => simp [perform_nil, discard_eq, declaredIn]
  | cons node rest ih =>
    have hd : (declaredIn (node :: rest)).length =
        node.declared.length + (declaredIn rest).length := by
      simp [declaredIn]
    rw [List.map_cons, perform_cons, perform_cons, performPart, performPart, hd]
    simp only [bind_assoc, pure_bind, discard_bind]
    congr 1
    funext _
    rw [ih, List.drop_drop]

end Perform

end Generator

namespace Program

/-- The plan of a whole program, whose top level is the section numbered zero. -/
def performer (limit : Nat) (program : Program) : Generator SectionId :=
  Generator.inSection do
    Generator.bodyCode limit program.body
    Generator.emitEnd

/-- The state after the plan of a whole program. -/
def performed (limit : Nat) (program : Program) : Except CompileError State :=
  (·.2) <$> (program.performer limit).run {}

end Program

end ScriptCompiler
