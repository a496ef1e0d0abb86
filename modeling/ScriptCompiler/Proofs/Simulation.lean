import ScriptCompiler.Proofs.Performance

/-!
# Runs side by side

A translation of trees changes names and nodes, but neither what is an expression nor what is a
declared function. Code generation then takes the same steps for a tree and for its translation, and
what relates the two runs is a matter of their elementary steps. A relation between steps that holds
of these, and passes on to the steps that are made of others, holds of every part of a plan and of
its translation, as soon as it holds of the code inside.

## Main definitions

* `Translation`: a way to change the names and the nodes of a tree
* `Generator.Simulation`: a relation between steps that the constructs keep

## Main results

* `Generator.Simulation.inFunction`: steps inside a function
* `Generator.Simulation.performPart`: carrying out a part and its translation
-/

namespace ScriptCompiler

/-! ## Translations -/

/-- **A way to change the names and the nodes of a tree** that keeps the places where nodes may
stand. -/
structure Translation where
  /-- What becomes of a name. -/
  name : String → String
  /-- What becomes of a node. -/
  node : Node → Node
  /-- What becomes of the body of a function. -/
  body : List Node → List Node
  isExpression : ∀ n, (node n).isExpression = n.isExpression
  isDeclaredFunction : ∀ n, (node n).isDeclaredFunction = n.isDeclaredFunction
  length_declared : ∀ n, (node n).declared.length = n.declared.length

namespace Translation

/-- What becomes of a function. -/
def routine (τ : Translation) (r : Routine) : Routine :=
  ⟨r.name.map τ.name, r.params.map τ.name, τ.body r.body⟩

/-- What becomes of a part of a plan. -/
def part (τ : Translation) : Part → Part
  | .load name => .load (τ.name name)
  | .store name => .store (τ.name name)
  | .value node => .value (τ.node node)
  | .statement node => .statement (τ.node node)
  | .literal r => .literal (τ.routine r)
  | .bind r => .bind (τ.routine r)
  | other => other

end Translation

namespace Generator

/-! ## Relations between steps -/

/-- A change of the state that does not look at the strings, the scopes and the depth, and leaves
them as they are. -/
def Quiet {α : Type} (f : State → α × State) : Prop :=
  ∀ s strings scopes depth, f { s with strings, scopes, depth } =
    ((f s).1, { (f s).2 with strings, scopes, depth })

namespace Quiet

variable {α : Type} {f : State → α × State} (hf : Quiet f) (s : State)
include hf

theorem strings : (f s).2.strings = s.strings :=
  congrArg (·.2.strings) (hf s s.strings s.scopes s.depth)

theorem scopes : (f s).2.scopes = s.scopes :=
  congrArg (·.2.scopes) (hf s s.strings s.scopes s.depth)

theorem depth : (f s).2.depth = s.depth :=
  congrArg (·.2.depth) (hf s s.strings s.scopes s.depth)

end Quiet

/-- **A relation between the steps of two runs that the constructs keep**, if the names in the
second run are those of the first under `ρ`. It holds of the elementary steps, and passes on to the
steps that are made of others. -/
structure Simulation (ρ : String → String)
    (R : {α : Type} → Generator α → Generator α → Prop) : Prop where
  pure {α : Type} (a : α) : R (pure a) (pure a)
  throw {α : Type} (e : CompileError) (x : Generator α) : R (throw e) x
  quiet {α : Type} {f : State → α × State} (hf : Quiet f) : R (modifyGet f) (modifyGet f)
  emitLine (l : Line) : R (emitLine l) (emitLine l)
  declare (name : String) : R (declare name) (declare (ρ name))
  load (name : String) : R (load name) (load (ρ name))
  store (name : String) : R (store name) (store (ρ name))
  bind {α β : Type} {x x' : Generator α} {f f' : α → Generator β} (hx : R x x')
    (hf : ∀ a, R (f a) (f' a)) : R (x >>= f) (x' >>= f')
  nested {x x' : Generator Unit} (hx : R x x') (limit : Nat) : R (nested limit x) (nested limit x')
  enclosed {name name' : Option String} {params params' : List String} {body body' : Generator Unit}
    (h : R (functionCode name params body) (functionCode name' params' body')) :
    R (inFunction name params body) (inFunction name' params' body')

namespace Simulation

variable {ρ : String → String} {R : {α : Type} → Generator α → Generator α → Prop}

/-! ## Steps of constructs -/

theorem ownLabel (S : Simulation ρ R) (own : List Label) (index : Nat) :
    R (ownLabel own index) (ownLabel own index) := by
  unfold Generator.ownLabel
  cases own[index]? with
  | some label => exact S.pure label
  | none => exact S.throw _ _

/-- A step that depends on the loops around it. To look at the loops and at nothing else is a quiet
step. -/
theorem loops (S : Simulation ρ R) {f : List Loop → Generator Unit}
    (hf : ∀ loops, R (f loops) (f loops)) :
    R (get >>= fun s => f s.loops) (get >>= fun s => f s.loops) := by
  have look : (get >>= fun s => f s.loops) =
      (modifyGet (fun s : State => (s.loops, s)) >>= f) := rfl
  rw [look]
  exact S.bind (S.quiet fun _ _ _ _ => rfl) hf

/-- A jump to one of the labels of the innermost loop. -/
theorem loopJump (S : Simulation ρ R) (target : Loop → Label) (e : CompileError) :
    R
      (do match (← get).loops with
          | loop :: _ => emitJump .jump (target loop)
          | [] => MonadExcept.throw e)
      (do match (← get).loops with
          | loop :: _ => emitJump .jump (target loop)
          | [] => MonadExcept.throw e) := by
  refine S.loops (f := fun | loop :: _ => _ | [] => _) fun loops => ?_
  cases loops with
  | nil => exact S.throw _ _
  | cons loop outer => exact S.emitLine (.jump .jump (target loop))

theorem discard {α : Type} (S : Simulation ρ R) {x x' : Generator α} (h : R x x') :
    R (discard x) (discard x') := by
  rw [discard_eq, discard_eq]
  exact S.bind h fun _ => S.pure ()

theorem closePending (S : Simulation ρ R) (pending : List SectionId) :
    R (closePending pending) (closePending pending) := by
  cases pending with
  | nil => exact S.throw _ _
  | cons id rest => exact S.bind (S.emitLine (.unary .close id)) fun _ => S.pure rest

theorem forM_store (S : Simulation ρ R) (name : Option String) :
    R (name.forM Generator.store) ((name.map ρ).forM Generator.store) := by
  cases name with
  | none => exact S.pure ()
  | some name => exact S.store name

/-! ## Functions -/

theorem bindCallee (S : Simulation ρ R) (name : Option String) :
    R (bindCallee name) (bindCallee (name.map ρ)) := by
  cases name with
  | none => exact S.pure ()
  | some name =>
    exact S.bind (S.declare name) fun slot => S.emitLine (.unary .setCallee (slot.getD 0))

theorem bindArguments (S : Simulation ρ R) (position : Nat) (params : List String) :
    R (bindArguments position params) (bindArguments position (params.map ρ)) := by
  induction params generalizing position with
  | nil => exact S.pure ()
  | cons param rest ih =>
    exact S.bind (S.declare param) fun slot =>
      S.bind (S.emitLine (.binary .setArgument (slot.getD 0) position)) fun _ => ih _

/-- **Steps inside a function** are related if the steps are. -/
theorem inFunction (S : Simulation ρ R) {body body' : Generator Unit} (h : R body body')
    (name : Option String) (params : List String) :
    R (inFunction name params body) (inFunction (name.map ρ) (params.map ρ) body') :=
  S.enclosed <| S.bind (S.bindCallee name) fun _ => S.bind (S.bindArguments 0 params) fun _ =>
    S.bind h fun _ => S.quiet fun _ _ _ _ => rfl

/-! ## Parts -/

section Parts

variable {τ : Translation} (S : Simulation τ.name R) {limit : Nat}
include S

theorem asValue {node : Node} {x x' : Generator Unit} (h : R x x') :
    R (asValue limit node x) (asValue limit (τ.node node) x') := by
  simp only [Generator.asValue, τ.isExpression]
  split
  · exact S.nested h limit
  · exact S.throw _ _

theorem asStatement {node : Node} {x x' : Generator Unit} (h : R x x') :
    R (asStatement limit node x) (asStatement limit (τ.node node) x') := by
  simp only [Generator.asStatement, τ.isExpression]
  refine S.nested ?_ limit
  split
  · exact S.bind (S.nested h limit) fun _ => S.emitLine (.plain .pop)
  · exact h

/-- A declared function is passed in both runs, or both carry out the plan of the node. -/
theorem standingPlan {node : Node} {hand : Hand}
    (h : R (perform limit hand node.plan) (perform limit hand (τ.node node).plan)) :
    R (perform limit hand node.standingPlan) (perform limit hand (τ.node node).standingPlan) := by
  simp only [Node.standingPlan, τ.isDeclaredFunction]
  split
  · simp only [perform_cons, perform_nil, Generator.performPart, bind_assoc, pure_bind]
    exact S.bind (S.closePending hand.pending) fun _ => S.pure _
  · exact h

/-- **Carrying out a part and its translation**, if the code of the nodes and functions behind the
part is related. -/
theorem performPart {p : Part}
    (code : ∀ node : Node, sizeOf node ≤ p.size → ∀ hand,
      R (perform limit hand node.plan) (perform limit hand (τ.node node).plan))
    (body : ∀ nodes : List Node, sizeOf nodes ≤ p.size →
      R (bodyCode limit nodes) (bodyCode limit (τ.body nodes)))
    (hand : Hand) : R (performPart limit hand p) (performPart limit hand (τ.part p)) := by
  unfold Generator.performPart
  have done {x x' : Generator Unit} (h : R x x') :
      R (x >>= fun _ => Pure.pure hand) (x' >>= fun _ => Pure.pure hand) :=
    S.bind h fun _ => S.pure hand
  have quiet {f : State → Unit × State} (hf : Quiet f) :
      R (modifyGet f >>= fun _ => Pure.pure hand) (modifyGet f >>= fun _ => Pure.pure hand) :=
    done (S.quiet hf)
  cases p with
  | line l => exact done (S.emitLine l)
  | load name => exact done (S.load name)
  | store name => exact done (S.store name)
  | fresh => exact S.bind (S.quiet fun _ _ _ _ => rfl) fun _ => S.pure _
  | define index =>
    exact S.bind (S.ownLabel hand.own index) fun label => done (S.emitLine (.define label))
  | jump op index =>
    exact S.bind (S.ownLabel hand.own index) fun label => done (S.emitLine (.jump op label))
  | enter next done =>
    exact S.bind (S.ownLabel hand.own next) fun _ => S.bind (S.ownLabel hand.own done) fun _ =>
      quiet fun _ _ _ _ => rfl
  | exit => exact quiet fun _ _ _ _ => rfl
  | leave => exact done (S.loopJump Loop.done _)
  | again => exact done (S.loopJump Loop.next _)
  | value node => exact done (S.asValue (S.discard (code node (Nat.le_refl _) _)))
  | statement node =>
    simp only [Translation.part, τ.length_declared]
    exact S.bind (S.asStatement (S.discard (S.standingPlan (code node (Nat.le_refl _) _))))
      fun _ => S.pure _
  | pass => exact S.bind (S.closePending hand.pending) fun _ => S.pure _
  | note =>
    exact S.quiet (f := fun s => ({ hand with pending := hand.pending ++ [s.sections.size] }, s))
      fun _ _ _ _ => rfl
  | literal r =>
    exact S.bind (S.inFunction (body r.body (Nat.le_refl _)) r.name r.params) fun id =>
      done (S.emitLine (.unary .close id))
  | bind r =>
    exact S.bind (S.inFunction (body r.body (Nat.le_refl _)) r.name r.params) fun id =>
      S.bind (S.emitLine (.unary .close id)) fun _ => S.bind (S.forM_store r.name) fun _ =>
        S.bind (S.emitLine (.plain .pop)) fun _ => S.pure _
  | fail e => exact S.throw _ _

end Parts

end Simulation

end Generator

end ScriptCompiler
