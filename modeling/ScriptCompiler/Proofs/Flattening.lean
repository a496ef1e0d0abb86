import Mathlib.Order.MinMax
import ScriptCompiler.Proofs.Compilation
import ScriptCompiler.Proofs.Simulation
import ScriptCompiler.Proofs.Site

/-!
# Blocks are transparent

A block has no scope of its own, and its code is the code of its statements. So a block in a list of
statements can give way to the statements in it: the code stays the same, and only the nesting gets
lower. Code generation goes through the flattened program in the same way, from states that may be
less deep, and what it produces does not depend on how deep it is.

A block that is a branch, the body of a loop or the start of one is not in a list of statements. It
stays, with the blocks among its own statements flattened.

## Main definitions

* `Program.flatten`, `Node.flatten`: the blocks in all lists of statements give way to their
  statements
* `Unfolds`: a plan in which blocks may have given way to their statements
* `Generator.Lowers`: a step goes as another one does, at the same depth or higher up

## Main results

* `Node.plan_unfolds`: the plan of a flattened node
* `declaredIn_flatten`: the functions declared in a flattened body
* `Program.block_notMem_flatten`: no list of statements of a flattened program has a block in it
* `Generator.perform_lowers`: carrying out a plan in which blocks have given way
* `Program.blocks_transparent`: flattening keeps the image
-/

namespace ScriptCompiler

/-! ## Flattened trees -/

namespace Node

/-- What a statement is replaced with in a list of statements: a block with its statements. -/
def opened : Node → List Node
  | block statements => statements
  | other => [other]

mutual

/-- **Flattens a node**: in all lists of statements in it, blocks give way to their statements. -/
def flatten : Node → Node
  | declaration name init => declaration name (flattenOptional init)
  | function name params body => function name params (flattenAll body)
  | ret argument => ret (flattenOptional argument)
  | ifElse test consequent alternate =>
    ifElse test.flatten consequent.flatten (flattenOptional alternate)
  | forLoop init test step body =>
    forLoop (flattenOptional init) (flattenOptional test) (flattenOptional step) body.flatten
  | whileLoop test body => whileLoop test.flatten body.flatten
  | block statements => block (flattenAll statements)
  | array elements => array (flattenEach elements)
  | member object property => member object.flatten property
  | index object key => index object.flatten key.flatten
  | call callee arguments => call callee.flatten (flattenEach arguments)
  | assign target value => assign target.flatten value.flatten
  | binary operator left right => binary operator left.flatten right.flatten
  | compound operator target value => compound operator target.flatten value.flatten
  | logical operator left right => logical operator left.flatten right.flatten
  | unary operator argument => unary operator argument.flatten
  | update operator before argument => update operator before argument.flatten
  | conditional test consequent alternate =>
    conditional test.flatten consequent.flatten alternate.flatten
  | sequence expressions => sequence (flattenEach expressions)
  | other => other

/-- Flattens a node that may be missing. -/
def flattenOptional : Option Node → Option Node
  | none => none
  | some node => some node.flatten

/-- Flattens each of the nodes in a list of values. -/
def flattenEach : List Node → List Node
  | [] => []
  | node :: rest => node.flatten :: flattenEach rest

/-- **Flattens a list of statements**, in which blocks give way to what is in them. -/
def flattenAll : List Node → List Node
  | [] => []
  | node :: rest => node.flatten.opened ++ flattenAll rest

end

end Node

/-- **Flattens a program.** -/
def Program.flatten (program : Program) : Program := ⟨Node.flattenAll program.body⟩

/-- Flattens a function. -/
def Routine.flatten (r : Routine) : Routine := ⟨r.name, r.params, Node.flattenAll r.body⟩

/-- Flattens the nodes and functions behind a part of a plan. -/
def Part.flatten : Part → Part
  | value node => value node.flatten
  | statement node => statement node.flatten
  | literal r => literal r.flatten
  | bind r => bind r.flatten
  | other => other

namespace Node

@[simp] theorem flattenOptional_eq (node : Option Node) :
    flattenOptional node = node.map flatten := by
  cases node <;> rfl

@[simp] theorem flattenEach_eq (nodes : List Node) : flattenEach nodes = nodes.map flatten := by
  induction nodes with
  | nil => rfl
  | cons node rest ih => rw [flattenEach, ih, List.map_cons]

@[simp] theorem isExpression_flatten (node : Node) :
    node.flatten.isExpression = node.isExpression := by
  cases node <;> rfl

@[simp] theorem isDeclaredFunction_flatten (node : Node) :
    node.flatten.isDeclaredFunction = node.isDeclaredFunction := by
  cases node with
  | function name params body => cases name <;> rfl
  | _ => rfl

@[simp] theorem isMethod_flatten (node : Node) : node.flatten.isMethod = node.isMethod := by
  cases node <;> rfl

/-- A statement is a block, or in a flattened list it stays one statement that is none. -/
theorem block_or_opened_flatten (node : Node) :
    (∃ statements, node = block statements) ∨
      node.flatten.opened = [node.flatten] ∧ ∀ statements, node.flatten ≠ block statements := by
  cases node with
  | block statements => exact .inl ⟨statements, rfl⟩
  | _ => exact .inr ⟨rfl, fun _ h => nomatch h⟩

/-- The list of statements that a function or a block has. -/
def statementList : Node → List Node
  | function _ _ body => body
  | block statements => statements
  | _ => []

/-- The statements of a flattened list are flattened nodes, and none is a block. -/
theorem of_mem_flattenAll {nodes : List Node} {node : Node} (h : node ∈ flattenAll nodes) :
    (∃ inside, node = flatten inside) ∧ ∀ statements, node ≠ block statements := by
  cases nodes with
  | nil => cases h
  | cons first rest =>
    rcases List.mem_append.mp h with h | h
    · rcases first.block_or_opened_flatten with ⟨statements, rfl⟩ | ⟨ho, hn⟩
      · exact of_mem_flattenAll h
      · obtain rfl := List.mem_singleton.mp (ho ▸ h)
        exact ⟨⟨first, rfl⟩, hn⟩
    · exact of_mem_flattenAll h

theorem exists_of_mem_children_flatten (node : Node) :
    ∀ child ∈ node.flatten.children, ∃ inside, child.2 = flatten inside := by
  cases node with
  | function | block =>
    intro child h
    obtain ⟨statement, hs, rfl⟩ := List.mem_map.mp h
    exact (of_mem_flattenAll hs).1
  | forLoop init test step body =>
    cases init <;> cases test <;> cases step <;> simp [flatten, children]
  | _ => simp [flatten, children]

theorem block_notMem_statementList_flatten (node : Node) (statements : List Node) :
    block statements ∉ node.flatten.statementList := by
  intro h
  cases node with
  | function | block => exact (of_mem_flattenAll h).2 statements rfl
  | _ => cases h

end Node

/-- The nodes inside a flattened node are flattened nodes. -/
theorem Site.exists_of_mem_all {s t : Site} (hs : ∃ node, s.node = Node.flatten node)
    (ht : t ∈ s.all) : ∃ node, t.node = Node.flatten node := by
  induction s using Site.induction with
  | step s ih =>
    rcases mem_all.mp ht with rfl | ⟨c, hc, ht⟩
    · exact hs
    · obtain ⟨node, hn⟩ := hs
      have hm := mem_children_of_mem_inner hc
      rw [hn] at hm
      exact ih c hc (node.exists_of_mem_children_flatten _ hm) ht

/-- **No list of statements of a flattened program has a block in it**: neither the top level nor
that of a function or of a block. -/
theorem Program.block_notMem_flatten {program : Program} {s : Site}
    (hs : s ∈ program.flatten.root.all) (statements : List Node) :
    .block statements ∉ s.node.statementList := by
  obtain ⟨node, hn⟩ := Site.exists_of_mem_all ⟨.function none [] program.body, rfl⟩ hs
  rw [hn]
  exact node.block_notMem_statementList_flatten statements

/-! ## Flattened plans -/

/-- **A plan in which blocks may have given way to their statements.** Everything behind its parts
is flattened, and in place of a block in statement position there may be the statements in it. -/
inductive Unfolds : List Part → List Part → Prop
  | nil : Unfolds [] []
  | part (p : Part) {rest rest' : List Part} (h : Unfolds rest rest') :
    Unfolds (p :: rest) (p.flatten :: rest')
  | opened (statements : List Node) {rest rest' : List Part} (h : Unfolds rest rest') :
    Unfolds (.statement (.block statements) :: rest)
      ((Node.flattenAll statements).map .statement ++ rest')

namespace Unfolds

theorem map (parts : List Part) : Unfolds parts (parts.map Part.flatten) := by
  induction parts with
  | nil => exact .nil
  | cons p rest ih => exact .part p ih

/-- The blocks among statements give way. -/
theorem statements (nodes : List Node) :
    Unfolds (nodes.map .statement) ((Node.flattenAll nodes).map .statement) := by
  induction nodes with
  | nil => exact .nil
  | cons node rest ih =>
    rw [Node.flattenAll, List.map_append]
    rcases node.block_or_opened_flatten with ⟨statements, rfl⟩ | ⟨ho, hn⟩
    · exact .opened statements ih
    · rw [ho]
      exact .part (.statement node) ih

end Unfolds

namespace Node

theorem sequencePlan_flatten (nodes : List Node) :
    sequencePlan (nodes.map flatten) = (sequencePlan nodes).map Part.flatten := by
  fun_induction sequencePlan nodes with
  | case1 => rfl
  | case2 node => rfl
  | case3 node rest hr ih =>
    cases rest with
    | nil => exact absurd rfl hr
    | cons next rest => simpa [sequencePlan, Part.flatten] using ih

theorem calleePlan_flatten (callee : Node) :
    callee.flatten.calleePlan = callee.calleePlan.map Part.flatten := by
  cases callee <;> simp [flatten, calleePlan, Part.flatten]

theorem placePlan_flatten {use use' : Place → List Part}
    (h : ∀ place, use' place = (use place).map Part.flatten) (target : Node) :
    target.flatten.placePlan use' = (target.placePlan use).map Part.flatten := by
  cases target <;> simp [flatten, placePlan, Part.flatten, kind, h]

/-- The plan of a node that is no block has the same parts after flattening. -/
theorem plan_flatten {node : Node} (hn : ∀ statements, node ≠ block statements) :
    node.flatten.plan = node.plan.map Part.flatten := by
  cases node with
  | declaration name init => cases init <;> simp [flatten, plan, Part.flatten]
  | ret argument => cases argument <;> simp [flatten, plan, Part.flatten]
  | ifElse test consequent alternate => cases alternate <;> simp [flatten, plan, Part.flatten]
  | forLoop init test step body =>
    cases init <;> cases test <;> cases step <;> simp [flatten, plan, Part.flatten]
  | block statements => exact absurd rfl (hn statements)
  | call callee arguments =>
    simp [flatten, plan, Part.flatten, calleePlan_flatten, Function.comp_def]
  | assign target value =>
    rw [flatten, plan, plan]
    exact placePlan_flatten (fun place => by cases place <;> rfl) target
  | compound operator target value =>
    rw [flatten, plan, plan]
    exact placePlan_flatten (fun place => by cases place <;> rfl) target
  | update operator before target =>
    rw [flatten, plan, plan]
    exact placePlan_flatten (fun place => by cases place <;> cases before <;> rfl) target
  | sequence expressions => simp [flatten, plan, sequencePlan_flatten]
  | _ => simp [flatten, plan, Part.flatten, Routine.flatten, Function.comp_def]

/-- **The plan of a flattened node.** -/
theorem plan_unfolds (node : Node) : Unfolds node.plan node.flatten.plan := by
  by_cases hn : ∃ statements, node = block statements
  · obtain ⟨statements, rfl⟩ := hn
    exact .statements statements
  · rw [plan_flatten (not_exists.mp hn)]
    exact .map node.plan

/-! ## Flattened declarations -/

/-- A block declares what its statements declare. -/
theorem declarationsAll_opened (node : Node) : declarationsAll node.opened = node.declarations := by
  cases node with
  | block statements => rfl
  | _ => exact List.append_nil _

mutual

theorem declarations_flatten (node : Node) : node.flatten.declarations =
    node.declarations.map (Prod.map id (Option.map Routine.flatten)) := by
  cases node with
  | function name params body =>
    cases name <;> simp [flatten, declarations, Routine.flatten]
  | ifElse test consequent alternate =>
    cases alternate with
    | none => simp [flatten, declarations, declarations_flatten consequent]
    | some alternate =>
      simp [flatten, declarations, declarations_flatten consequent, declarations_flatten alternate]
  | forLoop init test step body =>
    cases init with
    | none => simp [flatten, declarations, declarations_flatten body]
    | some init =>
      simp [flatten, declarations, declarations_flatten init, declarations_flatten body]
  | whileLoop test body => simp [flatten, declarations, declarations_flatten body]
  | block statements => rw [flatten, declarations, declarations, declarationsAll_flatten statements]
  | _ => simp [flatten, declarations]

theorem declarationsAll_flatten (nodes : List Node) :
    declarationsAll (flattenAll nodes) =
      (declarationsAll nodes).map (Prod.map id (Option.map Routine.flatten)) := by
  cases nodes with
  | nil => rfl
  | cons node rest =>
    rw [flattenAll, declarationsAll, List.map_append, ← declarations_flatten node,
      ← declarationsAll_flatten rest, ← declarationsAll_opened, declarationsAll_eq,
      declarationsAll_eq, declarationsAll_eq, List.flatMap_append]

end

theorem declared_flatten (node : Node) :
    node.flatten.declared = node.declared.map Routine.flatten := by
  simp only [declared, declarations_flatten, List.filterMap_map, List.map_filterMap]
  rfl

theorem names_flatten (nodes : List Node) :
    (flattenAll nodes).flatMap names = nodes.flatMap names := by
  have declared (nodes : List Node) : nodes.flatMap names = (declarationsAll nodes).map (·.1) := by
    rw [declarationsAll_eq, List.map_flatMap]
    rfl
  rw [declared, declared, declarationsAll_flatten, List.map_map]
  rfl

theorem declaringLevelsAll_append (nodes more : List Node) :
    declaringLevelsAll (nodes ++ more) =
      max (declaringLevelsAll nodes) (declaringLevelsAll more) := by
  induction nodes with
  | nil => simp [declaringLevelsAll]
  | cons node rest ih => simp [declaringLevelsAll, ih, Nat.max_assoc]

mutual

theorem declaringLevels_flatten (node : Node) :
    node.flatten.declaringLevels ≤ node.declaringLevels := by
  cases node with
  | block statements => exact Nat.succ_le_succ (declaringLevelsAll_flatten statements)
  | ifElse test consequent alternate =>
    refine Nat.succ_le_succ (max_le_max (declaringLevels_flatten consequent) ?_)
    cases alternate with
    | none => exact Nat.le_refl 0
    | some alternate => exact declaringLevels_flatten alternate
  | forLoop init test step body =>
    refine Nat.succ_le_succ (max_le_max ?_ (declaringLevels_flatten body))
    cases init with
    | none => exact Nat.le_refl 0
    | some init => exact declaringLevels_flatten init
  | whileLoop test body => exact Nat.succ_le_succ (declaringLevels_flatten body)
  | _ => exact Nat.le_refl 1

/-- Declaring the names of flattened statements takes no more levels: the names of a block are
declared one level deeper than those of its statements. -/
theorem declaringLevelsAll_flatten (nodes : List Node) :
    declaringLevelsAll (flattenAll nodes) ≤ declaringLevelsAll nodes := by
  cases nodes with
  | nil => exact Nat.le_refl 0
  | cons node rest =>
    rw [flattenAll, declaringLevelsAll_append]
    refine max_le_max ?_ (declaringLevelsAll_flatten rest)
    rcases node.block_or_opened_flatten with ⟨statements, rfl⟩ | ⟨ho, hn⟩
    · exact Nat.le_succ_of_le (declaringLevelsAll_flatten statements)
    · rw [ho, declaringLevelsAll, declaringLevelsAll, Nat.max_zero]
      exact declaringLevels_flatten node

end

end Node

/-- The functions declared in a flattened body are those of the body, flattened. -/
theorem declaredIn_flatten (body : List Node) :
    declaredIn (Node.flattenAll body) = (declaredIn body).map Routine.flatten := by
  have declared (nodes : List Node) :
      declaredIn nodes = (Node.declarationsAll nodes).filterMap (·.2) := by
    rw [declaredIn, Node.declarationsAll_eq, List.filterMap_flatMap]
    rfl
  rw [declared, declared, Node.declarationsAll_flatten, List.filterMap_map, List.map_filterMap]
  rfl

theorem Unfolds.append {parts parts' more more' : List Part} (h : Unfolds parts parts')
    (h' : Unfolds more more') : Unfolds (parts ++ more) (parts' ++ more') := by
  induction h with
  | nil => exact h'
  | part p _ ih => exact .part p ih
  | opened statements _ ih =>
    rw [List.append_assoc]
    exact .opened statements ih

/-- The plan of a flattened body. -/
theorem Unfolds.workPlan (body : List Node) :
    Unfolds (workPlan body) (ScriptCompiler.workPlan (Node.flattenAll body)) := by
  rw [ScriptCompiler.workPlan, ScriptCompiler.workPlan, declaredIn_flatten, List.map_map]
  refine .append ?_ (.statements body)
  simpa [Part.flatten, Function.comp_def] using Unfolds.map ((declaredIn body).map .bind)

/-- Flattening as a translation, which keeps all names. -/
def Translation.flatten : Translation where
  name := id
  node := Node.flatten
  body := Node.flattenAll
  isExpression := Node.isExpression_flatten
  isDeclaredFunction := Node.isDeclaredFunction_flatten
  length_declared node := by rw [Node.declared_flatten, List.length_map]

theorem Translation.flatten_part (p : Part) : flatten.part p = p.flatten := by
  cases p <;> simp [part, Part.flatten, routine, Routine.flatten, flatten]

/-! ## Steps higher up -/

/-- A state at another depth. -/
def State.atDepth (s : State) (depth : Nat) : State := { s with depth }

namespace Generator

variable {α β : Type}

/-- **A step goes as another one does, at the same depth or higher up.** The other one comes back to
the depth that it started from. -/
def Lowers (x x' : Generator α) : Prop :=
  ∀ ⦃s : State⦄ ⦃a : α⦄ ⦃t : State⦄, x s = .ok (a, t) →
    t.depth = s.depth ∧ ∀ depth ≤ s.depth, x' (s.atDepth depth) = .ok (a, t.atDepth depth)

namespace Lowers

theorem pure (a : α) : Lowers (pure a) (pure a) := by
  intro s b t h
  cases h
  exact ⟨rfl, fun _ _ => rfl⟩

theorem throw (e : CompileError) (x : Generator α) : Lowers (throw e) x := by
  intro s a t h
  cases h

theorem bind {x x' : Generator α} {f f' : α → Generator β} (hx : Lowers x x')
    (hf : ∀ a, Lowers (f a) (f' a)) : Lowers (x >>= f) (x' >>= f') := by
  intro s b t h
  obtain ⟨a, s₁, h₁, h₂⟩ := bind_ok h
  obtain ⟨hd₁, hr₁⟩ := hx h₁
  obtain ⟨hd₂, hr₂⟩ := hf a h₂
  refine ⟨hd₂.trans hd₁, fun depth hl => ?_⟩
  rw [bind_eq, hr₁ depth hl]
  exact hr₂ depth (hd₁ ▸ hl)

/-- A step that always succeeds, and has nothing to do with the depth. -/
theorem modifyGet {f : State → α × State} (hd : ∀ s, (f s).2.depth = s.depth)
    (hf : ∀ s depth, f (s.atDepth depth) = ((f s).1, (f s).2.atDepth depth)) :
    Lowers (modifyGet f) (modifyGet f) := by
  intro s a t h
  have he : f s = (a, t) := Except.ok.inj h
  have ht := hd s
  have hr := hf s
  rw [he] at ht hr
  exact ⟨ht, fun depth _ => congrArg Except.ok (hr depth)⟩

theorem quiet {f : State → α × State} (hf : Quiet f) :
    Lowers (MonadState.modifyGet f) (MonadState.modifyGet f) := by
  refine modifyGet hf.depth fun s depth => (hf s s.strings s.scopes depth).trans ?_
  simp only [State.atDepth, hf.strings, hf.scopes]

/-- What went one level deeper goes at the level itself. -/
theorem of_nested {x x' : Generator Unit} (hx : Lowers x x') (limit : Nat) :
    Lowers (Generator.nested limit x) x' := by
  intro s a t h
  obtain ⟨-, last, hl, rfl⟩ := nested_eq_ok_iff.mp h
  obtain ⟨hd, hr⟩ := hx hl
  refine ⟨by rw [State.shallower, hd]; rfl, fun depth hle => ?_⟩
  exact hr depth (Nat.le_succ_of_le hle)

theorem nested {x x' : Generator Unit} (hx : Lowers x x') (limit : Nat) :
    Lowers (Generator.nested limit x) (Generator.nested limit x') := by
  intro s a t h
  obtain ⟨hlt, last, hl, rfl⟩ := nested_eq_ok_iff.mp h
  obtain ⟨hd, hr⟩ := hx hl
  refine ⟨by rw [State.shallower, hd]; rfl, fun depth hle => ?_⟩
  exact nested_eq_ok_iff.mpr ⟨Nat.lt_of_le_of_lt hle hlt, last.atDepth (depth + 1),
    hr (depth + 1) (Nat.succ_le_succ hle), rfl⟩

theorem inSection {x x' : Generator Unit} (hx : Lowers x x') :
    Lowers (inSection x) (inSection x') :=
  (quiet fun _ _ _ _ => rfl).bind fun _ => hx.bind fun _ =>
    (quiet fun _ _ _ _ => rfl).bind fun _ => .pure _

end Lowers

/-! ## Steps that do not know their depth -/

theorem emitLine_lowers (l : Line) : Lowers (emitLine l) (emitLine l) := by
  cases l with
  | text op string =>
    exact (Lowers.modifyGet (fun _ => rfl) fun _ _ => rfl).bind fun _ =>
      .quiet fun _ _ _ _ => rfl
  | _ => exact .quiet fun _ _ _ _ => rfl

/-- A step that emits a line, which depends on the state, but for its depth. -/
theorem lowers_of_emitLine {x : Generator Unit} {line : State → Line}
    (hx : ∀ s, x s = emitLine (line s) s)
    (hl : ∀ s depth, line (s.atDepth depth) = line s) : Lowers x x := by
  intro s a t h
  rw [hx] at h
  obtain ⟨hd, hr⟩ := emitLine_lowers _ h
  refine ⟨hd, fun depth hle => ?_⟩
  rw [hx, hl]
  exact hr depth hle

theorem inFunction_lowers {name name' : Option String} {params params' : List String}
    {body body' : Generator Unit}
    (h : Lowers (functionCode name params body) (functionCode name' params' body')) :
    Lowers (inFunction name params body) (inFunction name' params' body') := by
  intro s id t hf
  obtain ⟨hid, last, hl, rfl⟩ := inFunction_eq_ok_iff.mp hf
  obtain ⟨hd, hr⟩ := h hl
  refine ⟨hd, fun depth hle => ?_⟩
  exact inFunction_eq_ok_iff.mpr ⟨hid, last.atDepth depth, hr depth hle, rfl⟩

/-- All constructs go as well higher up. -/
theorem simulation_lowers : Simulation Translation.flatten.name @Lowers where
  pure := .pure
  throw := .throw
  quiet := .quiet
  emitLine := emitLine_lowers
  declare _ := .modifyGet (fun _ => rfl) fun _ _ => rfl
  load name := lowers_of_emitLine (load_eq name) fun _ _ => rfl
  store name := lowers_of_emitLine (store_eq name) fun _ _ => rfl
  bind := .bind
  nested := .nested
  enclosed := inFunction_lowers

/-! ## Code generation for flattened plans -/

theorem declareAll_lowers (limit : Nat) (nodes : List Node) :
    Lowers (declareAll limit nodes) (declareAll limit (Node.flattenAll nodes)) := by
  intro s _ t h
  obtain ⟨hl, rfl⟩ := declareAll_eq_ok_iff.mp h
  have hn := Node.declaringLevelsAll_flatten nodes
  refine ⟨rfl, fun depth hd => declareAll_eq_ok_iff.mpr ⟨?_, ?_⟩⟩
  · simp only [State.atDepth]
    omega
  · rw [Node.names_flatten]
    rfl

section Plans

variable {limit : Nat}

theorem bodyCode_lowers {body : List Node}
    (h : Lowers (perform limit {} (workPlan body))
      (perform limit {} (workPlan (Node.flattenAll body)))) :
    Lowers (bodyCode limit body) (bodyCode limit (Node.flattenAll body)) :=
  (declareAll_lowers limit body).bind fun _ => simulation_lowers.discard h

/-- All plans of parts that are smaller than a part go in the same way when blocks give way. -/
def SmallerLowers (limit : Nat) (p : Part) : Prop :=
  ∀ plan, (∀ q ∈ plan, q.size < p.size) → ∀ hand plan', Unfolds plan plan' →
    Lowers (perform limit hand plan) (perform limit hand plan')

theorem performPart_lowers {p : Part} (smaller : SmallerLowers limit p) (hand : Hand) :
    Lowers (performPart limit hand p) (performPart limit hand p.flatten) := by
  rw [← Translation.flatten_part]
  refine simulation_lowers.performPart (fun node hn hand => ?_) (fun body hb => ?_) hand
  · exact smaller _ (fun q hq => Nat.lt_of_lt_of_le (node.size_plan q hq) hn) hand _
      node.plan_unfolds
  · exact bodyCode_lowers (smaller _ (fun q hq => Nat.lt_of_lt_of_le (size_workPlan body q hq) hb)
      {} _ (.workPlan body))

/-- The statements of a block are carried out in place of the block, one level higher. -/
theorem block_lowers {nodes : List Node} (smaller : SmallerLowers limit (.statement (.block nodes)))
    (hand : Hand) :
    Lowers (performPart limit hand (.statement (.block nodes)))
      (perform limit hand ((Node.flattenAll nodes).map .statement)) := by
  have inside : Lowers (perform limit { pending := hand.pending } (nodes.map .statement))
      (perform limit { pending := hand.pending } ((Node.flattenAll nodes).map .statement)) :=
    smaller _ (fun q hq => Nat.lt_trans (size_statements nodes q hq) (by simp [Part.size])) _ _
      (.statements nodes)
  have hd : (Node.block nodes).declared.length = (declaredIn (Node.flattenAll nodes)).length := by
    rw [declaredIn_flatten, List.length_map, Node.declared, Node.declarations,
      Node.declarationsAll_eq, List.filterMap_flatMap]
    rfl
  rw [performPart, perform_statements, hd]
  refine Lowers.bind ?_ fun _ => .pure _
  rw [asStatement]
  exact (simulation_lowers.discard inside).of_nested limit

/-- **Carrying out a plan in which blocks have given way** goes as carrying out the plan. -/
theorem perform_lowers (parts : List Part) (hand : Hand) (parts' : List Part)
    (h : Unfolds parts parts') :
    Lowers (perform limit hand parts) (perform limit hand parts') := by
  induction parts using Part.induction generalizing hand parts' with
  | nil =>
    cases h
    rw [perform_nil]
    exact .pure hand
  | cons p rest smaller ih =>
    cases h with
    | part _ h =>
      rw [perform_cons, perform_cons]
      exact (performPart_lowers smaller hand).bind fun hand => ih hand _ h
    | opened nodes h =>
      rw [perform_cons, perform_append]
      exact (block_lowers smaller hand).bind fun hand => ih hand _ h

end Plans

end Generator

namespace Program

open Generator in
theorem performer_lowers (limit : Nat) (program : Program) :
    Lowers (program.performer limit) (program.flatten.performer limit) :=
  .inSection ((bodyCode_lowers (perform_lowers _ {} _ (.workPlan program.body))).bind fun _ =>
    .quiet fun _ _ _ _ => rfl)

/-- The plan of a flattened program ends in the same state, since both start at depth zero. -/
theorem performed_flatten {limit : Nat} {program : Program} {s : State}
    (h : program.performed limit = .ok s) : program.flatten.performed limit = .ok s := by
  obtain ⟨id, hg⟩ := performer_of_performed h
  obtain ⟨hd, hr⟩ := program.performer_lowers limit hg
  have hz : s.atDepth 0 = s := (congrArg s.atDepth hd).symm
  rw [← hz]
  exact congrArg (Except.map Prod.snd) (hr 0 (Nat.le_refl 0))

/-- **Blocks are transparent.** If a program has an image, then it has the same image under the same
limit when the blocks in its lists of statements, at the top level, in functions and in blocks, give
way to their statements. After that there is no block in any of these lists. -/
theorem blocks_transparent {config : Config} {program : Program} {image : Image}
    (h : program.compile config = .ok image) :
    program.flatten.compile config = .ok image ∧
      ∀ s ∈ program.flatten.root.all, ∀ statements, .block statements ∉ s.node.statementList := by
  obtain ⟨s, hg, -⟩ := compile_ok h
  have hp := performed_of_generate hg
  refine ⟨?_, fun _ => block_notMem_flatten⟩
  rw [compile_eq, hp] at h
  rw [compile_eq, performed_flatten hp]
  exact h

/-- Blocks in blocks give way at the top level and in a function. The body of a loop is a block
still, without the block in it. -/
theorem blocks_transparent_nested :
    ∃ image,
      compile ⟨4⟩ ⟨[.block [.block [.declaration "x" none], .block []],
        .function (some "f") [] [.block [.ret none]],
        .whileLoop (.ident "x") (.block [.block [.breakLoop]])]⟩ = .ok image ∧
      compile ⟨4⟩ ⟨[.declaration "x" none, .function (some "f") [] [.ret none],
        .whileLoop (.ident "x") (.block [.breakLoop])]⟩ = .ok image := by
  have h : compile ⟨4⟩ ⟨[.block [.block [.declaration "x" none], .block []],
      .function (some "f") [] [.block [.ret none]],
      .whileLoop (.ident "x") (.block [.block [.breakLoop]])]⟩ = .ok
      { sections := [
          [19, 0, 0, 0, 1, 0, 0, 0, 18, 0, 0, 0, 0, 0, 0, 0, 27, 0, 0, 0, 19, 0, 0, 0, 1, 0, 0, 0,
            27, 0, 0, 0, 4, 0, 0, 0, 1, 0, 0, 0, 14, 0, 0, 0, 16, 0, 0, 0, 12, 0, 0, 0, 16, 0, 0, 0,
            12, 0, 0, 0, 8, 0, 0, 0, 0, 0, 0, 0, 1, 0, 0, 0],
          [21, 0, 0, 0, 0, 0, 0, 0, 0, 0, 0, 0, 1, 0, 0, 0, 0, 0, 0, 0, 1, 0, 0, 0]]
        strings := ["f", "x"] } := by
    decide +kernel
  exact ⟨_, h, (blocks_transparent h).1⟩

end Program

end ScriptCompiler
