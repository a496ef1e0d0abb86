import Mathlib.Data.List.Basic
import Mathlib.Logic.Equiv.Basic
import ScriptCompiler.Proofs.Compilation
import ScriptCompiler.Proofs.Simulation
import ScriptCompiler.Tree.Equality

/-!
# Local names are erased

The code of a program addresses local names by their slots, so it does not depend on how they are
spelled. A renaming maps all names of a program alike and keeps different names apart. Code
generation goes through the renamed program in the same way, with the renamed names in its scopes.
Only global names get into the code, and with the string literals and the names of members they are
the strings of the image: a renaming that leaves these alone leaves the image alone.

## Main definitions

* `Program.rename`, `Node.rename`: renaming the names of a program, and of a node
* `Generator.Renames`: a step goes through renamed names as another one goes through the names

## Main results

* `Node.plan_rename`: the plan of a renamed node is the renamed plan
* `lexical_rename`: renaming keeps lexical addresses
* `Generator.perform_renames`: carrying out a renamed plan
* `Program.names_erased`: renaming keeps the image, if it keeps the strings of the image
-/

namespace ScriptCompiler

/-! ## Renamed trees -/

namespace Node

mutual

/-- **Renames the names of a node**: those of variables, declarations, functions and parameters. The
names of members and the texts of literals stay. -/
def rename (ρ : String → String) : Node → Node
  | declaration name init => declaration (ρ name) (renameOptional ρ init)
  | function name params body => function (name.map ρ) (params.map ρ) (renameAll ρ body)
  | ret argument => ret (renameOptional ρ argument)
  | ifElse test consequent alternate =>
    ifElse (test.rename ρ) (consequent.rename ρ) (renameOptional ρ alternate)
  | forLoop init test step body =>
    forLoop (renameOptional ρ init) (renameOptional ρ test) (renameOptional ρ step)
      (body.rename ρ)
  | whileLoop test body => whileLoop (test.rename ρ) (body.rename ρ)
  | block statements => block (renameAll ρ statements)
  | ident name => ident (ρ name)
  | array elements => array (renameAll ρ elements)
  | member object property => member (object.rename ρ) property
  | index object key => index (object.rename ρ) (key.rename ρ)
  | call callee arguments => call (callee.rename ρ) (renameAll ρ arguments)
  | assign target value => assign (target.rename ρ) (value.rename ρ)
  | binary operator left right => binary operator (left.rename ρ) (right.rename ρ)
  | compound operator target value => compound operator (target.rename ρ) (value.rename ρ)
  | logical operator left right => logical operator (left.rename ρ) (right.rename ρ)
  | unary operator argument => unary operator (argument.rename ρ)
  | update operator before argument => update operator before (argument.rename ρ)
  | conditional test consequent alternate =>
    conditional (test.rename ρ) (consequent.rename ρ) (alternate.rename ρ)
  | sequence expressions => sequence (renameAll ρ expressions)
  | other => other

/-- Renames the names of a node that may be missing. -/
def renameOptional (ρ : String → String) : Option Node → Option Node
  | none => none
  | some node => some (node.rename ρ)

/-- Renames the names of nodes in sequence. -/
def renameAll (ρ : String → String) : List Node → List Node
  | [] => []
  | node :: rest => node.rename ρ :: renameAll ρ rest

end

end Node

/-- **Renames the names of a program.** -/
def Program.rename (ρ : String → String) (program : Program) : Program :=
  ⟨program.body.map (Node.rename ρ)⟩

/-- Renames the names of a function. -/
def Routine.rename (ρ : String → String) (r : Routine) : Routine :=
  ⟨r.name.map ρ, r.params.map ρ, r.body.map (Node.rename ρ)⟩

/-- Renames the names in a part of a plan. -/
def Part.rename (ρ : String → String) : Part → Part
  | load name => load (ρ name)
  | store name => store (ρ name)
  | value node => value (node.rename ρ)
  | statement node => statement (node.rename ρ)
  | literal r => literal (r.rename ρ)
  | bind r => bind (r.rename ρ)
  | other => other

/-- Renames a place that is a name. -/
def Place.rename (ρ : String → String) : Place → Place
  | ident name => ident (ρ name)
  | other => other

section Plans

variable (ρ : String → String)

@[simp] theorem Node.renameOptional_eq (node : Option Node) :
    renameOptional ρ node = node.map (rename ρ) := by
  cases node <;> rfl

@[simp] theorem Node.renameAll_eq (nodes : List Node) :
    renameAll ρ nodes = nodes.map (rename ρ) := by
  induction nodes with
  | nil => rfl
  | cons node rest ih => rw [renameAll, ih, List.map_cons]

@[simp] theorem Node.isExpression_rename (node : Node) :
    (node.rename ρ).isExpression = node.isExpression := by
  cases node <;> rfl

@[simp] theorem Node.isDeclaredFunction_rename (node : Node) :
    (node.rename ρ).isDeclaredFunction = node.isDeclaredFunction := by
  cases node with
  | function name params body => cases name <;> rfl
  | _ => rfl

@[simp] theorem Node.isMethod_rename (node : Node) : (node.rename ρ).isMethod = node.isMethod := by
  cases node <;> rfl

theorem Node.sequencePlan_rename (nodes : List Node) :
    sequencePlan (nodes.map (rename ρ)) = (sequencePlan nodes).map (Part.rename ρ) := by
  fun_induction sequencePlan nodes with
  | case1 => rfl
  | case2 node => rfl
  | case3 node rest hr ih =>
    cases rest with
    | nil => exact absurd rfl hr
    | cons next rest => simpa [sequencePlan, Part.rename] using ih

theorem Node.calleePlan_rename (callee : Node) :
    (callee.rename ρ).calleePlan = callee.calleePlan.map (Part.rename ρ) := by
  cases callee <;> simp [rename, calleePlan, Part.rename]

/-- A renamed target is a renamed place, so its plan is renamed if what is done with the place
is. -/
theorem Node.placePlan_rename {use use' : Place → List Part}
    (h : ∀ place, use' (place.rename ρ) = (use place).map (Part.rename ρ)) (target : Node) :
    (target.rename ρ).placePlan use' = (target.placePlan use).map (Part.rename ρ) := by
  cases target with
  | ident name => exact h (.ident name)
  | member object property =>
    simpa [rename, placePlan, Part.rename, Place.rename] using h (.member property)
  | index object key => simpa [rename, placePlan, Part.rename, Place.rename] using h .index
  | _ => simp [rename, placePlan, Part.rename, kind]

theorem Place.updatePlan_rename (op : Opcode) (before : Bool) (place : Place) :
    (place.rename ρ).updatePlan op before = (place.updatePlan op before).map (Part.rename ρ) := by
  cases place <;> cases before <;> rfl

/-- **The plan of a renamed node is the renamed plan.** -/
theorem Node.plan_rename (node : Node) : (node.rename ρ).plan = node.plan.map (Part.rename ρ) := by
  cases node with
  | declaration name init => cases init <;> simp [rename, plan, Part.rename]
  | ret argument => cases argument <;> simp [rename, plan, Part.rename]
  | ifElse test consequent alternate => cases alternate <;> simp [rename, plan, Part.rename]
  | forLoop init test step body =>
    cases init <;> cases test <;> cases step <;> simp [rename, plan, Part.rename]
  | call callee arguments =>
    simp [rename, plan, Part.rename, calleePlan_rename, Function.comp_def]
  -- What is done with a target is said of its place, and a place is renamed as a whole.
  | assign target value =>
    rw [rename, plan, plan]
    exact placePlan_rename ρ (fun place => by cases place <;> rfl) target
  | compound operator target value =>
    rw [rename, plan, plan]
    exact placePlan_rename ρ (fun place => by cases place <;> rfl) target
  | update operator before target =>
    exact placePlan_rename ρ (Place.updatePlan_rename ρ operator.opcode before) target
  | sequence expressions => simp [rename, plan, sequencePlan_rename]
  | _ => simp [rename, plan, Part.rename, Routine.rename, Function.comp_def]

mutual

theorem Node.declarations_rename (node : Node) : (node.rename ρ).declarations =
    node.declarations.map (Prod.map ρ (Option.map (Routine.rename ρ))) := by
  cases node with
  | function name params body =>
    cases name <;> simp [rename, declarations, Routine.rename]
  | ifElse test consequent alternate =>
    cases alternate with
    | none => simp [rename, declarations, declarations_rename consequent]
    | some alternate =>
      simp [rename, declarations, declarations_rename consequent, declarations_rename alternate]
  | forLoop init test step body =>
    cases init with
    | none => simp [rename, declarations, declarations_rename body]
    | some init =>
      simp [rename, declarations, declarations_rename init, declarations_rename body]
  | whileLoop test body => simp [rename, declarations, declarations_rename body]
  | block statements => rw [rename, declarations, declarations, declarationsAll_rename statements]
  | _ => simp [rename, declarations]

theorem Node.declarationsAll_rename (nodes : List Node) :
    declarationsAll (renameAll ρ nodes) =
      (declarationsAll nodes).map (Prod.map ρ (Option.map (Routine.rename ρ))) := by
  cases nodes with
  | nil => rfl
  | cons node rest =>
    rw [renameAll, declarationsAll, declarationsAll, List.map_append, declarations_rename node,
      declarationsAll_rename rest]

end

theorem Node.names_rename (nodes : List Node) :
    (nodes.map (rename ρ)).flatMap names = (nodes.flatMap names).map ρ := by
  have declared (node : Node) : (node.rename ρ).names = node.names.map ρ := by
    simp [names, declarations_rename]
  simp only [List.flatMap_map, declared, List.map_flatMap]

mutual

theorem Node.declaringLevels_rename (node : Node) :
    (node.rename ρ).declaringLevels = node.declaringLevels := by
  cases node with
  | block statements =>
    rw [rename, renameAll_eq, declaringLevels, declaringLevels, declaringLevelsAll_rename]
  | ifElse test consequent alternate =>
    rw [rename, declaringLevels, declaringLevels, declaringLevels_rename consequent]
    cases alternate with
    | none => rfl
    | some alternate =>
      rw [renameOptional, declaringLevelsOptional, declaringLevelsOptional,
        declaringLevels_rename alternate]
  | forLoop init test step body =>
    rw [rename, declaringLevels, declaringLevels, declaringLevels_rename body]
    cases init with
    | none => rfl
    | some init =>
      rw [renameOptional, declaringLevelsOptional, declaringLevelsOptional,
        declaringLevels_rename init]
  | whileLoop test body =>
    rw [rename, declaringLevels, declaringLevels, declaringLevels_rename body]
  | _ => rfl

theorem Node.declaringLevelsAll_rename (nodes : List Node) :
    declaringLevelsAll (nodes.map (rename ρ)) = declaringLevelsAll nodes := by
  cases nodes with
  | nil => rfl
  | cons node rest =>
    rw [List.map_cons, declaringLevelsAll, declaringLevelsAll, declaringLevels_rename node,
      declaringLevelsAll_rename rest]

end

theorem Node.declared_rename (node : Node) :
    (node.rename ρ).declared = node.declared.map (Routine.rename ρ) := by
  simp only [declared, declarations_rename, List.filterMap_map, List.map_filterMap]
  rfl

/-- The plan of a renamed body is the renamed plan. -/
theorem workPlan_rename (body : List Node) :
    workPlan (body.map (Node.rename ρ)) = (workPlan body).map (Part.rename ρ) := by
  simp only [workPlan, declaredIn, List.flatMap_map, Node.declared_rename, List.map_append,
    List.map_flatMap, List.map_map]
  rfl

/-- Renaming as a translation. -/
def Translation.rename : Translation where
  name := ρ
  node := Node.rename ρ
  body := List.map (Node.rename ρ)
  isExpression := Node.isExpression_rename ρ
  isDeclaredFunction := Node.isDeclaredFunction_rename ρ
  length_declared node := by rw [Node.declared_rename, List.length_map]

theorem Translation.rename_part (p : Part) : (rename ρ).part p = p.rename ρ := by
  cases p <;> rfl

end Plans

/-! ## Renamed scopes -/

/-- Renames the names of every scope. -/
def ScopeChain.rename (ρ : String → String) (chain : ScopeChain) : ScopeChain :=
  ⟨chain.scopes.map fun scope => ⟨scope.names.map ρ⟩⟩

/-- Renames the names in scope. -/
def State.rename (ρ : String → String) (s : State) : State :=
  { s with scopes := s.scopes.rename ρ }

section Scopes

variable {ρ : String → String} (hρ : Function.Injective ρ)
include hρ

theorem idxOf_rename (names : List String) (name : String) :
    (names.map ρ).idxOf (ρ name) = names.idxOf name := by
  induction names with
  | nil => rfl
  | cons first names ih =>
    rw [List.map_cons, List.idxOf_cons, List.idxOf_cons, ih]
    by_cases he : first = name
    · simp [he]
    · simp [beq_eq_false_iff_ne.mpr he, beq_eq_false_iff_ne.mpr (hρ.ne he)]

/-- **Renaming keeps lexical addresses**, as it keeps different names apart. -/
theorem lexical_rename (chain : List (List String)) (name : String) :
    lexical (chain.map (List.map ρ)) (ρ name) = lexical chain name := by
  induction chain with
  | nil => rfl
  | cons names outer ih =>
    rw [List.map_cons, lexical, lexical, ih, idxOf_rename hρ]
    simp only [List.mem_map_of_injective hρ]

theorem ScopeChain.address?_rename (chain : ScopeChain) (name : String) :
    (chain.rename ρ).address? (ρ name) = chain.address? name := by
  have hn : (chain.rename ρ).names = chain.names.map (List.map ρ) := by
    simp [names, rename, Function.comp_def]
  rw [address?_eq, address?_eq, hn, lexical_rename hρ]

theorem enlist_rename (names : List String) (name : String) :
    enlist (names.map ρ) (ρ name) = (enlist names name).map ρ := by
  by_cases h : name ∈ names
  · rw [enlist, enlist, if_pos h, if_pos ((List.mem_map_of_injective hρ).mpr h)]
  · rw [enlist, enlist, if_neg h, if_neg (mt (List.mem_map_of_injective hρ).mp h), List.map_append,
      List.map_singleton]

/-- A renamed name gets the slot that the name gets. -/
theorem ScopeChain.declare_rename (chain : ScopeChain) (name : String) :
    (chain.rename ρ).declare (ρ name) =
      ((chain.declare name).1, (chain.declare name).2.rename ρ) := by
  obtain ⟨scopes⟩ := chain
  cases scopes with
  | nil => rfl
  | cons scope outer =>
    rw [rename, List.map_cons, declare_cons, declare_cons, enlist_rename hρ, idxOf_rename hρ]
    rfl

theorem ScopeChain.declareEach_rename (chain : ScopeChain) (names : List String) :
    (chain.rename ρ).declareEach (names.map ρ) = (chain.declareEach names).rename ρ := by
  induction names generalizing chain with
  | nil => rfl
  | cons name names ih =>
    rw [List.map_cons, declareEach, List.foldl_cons, declare_rename hρ]
    exact ih _

end Scopes

/-! ## Steps with renamed names -/

namespace Generator

variable {ρ : String → String} {α β : Type}

/-- Where a step gets from `s` to `t` with the result `a`, the step `x` gets from the renamed `s` to
the renamed `t`, unless a string that is in the pool by then is renamed. The pool only grows. -/
structure Renamed (ρ : String → String) (x : Generator α) (s : State) (a : α) (t : State) :
    Prop where
  valid : t.strings.Valid
  grows : s.strings.toList ⊆ t.strings.toList
  run : (∀ text ∈ t.strings.toList, ρ text = text) → x (s.rename ρ) = .ok (a, t.rename ρ)

/-- **A step goes through renamed names** as another one goes through the names. -/
def Renames (ρ : String → String) (x x' : Generator α) : Prop :=
  ∀ ⦃s : State⦄ ⦃a : α⦄ ⦃t : State⦄, s.strings.Valid → x s = .ok (a, t) → Renamed ρ x' s a t

namespace Renames

theorem pure (a : α) : Renames ρ (pure a) (pure a) := by
  intro s b t hv h
  cases h
  exact ⟨hv, List.Subset.refl _, fun _ => rfl⟩

theorem throw (e : CompileError) (x : Generator α) : Renames ρ (throw e) x := by
  intro s a t hv h
  cases h

theorem bind {x x' : Generator α} {f f' : α → Generator β} (hx : Renames ρ x x')
    (hf : ∀ a, Renames ρ (f a) (f' a)) : Renames ρ (x >>= f) (x' >>= f') := by
  intro s b t hv h
  obtain ⟨a, s₁, h₁, h₂⟩ := bind_ok h
  obtain ⟨hv₁, hg₁, hr₁⟩ := hx hv h₁
  obtain ⟨hv₂, hg₂, hr₂⟩ := hf a hv₁ h₂
  refine ⟨hv₂, List.Subset.trans hg₁ hg₂, fun ht => ?_⟩
  rw [bind_eq, hr₁ fun text hm => ht text (hg₂ hm)]
  exact hr₂ ht

/-- A step that always succeeds, and leaves the strings as they are. -/
theorem modifyGet {f f' : State → α × State} (hs : ∀ s, (f s).2.strings = s.strings)
    (hf : ∀ s, f' (s.rename ρ) = ((f s).1, (f s).2.rename ρ)) :
    Renames ρ (modifyGet f) (modifyGet f') := by
  intro s a t hv h
  have he : f s = (a, t) := Except.ok.inj h
  have ht := hs s
  have hr := hf s
  rw [he] at ht hr
  refine ⟨ht ▸ hv, by rw [ht]; exact List.Subset.refl _, fun _ => ?_⟩
  exact congrArg Except.ok hr

theorem quiet {f : State → α × State} (hf : Quiet f) :
    Renames ρ (MonadState.modifyGet f) (MonadState.modifyGet f) := by
  refine modifyGet hf.strings fun s => (hf s s.strings (s.scopes.rename ρ) s.depth).trans ?_
  simp only [State.rename, hf.strings, hf.scopes, hf.depth]

/-- A step that depends on the state. -/
theorem get {f f' : State → Generator α} (hf : ∀ s, Renames ρ (f s) (f' (s.rename ρ))) :
    Renames ρ (get >>= f) (get >>= f') := by
  intro s a t hv h
  obtain ⟨hv', hg, hr⟩ := hf s hv h
  exact ⟨hv', hg, hr⟩

theorem nested {x x' : Generator Unit} (hx : Renames ρ x x') (limit : Nat) :
    Renames ρ (nested limit x) (nested limit x') := by
  intro s a t hv h
  obtain ⟨hl, last, h₁, rfl⟩ := nested_eq_ok_iff.mp h
  obtain ⟨hv', hg, hr⟩ := hx (s := s.deeper) hv h₁
  exact ⟨hv', hg, fun ht => nested_eq_ok_iff.mpr ⟨hl, last.rename ρ, hr ht, rfl⟩⟩

theorem inSection {x x' : Generator Unit} (hx : Renames ρ x x') :
    Renames ρ (inSection x) (inSection x') :=
  (quiet fun _ _ _ _ => rfl).bind fun _ => hx.bind fun _ =>
    (quiet fun _ _ _ _ => rfl).bind fun _ => .pure _

end Renames

/-! ## Steps that know no local names -/

/-- An instruction whose operand is a string. The string may be renamed only to itself, since it is
in the pool afterwards. -/
theorem emitString_renames (op : Opcode) {text text' : String}
    (h : ρ text = text → text' = text) :
    Renames ρ (emitString op text) (emitString op text') := by
  intro s a t hv he
  cases he
  have hl := StringPool.toList_intern hv text
  refine ⟨StringPool.valid_intern hv text, fun other hm => ?_, fun ht => ?_⟩
  · change other ∈ (s.strings.intern text).2.toList
    rw [hl]
    exact mem_enlist.mpr (.inl hm)
  · have hm : text ∈ (s.strings.intern text).2.toList := hl ▸ mem_enlist_self _ _
    rw [h (ht text hm)]
    rfl

theorem emitLine_renames (l : Line) : Renames ρ (emitLine l) (emitLine l) := by
  cases l with
  | text op string => exact emitString_renames op fun _ => rfl
  | _ => exact .quiet fun _ _ _ _ => rfl

theorem inFunction_renames {name name' : Option String} {params params' : List String}
    {body body' : Generator Unit}
    (h : Renames ρ (functionCode name params body) (functionCode name' params' body')) :
    Renames ρ (inFunction name params body) (inFunction name' params' body') := by
  intro s id t hv hf
  obtain ⟨hid, last, h₁, rfl⟩ := inFunction_eq_ok_iff.mp hf
  obtain ⟨hv', hg, hr⟩ := h (s := entered s) hv h₁
  refine ⟨hv', hg, fun ht => inFunction_eq_ok_iff.mpr ⟨hid, last.rename ρ, hr ht, ?_⟩⟩
  simp only [left, State.rename, ScopeChain.rename, ScopeChain.pop, List.map_tail]

/-! ## Steps that know local names -/

section Names

variable (hρ : Function.Injective ρ)
include hρ

/-- The use of a name: a slot is found under the renamed name too, and a global name is in the pool
afterwards. -/
theorem access_renames (slotted global : Opcode) (name : String) :
    Renames ρ
      (do match (← get).scopes.address? name with
          | some (slot, frames) => emitBinary slotted slot frames
          | none => emitString global name)
      (do match (← get).scopes.address? (ρ name) with
          | some (slot, frames) => emitBinary slotted slot frames
          | none => emitString global (ρ name)) := by
  refine .get fun s => ?_
  change Renames ρ _ (match (s.scopes.rename ρ).address? (ρ name) with
    | some (slot, frames) => _ | none => _)
  rw [ScopeChain.address?_rename hρ]
  cases s.scopes.address? name with
  | some address => exact emitLine_renames (.binary slotted address.1 address.2)
  | none => exact emitString_renames global id

theorem declare_renames (name : String) : Renames ρ (declare name) (declare (ρ name)) := by
  refine .modifyGet (fun _ => rfl) fun s => ?_
  change (((s.scopes.rename ρ).declare (ρ name)).1,
    { s with scopes := ((s.scopes.rename ρ).declare (ρ name)).2 }) = _
  rw [ScopeChain.declare_rename hρ]
  rfl

/-- All constructs go in the same way through renamed names. -/
theorem simulation_renames : Simulation (Translation.rename ρ).name (Renames ρ) where
  pure := .pure
  throw := .throw
  quiet := .quiet
  emitLine := emitLine_renames
  declare := declare_renames hρ
  load := access_renames hρ .pushVariable .pushGlobal
  store := access_renames hρ .setVariable .setGlobal
  bind := .bind
  nested := .nested
  enclosed := inFunction_renames

theorem declareAll_renames (limit : Nat) (nodes : List Node) :
    Renames ρ (declareAll limit nodes) (declareAll limit (nodes.map (Node.rename ρ))) := by
  intro s _ t hv h
  obtain ⟨hl, rfl⟩ := declareAll_eq_ok_iff.mp h
  refine ⟨hv, List.Subset.refl _, fun _ => declareAll_eq_ok_iff.mpr ⟨?_, ?_⟩⟩
  · rw [Node.declaringLevelsAll_rename]
    exact hl
  · rw [Node.names_rename, State.rename, State.rename, ScopeChain.declareEach_rename hρ]

end Names

/-! ## Renamed plans -/

section Plans

variable (hρ : Function.Injective ρ) {limit : Nat}
include hρ

theorem bodyCode_renames {body : List Node}
    (h : Renames ρ (perform limit {} (workPlan body))
      (perform limit {} ((workPlan body).map (Part.rename ρ)))) :
    Renames ρ (bodyCode limit body) (bodyCode limit (body.map (Node.rename ρ))) := by
  rw [← workPlan_rename] at h
  exact (declareAll_renames hρ limit body).bind fun _ => (simulation_renames hρ).discard h

/-- Carrying out a renamed part, if all plans of smaller parts are carried out renamed. -/
theorem performPart_renames {p : Part}
    (smaller : ∀ plan, (∀ q ∈ plan, q.size < p.size) → ∀ hand,
      Renames ρ (perform limit hand plan) (perform limit hand (plan.map (Part.rename ρ))))
    (hand : Hand) :
    Renames ρ (performPart limit hand p) (performPart limit hand (p.rename ρ)) := by
  rw [← Translation.rename_part]
  refine (simulation_renames hρ).performPart (fun node hn hand => ?_) (fun body hb => ?_) hand
  · change Renames ρ _ (perform limit hand (node.rename ρ).plan)
    rw [Node.plan_rename]
    exact smaller _ (fun q hq => Nat.lt_of_lt_of_le (node.size_plan q hq) hn) hand
  · exact bodyCode_renames hρ
      (smaller _ (fun q hq => Nat.lt_of_lt_of_le (size_workPlan body q hq) hb) {})

/-- **Carrying out a renamed plan** goes as carrying out the plan. -/
theorem perform_renames (parts : List Part) (hand : Hand) :
    Renames ρ (perform limit hand parts) (perform limit hand (parts.map (Part.rename ρ))) := by
  induction parts using Part.induction generalizing hand with
  | nil =>
    rw [List.map_nil, perform_nil]
    exact .pure hand
  | cons p rest smaller ih =>
    rw [List.map_cons, perform_cons, perform_cons]
    exact (performPart_renames hρ smaller hand).bind fun hand => ih hand

end Plans

end Generator

namespace Program

variable {ρ : String → String}

open Generator in
theorem performer_renames (hρ : Function.Injective ρ) (limit : Nat) (program : Program) :
    Renames ρ (program.performer limit) ((program.rename ρ).performer limit) :=
  .inSection ((bodyCode_renames hρ (perform_renames hρ _ {})).bind fun _ =>
    .quiet fun _ _ _ _ => rfl)

/-- The plan of a renamed program ends in the renamed state. It starts with an empty pool and
without scopes, so that its start is renamed to itself. -/
theorem performed_rename (hρ : Function.Injective ρ) {limit : Nat} {program : Program} {s : State}
    (h : program.performed limit = .ok s) (hs : ∀ text ∈ s.strings.toList, ρ text = text) :
    (program.rename ρ).performed limit = .ok (s.rename ρ) := by
  obtain ⟨id, hg⟩ := performer_of_performed h
  have hr := (performer_renames hρ limit program StringPool.valid_empty hg).run hs
  exact congrArg (Except.map Prod.snd) hr

/-- **Local names are erased.** If a renaming keeps different names apart, and keeps the strings of
the image of a program, then the renamed program has the same image. -/
theorem names_erased {ρ : String → String} (hρ : Function.Injective ρ) {config : Config}
    {program : Program} {image : Image} (h : program.compile config = .ok image)
    (hs : ∀ text ∈ image.strings, ρ text = text) :
    (program.rename ρ).compile config = .ok image := by
  obtain ⟨s, hg, hstrings, -⟩ := compile_ok h
  have hp := performed_of_generate hg
  have hr := performed_rename hρ hp (hstrings ▸ hs)
  rw [compile_eq, hp] at h
  rw [compile_eq, hr]
  exact h

/-- A parameter and a local variable exchange their names; the global names and the name of a member
stay. -/
theorem names_erased_exchange :
    ∃ image, (compile {} ⟨[.function (some "f") ["a"] [.declaration "b" (some (.ident "a")),
          .ret (some (.member (.ident "g") "p"))]]⟩ = .ok image ∧
        ∀ text ∈ image.strings, Equiv.swap "a" "b" text = text) ∧
      compile {} ⟨[.function (some "f") ["b"] [.declaration "a" (some (.ident "b")),
          .ret (some (.member (.ident "g") "p"))]]⟩ = .ok image := by
  have h : compile {} ⟨[.function (some "f") ["a"] [.declaration "b" (some (.ident "a")),
      .ret (some (.member (.ident "g") "p"))]]⟩ = .ok
      { sections := [
          [19, 0, 0, 0, 1, 0, 0, 0, 18, 0, 0, 0, 2, 0, 0, 0, 27, 0, 0, 0, 19, 0, 0, 0, 1, 0, 0, 0,
            27, 0, 0, 0, 0, 0, 0, 0, 1, 0, 0, 0],
          [21, 0, 0, 0, 0, 0, 0, 0, 22, 0, 0, 0, 1, 0, 0, 0, 0, 0, 0, 0, 8, 0, 0, 0, 1, 0, 0,
            0, 0, 0, 0, 0, 7, 0, 0, 0, 2, 0, 0, 0, 0, 0, 0, 0, 27, 0, 0, 0, 4, 0, 0, 0, 0, 0, 0,
            0, 44, 0, 0, 0, 1, 0, 0, 0, 1, 0, 0, 0, 0, 0, 0, 0, 1, 0, 0, 0]]
        strings := ["g", "p", "f"] } := by
    decide +kernel
  have hs : ∀ text ∈ ["g", "p", "f"], Equiv.swap "a" "b" text = text := by decide +kernel
  have hr := names_erased (Equiv.swap "a" "b").injective h hs
  have he : rename (Equiv.swap "a" "b") ⟨[.function (some "f") ["a"]
      [.declaration "b" (some (.ident "a")), .ret (some (.member (.ident "g") "p"))]]⟩ =
      ⟨[.function (some "f") ["b"]
        [.declaration "a" (some (.ident "b")), .ret (some (.member (.ident "g") "p"))]]⟩ := by
    simp [rename, Node.rename, hs "f", hs "g"]
  exact ⟨_, ⟨h, hs⟩, he ▸ hr⟩

end Program

end ScriptCompiler
