import Mathlib.Order.MinMax
import ScriptCompiler.Proofs.Compilation
import ScriptCompiler.Proofs.Cutoff

/-!
# How many levels a program needs

The levels that the code of a program needs can be read off its tree. A node needs one level more
than what is compiled directly under it, with two exceptions: what is assigned to or called as a
method is looked through, and a declared function is compiled at the level of the body that it is
declared in, not where it stands. If a program compiles at all, it compiles under exactly those
limits that are at least what it needs.

Two counts have to meet for that. Carrying out a plan takes as many levels as the deepest of its
parts needs, exactly. Declaring the names of a body takes levels of its own, of which it is enough
to know that they are no more than those of the statements.

## Main definitions

* `Node.innerNeed`, `Node.statementNeed`: the levels that a node needs below its own, and those that
  it needs in statement position
* `bodyNeed`, `Program.need`: the levels that a body and a program need
* `needOf`: the levels that the parts of a plan need
* `Generator.Takes`: bounds on the levels that a step takes

## Main results

* `Node.needOf_plan`: the plan of a node needs what the node needs below its own level
* `Generator.perform_exact`: carrying out a plan takes the levels that its parts need
* `Program.need_exact`: a program compiles under the limits that are at least what it needs
-/

namespace ScriptCompiler

/-! ## The levels of a tree -/

namespace Node

/-- The levels that a node needs in statement position, given those that it needs below its own. The
value of an expression takes a level under that of the statement. Of a declared function only these
two levels count, since it has been compiled before. -/
def statementLevels (node : Node) (inner : Nat) : Nat :=
  if node.isExpression then if node.isDeclaredFunction then 2 else inner + 2 else inner + 1

mutual

/-- **The levels that a node needs below its own**: the most that one of the statements and values
needs that are compiled directly under it. -/
def innerNeed : Node → Nat
  | declaration _ value | ret value => optionalValueNeed value
  | function _ _ body => max (statementsNeed body) (hoistedNeedAll body)
  | ifElse test consequent alternate =>
    max (test.innerNeed + 1)
      (max (consequent.statementLevels consequent.innerNeed) (optionalStatementNeed alternate))
  | forLoop init test step body =>
    max (max (optionalStatementNeed init) (optionalValueNeed test))
      (max (body.statementLevels body.innerNeed) (optionalValueNeed step))
  | whileLoop test body => max (test.innerNeed + 1) (body.statementLevels body.innerNeed)
  | block statements => statementsNeed statements
  | array elements | sequence elements => valuesNeed elements
  | member object _ | unary _ object => object.innerNeed + 1
  | index left right | binary _ left right | logical _ left right =>
    max (left.innerNeed + 1) (right.innerNeed + 1)
  | conditional test consequent alternate =>
    max (test.innerNeed + 1) (max (consequent.innerNeed + 1) (alternate.innerNeed + 1))
  -- A method has no level of its own, only its object and its key have.
  | call callee arguments =>
    max (if callee.isMethod then callee.innerNeed else callee.innerNeed + 1) (valuesNeed arguments)
  -- Nor has what is assigned to; a name has nothing below it and does not count at all.
  | assign target value | compound _ target value => max target.innerNeed (value.innerNeed + 1)
  | update _ _ target => target.innerNeed
  | breakLoop | continueLoop | ident _ | number _ | string _ | boolean _ | null | undefined
  | unsupported _ => 0

/-- The levels of a value that may be missing. -/
def optionalValueNeed : Option Node → Nat
  | none => 0
  | some node => node.innerNeed + 1

/-- The levels of a statement that may be missing. -/
def optionalStatementNeed : Option Node → Nat
  | none => 0
  | some node => node.statementLevels node.innerNeed

/-- The most that one of the values needs. -/
def valuesNeed : List Node → Nat
  | [] => 0
  | node :: rest => max (node.innerNeed + 1) (valuesNeed rest)

/-- The most that one of the statements needs. -/
def statementsNeed : List Node → Nat
  | [] => 0
  | node :: rest => max (node.statementLevels node.innerNeed) (statementsNeed rest)

/-- The most that the body of one of the functions needs that a statement declares. How deeply they
stand in the statement does not count. -/
def hoistedNeed : Node → Nat
  | function (some _) _ body => max (statementsNeed body) (hoistedNeedAll body)
  | block statements => hoistedNeedAll statements
  | ifElse _ consequent alternate => max consequent.hoistedNeed (hoistedNeedOptional alternate)
  | forLoop init _ _ body => max (hoistedNeedOptional init) body.hoistedNeed
  | whileLoop _ body => body.hoistedNeed
  | _ => 0

/-- The most that the body of a function needs that a statement declares, which may be missing. -/
def hoistedNeedOptional : Option Node → Nat
  | none => 0
  | some node => node.hoistedNeed

/-- The most that the body of one of the functions needs that statements declare. -/
def hoistedNeedAll : List Node → Nat
  | [] => 0
  | node :: rest => max node.hoistedNeed (hoistedNeedAll rest)

end

/-- The levels that a node needs in statement position. -/
def statementNeed (node : Node) : Nat := node.statementLevels node.innerNeed

theorem one_le_statementNeed (node : Node) : 1 ≤ node.statementNeed := by
  unfold statementNeed statementLevels
  split
  · split <;> omega
  · omega

mutual

theorem declaringLevels_le_need (node : Node) : node.declaringLevels ≤ node.statementNeed := by
  cases node with
  | block statements => exact Nat.succ_le_succ (declaringLevelsAll_le_need statements)
  | ifElse test consequent alternate =>
    refine Nat.succ_le_succ (Nat.le_trans (max_le_max ?_ ?_) (Nat.le_max_right _ _))
    · exact declaringLevels_le_need consequent
    · cases alternate with
      | none => exact Nat.le_refl 0
      | some alternate => exact declaringLevels_le_need alternate
  | forLoop init test step body =>
    refine Nat.succ_le_succ (max_le_max (Nat.le_trans ?_ (Nat.le_max_left _ _))
      (Nat.le_trans (declaringLevels_le_need body) (Nat.le_max_left _ _)))
    cases init with
    | none => exact Nat.le_refl 0
    | some init => exact declaringLevels_le_need init
  | whileLoop test body =>
    exact Nat.succ_le_succ (Nat.le_trans (declaringLevels_le_need body) (Nat.le_max_right _ _))
  | _ => exact one_le_statementNeed _

/-- **Declaring names takes no more levels** than compiling the statements that declare them. -/
theorem declaringLevelsAll_le_need (nodes : List Node) :
    declaringLevelsAll nodes ≤ statementsNeed nodes := by
  cases nodes with
  | nil => exact Nat.le_refl 0
  | cons node rest =>
    exact max_le_max (declaringLevels_le_need node) (declaringLevelsAll_le_need rest)

end

end Node

/-- **The levels that a body needs**: the most that one of its statements needs, or the body of one
of the functions declared in it. -/
def bodyNeed (body : List Node) : Nat := max (Node.statementsNeed body) (Node.hoistedNeedAll body)

/-- **The levels that a program needs.** -/
def Program.need (program : Program) : Nat := bodyNeed program.body

/-! ## The levels of a plan -/

/-- The levels that a part needs. -/
def Part.need : Part → Nat
  | value node => node.innerNeed + 1
  | statement node => node.statementNeed
  | literal r | bind r => bodyNeed r.body
  | _ => 0

/-- The most that one of the parts needs. -/
def needOf : List Part → Nat
  | [] => 0
  | p :: rest => max p.need (needOf rest)

section Plans

open ScriptCompiler.Part

@[simp] theorem needOf_nil : needOf [] = 0 := rfl

@[simp] theorem needOf_cons (p : Part) (rest : List Part) :
    needOf (p :: rest) = max p.need (needOf rest) := rfl

@[simp] theorem needOf_append (parts more : List Part) :
    needOf (parts ++ more) = max (needOf parts) (needOf more) := by
  induction parts with
  | nil => simp
  | cons p rest ih => simp [ih, Nat.max_assoc]

theorem needOf_values (nodes : List Node) : needOf (nodes.map .value) = Node.valuesNeed nodes := by
  induction nodes with
  | nil => rfl
  | cons node rest ih => simp [Node.valuesNeed, ih, need]

theorem needOf_statements (nodes : List Node) :
    needOf (nodes.map .statement) = Node.statementsNeed nodes := by
  induction nodes with
  | nil => rfl
  | cons node rest ih => simp [Node.statementsNeed, ih, need, Node.statementNeed]

theorem needOf_sequencePlan (nodes : List Node) :
    needOf (Node.sequencePlan nodes) = Node.valuesNeed nodes := by
  fun_induction Node.sequencePlan nodes with
  | case1 => rfl
  | case2 => rfl
  | case3 node rest _ ih => simp [Node.valuesNeed, ih, need]

/-- **The plan of a node needs what the node needs below its own level**, unless it is the plan of
something that cannot be assigned to. -/
theorem Node.needOf_plan {node : Node} (h : ∀ e, .fail e ∉ node.plan) :
    needOf node.plan = node.innerNeed := by
  cases node with
  | declaration name value | ret value =>
    cases value <;> simp [plan, need, innerNeed, optionalValueNeed]
  | ifElse test consequent alternate =>
    cases alternate <;> simp [plan, need, innerNeed, optionalStatementNeed, statementNeed]
  | forLoop init test step body =>
    cases init <;> cases test <;> cases step <;>
      simp [plan, need, innerNeed, optionalStatementNeed, optionalValueNeed, statementNeed,
        Nat.max_assoc]
  | block statements => exact needOf_statements statements
  | array elements => simp [plan, innerNeed, needOf_values, need]
  | sequence expressions => exact needOf_sequencePlan expressions
  | call callee arguments =>
    obtain ⟨object, property, rfl⟩ | ⟨object, key, rfl⟩ | ⟨hp, hm⟩ := callee.callee_cases
    · simp [plan, calleePlan, innerNeed, isMethod, needOf_values, need]
    · simp only [plan, calleePlan, innerNeed, isMethod, needOf_append, needOf_cons, needOf_nil,
        needOf_values, need, if_true]
      omega
    · simp [plan, hp, hm, innerNeed, needOf_values, need]
  | assign target value | compound operator target value =>
    obtain ⟨name, rfl⟩ | ⟨object, property, rfl⟩ | ⟨object, key, rfl⟩ | hf := target.target_cases
    iterate 3 simp [plan, placePlan, need, innerNeed, Nat.max_assoc]
    rw [plan, hf] at h
    exact absurd List.mem_cons_self (h _)
  | update operator before target =>
    obtain ⟨name, rfl⟩ | ⟨object, property, rfl⟩ | ⟨object, key, rfl⟩ | hf := target.target_cases
    iterate 3 cases before <;> simp [plan, placePlan, need, innerNeed]
    rw [plan, hf] at h
    exact absurd List.mem_cons_self (h _)
  | _ => simp [plan, need, innerNeed, statementNeed, bodyNeed]

mutual

theorem needOf_declared (node : Node) : needOf (node.declared.map .bind) = node.hoistedNeed := by
  cases node with
  | function name params body =>
    cases name <;> simp [Node.declared, Node.declarations, Node.hoistedNeed, need, bodyNeed]
  | block statements =>
    rw [Node.declared, Node.declarations, Node.declarationsAll_eq, List.filterMap_flatMap,
      Node.hoistedNeed]
    exact needOf_declaredIn statements
  | ifElse test consequent alternate =>
    cases alternate with
    | none =>
      simpa [Node.hoistedNeed, Node.hoistedNeedOptional, Node.declared, Node.declarations] using
        needOf_declared consequent
    | some alternate =>
      simp [Node.hoistedNeed, Node.hoistedNeedOptional, ← needOf_declared consequent,
        ← needOf_declared alternate, Node.declared, Node.declarations]
  | forLoop init test step body =>
    cases init with
    | none =>
      simpa [Node.hoistedNeed, Node.hoistedNeedOptional, Node.declared, Node.declarations] using
        needOf_declared body
    | some init =>
      simp [Node.hoistedNeed, Node.hoistedNeedOptional, ← needOf_declared init,
        ← needOf_declared body, Node.declared, Node.declarations]
  | whileLoop test body => exact needOf_declared body
  | _ => rfl

/-- Binding the functions declared in a body needs the most that one of them needs. -/
theorem needOf_declaredIn (body : List Node) :
    needOf ((declaredIn body).map .bind) = Node.hoistedNeedAll body := by
  cases body with
  | nil => rfl
  | cons node rest =>
    rw [declaredIn, List.flatMap_cons, List.map_append, needOf_append, needOf_declared node,
      Node.hoistedNeedAll]
    congr 1
    exact needOf_declaredIn rest

end

end Plans

/-! ## The levels that a step takes -/

namespace Generator

/-- **Bounds on the levels that a step takes** from the state `s`, where `r` is what it ends in.
Under every limit the step ends there or is cut off. It ends there only if there are `least` levels
left, and it is cut off only if there are not `most`. -/
structure Takes {α : Type} (least most : Nat) (x : Nat → Generator α) (s : State)
    (r : α × State) : Prop where
  depth : r.2.depth = s.depth
  run : ∀ limit, s.depth ≤ limit →
    x limit s = .ok r ∧ s.depth + least ≤ limit ∨
      x limit s = .error (.nestingTooDeep limit) ∧ limit < s.depth + most

namespace Takes

variable {α β : Type} {least most : Nat} {s s₁ : State}

theorem mono {x : Nat → Generator α} {r : α × State} (h : Takes least most x s r)
    {least' most' : Nat} (hl : least' ≤ least) (hm : most ≤ most') : Takes least' most' x s r := by
  refine ⟨h.depth, fun limit hs => ?_⟩
  rcases h.run limit hs with ⟨hx, hle⟩ | ⟨hx, hlt⟩
  · exact .inl ⟨hx, by omega⟩
  · exact .inr ⟨hx, by omega⟩

/-- A step that has nothing to do with the limit takes no level. -/
theorem const {x : Generator α} {r : α × State} (h : x s = .ok r) (hd : r.2.depth = s.depth) :
    Takes 0 0 (fun _ => x) s r :=
  ⟨hd, fun _ hs => .inl ⟨h, hs⟩⟩

/-- Of two steps, the one that takes more levels counts. -/
theorem bind {x : Nat → Generator α} {f : Nat → α → Generator β} {a : α} {r : β × State}
    {least' most' : Nat} (hx : Takes least most x s (a, s₁))
    (hf : Takes least' most' (fun limit => f limit a) s₁ r) :
    Takes (max least least') (max most most') (fun limit => x limit >>= f limit) s r := by
  have hd : s₁.depth = s.depth := hx.depth
  refine ⟨hf.depth.trans hd, fun limit hs => ?_⟩
  simp only [bind_eq]
  rcases hx.run limit hs with ⟨hx, hle⟩ | ⟨hx, hlt⟩
  · rw [hx]
    rcases hf.run limit (hd ▸ hs) with ⟨hf, hle'⟩ | ⟨hf, hlt'⟩
    · exact .inl ⟨hf, by omega⟩
    · exact .inr ⟨hf, by omega⟩
  · rw [hx]
    exact .inr ⟨rfl, by omega⟩

/-- What follows a step and has nothing to do with the limit takes no level. -/
theorem followed {x : Nat → Generator α} {f : α → Generator β} {a : α} {r : β × State}
    (hx : Takes least most x s (a, s₁)) (hf : f a s₁ = .ok r) (hd : r.2.depth = s₁.depth) :
    Takes least most (fun limit => x limit >>= f) s r :=
  (hx.bind (f := fun _ => f) (.const hf hd)).mono (by omega) (by omega)

/-- A step one level deeper takes one level more. -/
theorem nested {x : Nat → Generator Unit} (h : Takes least most x s.deeper ((), s₁)) :
    Takes (least + 1) (most + 1) (fun limit => nested limit (x limit)) s ((), s₁.shallower) := by
  have hdeeper : s.deeper.depth = s.depth + 1 := rfl
  have hd : s₁.depth = s.depth + 1 := h.depth
  refine ⟨by rw [State.shallower, hd]; rfl, fun limit hs => ?_⟩
  simp only [nested_eq]
  by_cases hl : limit ≤ s.depth
  · exact .inr ⟨if_pos hl, by omega⟩
  · rw [if_neg hl]
    rcases h.run limit (by omega) with ⟨hx, hle⟩ | ⟨hx, hlt⟩
    · exact .inl ⟨by rw [hx]; rfl, by omega⟩
    · exact .inr ⟨by rw [hx]; rfl, by omega⟩

/-- A step in another context takes the same levels, if it starts and ends at the same level. -/
theorem of_map {x : Nat → Generator α} {y : Nat → Generator β} {s₀ : State} {r : β × State}
    {g : β × State → α × State} (h : Takes least most y s₀ r) (hs : s₀.depth = s.depth)
    (hg : (g r).2.depth = r.2.depth) (hx : ∀ limit, x limit s = (y limit s₀).map g) :
    Takes least most x s (g r) := by
  refine ⟨hg.trans (h.depth.trans hs), fun limit hl => ?_⟩
  rw [hx, ← hs]
  rcases h.run limit (hs ▸ hl) with ⟨hy, hle⟩ | ⟨hy, hlt⟩
  · exact .inl ⟨by rw [hy]; rfl, hle⟩
  · exact .inr ⟨by rw [hy]; rfl, hlt⟩

end Takes

/-! ## Declarations -/

/-- **Declaring the names of statements takes no more levels** than the statements need. -/
theorem declareAll_takes {limit : Nat} (nodes : List Node) {s s' : State}
    (h : declareAll limit nodes s = .ok ((), s')) :
    Takes 0 (Node.statementsNeed nodes) (fun limit => declareAll limit nodes) s ((), s') := by
  obtain rfl := declareAll_ok nodes h
  have hn := Node.declaringLevelsAll_le_need nodes
  refine ⟨rfl, fun limit hs => ?_⟩
  rw [declareAll_eq, declaring]
  split
  · exact .inl ⟨rfl, hs⟩
  · exact .inr ⟨rfl, by omega⟩

/-! ## Constructs -/

/-- Carrying out a plan that goes well under some limit takes the levels that its parts need. -/
def Exact (plan : List Part) : Prop :=
  ∀ {limit hand s r}, s.Ready → perform limit hand plan s = .ok r →
    Takes (needOf plan) (needOf plan) (fun limit => perform limit hand plan) s r

theorem perform_ne_ok_of_fail {limit : Nat} {e : CompileError} {parts : List Part}
    (h : .fail e ∈ parts) (hand : Hand) (s : State) (r : Hand × State) :
    perform limit hand parts s ≠ .ok r := by
  intro hp
  induction parts generalizing hand s with
  | nil => cases h
  | cons p rest ih =>
    rw [perform_cons] at hp
    obtain ⟨hand₁, s₁, h₁, h₂⟩ := bind_ok hp
    rcases List.mem_cons.mp h with rfl | h
    · rw [performPart] at h₁
      cases h₁
    · exact ih h hand₁ s₁ h₂

section Constructs

variable {limit : Nat} {node : Node} {s s' : State} {hand : Hand}

theorem discard_takes {plan : List Part} (hp : Exact plan) (hs : s.Ready)
    (h : discard (perform limit hand plan) s = .ok ((), s')) :
    Takes (needOf plan) (needOf plan) (fun limit => discard (perform limit hand plan)) s
      ((), s') := by
  obtain ⟨hand', h⟩ := discard_ok h
  simp only [discard_eq]
  exact (hp hs h).followed (f := fun _ => pure ()) rfl rfl

theorem plan_takes (hp : Exact node.plan) (hs : s.Ready)
    (h : discard (perform limit hand node.plan) s = .ok ((), s')) :
    Takes node.innerNeed node.innerNeed (fun limit => discard (perform limit hand node.plan)) s
      ((), s') := by
  obtain ⟨hand', hr⟩ := discard_ok h
  have hf : ∀ e, .fail e ∉ node.plan := fun e he => perform_ne_ok_of_fail he _ _ _ hr
  rw [← Node.needOf_plan hf]
  exact discard_takes hp hs h

theorem asValue_takes (hp : Exact node.plan) (hs : s.Ready)
    (h : asValue limit node (discard (perform limit hand node.plan)) s = .ok ((), s')) :
    Takes (node.innerNeed + 1) (node.innerNeed + 1)
      (fun limit => asValue limit node (discard (perform limit hand node.plan))) s ((), s') := by
  rw [asValue] at h
  split at h
  case isTrue he =>
    obtain ⟨s₁, hc, rfl⟩ := nested_ok h
    simp only [asValue, he, if_true]
    exact (plan_takes hp hs.deeper hc).nested
  case isFalse => cases h

/-- A declared function that has been compiled takes no level. -/
theorem standingPlan_takes (hp : Exact node.standingPlan) (hs : s.Ready)
    (h : discard (perform limit hand node.standingPlan) s = .ok ((), s')) :
    Takes (if node.isDeclaredFunction then 0 else node.innerNeed)
      (if node.isDeclaredFunction then 0 else node.innerNeed)
      (fun limit => discard (perform limit hand node.standingPlan)) s ((), s') := by
  cases hf : node.isDeclaredFunction with
  | true =>
    have hn : node.standingPlan = [.pass] := if_pos hf
    rw [hn] at hp h ⊢
    exact discard_takes hp hs h
  | false =>
    have hn : node.standingPlan = node.plan := if_neg (by simp [hf])
    rw [hn] at hp h ⊢
    exact plan_takes hp hs h

theorem asStatement_takes (hp : Exact node.standingPlan) (hs : s.Ready)
    (h : asStatement limit node (discard (perform limit hand node.standingPlan)) s =
      .ok ((), s')) :
    Takes node.statementNeed node.statementNeed
      (fun limit => asStatement limit node (discard (perform limit hand node.standingPlan))) s
      ((), s') := by
  obtain ⟨s₁, h₁, rfl⟩ := nested_ok h
  split at h₁
  case isTrue he =>
    obtain ⟨_, s₂, hn, hpop⟩ := bind_ok h₁
    obtain ⟨s₃, hc, rfl⟩ := nested_ok hn
    have hdepth : s₁.depth = s₃.shallower.depth := by
      cases hpop
      rfl
    have hneed : node.statementNeed =
        (if node.isDeclaredFunction then 0 else node.innerNeed) + 2 := by
      rw [Node.statementNeed, Node.statementLevels, if_pos he]
      split <;> rfl
    have value := (standingPlan_takes hp hs.deeper.deeper hc).nested
    simp only [asStatement, he, if_true, hneed]
    exact (value.followed (f := fun _ => emitPlain .pop) hpop hdepth).nested
  case isFalse he =>
    have hf : node.isDeclaredFunction = false := by
      cases node <;> first | rfl | exact absurd rfl he
    have code := standingPlan_takes hp hs.deeper h₁
    simp only [asStatement, he, hf, if_false, Bool.false_eq_true, Node.statementNeed,
      Node.statementLevels] at code ⊢
    exact code.nested

end Constructs

/-! ## Functions -/

/-- The code of a body takes the levels that the body needs, and declaring its names takes no
more. -/
theorem bodyCode_takes {limit : Nat} {body : List Node} (hp : Exact (workPlan body))
    {s s' : State} (hs : s.Ready) (h : bodyCode limit body s = .ok ((), s')) :
    Takes (bodyNeed body) (bodyNeed body) (fun limit => bodyCode limit body) s ((), s') := by
  obtain ⟨_, s₁, h₁, h₂⟩ := bind_ok h
  have hs₁ : s₁.Ready := by
    rw [declareAll_ok body h₁]
    exact ⟨hs.strings, hs.opened, hs.current⟩
  have run := (declareAll_takes body h₁).bind (f := fun limit _ => _) (discard_takes hp hs₁ h₂)
  rw [workPlan, needOf_append, needOf_declaredIn, needOf_statements] at run
  exact run.mono (by rw [bodyNeed]; omega) (by rw [bodyNeed]; omega)

theorem routine_takes {limit : Nat} {r : Routine} (hp : Exact (workPlan r.body))
    {s s' : State} {id : SectionId} (hs : s.Ready) (h : routine limit r s = .ok (id, s')) :
    Takes (bodyNeed r.body) (bodyNeed r.body) (fun limit => routine limit r) s (id, s') := by
  obtain ⟨rfl, s₁, s₂, s₃, last, h₁, h₂, h₃, h₄, rfl⟩ := routine_ok h
  obtain ⟨hs₁, -, hc₁, hw₁⟩ := bindCallee_writes (ready_entered hs) rfl (List.prefix_refl _) h₁
  obtain ⟨hs₂, -, -, hw₂⟩ := bindArguments_writes hs₁ hc₁ (List.prefix_refl _) h₂
  have prologue : Takes 0 0 (fun _ => do bindCallee r.name; bindArguments 0 r.params) (entered s)
      ((), s₂) :=
    .const (by rw [bind_eq, h₁]; exact h₂) (hw₂.depth.trans hw₁.depth)
  have body := (bodyCode_takes hp hs₂ h₃).followed (f := fun _ => emitEnd) h₄ (by cases h₄; rfl)
  have run := prologue.bind (f := fun limit _ => _) body
  simp only [bind_assoc, Nat.zero_max] at run
  exact Takes.of_map (g := fun r => (s.sections.size, left s r.2)) run rfl rfl
    fun limit => inFunction_eq _ _ _ _

/-! ## Plans -/

/-- A part takes the levels that it needs, if carrying out all plans of smaller parts does. -/
theorem performPart_takes {limit : Nat} {p : Part}
    (smaller : ∀ plan, (∀ q ∈ plan, q.size < p.size) → Exact plan) {s s' : State}
    {hand hand' : Hand} (hs : s.Ready) (h : performPart limit hand p s = .ok (hand', s')) :
    Takes p.need p.need (fun limit => performPart limit hand p) s (hand', s') := by
  have depth : s'.depth = s.depth := by
    obtain ⟨_, _, -, hw⟩ :=
      (performPart_emitted (fun plan _ => perform_emitted limit plan) hs h).emits
    exact hw.depth
  unfold performPart at h ⊢
  cases p with
  | value node =>
    obtain ⟨_, s₁, h₁, h₂⟩ := bind_ok h
    have value := asValue_takes (smaller _ node.size_plan) hs h₁
    exact value.followed h₂ (depth.trans value.depth.symm)
  | statement node =>
    obtain ⟨_, s₁, h₁, h₂⟩ := bind_ok h
    have statement := asStatement_takes (smaller _ node.size_standingPlan) hs h₁
    exact statement.followed h₂ (depth.trans statement.depth.symm)
  | literal r | bind r =>
    obtain ⟨id, s₁, h₁, h₂⟩ := bind_ok h
    have routine := routine_takes (smaller _ (size_workPlan r.body)) hs h₁
    exact routine.followed h₂ (depth.trans routine.depth.symm)
  | _ => exact .const h depth

/-- **Carrying out a plan takes the levels that its parts need.** -/
theorem perform_exact (parts : List Part) : Exact parts := by
  induction parts using Part.induction with
  | nil =>
    intro limit hand s r hs h
    simp only [perform_nil] at h ⊢
    exact .const h (by cases h; rfl)
  | cons p rest smaller ih =>
    intro limit hand s r hs h
    simp only [perform_cons] at h ⊢
    obtain ⟨hand₁, s₁, h₁, h₂⟩ := bind_ok h
    have hp := performPart_emitted (fun plan _ => perform_emitted limit plan) hs h₁
    exact (performPart_takes smaller hs h₁).bind
      (f := fun limit hand => perform limit hand rest) (ih hp.ready h₂)

end Generator

/-! ## Programs -/

namespace Program

open Generator in
theorem performer_takes {limit : Nat} {program : Program} {id : SectionId} {s : State}
    (h : program.performer limit {} = .ok (id, s)) :
    Takes program.need program.need (fun limit => program.performer limit) {} (id, s) := by
  obtain ⟨rfl, last, h₁, rfl⟩ := inSection_ok h
  obtain ⟨_, s₁, hbody, hend⟩ := bind_ok h₁
  have body := (bodyCode_takes (perform_exact _) State.ready_start hbody).followed
    (f := fun _ => emitEnd) hend (by cases hend; rfl)
  exact body.of_map (g := fun r => (_, { r.2 with sections := r.2.sections.leave.2 })) rfl rfl
    fun limit => inSection_eq _ _

/-- Carrying out the plan of a program that goes well under some limit goes well, with the same
result, under those that are at least what the program needs, and under no other. -/
theorem performed_eq_of_ok {limit : Nat} {program : Program} {s : State}
    (h : program.performed limit = .ok s) (limit' : Nat) :
    program.performed limit' =
      if program.need ≤ limit' then .ok s else .error (.nestingTooDeep limit') := by
  obtain ⟨id, hg⟩ := performer_of_performed h
  rcases (performer_takes hg).run limit' (Nat.zero_le _) with ⟨hr, hle⟩ | ⟨hr, hlt⟩
  · rw [if_pos (by simpa using hle)]
    exact congrArg (Except.map Prod.snd) hr
  · rw [if_neg (by simpa using hlt)]
    exact congrArg (Except.map Prod.snd) hr

/-- **The limit is exact.** A program that compiles under some limit compiles under those that are
at least what it needs, and under no other. -/
theorem need_exact {config : Config} {program : Program} {image : Image}
    (h : program.compile config = .ok image) (config' : Config) :
    (∃ image', program.compile config' = .ok image') ↔ program.need ≤ config'.maxDepth := by
  obtain ⟨s, hg, -, -⟩ := compile_ok h
  have hp := performed_of_generate hg
  have hp' := performed_eq_of_ok hp config'.maxDepth
  constructor
  · rintro ⟨image', h'⟩
    obtain ⟨s', hs', -⟩ := compile_ok h'
    by_contra hn
    rw [performed_of_generate hs', if_neg hn] at hp'
    cases hp'
  · intro hn
    rw [if_pos hn] at hp'
    exact ⟨image, (compile_congr (hp'.trans hp.symm)).trans h⟩

/-- A declared function in a block needs two levels there and one for its body, which does not count
from where the function stands. -/
theorem need_exact_hoisted :
    ∃ image, compile {} ⟨[.block [.function (some "f") [] [.ret none]]]⟩ = .ok image ∧
      (∃ image', compile ⟨3⟩ ⟨[.block [.function (some "f") [] [.ret none]]]⟩ = .ok image') ∧
      ¬ ∃ image', compile ⟨2⟩ ⟨[.block [.function (some "f") [] [.ret none]]]⟩ = .ok image' := by
  have h : compile {} ⟨[.block [.function (some "f") [] [.ret none]]]⟩ = .ok
      { sections := [[19, 0, 0, 0, 1, 0, 0, 0, 18, 0, 0, 0, 0, 0, 0, 0, 27, 0, 0, 0, 19, 0, 0, 0,
            1, 0, 0, 0, 27, 0, 0, 0, 0, 0, 0, 0, 1, 0, 0, 0],
          [21, 0, 0, 0, 0, 0, 0, 0, 0, 0, 0, 0, 1, 0, 0, 0, 0, 0, 0, 0, 1, 0, 0, 0]]
        strings := ["f"] } := by
    decide +kernel
  exact ⟨_, h, (need_exact h ⟨3⟩).mpr (by decide), mt (need_exact h ⟨2⟩).mp (by decide)⟩

end Program

end ScriptCompiler
