import ScriptCompiler.Proofs.Location

/-!
# The code of expressions

The code of an expression leaves the value of the expression on the stack. Most plans have no
labels, so that their parts are run one after the other; for these it is enough to follow the stack
from part to part, and the value on top of it at the end is the one that the evaluator gives.
Choices between values are followed branch by branch.

## Main definitions

* `wpAll`: the data before straight parts from which they lead to given data
* `ValueSim`: the code of an expression leaves its value

## Main results

* `Located.exists_reaches`: what straight parts lead to
* `valueSim_of_inside`: the code of an expression leaves its value, if the code of the expressions
  inside it does
-/

namespace ScriptCompiler

open Machine

variable {Store Value : Type}

/-! ## Straight parts -/

section Straight

variable (R : Runtime Store Value) (chain : List (List String))

/-- The data before a straight part from which it leads to data with a property. The next function
literal has section `next`, and the next declared function that is passed the first of `pending`. -/
def Part.wp (next : Nat) (pending : List Nat) (p : Part) (after : Data Store Value → Prop)
    (d : Data Store Value) : Prop :=
  match p with
  | line l => ∀ target, ∃ c d', l.command? target = some c ∧ c.act R d = some d' ∧ after d'
  | load name => after (d.result d.stack (R.load chain name))
  | store name =>
    ∃ value stack, d.stack = value :: stack ∧
      after (d.effect (value :: stack) (R.store chain name value))
  -- The code of a value may use the temporary register.
  | value node => ∀ temporary,
    after ⟨(R.value chain node next d.store).1 :: d.stack, temporary,
      (R.value chain node next d.store).2⟩
  | literal _ => after (d.result d.stack (R.close next))
  | pass => ∀ id others, pending = id :: others → after (d.result d.stack (R.close id))
  | _ => False

variable {R} in
/-- A line leads to what its command does. -/
theorem Part.wp_line {l : Line} {c : Command} {after : Data Store Value → Prop}
    {d d' : Data Store Value} (hc : ∀ target, l.command? target = some c)
    (ha : c.act R d = some d') (h : after d') (target : Label → Nat) :
    ∃ c d', l.command? target = some c ∧ c.act R d = some d' ∧ after d' :=
  ⟨c, d', hc target, ha, h⟩

/-- **The data before straight parts from which they lead to data with a property.** -/
def wpAll (next : Nat) (pending : List Nat) :
    List Part → (Data Store Value → Prop) → Data Store Value → Prop
  | [], after, d => after d
  | p :: rest, after, d =>
    p.wp R chain next pending
      (wpAll (next + sectionsOf p.routines) (pending.drop p.passes) rest after) d

end Straight

/-- **The code of an expression leaves its value** on the stack, wherever the code is. -/
def ValueSim (R : Runtime Store Value) (fetch : Nat → Option (Command × Nat))
    (target : Label → Nat) (node : Node) : Prop :=
  ∀ chain m offset last m' stack temporary store, m.own = [] → node.isExpression = true →
    Located fetch target chain m node.plan offset last m' →
    ∃ temporary', Reaches R fetch ⟨offset, stack, temporary, store⟩
      ⟨last, (R.value chain node m.sections store).1 :: stack, temporary',
        (R.value chain node m.sections store).2⟩

section Simulation

variable {R : Runtime Store Value} {fetch : Nat → Option (Command × Nat)} {target : Label → Nat}
  {chain : List (List String)} {m m' : Mark} {offset last : Nat}

/-- **What straight parts lead to**, the machine comes to. -/
theorem Located.exists_reaches {parts : List Part}
    (h : Located fetch target chain m parts offset last m')
    (hv : ∀ node, .value node ∈ parts → ValueSim R fetch target node)
    {after : Data Store Value → Prop} {d : Data Store Value}
    (hw : wpAll R chain m.sections m.pending parts after d) :
    ∃ d', Reaches R fetch ⟨offset, d⟩ ⟨last, d'⟩ ∧ after d' := by
  induction parts generalizing m offset d with
  | nil =>
    obtain ⟨rfl, -⟩ := h.nil
    exact ⟨d, .refl _, hw⟩
  | cons p rest ih =>
    have hv' : ∀ node, .value node ∈ rest → ValueSim R fetch target node :=
      fun node hn => hv node (.tail _ hn)
    cases p with
    | line l =>
      obtain ⟨hf, hr⟩ := h.line
      obtain ⟨c, d₁, hc, ha, hw⟩ := hw target
      obtain ⟨d', hd, hafter⟩ := ih hr hv' hw
      exact ⟨d', (Reaches.of_step (step_act (hf c hc) ha)).trans hd, hafter⟩
    | load name =>
      obtain ⟨c, next, hf, ha, hr⟩ := h.load
      obtain ⟨d', hd, hafter⟩ := ih hr hv' hw
      exact ⟨d', (Reaches.of_step (step_act hf (ha R d))).trans hd, hafter⟩
    | store name =>
      obtain ⟨c, next, hf, ha, hr⟩ := h.store
      obtain ⟨value, stack, hs, hw⟩ := hw
      obtain ⟨_, temporary, store⟩ := d
      obtain rfl : _ = value :: stack := hs
      obtain ⟨d', hd, hafter⟩ := ih hr hv' hw
      exact ⟨d', (Reaches.of_step (step_act hf (ha R value stack temporary store))).trans hd,
        hafter⟩
    | value node =>
      obtain ⟨he, between, m₁, labels, hi, hr⟩ := h.value
      obtain ⟨stack, temporary, store⟩ := d
      obtain ⟨temporary', hd₁⟩ :=
        hv node List.mem_cons_self chain _ _ _ _ stack temporary store rfl he hi
      obtain ⟨d', hd, hafter⟩ := ih hr hv' (hw temporary')
      exact ⟨d', hd₁.trans hd, hafter⟩
    | literal r =>
      obtain ⟨hf, labels, hr⟩ := h.literal
      obtain ⟨d', hd, hafter⟩ := ih hr hv' hw
      exact ⟨d', (Reaches.of_step (step_act hf rfl)).trans hd, hafter⟩
    | pass =>
      obtain ⟨id, others, hp, hf, hr⟩ := h.pass
      have hw := hw id others hp
      rw [hp] at hw
      obtain ⟨d', hd, hafter⟩ := ih hr hv' hw
      exact ⟨d', (Reaches.of_step (step_act hf rfl)).trans hd, hafter⟩
    | _ => cases hw

/-- The machine puts a value on the stack and goes on with what comes after it. -/
theorem Located.reaches_value {node : Node} {rest : List Part}
    (h : Located fetch target chain m (.value node :: rest) offset last m')
    (hv : ValueSim R fetch target node) (next : Nat) (hn : m.sections = next) :
    ∃ between labels,
      Located fetch target chain { m with labels := labels, sections := next + node.sections }
        rest between last m' ∧
      ∀ stack temporary store, ∃ temporary', Reaches R fetch ⟨offset, stack, temporary, store⟩
        ⟨between, (R.value chain node next store).1 :: stack, temporary',
          (R.value chain node next store).2⟩ := by
  obtain ⟨he, between, m₁, labels, hi, hr⟩ := h.value
  subst hn
  exact ⟨between, labels, hr, fun stack temporary store =>
    hv chain m.inner _ _ _ stack temporary store rfl he hi⟩

end Simulation

/-! ## Straight expressions -/

section Values

open ScriptCompiler.Part

variable (R : Runtime Store Value) (chain : List (List String)) (next : Nat) (pending : List Nat)

theorem Node.sections_index (object key : Node) :
    (Node.index object key).sections = object.sections + key.sections :=
  sectionsOf_append _ _

theorem BinaryOperator.command?_opcode (operator : BinaryOperator) (target : Label → Nat) :
    (Line.plain operator.opcode).command? target = some (.binary operator) := by
  cases operator <;> rfl

theorem UnaryOperator.command?_opcode (operator : UnaryOperator) (target : Label → Nat) :
    (Line.plain operator.opcode).command? target = some (.unary operator) := by
  cases operator <;> rfl

theorem UpdateOperator.command?_opcode (operator : UpdateOperator) (target : Label → Nat) :
    (Line.plain operator.opcode).command? target = some (.update operator) := by
  cases operator <;> rfl

theorem values_cons (node : Node) (rest : List Node) (store : Store) :
    R.values chain (node :: rest) next store =
      ((R.value chain node next store).1 ::
          (R.values chain rest (next + node.sections) (R.value chain node next store).2).1,
        (R.values chain rest (next + node.sections) (R.value chain node next store).2).2) :=
  rfl

/-- The values of expressions are put on the stack one after the other. -/
theorem wpAll_values {nodes : List Node} {more : List Part} {after : Data Store Value → Prop}
    {stack : List Value} {temporary : Option Value} {store : Store}
    (h : ∀ temporary', wpAll R chain (next + sectionsOf (nodes.flatMap Node.literals)) pending more
      after ⟨(R.values chain nodes next store).1.reverse ++ stack, temporary',
        (R.values chain nodes next store).2⟩) :
    wpAll R chain next pending (nodes.map .value ++ more) after ⟨stack, temporary, store⟩ := by
  induction nodes generalizing next stack temporary store with
  | nil => exact h temporary
  | cons node rest ih =>
    intro temporary₁
    refine ih _ fun temporary' => ?_
    have hs : sectionsOf ((node :: rest).flatMap Node.literals) =
        node.sections + sectionsOf (rest.flatMap Node.literals) := sectionsOf_append _ _
    have := h temporary'
    rw [hs, ← Nat.add_assoc, values_cons, List.reverse_cons, List.append_assoc] at this
    exact this

theorem wpAll_sequencePlan {nodes : List Node} {after : Data Store Value → Prop}
    {stack : List Value} {temporary : Option Value} {store : Store}
    (h : ∀ temporary', after ⟨(R.lastValue chain nodes next store).1 :: stack, temporary',
      (R.lastValue chain nodes next store).2⟩) :
    wpAll R chain next pending (Node.sequencePlan nodes) after ⟨stack, temporary, store⟩ := by
  fun_induction Node.sequencePlan nodes generalizing next temporary store with
  | case1 => exact wp_line (fun _ => rfl) rfl (h temporary)
  | case2 node => exact h
  | case3 node rest hne ih =>
    intro _
    refine wp_line (fun _ => rfl) rfl (ih _ fun temporary' => ?_)
    cases rest with
    | nil => exact absurd rfl hne
    | cons other rest => exact h temporary'

section Act

variable {values : List Value} {count : Nat} (hn : values.length = count) (stack : List Value)
  (temporary : Option Value) (store : Store)

include hn

theorem act_array : (Command.array count).act R ⟨values.reverse ++ stack, temporary, store⟩ =
    some ⟨(R.array values store).1 :: stack, temporary, (R.array values store).2⟩ := by
  have ht : (values.reverse ++ stack).take count = values.reverse := by simp [← hn]
  have hd : (values.reverse ++ stack).drop count = stack := by simp [← hn]
  simp only [Command.act, ht, hd]
  rw [if_pos (by simp [← hn])]
  simp [Data.result]

theorem act_call (callee : Value) :
    (Command.call count).act R ⟨values.reverse ++ callee :: stack, temporary, store⟩ =
      some ⟨(R.call callee values store).1 :: stack, temporary,
        (R.call callee values store).2⟩ := by
  have ht : (values.reverse ++ callee :: stack).take count = values.reverse := by simp [← hn]
  have hd : (values.reverse ++ callee :: stack).drop count = callee :: stack := by simp [← hn]
  simp only [Command.act, ht, hd]
  simp [Data.result]

theorem act_methodCall (object key : Value) :
    (Command.methodCall count).act R ⟨values.reverse ++ key :: object :: stack, temporary, store⟩ =
      some ⟨(R.methodCall object key values store).1 :: stack, temporary,
        (R.methodCall object key values store).2⟩ := by
  have ht : (values.reverse ++ key :: object :: stack).take count = values.reverse := by
    simp [← hn]
  have hd : (values.reverse ++ key :: object :: stack).drop count = key :: object :: stack := by
    simp [← hn]
  simp only [Command.act, ht, hd]
  simp [Data.result]

end Act

theorem length_values (nodes : List Node) (store : Store) :
    (R.values chain nodes next store).1.length = nodes.length := by
  induction nodes generalizing next store with
  | nil => rfl
  | cons node rest ih => rw [values_cons, List.length_cons, ih, List.length_cons]

/-- **The plan of an expression without choices** leads to its value on the stack. -/
theorem Node.wpAll_plan {node : Node} (h : node.isExpression = true)
    (hl : ∀ operator left right, node ≠ .logical operator left right)
    (hc : ∀ test consequent alternate, node ≠ .conditional test consequent alternate)
    (hf : ∀ error, .fail error ∉ node.plan) (stack : List Value) (temporary : Option Value)
    (store : Store) :
    wpAll R chain next pending node.plan
      (fun d => ∃ temporary', d = ⟨(R.value chain node next store).1 :: stack, temporary',
        (R.value chain node next store).2⟩) ⟨stack, temporary, store⟩ := by
  cases node with
  | declaration | ret | ifElse | forLoop | whileLoop | breakLoop | continueLoop | block
  | unsupported => cases h
  | logical operator left right => exact absurd rfl (hl operator left right)
  | conditional test consequent alternate => exact absurd rfl (hc test consequent alternate)
  | function name params body => exact ⟨temporary, rfl⟩
  | ident name => exact ⟨temporary, rfl⟩
  | number | string | null | undefined => exact wp_line (fun _ => rfl) rfl ⟨temporary, rfl⟩
  | boolean value => cases value <;> exact wp_line (fun _ => rfl) rfl ⟨temporary, rfl⟩
  | member object property => exact fun _ => wp_line (fun _ => rfl) rfl ⟨_, rfl⟩
  | index object key => exact fun _ _ => wp_line (fun _ => rfl) rfl ⟨_, rfl⟩
  | binary operator left right => exact fun _ _ => wp_line operator.command?_opcode rfl ⟨_, rfl⟩
  | unary operator argument => exact fun _ => wp_line operator.command?_opcode rfl ⟨_, rfl⟩
  | sequence expressions => exact wpAll_sequencePlan R chain next pending fun _ => ⟨_, rfl⟩
  | array elements =>
    refine wpAll_values R chain next pending fun temporary' => ?_
    exact wp_line (fun _ => rfl) (act_array R (length_values ..) ..) ⟨temporary', rfl⟩
  | call callee arguments =>
    obtain ⟨object, property, rfl⟩ | ⟨object, key, rfl⟩ | ⟨hp, hm⟩ := callee.callee_cases
    · intro _
      refine wp_line (fun _ => rfl) rfl (wpAll_values R chain _ _ fun temporary' => ?_)
      exact wp_line (fun _ => rfl) (act_methodCall R (length_values ..) ..) ⟨temporary', rfl⟩
    · intro _ _
      refine wpAll_values R chain _ _ fun temporary' => ?_
      exact wp_line (fun _ => rfl) (act_methodCall R (length_values ..) ..) ⟨temporary', rfl⟩
    · have hv : R.value chain (.call callee arguments) next store = R.call
          (R.value chain callee next store).1
          (R.values chain arguments (next + callee.sections) (R.value chain callee next store).2).1
          (R.values chain arguments (next + callee.sections)
            (R.value chain callee next store).2).2 := by
        cases callee <;> first | rfl | cases hm
      rw [plan, hp, hm, hv]
      intro _
      refine wpAll_values R chain _ _ fun temporary' => ?_
      exact wp_line (fun _ => rfl) (act_call R (length_values ..) ..) ⟨temporary', rfl⟩
  | assign target value =>
    obtain ⟨name, rfl⟩ | ⟨object, property, rfl⟩ | ⟨object, key, rfl⟩ | hp := target.target_cases
    · exact fun temporary' => ⟨_, _, rfl, temporary', rfl⟩
    · exact fun _ temporary' => wp_line (fun _ => rfl) rfl ⟨temporary', rfl⟩
    · rw [Runtime.value, sections_index, ← Nat.add_assoc]
      exact fun _ _ temporary' => wp_line (fun _ => rfl) rfl ⟨temporary', rfl⟩
    · rw [plan, hp] at hf
      exact absurd List.mem_cons_self (hf _)
  | compound operator target value =>
    obtain ⟨name, rfl⟩ | ⟨object, property, rfl⟩ | ⟨object, key, rfl⟩ | hp := target.target_cases
    · intro temporary'
      exact wp_line operator.command?_opcode rfl ⟨_, _, rfl, temporary', rfl⟩
    · intro _
      refine wp_line (fun _ => rfl) rfl (wp_line (fun _ => rfl) rfl fun temporary' => ?_)
      exact wp_line operator.command?_opcode rfl (wp_line (fun _ => rfl) rfl ⟨temporary', rfl⟩)
    · rw [Runtime.value, sections_index, ← Nat.add_assoc]
      intro _ _
      refine wp_line (fun _ => rfl) rfl (wp_line (fun _ => rfl) rfl fun temporary' => ?_)
      exact wp_line operator.command?_opcode rfl (wp_line (fun _ => rfl) rfl ⟨temporary', rfl⟩)
    · rw [plan, hp] at hf
      exact absurd List.mem_cons_self (hf _)
  | update operator before target =>
    obtain ⟨name, rfl⟩ | ⟨object, property, rfl⟩ | ⟨object, key, rfl⟩ | hp := target.target_cases
    · cases before with
      | true => exact wp_line operator.command?_opcode rfl ⟨_, _, rfl, temporary, rfl⟩
      | false =>
        refine wp_line (fun _ => rfl) rfl (wp_line operator.command?_opcode rfl ⟨_, _, rfl, ?_⟩)
        exact wp_line (fun _ => rfl) rfl ⟨temporary, rfl⟩
    · intro temporary'
      cases before with
      | true =>
        refine wp_line (fun _ => rfl) rfl (wp_line (fun _ => rfl) rfl ?_)
        exact wp_line operator.command?_opcode rfl (wp_line (fun _ => rfl) rfl ⟨temporary', rfl⟩)
      | false =>
        refine wp_line (fun _ => rfl) rfl (wp_line (fun _ => rfl) rfl ?_)
        refine wp_line (fun _ => rfl) rfl (wp_line operator.command?_opcode rfl ?_)
        refine wp_line (fun _ => rfl) rfl (wp_line (fun _ => rfl) rfl ?_)
        exact wp_line (fun _ => rfl) rfl ⟨_, rfl⟩
    · intro _ temporary'
      cases before with
      | true =>
        refine wp_line (fun _ => rfl) rfl (wp_line (fun _ => rfl) rfl ?_)
        exact wp_line operator.command?_opcode rfl (wp_line (fun _ => rfl) rfl ⟨temporary', rfl⟩)
      | false =>
        refine wp_line (fun _ => rfl) rfl (wp_line (fun _ => rfl) rfl ?_)
        refine wp_line (fun _ => rfl) rfl (wp_line operator.command?_opcode rfl ?_)
        refine wp_line (fun _ => rfl) rfl (wp_line (fun _ => rfl) rfl ?_)
        exact wp_line (fun _ => rfl) rfl ⟨_, rfl⟩
    · rw [plan, hp] at hf
      exact absurd List.mem_cons_self (hf _)

end Values

/-! ## Choices -/

section Choices

variable {R : Runtime Store Value} {fetch : Nat → Option (Command × Nat)} {target : Label → Nat}

theorem value_and (chain : List (List String)) (left right : Node) (next : Nat) (store : Store) :
    R.value chain (.logical .and left right) next store =
      if R.truthy (R.value chain left next store).1 then
        R.value chain right (next + left.sections) (R.value chain left next store).2
      else R.value chain left next store :=
  (apply_ite (fun action : StateM Store Value => action (R.value chain left next store).2) ..)

theorem value_or (chain : List (List String)) (left right : Node) (next : Nat) (store : Store) :
    R.value chain (.logical .or left right) next store =
      if R.truthy (R.value chain left next store).1 then R.value chain left next store
      else R.value chain right (next + left.sections) (R.value chain left next store).2 :=
  (apply_ite (fun action : StateM Store Value => action (R.value chain left next store).2) ..)

theorem value_conditional (chain : List (List String)) (test consequent alternate : Node)
    (next : Nat) (store : Store) :
    R.value chain (.conditional test consequent alternate) next store =
      if R.truthy (R.value chain test next store).1 then
        R.value chain consequent (next + test.sections) (R.value chain test next store).2
      else
        R.value chain alternate (next + test.sections + consequent.sections)
          (R.value chain test next store).2 :=
  (apply_ite (fun action : StateM Store Value => action (R.value chain test next store).2) ..)

/-- The second operand of a logical operator is evaluated only if the first does not decide. -/
theorem valueSim_logical {operator : LogicalOperator} {left right : Node}
    (hleft : ValueSim R fetch target left) (hright : ValueSim R fetch target right) :
    ValueSim R fetch target (.logical operator left right) := by
  intro chain m offset last m' stack temporary store hown _ h
  obtain ⟨o₁, _, h, hd₁⟩ := h.fresh.reaches_value hleft m.sections rfl
  obtain ⟨hdup, h⟩ := h.line
  obtain ⟨label, hlabel, hjump, h⟩ := h.jump
  obtain ⟨hpop, h⟩ := h.line
  obtain ⟨o₂, _, h, hd₂⟩ := h.reaches_value hright _ rfl
  obtain ⟨hdefine, h⟩ := h.define
  obtain ⟨rfl, -⟩ := h.nil
  have hlast := hdefine label hlabel
  obtain ⟨t₁, hd₁⟩ := hd₁ stack temporary store
  generalize hv : R.value chain left m.sections store = first at hd₁
  have hd₁ := hd₁.trans (.of_step (step_act (hdup _ rfl) rfl))
  obtain ⟨t₂, hd₂⟩ := hd₂ stack t₁ first.2
  have hd₂ : Reaches R fetch ⟨_, first.1 :: stack, t₁, first.2⟩ _ :=
    .trans (.of_step (step_act (hpop _ rfl) rfl)) hd₂
  cases operator with
  | and =>
    have hd₁ := hd₁.trans (.of_step (step_branch (hjump _ rfl)))
    rw [value_and, hv]
    cases ht : R.truthy first.1 with
    | true =>
      rw [ht, if_neg (by decide)] at hd₁
      exact ⟨t₂, hd₁.trans hd₂⟩
    | false =>
      rw [ht, if_pos rfl, hlast] at hd₁
      exact ⟨t₁, hd₁⟩
  | or =>
    have hd₁ := hd₁.trans (.of_step (step_branch (hjump _ rfl)))
    rw [value_or, hv]
    cases ht : R.truthy first.1 with
    | true =>
      rw [ht, if_pos rfl, hlast] at hd₁
      exact ⟨t₁, hd₁⟩
    | false =>
      rw [ht, if_neg (by decide)] at hd₁
      exact ⟨t₂, hd₁.trans hd₂⟩

/-- One of two values is evaluated, as a test decides. -/
theorem valueSim_conditional {test consequent alternate : Node}
    (htest : ValueSim R fetch target test) (hconsequent : ValueSim R fetch target consequent)
    (halternate : ValueSim R fetch target alternate) :
    ValueSim R fetch target (.conditional test consequent alternate) := by
  intro chain m offset last m' stack temporary store hown _ h
  obtain ⟨o₁, _, h, hd₁⟩ := h.fresh.fresh.reaches_value htest m.sections rfl
  obtain ⟨otherwise, hotherwise, hjump, h⟩ := h.jump
  obtain ⟨o₂, _, h, hd₂⟩ := h.reaches_value hconsequent _ rfl
  obtain ⟨done, hdone, hskip, h⟩ := h.jump
  obtain ⟨hdefine₀, h⟩ := h.define
  obtain ⟨o₃, _, h, hd₃⟩ := h.reaches_value halternate _ rfl
  obtain ⟨hdefine₁, h⟩ := h.define
  obtain ⟨rfl, -⟩ := h.nil
  obtain ⟨t₁, hd₁⟩ := hd₁ stack temporary store
  rw [value_conditional]
  generalize R.value chain test m.sections store = choice at hd₁
  have hd₁ := hd₁.trans (.of_step (step_branch (hjump _ rfl)))
  cases htruth : R.truthy choice.1 with
  | true =>
    rw [htruth, if_neg (by decide)] at hd₁
    obtain ⟨t₂, hd₂⟩ := hd₂ stack t₁ choice.2
    have hd₂ := hd₂.trans (.of_step (step_jump (hskip _ rfl)))
    rw [hdefine₁ done hdone] at hd₂
    exact ⟨t₂, hd₁.trans hd₂⟩
  | false =>
    rw [htruth, if_pos rfl, hdefine₀ otherwise hotherwise] at hd₁
    obtain ⟨t₂, hd₃⟩ := hd₃ stack t₁ choice.2
    exact ⟨t₂, hd₁.trans hd₃⟩

/-- **The code of an expression leaves its value**, if the code of the expressions inside it
does. -/
theorem valueSim_of_inside {node : Node}
    (h : ∀ inside, .value inside ∈ node.plan → ValueSim R fetch target inside) :
    ValueSim R fetch target node := by
  by_cases hl : ∃ operator left right, node = .logical operator left right
  · obtain ⟨operator, left, right, rfl⟩ := hl
    exact valueSim_logical (h left (by simp [Node.plan])) (h right (by simp [Node.plan]))
  by_cases hc : ∃ test consequent alternate, node = .conditional test consequent alternate
  · obtain ⟨test, consequent, alternate, rfl⟩ := hc
    exact valueSim_conditional (h test (by simp [Node.plan])) (h consequent (by simp [Node.plan]))
      (h alternate (by simp [Node.plan]))
  intro chain m offset last m' stack temporary store _ he hn
  have hw := Node.wpAll_plan R chain m.sections m.pending he
    (fun _ _ _ h => hl ⟨_, _, _, h⟩) (fun _ _ _ h => hc ⟨_, _, _, h⟩) hn.fail_notMem stack temporary
    store
  obtain ⟨_, hd, temporary', rfl⟩ := hn.exists_reaches h hw
  exact ⟨temporary', hd⟩

end Choices

end ScriptCompiler
