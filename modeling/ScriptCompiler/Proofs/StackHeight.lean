import ScriptCompiler.Proofs.Bounds
import ScriptCompiler.Proofs.ClosedCode

/-!
# Stack heights

Compiled code never takes a value from an empty stack, and however control reaches an instruction,
the stack is equally high there. Every construct has a fixed effect on the height: a value adds one,
a statement starts and ends on an empty stack. So the places of labels can be given heights in
advance, and the plan of a construct is checked against those of its own labels alone.

## Main definitions

* `Opcode.pops`, `Opcode.pushes`: the values that an instruction takes and leaves
* `Balanced`: a plan keeps to heights given for its labels
* `Flow`: lines keep to heights given for their labels

## Main results

* `balanced_of_inner`, `Segment.balanced_plan`: plans are balanced
* `Emits.flow`: the lines of a balanced plan keep to heights for all their labels
* `Program.stack_heights`: every instruction of an image has one stack height, which is enough
-/

namespace ScriptCompiler

namespace Opcode

/-- How many values an instruction takes, where `count` is its first operand. -/
def pops (op : Opcode) (count : Nat) : Nat :=
  match op with
  | pushUndefined | pushNumber | pushGlobal | pushString | pushVariable | pushTrue | pushFalse
  | pushNull | jump | close | setCallee | setArgument | loadTemporary => 0
  | ret | setVariable | setGlobal | jumpIfTrue | jumpIfFalse | pop | dup | member | logicalNot
  | negate | typeOf | increment | decrement | saveTemporary => 1
  | add | subtract | multiply | divide | lessThan | lessThanEqual | greaterThan | greaterThanEqual
  | modulo | equal | notEqual | strictEqual | strictNotEqual | bitwiseAnd | bitwiseOr | bitwiseXor
  | leftShift | rightShift | unsignedRightShift | hasKey | instanceOf | dup2 | setMember
  | index => 2
  | setIndex => 3
  | array => count
  | call => count + 1
  | methodCall => count + 2

/-- How many values an instruction leaves. -/
def pushes : Opcode → Nat
  | ret | jump | jumpIfTrue | jumpIfFalse | setCallee | setArgument | pop => 0
  | dup => 2
  | dup2 => 4
  | _ => 1

/-- An instruction finds enough values, and leaves the stack at the second height if it was at the
first. -/
def Moves (op : Opcode) (count before after : Nat) : Prop :=
  op.pops count ≤ before ∧ after = before - op.pops count + op.pushes

end Opcode

namespace Instruction

/-- How many values an instruction takes from the stack. -/
def pops (i : Instruction) : Nat := i.opcode.pops ((i.operands.map UInt32.toNat).headD 0)

/-- How many values an instruction leaves on the stack. -/
def pushes (i : Instruction) : Nat := i.opcode.pushes

end Instruction

/-! ## Heights in plans -/

section Heights

/-- The heights before and after a line, given those at the places of labels. After a return or a
jump without a condition any height will do. -/
def Line.Moves (heights : Label → Nat) : Line → Nat → Nat → Prop
  | plain .ret, before, _ => before = 1
  | plain op, before, after => op.Moves 0 before after
  | unary op count, before, after => op.Moves count before after
  | binary op _ _, before, after | text op _, before, after => ∀ count, op.Moves count before after
  | number _, before, after => after = before + 1
  | jump op label, before, after =>
    before = heights label + op.pops 0 ∧ (op ≠ .jump → after = heights label)
  | define label, before, after => before = heights label ∧ after = before

/-- The heights before and after a part, given those at the places of the labels of its
construct. -/
def Part.Moves (own : Nat → Nat) : Part → Nat → Nat → Prop
  | line l, before, after => ∀ heights, l.Moves heights before after
  | load _, before, after | value _, before, after | literal _, before, after
  | pass, before, after => after = before + 1
  | store _, before, after => 0 < before ∧ after = before
  | fresh, before, after | exit, before, after | note, before, after | bind _, before, after =>
    after = before
  | define index, before, after => before = own index ∧ after = before
  | jump op index, before, after =>
    before = own index + op.pops 0 ∧ (op ≠ .jump → after = own index)
  | enter next done, before, after => own next = 0 ∧ own done = 0 ∧ after = before
  | leave, before, _ | again, before, _ => before = 0
  | statement _, before, after => before = 0 ∧ after = 0
  | fail _, _, _ => True

/-- **A plan keeps to heights** given for the labels of its construct. -/
def Balanced (own : Nat → Nat) (before : Nat) : List Part → Nat → Prop
  | [], after => after = before
  | p :: rest, after => ∃ between, p.Moves own before between ∧ Balanced own between rest after

/-- **Lines keep to heights** given for their labels. -/
def Flow (heights : Label → Nat) (before : Nat) : List Line → Nat → Prop
  | [], after => after = before
  | l :: lines, after =>
    ∃ between, l.Moves heights before between ∧ Flow heights between lines after

variable {own : Nat → Nat} {heights : Label → Nat} {before between after : Nat}

theorem Balanced.append {parts more : List Part} (h : Balanced own before parts between)
    (hm : Balanced own between more after) : Balanced own before (parts ++ more) after := by
  induction parts generalizing before with
  | nil =>
    obtain rfl : between = before := h
    exact hm
  | cons p rest ih =>
    obtain ⟨next, hp, hr⟩ := h
    exact ⟨next, hp, ih hr⟩

theorem Flow.append {lines more : List Line} (h : Flow heights before lines between)
    (hm : Flow heights between more after) : Flow heights before (lines ++ more) after := by
  induction lines generalizing before with
  | nil =>
    obtain rfl : between = before := h
    exact hm
  | cons l rest ih =>
    obtain ⟨next, hl, hr⟩ := h
    exact ⟨next, hl, ih hr⟩

end Heights

/-! ## Plans are balanced -/

section Plans

open ScriptCompiler.Part

theorem BinaryOperator.moves_opcode (operator : BinaryOperator) (heights : Label → Nat)
    (before after : Nat) :
    (Line.plain operator.opcode).Moves heights before after ↔
      2 ≤ before ∧ after = before - 2 + 1 := by
  cases operator <;> rfl

theorem UnaryOperator.moves_opcode (operator : UnaryOperator) (heights : Label → Nat)
    (before after : Nat) :
    (Line.plain operator.opcode).Moves heights before after ↔
      1 ≤ before ∧ after = before - 1 + 1 := by
  cases operator <;> rfl

theorem UpdateOperator.moves_opcode (operator : UpdateOperator) (heights : Label → Nat)
    (before after : Nat) :
    (Line.plain operator.opcode).Moves heights before after ↔
      1 ≤ before ∧ after = before - 1 + 1 := by
  cases operator <;> rfl

/-! Along the parts of a plan that is written out, heights are computed. -/

attribute [local simp] Balanced Part.Moves Line.Moves Opcode.Moves Opcode.pops Opcode.pushes

theorem balanced_values (own : Nat → Nat) (before : Nat) (nodes : List Node) :
    Balanced own before (nodes.map .value) (before + nodes.length) := by
  induction nodes generalizing before with
  | nil => rfl
  | cons node rest ih =>
    refine ⟨before + 1, rfl, ?_⟩
    have := ih (before + 1)
    rwa [Nat.add_assoc, Nat.add_comm 1] at this

theorem balanced_statements (own : Nat → Nat) (nodes : List Node) :
    Balanced own 0 (nodes.map .statement) 0 := by
  induction nodes with
  | nil => rfl
  | cons node rest ih => exact ⟨0, ⟨rfl, rfl⟩, ih⟩

theorem balanced_sequencePlan (own : Nat → Nat) (before : Nat) (nodes : List Node) :
    Balanced own before (Node.sequencePlan nodes) (before + 1) := by
  fun_induction Node.sequencePlan nodes with
  | case1 => simp
  | case2 => simp
  | case3 node rest _ ih =>
    refine ⟨before + 1, rfl, before, fun _ => ⟨Nat.le_add_left _ _, rfl⟩, ih⟩

theorem balanced_calleePlan (own : Nat → Nat) (before : Nat) (callee : Node) :
    Balanced own before callee.calleePlan (before + if callee.isMethod then 2 else 1) := by
  obtain ⟨object, property, rfl⟩ | ⟨object, key, rfl⟩ | ⟨hp, hm⟩ := callee.callee_cases
  · simp [Node.calleePlan, Node.isMethod]
  · simp [Node.calleePlan, Node.isMethod]
  · rw [hp, hm]
    simp

/-- The plan of a value adds one to the height. -/
theorem Node.balanced_plan_of_isExpression {node : Node} (h : node.isExpression = true)
    (before : Nat) : ∃ own, Balanced own before node.plan (before + 1) := by
  cases node with
  | declaration | ret | ifElse | forLoop | whileLoop | breakLoop | continueLoop | block
  | unsupported => cases h
  | sequence expressions => exact ⟨fun _ => 0, balanced_sequencePlan _ before expressions⟩
  | array elements =>
    refine ⟨fun _ => 0, (balanced_values _ before elements).append ?_⟩
    simp
  | logical operator left right =>
    refine ⟨fun _ => before + 1, ?_⟩
    cases operator <;> simp [plan, LogicalOperator.opcode]
  | conditional test consequent alternate =>
    exact ⟨fun index => before + index, by simp [plan]⟩
  | call callee arguments =>
    refine ⟨fun _ => 0, ?_⟩
    refine ((balanced_calleePlan _ before callee).append (balanced_values ..)).append ?_
    cases callee.isMethod <;> simp <;> omega
  | assign target value | compound operator target value =>
    refine ⟨fun _ => 0, ?_⟩
    obtain ⟨name, rfl⟩ | ⟨object, property, rfl⟩ | ⟨object, key, rfl⟩ | hf := target.target_cases
    iterate 3
      simp [plan, placePlan, ↓BinaryOperator.moves_opcode]
    rw [plan, hf]
    simp
  | update operator new target =>
    refine ⟨fun _ => 0, ?_⟩
    obtain ⟨name, rfl⟩ | ⟨object, property, rfl⟩ | ⟨object, key, rfl⟩ | hf := target.target_cases
    iterate 3
      cases new <;> simp [plan, placePlan, ↓UpdateOperator.moves_opcode]
    rw [plan, hf]
    simp
  | binary operator left right =>
    refine ⟨fun _ => 0, ?_⟩
    simp [plan, ↓BinaryOperator.moves_opcode]
  | unary operator argument =>
    refine ⟨fun _ => 0, ?_⟩
    simp [plan, ↓UnaryOperator.moves_opcode]
  | boolean value =>
    refine ⟨fun _ => 0, ?_⟩
    cases value <;> simp [plan]
  | _ =>
    refine ⟨fun _ => 0, ?_⟩
    simp [plan]

/-- The plan of a statement starts and ends on an empty stack. -/
theorem Node.balanced_plan {node : Node} (h : node.isExpression = false) :
    ∃ own, Balanced own 0 node.plan 0 := by
  cases node with
  | declaration name init =>
    refine ⟨fun _ => 0, ?_⟩
    cases init <;> simp [plan]
  | ret argument =>
    refine ⟨fun _ => 0, ?_⟩
    cases argument <;> simp [plan]
  | ifElse test consequent alternate =>
    refine ⟨fun _ => 0, ?_⟩
    cases alternate <;> simp [plan]
  | forLoop init test step body =>
    refine ⟨fun _ => 0, ?_⟩
    cases init <;> cases test <;> cases step <;> simp [plan]
  | block statements => exact ⟨fun _ => 0, balanced_statements _ statements⟩
  | whileLoop | breakLoop | continueLoop | unsupported =>
    refine ⟨fun _ => 0, ?_⟩
    simp [plan]
  | _ => cases h

theorem balanced_pop (own : Nat → Nat) (before : Nat) :
    Balanced own (before + 1) [.plain .pop] before := by
  simp

theorem Node.balanced_statementPlan (node : Node) : ∃ own, Balanced own 0 node.statementPlan 0 := by
  rw [statementPlan]
  cases h : node.isExpression with
  | false => exact node.balanced_plan h
  | true =>
    rw [if_pos rfl]
    split
    · exact ⟨fun _ => 0, 1, rfl, balanced_pop _ 0⟩
    · obtain ⟨own, hb⟩ := node.balanced_plan_of_isExpression h 0
      exact ⟨own, hb.append (balanced_pop own 0)⟩

theorem balanced_stores (own : Nat → Nat) (before : Nat) (names : List String) :
    Balanced own (before + 1) (names.map .store) (before + 1) := by
  induction names with
  | nil => rfl
  | cons name rest ih => exact ⟨before + 1, ⟨Nat.succ_pos _, rfl⟩, ih⟩

/-- **The plans of constructs are balanced.** -/
theorem balanced_of_inner {p : Part} {plan : List Part} (h : p.Inner plan) {own : Nat → Nat}
    {before after : Nat} (hm : p.Moves own before after) :
    ∃ own, Balanced own before plan after := by
  cases h with
  | value he =>
    obtain rfl : after = before + 1 := hm
    exact Node.balanced_plan_of_isExpression he before
  | @statement node =>
    obtain ⟨rfl, rfl⟩ : before = 0 ∧ after = 0 := hm
    exact node.balanced_statementPlan
  | bind =>
    obtain rfl : after = before := hm
    exact ⟨own, after, rfl, after + 1, rfl,
      (balanced_stores own after _).append (balanced_pop own after)⟩

theorem balanced_bodyPlan (own : Nat → Nat) (body : List Node) :
    Balanced own 0 (bodyPlan body) 0 := by
  have hb : Balanced own 0 ((declaredIn body).map .bind) 0 := by
    induction declaredIn body with
    | nil => rfl
    | cons r rest ih => exact ⟨0, rfl, ih⟩
  refine (hb.append (balanced_statements own body)).append ?_
  simp [endPlan]

theorem balanced_lines {own : Nat → Nat} {lines : List Line}
    (h : ∀ l ∈ lines, Part.Moves own (.line l) 0 0) : Balanced own 0 (lines.map .line) 0 := by
  induction lines with
  | nil => rfl
  | cons l rest ih =>
    rw [List.forall_mem_cons] at h
    exact ⟨0, h.1, ih h.2⟩

/-- **The plans of segments are balanced.** -/
theorem Segment.balanced_plan (own : Nat → Nat) (segment : Segment) :
    Balanced own 0 segment.plan 0 := by
  cases segment with
  | top body => exact balanced_bodyPlan own body
  | function outer r =>
    have hp : ∀ l ∈ r.prologue, Part.Moves own (.line l) 0 0 := by
      intro l hl heights
      rcases List.mem_append.mp hl with hl | hl
      · obtain ⟨name, -, rfl⟩ := List.mem_map.mp hl
        exact ⟨Nat.zero_le _, rfl⟩
      · obtain ⟨⟨param, position⟩, -, rfl⟩ := List.mem_map.mp hl
        exact fun _ => ⟨Nat.zero_le _, rfl⟩
    exact (balanced_lines hp).append (balanced_bodyPlan own r.body)

end Plans

/-! ## Heights of labels -/

/-- Heights agree on the labels below a bound. -/
def AgreeBelow (bound : Nat) (heights heights' : Label → Nat) : Prop :=
  ∀ label, label.id < bound → heights' label = heights label

/-- Heights of labels are those that a construct gives to its own, and the loops around it end on an
empty stack. -/
structure Mark.Level (m : Mark) (own : Nat → Nat) (heights : Label → Nat) : Prop where
  own : ∀ (index : Nat) label, m.own[index]? = some label →
    heights label = own index ∧ label.id < m.labels
  loops : ∀ loop ∈ m.loops, (heights loop.next = 0 ∧ loop.next.id < m.labels) ∧
    heights loop.done = 0 ∧ loop.done.id < m.labels

namespace AgreeBelow

variable {bound bound' : Nat} {first second third : Label → Nat}

theorem refl (bound : Nat) (heights : Label → Nat) : AgreeBelow bound heights heights :=
  fun _ _ => rfl

theorem trans (h : AgreeBelow bound first second) (hb : bound ≤ bound')
    (h' : AgreeBelow bound' second third) : AgreeBelow bound first third := by
  intro label hl
  rw [h' label (Nat.lt_of_lt_of_le hl hb), h label hl]

end AgreeBelow

section Emission

open ScriptCompiler.Part

variable {chain : List (List String)} {m m' m₁ : Mark} {parts : List Part} {lines : List Line}
  {pieces : List Piece} {own : Nat → Nat} {heights heights' : Label → Nat}

theorem Mark.Level.mono (h : m.Level own heights) (hl : m.labels ≤ m₁.labels)
    (ho : m₁.own = m.own) (hs : ∀ loop ∈ m₁.loops, loop ∈ m.loops)
    (ha : AgreeBelow m.labels heights heights') : m₁.Level own heights' := by
  constructor
  · intro index label hx
    obtain ⟨he, hlt⟩ := h.own index label (ho ▸ hx)
    exact ⟨(ha label hlt).trans he, Nat.lt_of_lt_of_le hlt hl⟩
  · intro loop hm
    obtain ⟨⟨hn, hnl⟩, hd, hdl⟩ := h.loops loop (hs loop hm)
    exact ⟨⟨(ha _ hnl).trans hn, Nat.lt_of_lt_of_le hnl hl⟩, (ha _ hdl).trans hd,
      Nat.lt_of_lt_of_le hdl hl⟩

/-- A label that is handed out can be given the height that its construct has for it. -/
theorem Mark.Level.fresh (h : m.Level own heights) :
    ∃ heights₁, AgreeBelow m.labels heights heights₁ ∧
      Mark.Level { m with labels := m.labels + 1, own := m.own ++ [⟨m.labels⟩] } own heights₁ := by
  have ha : AgreeBelow m.labels heights
      (fun label => if label.id = m.labels then own m.own.length else heights label) :=
    fun label hl => if_neg (Nat.ne_of_lt hl)
  refine ⟨_, ha, fun index label hx => ?_, fun loop hm => ?_⟩
  · rw [List.getElem?_append] at hx
    split at hx
    · obtain ⟨he, hlt⟩ := h.own index label hx
      exact ⟨(ha label hlt).trans he, Nat.lt_succ_of_lt hlt⟩
    · rw [List.getElem?_singleton] at hx
      split at hx
      case isTrue hge hz =>
        cases hx
        obtain rfl : index = m.own.length := by omega
        exact ⟨if_pos rfl, Nat.lt_succ_self _⟩
      case isFalse => cases hx
  · obtain ⟨⟨hn, hnl⟩, hd, hdl⟩ := h.loops loop hm
    exact ⟨⟨(ha _ hnl).trans hn, Nat.lt_succ_of_lt hnl⟩, (ha _ hdl).trans hd,
      Nat.lt_succ_of_lt hdl⟩

theorem Flow.singleton {l : Line} {before after : Nat} (h : l.Moves heights before after) :
    Flow heights before [l] after :=
  ⟨after, h, rfl⟩

/-- The line of an access to a name takes and leaves the same values wherever the name lives. -/
theorem Flow.accessLine {slotted global : Opcode} {before after : Nat}
    (hs : ∀ count, slotted.Moves count before after) (hg : ∀ count, global.Moves count before after)
    (chain : List (List String)) (name : String) :
    Flow heights before [accessLine slotted global chain name] after := by
  apply singleton
  rw [ScriptCompiler.accessLine]
  split
  · exact hs
  · exact hg

/-- The lines of an elementary part keep to the heights of its labels, and to all that agree with
these. -/
theorem Flow.of_step {p : Part} {here : List Line} {before after : Nat}
    (h : Step chain m p here m₁) (hl : m.Level own heights) (hp : p.Moves own before after) :
    ∃ heights₁, AgreeBelow m.labels heights heights₁ ∧ m₁.Level own heights₁ ∧
      ∀ heights', AgreeBelow m₁.labels heights₁ heights' → Flow heights' before here after := by
  cases h with
  | fresh =>
    obtain ⟨heights₁, ha, hl⟩ := hl.fresh
    exact ⟨heights₁, ha, hl, fun _ _ => hp⟩
  | enter hn hd =>
    obtain ⟨hn0, hd0, hp⟩ := hp
    refine ⟨heights, .refl _ _, ⟨hl.own, ?_⟩, fun _ _ => hp⟩
    obtain ⟨hne, hnl⟩ := hl.own _ _ hn
    obtain ⟨hde, hdl⟩ := hl.own _ _ hd
    exact List.forall_mem_cons.mpr ⟨⟨⟨hne.trans hn0, hnl⟩, hde.trans hd0, hdl⟩, hl.loops⟩
  | exit =>
    exact ⟨heights, .refl _ _, hl.mono (Nat.le_refl _) rfl (fun _ => List.mem_of_mem_tail)
      (.refl _ _), fun _ _ => hp⟩
  | pass =>
    refine ⟨heights, .refl _ _, hl.mono (Nat.le_refl _) rfl (fun _ => id) (.refl _ _),
      fun _ _ => .singleton ?_⟩
    exact ⟨Nat.zero_le _, hp⟩
  | note =>
    exact ⟨heights, .refl _ _, hl.mono (Nat.le_refl _) rfl (fun _ => id) (.refl _ _),
      fun _ _ => hp⟩
  | line l => exact ⟨heights, .refl _ _, hl, fun heights' _ => .singleton (hp heights')⟩
  | load name =>
    refine ⟨heights, .refl _ _, hl, fun _ _ => .accessLine ?_ ?_ chain name⟩
    iterate 2 exact fun _ => ⟨Nat.zero_le _, hp⟩
  | store name =>
    obtain ⟨hpos, rfl⟩ := hp
    refine ⟨heights, .refl _ _, hl, fun _ _ => .accessLine ?_ ?_ chain name⟩
    iterate 2 exact fun _ => ⟨hpos, (Nat.sub_add_cancel hpos).symm⟩
  | define ho =>
    obtain ⟨he, hlt⟩ := hl.own _ _ ho
    refine ⟨heights, .refl _ _, hl, fun heights' ha => .singleton ?_⟩
    rw [Line.Moves, ha _ hlt, he]
    exact hp
  | jump ho =>
    obtain ⟨he, hlt⟩ := hl.own _ _ ho
    refine ⟨heights, .refl _ _, hl, fun heights' ha => .singleton ?_⟩
    rw [Line.Moves, ha _ hlt, he]
    exact hp
  | leave ho =>
    obtain ⟨-, he, hlt⟩ := hl.loops _ (ho ▸ List.mem_cons_self)
    refine ⟨heights, .refl _ _, hl, fun heights' ha => .singleton ?_⟩
    rw [Line.Moves, ha _ hlt, he]
    exact ⟨hp, fun hn => absurd rfl hn⟩
  | again ho =>
    obtain ⟨⟨he, hlt⟩, -⟩ := hl.loops _ (ho ▸ List.mem_cons_self)
    refine ⟨heights, .refl _ _, hl, fun heights' ha => .singleton ?_⟩
    rw [Line.Moves, ha _ hlt, he]
    exact ⟨hp, fun hn => absurd rfl hn⟩

/-- **The lines of a balanced plan keep to heights for all their labels.** The heights of the labels
handed out before are given, and those of the labels handed out later do not matter. -/
theorem Emits.flow (h : Emits chain m parts lines pieces m') {before after : Nat}
    (hl : m.Level own heights) (hb : Balanced own before parts after) :
    ∃ heights₁, AgreeBelow m.labels heights heights₁ ∧
      ∀ heights', AgreeBelow m'.labels heights₁ heights' → Flow heights' before lines after := by
  induction h generalizing own heights before after with
  | nil => exact ⟨heights, .refl _ _, fun _ _ => hb⟩
  | step hp hr ih =>
    obtain ⟨between, hm, hb⟩ := hb
    obtain ⟨heights₁, ha₁, hl₁, hf₁⟩ := Flow.of_step hp hl hm
    obtain ⟨heights₂, ha₂, hf₂⟩ := ih hl₁ hb
    have hle := hr.labels_le
    refine ⟨heights₂, ha₁.trans ?_ ha₂, fun heights' ha => ?_⟩
    · cases hp <;> simp
    · exact (hf₁ heights' (ha₂.trans hle ha)).append (hf₂ heights' ha)
  | @inner _ m _ _ _ _ m₁ _ _ _ m' hp hi hr ihi ih =>
    obtain ⟨between, hm, hb⟩ := hb
    obtain ⟨inside, hb'⟩ := balanced_of_inner hp hm
    have hle : m.labels ≤ m₁.labels := hi.labels_le
    have hle' : m₁.labels ≤ m'.labels := hr.labels_le
    have hs : m₁.loops = m.loops := hi.loops (disciplined_of_inner hp)
    have hl' : m.inner.Level inside heights := ⟨fun _ _ hx => (by cases hx), hl.loops⟩
    obtain ⟨heights₁, ha₁, hf₁⟩ := ihi hl' hb'
    have hl₁ : (m.outer m₁).Level own heights₁ :=
      hl.mono hle rfl (fun loop hx => by simpa [Mark.outer, hs] using hx) ha₁
    obtain ⟨heights₂, ha₂, hf₂⟩ := ih hl₁ hb
    refine ⟨heights₂, ha₁.trans hle ha₂, fun heights' ha => ?_⟩
    exact (hf₁ heights' (ha₂.trans hle' ha)).append (hf₂ heights' ha)
  | @literal _ m r _ _ m₁ _ _ _ m' hi hr _ ih =>
    obtain ⟨between, hm, hb⟩ := hb
    have hle : m.labels ≤ m₁.labels := hi.labels_le
    have hl₁ : (m.after m₁).Level own heights := hl.mono hle rfl (fun _ => id) (.refl _ _)
    obtain ⟨heights₁, ha₁, hf₁⟩ := ih hl₁ hb
    refine ⟨heights₁, fun label hlt => ha₁ label (Nat.lt_of_lt_of_le hlt hle),
      fun heights' ha => ?_⟩
    exact ⟨between, ⟨Nat.zero_le _, hm⟩, hf₁ heights' ha⟩

end Emission

/-! ## Heights of instructions -/

/-- Lines that keep to heights give every offset a height of its own: a line that takes no words
does not change the height. -/
theorem Flow.exists_height {heights : Label → Nat} {before after : Nat} {lines : List Line}
    (h : Flow heights before lines after) (offset : Nat) :
    ∃ height : Nat → Nat, height offset = before ∧ ∀ front l rest, lines = front ++ l :: rest →
      l.Moves heights (height (offset + Assembly.wordCount front))
        (height (offset + Assembly.wordCount front + l.words)) := by
  induction lines generalizing before offset with
  | nil => exact ⟨fun _ => before, rfl, fun front l rest he => by simp at he⟩
  | cons first lines ih =>
    obtain ⟨between, hm, hf⟩ := h
    obtain ⟨height, hh, hr⟩ := ih hf (offset + first.words)
    by_cases hw : first.words = 0
    · cases first with
      | define label =>
        obtain ⟨hl, rfl⟩ := hm
        refine ⟨height, hh, fun front l rest he => ?_⟩
        cases front with
        | nil =>
          cases he
          exact ⟨hh.trans hl, rfl⟩
        | cons _ front =>
          cases he
          simpa [Line.words] using hr front l rest rfl
      | _ => cases hw
    · -- Later lines are at greater offsets, so the height at this one is still free.
      refine ⟨fun o => if o = offset then before else height o, if_pos rfl,
        fun front l rest he => ?_⟩
      cases front with
      | nil =>
        cases he
        simpa [hw, hh] using hm
      | cons _ front =>
        cases he
        have := hr front l rest rfl
        beta_reduce
        rw [Assembly.wordCount_cons, ← Nat.add_assoc, if_neg (by omega), if_neg (by omega)]
        exact this

/-- A count that fits a word is taken as it is. -/
theorem Opcode.pops_toUInt32 {op : Opcode} {operand : Nat}
    (h : (Line.unary op operand).count < 2 ^ 32) :
    op.pops operand.toUInt32.toNat = op.pops operand := by
  cases op with
  | array | call | methodCall =>
    have h : operand.toUInt32.toNat = operand := toNat_toUInt32 h
    rw [h]
  | _ => rfl

theorem Opcode.ne_ret_of_operandWords {op : Opcode} {words : Nat}
    (h : op.operandWords = words + 1) : op ≠ .ret := by
  rintro rfl
  cases h

theorem Opcode.pops_of_isJump {op : Opcode} (h : op.isJump = true) (count : Nat) :
    op.pops count = op.pops 0 ∧ op.pushes = 0 := by
  cases op <;> first | exact ⟨rfl, rfl⟩ | cases h

/-- The instruction of a line has the effect on the height that its line has. -/
theorem Line.moves_of_instruction? {strings : List String} {target heights : Label → Nat}
    {offset : Nat} {l : Line} {i : Instruction}
    (h : l.instruction? strings target offset = some i) (hs : l.Shaped) (hc : l.count < 2 ^ 32)
    {before after : Nat} (hm : l.Moves heights before after) :
    i.pops ≤ before ∧ (i.opcode = .ret → before = 1) ∧
      (i.opcode ≠ .ret → i.opcode ≠ .jump → after = before - i.pops + i.pushes) := by
  cases l with
  | plain op =>
    cases h
    by_cases hr : op = .ret
    · subst hr
      obtain rfl : before = 1 := hm
      exact ⟨Nat.le_refl _, fun _ => rfl, fun hn => absurd rfl hn⟩
    · have hm : op.Moves 0 before after := by cases op <;> first | exact hm | exact absurd rfl hr
      exact ⟨hm.1, fun he => absurd he hr, fun _ _ => hm.2⟩
  | unary op operand =>
    cases h
    rw [Line.Moves, Opcode.Moves, ← Opcode.pops_toUInt32 hc] at hm
    exact ⟨hm.1, fun he => absurd he (Opcode.ne_ret_of_operandWords hs.1), fun _ _ => hm.2⟩
  | binary op first second =>
    cases h
    exact ⟨(hm _).1, fun he => absurd he (Opcode.ne_ret_of_operandWords hs),
      fun _ _ => (hm _).2⟩
  | number value =>
    cases h
    exact ⟨Nat.zero_le _, nofun, fun _ _ => hm⟩
  | text op string =>
    cases h
    exact ⟨(hm _).1, fun he => absurd he (Opcode.ne_ret_of_operandWords hs.1),
      fun _ _ => (hm _).2⟩
  | jump op label =>
    cases h
    obtain ⟨rfl, ha⟩ := hm
    cases op with
    | jump => exact ⟨Nat.zero_le _, nofun, fun _ hn => absurd rfl hn⟩
    | jumpIfTrue | jumpIfFalse => exact ⟨Nat.le_add_left _ _, nofun, fun _ hn => ha hn⟩
    | _ => cases hs
  | define label => cases h

/-- **Every instruction of a section has one stack height.** -/
theorem Assembled.exists_height {image : Image} {id : Nat} {segment : Segment} {lines : List Line}
    (h : Assembled image id segment lines) {code : Bytes} (hc : image.sections[id]? = some code)
    (hw : code.length < 4 * 2 ^ 32) :
    ∃ height : Nat → Nat, height 0 = 0 ∧
      ∀ i ∈ Assembly.listing image.strings (target image lines) 0 lines,
        i.pops ≤ height i.offset ∧ (i.opcode = .ret → height i.offset = 1) ∧
        ∀ offset ∈ i.successors, height offset = height i.offset - i.pops + i.pushes := by
  obtain ⟨bytes, hb, ha⟩ := h.code
  cases hb.symm.trans hc
  have hwords : Assembly.wordCount lines < 2 ^ 32 := by
    have := Assembly.length_assemble ha
    omega
  obtain ⟨labels, inside, last, he, -⟩ := h.emits
  have hl : Mark.Level ⟨labels, id + 1, [], [], []⟩ (fun _ => 0) (fun _ => 0) := by
    constructor <;> simp
  obtain ⟨heights, -, hf⟩ := he.flow hl (segment.balanced_plan _)
  obtain ⟨height, h0, hm⟩ := (hf heights (.refl _ _)).exists_height 0
  simp only [Nat.zero_add] at hm
  refine ⟨height, h0, fun i hi => ?_⟩
  obtain ⟨front, l, rest, hlines, hi'⟩ := Assembly.exists_line_of_mem hi
  rw [Nat.zero_add] at hi'
  have hlm : l ∈ lines := by simp [hlines]
  have hcount : l.count < 2 ^ 32 := Nat.lt_of_le_of_lt (h.count_le l hlm) hwords
  have hmove := hm front l rest hlines
  obtain ⟨hpops, hret, hnext⟩ := Line.moves_of_instruction? hi' (h.shaped l hlm) hcount hmove
  rw [Line.offset_of_instruction? hi']
  refine ⟨hpops, hret, fun offset ho => ?_⟩
  rcases List.mem_append.mp ho with ho | ho
  · split at ho
    case isTrue => cases ho
    case isFalse hn =>
      cases List.mem_singleton.mp ho
      rw [Line.next_of_instruction? hi']
      exact hnext (fun hr => hn (.inr hr)) (fun hj => hn (.inl hj))
  · split at ho
    case isFalse => cases ho
    case isTrue hj =>
      obtain ⟨label, rfl, hop⟩ := Line.jump_of_instruction? (h.shaped l hlm) hi' hj
      obtain ⟨front', rest', hlines', ht⟩ := Assembly.exists_define_of_jump ha hlm
      have hlabel := (hm front' _ rest' hlines').1
      have hlt : target image lines label < 2 ^ 32 := by
        have := congrArg Assembly.wordCount hlines'
        rw [Assembly.wordCount_append] at this
        rw [target, ht]
        omega
      rw [hop, List.map_singleton, List.mem_singleton, toNat_toUInt32 hlt, target, ht] at ho
      obtain ⟨hp, hpush⟩ := Opcode.pops_of_isJump hj ((i.operands.map UInt32.toNat).headD 0)
      rw [ho, hlabel, hmove.1, Instruction.pops, Instruction.pushes, hp, hpush]
      omega

/-- **Compiled code never underflows the evaluation stack and has one stack height per
instruction.** In every section of fewer than 2³² words every offset can be given a height such that
the first instruction starts at height zero, every instruction finds the values that it takes,
every successor of an instruction is at the height that the instruction leaves, and a return finds
exactly one value. -/
theorem Program.stack_heights {config : Config} {program : Program} {image : Image}
    (h : program.compile config = .ok image) {id : Nat} {code : Bytes}
    (hc : image.sections[id]? = some code) (hw : code.length < 4 * 2 ^ 32) :
    ∃ first rest, image.instructions id = .ok (first :: rest) ∧
      ∃ height : Nat → Nat, height first.offset = 0 ∧
        ∀ i ∈ first :: rest, i.pops ≤ height i.offset ∧
          (i.opcode = .ret → height i.offset = 1) ∧
          ∀ offset ∈ i.successors, height offset = height i.offset - i.pops + i.pushes := by
  obtain ⟨segment, lines, -, ha⟩ := exists_assembled h (List.getElem?_eq_some_iff.mp hc).1
  obtain ⟨before, hl⟩ := ha.exists_lines_eq
  obtain ⟨first, rest, hlist, hfirst⟩ : ∃ first rest, Assembly.listing image.strings
      (Assembled.target image lines) 0 lines = first :: rest ∧ first.offset = 0 :=
    Assembly.exists_head_listing 0 (show Line.plain .ret ∈ lines by simp [hl]) rfl
  have hi := ha.instructions_eq
  obtain ⟨height, h0, hheight⟩ := ha.exists_height hc hw
  rw [hlist] at hi hheight
  exact ⟨first, rest, hi, height, by rw [hfirst, h0], hheight⟩

/-- The code of a loop with a test of two values, a method call, a member that is incremented after
its use and a way out has stack heights. -/
theorem Program.stack_heights_loop :
    ∃ image code, (Program.compile {} ⟨[.whileLoop
        (.logical .and (.ident "x") (.call (.member (.ident "x") "f") [.null]))
        (.block [.update .increment false (.member (.ident "x") "y"), .breakLoop])]⟩ = .ok image ∧
      image.sections[0]? = some code ∧ code.length < 4 * 2 ^ 32) ∧
      ∃ first rest, image.instructions 0 = .ok (first :: rest) ∧
        ∃ height : Nat → Nat, height first.offset = 0 ∧
          ∀ i ∈ first :: rest, i.pops ≤ height i.offset ∧
            (i.opcode = .ret → height i.offset = 1) ∧
            ∀ offset ∈ i.successors, height offset = height i.offset - i.pops + i.pushes := by
  have h : Program.compile {} ⟨[.whileLoop
        (.logical .and (.ident "x") (.call (.member (.ident "x") "f") [.null]))
        (.block [.update .increment false (.member (.ident "x") "y"), .breakLoop])]⟩ = .ok
      { sections := [[4, 0, 0, 0, 0, 0, 0, 0, 42, 0, 0, 0, 14, 0, 0, 0, 13, 0, 0, 0, 27, 0, 0, 0,
          4, 0, 0, 0, 0, 0, 0, 0, 5, 0, 0, 0, 1, 0, 0, 0, 11, 0, 0, 0, 6, 0, 0, 0, 1, 0, 0, 0,
          14, 0, 0, 0, 31, 0, 0, 0, 4, 0, 0, 0, 0, 0, 0, 0, 42, 0, 0, 0, 44, 0, 0, 0, 2, 0, 0, 0,
          53, 0, 0, 0, 51, 0, 0, 0, 45, 0, 0, 0, 2, 0, 0, 0, 27, 0, 0, 0, 54, 0, 0, 0,
          27, 0, 0, 0, 12, 0, 0, 0, 31, 0, 0, 0, 12, 0, 0, 0, 0, 0, 0, 0, 0, 0, 0, 0, 1, 0, 0, 0]]
        strings := ["x", "f", "y"] } := by
    decide +kernel
  exact ⟨_, _, ⟨h, rfl, by simp⟩, Program.stack_heights h (show _[0]? = some _ from rfl)
    (by simp)⟩

end ScriptCompiler
