import ScriptCompiler.Proofs.ClosedCode

/-!
# The stack machine

A machine that runs a section. It works on an evaluation stack and one temporary register, and
knows nothing of the store: variables, members, operators and calls are given by a runtime, each as
an action on the store. Instructions are decoded to commands, and a section is run from its first
offset on until it returns.

## Main definitions

* `Runtime`: values, and the actions on them
* `Command`: a decoded instruction
* `Opcode.command?`: what the opcodes stand for
* `Command.act`: what a command does to the stack, the temporary register and the store
* `Machine.step`, `Machine.run`: one step, and many
* `Machine.Reaches`, `Machine.Advances`, `Machine.GoesOn`, `Machine.Returns`: what comes of a state
* `Image.fetch`: the commands of a section by their offsets

## Main results

* `Machine.run_add`: a run is continued from where it is
* `Machine.run_of_halted`: a run that has ended stays as it ended
-/

namespace ScriptCompiler

/-- The values that code holds itself. -/
inductive Constant where
  | undefined
  | null
  | boolean (value : Bool)
  | number (value : Binary64)
  | string (value : String)
deriving DecidableEq, Repr

/-- **What code is run with**: values, the truth of a value, and actions on a store. -/
structure Runtime (Store Value : Type) where
  constant : Constant → Value
  truthy : Value → Bool
  loadVariable (slot frames : Nat) : StateM Store Value
  storeVariable (slot frames : Nat) (value : Value) : StateM Store Unit
  loadGlobal (name : String) : StateM Store Value
  storeGlobal (name : String) (value : Value) : StateM Store Unit
  member (object : Value) (property : String) : StateM Store Value
  setMember (object : Value) (property : String) (value : Value) : StateM Store Unit
  index (object key : Value) : StateM Store Value
  setIndex (object key value : Value) : StateM Store Unit
  binary (operator : BinaryOperator) (left right : Value) : StateM Store Value
  unary (operator : UnaryOperator) (argument : Value) : StateM Store Value
  update (operator : UpdateOperator) (argument : Value) : StateM Store Value
  array (elements : List Value) : StateM Store Value
  close (id : Nat) : StateM Store Value
  call (callee : Value) (arguments : List Value) : StateM Store Value
  methodCall (object key : Value) (arguments : List Value) : StateM Store Value
  setCallee (slot : Nat) : StateM Store Unit
  setArgument (slot position : Nat) : StateM Store Unit

/-! ## Commands -/

/-- **A decoded instruction.** -/
inductive Command where
  | constant (value : Constant)
  | loadVariable (slot frames : Nat)
  | storeVariable (slot frames : Nat)
  | loadGlobal (name : String)
  | storeGlobal (name : String)
  | member (property : String)
  | setMember (property : String)
  | index
  | setIndex
  | binary (operator : BinaryOperator)
  | unary (operator : UnaryOperator)
  | update (operator : UpdateOperator)
  | array (count : Nat)
  | call (count : Nat)
  | methodCall (count : Nat)
  | close (id : Nat)
  | setCallee (slot : Nat)
  | setArgument (slot position : Nat)
  | pop
  | dup
  | dup2
  | saveTemporary
  | loadTemporary
  /-- Goes on at an offset. -/
  | jump (target : Nat)
  /-- Takes a value and goes on at an offset if its truth is the given one. -/
  | branch (truth : Bool) (target : Nat)
  | ret
deriving DecidableEq, Repr

/-- **What an opcode stands for** with the operands after it, where `string` gives the strings of
the string table. -/
def Opcode.command? (string : Nat → Option String) : Opcode → List Nat → Option Command
  | pushUndefined, [] => some (.constant .undefined)
  | ret, [] => some .ret
  | pushNumber, [low, high] =>
    some (.constant (.number (Binary64.ofWords low.toUInt32 high.toUInt32)))
  | add, [] => some (.binary .add)
  | pushGlobal, [name] => (string name).map .loadGlobal
  | pushString, [text] => (string text).map fun text => .constant (.string text)
  | methodCall, [count] => some (.methodCall count)
  | setVariable, [slot, frames] => some (.storeVariable slot frames)
  | pushVariable, [slot, frames] => some (.loadVariable slot frames)
  | pushTrue, [] => some (.constant (.boolean true))
  | pushFalse, [] => some (.constant (.boolean false))
  | pushNull, [] => some (.constant .null)
  | jump, [target] => some (.jump target)
  | jumpIfTrue, [target] => some (.branch true target)
  | jumpIfFalse, [target] => some (.branch false target)
  | subtract, [] => some (.binary .subtract)
  | multiply, [] => some (.binary .multiply)
  | divide, [] => some (.binary .divide)
  | setGlobal, [name] => (string name).map .storeGlobal
  | close, [id] => some (.close id)
  | call, [count] => some (.call count)
  | setCallee, [slot] => some (.setCallee slot)
  | setArgument, [slot, position] => some (.setArgument slot position)
  | lessThan, [] => some (.binary .lessThan)
  | lessThanEqual, [] => some (.binary .lessThanEqual)
  | greaterThan, [] => some (.binary .greaterThan)
  | greaterThanEqual, [] => some (.binary .greaterThanEqual)
  | pop, [] => some .pop
  | array, [count] => some (.array count)
  | modulo, [] => some (.binary .modulo)
  | equal, [] => some (.binary .equal)
  | notEqual, [] => some (.binary .notEqual)
  | strictEqual, [] => some (.binary .strictEqual)
  | strictNotEqual, [] => some (.binary .strictNotEqual)
  | bitwiseAnd, [] => some (.binary .bitwiseAnd)
  | bitwiseOr, [] => some (.binary .bitwiseOr)
  | bitwiseXor, [] => some (.binary .bitwiseXor)
  | leftShift, [] => some (.binary .leftShift)
  | rightShift, [] => some (.binary .rightShift)
  | unsignedRightShift, [] => some (.binary .unsignedRightShift)
  | hasKey, [] => some (.binary .hasKey)
  | instanceOf, [] => some (.binary .instanceOf)
  | dup, [] => some .dup
  | dup2, [] => some .dup2
  | member, [property] => (string property).map .member
  | setMember, [property] => (string property).map .setMember
  | index, [] => some .index
  | setIndex, [] => some .setIndex
  | logicalNot, [] => some (.unary .logicalNot)
  | negate, [] => some (.unary .minus)
  | typeOf, [] => some (.unary .typeOf)
  | increment, [] => some (.update .increment)
  | decrement, [] => some (.update .decrement)
  | saveTemporary, [] => some .saveTemporary
  | loadTemporary, [] => some .loadTemporary
  | _, _ => none

/-- The command of an instruction. -/
def Instruction.command? (strings : List String) (i : Instruction) : Option Command :=
  i.opcode.command? (strings[·]?) (i.operands.map UInt32.toNat)

/-! ## What commands do -/

/-- What a command works on: the evaluation stack with its top first, the temporary register and
the store. -/
structure Data (Store Value : Type) where
  stack : List Value
  temporary : Option Value
  store : Store

section Machine

variable {Store Value : Type}

namespace Data

/-- The data after an action whose result is put on a stack. -/
def result (d : Data Store Value) (stack : List Value) (action : StateM Store Value) :
    Data Store Value :=
  { d with stack := (action d.store).1 :: stack, store := (action d.store).2 }

/-- The data after an action that leaves a stack. -/
def effect (d : Data Store Value) (stack : List Value) (action : StateM Store Unit) :
    Data Store Value :=
  { d with stack := stack, store := (action d.store).2 }

end Data

/-- **What a command does**, unless it finds too few values or is about where to go on. Stores keep
the value that is stored. -/
def Command.act (R : Runtime Store Value) (c : Command) (d : Data Store Value) :
    Option (Data Store Value) :=
  match c, d.stack with
  | constant c, stack => some { d with stack := R.constant c :: stack }
  | loadVariable slot frames, stack => some (d.result stack (R.loadVariable slot frames))
  | storeVariable slot frames, value :: stack =>
    some (d.effect (value :: stack) (R.storeVariable slot frames value))
  | loadGlobal name, stack => some (d.result stack (R.loadGlobal name))
  | storeGlobal name, value :: stack =>
    some (d.effect (value :: stack) (R.storeGlobal name value))
  | member property, object :: stack => some (d.result stack (R.member object property))
  | setMember property, value :: object :: stack =>
    some (d.effect (value :: stack) (R.setMember object property value))
  | index, key :: object :: stack => some (d.result stack (R.index object key))
  | setIndex, value :: key :: object :: stack =>
    some (d.effect (value :: stack) (R.setIndex object key value))
  | binary operator, right :: left :: stack => some (d.result stack (R.binary operator left right))
  | unary operator, argument :: stack => some (d.result stack (R.unary operator argument))
  | update operator, argument :: stack => some (d.result stack (R.update operator argument))
  | array count, stack =>
    if count ≤ stack.length then
      some (d.result (stack.drop count) (R.array (stack.take count).reverse))
    else none
  | call count, stack =>
    match stack.drop count with
    | callee :: rest => some (d.result rest (R.call callee (stack.take count).reverse))
    | _ => none
  | methodCall count, stack =>
    match stack.drop count with
    | key :: object :: rest =>
      some (d.result rest (R.methodCall object key (stack.take count).reverse))
    | _ => none
  | close id, stack => some (d.result stack (R.close id))
  | setCallee slot, stack => some (d.effect stack (R.setCallee slot))
  | setArgument slot position, stack => some (d.effect stack (R.setArgument slot position))
  | pop, _ :: stack => some { d with stack := stack }
  | dup, value :: stack => some { d with stack := value :: value :: stack }
  | dup2, second :: first :: stack =>
    some { d with stack := second :: first :: second :: first :: stack }
  | saveTemporary, value :: _ => some { d with temporary := some value }
  | loadTemporary, stack => d.temporary.map fun value => { d with stack := value :: stack }
  | _, _ => none

namespace Machine

/-- Where a machine stands in a section, and with what. -/
structure State (Store Value : Type) where
  offset : Nat
  data : Data Store Value

/-- The start of a section: the stack is empty, and nothing is in the temporary register. -/
def State.start (store : Store) : State Store Value := ⟨0, [], none, store⟩

/-- How far a machine has come. -/
inductive Progress (Store Value : Type) where
  | running (state : State Store Value)
  | returned (value : Value) (store : Store)
  | stuck

/-- **One step of the machine**, where `fetch` gives the command at an offset and the offset after
it. -/
def step (R : Runtime Store Value) (fetch : Nat → Option (Command × Nat)) (s : State Store Value) :
    Progress Store Value :=
  match fetch s.offset with
  | none => .stuck
  | some (.jump target, _) => .running ⟨target, s.data⟩
  | some (.branch truth target, next) =>
    match s.data.stack with
    | [] => .stuck
    | value :: stack =>
      .running ⟨if R.truthy value = truth then target else next, { s.data with stack := stack }⟩
  | some (.ret, _) =>
    match s.data.stack with
    | [] => .stuck
    | value :: _ => .returned value s.data.store
  | some (c, next) =>
    match c.act R s.data with
    | none => .stuck
    | some d => .running ⟨next, d⟩

/-- **A run of at most so many steps.** -/
def run (R : Runtime Store Value) (fetch : Nat → Option (Command × Nat)) :
    Nat → State Store Value → Progress Store Value
  | 0, s => .running s
  | steps + 1, s =>
    match step R fetch s with
    | .running s' => run R fetch steps s'
    | halted => halted

variable {R : Runtime Store Value} {fetch : Nat → Option (Command × Nat)}

theorem run_succ {s s' : State Store Value} (h : step R fetch s = .running s') (steps : Nat) :
    run R fetch (steps + 1) s = run R fetch steps s' := by
  rw [run, h]

/-- A run is continued from where it is. -/
theorem run_add {n : Nat} {s s' : State Store Value} (h : run R fetch n s = .running s')
    (steps : Nat) : run R fetch (n + steps) s = run R fetch steps s' := by
  induction n generalizing s with
  | zero =>
    cases h
    rw [Nat.zero_add]
  | succ n ih =>
    rw [Nat.succ_add, run]
    rw [run] at h
    cases hs : step R fetch s with
    | running s₁ =>
      rw [hs] at h
      exact ih h
    | returned value store => rw [hs] at h; cases h
    | stuck => rw [hs] at h; cases h

/-- A run that has ended stays as it ended. -/
theorem run_of_halted {n : Nat} {s : State Store Value} {p : Progress Store Value}
    (h : run R fetch n s = p) (hp : ∀ s', p ≠ .running s') {steps : Nat} (hn : n ≤ steps) :
    run R fetch steps s = p := by
  induction n generalizing s steps with
  | zero => exact absurd h.symm (hp s)
  | succ n ih =>
    obtain ⟨steps, rfl⟩ : ∃ k, steps = k + 1 := ⟨steps - 1, by omega⟩
    rw [run] at h ⊢
    cases hs : step R fetch s with
    | running s₁ =>
      rw [hs] at h
      exact ih h (Nat.le_of_succ_le_succ hn)
    | returned value store => rwa [hs] at h
    | stuck => rwa [hs] at h

/-! ## Getting from one state to another -/

/-- The machine comes from one state to another. -/
def Reaches (R : Runtime Store Value) (fetch : Nat → Option (Command × Nat))
    (s s' : State Store Value) : Prop :=
  ∃ n, run R fetch n s = .running s'

/-- The machine comes from one state to another in at least so many steps. -/
def Advances (R : Runtime Store Value) (fetch : Nat → Option (Command × Nat)) (steps : Nat)
    (s s' : State Store Value) : Prop :=
  ∃ n, steps ≤ n ∧ run R fetch n s = .running s'

/-- The machine goes on for at least so many steps. -/
def GoesOn (R : Runtime Store Value) (fetch : Nat → Option (Command × Nat)) (steps : Nat)
    (s : State Store Value) : Prop :=
  ∃ s', Advances R fetch steps s s'

/-- The machine returns a value and leaves a store. -/
def Returns (R : Runtime Store Value) (fetch : Nat → Option (Command × Nat))
    (s : State Store Value) (value : Value) (store : Store) : Prop :=
  ∃ n, run R fetch n s = .returned value store

theorem Reaches.refl (s : State Store Value) : Reaches R fetch s s := ⟨0, rfl⟩

theorem Reaches.trans {s s₁ s₂ : State Store Value} (h : Reaches R fetch s s₁)
    (h' : Reaches R fetch s₁ s₂) : Reaches R fetch s s₂ := by
  obtain ⟨n, hn⟩ := h
  obtain ⟨k, hk⟩ := h'
  exact ⟨n + k, by rw [run_add hn, hk]⟩

theorem Reaches.of_step {s s' : State Store Value} (h : step R fetch s = .running s') :
    Reaches R fetch s s' :=
  ⟨1, run_succ h 0⟩

theorem Reaches.advances {s s' : State Store Value} (h : Reaches R fetch s s') :
    Advances R fetch 0 s s' := by
  obtain ⟨n, hn⟩ := h
  exact ⟨n, Nat.zero_le n, hn⟩

theorem Advances.of_step {s s' : State Store Value} (h : step R fetch s = .running s') :
    Advances R fetch 1 s s' :=
  ⟨1, Nat.le_refl 1, run_succ h 0⟩

theorem Advances.reaches {steps : Nat} {s s' : State Store Value}
    (h : Advances R fetch steps s s') : Reaches R fetch s s' := by
  obtain ⟨n, -, hn⟩ := h
  exact ⟨n, hn⟩

theorem Advances.trans {steps more : Nat} {s s₁ s₂ : State Store Value}
    (h : Advances R fetch steps s s₁) (h' : Advances R fetch more s₁ s₂) :
    Advances R fetch (steps + more) s s₂ := by
  obtain ⟨n, hle, hn⟩ := h
  obtain ⟨k, hle', hk⟩ := h'
  exact ⟨n + k, by omega, by rw [run_add hn, hk]⟩

theorem Advances.mono {steps more : Nat} {s s' : State Store Value}
    (h : Advances R fetch more s s') (hle : steps ≤ more) : Advances R fetch steps s s' := by
  obtain ⟨n, hn, hs⟩ := h
  exact ⟨n, Nat.le_trans hle hn, hs⟩

theorem GoesOn.of_advances {s s₁ : State Store Value} {steps more : Nat}
    (h : Advances R fetch steps s s₁) (h' : GoesOn R fetch more s₁) :
    GoesOn R fetch (steps + more) s := by
  obtain ⟨s', hs⟩ := h'
  exact ⟨s', h.trans hs⟩

theorem GoesOn.mono {s : State Store Value} {steps more : Nat} (h : GoesOn R fetch more s)
    (hle : steps ≤ more) : GoesOn R fetch steps s := by
  obtain ⟨s', hs⟩ := h
  exact ⟨s', hs.mono hle⟩

theorem Returns.of_step {s : State Store Value} {value : Value} {store : Store}
    (h : step R fetch s = .returned value store) : Returns R fetch s value store :=
  ⟨1, by rw [run, h]⟩

theorem Returns.of_reaches {s s₁ : State Store Value} {value : Value} {store : Store}
    (h : Reaches R fetch s s₁) (h' : Returns R fetch s₁ value store) :
    Returns R fetch s value store := by
  obtain ⟨n, hn⟩ := h
  obtain ⟨k, hk⟩ := h'
  exact ⟨n + k, by rw [run_add hn, hk]⟩

/-- As long as the machine goes on, it is running. -/
theorem GoesOn.exists_running {s : State Store Value} {n steps : Nat} (h : GoesOn R fetch steps s)
    (hn : n ≤ steps) : ∃ s', run R fetch n s = .running s' := by
  obtain ⟨s', k, hk, hs⟩ := h
  cases hr : run R fetch n s with
  | running s₁ => exact ⟨s₁, rfl⟩
  | returned | stuck =>
    rw [run_of_halted hr nofun (Nat.le_trans hn hk)] at hs
    cases hs

/-- The machine ends in one way. -/
theorem Returns.eq_of_halted {s : State Store Value} {value : Value} {store : Store}
    (h : Returns R fetch s value store) {n : Nat} {p : Progress Store Value}
    (hr : run R fetch n s = p) (hp : ∀ s', p ≠ .running s') : p = .returned value store := by
  obtain ⟨k, hk⟩ := h
  have hr := run_of_halted hr hp (Nat.le_add_right n k)
  have hk := run_of_halted hk nofun (Nat.le_add_left k n)
  exact hr.symm.trans hk

section Steps

variable {offset next target : Nat} {d d' : Data Store Value}

theorem step_act {c : Command} (hf : fetch offset = some (c, next)) (ha : c.act R d = some d') :
    step R fetch ⟨offset, d⟩ = .running ⟨next, d'⟩ := by
  cases c with
  | jump | branch | ret => cases ha
  | _ => simp only [step, hf, ha]

theorem step_jump (hf : fetch offset = some (.jump target, next)) :
    step R fetch ⟨offset, d⟩ = .running ⟨target, d⟩ := by
  simp only [step, hf]

theorem step_branch {truth : Bool} {value : Value} {stack : List Value} {temporary : Option Value}
    {store : Store} (hf : fetch offset = some (.branch truth target, next)) :
    step R fetch ⟨offset, value :: stack, temporary, store⟩ =
      .running ⟨if R.truthy value = truth then target else next, stack, temporary, store⟩ := by
  simp only [step, hf]

theorem step_ret {value : Value} {stack : List Value} {temporary : Option Value} {store : Store}
    (hf : fetch offset = some (.ret, next)) :
    step R fetch ⟨offset, value :: stack, temporary, store⟩ = .returned value store := by
  simp only [step, hf]

end Steps

end Machine

end Machine

/-- **The commands of a section** by their offsets, each with the offset after it. -/
def Image.fetch (image : Image) (id offset : Nat) : Option (Command × Nat) :=
  match image.instructions id with
  | .error _ => none
  | .ok is => do
    let i ← is.find? (·.offset = offset)
    let c ← i.command? image.strings
    return (c, i.next)

end ScriptCompiler
