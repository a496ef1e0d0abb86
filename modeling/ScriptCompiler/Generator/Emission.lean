import ScriptCompiler.Generator.State

/-!
# Emitting instructions

The elementary steps of code generation. Each instruction is emitted together with its operands,
and labels are defined only between instructions.

## Main definitions

* `Generator.emit`: adds items to the current section
* `emitPlain`, `emitUnary`, `emitBinary`, `emitNumber`, `emitString`: instructions by their operands
* `freshLabel`, `define`, `emitJump`: labels and jumps
* `load`, `store`: the value of a name, in a slot or global
-/

namespace ScriptCompiler

namespace Generator

/-- Adds items to the current section. -/
@[inline] def emit (items : List Item) : Generator Unit :=
  modify fun s => { s with sections := (s.sections.emit items).2 }

/-- Emits an instruction without operands. -/
def emitPlain (op : Opcode) : Generator Unit := emit [.opcode op]

/-- Emits an instruction with one operand. -/
def emitUnary (op : Opcode) (operand : Nat) : Generator Unit :=
  emit [.opcode op, .word operand.toUInt32]

/-- Emits an instruction with two operands. -/
def emitBinary (op : Opcode) (first second : Nat) : Generator Unit :=
  emit [.opcode op, .word first.toUInt32, .word second.toUInt32]

/-- Emits a number literal. -/
def emitNumber (value : Binary64) : Generator Unit := emit [.opcode .pushNumber, .number value]

/-- Emits the end of every section, which returns undefined. -/
def emitEnd : Generator Unit := emit [.opcode .pushUndefined, .opcode .ret]

/-! ## Labels -/

/-- Hands out a label. -/
def freshLabel : Generator Label :=
  modifyGet fun s => (⟨s.labels⟩, { s with labels := s.labels + 1 })

/-- Lets a label stand for the place after what has been emitted. -/
def define (label : Label) : Generator Unit := emit [.define label]

/-- Emits a jump to a label. -/
def emitJump (op : Opcode) (label : Label) : Generator Unit := emit [.opcode op, .refer label]

/-! ## Strings and names -/

/-- The position of a string in the string pool. -/
def intern (text : String) : Generator Nat :=
  modifyGet fun s =>
    let (position, strings) := s.strings.intern text
    (position, { s with strings })

/-- Emits an instruction whose operand is a string. -/
def emitString (op : Opcode) (text : String) : Generator Unit := do
  let position ← intern text
  emitUnary op position

/-- Declares a name in the innermost scope. -/
def declare (name : String) : Generator (Option Nat) :=
  modifyGet fun s =>
    let (slot, scopes) := s.scopes.declare name
    (slot, { s with scopes })

/-- Emits code that leaves the value of a name. -/
def load (name : String) : Generator Unit := do
  match (← get).scopes.address? name with
  | some (slot, frames) => emitBinary .pushVariable slot frames
  | none => emitString .pushGlobal name

/-- Emits code that stores the top value under a name and keeps it. -/
def store (name : String) : Generator Unit := do
  match (← get).scopes.address? name with
  | some (slot, frames) => emitBinary .setVariable slot frames
  | none => emitString .setGlobal name

end Generator

end ScriptCompiler
