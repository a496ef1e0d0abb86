import ScriptCompiler.Generator.Emission
import ScriptCompiler.Tree.Operator

/-!
# Operators and places

The code of operators, and of reading and writing what can be assigned to. A place is a name, a
member or an element; its object and key are computed once, before it is read or written.

## Main definitions

* `BinaryOperator.opcode`, `UnaryOperator.opcode`, `UpdateOperator.opcode`: one instruction each
* `Place`: a place whose object and key are on the stack
* `Place.fetch`, `Place.store`: reading a place while keeping its object and key, and writing it
* `Place.update`: a step by one in place
-/

namespace ScriptCompiler

/-- The instruction of a binary operator. -/
def BinaryOperator.opcode : BinaryOperator → Opcode
  | add => .add
  | subtract => .subtract
  | multiply => .multiply
  | divide => .divide
  | modulo => .modulo
  | equal => .equal
  | notEqual => .notEqual
  | strictEqual => .strictEqual
  | strictNotEqual => .strictNotEqual
  | lessThan => .lessThan
  | lessThanEqual => .lessThanEqual
  | greaterThan => .greaterThan
  | greaterThanEqual => .greaterThanEqual
  | bitwiseAnd => .bitwiseAnd
  | bitwiseOr => .bitwiseOr
  | bitwiseXor => .bitwiseXor
  | leftShift => .leftShift
  | rightShift => .rightShift
  | unsignedRightShift => .unsignedRightShift
  | hasKey => .hasKey
  | instanceOf => .instanceOf

/-- The jump of a logical operator past its second value, taken if the first settles the result. -/
def LogicalOperator.opcode : LogicalOperator → Opcode
  | and => .jumpIfFalse
  | or => .jumpIfTrue

/-- The instruction of a unary operator. -/
def UnaryOperator.opcode : UnaryOperator → Opcode
  | minus => .negate
  | logicalNot => .logicalNot
  | typeOf => .typeOf

/-- The instruction of an update. -/
def UpdateOperator.opcode : UpdateOperator → Opcode
  | increment => .increment
  | decrement => .decrement

/-- **A place** whose object and key, if it has any, are on the stack. -/
inductive Place where
  /-- A name. -/
  | ident (name : String)
  /-- A member of the object on the stack. -/
  | member (property : String)
  /-- The element of the object on the stack under the key on top of it. -/
  | index
deriving DecidableEq, Repr, Inhabited

namespace Place

open Generator

/-- Leaves the value of a place above its object and key. -/
def fetch : Place → Generator Unit
  | ident name => load name
  | member property => do
    emitPlain .dup
    emitString .member property
  | index => do
    emitPlain .dup2
    emitPlain .index

/-- Stores the top value in a place and leaves only that value. -/
def store : Place → Generator Unit
  | ident name => Generator.store name
  | member property => emitString .setMember property
  | index => emitPlain .setIndex

/-- Keeps the value that has just been fetched. -/
def keepOld : Place → Generator Unit
  | ident _ => emitPlain .dup
  | member _ | index => emitPlain .saveTemporary

/-- Replaces the value that has just been stored by the one that was kept. -/
def recallOld : Place → Generator Unit
  | ident _ => emitPlain .pop
  | member _ | index => do
    emitPlain .pop
    emitPlain .loadTemporary

/-- Applies an instruction to the value of a place and leaves the new value, or the old one if the
operator stands after the place. -/
def update (op : Opcode) (before : Bool) (place : Place) : Generator Unit :=
  if before then do
    place.fetch
    emitPlain op
    place.store
  else do
    place.fetch
    place.keepOld
    emitPlain op
    place.store
    place.recallOld

end Place

end ScriptCompiler
