/-!
# Opcodes

The instruction set of the stack machine. An instruction is one word holding its opcode's code,
followed by that opcode's operand words.

## Main definitions

* `Opcode`: the instructions, in the order of their codes
* `Opcode.code`, `Opcode.ofCode?`: numbering, and its partial inverse
* `Opcode.mnemonic`, `Opcode.operandWords`, `Opcode.isJump`: the columns of the table

## Main results

* `Opcode.ofCode?_code`, `Opcode.code_of_ofCode?`: every opcode is found again at its code, and at
  no other
-/

namespace ScriptCompiler

/-- **The instructions of the stack machine.** Comments give the values taken from and left on
the evaluation stack, top last. A slot and a frame count address a variable: the slot in the
scope that many frames out. -/
inductive Opcode where
  /-- Leaves the undefined value. -/
  | pushUndefined
  /-- Takes a value and returns it from the section. -/
  | ret
  /-- Leaves the double given by the two operand words. -/
  | pushNumber
  /-- Takes two values, leaves their sum. -/
  | add
  /-- Leaves the global named by a string. -/
  | pushGlobal
  /-- Leaves a string. -/
  | pushString
  /-- Takes an object, a key and the counted arguments, leaves the result. -/
  | methodCall
  /-- Stores the top value in a variable and keeps it. -/
  | setVariable
  /-- Leaves a variable's value. -/
  | pushVariable
  /-- Leaves true. -/
  | pushTrue
  /-- Leaves false. -/
  | pushFalse
  /-- Leaves null. -/
  | pushNull
  /-- Continues at a word offset. -/
  | jump
  /-- Takes a value and jumps if it is truthy. -/
  | jumpIfTrue
  /-- Takes a value and jumps if it is falsy. -/
  | jumpIfFalse
  /-- Takes two values, leaves their difference. -/
  | subtract
  /-- Takes two values, leaves their product. -/
  | multiply
  /-- Takes two values, leaves their quotient. -/
  | divide
  /-- Stores the top value in the global named by a string and keeps it. -/
  | setGlobal
  /-- Leaves a closure over a section. -/
  | close
  /-- Takes a callee and the counted arguments, leaves the result. -/
  | call
  /-- Binds the running function to a slot. -/
  | setCallee
  /-- Binds an argument to a slot. -/
  | setArgument
  /-- Takes two values, leaves whether the first is less. -/
  | lessThan
  /-- Takes two values, leaves whether the first is less or equal. -/
  | lessThanEqual
  /-- Takes two values, leaves whether the first is greater. -/
  | greaterThan
  /-- Takes two values, leaves whether the first is greater or equal. -/
  | greaterThanEqual
  /-- Takes a value. -/
  | pop
  /-- Takes the counted elements, leaves an array of them. -/
  | array
  /-- Takes two values, leaves the remainder. -/
  | modulo
  /-- Takes two values, leaves whether they are loosely equal. -/
  | equal
  /-- Takes two values, leaves whether they are loosely unequal. -/
  | notEqual
  /-- Takes two values, leaves whether they are strictly equal. -/
  | strictEqual
  /-- Takes two values, leaves whether they are strictly unequal. -/
  | strictNotEqual
  /-- Takes two values, leaves their bitwise conjunction. -/
  | bitwiseAnd
  /-- Takes two values, leaves their bitwise disjunction. -/
  | bitwiseOr
  /-- Takes two values, leaves their bitwise exclusive disjunction. -/
  | bitwiseXor
  /-- Takes two values, leaves the first shifted left. -/
  | leftShift
  /-- Takes two values, leaves the first shifted right with its sign. -/
  | rightShift
  /-- Takes two values, leaves the first shifted right with zeros. -/
  | unsignedRightShift
  /-- Takes a key and an object, leaves whether the key is in the object. -/
  | hasKey
  /-- Takes a value and a constructor, leaves whether the one is an instance of the other. -/
  | instanceOf
  /-- Leaves the top value twice. -/
  | dup
  /-- Leaves the two top values twice. -/
  | dup2
  /-- Takes an object, leaves the member named by a string. -/
  | member
  /-- Takes an object and a value, stores the value in the named member and leaves it. -/
  | setMember
  /-- Takes an object and a key, leaves the element. -/
  | index
  /-- Takes an object, a key and a value, stores the value and leaves it. -/
  | setIndex
  /-- Takes a value, leaves its logical negation. -/
  | logicalNot
  /-- Takes a value, leaves its arithmetic negation. -/
  | negate
  /-- Takes a value, leaves the name of its type. -/
  | typeOf
  /-- Takes a value, leaves its successor. -/
  | increment
  /-- Takes a value, leaves its predecessor. -/
  | decrement
  /-- Copies the top value to the temporary register. -/
  | saveTemporary
  /-- Leaves the value of the temporary register. -/
  | loadTemporary
deriving DecidableEq, Repr, Inhabited

namespace Opcode

/-- All opcodes, in the order of their codes. -/
def all : List Opcode :=
  [pushUndefined, ret, pushNumber, add, pushGlobal, pushString, methodCall, setVariable,
    pushVariable, pushTrue, pushFalse, pushNull, jump, jumpIfTrue, jumpIfFalse, subtract, multiply,
    divide, setGlobal, close, call, setCallee, setArgument, lessThan, lessThanEqual, greaterThan,
    greaterThanEqual, pop, array, modulo, equal, notEqual, strictEqual, strictNotEqual, bitwiseAnd,
    bitwiseOr, bitwiseXor, leftShift, rightShift, unsignedRightShift, hasKey, instanceOf, dup,
    dup2, member, setMember, index, setIndex, logicalNot, negate, typeOf, increment, decrement,
    saveTemporary, loadTemporary]

/-- The code of an opcode is its position in the table. -/
def code (op : Opcode) : UInt32 := op.ctorIdx.toUInt32

/-- The opcode with a given code. -/
def ofCode? (code : UInt32) : Option Opcode := all[code.toNat]?

/-- The name of an opcode in a listing. -/
def mnemonic : Opcode → String
  | pushUndefined => "undefined"
  | ret => "ret"
  | pushNumber => "pushnum"
  | add => "add"
  | pushGlobal => "pushglobal"
  | pushString => "pushstr"
  | methodCall => "methcall"
  | setVariable => "setvar"
  | pushVariable => "pushvar"
  | pushTrue => "true"
  | pushFalse => "false"
  | pushNull => "null"
  | jump => "jmp"
  | jumpIfTrue => "jit"
  | jumpIfFalse => "jif"
  | subtract => "sub"
  | multiply => "mul"
  | divide => "div"
  | setGlobal => "setglobal"
  | close => "close"
  | call => "call"
  | setCallee => "setcallee"
  | setArgument => "setarg"
  | lessThan => "lt"
  | lessThanEqual => "lte"
  | greaterThan => "gt"
  | greaterThanEqual => "gte"
  | pop => "pop"
  | array => "array"
  | modulo => "mod"
  | equal => "eq"
  | notEqual => "neq"
  | strictEqual => "seq"
  | strictNotEqual => "sneq"
  | bitwiseAnd => "band"
  | bitwiseOr => "bor"
  | bitwiseXor => "bxor"
  | leftShift => "shl"
  | rightShift => "shr"
  | unsignedRightShift => "ushr"
  | hasKey => "in"
  | instanceOf => "instanceof"
  | dup => "dup"
  | dup2 => "dup2"
  | member => "member"
  | setMember => "setmember"
  | index => "index"
  | setIndex => "setindex"
  | logicalNot => "not"
  | negate => "neg"
  | typeOf => "typeof"
  | increment => "inc"
  | decrement => "dec"
  | saveTemporary => "tst"
  | loadTemporary => "tld"

/-- How many operand words follow an opcode. -/
def operandWords : Opcode → Nat
  | pushNumber | setVariable | pushVariable | setArgument => 2
  | pushGlobal | pushString | methodCall | jump | jumpIfTrue | jumpIfFalse | setGlobal | close
  | call | setCallee | array | member | setMember => 1
  | _ => 0

/-- Whether the operand of an opcode is a word offset at which execution may continue. -/
def isJump : Opcode → Bool
  | jump | jumpIfTrue | jumpIfFalse => true
  | _ => false

@[simp] theorem ofCode?_code (op : Opcode) : ofCode? op.code = some op := by
  cases op <;> rfl

/-- Codes are positions in the table, so no other code leads to an opcode. -/
theorem code_of_ofCode? {code : UInt32} {op : Opcode} (h : ofCode? code = some op) :
    op.code = code := by
  have table : all.map Opcode.ctorIdx = List.range all.length := by decide
  have hi : (List.range all.length)[code.toNat]? = some op.ctorIdx := by
    rw [← table, List.getElem?_map]
    exact congrArg _ h
  obtain ⟨hlt, hc⟩ := List.getElem?_eq_some_iff.mp hi
  rw [List.getElem_range] at hc
  rw [Opcode.code, ← hc, Nat.toUInt32_eq, UInt32.ofNat_toNat]

theorem operandWords_le_two (op : Opcode) : op.operandWords ≤ 2 := by
  cases op <;> decide

end Opcode

end ScriptCompiler
