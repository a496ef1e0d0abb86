/-!
# Operators of the language

## Main definitions

* `BinaryOperator`, `LogicalOperator`, `UnaryOperator`, `UpdateOperator`: the operators
* `name`, `ofName?` of each: its name in the written form of a tree
-/

namespace ScriptCompiler

/-- An operator on two values that are both computed. -/
inductive BinaryOperator where
  | add | subtract | multiply | divide | modulo
  | equal | notEqual | strictEqual | strictNotEqual
  | lessThan | lessThanEqual | greaterThan | greaterThanEqual
  | bitwiseAnd | bitwiseOr | bitwiseXor
  | leftShift | rightShift | unsignedRightShift
  | hasKey | instanceOf
deriving DecidableEq, Repr, Inhabited

namespace BinaryOperator

/-- All binary operators. -/
def all : List BinaryOperator :=
  [add, subtract, multiply, divide, modulo, equal, notEqual, strictEqual, strictNotEqual, lessThan,
    lessThanEqual, greaterThan, greaterThanEqual, bitwiseAnd, bitwiseOr, bitwiseXor, leftShift,
    rightShift, unsignedRightShift, hasKey, instanceOf]

/-- The name of an operator. -/
def name : BinaryOperator → String
  | add => "Add"
  | subtract => "Subtract"
  | multiply => "Multiply"
  | divide => "Divide"
  | modulo => "Modulo"
  | equal => "Equal"
  | notEqual => "NotEqual"
  | strictEqual => "StrictEqual"
  | strictNotEqual => "StrictNotEqual"
  | lessThan => "LessThan"
  | lessThanEqual => "LessThanEqual"
  | greaterThan => "GreaterThan"
  | greaterThanEqual => "GreaterThanEqual"
  | bitwiseAnd => "BitwiseAnd"
  | bitwiseOr => "BitwiseOr"
  | bitwiseXor => "BitwiseXor"
  | leftShift => "LeftShift"
  | rightShift => "RightShift"
  | unsignedRightShift => "UnsignedRightShift"
  | hasKey => "In"
  | instanceOf => "InstanceOf"

/-- The operator with a given name. -/
def ofName? (name : String) : Option BinaryOperator := all.find? (·.name == name)

@[simp] theorem ofName?_name (op : BinaryOperator) : ofName? op.name = some op := by
  cases op <;> rfl

end BinaryOperator

/-- An operator that computes its second value only if the first does not settle the result. -/
inductive LogicalOperator where
  | and | or
deriving DecidableEq, Repr, Inhabited

namespace LogicalOperator

/-- The name of an operator. -/
def name : LogicalOperator → String
  | and => "And"
  | or => "Or"

/-- The operator with a given name. -/
def ofName? (name : String) : Option LogicalOperator :=
  [and, or].find? (·.name == name)

@[simp] theorem ofName?_name (op : LogicalOperator) : ofName? op.name = some op := by
  cases op <;> rfl

end LogicalOperator

/-- An operator on one value. -/
inductive UnaryOperator where
  | minus | logicalNot | typeOf
deriving DecidableEq, Repr, Inhabited

namespace UnaryOperator

/-- The name of an operator. -/
def name : UnaryOperator → String
  | minus => "Minus"
  | logicalNot => "LogicalNot"
  | typeOf => "Typeof"

/-- The operator with a given name. -/
def ofName? (name : String) : Option UnaryOperator :=
  [minus, logicalNot, typeOf].find? (·.name == name)

@[simp] theorem ofName?_name (op : UnaryOperator) : ofName? op.name = some op := by
  cases op <;> rfl

end UnaryOperator

/-- A step by one in place. -/
inductive UpdateOperator where
  | increment | decrement
deriving DecidableEq, Repr, Inhabited

namespace UpdateOperator

/-- The name of an operator. -/
def name : UpdateOperator → String
  | increment => "Increment"
  | decrement => "Decrement"

/-- The operator with a given name. -/
def ofName? (name : String) : Option UpdateOperator :=
  [increment, decrement].find? (·.name == name)

@[simp] theorem ofName?_name (op : UpdateOperator) : ofName? op.name = some op := by
  cases op <;> rfl

end UpdateOperator

end ScriptCompiler
