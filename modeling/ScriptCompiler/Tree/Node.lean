import ScriptCompiler.Binary64
import ScriptCompiler.Tree.Operator

/-!
# Syntax trees

One type of node serves for statements and expressions: a tree comes from outside and may have
any node in any place, and it is the compiler that says which places are wrong.

## Main definitions

* `Node`: a node of a syntax tree
* `Node.kind`: the name of a node's kind, as error texts and the written form give it
* `Node.isExpression`: whether a node can stand where a value is needed
* `Node.isMethod`: whether calling a node calls a method of an object
* `Program`: a list of statements
-/

namespace ScriptCompiler

/-- **A node of a syntax tree.** -/
inductive Node where
  /-- Declares a name, with an initial value or without. -/
  | declaration (name : String) (init : Option Node)
  /-- A function, which has its own name in scope if it has one. -/
  | function (name : Option String) (params : List String) (body : List Node)
  /-- Leaves the function with a value, or with undefined. -/
  | ret (argument : Option Node)
  /-- A choice between two statements, the second of which may be missing. -/
  | ifElse (test consequent : Node) (alternate : Option Node)
  /-- A loop with three optional parts in its head. -/
  | forLoop (init test update : Option Node) (body : Node)
  /-- A loop with a condition. -/
  | whileLoop (test body : Node)
  /-- Leaves the innermost loop. -/
  | breakLoop
  /-- Goes on with the next round of the innermost loop. -/
  | continueLoop
  /-- Statements in sequence. -/
  | block (statements : List Node)
  /-- The value of a name. -/
  | ident (name : String)
  /-- A number literal. -/
  | number (value : Binary64)
  /-- A string literal. -/
  | string (value : String)
  /-- A truth value. -/
  | boolean (value : Bool)
  /-- The null value. -/
  | null
  /-- The undefined value. -/
  | undefined
  /-- An array of given elements. -/
  | array (elements : List Node)
  /-- A member of an object, by name. -/
  | member (object : Node) (property : String)
  /-- An element of an object, by a computed key. -/
  | index (object key : Node)
  /-- A call; calling a member or an element calls a method of the object. -/
  | call (callee : Node) (arguments : List Node)
  /-- Stores a value. -/
  | assign (target value : Node)
  /-- An operator applied to two values. -/
  | binary (operator : BinaryOperator) (left right : Node)
  /-- An operator applied to a place's value and another, the result stored in the place. -/
  | compound (operator : BinaryOperator) (target value : Node)
  /-- A value that may settle the result, and another for when it does not. -/
  | logical (operator : LogicalOperator) (left right : Node)
  /-- An operator applied to one value. -/
  | unary (operator : UnaryOperator) (argument : Node)
  /-- A step by one in place; the result is the new value if the operator stands before the place,
  and the old one if it stands after. -/
  | update (operator : UpdateOperator) (before : Bool) (argument : Node)
  /-- A choice between two values. -/
  | conditional (test consequent alternate : Node)
  /-- Values computed in sequence, of which the last is the result. -/
  | sequence (expressions : List Node)
  /-- A construct of a named kind that the language does not have. -/
  | unsupported (kind : String)
deriving Inhabited

namespace Node

/-- The name of a node's kind. A construct that the language does not have names its own. -/
def kind : Node → String
  | declaration .. => "Declaration"
  | function .. => "Function"
  | ret .. => "Return"
  | ifElse .. => "If"
  | forLoop .. => "ForLoop"
  | whileLoop .. => "While"
  | breakLoop => "Break"
  | continueLoop => "Continue"
  | block .. => "Body"
  | ident .. => "Variable"
  | number .. => "Number"
  | string .. => "String"
  | boolean true => "True"
  | boolean false => "False"
  | null => "Null"
  | undefined => "Undefined"
  | array .. => "Array"
  | member .. => "Member"
  | index .. => "Index"
  | call .. => "Call"
  | assign .. => "Assignment"
  | binary .. | compound .. => "Binary"
  | logical .. => "Logical"
  | unary .. => "Unary"
  | update .. => "Update"
  | conditional .. => "Conditional"
  | sequence .. => "MultiExpression"
  | unsupported kind => kind

/-- Whether a node can stand where a value is needed. -/
def isExpression : Node → Bool
  | declaration .. | ret .. | ifElse .. | forLoop .. | whileLoop .. | breakLoop | continueLoop
  | block .. | unsupported .. => false
  | _ => true

/-- Whether calling a node calls a method of an object. -/
def isMethod : Node → Bool
  | member .. | index .. => true
  | _ => false

end Node

/-- **A program** is a list of statements. -/
structure Program where
  body : List Node := []
deriving Inhabited

end ScriptCompiler
