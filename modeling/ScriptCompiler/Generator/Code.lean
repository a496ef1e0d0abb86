import ScriptCompiler.Generator.Context
import ScriptCompiler.Generator.Place
import ScriptCompiler.Tree.Node

/-!
# The code of a node

Every expression leaves exactly one value on the stack, and every statement none. The names of
a body are bound before its statements run. That takes two walks over the statements besides
the one that writes their code: the first declares all names of the body, the second compiles
the functions declared there and binds them. Both go through blocks, branches and loops, but not
into other functions.

The nodes whose code a construct needs have fixed positions under it, which grow in the order of
their code. What is called as a method or assigned to is looked through: its object and its key have
positions, but it has none itself.

## Main definitions

* `declareNames`: declares the names of a statement
* `asValue`, `asStatement`: the code of a node where a value, or a statement, is needed
* `code`: the code of a node
* `bindFunctions`: compiles and binds the functions declared in a statement
-/

namespace ScriptCompiler

namespace Generator

mutual

/-- Declares the names of a statement. -/
def declareNames (limit : Nat) : Node → Generator Unit
  | .declaration name _ => nested limit (discard (declare name))
  | .function (some name) _ _ => nested limit (discard (declare name))
  | .block statements => nested limit (declareAll limit statements)
  | .ifElse _ consequent alternate => nested limit do
    declareNames limit consequent
    declareOptional limit alternate
  | .forLoop init _ _ body => nested limit do
    declareOptional limit init
    declareNames limit body
  | .whileLoop _ body => nested limit (declareNames limit body)
  | _ => nested limit (pure ())

/-- Declares the names of a statement that may be missing. -/
def declareOptional (limit : Nat) : Option Node → Generator Unit
  | none => pure ()
  | some node => declareNames limit node

/-- Declares the names of statements in sequence. -/
def declareAll (limit : Nat) : List Node → Generator Unit
  | [] => pure ()
  | node :: rest => do
    declareNames limit node
    declareAll limit rest

end

/-- Runs the code of a node where a value is needed. -/
@[inline] def asValue (limit : Nat) (node : Node) (code : Generator Unit) : Generator Unit :=
  if node.isExpression then nested limit code else throw (.unsupportedConstruct node.kind)

/-- Runs the code of a node in statement position. The value of an expression is dropped. -/
@[inline] def asStatement (limit : Nat) (node : Node) (code : Generator Unit) : Generator Unit :=
  nested limit <|
    if node.isExpression then do
      nested limit code
      emitPlain .pop
    else code

mutual

/-- **The code of a node** that stands at `path`. -/
def code (limit : Nat) (path : Path) : Node → Generator Unit
  | .declaration name init =>
    optionalValue limit (0 :: path) (pure ()) (do store name; emitPlain .pop) init
  | .function name params body =>
    closeFunction path
      (inFunction name params do
        declareAll limit body
        bindAll limit path 0 body
        statements limit path 0 body)
      (pure ())
  | .ret argument => do
    optionalValue limit (0 :: path) (emitPlain .pushUndefined) (pure ()) argument
    emitPlain .ret
  | .ifElse test consequent alternate => do
    let otherwise ← freshLabel
    asValue limit test (code limit (0 :: path) test)
    emitJump .jumpIfFalse otherwise
    asStatement limit consequent (code limit (1 :: path) consequent)
    elseBranch limit (2 :: path) otherwise alternate
  | .forLoop init test update body => do
    optionalStatement limit (0 :: path) init
    let start ← freshLabel
    let next ← freshLabel
    let done ← freshLabel
    define start
    optionalValue limit (1 :: path) (pure ()) (emitJump .jumpIfFalse done) test
    inLoop ⟨next, done⟩ do
      asStatement limit body (code limit (2 :: path) body)
      define next
      optionalValue limit (3 :: path) (pure ()) (emitPlain .pop) update
      emitJump .jump start
      define done
  | .whileLoop test body => do
    let start ← freshLabel
    let done ← freshLabel
    define start
    asValue limit test (code limit (0 :: path) test)
    emitJump .jumpIfFalse done
    inLoop ⟨start, done⟩ do
      asStatement limit body (code limit (1 :: path) body)
      emitJump .jump start
      define done
  | .breakLoop => emitBreak
  | .continueLoop => emitContinue
  | .block body => statements limit path 0 body
  | .ident name => load name
  | .number value => emitNumber value
  | .string value => emitString .pushString value
  | .boolean value => emitPlain (if value then .pushTrue else .pushFalse)
  | .null => emitPlain .pushNull
  | .undefined => emitPlain .pushUndefined
  | .array elements => do
    values limit path 0 elements
    emitUnary .array elements.length
  | .member object property => do
    asValue limit object (code limit (0 :: path) object)
    emitString .member property
  | .index object key => do
    asValue limit object (code limit (0 :: path) object)
    asValue limit key (code limit (1 :: path) key)
    emitPlain .index
  | .call callee arguments =>
    if callee.isMethod then do
      method limit path callee
      values limit path 2 arguments
      emitUnary .methodCall arguments.length
    else do
      asValue limit callee (code limit (0 :: path) callee)
      values limit path 2 arguments
      emitUnary .call arguments.length
  | .assign target value => do
    let place ← reach limit path target
    asValue limit value (code limit (2 :: path) value)
    place.store
  | .binary operator left right => do
    asValue limit left (code limit (0 :: path) left)
    asValue limit right (code limit (1 :: path) right)
    emitPlain operator.opcode
  | .compound operator target value => do
    let place ← reach limit path target
    place.fetch
    asValue limit value (code limit (2 :: path) value)
    emitPlain operator.opcode
    place.store
  | .logical operator left right => do
    let done ← freshLabel
    asValue limit left (code limit (0 :: path) left)
    emitPlain .dup
    emitJump operator.opcode done
    emitPlain .pop
    asValue limit right (code limit (1 :: path) right)
    define done
  | .unary operator argument => do
    asValue limit argument (code limit (0 :: path) argument)
    emitPlain operator.opcode
  | .update operator before target => do
    let place ← reach limit path target
    place.update operator.opcode before
  | .conditional test consequent alternate => do
    let otherwise ← freshLabel
    let done ← freshLabel
    asValue limit test (code limit (0 :: path) test)
    emitJump .jumpIfFalse otherwise
    asValue limit consequent (code limit (1 :: path) consequent)
    emitJump .jump done
    define otherwise
    asValue limit alternate (code limit (2 :: path) alternate)
    define done
  | .sequence expressions => sequence limit path 0 expressions
  | .unsupported kind => throw (.unsupportedConstruct kind)

/-- The code of a value that may be missing: `absent` if it is, and otherwise the value followed by
`present`. -/
def optionalValue (limit : Nat) (path : Path) (absent present : Generator Unit) :
    Option Node → Generator Unit
  | none => absent
  | some node => do
    asValue limit node (code limit path node)
    present

/-- The code of a statement that may be missing. -/
def optionalStatement (limit : Nat) (path : Path) : Option Node → Generator Unit
  | none => pure ()
  | some node => asStatement limit node (code limit path node)

/-- The end of a choice between statements, from where the first of them ends. The label is where
execution goes if the first is not chosen. -/
def elseBranch (limit : Nat) (path : Path) (otherwise : Label) : Option Node → Generator Unit
  | none => define otherwise
  | some node => do
    let done ← freshLabel
    emitJump .jump done
    define otherwise
    asStatement limit node (code limit path node)
    define done

/-- The code of the object and the key of a method that is called at `path`. -/
def method (limit : Nat) (path : Path) : Node → Generator Unit
  | .member object property => do
    asValue limit object (code limit (0 :: path) object)
    emitString .pushString property
  | .index object key => do
    asValue limit object (code limit (0 :: path) object)
    asValue limit key (code limit (1 :: path) key)
  | _ => pure ()

/-- The code of the object and the key of a place that is assigned to at `path`. -/
def reach (limit : Nat) (path : Path) : Node → Generator Place
  | .ident name => pure (.ident name)
  | .member object property => do
    asValue limit object (code limit (0 :: path) object)
    pure (.member property)
  | .index object key => do
    asValue limit object (code limit (0 :: path) object)
    asValue limit key (code limit (1 :: path) key)
    pure .index
  | node => throw (.invalidTarget node.kind)

/-- The code of values under `path`, all of which stay on the stack. The first is at the given
position. -/
def values (limit : Nat) (path : Path) (position : Nat) : List Node → Generator Unit
  | [] => pure ()
  | node :: rest => do
    asValue limit node (code limit (position :: path) node)
    values limit path (position + 1) rest

/-- The code of values of which only the last stays on the stack; without any it is undefined. -/
def sequence (limit : Nat) (path : Path) (position : Nat) : List Node → Generator Unit
  | [] => emitPlain .pushUndefined
  | [node] => asValue limit node (code limit (position :: path) node)
  | node :: rest => do
    asValue limit node (code limit (position :: path) node)
    emitPlain .pop
    sequence limit path (position + 1) rest

/-- The code of statements in sequence. -/
def statements (limit : Nat) (path : Path) (position : Nat) : List Node → Generator Unit
  | [] => pure ()
  | node :: rest => do
    asStatement limit node (code limit (position :: path) node)
    statements limit path (position + 1) rest

/-- Compiles the functions declared in a statement and binds them to their names. -/
def bindFunctions (limit : Nat) (path : Path) : Node → Generator Unit
  | .function (some name) params body =>
    closeFunction path
      (inFunction (some name) params do
        declareAll limit body
        bindAll limit path 0 body
        statements limit path 0 body)
      (do store name; emitPlain .pop)
  | .block body => bindAll limit path 0 body
  | .ifElse _ consequent alternate => do
    bindFunctions limit (1 :: path) consequent
    bindOptional limit (2 :: path) alternate
  | .forLoop init _ _ body => do
    bindOptional limit (0 :: path) init
    bindFunctions limit (2 :: path) body
  | .whileLoop _ body => bindFunctions limit (1 :: path) body
  | _ => pure ()

/-- Compiles and binds the functions declared in a statement that may be missing. -/
def bindOptional (limit : Nat) (path : Path) : Option Node → Generator Unit
  | none => pure ()
  | some node => bindFunctions limit path node

/-- Compiles and binds the functions declared in statements in sequence. -/
def bindAll (limit : Nat) (path : Path) (position : Nat) : List Node → Generator Unit
  | [] => pure ()
  | node :: rest => do
    bindFunctions limit (position :: path) node
    bindAll limit path (position + 1) rest

end

end Generator

end ScriptCompiler
