import ScriptCompiler.Proofs.Machine
import ScriptCompiler.Proofs.Pending

/-!
# The meaning of a program

A reference evaluator of syntax trees over a runtime. Operands are evaluated from left to right,
the object and the key of a target once, and names are looked up lexically. Statements run
structurally: loops by rounds, and what leaves a loop or a function by its outcome. A function is
a closure over its section, so the evaluator counts sections: those of the functions declared in a
body come first, and those of literals follow in the order of the source.

## Main definitions

* `Runtime.value`: the value of an expression
* `Outcome`: how a statement ends
* `Runtime.exec`: the outcome of a statement, if its loops end within a number of rounds
* `Segment.eval`: the value that a section returns
-/

namespace ScriptCompiler

/-- How many sections the code of a statement opens, those of the functions that it declares
apart. -/
def Node.statementSections (node : Node) : Nat := sectionsOf node.ownLiterals

/-- A place that can be read and written, with its object and its key evaluated. -/
inductive Reference (Value : Type) where
  | name (name : String)
  | member (object : Value) (property : String)
  | element (object key : Value)

/-- How a statement ends. -/
inductive Outcome (Value : Type) where
  /-- The statement after it is next. -/
  | normal
  /-- The innermost loop is left. -/
  | broke
  /-- The innermost loop goes on with its next round. -/
  | continued
  /-- The function is left with a value. -/
  | returned (value : Value)

/-- An action that always ends, among those that may not. -/
def certainly {Store α : Type} (action : StateM Store α) : StateT Store Option α :=
  fun store => some (action store)

namespace Runtime

variable {Store Value : Type} (R : Runtime Store Value) (chain : List (List String))

/-! ## Places -/

/-- The value of a name. -/
def load (name : String) : StateM Store Value :=
  match lexical chain name with
  | some (slot, frames) => R.loadVariable slot frames
  | none => R.loadGlobal name

/-- Stores a value under a name. -/
def store (name : String) (value : Value) : StateM Store Unit :=
  match lexical chain name with
  | some (slot, frames) => R.storeVariable slot frames value
  | none => R.storeGlobal name value

/-- The value of a place. -/
def get : Reference Value → StateM Store Value
  | .name name => R.load chain name
  | .member object property => R.member object property
  | .element object key => R.index object key

/-- Stores a value in a place. -/
def set : Reference Value → Value → StateM Store Unit
  | .name name, value => R.store chain name value
  | .member object property, value => R.setMember object property value
  | .element object key, value => R.setIndex object key value

/-! ## Expressions -/

mutual

/-- **The value of an expression**, where `next` is the section of the first function literal in
it. -/
def value : Node → (next : Nat) → StateM Store Value
  | .ident name, _ => R.load chain name
  | .number value, _ => return R.constant (.number value)
  | .string value, _ => return R.constant (.string value)
  | .boolean value, _ => return R.constant (.boolean value)
  | .null, _ => return R.constant .null
  | .undefined, _ => return R.constant .undefined
  | .function .., next => R.close next
  | .array elements, next => do
    let elements ← values elements next
    R.array elements
  | .member object property, next => do
    let object ← value object next
    R.member object property
  | .index object key, next => do
    let base ← value object next
    let key ← value key (next + object.sections)
    R.index base key
  | .call (.member object property) arguments, next => do
    let base ← value object next
    let arguments ← values arguments (next + object.sections)
    R.methodCall base (R.constant (.string property)) arguments
  | .call (.index object key) arguments, next => do
    let base ← value object next
    let name ← value key (next + object.sections)
    let arguments ← values arguments (next + object.sections + key.sections)
    R.methodCall base name arguments
  | .call callee arguments, next => do
    let function ← value callee next
    let arguments ← values arguments (next + callee.sections)
    R.call function arguments
  | .assign target source, next => do
    let place ← reference target next
    let new ← value source (next + target.sections)
    R.set chain place new
    return new
  | .compound operator target source, next => do
    let place ← reference target next
    let old ← R.get chain place
    let operand ← value source (next + target.sections)
    let new ← R.binary operator old operand
    R.set chain place new
    return new
  | .update operator before target, next => do
    let place ← reference target next
    let old ← R.get chain place
    let new ← R.update operator old
    R.set chain place new
    return if before then new else old
  | .binary operator left right, next => do
    let first ← value left next
    let second ← value right (next + left.sections)
    R.binary operator first second
  | .unary operator argument, next => do
    let argument ← value argument next
    R.unary operator argument
  | .logical .and left right, next => do
    let first ← value left next
    if R.truthy first then value right (next + left.sections) else return first
  | .logical .or left right, next => do
    let first ← value left next
    if R.truthy first then return first else value right (next + left.sections)
  | .conditional test consequent alternate, next => do
    let choice ← value test next
    if R.truthy choice then value consequent (next + test.sections)
    else value alternate (next + test.sections + consequent.sections)
  | .sequence expressions, next => lastValue expressions next
  | _, _ => return R.constant .undefined

/-- The place that a target stands for. -/
def reference : Node → (next : Nat) → StateM Store (Reference Value)
  | .member object property, next => do
    let object ← value object next
    return .member object property
  | .index object key, next => do
    let base ← value object next
    let key ← value key (next + object.sections)
    return .element base key
  | .ident name, _ => return .name name
  | _, _ => return .name ""

/-- The values of expressions, from left to right. -/
def values : List Node → (next : Nat) → StateM Store (List Value)
  | [], _ => return []
  | node :: rest, next => do
    let first ← value node next
    let others ← values rest (next + node.sections)
    return first :: others

/-- The value of the last of expressions that are evaluated from left to right. -/
def lastValue : List Node → (next : Nat) → StateM Store Value
  | [], _ => return R.constant .undefined
  | [node], next => value node next
  | node :: rest, next => do
    let _ ← value node next
    lastValue rest (next + node.sections)

end

/-- Whether the value of an expression is truthy; a test that is missing holds. -/
def test (node : Option Node) (next : Nat) : StateM Store Bool :=
  match node with
  | none => return true
  | some node => do
    let choice ← R.value chain node next
    return R.truthy choice

/-- Evaluates an expression, if there is one, and drops its value. -/
def drop (node : Option Node) (next : Nat) : StateM Store Unit :=
  match node with
  | none => return
  | some node => do
    let _ ← R.value chain node next

/-! ## Statements -/

/-- A statement and what comes after it. -/
def andThen (first second : StateT Store Option (Outcome Value)) :
    StateT Store Option (Outcome Value) := do
  match ← first with
  | .normal => second
  | outcome => return outcome

/-- **The rounds of a loop**, unless there are more of them than given. -/
def loop (test : StateM Store Bool) (body : StateT Store Option (Outcome Value))
    (step : StateM Store Unit) : (rounds : Nat) → StateT Store Option (Outcome Value)
  | 0 => fun _ => none
  | rounds + 1 => do
    if ← certainly test then
      match ← body with
      | .normal | .continued => do
        certainly step
        loop test body step rounds
      | .broke => return .normal
      | .returned value => return .returned value
    else return .normal

mutual

/-- **The outcome of a statement**, unless one of its loops goes on for more rounds than given.
The first function literal in it has section `next`, and the functions that it declares have the
first of the sections `pending`. -/
def exec (rounds : Nat) :
    Node → (next : Nat) → (pending : List Nat) → StateT Store Option (Outcome Value)
  | .declaration _ none, _, _ => return .normal
  | .declaration name (some source), next, _ => do
    let value ← certainly (R.value chain source next)
    certainly (R.store chain name value)
    return .normal
  | .ret none, _, _ => return .returned (R.constant .undefined)
  | .ret (some argument), next, _ => do
    let value ← certainly (R.value chain argument next)
    return .returned value
  | .ifElse test consequent none, next, pending => do
    if ← certainly (R.test chain (some test) next) then
      exec rounds consequent (next + test.sections) pending
    else return .normal
  | .ifElse test consequent (some alternate), next, pending => do
    if ← certainly (R.test chain (some test) next) then
      exec rounds consequent (next + test.sections) pending
    else
      exec rounds alternate (next + test.sections + consequent.statementSections)
        (pending.drop consequent.declared.length)
  | .forLoop none test step body, next, pending =>
    let inside := next + sectionsOf (Node.literalsOptional test)
    loop (R.test chain test next) (exec rounds body inside pending)
      (R.drop chain step (inside + body.statementSections)) rounds
  | .forLoop (some init) test step body, next, pending =>
    let first := next + init.statementSections
    let inside := first + sectionsOf (Node.literalsOptional test)
    andThen (exec rounds init next pending)
      (loop (R.test chain test first)
        (exec rounds body inside (pending.drop init.declared.length))
        (R.drop chain step (inside + body.statementSections)) rounds)
  | .whileLoop test body, next, pending =>
    loop (R.test chain (some test) next) (exec rounds body (next + test.sections) pending)
      (pure ()) rounds
  | .breakLoop, _, _ => return .broke
  | .continueLoop, _, _ => return .continued
  | .block statements, next, pending => execAll rounds statements next pending
  | .function (some _) _ _, _, pending => do
    let _ ← certainly (R.close (pending.headD 0))
    return .normal
  | expression, next, _ => do
    let _ ← certainly (R.value chain expression next)
    return .normal

/-- The outcome of statements in sequence. -/
def execAll (rounds : Nat) :
    List Node → (next : Nat) → (pending : List Nat) → StateT Store Option (Outcome Value)
  | [], _, _ => return .normal
  | node :: rest, next, pending =>
    andThen (exec rounds node next pending)
      (execAll rounds rest (next + node.statementSections)
        (pending.drop node.declared.length))

end

/-! ## Sections -/

/-- Binds functions that are compiled one after the other to their names, where `next` is the
section of the first. -/
def bindAll : List Routine → (next : Nat) → StateM Store Unit
  | [], _ => return
  | r :: rest, next => do
    let function ← R.close next
    r.name.toList.forM fun name => R.store chain name function
    bindAll rest (next + r.sections)

/-- Binds the name of a function and its parameters to their slots. -/
def enter (r : Routine) : StateM Store Unit := do
  r.name.toList.forM fun name => R.setCallee (r.locals.idxOf name)
  r.params.zipIdx.forM fun (param, position) => R.setArgument (r.locals.idxOf param) position

end Runtime

namespace Segment

variable {Store Value : Type} (R : Runtime Store Value)

/-- What a section starts with. -/
def enter : Segment → StateM Store Unit
  | .top _ => return
  | .function _ r => R.enter r

/-- The outcome of a section, which starts with binding the functions that are declared in it. -/
def exec (rounds : Nat) (id : Nat) (segment : Segment) : StateT Store Option (Outcome Value) := do
  let declared := declaredIn segment.body
  certainly (segment.enter R)
  certainly (R.bindAll segment.chain declared (id + 1))
  R.execAll segment.chain rounds segment.body (id + 1 + sectionsOf declared)
    (starts (id + 1) declared)

/-- **The value that a section returns**, unless one of its loops goes on for more rounds than
given. -/
def eval (rounds : Nat) (id : Nat) (segment : Segment) : StateT Store Option Value := do
  match ← segment.exec R rounds id with
  | .returned value => return value
  | _ => return R.constant .undefined

end Segment

end ScriptCompiler
