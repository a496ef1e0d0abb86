import ScriptCompiler.Generator.Emission

/-!
# Steps in a context

Steps of code generation that run another step one level deeper, inside a loop, or inside a
function, and restore the context afterwards.

## Main definitions

* `nested`: a step one level deeper
* `inLoop`, `emitBreak`, `emitContinue`: a step inside a loop, and the jumps of the loop
* `inSection`, `inFunction`: a step that writes a section of its own
* `closeFunction`: a closure over a function, which is compiled only once
-/

namespace ScriptCompiler

namespace Generator

/-- Runs a step one level deeper, if the limit allows it. -/
@[inline] def nested (limit : Nat) (step : Generator Unit) : Generator Unit := do
  let outer ← get
  if limit ≤ outer.depth then throw (.nestingTooDeep limit)
  else do
    set { outer with depth := outer.depth + 1 }
    step
    modify fun s => { s with depth := s.depth - 1 }

/-! ## Loops -/

/-- Runs a step inside a loop. -/
@[inline] def inLoop (loop : Loop) (step : Generator Unit) : Generator Unit := do
  modify fun s => { s with loops := loop :: s.loops }
  step
  modify fun s => { s with loops := s.loops.tail }

/-- Emits a jump out of the innermost loop. -/
def emitBreak : Generator Unit := do
  match (← get).loops with
  | loop :: _ => emitJump .jump loop.done
  | [] => throw (.jumpOutsideLoop "break")

/-- Emits a jump to the next round of the innermost loop. -/
def emitContinue : Generator Unit := do
  match (← get).loops with
  | loop :: _ => emitJump .jump loop.next
  | [] => throw (.jumpOutsideLoop "continue")

/-! ## Functions -/

/-- Runs a step in a section of its own. -/
@[inline] def inSection (step : Generator Unit) : Generator SectionId := do
  let id ← modifyGet fun s =>
    let (id, sections) := s.sections.start
    (id, { s with sections })
  step
  modify fun s => { s with sections := s.sections.leave.2 }
  return id

/-- Binds the running function to a slot of its own name, if it has one. -/
def bindCallee : Option String → Generator Unit
  | none => pure ()
  | some name => do
    let slot ← declare name
    emitUnary .setCallee (slot.getD 0)

/-- Binds the arguments from the given position on to the slots of their parameters. -/
def bindArguments (position : Nat) : (params : List String) → Generator Unit
  | [] => pure ()
  | param :: rest => do
    let slot ← declare param
    emitBinary .setArgument (slot.getD 0) position
    bindArguments (position + 1) rest

/-- Runs `body` inside a function: in a section and a scope of its own, outside of all loops, and
after its name and its parameters have been bound. -/
@[inline] def inFunction (name : Option String) (params : List String) (body : Generator Unit) :
    Generator SectionId :=
  inSection do
    let outer ← get
    set { outer with scopes := outer.scopes.push, loops := [] }
    bindCallee name
    bindArguments 0 params
    body
    emitEnd
    modify fun s => { s with scopes := s.scopes.pop.2, loops := outer.loops }

/-- Emits a closure over the function at `path`. If the function has been compiled, its section is
known. Otherwise it is compiled, its section is recorded, and `bind` follows the closure. -/
@[inline] def closeFunction (path : Path) (compile : Generator SectionId)
    (bind : Generator Unit) : Generator Unit := do
  match (← get).functions[path]? with
  | some id => emitUnary .close id
  | none => do
    let id ← compile
    modify fun s => { s with functions := s.functions.insert path id }
    emitUnary .close id
    bind

end Generator

end ScriptCompiler
