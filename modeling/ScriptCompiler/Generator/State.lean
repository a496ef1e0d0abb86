import Std.Data.TreeMap
import ScriptCompiler.CompileError
import ScriptCompiler.Scope
import ScriptCompiler.Sections
import ScriptCompiler.StringPool

/-!
# The state of code generation

Code generation walks the tree and writes sections as it goes. Its state is what the walk has
produced so far and what it has to know about the place where it is: the scopes and loops around
it and how deeply it is nested. A function is compiled once, so the section of every function that
has been compiled is recorded under the path to the function.

## Main definitions

* `Path`: where a node stands
* `Loop`: where the jumps of a loop go
* `State`: the state of code generation
* `Generator`: a step of code generation, which may fail
-/

namespace ScriptCompiler

/-- **Where a node stands**: its position under the node around it, the position of that one under
the next, and so on up to a statement at the top level. -/
abbrev Path := List Nat

/-- Where the jumps of a loop go. -/
structure Loop where
  /-- The start of the next round. -/
  next : Label
  /-- The end of the loop. -/
  done : Label
deriving DecidableEq, Repr, Inhabited

/-- **The state of code generation.** -/
structure State where
  /-- The sections written so far. -/
  sections : Sections := .empty
  /-- The strings interned so far. -/
  strings : StringPool := .empty
  /-- The scopes of the functions around the current place. -/
  scopes : ScopeChain := .empty
  /-- The loops around the current place in its function, innermost first. -/
  loops : List Loop := []
  /-- How many labels have been handed out. -/
  labels : Nat := 0
  /-- How many levels of nesting are around the current place. -/
  depth : Nat := 0
  /-- The section of every function that has been compiled. -/
  functions : Std.TreeMap Path SectionId := ∅
deriving Inhabited

/-- **A step of code generation**, which may fail. -/
abbrev Generator := StateT State (Except CompileError)

end ScriptCompiler
