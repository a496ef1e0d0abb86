import ScriptCompiler.Layout

/-!
# Errors of compilation

Compilation stops at the first error, and there is no image then.

## Main definitions

* `CompileError`: why a program does not compile
* `CompileError.message`: the text of an error
-/

namespace ScriptCompiler

/-- **Why a program does not compile.** -/
inductive CompileError where
  /-- A construct that the language does not have, or a statement where a value is needed. -/
  | unsupportedConstruct (kind : String)
  /-- What is assigned to is neither a name nor a member nor an element. -/
  | invalidTarget (kind : String)
  /-- A jump to a label that its section does not define. -/
  | unresolvedLabel (error : UnresolvedLabel)
  /-- The tree is nested more deeply than allowed. -/
  | nestingTooDeep (limit : Nat)
  /-- A jump out of a loop or to its next round, with no loop around it in its function. -/
  | jumpOutsideLoop (keyword : String)
deriving DecidableEq, Repr

/-- The text of an error. -/
def CompileError.message : CompileError → String
  | unsupportedConstruct kind => "unsupported construct: " ++ kind
  | invalidTarget kind => "bad assignment target: " ++ kind
  | unresolvedLabel error => error.message
  | nestingTooDeep limit => s!"nesting depth exceeds the limit of {limit}"
  | jumpOutsideLoop keyword => s!"`{keyword}` outside of a loop"

end ScriptCompiler
