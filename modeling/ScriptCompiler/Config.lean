import ScriptCompiler.Config.Document

/-!
# Configuration

## Main definitions

* `Config`: what can be set about compilation
* `Config.ofText`: the configuration that a document describes
-/

namespace ScriptCompiler

/-- **What can be set about compilation.** -/
structure Config where
  /-- How many levels of nesting are allowed. -/
  maxDepth : Nat := 10000
deriving DecidableEq, Repr, Inhabited

namespace Config

/-- **The configuration that a document describes.** Keys without a meaning here are ignored. -/
def ofText (text : String) : Except ConfigError Config := do
  match (← Document.ofText text).get? ["max_depth"] with
  | none => return {}
  | some (.value (.integer (.ofNat maxDepth))) => return { maxDepth }
  | some _ => throw ⟨"max_depth is not a natural number"⟩

end Config

end ScriptCompiler
