import ScriptCompiler.Binary64

/-!
# JSON values

The written form of a syntax tree is a JSON value. Numbers are doubles here, whatever numeral
they were written with.

## Main definitions

* `Json`: a JSON value
* `Json.ofBinary64`: a number, or null if it is not finite
* `Json.ofOption`: a value that may be absent
-/

namespace ScriptCompiler

/-- **A JSON value.** The fields of an object are in the order in which they were written. -/
inductive Json where
  | null
  | boolean (value : Bool)
  | number (value : Binary64)
  | string (value : String)
  | array (elements : List Json)
  | object (fields : List (String × Json))
deriving Inhabited

namespace Json

/-- A number as a JSON value; null stands for an infinity or a NaN, which have no numeral. -/
def ofBinary64 (value : Binary64) : Json := if value.IsFinite then number value else null

/-- An optional value, where null stands for absence. -/
def ofOption {α : Type} (toJson : α → Json) : Option α → Json
  | none => null
  | some value => toJson value

end Json

end ScriptCompiler
