import Std.Data.TreeMap

/-!
# The string pool

Names of globals, names of members and string literals are held once, and code refers to them
by their position in order of first use.

## Main definitions

* `StringPool`: the strings interned so far
* `StringPool.intern`: the position of a string, which is added if it is new
-/

namespace ScriptCompiler

/-- **The strings interned so far**, with an index from a string to its position. -/
structure StringPool where
  /-- The strings, in order of first use. -/
  strings : Array String := #[]
  /-- The position of every string. -/
  index : Std.TreeMap String Nat := ∅
deriving Inhabited

namespace StringPool

/-- The pool without strings. -/
def empty : StringPool := {}

/-- How many strings there are. -/
def size (pool : StringPool) : Nat := pool.strings.size

/-- Whether there is no string. -/
def isEmpty (pool : StringPool) : Bool := pool.strings.isEmpty

/-- The strings, in order of first use. -/
def toList (pool : StringPool) : List String := pool.strings.toList

/-- The position of a string. A string that is not in the pool is added at its end. -/
def intern (text : String) (pool : StringPool) : Nat × StringPool :=
  match pool.index[text]? with
  | some position => (position, pool)
  | none =>
    let position := pool.strings.size
    (position, { strings := pool.strings.push text, index := pool.index.insert text position })

end StringPool

end ScriptCompiler
