/-!
# Scopes

A function's local names live in the slots of one frame, numbered in the order in which the
names are first declared. A name is looked up from the innermost frame outwards; a name that no
frame holds is global.

## Main definitions

* `Scope`: the local names of one function, in slot order
* `Scope.declare`, `Scope.slot?`: adding a name, and its slot
* `ScopeChain`: the scopes of the functions around a point of the program
* `ScopeChain.address?`: the slot of a name and how many frames out it is
-/

namespace ScriptCompiler

/-- **The local names of a function**, without repetition; the slot of a name is its position. -/
structure Scope where
  names : List String := []
deriving DecidableEq, Repr, Inhabited

namespace Scope

/-- How many slots are in use. -/
def size (scope : Scope) : Nat := scope.names.length

/-- Whether no slot is in use. -/
def isEmpty (scope : Scope) : Bool := scope.names.isEmpty

/-- The slot of a name. -/
def slot? (name : String) (scope : Scope) : Option Nat := scope.names.idxOf? name

/-- The slot of a name. A name that has none gets the next one. -/
def declare (name : String) (scope : Scope) : Nat × Scope :=
  match scope.slot? name with
  | some slot => (slot, scope)
  | none => (scope.size, { names := scope.names ++ [name] })

end Scope

/-- **The scopes around a point of the program**, innermost first. -/
structure ScopeChain where
  scopes : List Scope := []
deriving DecidableEq, Repr, Inhabited

namespace ScopeChain

/-- The chain of the top level, where every name is global. -/
def empty : ScopeChain := {}

/-- How many scopes there are. -/
def depth (chain : ScopeChain) : Nat := chain.scopes.length

/-- Whether this is the top level. -/
def isGlobal (chain : ScopeChain) : Bool := chain.scopes.isEmpty

/-- Enters a scope without names. -/
def push (chain : ScopeChain) : ScopeChain := { scopes := {} :: chain.scopes }

/-- Leaves the innermost scope. -/
def pop (chain : ScopeChain) : Option Scope × ScopeChain :=
  (chain.scopes.head?, { scopes := chain.scopes.tail })

/-- Declares a name in the innermost scope. The top level has no slots, and nothing happens. -/
def declare (name : String) (chain : ScopeChain) : Option Nat × ScopeChain :=
  match chain.scopes with
  | [] => (none, chain)
  | scope :: outer =>
    let (slot, scope) := scope.declare name
    (some slot, { scopes := scope :: outer })

/-- The slot of a name in the first of the scopes that holds it, and the number of that scope, where
the first has the number `frames`. -/
def addressFrom? (name : String) (frames : Nat) : List Scope → Option (Nat × Nat)
  | [] => none
  | scope :: outer =>
    match scope.slot? name with
    | some slot => some (slot, frames)
    | none => addressFrom? name (frames + 1) outer

/-- **Lexical addressing.** The slot of a name in the innermost scope that holds it, and how many
frames out that scope is. -/
def address? (name : String) (chain : ScopeChain) : Option (Nat × Nat) :=
  addressFrom? name 0 chain.scopes

end ScopeChain

end ScriptCompiler
