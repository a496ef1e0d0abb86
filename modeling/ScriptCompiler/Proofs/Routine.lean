import ScriptCompiler.Proofs.Interning
import ScriptCompiler.Tree.Node

/-!
# The functions of a program

A function declares names: its own, its parameters, and the names that the statements of its body
declare, also inside blocks, branches and loops, but not inside other functions. The functions that
stand in a body are of two kinds: those declared by name are bound before the body runs, and the
others are literals.

## Main definitions

* `Routine`: a function of a program
* `Node.declarations`: the names that a statement declares, and the functions bound to them
* `Node.isDeclaredFunction`: whether a node in statement position binds a function to a name
* `Node.literals`: the function literals in the code of a node
* `Routine.locals`: the local names of a function, in the order of their slots
* `lexical`: the address of a name, given the local names of the functions around it

## Main results

* `lexical_eq_some_iff`: the address is in the innermost function that has the name
* `ScopeChain.address?_eq`: scopes that hold the local names give lexical addresses
-/

namespace ScriptCompiler

/-- **A function of a program.** -/
structure Routine where
  name : Option String
  params : List String
  body : List Node

namespace Node

mutual

/-- The names that a statement declares, in the order of the source, and the functions that are
bound to them. -/
def declarations : Node → List (String × Option Routine)
  | declaration name _ => [(name, none)]
  | function (some name) params body => [(name, some ⟨some name, params, body⟩)]
  | block statements => declarationsAll statements
  | ifElse _ consequent none => consequent.declarations
  | ifElse _ consequent (some alternate) => consequent.declarations ++ alternate.declarations
  | forLoop none _ _ body => body.declarations
  | forLoop (some init) _ _ body => init.declarations ++ body.declarations
  | whileLoop _ body => body.declarations
  | _ => []

/-- The declarations of statements in sequence. -/
def declarationsAll : List Node → List (String × Option Routine)
  | [] => []
  | node :: rest => node.declarations ++ declarationsAll rest

end

/-- Whether a node, in statement position, is a function bound to its name before the statements
around it run. -/
def isDeclaredFunction : Node → Bool
  | function (some _) .. => true
  | _ => false

/-- The functions of a node in statement position that are not bound beforehand, given those of the
node in other positions. -/
def unlessDeclared (node : Node) (routines : List Routine) : List Routine :=
  if node.isDeclaredFunction then [] else routines

mutual

/-- **The function literals in the code of a node**, in the order of the source: functions in its
values and its statements, neither declared by name nor inside other functions. -/
def literals : Node → List Routine
  | declaration _ none | ret none => []
  | declaration _ (some value) | ret (some value) => value.literals
  | function name params body => [⟨name, params, body⟩]
  | ifElse test consequent none => test.literals ++ unlessDeclared consequent consequent.literals
  | ifElse test consequent (some alternate) =>
    test.literals ++ unlessDeclared consequent consequent.literals ++
      unlessDeclared alternate alternate.literals
  | forLoop init test step body =>
    initLiterals init ++ literalsOptional test ++ unlessDeclared body body.literals ++
      literalsOptional step
  | whileLoop test body => test.literals ++ unlessDeclared body body.literals
  | block statements => statementLiterals statements
  | array elements => literalsAll elements
  | member object _ => object.literals
  | index object key => object.literals ++ key.literals
  | call callee arguments => callee.literals ++ literalsAll arguments
  | assign (ident _) value | compound _ (ident _) value => value.literals
  | assign (member object _) value | compound _ (member object _) value =>
    object.literals ++ value.literals
  | assign (index object key) value | compound _ (index object key) value =>
    object.literals ++ key.literals ++ value.literals
  | binary _ left right | logical _ left right => left.literals ++ right.literals
  | unary _ argument => argument.literals
  | update _ _ (member object _) => object.literals
  | update _ _ (index object key) => object.literals ++ key.literals
  | conditional test consequent alternate =>
    test.literals ++ consequent.literals ++ alternate.literals
  | sequence expressions => literalsAll expressions
  | _ => []

/-- The function literals of a value that may be missing. -/
def literalsOptional : Option Node → List Routine
  | none => []
  | some node => node.literals

/-- The function literals of a statement that may be missing. -/
def initLiterals : Option Node → List Routine
  | none => []
  | some node => unlessDeclared node node.literals

/-- The function literals of values in sequence. -/
def literalsAll : List Node → List Routine
  | [] => []
  | node :: rest => node.literals ++ literalsAll rest

/-- The function literals of statements in sequence. -/
def statementLiterals : List Node → List Routine
  | [] => []
  | node :: rest => unlessDeclared node node.literals ++ statementLiterals rest

end

/-- The names that a statement declares. -/
def names (node : Node) : List String := node.declarations.map (·.1)

/-- The functions that a statement declares. -/
def declared (node : Node) : List Routine := node.declarations.filterMap (·.2)

/-- The function literals of a statement. -/
def ownLiterals (node : Node) : List Routine := unlessDeclared node node.literals

theorem declarationsAll_eq (statements : List Node) :
    declarationsAll statements = statements.flatMap declarations := by
  induction statements with
  | nil => rfl
  | cons node rest ih => rw [declarationsAll, ih, List.flatMap_cons]

theorem literalsAll_eq (expressions : List Node) :
    literalsAll expressions = expressions.flatMap literals := by
  induction expressions with
  | nil => rfl
  | cons node rest ih => rw [literalsAll, ih, List.flatMap_cons]

theorem statementLiterals_eq (statements : List Node) :
    statementLiterals statements = statements.flatMap ownLiterals := by
  induction statements with
  | nil => rfl
  | cons node rest ih => rw [statementLiterals, ih, List.flatMap_cons, ownLiterals]

end Node

/-! ## Bodies -/

/-- The functions declared in the statements of a body. -/
def declaredIn (body : List Node) : List Routine := body.flatMap Node.declared

/-- The function literals in the statements of a body. -/
def literalsIn (body : List Node) : List Routine := body.flatMap Node.ownLiterals

/-- The functions that stand in a body, but not in other functions of it, in the order of their
sections. -/
def functionsIn (body : List Node) : List Routine := declaredIn body ++ literalsIn body

/-- **The local names of a function**, in the order of their slots: its name, its parameters and
the names declared in its body, each where it comes first. -/
def Routine.locals (r : Routine) : List String :=
  (r.name.toList ++ r.params ++ r.body.flatMap Node.names).eraseDups

/-- **Lexical addressing.** Given the local names of the functions around a place, innermost first,
the position of a name in the first of these lists that holds it, and the number of that list. -/
def lexical (chain : List (List String)) (name : String) : Option (Nat × Nat) :=
  match chain with
  | [] => none
  | names :: outer =>
    if name ∈ names then some (names.idxOf name, 0)
    else (lexical outer name).map fun (slot, frames) => (slot, frames + 1)

/-- **An address is in the innermost function that has the name**, at the position of the name
among its local names. -/
theorem lexical_eq_some_iff {chain : List (List String)} {name : String} {slot frames : Nat} :
    lexical chain name = some (slot, frames) ↔
      (∃ names, chain[frames]? = some names ∧ name ∈ names ∧ slot = names.idxOf name) ∧
        ∀ inner < frames, ∀ names, chain[inner]? = some names → name ∉ names := by
  induction chain generalizing frames with
  | nil => simp [lexical]
  | cons names outer ih =>
    by_cases h : name ∈ names
    · cases frames with
      | zero => simp [lexical, h, eq_comm]
      | succ frames =>
        simp only [lexical, h, if_true, Option.some.injEq, Prod.mk.injEq]
        constructor
        · rintro ⟨-, h0⟩
          cases h0
        · rintro ⟨-, hn⟩
          exact absurd h (hn 0 (Nat.succ_pos _) names rfl)
    · cases frames with
      | zero => simp [lexical, h]
      | succ frames =>
        have hs : lexical (names :: outer) name = some (slot, frames + 1) ↔
            lexical outer name = some (slot, frames) := by
          simp [lexical, h]
        rw [hs, ih]
        refine and_congr (by simp) ⟨fun hn inner hi => ?_, fun hn inner hi => ?_⟩
        · cases inner with
          | zero =>
            intro other ho
            cases ho
            exact h
          | succ inner => exact hn inner (Nat.lt_of_succ_lt_succ hi)
        · exact hn (inner + 1) (Nat.succ_lt_succ hi)

/-- A name is global if no function around the place has it. -/
theorem lexical_eq_none_iff {chain : List (List String)} {name : String} :
    lexical chain name = none ↔ ∀ names ∈ chain, name ∉ names := by
  induction chain with
  | nil => simp [lexical]
  | cons names outer ih =>
    by_cases h : name ∈ names
    · simp [lexical, h]
    · simp [lexical, h, ih]

namespace ScopeChain

/-- The local names of every scope of a chain, innermost first. -/
def names (chain : ScopeChain) : List (List String) := chain.scopes.map Scope.names

theorem addressFrom?_eq (name : String) (frames : Nat) (scopes : List Scope) :
    addressFrom? name frames scopes =
      (lexical (scopes.map Scope.names) name).map fun (slot, outer) => (slot, frames + outer) := by
  induction scopes generalizing frames with
  | nil => rfl
  | cons scope outer ih =>
    rw [addressFrom?, Scope.slot?_eq]
    by_cases h : name ∈ scope.names
    · simp [lexical, h]
    · simp [lexical, h, ih, Function.comp_def, Nat.add_assoc, Nat.add_comm 1]

/-- **Scopes give lexical addresses** among the names that they hold. -/
theorem address?_eq (name : String) (chain : ScopeChain) :
    chain.address? name = lexical chain.names name := by
  rw [address?, addressFrom?_eq, names]
  simp

end ScopeChain

end ScriptCompiler
