import ScriptCompiler.Tree.Node

/-!
# Equality of trees

## Main definitions

* `Node.beq`: whether two nodes are the same

## Main results

* `Node.eq_of_beq`, `Node.beq_self`: the comparison decides equality
-/

namespace ScriptCompiler

namespace Node

mutual

/-- Whether two nodes are the same. -/
def beq : Node → Node → Bool
  | declaration name init, declaration name' init' => name == name' && optionBeq init init'
  | function name params body, function name' params' body' =>
    name == name' && params == params' && listBeq body body'
  | ret argument, ret argument' => optionBeq argument argument'
  | ifElse test consequent alternate, ifElse test' consequent' alternate' =>
    beq test test' && beq consequent consequent' && optionBeq alternate alternate'
  | forLoop init test step body, forLoop init' test' step' body' =>
    optionBeq init init' && optionBeq test test' && optionBeq step step' && beq body body'
  | whileLoop test body, whileLoop test' body' => beq test test' && beq body body'
  | breakLoop, breakLoop => true
  | continueLoop, continueLoop => true
  | block statements, block statements' => listBeq statements statements'
  | ident name, ident name' => name == name'
  | number value, number value' => value == value'
  | string value, string value' => value == value'
  | boolean value, boolean value' => value == value'
  | null, null => true
  | undefined, undefined => true
  | array elements, array elements' => listBeq elements elements'
  | member object property, member object' property' => beq object object' && property == property'
  | index object key, index object' key' => beq object object' && beq key key'
  | call callee arguments, call callee' arguments' =>
    beq callee callee' && listBeq arguments arguments'
  | assign target value, assign target' value' => beq target target' && beq value value'
  | binary operator left right, binary operator' left' right' =>
    operator == operator' && beq left left' && beq right right'
  | compound operator target value, compound operator' target' value' =>
    operator == operator' && beq target target' && beq value value'
  | logical operator left right, logical operator' left' right' =>
    operator == operator' && beq left left' && beq right right'
  | unary operator argument, unary operator' argument' =>
    operator == operator' && beq argument argument'
  | update operator before argument, update operator' before' argument' =>
    operator == operator' && before == before' && beq argument argument'
  | conditional test consequent alternate, conditional test' consequent' alternate' =>
    beq test test' && beq consequent consequent' && beq alternate alternate'
  | sequence expressions, sequence expressions' => listBeq expressions expressions'
  | unsupported kind, unsupported kind' => kind == kind'
  | _, _ => false

/-- Whether two optional nodes are the same. -/
def optionBeq : Option Node → Option Node → Bool
  | none, none => true
  | some node, some node' => beq node node'
  | _, _ => false

/-- Whether two lists of nodes are the same. -/
def listBeq : List Node → List Node → Bool
  | [], [] => true
  | node :: rest, node' :: rest' => beq node node' && listBeq rest rest'
  | _, _ => false

end

/-- Nodes, lists of nodes and optional nodes that compare as the same are equal. -/
theorem eq_of_beq :
    (∀ a b, beq a b = true → a = b) ∧ (∀ a b, listBeq a b = true → a = b) ∧
      ∀ a b, optionBeq a b = true → a = b := by
  apply beq.mutual_induct <;> intros <;> simp_all [beq, listBeq, optionBeq]

mutual

/-- A node compares as the same as itself. -/
theorem beq_self (node : Node) : beq node node = true := by
  cases node <;> simp [beq, beq_self, optionBeq_self, listBeq_self]

/-- An optional node compares as the same as itself. -/
theorem optionBeq_self (node : Option Node) : optionBeq node node = true := by
  cases node <;> simp [optionBeq, beq_self]

/-- A list of nodes compares as the same as itself. -/
theorem listBeq_self (nodes : List Node) : listBeq nodes nodes = true := by
  cases nodes <;> simp [listBeq, beq_self, listBeq_self]

end

instance : DecidableEq Node := fun a b =>
  decidable_of_iff (beq a b = true) ⟨eq_of_beq.1 a b, fun h => h ▸ beq_self a⟩

end Node

end ScriptCompiler
