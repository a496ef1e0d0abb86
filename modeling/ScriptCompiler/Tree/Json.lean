import ScriptCompiler.Json
import ScriptCompiler.Tree.Node

/-!
# The written form of a tree

A node is written as an object with a field `type`, which names the node's kind, and a field for
each of its parts. Writing gives every field. Reading ignores fields that the kind does not
have, and lets the fields be missing that have a default.

## Main definitions

* `Node.toJson`: the written form of a node
* `Node.ofJson?`: the node with a given written form
* `Program.ofJson?`: the program with a given written form
-/

namespace ScriptCompiler

/-! ## Writing -/

namespace Node

/-- The object that stands for a node of some kind. -/
def record (kind : String) (fields : List (String × Json)) : Json :=
  .object (("type", .string kind) :: fields)

mutual

/-- **The written form of a node.** -/
def toJson : Node → Json
  | declaration name init =>
    record "Declaration" [("name", .string name), ("init", optionToJson init)]
  | function name params body =>
    record "Function" [("name", .ofOption .string name), ("params", .array (params.map .string)),
      ("body", .array (listToJson body))]
  | ret argument => record "Return" [("argument", optionToJson argument)]
  | ifElse test consequent alternate =>
    record "If" [("test", test.toJson), ("consequent", consequent.toJson),
      ("alternate", optionToJson alternate)]
  | forLoop init test step body =>
    record "ForLoop" [("init", optionToJson init), ("test", optionToJson test),
      ("update", optionToJson step), ("body", body.toJson)]
  | whileLoop test body => record "While" [("test", test.toJson), ("body", body.toJson)]
  | breakLoop => record "Break" []
  | continueLoop => record "Continue" []
  | block statements => record "Body" [("statements", .array (listToJson statements))]
  | ident name => record "Variable" [("name", .string name)]
  | number value => record "Number" [("value", .ofBinary64 value)]
  | string value => record "String" [("value", .string value)]
  | boolean true => record "True" []
  | boolean false => record "False" []
  | null => record "Null" []
  | undefined => record "Undefined" []
  | array elements => record "Array" [("elements", .array (listToJson elements))]
  | member object property =>
    record "Member" [("object", object.toJson), ("property", .string property)]
  | index object key => record "Index" [("object", object.toJson), ("index", key.toJson)]
  | call callee arguments =>
    record "Call" [("callee", callee.toJson), ("arguments", .array (listToJson arguments))]
  | assign target value =>
    record "Assignment" [("target", target.toJson), ("value", value.toJson)]
  | binary operator left right =>
    record "Binary" [("operator", .string operator.name), ("left", left.toJson),
      ("right", right.toJson), ("assign", .boolean false)]
  | compound operator target value =>
    record "Binary" [("operator", .string operator.name), ("left", target.toJson),
      ("right", value.toJson), ("assign", .boolean true)]
  | logical operator left right =>
    record "Logical" [("operator", .string operator.name), ("left", left.toJson),
      ("right", right.toJson)]
  | unary operator argument =>
    record "Unary" [("operator", .string operator.name), ("argument", argument.toJson)]
  | update operator before argument =>
    record "Update" [("operator", .string operator.name), ("prefix", .boolean before),
      ("argument", argument.toJson)]
  | conditional test consequent alternate =>
    record "Conditional" [("test", test.toJson), ("consequent", consequent.toJson),
      ("alternate", alternate.toJson)]
  | sequence expressions =>
    record "MultiExpression" [("expressions", .array (listToJson expressions))]
  | unsupported kind => record "Unsupported" [("kind", .string kind)]

/-- The written form of an optional node. -/
def optionToJson : Option Node → Json
  | none => .null
  | some node => node.toJson

/-- The written forms of nodes. -/
def listToJson : List Node → List Json
  | [] => []
  | node :: rest => node.toJson :: listToJson rest

end

end Node

/-! ## Reading -/

/-- **A JSON value with what it can be read as.** -/
structure Reading where
  /-- The value itself. -/
  json : Json
  /-- The node with this written form. -/
  node : Option Node
  /-- The nodes whose written forms are the elements of this array. -/
  nodes : Option (List Node)
deriving Inhabited

namespace Reading

/-- The string that a value is. -/
def string (r : Reading) : Option String :=
  match r.json with
  | .string value => some value
  | _ => none

/-- The truth value that a value is. -/
def boolean (r : Reading) : Option Bool :=
  match r.json with
  | .boolean value => some value
  | _ => none

/-- The number that a value is. -/
def number (r : Reading) : Option Binary64 :=
  match r.json with
  | .number value => some value
  | _ => none

/-- The strings that are the elements of an array. -/
def strings (r : Reading) : Option (List String) :=
  match r.json with
  | .array elements => elements.mapM fun
    | .string value => some value
    | _ => none
  | _ => none

/-- What a value is read as, where null stands for absence. -/
def orNull {α : Type} (read : Reading → Option α) (r : Reading) : Option (Option α) :=
  match r.json with
  | .null => some none
  | _ => (read r).map some

end Reading

/-- The fields of an object, each with what its value can be read as. -/
abbrev Fields := List (String × Reading)

namespace Fields

/-- A field that has to be there. -/
def required {α : Type} (fields : Fields) (key : String) (read : Reading → Option α) : Option α :=
  fields.lookup key >>= read

/-- A field with a default for when it is missing. -/
def withDefault {α : Type} (fields : Fields) (key : String) (default : α)
    (read : Reading → Option α) : Option α :=
  match fields.lookup key with
  | none => some default
  | some value => read value

/-- A field that may be missing or null. -/
def optional {α : Type} (fields : Fields) (key : String) (read : Reading → Option α) :
    Option (Option α) :=
  fields.withDefault key none (Reading.orNull read)

end Fields

namespace Node

/-- The node of a kind whose parts are the given fields. -/
def ofFields (kind : String) (f : Fields) : Option Node :=
  match kind with
  | "Declaration" => do
    return declaration (← f.required "name" (·.string)) (← f.optional "init" (·.node))
  | "Function" => do
    return function (← f.optional "name" (·.string)) (← f.withDefault "params" [] (·.strings))
      (← f.withDefault "body" [] (·.nodes))
  | "Return" => do return ret (← f.optional "argument" (·.node))
  | "If" => do
    return ifElse (← f.required "test" (·.node)) (← f.required "consequent" (·.node))
      (← f.optional "alternate" (·.node))
  | "ForLoop" => do
    return forLoop (← f.optional "init" (·.node)) (← f.optional "test" (·.node))
      (← f.optional "update" (·.node)) (← f.required "body" (·.node))
  | "While" => do return whileLoop (← f.required "test" (·.node)) (← f.required "body" (·.node))
  | "Break" => some breakLoop
  | "Continue" => some continueLoop
  | "Body" => do return block (← f.required "statements" (·.nodes))
  | "Variable" => do return ident (← f.required "name" (·.string))
  | "Number" => do return number (← f.required "value" (·.number))
  | "String" => do return string (← f.required "value" (·.string))
  | "True" => some (boolean true)
  | "False" => some (boolean false)
  | "Null" => some null
  | "Undefined" => some undefined
  | "Array" => do return array (← f.required "elements" (·.nodes))
  | "Member" => do
    return member (← f.required "object" (·.node)) (← f.required "property" (·.string))
  | "Index" => do return index (← f.required "object" (·.node)) (← f.required "index" (·.node))
  | "Call" => do
    return call (← f.required "callee" (·.node)) (← f.withDefault "arguments" [] (·.nodes))
  | "Assignment" => do
    return assign (← f.required "target" (·.node)) (← f.required "value" (·.node))
  | "Binary" => do
    let operator ← f.required "operator" (·.string) >>= BinaryOperator.ofName?
    let left ← f.required "left" (·.node)
    let right ← f.required "right" (·.node)
    let assigns ← f.withDefault "assign" false (·.boolean)
    return if assigns then compound operator left right else binary operator left right
  | "Logical" => do
    return logical (← f.required "operator" (·.string) >>= LogicalOperator.ofName?)
      (← f.required "left" (·.node)) (← f.required "right" (·.node))
  | "Unary" => do
    return unary (← f.required "operator" (·.string) >>= UnaryOperator.ofName?)
      (← f.required "argument" (·.node))
  | "Update" => do
    return update (← f.required "operator" (·.string) >>= UpdateOperator.ofName?)
      (← f.withDefault "prefix" false (·.boolean)) (← f.required "argument" (·.node))
  | "Conditional" => do
    return conditional (← f.required "test" (·.node)) (← f.required "consequent" (·.node))
      (← f.required "alternate" (·.node))
  | "MultiExpression" => do return sequence (← f.required "expressions" (·.nodes))
  | "Unsupported" => do return unsupported (← f.required "kind" (·.string))
  | _ => none

mutual

/-- Reads a value in every way in which the field of a node may need it. -/
def read : Json → Reading
  | .null => ⟨.null, none, none⟩
  | .boolean value => ⟨.boolean value, none, none⟩
  | .number value => ⟨.number value, none, none⟩
  | .string value => ⟨.string value, none, none⟩
  | .array elements => ⟨.array elements, none, readList elements⟩
  | .object fields =>
    let parts := readFields fields
    ⟨.object fields, Fields.required parts "type" (·.string) >>= fun kind => ofFields kind parts,
      none⟩

/-- The nodes whose written forms are given. -/
def readList : List Json → Option (List Node)
  | [] => some []
  | json :: rest => do
    let node ← (read json).node
    let nodes ← readList rest
    return node :: nodes

/-- The fields of an object, with what their values can be read as. -/
def readFields : List (String × Json) → Fields
  | [] => []
  | (key, json) :: rest => (key, read json) :: readFields rest

end

/-- **The node with a given written form.** -/
def ofJson? (json : Json) : Option Node := (read json).node

end Node

/-- **The program with a given written form**, an object whose field `body` is its statements. -/
def Program.ofJson? : Json → Option Program
  | .object fields => do
    let body ← Fields.required (Node.readFields fields) "body" (·.nodes)
    return { body }
  | _ => none

end ScriptCompiler
