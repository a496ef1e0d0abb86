import Mathlib.Data.List.Forall2
import ScriptCompiler.Proofs.Site
import ScriptCompiler.Tree.Json

/-!
# Trees survive being written

Reading the written form of a tree gives the tree back, unless it has a number that is infinite or
not a number at all: that is written as null, and no node has null for its number.

Some fields of a node have a default, and where they hold it they may be left out. A written tree is
read as before, however many of these fields are left out and however deep inside they are. More
generally, this goes for every JSON value in which no object has two fields with the same key.

## Main definitions

* `Node.numbers`, `Node.Finite`: the numbers in a tree, and whether all of them are finite
* `Node.default?`: the default of a field
* `Json.Omits`: some fields that hold their defaults are left out of a value
* `Json.Keyed`: no object in a value has two fields with the same key
* `Reading.Agrees`: two values can be read as the same things

## Main results

* `Node.node_read_toJson`: what the written form of a node is read as
* `Node.keyed_toJson`: the fields of written nodes have different keys
* `Json.Omits.agrees`: leaving out defaults does not change what a value can be read as
* `Node.written_form_exact`: reading undoes writing, with or without the defaults
-/

namespace ScriptCompiler

/-! ## Numbers in trees -/

namespace Node

/-- The number that a node is. -/
def number? : Node → Option Binary64
  | number value => some value
  | _ => none

/-- **The numbers in a tree.** -/
def numbers (node : Node) : List Binary64 :=
  node.number?.toList ++ node.children.attach.flatMap fun ⟨child, _⟩ => child.2.numbers
termination_by sizeOf node
decreasing_by exact sizeOf_lt_of_mem_children ‹_›

theorem numbers_eq (node : Node) :
    node.numbers = node.number?.toList ++ node.children.flatMap fun child => child.2.numbers := by
  rw [numbers, List.flatMap_subtype (g := fun child => child.2.numbers) (fun _ _ => rfl),
    List.unattach_attach]

/-- All numbers in a tree are finite. -/
def Finite (node : Node) : Prop := ∀ value ∈ node.numbers, value.IsFinite

theorem finite_iff (node : Node) :
    node.Finite ↔ (∀ value ∈ node.number?, value.IsFinite) ∧
      ∀ child ∈ node.children, child.2.Finite := by
  rw [Finite, numbers_eq, List.forall_mem_append, List.forall_mem_flatMap]
  simp only [Option.mem_toList, Option.mem_def, Finite]

end Node

/-! ## Reading what has been written -/

/-- Strings are read back from an array of them. -/
theorem Reading.strings_map (texts : List String) (node : Option Node)
    (nodes : Option (List Node)) :
    Reading.strings ⟨.array (texts.map .string), node, nodes⟩ = some texts := by
  induction texts with
  | nil => rfl
  | cons text rest ih =>
    simp only [strings, List.map_cons, List.mapM_cons] at ih ⊢
    rw [ih]
    rfl

namespace Node

theorem json_read (json : Json) : (read json).json = json := by
  cases json <;> rfl

/-- A node is written as an object. -/
theorem exists_toJson_eq (node : Node) : ∃ kind fields, node.toJson = record kind fields := by
  cases node with
  | boolean value => cases value <;> exact ⟨_, _, rfl⟩
  | _ => exact ⟨_, _, rfl⟩

theorem node_read_record (kind : String) (fields : List (String × Json)) :
    (read (record kind fields)).node =
      ofFields kind (readFields (("type", .string kind) :: fields)) := rfl

section Reading

attribute [local simp] toJson optionToJson listToJson node_read_record read readList readFields
  ofFields Fields.required Fields.withDefault Fields.optional List.lookup_nil List.lookup_cons
  Reading.string Reading.boolean Reading.number number? Option.bind_eq_some_iff and_assoc

mutual

/-- **What the written form of a node is read as**: as the node, if all numbers in it are finite,
and not as a node otherwise. -/
theorem node_read_toJson (node result : Node) :
    (read node.toJson).node = some result ↔ node.Finite ∧ node = result := by
  rw [finite_iff]
  cases node with
  | number value => by_cases hf : value.IsFinite <;> simp [Json.ofBinary64, hf, children]
  | boolean value => cases value <;> simp [children]
  | declaration name init => simp [node_read_optionToJson init, children]
  | function name params body =>
    cases name <;> simp [Json.ofOption, Reading.orNull, Reading.strings_map,
      readList_listToJson body, children]
  | ret argument => simp [node_read_optionToJson argument, children]
  | ifElse test consequent alternate =>
    simp [node_read_toJson test, node_read_toJson consequent, node_read_optionToJson alternate,
      children]
  -- The code of the step of a loop comes after that of its body, but the field before.
  | forLoop init test step body =>
    simp only [children, List.forall_mem_append, List.forall_mem_map, List.forall_mem_singleton,
      Option.mem_toList]
    simp [node_read_optionToJson init, node_read_optionToJson test, node_read_optionToJson step,
      node_read_toJson body, and_left_comm]
  | whileLoop test body => simp [node_read_toJson test, node_read_toJson body, children]
  | block statements => simp [readList_listToJson statements, children]
  | array elements => simp [readList_listToJson elements, children]
  | member object property => simp [node_read_toJson object, children]
  | index object key => simp [node_read_toJson object, node_read_toJson key, children]
  | call callee arguments =>
    simp [node_read_toJson callee, readList_listToJson arguments, children]
  | assign target value => simp [node_read_toJson target, node_read_toJson value, children]
  | binary operator left right => simp [node_read_toJson left, node_read_toJson right, children]
  | compound operator target value =>
    simp [node_read_toJson target, node_read_toJson value, children]
  | logical operator left right => simp [node_read_toJson left, node_read_toJson right, children]
  | unary operator argument => simp [node_read_toJson argument, children]
  | update operator before argument => simp [node_read_toJson argument, children]
  | conditional test consequent alternate =>
    simp [node_read_toJson test, node_read_toJson consequent, node_read_toJson alternate, children]
  | sequence expressions => simp [readList_listToJson expressions, children]
  | _ => simp [children]

theorem node_read_optionToJson (option result : Option Node) :
    (read (optionToJson option)).orNull (·.node) = some result ↔
      (∀ node, option = some node → node.Finite) ∧ option = result := by
  cases option with
  | none => simp [Reading.orNull]
  | some node =>
    have hn : (read node.toJson).orNull (·.node) = (read node.toJson).node.map some := by
      obtain ⟨kind, fields, hj⟩ := node.exists_toJson_eq
      rw [hj]
      rfl
    rw [optionToJson, hn, Option.map_eq_some_iff]
    simp [node_read_toJson node]

theorem readList_listToJson (nodes result : List Node) :
    readList (listToJson nodes) = some result ↔ (∀ node ∈ nodes, node.Finite) ∧ nodes = result := by
  cases nodes with
  | nil => simp
  | cons node rest => simp [node_read_toJson node, readList_listToJson rest]

end

end Reading

end Node

/-! ## Fields that are left out -/

/-- **The default of a field**, by the kind of the node and the key, if it has one. -/
def Node.default? : (kind key : String) → Option Json
  | "Declaration", "init" | "Return", "argument" | "If", "alternate" | "Function", "name"
  | "ForLoop", "init" | "ForLoop", "test" | "ForLoop", "update" => some .null
  | "Function", "params" | "Function", "body" | "Call", "arguments" => some (.array [])
  | "Binary", "assign" | "Update", "prefix" => some (.boolean false)
  | _, _ => none

namespace Json

mutual

/-- **Some fields that hold their defaults are left out** of any objects in a value that stand for
nodes. -/
inductive Omits : Json → Json → Prop
  | same (json : Json) : Omits json json
  | array {elements elements' : List Json} (h : List.Forall₂ Omits elements elements') :
    Omits (.array elements) (.array elements')
  | record {kind : String} {fields fields' : List (String × Json)}
    (h : OmitsFields kind fields fields') :
    Omits (.object (("type", .string kind) :: fields)) (.object (("type", .string kind) :: fields'))

/-- Some fields that hold their defaults are left out of the fields of a node, or of the values of
the others. -/
inductive OmitsFields : String → List (String × Json) → List (String × Json) → Prop
  | nil {kind : String} : OmitsFields kind [] []
  | keep {kind key : String} {value value' : Json} {rest rest' : List (String × Json)}
    (hv : Omits value value') (hr : OmitsFields kind rest rest') :
    OmitsFields kind ((key, value) :: rest) ((key, value') :: rest')
  | drop {kind key : String} {value : Json} {rest rest' : List (String × Json)}
    (hd : Node.default? kind key = some value) (hr : OmitsFields kind rest rest') :
    OmitsFields kind ((key, value) :: rest) rest'

end

/-- **No object in a value has two fields with the same key.** -/
inductive Keyed : Json → Prop
  | null : Keyed .null
  | boolean (value : Bool) : Keyed (.boolean value)
  | number (value : Binary64) : Keyed (.number value)
  | string (value : String) : Keyed (.string value)
  | array {elements : List Json} (h : ∀ json ∈ elements, Keyed json) : Keyed (.array elements)
  | object {fields : List (String × Json)} (hk : (fields.map Prod.fst).Nodup)
    (h : ∀ field ∈ fields, Keyed field.2) : Keyed (.object fields)

attribute [simp] Keyed.null Keyed.boolean Keyed.string

@[simp] theorem keyed_array_iff {elements : List Json} :
    Keyed (.array elements) ↔ ∀ json ∈ elements, Keyed json :=
  ⟨fun | .array h => h, .array⟩

@[simp] theorem keyed_object_iff {fields : List (String × Json)} :
    Keyed (.object fields) ↔ (fields.map Prod.fst).Nodup ∧ ∀ field ∈ fields, Keyed field.2 :=
  ⟨fun | .object hk h => ⟨hk, h⟩, fun ⟨hk, h⟩ => .object hk h⟩

@[simp] theorem keyed_ofBinary64 (value : Binary64) : Keyed (ofBinary64 value) := by
  rw [ofBinary64]
  split
  · exact .number value
  · exact .null

@[simp] theorem keyed_ofOption_string (option : Option String) :
    Keyed (ofOption .string option) := by
  cases option <;> simp [ofOption]

end Json

namespace Node

open Json

theorem keyed_optionToJson_iff {option : Option Node} :
    Keyed (optionToJson option) ↔ ∀ node ∈ option, Keyed node.toJson := by
  cases option <;> simp [optionToJson]

theorem mem_listToJson {nodes : List Node} {json : Json} :
    json ∈ listToJson nodes ↔ ∃ node ∈ nodes, node.toJson = json := by
  induction nodes with
  | nil => simp [listToJson]
  | cons node rest ih => simp [listToJson, ih, eq_comm]

/-- Induction over the nodes inside a node. -/
theorem induction {P : Node → Prop} (step : ∀ node, (∀ child ∈ node.children, P child.2) → P node)
    (node : Node) : P node := by
  induction hs : sizeOf node using Nat.strongRecOn generalizing node with
  | _ size ih =>
    exact step node fun child hc => ih _ (hs ▸ sizeOf_lt_of_mem_children hc) child.2 rfl

/-- **The fields of written nodes have different keys.** -/
theorem keyed_toJson (node : Node) : Keyed node.toJson := by
  induction node using Node.induction with
  | step node ih =>
    cases node with
    | boolean value => cases value <;> simp [toJson, record]
    | breakLoop | continueLoop | ident | number | string | null | undefined | unsupported =>
      simp [toJson, record]
    | forLoop init test step body =>
      simp only [children, List.forall_mem_append, List.forall_mem_map, List.forall_mem_singleton,
        Option.mem_toList] at ih
      obtain ⟨⟨⟨hi, ht⟩, hb⟩, hs⟩ := ih
      simpa [toJson, record, keyed_optionToJson_iff, hb] using ⟨hi, ht, hs⟩
    | _ =>
      simpa [toJson, record, keyed_optionToJson_iff, mem_listToJson, children] using ih

end Node

/-! ## Values that are read alike -/

/-- **Two values can be read as the same things.** -/
structure Reading.Agrees (r r' : Reading) : Prop where
  node : r'.node = r.node
  nodes : r'.nodes = r.nodes
  string : r'.string = r.string
  boolean : r'.boolean = r.boolean
  number : r'.number = r.number
  strings : r'.strings = r.strings
  null : r'.json = .null ↔ r.json = .null

theorem Reading.Agrees.refl (r : Reading) : r.Agrees r :=
  ⟨rfl, rfl, rfl, rfl, rfl, rfl, Iff.rfl⟩

theorem Reading.orNull_congr {α : Type} {get : Reading → Option α} {r r' : Reading}
    (h : r.Agrees r') (hg : get r' = get r) : r'.orNull get = r.orNull get := by
  by_cases hn : r.json = .null
  · simp [orNull, hn, h.null.mpr hn]
  · have hn' : r'.json ≠ .null := mt h.null.mp hn
    rw [orNull, orNull, hg]
    split
    · exact absurd ‹_› hn'
    · rfl

namespace Fields

/-- What two objects of a kind have under a key: values that can be read as the same things, or one
of them does not have the key, and the other one has the default. -/
inductive AgreeAt (kind key : String) : Option Reading → Option Reading → Prop
  | absent : AgreeAt kind key none none
  | present {r r' : Reading} (h : r.Agrees r') : AgreeAt kind key (some r) (some r')
  | omitted {value : Json} (h : Node.default? kind key = some value) :
    AgreeAt kind key (some (Node.read value)) none

section Agree

variable {kind key : String} {f f' : Fields} {α : Type} {get : Reading → Option α}

theorem required_congr (h : AgreeAt kind key (f.lookup key) (f'.lookup key))
    (hd : Node.default? kind key = none) (hg : ∀ {r r'}, Reading.Agrees r r' → get r' = get r) :
    f'.required key get = f.required key get := by
  unfold required
  generalize f.lookup key = r, f'.lookup key = r' at h
  cases h with
  | absent => rfl
  | present h => exact hg h
  | omitted h => cases hd.symm.trans h

theorem withDefault_congr {value : Json} {default : α}
    (h : AgreeAt kind key (f.lookup key) (f'.lookup key))
    (hd : Node.default? kind key = some value) (hv : get (Node.read value) = some default)
    (hg : ∀ {r r'}, Reading.Agrees r r' → get r' = get r) :
    f'.withDefault key default get = f.withDefault key default get := by
  unfold withDefault
  generalize f.lookup key = r, f'.lookup key = r' at h
  cases h with
  | absent => rfl
  | present h => exact hg h
  | omitted h =>
    cases hd.symm.trans h
    exact hv.symm

end Agree

end Fields

namespace Node

open Json Fields

/-- **The node of a kind depends only on what its fields can be read as**, and it does not matter
whether a field that holds its default is there. -/
theorem ofFields_congr {kind : String} {f f' : Fields}
    (h : ∀ key, AgreeAt kind key (f.lookup key) (f'.lookup key)) :
    ofFields kind f' = ofFields kind f := by
  have node (key : String) (hd : default? kind key = none) :
      f'.required key (·.node) = f.required key (·.node) := required_congr (h key) hd (·.node)
  have nodes (key : String) (hd : default? kind key = none) :
      f'.required key (·.nodes) = f.required key (·.nodes) := required_congr (h key) hd (·.nodes)
  have string (key : String) (hd : default? kind key = none) :
      f'.required key (·.string) = f.required key (·.string) := required_congr (h key) hd (·.string)
  have number (key : String) (hd : default? kind key = none) :
      f'.required key (·.number) = f.required key (·.number) := required_congr (h key) hd (·.number)
  have orNode (key : String) (hd : default? kind key = some .null) :
      f'.optional key (·.node) = f.optional key (·.node) :=
    withDefault_congr (h key) hd rfl fun ha => Reading.orNull_congr ha ha.node
  have orString (key : String) (hd : default? kind key = some .null) :
      f'.optional key (·.string) = f.optional key (·.string) :=
    withDefault_congr (h key) hd rfl fun ha => Reading.orNull_congr ha ha.string
  have orNodes (key : String) (hd : default? kind key = some (.array [])) :
      f'.withDefault key [] (·.nodes) = f.withDefault key [] (·.nodes) :=
    withDefault_congr (h key) hd rfl (·.nodes)
  have orStrings (key : String) (hd : default? kind key = some (.array [])) :
      f'.withDefault key [] (·.strings) = f.withDefault key [] (·.strings) :=
    withDefault_congr (h key) hd rfl (·.strings)
  have orFalse (key : String) (hd : default? kind key = some (.boolean false)) :
      f'.withDefault key false (·.boolean) = f.withDefault key false (·.boolean) :=
    withDefault_congr (h key) hd rfl (·.boolean)
  unfold ofFields
  split <;> first
    | rfl
    | simp (disch := simp [default?]) only [node, nodes, string, number, orNode, orString, orNodes,
        orStrings, orFalse]

theorem lookup_readFields_cons (first key : String) (value : Json) (rest : List (String × Json)) :
    (readFields ((first, value) :: rest)).lookup key =
      if key = first then some (read value) else (readFields rest).lookup key := by
  rw [readFields, List.lookup_cons]
  by_cases h : key = first
  · simp [h]
  · rw [beq_eq_false_iff_ne.mpr h, if_neg h]

theorem lookup_readFields_eq_none {key : String} {fields : List (String × Json)}
    (h : key ∉ fields.map Prod.fst) : (readFields fields).lookup key = none := by
  induction fields with
  | nil => rfl
  | cons field rest ih =>
    rw [List.map_cons, List.mem_cons, not_or] at h
    rw [lookup_readFields_cons, if_neg h.1, ih h.2]

/-- Leaving out defaults keeps what there is under a key, or leaves out the default of it. -/
theorem agreeAt_of_omitsFields {kind : String} {fields fields' : List (String × Json)}
    (h : OmitsFields kind fields fields') (hk : (fields.map Prod.fst).Nodup)
    (hf : ∀ field ∈ fields, ∀ value', Omits field.2 value' → (read field.2).Agrees (read value'))
    (key : String) :
    AgreeAt kind key ((readFields fields).lookup key) ((readFields fields').lookup key) := by
  induction fields generalizing fields' with
  | nil =>
    cases h
    exact .absent
  | cons field rest ih =>
    rw [List.map_cons, List.nodup_cons] at hk
    rw [List.forall_mem_cons] at hf
    cases h with
    | keep hv hr =>
      rw [lookup_readFields_cons, lookup_readFields_cons]
      split
      · exact .present (hf.1 _ hv)
      · exact ih hr hk.2 hf.2
    | drop hd hr =>
      have ha := ih hr hk.2 hf.2
      rw [lookup_readFields_cons]
      split
      · next he =>
        subst he
        rw [lookup_readFields_eq_none hk.1] at ha
        generalize (readFields fields').lookup key = r at ha
        cases ha
        exact .omitted hd
      · exact ha

end Node

namespace Json

open Node

/-- The strings in an array are the strings that its elements can be read as. -/
theorem strings_read_array (elements : List Json) :
    (read (.array elements)).strings = elements.mapM fun json => (read json).string := by
  change elements.mapM _ = _
  congr 1
  funext json
  rw [Reading.string, json_read]

theorem agrees_array {elements elements' : List Json}
    (h : List.Forall₂ (fun json json' => (read json).Agrees (read json')) elements elements') :
    (read (.array elements)).Agrees (read (.array elements')) := by
  have strings : (read (.array elements')).strings = (read (.array elements)).strings := by
    rw [strings_read_array, strings_read_array]
    induction h with
    | nil => rfl
    | cons hj _ ih => rw [List.mapM_cons, List.mapM_cons, hj.string, ih]
  refine ⟨rfl, ?_, rfl, rfl, rfl, strings, by simp [json_read]⟩
  change readList elements' = readList elements
  clear strings
  induction h with
  | nil => rfl
  | cons hj _ ih => rw [readList, readList, hj.node, ih]

/-- **Leaving out defaults does not change what a value can be read as.** -/
theorem Omits.agrees {json json' : Json} (h : Omits json json') (hk : Keyed json) :
    (read json).Agrees (read json') := by
  induction hk generalizing json' with
  | null | boolean | number | string =>
    cases h
    exact .refl _
  | array _ ih =>
    cases h with
    | same => exact .refl _
    | array h =>
      have parts := (List.forall₂_and_left _ _).mpr ⟨fun json hj => @ih json hj, h⟩
      exact agrees_array (parts.imp fun _ _ ⟨hj, ho⟩ => hj ho)
  | object hk _ ih =>
    cases h with
    | same => exact .refl _
    | record h =>
      have ha := agreeAt_of_omitsFields (.keep (.same _) h) hk fun field hf _ => ih field hf
      exact ⟨ofFields_congr ha, rfl, rfl, rfl, rfl, rfl, by simp [json_read]⟩

end Json

namespace Node

open Json

/-- **Reading undoes writing**, with or without the defaults. If all numbers in a tree are finite,
then its written form is read as the tree, and so is every value that is left when fields which hold
their defaults are left out of any objects in it. If a number in the tree is not finite, then the
written form cannot be read. -/
theorem written_form_exact (node : Node) :
    ((∀ value ∈ node.numbers, value.IsFinite) →
      ofJson? node.toJson = some node ∧ ∀ json, Omits node.toJson json → ofJson? json = some node) ∧
    ((∃ value ∈ node.numbers, ¬ value.IsFinite) → ofJson? node.toJson = none) := by
  have read := node.node_read_toJson
  refine ⟨fun hf => ⟨(read node).mpr ⟨hf, rfl⟩, fun json h => ?_⟩, fun ⟨value, hv, hi⟩ => ?_⟩
  · rw [ofJson?, (h.agrees node.keyed_toJson).node]
    exact (read node).mpr ⟨hf, rfl⟩
  · refine Option.eq_none_iff_forall_ne_some.mpr fun result h => ?_
    exact hi (((read result).mp h).1 value hv)

/-- A declaration without an initial value and a call without arguments are read without these
fields, and an infinite number is not read. -/
theorem written_form_exact_defaults :
    ofJson? (record "Body" [("statements", .array
        [record "Declaration" [("name", .string "x")],
          record "Call" [("callee", record "Number" [("value", .number ⟨0⟩)])]])]) =
      some (.block [.declaration "x" none, .call (.number ⟨0⟩) []]) ∧
    ofJson? (toJson (.ret (some (.number ⟨0x7FF0000000000000⟩)))) = none := by
  have hn : numbers (.block [.declaration "x" none, .call (.number ⟨0⟩) []]) = [⟨0⟩] := by
    simp [numbers_eq (block _), numbers_eq (declaration _ _), numbers_eq (call _ _),
      numbers_eq (number _), children, number?]
  have hi : numbers (.ret (some (.number ⟨0x7FF0000000000000⟩))) = [⟨0x7FF0000000000000⟩] := by
    simp [numbers_eq (ret _), numbers_eq (number _), children, number?]
  refine ⟨((written_form_exact _).1 ?_).2 _ ?_, (written_form_exact _).2 ?_⟩
  · rw [hn]
    decide
  · refine .record (.keep (.array (.cons (.record ?_) (.cons (.record ?_) .nil))) .nil)
    · exact .keep (.same _) (.drop rfl .nil)
    · exact .keep (.same _) (.drop rfl .nil)
  · rw [hi]
    decide

end Node

end ScriptCompiler
