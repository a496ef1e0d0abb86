import Std.Data.TreeMap
import ScriptCompiler.Binary64
import ScriptCompiler.Opcode

/-!
# Items and their layout

While a section is being written its code is a sequence of items: opcodes, operand words,
number literals, and two kinds of item that speak of labels. A label is defined between two
items and stands for the offset, in words, of what follows. Laying the items out replaces
every reference to a label by that offset.

## Main definitions

* `Label`, `Item`: what a section consists of before its layout
* `Item.words`, `Item.size`: how much room an item takes
* `Item.encode`: the bytes of an item
* `Layout.offsets`: the offset of every label
* `Layout.assemble`: the bytes of a section, or the first reference to a label without a definition

## Main results

* `Item.length_encode`: an item takes as many bytes as its size
-/

namespace ScriptCompiler

/-- A position in a section, named before it is known. -/
structure Label where
  id : Nat
deriving DecidableEq, Repr, Inhabited

/-- **An item** of a section that is being written. -/
inductive Item where
  /-- An opcode's code. -/
  | opcode (op : Opcode)
  /-- An operand. -/
  | word (w : UInt32)
  /-- A number literal, as two operand words. -/
  | number (x : Binary64)
  /-- The place a label stands for. -/
  | define (label : Label)
  /-- An operand that is the offset of a label. -/
  | refer (label : Label)
deriving DecidableEq, Repr, Inhabited

namespace Item

/-- How many words of code an item takes. -/
def words : Item → Nat
  | opcode _ | word _ | refer _ => 1
  | number _ => 2
  | define _ => 0

/-- How many bytes of code an item takes. -/
def size (item : Item) : Nat := 4 * item.words

/-- The bytes of an item, given the offset of every label; a label without one is the error. -/
def encode (offset? : Label → Option Nat) : Item → Except Label Bytes
  | opcode op => .ok (wordBytes op.code)
  | word w => .ok (wordBytes w)
  | number x => .ok x.toBytes
  | define _ => .ok []
  | refer label =>
    match offset? label with
    | some offset => .ok (wordBytes offset.toUInt32)
    | none => .error label

/-- The bytes of an item are as many as its size. -/
theorem length_encode {offset? : Label → Option Nat} {item : Item} {bytes : Bytes}
    (h : item.encode offset? = .ok bytes) : bytes.length = item.size := by
  cases item with
  | refer label =>
    simp only [encode] at h
    split at h
    · cases h
      rfl
    · cases h
  | _ =>
    cases h
    rfl

end Item

/-- The section `sectionId` refers to `label`, but does not define it. -/
structure UnresolvedLabel where
  label : Label
  sectionId : Nat
deriving DecidableEq, Repr

/-- The text of the error. -/
def UnresolvedLabel.message (e : UnresolvedLabel) : String :=
  s!"unresolved label L{e.label.id} in section {e.sectionId}"

namespace Layout

/-- Offsets in words, by the number of the label. -/
abbrev Offsets := Std.TreeMap Nat Nat

/-- Adds the offsets of the labels that `items` define to those already `known`, where the
items start at the word `offset`. The last definition of a label counts. -/
def offsetsFrom (known : Offsets) (offset : Nat) : (items : List Item) → Offsets
  | [] => known
  | .define label :: rest => offsetsFrom (known.insert label.id offset) offset rest
  | item :: rest => offsetsFrom known (offset + item.words) rest

/-- The offset of every label that `items` define. -/
def offsets (items : List Item) : Offsets := offsetsFrom ∅ 0 items

/-- **The bytes of a section** that consists of `items`. The first reference to a label that no
item defines is reported. -/
def assemble (sectionId : Nat) (items : List Item) : Except UnresolvedLabel Bytes :=
  let table := offsets items
  match items.mapM (Item.encode fun label => table[label.id]?) with
  | .ok chunks => .ok chunks.flatten
  | .error label => .error ⟨label, sectionId⟩

end Layout

end ScriptCompiler
