import Mathlib.Algebra.Ring.Nat
import Mathlib.Data.List.Basic
import ScriptCompiler.Layout
import ScriptCompiler.Listing

/-!
# Offsets of labels and words of items

What the layout of a section does to its items: the offset of a label is the number of words
before its last definition, and the bytes of the section are those of one sequence of words, in
which every reference to a label is the offset of that label.

## Main definitions

* `Layout.wordCount`: how many words items take together
* `Layout.target`: the offset of a label among items
* `Item.code`: the words of an item

## Main results

* `Layout.offsets_of_last`: the last definition of a label gives its offset
* `Layout.words_assemble`: the words of an assembled section
* `Layout.define_mem_of_assemble`: an assembled section defines the labels it refers to
-/

namespace ScriptCompiler

namespace Layout

/-- How many words items take together. -/
def wordCount (items : List Item) : Nat := (items.map Item.words).sum

@[simp] theorem wordCount_nil : wordCount [] = 0 := rfl

@[simp] theorem wordCount_cons (item : Item) (items : List Item) :
    wordCount (item :: items) = item.words + wordCount items := by
  simp [wordCount]

@[simp] theorem wordCount_append (items more : List Item) :
    wordCount (items ++ more) = wordCount items + wordCount more := by
  simp [wordCount]

/-! ## Offsets -/

theorem exists_last {α : Type} {a : α} {l : List α} (h : a ∈ l) :
    ∃ before after, l = before ++ a :: after ∧ a ∉ after := by
  -- The last occurrence is the first one from the end.
  obtain ⟨after, before, he, hn⟩ := List.eq_append_cons_of_mem (List.mem_reverse.mpr h)
  refine ⟨before.reverse, after.reverse, ?_, mt List.mem_reverse.mp hn⟩
  simpa using congrArg List.reverse he

theorem offsetsFrom_append (known : Offsets) (offset : Nat) (items more : List Item) :
    offsetsFrom known offset (items ++ more) =
      offsetsFrom (offsetsFrom known offset items) (offset + wordCount items) more := by
  induction items generalizing known offset with
  | nil => simp [offsetsFrom]
  | cons item items ih =>
    cases item with
    | define label => simp [offsetsFrom, ih, Item.words]
    | _ => simp [offsetsFrom, ih, Nat.add_assoc]

theorem getElem?_offsetsFrom_of_not_mem {label : Label} {items : List Item}
    (h : .define label ∉ items) (known : Offsets) (offset : Nat) :
    (offsetsFrom known offset items)[label.id]? = known[label.id]? := by
  induction items generalizing known offset with
  | nil => rfl
  | cons item items ih =>
    obtain ⟨hne, hni⟩ := not_or.mp (mt List.mem_cons.mpr h)
    cases item with
    | define other =>
      rw [offsetsFrom, ih hni, Std.TreeMap.getElem?_insert, if_neg]
      intro he
      apply hne
      cases label
      cases other
      simp_all [compare, compareOfLessAndEq_eq_eq]
    | _ => exact ih hni _ _

/-- **The last definition of a label gives its offset**: the number of words before it. -/
theorem offsets_of_last {label : Label} (before after : List Item) (h : .define label ∉ after) :
    (offsets (before ++ .define label :: after))[label.id]? = some (wordCount before) := by
  rw [offsets, offsetsFrom_append, offsetsFrom, getElem?_offsetsFrom_of_not_mem h,
    Std.TreeMap.getElem?_insert]
  simp

theorem getElem?_offsets_of_not_mem {label : Label} {items : List Item}
    (h : .define label ∉ items) : (offsets items)[label.id]? = none := by
  rw [offsets, getElem?_offsetsFrom_of_not_mem h]
  simp

/-- The offset of a label among items. -/
def target (items : List Item) (label : Label) : Nat := (offsets items)[label.id]?.getD 0

theorem target_of_last {label : Label} (before after : List Item) (h : .define label ∉ after) :
    target (before ++ .define label :: after) label = wordCount before := by
  rw [target, offsets_of_last before after h, Option.getD_some]

end Layout

/-! ## Words -/

/-- The words of an item, given the offset of every label. -/
def Item.code (target : Label → Nat) : Item → List UInt32
  | opcode op => [op.code]
  | word w => [w]
  | number x => [x.low, x.high]
  | define _ => []
  | refer label => [(target label).toUInt32]

theorem wordsOfBytes?_go_flatMap (read : Array UInt32) (words : List UInt32) :
    wordsOfBytes?.go read (words.flatMap wordBytes) = some (read.toList ++ words) := by
  induction words generalizing read with
  | nil => simp [wordsOfBytes?.go]
  | cons w words ih =>
    rw [List.flatMap_cons, wordBytes]
    simp only [List.cons_append, List.nil_append, wordsOfBytes?.go]
    rw [ih, wordOfBytes_wordBytes]
    simp

/-- Words are read back from their bytes. -/
theorem wordsOfBytes?_flatMap (words : List UInt32) :
    wordsOfBytes? (words.flatMap wordBytes) = some words := by
  rw [wordsOfBytes?, wordsOfBytes?_go_flatMap]
  rfl

namespace Layout

theorem encode_eq_code {items : List Item} {item : Item} {bytes : Bytes}
    (h : item.encode (fun label => (offsets items)[label.id]?) = .ok bytes) :
    bytes = (item.code (target items)).flatMap wordBytes := by
  cases item with
  | refer label =>
    simp only [Item.encode] at h
    split at h
    · next offset ho =>
      cases h
      simp [Item.code, target, ho]
    · cases h
  | number x =>
    cases h
    simp [Item.code, Binary64.toBytes]
  | _ =>
    cases h
    simp [Item.code]

theorem define_mem_of_encode {items : List Item} {label : Label} {bytes : Bytes}
    (h : (Item.refer label).encode (fun label => (offsets items)[label.id]?) = .ok bytes) :
    .define label ∈ items := by
  by_contra hn
  rw [Item.encode, getElem?_offsets_of_not_mem hn] at h
  cases h

theorem mapM_cons_ok {α β ε : Type} {f : α → Except ε β} {x : α} {xs : List α} {ys : List β}
    (h : (x :: xs).mapM f = .ok ys) :
    ∃ y rest, f x = .ok y ∧ xs.mapM f = .ok rest ∧ ys = y :: rest := by
  rw [List.mapM_cons] at h
  cases hx : f x with
  | error e => rw [hx] at h; cases h
  | ok y =>
    cases hxs : xs.mapM f with
    | error e => rw [hx, hxs] at h; cases h
    | ok rest =>
      rw [hx, hxs] at h
      cases h
      exact ⟨y, rest, rfl, rfl, rfl⟩

theorem mapM_encode_ok {items part : List Item} {chunks : List Bytes}
    (h : part.mapM (Item.encode fun label => (offsets items)[label.id]?) = .ok chunks) :
    chunks.flatten = (part.flatMap (Item.code (target items))).flatMap wordBytes ∧
      ∀ label, .refer label ∈ part → .define label ∈ items := by
  induction part generalizing chunks with
  | nil =>
    cases h
    simp
  | cons item part ih =>
    obtain ⟨bytes, rest, hb, hr, rfl⟩ := mapM_cons_ok h
    obtain ⟨hw, hl⟩ := ih hr
    refine ⟨by simp [encode_eq_code hb, hw], ?_⟩
    intro label hm
    rcases List.mem_cons.mp hm with rfl | hm
    · exact define_mem_of_encode hb
    · exact hl label hm

theorem assemble_ok {id : Nat} {items : List Item} {bytes : Bytes}
    (h : assemble id items = .ok bytes) :
    bytes = (items.flatMap (Item.code (target items))).flatMap wordBytes ∧
      ∀ label, .refer label ∈ items → .define label ∈ items := by
  simp only [assemble] at h
  split at h
  · next chunks hc =>
    cases h
    exact mapM_encode_ok hc
  · cases h

/-- **The words of an assembled section** are those of its items, a reference to a label being the
offset of that label. -/
theorem words_assemble {id : Nat} {items : List Item} {bytes : Bytes}
    (h : assemble id items = .ok bytes) :
    wordsOfBytes? bytes = some (items.flatMap (Item.code (target items))) := by
  rw [(assemble_ok h).1, wordsOfBytes?_flatMap]

theorem define_mem_of_assemble {id : Nat} {items : List Item} {bytes : Bytes} {label : Label}
    (h : assemble id items = .ok bytes) (hr : .refer label ∈ items) : .define label ∈ items :=
  (assemble_ok h).2 label hr

theorem length_flatMap_code (target : Label → Nat) (items : List Item) :
    (items.flatMap (Item.code target)).length = wordCount items := by
  induction items with
  | nil => rfl
  | cons item items ih =>
    rw [List.flatMap_cons, List.length_append, ih, wordCount_cons]
    cases item <;> rfl

theorem length_flatMap_wordBytes (words : List UInt32) :
    (words.flatMap wordBytes).length = 4 * words.length := by
  induction words with
  | nil => rfl
  | cons w words ih =>
    rw [List.flatMap_cons, List.length_append, ih, length_wordBytes, List.length_cons]
    omega

/-- An assembled section takes four bytes for every word of its items. -/
theorem length_assemble {id : Nat} {items : List Item} {bytes : Bytes}
    (h : assemble id items = .ok bytes) : bytes.length = 4 * wordCount items := by
  rw [(assemble_ok h).1, length_flatMap_wordBytes, length_flatMap_code]

end Layout

end ScriptCompiler
