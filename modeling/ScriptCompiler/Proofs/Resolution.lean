import Mathlib.Algebra.BigOperators.Ring.List
import Mathlib.Data.List.Forall2
import ScriptCompiler.Proofs.Layout

/-!
# Resolution of labels

The layout of a section goes over its items twice: once for the offsets of the labels, and once for
the bytes. This states the result in one go. An item list can be laid out exactly if it defines the
labels it refers to, the first reference without a definition is the error, and the bytes are those
of the items in their order.

## Main definitions

* `Item.Encodes`: the bytes of an item among all items of its section
* `Layout.FirstMissing`: the first label that items refer to without defining it

## Main results

* `Layout.mapM_eq_ok_iff`, `Layout.mapM_eq_error_iff`: a traversal succeeds if each of its steps
  does, and fails at the first step that fails; the same by position in
  `Layout.mapM_eq_ok_iff_getElem?`, `Layout.mapM_eq_error_iff_getElem?`
* `Layout.assemble_eq_ok_iff`, `Layout.assemble_eq_error_iff`: the two outcomes of a layout
* `Layout.references_exact`: the layout of any items of less than `2 ^ 32` words
-/

namespace ScriptCompiler

namespace Layout

/-! ## Traversals that can fail -/

section Traversal

variable {α β ε : Type} {f : α → Except ε β}

/-- **A traversal succeeds if each of its steps does.** -/
theorem mapM_eq_ok_iff {xs : List α} {ys : List β} :
    xs.mapM f = .ok ys ↔ List.Forall₂ (fun x y => f x = .ok y) xs ys := by
  induction xs generalizing ys with
  | nil =>
    rw [List.forall₂_nil_left_iff]
    constructor
    · intro h
      cases h
      rfl
    · rintro rfl
      rfl
  | cons x xs ih =>
    rw [List.forall₂_cons_left_iff]
    constructor
    · intro h
      obtain ⟨y, rest, hy, hr, rfl⟩ := mapM_cons_ok h
      exact ⟨y, rest, hy, ih.mp hr, rfl⟩
    · rintro ⟨y, rest, hy, hr, rfl⟩
      rw [List.mapM_cons, hy, ih.mpr hr]
      rfl

/-- **A traversal fails at the first step that fails.** -/
theorem mapM_eq_error_iff {xs : List α} {e : ε} :
    xs.mapM f = .error e ↔ ∃ before x after, xs = before ++ x :: after ∧ f x = .error e ∧
      ∀ y ∈ before, ∃ b, f y = .ok b := by
  induction xs with
  | nil =>
    constructor
    · intro h
      cases h
    · rintro ⟨before, x, after, hx, -⟩
      simp at hx
  | cons x xs ih =>
    rw [List.mapM_cons]
    cases hx : f x with
    | error e' =>
      constructor
      · intro h
        cases h
        exact ⟨[], x, xs, rfl, hx, by simp⟩
      · rintro ⟨before, y, after, hl, hy, hb⟩
        cases before with
        | nil =>
          cases hl
          rw [hx] at hy
          cases hy
          rfl
        | cons z before =>
          cases hl
          obtain ⟨b, hb⟩ := hb _ (List.mem_cons_self ..)
          rw [hx] at hb
          cases hb
    | ok b =>
      have rest : (do let r ← xs.mapM f; pure (b :: r) : Except ε (List β)) = .error e ↔
          xs.mapM f = .error e := by
        cases xs.mapM f <;> simp [bind, Except.bind, pure, Except.pure]
      refine (Iff.trans rest ih).trans ⟨?_, ?_⟩
      · rintro ⟨before, y, after, rfl, hy, hb⟩
        refine ⟨x :: before, y, after, rfl, hy, ?_⟩
        rw [List.forall_mem_cons]
        exact ⟨⟨b, hx⟩, hb⟩
      · rintro ⟨before, y, after, hl, hy, hb⟩
        cases before with
        | nil =>
          cases hl
          rw [hx] at hy
          cases hy
        | cons z before =>
          cases hl
          exact ⟨before, y, after, rfl, hy, fun z hz => hb z (List.mem_cons_of_mem _ hz)⟩

/-- A traversal succeeds if the step at each position gives the result there. -/
theorem mapM_eq_ok_iff_getElem? {xs : List α} {ys : List β} :
    xs.mapM f = .ok ys ↔ ys.length = xs.length ∧
      ∀ (i : Nat) x y, xs[i]? = some x → ys[i]? = some y → f x = .ok y := by
  rw [mapM_eq_ok_iff, List.forall₂_iff_get, eq_comm]
  refine and_congr_right fun _ => forall_congr' fun i => ?_
  constructor
  · intro h x y hx hy
    obtain ⟨hi, rfl⟩ := List.getElem?_eq_some_iff.mp hx
    obtain ⟨hi', rfl⟩ := List.getElem?_eq_some_iff.mp hy
    exact h hi hi'
  · intro h hi hi'
    exact h _ _ (List.getElem?_eq_getElem hi) (List.getElem?_eq_getElem hi')

theorem mapM_getElem? {xs : List α} {ys : List β} (h : xs.mapM f = .ok ys) :
    ys.length = xs.length ∧
      ∀ (i : Nat) x, xs[i]? = some x → ∃ y, ys[i]? = some y ∧ f x = .ok y := by
  obtain ⟨hl, hf⟩ := mapM_eq_ok_iff_getElem?.mp h
  refine ⟨hl, fun i x hx => ?_⟩
  have hi : i < ys.length := hl ▸ (List.getElem?_eq_some_iff.mp hx).1
  exact ⟨_, List.getElem?_eq_getElem hi, hf i x _ hx (List.getElem?_eq_getElem hi)⟩

/-- A traversal fails at the first position where its step fails. -/
theorem mapM_eq_error_iff_getElem? {xs : List α} {e : ε} :
    xs.mapM f = .error e ↔ ∃ (i : Nat) (x : α), xs[i]? = some x ∧ f x = .error e ∧
      ∀ j < i, ∀ y, xs[j]? = some y → ∃ b, f y = .ok b := by
  rw [mapM_eq_error_iff]
  constructor
  · rintro ⟨before, x, after, rfl, hx, hb⟩
    refine ⟨before.length, x, by simp, hx, fun j hj y hy => hb y ?_⟩
    rw [List.getElem?_append_left hj] at hy
    exact List.mem_of_getElem? hy
  · rintro ⟨i, x, hi, hx, hb⟩
    obtain ⟨hlt, rfl⟩ := List.getElem?_eq_some_iff.mp hi
    refine ⟨xs.take i, xs[i], xs.drop (i + 1), by simp, hx, fun y hy => ?_⟩
    obtain ⟨j, hj, rfl⟩ := List.mem_take_iff_getElem.mp hy
    exact hb j (by omega) _ (List.getElem?_eq_getElem _)

theorem exists_mapM {xs : List α} (h : ∀ x ∈ xs, ∃ y, f x = .ok y) : ∃ ys, xs.mapM f = .ok ys := by
  cases hm : xs.mapM f with
  | ok ys => exact ⟨ys, rfl⟩
  | error e =>
    obtain ⟨before, x, after, rfl, hx, -⟩ := mapM_eq_error_iff.mp hm
    obtain ⟨y, hy⟩ := h x (by simp)
    rw [hx] at hy
    cases hy

end Traversal

end Layout

/-! ## Items -/

open Layout in
/-- **The bytes of an item** among all items of its section. A reference to a label is a word: how
many words come before the last definition of that label. -/
inductive Item.Encodes (items : List Item) : Item → Bytes → Prop
  | opcode (op : Opcode) : Encodes items (.opcode op) (wordBytes op.code)
  | word (w : UInt32) : Encodes items (.word w) (wordBytes w)
  | number (x : Binary64) : Encodes items (.number x) x.toBytes
  | define (label : Label) : Encodes items (.define label) []
  | refer {label : Label} {before after : List Item} {w : UInt32}
    (last : items = before ++ .define label :: after) (unique : .define label ∉ after)
    (offset : w.toNat = wordCount before) : Encodes items (.refer label) (wordBytes w)

namespace Layout

/-- The first label, in the order of the references, that items refer to without defining it. -/
def FirstMissing (items : List Item) (label : Label) : Prop :=
  ∃ before after, items = before ++ .refer label :: after ∧ .define label ∉ items ∧
    ∀ other, .refer other ∈ before → .define other ∈ items

variable {id : Nat} {items : List Item}

theorem encode_eq_error_iff {item : Item} {label : Label} :
    item.encode (fun label => (offsets items)[label.id]?) = .error label ↔
      item = .refer label ∧ .define label ∉ items := by
  constructor
  · intro h
    cases item with
    | refer other =>
      by_cases hd : .define other ∈ items
      · obtain ⟨before, after, rfl, hn⟩ := exists_last hd
        rw [Item.encode, offsets_of_last before after hn] at h
        cases h
      · rw [Item.encode, getElem?_offsets_of_not_mem hd] at h
        cases h
        exact ⟨rfl, hd⟩
    | _ => cases h
  · rintro ⟨rfl, hd⟩
    rw [Item.encode, getElem?_offsets_of_not_mem hd]

theorem encodes_of_encode (h : wordCount items < 2 ^ 32) {item : Item} {bytes : Bytes}
    (he : item.encode (fun label => (offsets items)[label.id]?) = .ok bytes) :
    item.Encodes items bytes := by
  cases item with
  | refer label =>
    obtain ⟨before, after, rfl, hn⟩ := exists_last (define_mem_of_encode he)
    rw [Item.encode, offsets_of_last before after hn] at he
    cases he
    refine .refer rfl hn ?_
    have hlt : wordCount before < 2 ^ 32 := by
      rw [wordCount_append] at h
      omega
    rw [Nat.toUInt32_eq, UInt32.toNat_ofNat_of_lt' hlt]
  | opcode op =>
    cases he
    exact .opcode op
  | word w =>
    cases he
    exact .word w
  | number x =>
    cases he
    exact .number x
  | define label =>
    cases he
    exact .define label

theorem encode_of_encodes {item : Item} {bytes : Bytes} (h : item.Encodes items bytes) :
    item.encode (fun label => (offsets items)[label.id]?) = .ok bytes := by
  cases h with
  | refer last unique offset =>
    rw [last, Item.encode, offsets_of_last _ _ unique, ← offset]
    simp
  | _ => rfl

/-! ## Sections -/

/-- **A section that can be laid out** is the bytes of its items, in their order. -/
theorem assemble_eq_ok_iff (h : wordCount items < 2 ^ 32) {bytes : Bytes} :
    assemble id items = .ok bytes ↔
      ∃ chunks, List.Forall₂ (Item.Encodes items) items chunks ∧ chunks.flatten = bytes := by
  have encodes : Item.Encodes items =
      fun item chunk => item.encode (fun label => (offsets items)[label.id]?) = .ok chunk := by
    funext item chunk
    exact propext ⟨encode_of_encodes, encodes_of_encode h⟩
  simp only [encodes, ← mapM_eq_ok_iff, assemble]
  split
  · next chunks hc => simp [hc]
  · next label hl => simp [hl]

/-- **A section that cannot be laid out** refers to a label that it does not define, and the first
such reference is reported. -/
theorem assemble_eq_error_iff {e : UnresolvedLabel} :
    assemble id items = .error e ↔ ∃ label, FirstMissing items label ∧ e = ⟨label, id⟩ := by
  have traversal : assemble id items = .error e ↔ ∃ label,
      items.mapM (Item.encode fun label => (offsets items)[label.id]?) = .error label ∧
        e = ⟨label, id⟩ := by
    simp only [assemble]
    split
    · next chunks hc => simp [hc]
    · next label hl => simp [hl, eq_comm]
  rw [traversal]
  refine exists_congr fun label => and_congr_left fun _ => ?_
  simp only [mapM_eq_error_iff, encode_eq_error_iff]
  constructor
  · rintro ⟨before, item, after, hi, ⟨rfl, hd⟩, hb⟩
    refine ⟨before, after, hi, hd, fun other hm => ?_⟩
    obtain ⟨bytes, he⟩ := hb _ hm
    exact define_mem_of_encode he
  · rintro ⟨before, after, hi, hd, hb⟩
    refine ⟨before, .refer label, after, hi, ⟨rfl, hd⟩, fun item hm => ?_⟩
    cases he : item.encode (fun label => (offsets items)[label.id]?) with
    | ok bytes => exact ⟨bytes, rfl⟩
    | error other =>
      obtain ⟨rfl, hn⟩ := encode_eq_error_iff.mp he
      exact absurd (hb other hm) hn

/-- **Items can be laid out if they define the labels they refer to**, and only then. -/
theorem exists_assemble_iff :
    (∃ bytes, assemble id items = .ok bytes) ↔
      ∀ label, .refer label ∈ items → .define label ∈ items := by
  constructor
  · rintro ⟨bytes, hb⟩ label hr
    exact define_mem_of_assemble hb hr
  · intro h
    cases ha : assemble id items with
    | ok bytes => exact ⟨bytes, rfl⟩
    | error e =>
      obtain ⟨label, ⟨before, after, rfl, hd, -⟩, -⟩ := assemble_eq_error_iff.mp ha
      exact absurd (h label (by simp)) hd

theorem length_assemble_eq_sum {bytes : Bytes} (h : assemble id items = .ok bytes) :
    bytes.length = (items.map Item.size).sum := by
  rw [length_assemble h, wordCount, ← List.sum_map_mul_left]
  rfl

/-- **The layout of items** that take less than `2 ^ 32` words together. They can be laid out
exactly if every label that they refer to is defined somewhere among them. Otherwise the error is
the first reference to a label without a definition. The bytes are those of the items in their
order, as many as the items take, and a reference is the number of words before the last definition
of its label. -/
theorem references_exact (id : Nat) (items : List Item) (h : wordCount items < 2 ^ 32) :
    ((∃ bytes, assemble id items = .ok bytes) ↔
        ∀ label, .refer label ∈ items → .define label ∈ items) ∧
      (∀ e, assemble id items = .error e ↔
        ∃ label, FirstMissing items label ∧ e = ⟨label, id⟩) ∧
      (∀ bytes, assemble id items = .ok bytes ↔
        ∃ chunks, List.Forall₂ (Item.Encodes items) items chunks ∧ chunks.flatten = bytes) ∧
      ∀ bytes, assemble id items = .ok bytes → bytes.length = (items.map Item.size).sum := by
  refine ⟨exists_assemble_iff, fun e => assemble_eq_error_iff, fun bytes => ?_, fun bytes hb => ?_⟩
  · exact assemble_eq_ok_iff h
  · exact length_assemble_eq_sum hb

/-- A forward reference to a label that is defined twice goes to the second definition, behind the
two words of a number; of two labels without a definition the first reference is reported. -/
theorem references_exact_repeated :
    wordCount [.refer ⟨7⟩, .define ⟨7⟩, .number ⟨1⟩, .define ⟨7⟩, .word 5] < 2 ^ 32 ∧
      assemble 4 [.refer ⟨7⟩, .define ⟨7⟩, .number ⟨1⟩, .define ⟨7⟩, .word 5] =
        .ok [3, 0, 0, 0, 1, 0, 0, 0, 0, 0, 0, 0, 5, 0, 0, 0] ∧
      assemble 4 [.refer ⟨7⟩, .refer ⟨3⟩, .define ⟨7⟩, .refer ⟨2⟩] = .error ⟨⟨3⟩, 4⟩ := by
  refine ⟨by decide, ?_, ?_⟩
  · apply ((references_exact 4 _ (by decide)).2.2.1 _).mpr
    refine ⟨[wordBytes 3, [], wordBytes 1 ++ wordBytes 0, [], wordBytes 5], ?_, by decide⟩
    refine .cons ?_ (.cons (.define _) (.cons (.number ⟨1⟩) (.cons (.define _)
      (.cons (.word 5) .nil))))
    exact @Item.Encodes.refer _ ⟨7⟩ [.refer ⟨7⟩, .define ⟨7⟩, .number ⟨1⟩] [.word 5] 3 rfl
      (by decide) (by decide)
  · apply ((references_exact 4 _ (by decide)).2.1 _).mpr
    exact ⟨⟨3⟩, ⟨[.refer ⟨7⟩], [.define ⟨7⟩, .refer ⟨2⟩], rfl, by decide, by simp⟩, rfl⟩

end Layout

end ScriptCompiler
