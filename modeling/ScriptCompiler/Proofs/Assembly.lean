import ScriptCompiler.Proofs.Layout

/-!
# Lines of assembly

The items of a section come in groups: an opcode with its operands, or the definition of a label.
A line is one such group before strings and labels have become numbers. Laying out the items of
shaped lines and listing the bytes again gives one instruction for every line that is not a
definition, in order, at the offset that the lines before it take up.

## Main definitions

* `Line`: an instruction whose operands may be names, or the definition of a label
* `Line.items`: the items of a line
* `Line.Shaped`: the operands are as many as the opcode takes
* `Assembly.listing`: the instructions of lines

## Main results

* `Assembly.ofBytes_assemble`: assembled lines are listed as their instructions
* `Assembly.target_of_unique`: the offset of a label that is defined once
* `Assembly.exists_define_of_jump`: a jump goes to the place of a definition of its label
-/

namespace ScriptCompiler

theorem toNat_toUInt32 {n : Nat} (h : n < 2 ^ 32) : n.toUInt32.toNat = n :=
  UInt32.toNat_ofNat_of_lt h

/-- **A line of assembly.** -/
inductive Line where
  /-- An instruction without operands. -/
  | plain (op : Opcode)
  /-- An instruction with one operand. -/
  | unary (op : Opcode) (operand : Nat)
  /-- An instruction with two operands. -/
  | binary (op : Opcode) (first second : Nat)
  /-- A number literal. -/
  | number (value : Binary64)
  /-- An instruction whose operand is a string. -/
  | text (op : Opcode) (string : String)
  /-- A jump to a label. -/
  | jump (op : Opcode) (label : Label)
  /-- The place a label stands for. -/
  | define (label : Label)
deriving DecidableEq, Repr, Inhabited

namespace Line

/-- How many words a line takes. -/
def words : Line → Nat
  | plain _ => 1
  | unary .. | text .. | jump .. => 2
  | binary .. | number _ => 3
  | define _ => 0

/-- The items of a line; a string stands for its position among `strings`. -/
def items (strings : List String) : Line → List Item
  | plain op => [.opcode op]
  | unary op operand => [.opcode op, .word operand.toUInt32]
  | binary op first second => [.opcode op, .word first.toUInt32, .word second.toUInt32]
  | number value => [.opcode .pushNumber, .number value]
  | text op string => [.opcode op, .word (strings.idxOf string).toUInt32]
  | jump op label => [.opcode op, .refer label]
  | define label => [.define label]

/-- The operands of a line are as many as its opcode takes, and labels are the operands of jumps. -/
def Shaped : Line → Prop
  | plain op => op.operandWords = 0
  | unary op _ | text op _ => op.operandWords = 1 ∧ op.isJump = false
  | binary op _ _ => op.operandWords = 2
  | jump op _ => op.isJump = true
  | number _ | define _ => True

instance (line : Line) : Decidable line.Shaped := by
  cases line <;> unfold Shaped <;> infer_instance

/-- The instruction of a line that starts at `offset`; a definition is none. -/
def instruction? (strings : List String) (target : Label → Nat) (offset : Nat) :
    Line → Option Instruction
  | plain op => some ⟨offset, op, []⟩
  | unary op operand => some ⟨offset, op, [operand.toUInt32]⟩
  | binary op first second => some ⟨offset, op, [first.toUInt32, second.toUInt32]⟩
  | number value => some ⟨offset, .pushNumber, [value.low, value.high]⟩
  | text op string => some ⟨offset, op, [(strings.idxOf string).toUInt32]⟩
  | jump op label => some ⟨offset, op, [(target label).toUInt32]⟩
  | define _ => none

theorem offset_of_instruction? {strings : List String} {target : Label → Nat} {offset : Nat}
    {line : Line} {i : Instruction} (h : line.instruction? strings target offset = some i) :
    i.offset = offset := by
  cases line <;> cases h <;> rfl

theorem define_mem_items {strings : List String} {line : Line} {label : Label} :
    .define label ∈ line.items strings ↔ line = .define label := by
  cases line <;> simp [items, eq_comm]

theorem wordCount_items (strings : List String) (line : Line) :
    Layout.wordCount (line.items strings) = line.words := by
  cases line <;> rfl

end Line

theorem Opcode.operandWords_of_isJump {op : Opcode} (h : op.isJump = true) :
    op.operandWords = 1 := by
  cases op <;> first | rfl | cases h

/-- An instruction of a shaped line is its opcode, followed by the operands that this takes. -/
theorem Line.code_of_instruction? {strings : List String} {target : Label → Nat} {offset : Nat}
    {line : Line} (hs : line.Shaped) {i : Instruction}
    (hi : line.instruction? strings target offset = some i) :
    (line.items strings).flatMap (Item.code target) = i.opcode.code :: i.operands ∧
      i.operands.length = i.opcode.operandWords ∧ line.words = 1 + i.opcode.operandWords := by
  cases line with
  | plain op =>
    cases hi
    exact ⟨rfl, hs.symm, congrArg (1 + ·) hs.symm⟩
  | unary op operand =>
    cases hi
    exact ⟨rfl, hs.1.symm, congrArg (1 + ·) hs.1.symm⟩
  | binary op first second =>
    cases hi
    exact ⟨rfl, hs.symm, congrArg (1 + ·) hs.symm⟩
  | number value =>
    cases hi
    exact ⟨rfl, rfl, rfl⟩
  | text op string =>
    cases hi
    exact ⟨rfl, hs.1.symm, congrArg (1 + ·) hs.1.symm⟩
  | jump op label =>
    cases hi
    have hw := Opcode.operandWords_of_isJump hs
    exact ⟨rfl, hw.symm, congrArg (1 + ·) hw.symm⟩
  | define label => cases hi

namespace Assembly

/-- How many words lines take together. -/
def wordCount (lines : List Line) : Nat := (lines.map Line.words).sum

@[simp] theorem wordCount_nil : wordCount [] = 0 := rfl

@[simp] theorem wordCount_cons (line : Line) (lines : List Line) :
    wordCount (line :: lines) = line.words + wordCount lines := by
  simp [wordCount]

@[simp] theorem wordCount_append (lines more : List Line) :
    wordCount (lines ++ more) = wordCount lines + wordCount more := by
  simp [wordCount]

/-- The items of lines. -/
def items (strings : List String) (lines : List Line) : List Item :=
  lines.flatMap (Line.items strings)

@[simp] theorem items_append (strings : List String) (lines more : List Line) :
    items strings (lines ++ more) = items strings lines ++ items strings more := by
  simp [items]

@[simp] theorem wordCount_items (strings : List String) (lines : List Line) :
    Layout.wordCount (items strings lines) = wordCount lines := by
  induction lines with
  | nil => rfl
  | cons line lines ih =>
    rw [items, List.flatMap_cons, Layout.wordCount_append, Line.wordCount_items, wordCount_cons]
    exact congrArg _ ih

theorem define_mem_items {strings : List String} {lines : List Line} {label : Label} :
    .define label ∈ items strings lines ↔ .define label ∈ lines := by
  simp only [items, List.mem_flatMap, Line.define_mem_items]
  constructor
  · rintro ⟨line, hm, rfl⟩
    exact hm
  · exact fun h => ⟨_, h, rfl⟩

/-! ## Listings of lines -/

/-- **The instructions of lines**, the first of which starts at `offset`. -/
def listing (strings : List String) (target : Label → Nat) (offset : Nat) :
    List Line → List Instruction
  | [] => []
  | line :: lines =>
    (line.instruction? strings target offset).toList ++
      listing strings target (offset + line.words) lines

section Listing

variable {strings : List String} {target : Label → Nat}

theorem listing_append (offset : Nat) (lines more : List Line) :
    listing strings target offset (lines ++ more) =
      listing strings target offset lines ++
        listing strings target (offset + wordCount lines) more := by
  induction lines generalizing offset with
  | nil => simp [listing]
  | cons line lines ih => simp [listing, ih, Nat.add_assoc]

/-- Every instruction of a listing comes from a line, at the offset that the lines before it take
up. -/
theorem exists_line_of_mem {offset : Nat} {lines : List Line} {i : Instruction}
    (h : i ∈ listing strings target offset lines) :
    ∃ before line after, lines = before ++ line :: after ∧
      line.instruction? strings target (offset + wordCount before) = some i := by
  induction lines generalizing offset with
  | nil => cases h
  | cons line lines ih =>
    rw [listing, List.mem_append, Option.mem_toList] at h
    rcases h with h | h
    · exact ⟨[], line, lines, rfl, h⟩
    · obtain ⟨before, line', after, rfl, hi⟩ := ih h
      refine ⟨line :: before, line', after, rfl, ?_⟩
      rwa [wordCount_cons, ← Nat.add_assoc]

/-- Lines with an instruction among them are listed from their own offset on. -/
theorem exists_head_listing (offset : Nat) {lines : List Line} {line : Line}
    (hm : line ∈ lines) (hi : (line.instruction? strings target 0).isSome) :
    ∃ i rest, listing strings target offset lines = i :: rest ∧ i.offset = offset := by
  induction lines with
  | nil => cases hm
  | cons first lines ih =>
    cases hf : first.instruction? strings target offset with
    | some i =>
      refine ⟨i, listing strings target (offset + first.words) lines, ?_,
        Line.offset_of_instruction? hf⟩
      simp [listing, hf]
    | none =>
      cases first with
      | define label =>
        rcases List.mem_cons.mp hm with rfl | hm
        · cases hi
        · exact ih hm
      | _ => cases hf

theorem ofWords_code {lines : List Line} (hs : ∀ line ∈ lines, line.Shaped) (offset : Nat) :
    Listing.ofWords offset ((items strings lines).flatMap (Item.code target)) =
      .ok (listing strings target offset lines) := by
  induction lines generalizing offset with
  | nil => rfl
  | cons line lines ih =>
    have ih := fun offset => ih (fun l hl => hs l (List.mem_cons_of_mem _ hl)) offset
    rw [items, List.flatMap_cons, List.flatMap_append, listing]
    cases hi : line.instruction? strings target offset with
    | none =>
      cases line with
      | define label => exact ih offset
      | _ => cases hi
    | some i =>
      obtain ⟨hcode, hlen, hwords⟩ := Line.code_of_instruction? (hs line List.mem_cons_self) hi
      rw [hcode, hwords, List.cons_append, Listing.ofWords_instruction hlen]
      simp only [items] at ih
      rw [ih, ← Line.offset_of_instruction? hi]
      rfl

end Listing

/-! ## Assembled lines -/

section Assembled

variable {id : Nat} {strings : List String} {lines : List Line} {bytes : Bytes}

/-- **Assembled lines are listed as their instructions.** -/
theorem ofBytes_assemble (hs : ∀ line ∈ lines, line.Shaped)
    (h : Layout.assemble id (items strings lines) = .ok bytes) :
    Listing.ofBytes bytes =
      .ok (listing strings (Layout.target (items strings lines)) 0 lines) := by
  rw [Listing.ofBytes, Layout.words_assemble h]
  exact ofWords_code hs 0

/-- The offset of a label is that of its last definition. -/
theorem target_of_last {label : Label} (before after : List Line) (h : .define label ∉ after) :
    Layout.target (items strings (before ++ .define label :: after)) label = wordCount before := by
  have hi : items strings (before ++ .define label :: after) =
      items strings before ++ .define label :: items strings after := by
    simp [items, Line.items]
  rw [hi, Layout.target_of_last _ _ (mt define_mem_items.mp h), wordCount_items]

/-- The labels that lines define, in order. -/
def defined (lines : List Line) : List Label :=
  lines.filterMap fun
    | .define label => some label
    | _ => none

@[simp] theorem defined_nil : defined [] = [] := rfl

@[simp] theorem defined_append (lines more : List Line) :
    defined (lines ++ more) = defined lines ++ defined more := by
  simp [defined]

theorem mem_defined {lines : List Line} {label : Label} :
    label ∈ defined lines ↔ .define label ∈ lines := by
  simp only [defined, List.mem_filterMap]
  constructor
  · rintro ⟨line, hm, hl⟩
    cases line with
    | define other => cases hl; exact hm
    | _ => cases hl
  · exact fun h => ⟨_, h, rfl⟩

/-- **The offset of a label that is defined once** is that of its definition. -/
theorem target_of_unique {label : Label} {before after : List Line}
    (h : (defined (before ++ .define label :: after)).Nodup) :
    Layout.target (items strings (before ++ .define label :: after)) label = wordCount before := by
  apply target_of_last
  intro hm
  have hd : defined (before ++ .define label :: after) =
      defined before ++ label :: defined after := by
    simp [defined]
  rw [hd, List.nodup_append] at h
  exact (List.nodup_cons.mp h.2.1).1 (mem_defined.mpr hm)

/-- **A jump goes to the place of a definition** of its label. -/
theorem exists_define_of_jump {op : Opcode} {label : Label}
    (h : Layout.assemble id (items strings lines) = .ok bytes) (hj : .jump op label ∈ lines) :
    ∃ before after, lines = before ++ .define label :: after ∧
      Layout.target (items strings lines) label = wordCount before := by
  have hr : .refer label ∈ items strings lines :=
    List.mem_flatMap.mpr ⟨_, hj, by simp [Line.items]⟩
  have hd := define_mem_items.mp (Layout.define_mem_of_assemble h hr)
  obtain ⟨before, after, he, hn⟩ := Layout.exists_last hd
  refine ⟨before, after, he, ?_⟩
  rw [he]
  exact target_of_last before after hn

/-- An assembled section takes four bytes for every word of its lines. -/
theorem length_assemble (h : Layout.assemble id (items strings lines) = .ok bytes) :
    bytes.length = 4 * wordCount lines := by
  rw [Layout.length_assemble h, wordCount_items]

end Assembled

end Assembly

end ScriptCompiler
