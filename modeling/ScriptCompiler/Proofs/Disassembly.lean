import ScriptCompiler.Proofs.Resolution

/-!
# Sections as they are written and as they are listed

A section is written as instructions with definitions of labels between them. Its layout goes by the
kinds of the items, while the listing of its bytes goes by the number of operand words that belongs
to each opcode. The two agree for every section in which each instruction has the operands that its
opcode takes: the listing is what has been written, with every label at its place. The other way
round, the bytes of any listing are those that its instructions are laid out as.

## Main definitions

* `Operand`, `Draft`: instructions and definitions of labels, as a section is written
* `Draft.listing`: the instructions of drafts, given the word that stands for each label
* `Draft.Stands`: the place of a label among the instructions of a listing
* `Instruction.items`: a listed instruction, written again

## Main results

* `Draft.ofWords_code`: the words of drafts are listed as their instructions
* `Draft.stands_of_mem`: every label that is defined has its place
* `Listing.words_of_ofWords`: a listing contains all the words that it is read from
* `Listing.transcription_exact`: layout and listing are inverse
-/

namespace ScriptCompiler

/-- **An operand**, as it is written. -/
inductive Operand where
  | word (w : UInt32)
  /-- A number literal, which is two words. -/
  | number (x : Binary64)
  /-- The offset of a label. -/
  | refer (label : Label)
deriving DecidableEq, Repr, Inhabited

namespace Operand

/-- The item that is written for an operand. -/
def item : Operand → Item
  | word w => .word w
  | number x => .number x
  | refer label => .refer label

/-- The words of an operand, given the word that stands for each label. -/
def words (place : Label → UInt32) : Operand → List UInt32
  | word w => [w]
  | number x => [x.low, x.high]
  | refer label => [place label]

end Operand

/-- **What a section is written as**: an instruction, whose operands fill the words that its opcode
takes, or the definition of a label between two instructions. -/
inductive Draft where
  | instruction (opcode : Opcode) (operands : List Operand)
    (filled : Layout.wordCount (operands.map Operand.item) = opcode.operandWords)
  | define (label : Label)
deriving DecidableEq

namespace Draft

/-- The items that are written for drafts. -/
def items (drafts : List Draft) : List Item :=
  drafts.flatMap fun
    | instruction op operands _ => .opcode op :: operands.map Operand.item
    | define label => [.define label]

/-- **The instructions of drafts**, the first of which is at `offset`, given the word that stands
for each label. -/
def listing (place : Label → UInt32) (offset : Nat) : List Draft → List Instruction
  | [] => []
  | instruction op operands _ :: rest =>
    ⟨offset, op, operands.flatMap (Operand.words place)⟩ ::
      listing place (offset + (1 + op.operandWords)) rest
  | define _ :: rest => listing place offset rest

/-- **The place of a label**: the offset of the first instruction after its last definition, or the
size of the section if that is the end of it. -/
def Stands (place : Label → UInt32) (drafts : List Draft) (label : Label) : Prop :=
  ∃ before after rest, drafts = before ++ .define label :: after ∧ .define label ∉ after ∧
    listing place 0 drafts = listing place 0 before ++ rest ∧
    (place label).toNat =
      (rest.head?.map Instruction.offset).getD (Layout.wordCount (items drafts))

/-! ## Words of drafts -/

section Words

@[simp] theorem items_nil : items [] = [] := rfl

@[simp] theorem items_append (drafts more : List Draft) :
    items (drafts ++ more) = items drafts ++ items more := by
  simp [items]

theorem items_instruction {op : Opcode} {operands : List Operand}
    (filled : Layout.wordCount (operands.map Operand.item) = op.operandWords)
    (drafts : List Draft) :
    items (instruction op operands filled :: drafts) =
      .opcode op :: (operands.map Operand.item ++ items drafts) := rfl

theorem items_define (label : Label) (drafts : List Draft) :
    items (define label :: drafts) = .define label :: items drafts := rfl

theorem wordCount_instruction {op : Opcode} {operands : List Operand}
    (filled : Layout.wordCount (operands.map Operand.item) = op.operandWords)
    (drafts : List Draft) :
    Layout.wordCount (items (instruction op operands filled :: drafts)) =
      1 + op.operandWords + Layout.wordCount (items drafts) := by
  rw [items_instruction, Layout.wordCount_cons, Layout.wordCount_append, filled, Nat.add_assoc]
  rfl

theorem define_mem_items {label : Label} {drafts : List Draft} :
    .define label ∈ items drafts ↔ .define label ∈ drafts := by
  induction drafts with
  | nil => simp
  | cons draft drafts ih =>
    cases draft with
    | define other => simp [items_define, ih]
    | instruction op operands filled =>
      have hn : .define label ∉ operands.map Operand.item := by
        intro hm
        obtain ⟨operand, -, ho⟩ := List.mem_map.mp hm
        cases operand <;> cases ho
      simp [items_instruction, ih, hn]

/-- What the layout makes of operands. -/
theorem flatMap_code (target : Label → Nat) (operands : List Operand) :
    (operands.map Operand.item).flatMap (Item.code target) =
      operands.flatMap (Operand.words fun label => (target label).toUInt32) := by
  rw [List.flatMap_map]
  congr 1
  funext operand
  cases operand <;> rfl

/-- **The words of drafts are listed as their instructions.** -/
theorem ofWords_code (target : Label → Nat) (offset : Nat) (drafts : List Draft) :
    Listing.ofWords offset ((items drafts).flatMap (Item.code target)) =
      .ok (listing (fun label => (target label).toUInt32) offset drafts) := by
  induction drafts generalizing offset with
  | nil => rfl
  | cons draft drafts ih =>
    cases draft with
    | define label => exact ih offset
    | instruction op operands filled =>
      have hlen : (operands.flatMap
          (Operand.words fun label => (target label).toUInt32)).length = op.operandWords := by
        rw [← flatMap_code, Layout.length_flatMap_code, filled]
      rw [items_instruction, List.flatMap_cons, List.flatMap_append, flatMap_code, Item.code,
        List.singleton_append, Listing.ofWords_instruction hlen, ih]
      rfl

end Words

/-! ## Offsets of drafts -/

section Offsets

variable (place : Label → UInt32)

theorem listing_append (offset : Nat) (before after : List Draft) :
    listing place offset (before ++ after) = listing place offset before ++
      listing place (offset + Layout.wordCount (items before)) after := by
  induction before generalizing offset with
  | nil => rfl
  | cons draft before ih =>
    cases draft with
    | define label =>
      rw [items_define, Layout.wordCount_cons]
      simpa [listing, Item.words] using ih offset
    | instruction op operands filled =>
      rw [wordCount_instruction, ← Nat.add_assoc]
      exact congrArg _ (ih _)

/-- A listing starts at the offset of its drafts, or ends there if it is empty. -/
theorem head?_listing (offset : Nat) (drafts : List Draft) :
    ((listing place offset drafts).head?.map Instruction.offset).getD
      (offset + Layout.wordCount (items drafts)) = offset := by
  induction drafts with
  | nil => rfl
  | cons draft drafts ih =>
    cases draft with
    | define label =>
      rw [items_define, Layout.wordCount_cons]
      simpa [listing, Item.words] using ih
    | instruction op operands filled => rfl

/-- **Every label that is defined has its place.** -/
theorem stands_of_mem {drafts : List Draft} {label : Label} (hd : .define label ∈ drafts)
    (hs : Layout.wordCount (items drafts) < 2 ^ 32) :
    Stands (fun label => (Layout.target (items drafts) label).toUInt32) drafts label := by
  obtain ⟨before, after, rfl, hn⟩ := Layout.exists_last hd
  refine ⟨before, after, _, rfl, hn, listing_append _ 0 before _, ?_⟩
  have htarget : Layout.target (items (before ++ .define label :: after)) label =
      Layout.wordCount (items before) := by
    rw [items_append, items_define, Layout.target_of_last _ _ (mt define_mem_items.mp hn)]
  have hcount : Layout.wordCount (items (before ++ .define label :: after)) =
      0 + Layout.wordCount (items before) + Layout.wordCount (items (.define label :: after)) := by
    rw [items_append, Layout.wordCount_append, Nat.zero_add]
  have hlt : Layout.wordCount (items before) < 2 ^ 32 := by omega
  rw [hcount, head?_listing, Nat.zero_add]
  show (Layout.target _ label).toUInt32.toNat = _
  rw [htarget, Nat.toUInt32_eq, UInt32.toNat_ofNat_of_lt' hlt]

end Offsets

end Draft

/-! ## Listings of bytes -/

/-- An instruction of a listing, as it is written. -/
def Instruction.items (i : Instruction) : List Item := .opcode i.opcode :: i.operands.map .word

theorem wordsOfBytes?_go_eq_some {read : Array UInt32} {bytes : Bytes} {words : List UInt32}
    (h : wordsOfBytes?.go read bytes = some words) :
    words.flatMap wordBytes = read.toList.flatMap wordBytes ++ bytes := by
  fun_induction wordsOfBytes?.go read bytes with
  | case1 read =>
    cases h
    rw [List.append_nil]
  | case2 read a b c d rest ih =>
    rw [ih h, Array.toList_push, List.flatMap_append, List.append_assoc]
    simp [wordBytes_wordOfBytes]
  | case3 => cases h

/-- Bytes that can be read as words are the bytes of those words. -/
theorem flatMap_of_wordsOfBytes? {bytes : Bytes} {words : List UInt32}
    (h : wordsOfBytes? bytes = some words) : words.flatMap wordBytes = bytes :=
  wordsOfBytes?_go_eq_some h

namespace Listing

theorem exists_tail {i : Instruction} {tail : Except ListingError (List Instruction)}
    {is : List Instruction} (h : (do return i :: (← tail)) = Except.ok is) :
    ∃ rest, tail = .ok rest ∧ is = i :: rest := by
  cases tail with
  | error e => cases h
  | ok rest =>
    cases h
    exact ⟨rest, rfl, rfl⟩

/-- **A listing contains all the words that it is read from.** -/
theorem words_of_ofWords {offset : Nat} {words : List UInt32} {is : List Instruction}
    (h : ofWords offset words = .ok is) :
    words = is.flatMap fun i => i.opcode.code :: i.operands := by
  -- Along the recursion of the reader, which takes one instruction at a time.
  fun_induction ofWords offset words generalizing is with
  | case1 =>
    cases h
    rfl
  | case2 | case6 => cases h
  | case3 _ _ _ hc _ _ ih | case4 _ _ _ hc _ _ _ ih | case5 _ _ _ hc _ _ _ _ ih =>
    obtain ⟨tail, ht, rfl⟩ := exists_tail h
    rw [List.flatMap_cons, ← ih ht, Opcode.code_of_ofCode? hc]
    rfl

theorem flatMap_code_items (target : Label → Nat) (is : List Instruction) :
    (is.flatMap Instruction.items).flatMap (Item.code target) =
      is.flatMap fun i => i.opcode.code :: i.operands := by
  rw [List.flatMap_assoc]
  congr 1
  funext i
  show i.opcode.code :: (i.operands.map Item.word).flatMap (Item.code target) = _
  rw [List.flatMap_map]
  exact congrArg _ (List.flatMap_singleton' i.operands)

/-- **The bytes of a listing are those that its instructions are laid out as.** -/
theorem assemble_of_ofBytes (id : Nat) {bytes : Bytes} {is : List Instruction}
    (h : ofBytes bytes = .ok is) :
    Layout.assemble id (is.flatMap Instruction.items) = .ok bytes := by
  have hrefer : ∀ label, .refer label ∉ is.flatMap Instruction.items := by
    simp [Instruction.items]
  obtain ⟨laid, hlaid⟩ := Layout.exists_assemble_iff.mpr fun label hr => absurd hr (hrefer label)
  rw [hlaid, (Layout.assemble_ok hlaid).1, flatMap_code_items]
  unfold ofBytes at h
  cases hw : wordsOfBytes? bytes with
  | none =>
    rw [hw] at h
    cases h
  | some words =>
    rw [hw] at h
    rw [← words_of_ofWords h, flatMap_of_wordsOfBytes? hw]

/-- **Layout and listing are inverse.** Whatever a section of less than `2 ^ 32` words is written
as, it can be laid out if every label that it refers to is defined in it, and the listing of its
bytes has the instructions that have been written, in their order: each at the number of words that
come before it, with its own operands, a label being its place and a number literal all of its bits.
The other way round, the instructions of every listing are laid out as the bytes it is made of. -/
theorem transcription_exact (id : Nat) :
    (∀ drafts, (∀ label, .refer label ∈ Draft.items drafts → .define label ∈ drafts) →
      Layout.wordCount (Draft.items drafts) < 2 ^ 32 →
      ∃ bytes place, Layout.assemble id (Draft.items drafts) = .ok bytes ∧
        ofBytes bytes = .ok (Draft.listing place 0 drafts) ∧
        (∀ label, .define label ∈ drafts → Draft.Stands place drafts label) ∧
        ∀ before op operands filled after,
          drafts = before ++ .instruction op operands filled :: after →
          ∃ i rest, Draft.listing place 0 drafts = Draft.listing place 0 before ++ i :: rest ∧
            i.offset = Layout.wordCount (Draft.items before) ∧ i.opcode = op ∧
            i.operands = operands.flatMap (Operand.words place) ∧
            ∀ x, op = .pushNumber → operands = [.number x] → i.number? = some x) ∧
    ∀ bytes is, ofBytes bytes = .ok is →
      Layout.assemble id (is.flatMap Instruction.items) = .ok bytes := by
  refine ⟨fun drafts hdefined hsize => ?_, fun bytes is => assemble_of_ofBytes id⟩
  obtain ⟨bytes, hb⟩ : ∃ bytes, Layout.assemble id (Draft.items drafts) = .ok bytes :=
    Layout.exists_assemble_iff.mpr fun label hr => Draft.define_mem_items.mpr (hdefined label hr)
  refine ⟨bytes, fun label => (Layout.target (Draft.items drafts) label).toUInt32, hb, ?_,
    fun label hd => Draft.stands_of_mem hd hsize, ?_⟩
  · rw [ofBytes, Layout.words_assemble hb]
    exact Draft.ofWords_code _ 0 drafts
  · rintro before op operands filled after rfl
    refine ⟨_, _, Draft.listing_append _ 0 before _, Nat.zero_add _, rfl, rfl, ?_⟩
    rintro x rfl rfl
    exact congrArg some (Binary64.ofWords_low_high x)

/-- A NaN with a payload, a jump to the end of the section and a jump back to its start. -/
theorem transcription_exact_jumps :
    ∃ bytes, Layout.assemble 0 (Draft.items [.define ⟨1⟩,
        .instruction .pushNumber [.number ⟨0xFFF0000000000001⟩] rfl,
        .instruction .jumpIfFalse [.refer ⟨0⟩] rfl, .instruction .jump [.refer ⟨1⟩] rfl,
        .define ⟨0⟩]) = .ok bytes ∧
      ofBytes bytes = .ok [⟨0, .pushNumber, [1, 0xFFF00000]⟩, ⟨3, .jumpIfFalse, [7]⟩,
        ⟨5, .jump, [0]⟩] ∧
      Layout.assemble 0 [.opcode .pushNumber, .word 1, .word 0xFFF00000,
        .opcode .jumpIfFalse, .word 7, .opcode .jump, .word 0] = .ok bytes := by
  obtain ⟨listed, laid⟩ := transcription_exact 0
  obtain ⟨bytes, place, hb, hl, -⟩ := listed [.define ⟨1⟩,
    .instruction .pushNumber [.number ⟨0xFFF0000000000001⟩] rfl,
    .instruction .jumpIfFalse [.refer ⟨0⟩] rfl, .instruction .jump [.refer ⟨1⟩] rfl,
    .define ⟨0⟩] (by simp [Draft.items, Operand.item]) (by decide)
  have hwords : bytes = [2, 1, 0xFFF00000, 14, 7, 12, 0].flatMap wordBytes :=
    Except.ok.inj (hb.symm.trans (by decide +kernel))
  have hlisted : Draft.listing place 0 _ =
      [⟨0, .pushNumber, [1, 0xFFF00000]⟩, ⟨3, .jumpIfFalse, [7]⟩, ⟨5, .jump, [0]⟩] :=
    Except.ok.inj (hl.symm.trans (by rw [hwords]; decide))
  rw [hlisted] at hl
  exact ⟨bytes, hb, hl, laid _ _ hl⟩

end Listing

end ScriptCompiler
