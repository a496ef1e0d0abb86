import ScriptCompiler.Proofs.Bounds
import ScriptCompiler.Proofs.Machine

/-!
# From lines to commands

What the machine fetches at the offset of a line is the command that the line stands for. Operands
are words, so this takes that everything an operand counts or numbers fits a word: the words of the
section, the strings, the sections, and the local names of every function around it.

## Main definitions

* `Line.command?`: the command of a line
* `Line.Fits`: the operands of a line fit a word
* `CodeAt`: the machine has the code of lines from an offset on

## Main results

* `Emits.fits`: the operands of the lines of a plan fit
* `Assembled.codeAt`: the machine has the code of a section from its first offset on
-/

namespace ScriptCompiler

namespace Line

/-- The command of a line, where `target` gives the offsets of labels. -/
def command? (target : Label → Nat) : Line → Option Command
  | plain op => op.command? (fun _ => none) []
  | unary op operand => op.command? (fun _ => none) [operand]
  | binary op first second => op.command? (fun _ => none) [first, second]
  | number value => some (.constant (.number value))
  | text .pushString string => some (.constant (.string string))
  | text .pushGlobal string => some (.loadGlobal string)
  | text .setGlobal string => some (.storeGlobal string)
  | text .member string => some (.member string)
  | text .setMember string => some (.setMember string)
  | text _ _ => none
  | jump op label => op.command? (fun _ => none) [target label]
  | define _ => none

/-- The operands of a line fit a word. -/
def Fits : Line → Prop
  | unary _ operand => operand < 2 ^ 32
  | binary _ first second => first < 2 ^ 32 ∧ second < 2 ^ 32
  | _ => True

theorem fits_of_counts {bound : Nat} {l : Line} (h : l.Counts bound) (hb : bound < 2 ^ 32) :
    l.Fits := by
  cases l with
  | unary op operand => exact Nat.lt_of_le_of_lt h.2 hb
  | binary => cases h
  | _ => trivial

/-- The instruction of a line has the command of the line. -/
theorem command?_of_instruction? {strings : List String} {target : Label → Nat} {offset : Nat}
    {l : Line} {i : Instruction} {c : Command}
    (hi : l.instruction? strings target offset = some i) (hc : l.command? target = some c)
    (hf : l.Fits) (hs : strings.length ≤ 2 ^ 32) (ht : ∀ text, l.text? = some text → text ∈ strings)
    (hj : ∀ op label, l = .jump op label → target label < 2 ^ 32) :
    i.command? strings = some c := by
  cases l with
  | plain op =>
    cases hi
    cases op <;> exact hc
  | unary op operand =>
    cases hi
    have hw := toNat_toUInt32 (show operand < 2 ^ 32 from hf)
    rw [Instruction.command?, List.map_singleton, hw]
    cases op <;> first | exact hc | cases hc
  | binary op first second =>
    cases hi
    rw [Instruction.command?, List.map_cons, List.map_singleton, toNat_toUInt32 hf.1,
      toNat_toUInt32 hf.2]
    cases op <;> exact hc
  | number value =>
    cases hi
    cases hc
    simp [Instruction.command?, Opcode.command?]
  | text op string =>
    cases hi
    have hm := ht string rfl
    have hw : (strings.idxOf string).toUInt32.toNat = strings.idxOf string :=
      toNat_toUInt32 (Nat.lt_of_lt_of_le (List.idxOf_lt_length_of_mem hm) hs)
    rw [Instruction.command?, List.map_singleton, hw]
    cases op with
    | pushString | pushGlobal | setGlobal | member | setMember =>
      cases hc
      simp [Opcode.command?, List.getElem?_idxOf hm]
    | _ => cases hc
  | jump op label =>
    cases hi
    rw [Instruction.command?, List.map_singleton, toNat_toUInt32 (hj op label rfl)]
    cases op <;> first | exact hc | cases hc
  | define label => cases hi

end Line

/-! ## Operands fit -/

/-- A section is noted only right before it is opened. -/
def Noted : List Part → Prop
  | [] => True
  | .note :: rest => (∃ r more, rest = .literal r :: more) ∧ Noted rest
  | _ :: rest => Noted rest

theorem Noted.tail {p : Part} {rest : List Part} (h : Noted (p :: rest)) : Noted rest := by
  cases p with
  | note => exact h.2
  | _ => exact h

theorem noted_of_notMem {parts : List Part} (h : ∀ p ∈ parts, p ≠ .note) : Noted parts := by
  induction parts with
  | nil => trivial
  | cons p rest ih =>
    rw [List.forall_mem_cons] at h
    cases p with
    | note => exact absurd rfl h.1
    | _ => exact ih h.2

theorem noted_of_inner {p : Part} {plan : List Part} (h : p.Inner plan) : Noted plan := by
  have ne : ∀ p : Part, p.notes = false → p ≠ .note := by
    rintro p hp rfl
    cases hp
  cases h with
  | @value node => exact noted_of_notMem fun p hp => ne p (node.notes_plan p hp)
  | @statement node => exact noted_of_notMem fun p hp => ne p (node.notes_statementPlan p hp)
  | bind => exact ⟨⟨_, _, rfl⟩, noted_of_notMem (by simp [or_imp, forall_and])⟩

/-- What is around a place fits: functions, their local names, and sections. -/
structure Surroundings (chain : List (List String)) (sections : Nat) : Prop where
  functions : chain.length ≤ 2 ^ 32
  locals : ∀ names ∈ chain, names.length ≤ 2 ^ 32
  sections : sections ≤ 2 ^ 32

theorem Surroundings.fits_accessLine {chain : List (List String)} {sections : Nat}
    (h : Surroundings chain sections) (slotted global : Opcode) (name : String) :
    (accessLine slotted global chain name).Fits := by
  rw [accessLine]
  cases hl : lexical chain name with
  | none => trivial
  | some address =>
    obtain ⟨⟨names, hf, hm, hs⟩, -⟩ := lexical_eq_some_iff.mp hl
    have hn := h.locals names (List.mem_of_getElem? hf)
    refine ⟨?_, Nat.lt_of_lt_of_le (List.getElem?_eq_some_iff.mp hf).1 h.functions⟩
    rw [hs]
    exact Nat.lt_of_lt_of_le (List.idxOf_lt_length_of_mem hm) hn

namespace Emits

open ScriptCompiler.Part

variable {chain : List (List String)} {m m' : Mark} {parts : List Part} {lines : List Line}
  {pieces : List Piece}

theorem sections_le (h : Emits chain m parts lines pieces m') : m.sections ≤ m'.sections :=
  h.sections ▸ Nat.le_add_right _ _

theorem sections_lt_of_literal {r : Routine}
    (h : Emits chain m (.literal r :: parts) lines pieces m') : m.sections < m'.sections := by
  have := h.sections
  cases h with
  | step hp => cases hp
  | inner hp => cases hp
  | literal =>
    simp only [List.cons_append, List.length_cons] at this
    omega

theorem fits_of_step {p : Part} {here : List Line} {m₁ : Mark} {sections : Nat}
    (h : Step chain m p here m₁) (hs : Surroundings chain sections)
    (hown : ∀ l, p = .line l → l.Fits) (hnote : p = .note → m.sections < 2 ^ 32)
    (hp : ∀ id ∈ m.pending, id < 2 ^ 32) :
    (∀ l ∈ here, l.Fits) ∧ ∀ id ∈ m₁.pending, id < 2 ^ 32 := by
  cases h with
  | line l => exact ⟨List.forall_mem_singleton.mpr (hown l rfl), hp⟩
  | load name | store name =>
    exact ⟨List.forall_mem_singleton.mpr (hs.fits_accessLine ..), hp⟩
  | pass hm =>
    rw [hm, List.forall_mem_cons] at hp
    exact ⟨List.forall_mem_singleton.mpr hp.1, hp.2⟩
  | note =>
    exact ⟨by simp, List.forall_mem_append.mpr ⟨hp, List.forall_mem_singleton.mpr (hnote rfl)⟩⟩
  | _ => exact ⟨by simp [Line.Fits], hp⟩

/-- **The operands of the lines of a plan fit**, if those of its own lines and what is around it
do. -/
theorem fits (h : Emits chain m parts lines pieces m') (hs : Surroundings chain m'.sections)
    (hn : ∀ p ∈ parts, p.Neat) (hnote : Noted parts) (hown : ∀ l, .line l ∈ parts → l.Fits)
    (hw : Assembly.wordCount lines < 2 ^ 32) (hp : ∀ id ∈ m.pending, id < 2 ^ 32) :
    (∀ l ∈ lines, l.Fits) ∧ ∀ id ∈ m'.pending, id < 2 ^ 32 := by
  induction h with
  | nil => exact ⟨by simp, hp⟩
  | step hstep hr ih =>
    rw [List.forall_mem_cons] at hn
    rw [Assembly.wordCount_append] at hw
    obtain ⟨hhere, hp₁⟩ := fits_of_step hstep hs (fun l hl => hown l (hl ▸ List.mem_cons_self))
      (by
        rintro rfl
        obtain ⟨⟨r, more, rfl⟩, -⟩ := hnote
        cases hstep
        exact Nat.lt_of_lt_of_le hr.sections_lt_of_literal hs.sections) hp
    obtain ⟨hrest, hp'⟩ := ih hs hn.2 hnote.tail (fun l h => hown l (.tail _ h)) (by omega) hp₁
    exact ⟨List.forall_mem_append.mpr ⟨hhere, hrest⟩, hp'⟩
  | @inner _ m _ _ here _ m₁ _ _ _ m' hinner hi hr ihi ih =>
    rw [List.forall_mem_cons] at hn
    rw [Assembly.wordCount_append] at hw
    have hneat := (disciplined_of_inner hinner).neat
    have hle : m₁.sections ≤ m'.sections := hr.sections_le
    have hcounts := hi.weight_le hneat
    obtain ⟨hhere, hp₁⟩ := ihi ⟨hs.functions, hs.locals, Nat.le_trans hle hs.sections⟩ hneat
      (noted_of_inner hinner)
      (fun l hl => Line.fits_of_counts (counted_of_inner hinner l hl) (by omega)) (by omega) hp
    obtain ⟨hrest, hp'⟩ := ih hs hn.2 hnote.tail (fun l h => hown l (.tail _ h)) (by omega) hp₁
    exact ⟨List.forall_mem_append.mpr ⟨hhere, hrest⟩, hp'⟩
  | @literal _ m _ _ _ m₁ _ _ _ m' hi hr _ ih =>
    rw [List.forall_mem_cons] at hn
    rw [Assembly.wordCount_cons] at hw
    have hlt : m.sections < m'.sections := (Emits.literal hi hr).sections_lt_of_literal
    obtain ⟨hrest, hp'⟩ := ih hs hn.2 hnote (fun l h => hown l (.tail _ h)) (by omega) hp
    exact ⟨List.forall_mem_cons.mpr ⟨Nat.lt_of_lt_of_le hlt hs.sections, hrest⟩, hp'⟩

end Emits

theorem fits_bodyPlan (body : List Node) : ∀ l, .line l ∈ bodyPlan body → l.Fits := by
  simp [bodyPlan, endPlan, Line.Fits]

theorem Routine.fits_prologue {r : Routine} (hl : r.locals.length ≤ 2 ^ 32)
    (hc : ∀ l ∈ r.prologue, l.count < 2 ^ 32) : ∀ l ∈ r.prologue, l.Fits := by
  intro l hm
  have hlt : ∀ name ∈ r.name.toList ++ r.params, r.locals.idxOf name < 2 ^ 32 := by
    intro name hname
    refine Nat.lt_of_lt_of_le (List.idxOf_lt_length_of_mem ?_) hl
    rw [locals, List.mem_eraseDups]
    exact List.mem_append_left _ hname
  have hcount := hc l hm
  rcases List.mem_append.mp hm with hm | hm
  · obtain ⟨name, hname, rfl⟩ := List.mem_map.mp hm
    exact hlt name (List.mem_append_left _ hname)
  · obtain ⟨⟨param, position⟩, hparam, rfl⟩ := List.mem_map.mp hm
    exact ⟨hlt param (List.mem_append_right _ (List.fst_mem_of_mem_zipIdx hparam)), hcount⟩

/-! ## Code in memory -/

/-- **The machine has the code of lines from an offset on**: it fetches their commands, and their
labels stand for the offsets where they are defined. -/
def CodeAt (fetch : Nat → Option (Command × Nat)) (target : Label → Nat) :
    (offset : Nat) → List Line → Prop
  | _, [] => True
  | offset, l :: rest =>
    (∀ label, l = .define label → target label = offset) ∧
      (∀ c, l.command? target = some c → fetch offset = some (c, offset + l.words)) ∧
      CodeAt fetch target (offset + l.words) rest

theorem codeAt_append {fetch : Nat → Option (Command × Nat)} {target : Label → Nat} {offset : Nat}
    {lines more : List Line} :
    CodeAt fetch target offset (lines ++ more) ↔
      CodeAt fetch target offset lines ∧
        CodeAt fetch target (offset + Assembly.wordCount lines) more := by
  induction lines generalizing offset with
  | nil => simp [CodeAt]
  | cons l rest ih =>
    rw [List.cons_append, CodeAt, CodeAt, ih, Assembly.wordCount_cons, Nat.add_assoc, and_assoc,
      and_assoc]

/-- The instruction of a line is found at its offset. -/
theorem Assembly.find?_listing {strings : List String} {target : Label → Nat}
    {front rest : List Line} {l : Line} {i : Instruction}
    (hi : l.instruction? strings target (wordCount front) = some i) :
    (listing strings target 0 (front ++ l :: rest)).find? (·.offset = wordCount front) =
      some i := by
  have hfront : ∀ j ∈ listing strings target 0 front, ¬ j.offset = wordCount front := by
    intro j hj
    obtain ⟨before, k, after, rfl, hk⟩ := exists_line_of_mem hj
    have hw : 0 < k.words := by
      cases k with
      | define => cases hk
      | _ => exact Nat.succ_pos _
    rw [Line.offset_of_instruction? hk, wordCount_append, wordCount_cons]
    omega
  rw [listing_append, Nat.zero_add, List.find?_append, listing, hi]
  rw [List.find?_eq_none.mpr (by simpa using hfront)]
  simp [Line.offset_of_instruction? hi]

theorem Line.exists_instruction? {target : Label → Nat} {l : Line} {c : Command}
    (h : l.command? target = some c) (strings : List String) (offset : Nat) :
    ∃ i, l.instruction? strings target offset = some i := by
  cases l with
  | define label => cases h
  | _ => exact ⟨_, rfl⟩

namespace Assembled

variable {image : Image} {id : Nat} {segment : Segment} {lines : List Line}

theorem fits (h : Assembled image id segment lines)
    (hs : Surroundings segment.chain image.sections.length)
    (hw : Assembly.wordCount lines < 2 ^ 32) : ∀ l ∈ lines, l.Fits := by
  obtain ⟨_, _, last, he, hlast⟩ := h.emits
  have hneat := (disciplined segment).neat
  have hweight := he.weight_le hneat
  refine (he.fits ⟨hs.functions, hs.locals, Nat.le_trans hlast hs.sections⟩ hneat ?_ ?_ hw
    (by simp)).1
  · cases segment <;> exact noted_of_notMem
      (by simp [Segment.plan, Routine.plan, bodyPlan, endPlan, or_imp, forall_and])
  · intro l hl
    cases segment with
    | top body => exact fits_bodyPlan body l hl
    | function outer r =>
      rcases List.mem_append.mp hl with hl | hl
      · rw [List.mem_map_of_injective fun _ _ h => Part.line.inj h] at hl
        refine Routine.fits_prologue (hs.locals _ List.mem_cons_self) (fun k hk => ?_) l hl
        have hcount : k.count ≤ weightOf (Segment.function outer r).plan :=
          Segment.count_le (List.mem_append_left _ (List.mem_map_of_mem hk))
        exact Nat.lt_of_le_of_lt (Nat.le_trans hcount hweight) hw
      · exact fits_bodyPlan r.body l hl

theorem wordCount_lt (h : Assembled image id segment lines) {code : Bytes}
    (hc : image.sections[id]? = some code) (hw : code.length < 4 * 2 ^ 32) :
    Assembly.wordCount lines < 2 ^ 32 := by
  obtain ⟨bytes, hb, ha⟩ := h.code
  cases hb.symm.trans hc
  have := Assembly.length_assemble ha
  omega

theorem target_lt (h : Assembled image id segment lines) (hw : Assembly.wordCount lines < 2 ^ 32)
    {op : Opcode} {label : Label} (hj : .jump op label ∈ lines) :
    target image lines label < 2 ^ 32 := by
  obtain ⟨bytes, -, ha⟩ := h.code
  obtain ⟨before, after, hl, ht⟩ := Assembly.exists_define_of_jump ha hj
  have hle := congrArg Assembly.wordCount hl
  rw [Assembly.wordCount_append] at hle
  rw [target, ht]
  omega

/-- What the machine fetches at the offset of a line is the command of the line. -/
theorem fetch_eq (h : Assembled image id segment lines)
    (hs : Surroundings segment.chain image.sections.length)
    (hstrings : image.strings.length ≤ 2 ^ 32) (hw : Assembly.wordCount lines < 2 ^ 32)
    {front rest : List Line} {l : Line} (hl : lines = front ++ l :: rest) {c : Command}
    (hc : l.command? (target image lines) = some c) :
    image.fetch id (Assembly.wordCount front) =
      some (c, Assembly.wordCount front + l.words) := by
  have hm : l ∈ lines := by simp [hl]
  obtain ⟨i, hi⟩ := Line.exists_instruction? hc image.strings (Assembly.wordCount front)
  have hcommand := Line.command?_of_instruction? hi hc (h.fits hs hw l hm) hstrings
    (fun text ht => h.texts text (List.mem_filterMap.mpr ⟨l, hm, ht⟩))
    (fun op label he => h.target_lt hw (he ▸ hm))
  have hfind : (Assembly.listing image.strings (target image lines) 0 lines).find?
      (·.offset = Assembly.wordCount front) = some i := by
    generalize target image lines = labels at hi
    rw [hl]
    exact Assembly.find?_listing hi
  simp [Image.fetch, h.instructions_eq, hfind, hcommand, Line.next_of_instruction? hi]

/-- **The machine has the code of a section from its first offset on.** -/
theorem codeAt (h : Assembled image id segment lines)
    (hs : Surroundings segment.chain image.sections.length)
    (hstrings : image.strings.length ≤ 2 ^ 32) (hw : Assembly.wordCount lines < 2 ^ 32) :
    CodeAt (image.fetch id) (target image lines) 0 lines := by
  suffices all : ∀ rest front, lines = front ++ rest →
      CodeAt (image.fetch id) (target image lines) (Assembly.wordCount front) rest from
    all lines [] rfl
  intro rest
  induction rest with
  | nil => exact fun _ _ => trivial
  | cons l rest ih =>
    intro front hl
    refine ⟨?_, fun c hc => h.fetch_eq hs hstrings hw hl hc, ?_⟩
    · rintro label rfl
      have hnodup := h.nodup_defined
      rw [hl] at hnodup
      rw [target, hl]
      exact Assembly.target_of_unique hnodup
    · have := ih (front ++ [l]) (by simp [hl])
      simpa using this

end Assembled

end ScriptCompiler
