import ScriptCompiler.Proofs.Compilation

/-!
# Sections are closed code

Wherever control goes from an instruction of a compiled section, to the next instruction or to the
target of a jump, there is an instruction of the same section. Jumps go to places of labels, and
after every such place there is an instruction, because a section ends with a return and labels
stand between instructions.

## Main definitions

* `Instruction.next`, `Instruction.successors`: where control goes from an instruction

## Main results

* `Program.sections_closed`: every section of an image can be listed, ends with a return of
  undefined, and control stays in it
-/

namespace ScriptCompiler

namespace Instruction

/-- The offset after an instruction. -/
def next (i : Instruction) : Nat := i.offset + 1 + i.operands.length

/-- **Where control goes from an instruction**: to the next one, unless it is a jump without a
condition or a return, and to its target if it is a jump. -/
def successors (i : Instruction) : List Nat :=
  (if i.opcode = .jump ∨ i.opcode = .ret then [] else [i.next]) ++
    (if i.opcode.isJump then i.operands.map UInt32.toNat else [])

end Instruction

namespace Line

theorem next_of_instruction? {strings : List String} {target : Label → Nat} {offset : Nat}
    {l : Line} {i : Instruction} (h : l.instruction? strings target offset = some i) :
    i.next = offset + l.words := by
  cases l <;> cases h <;> rfl

/-- Jumps come from lines with a label. -/
theorem jump_of_instruction? {strings : List String} {target : Label → Nat} {offset : Nat}
    {l : Line} {i : Instruction} (hs : l.Shaped)
    (h : l.instruction? strings target offset = some i) (hj : i.opcode.isJump = true) :
    ∃ label, l = .jump i.opcode label ∧ i.operands = [(target label).toUInt32] := by
  cases l with
  | plain op =>
    cases h
    exact absurd (hs.symm.trans (Opcode.operandWords_of_isJump hj)) (by decide)
  | unary op operand =>
    cases h
    rw [hs.2] at hj
    cases hj
  | binary op first second =>
    cases h
    exact absurd (hs.symm.trans (Opcode.operandWords_of_isJump hj)) (by decide)
  | number value =>
    cases h
    cases hj
  | text op string =>
    cases h
    rw [hs.2] at hj
    cases hj
  | jump op label =>
    cases h
    exact ⟨label, rfl, rfl⟩
  | define label => cases h

end Line

/-- The end of the plan of every segment. -/
theorem Segment.exists_plan_eq (segment : Segment) :
    ∃ plan, segment.plan = plan ++ endPlan := by
  cases segment with
  | top body => exact ⟨_, rfl⟩
  | function outer r => exact ⟨_, (List.append_assoc _ _ _).symm⟩

theorem Emits.of_endPlan {chain : List (List String)} {m m' : Mark} {lines : List Line}
    {pieces : List Piece} (h : Emits chain m endPlan lines pieces m') :
    lines = [.plain .pushUndefined, .plain .ret] ∧ m' = m :=
  eq_of_lines [.plain .pushUndefined, .plain .ret] h

namespace Assembled

variable {image : Image} {id : Nat} {segment : Segment} {lines : List Line}

theorem exists_lines_eq (h : Assembled image id segment lines) :
    ∃ before, lines = before ++ [.plain .pushUndefined, .plain .ret] := by
  obtain ⟨_, _, _, he, -⟩ := h.emits
  obtain ⟨plan, hp⟩ := segment.exists_plan_eq
  rw [hp] at he
  obtain ⟨before, _, _, last, _, -, hl, rfl, -⟩ := he.of_append
  exact ⟨before, by rw [hl.of_endPlan.1]⟩

/-- After every place in a section but its end there is an instruction. -/
theorem exists_instruction_at (h : Assembled image id segment lines) {before after : List Line}
    (hl : lines = before ++ after) (ha : after ≠ []) (target : Label → Nat) :
    ∃ j ∈ Assembly.listing image.strings target 0 lines, j.offset = Assembly.wordCount before := by
  have hr : Line.plain .ret ∈ after := by
    obtain ⟨front, hf⟩ := h.exists_lines_eq
    have hlast : lines.getLast? = some (.plain .ret) := by simp [hf]
    rw [hl, List.getLast?_append_of_ne_nil _ ha] at hlast
    exact List.mem_of_getLast? hlast
  obtain ⟨j, rest, hj, ho⟩ : ∃ j rest, Assembly.listing image.strings target
      (Assembly.wordCount before) after = j :: rest ∧ j.offset = Assembly.wordCount before :=
    Assembly.exists_head_listing _ hr rfl
  refine ⟨j, ?_, ho⟩
  rw [hl, Assembly.listing_append, Nat.zero_add, hj]
  exact List.mem_append_right _ List.mem_cons_self

/-- A jump goes to an instruction. -/
theorem exists_instruction_of_jump (h : Assembled image id segment lines) {op : Opcode}
    {label : Label} (hj : .jump op label ∈ lines) :
    ∃ j ∈ Assembly.listing image.strings (target image lines) 0 lines,
      j.offset = target image lines label := by
  obtain ⟨bytes, -, ha⟩ := h.code
  obtain ⟨before, after, hl, ht⟩ := Assembly.exists_define_of_jump ha hj
  rw [target, ht]
  exact h.exists_instruction_at hl (List.cons_ne_nil _ _) _

/-- Offsets in a section are less than the number of its words. -/
theorem offset_lt (h : Assembled image id segment lines) {code : Bytes}
    (hc : image.sections[id]? = some code) {target : Label → Nat} {j : Instruction}
    (hj : j ∈ Assembly.listing image.strings target 0 lines) : 4 * j.offset < code.length := by
  obtain ⟨bytes, hb, ha⟩ := h.code
  cases hb.symm.trans hc
  obtain ⟨before, l, after, hl, hi⟩ := Assembly.exists_line_of_mem hj
  have hw : 0 < l.words := by
    cases l with
    | define => cases hi
    | _ => exact Nat.succ_pos _
  rw [Assembly.length_assemble ha, Line.offset_of_instruction? hi, hl, Assembly.wordCount_append,
    Assembly.wordCount_cons]
  omega

/-- Control stays in a section: its last line is a return, so there is something after the line of
any other instruction, and its jumps go to labels that it defines. -/
theorem exists_successor (h : Assembled image id segment lines) {code : Bytes}
    (hc : image.sections[id]? = some code) (hw : code.length < 4 * 2 ^ 32) {i : Instruction}
    (hi : i ∈ Assembly.listing image.strings (target image lines) 0 lines) {offset : Nat}
    (ho : offset ∈ i.successors) :
    ∃ j ∈ Assembly.listing image.strings (target image lines) 0 lines, j.offset = offset := by
  obtain ⟨before, l, after, hl, hi'⟩ := Assembly.exists_line_of_mem hi
  rcases List.mem_append.mp ho with ho | ho
  · split at ho
    case isTrue => cases ho
    case isFalse hn =>
      cases List.mem_singleton.mp ho
      have ha : after ≠ [] := by
        rintro rfl
        obtain ⟨front, hf⟩ := h.exists_lines_eq
        have hr : l = .plain .ret := by
          simpa using congrArg List.getLast? (hl.symm.trans hf)
        subst hr
        cases hi'
        exact hn (.inr rfl)
      have hl' : lines = (before ++ [l]) ++ after := by simp [hl]
      have := h.exists_instruction_at hl' ha (target image lines)
      rw [Line.next_of_instruction? hi']
      simpa using this
  · split at ho
    case isFalse => cases ho
    case isTrue hj =>
      have hs := h.shaped l (by simp [hl])
      obtain ⟨label, rfl, hop⟩ := Line.jump_of_instruction? hs hi' hj
      have hl' : .jump i.opcode label ∈ lines := by simp [hl]
      obtain ⟨j, hm, hj'⟩ := h.exists_instruction_of_jump hl'
      have hlt := h.offset_lt hc hm
      rw [hop, List.map_singleton, List.mem_singleton] at ho
      refine ⟨j, hm, ?_⟩
      rw [ho, toNat_toUInt32 (by omega), hj']

end Assembled

/-- **Every compiled section is closed, decodable code.** If it has fewer than 2³² words, it can be
listed, its last two instructions return undefined, every jump goes to the offset of one of its
instructions, and so does control from any of its instructions. -/
theorem Program.sections_closed {config : Config} {program : Program} {image : Image}
    (h : program.compile config = .ok image) {id : Nat} {code : Bytes}
    (hc : image.sections[id]? = some code) (hw : code.length < 4 * 2 ^ 32) :
    ∃ is front last, image.instructions id = .ok is ∧
      is = front ++ [⟨last, .pushUndefined, []⟩, ⟨last + 1, .ret, []⟩] ∧
      code.length = 4 * (last + 2) ∧
      (∀ i ∈ is, i.opcode.isJump = true → ∃ j ∈ is, i.operands.map UInt32.toNat = [j.offset]) ∧
      ∀ i ∈ is, ∀ offset ∈ i.successors, ∃ j ∈ is, j.offset = offset := by
  obtain ⟨segment, lines, -, ha⟩ := exists_assembled h (List.getElem?_eq_some_iff.mp hc).1
  obtain ⟨before, hl⟩ := ha.exists_lines_eq
  refine ⟨_, Assembly.listing image.strings (Assembled.target image lines) 0 before,
    Assembly.wordCount before, ha.instructions_eq, ?_, ?_, fun i hi hj => ?_,
    fun i hi offset ho => ha.exists_successor hc hw hi ho⟩
  · generalize Assembled.target image lines = target
    rw [hl, Assembly.listing_append, Nat.zero_add]
    rfl
  · obtain ⟨bytes, hb, hbytes⟩ := ha.code
    cases hb.symm.trans hc
    rw [Assembly.length_assemble hbytes, hl, Assembly.wordCount_append]
    rfl
  · obtain ⟨target, ht⟩ : ∃ target, i.operands = [target] := by
      obtain ⟨_, l, _, hl', hi'⟩ := Assembly.exists_line_of_mem hi
      obtain ⟨label, -, ho⟩ := Line.jump_of_instruction? (ha.shaped l (by simp [hl'])) hi' hj
      exact ⟨_, ho⟩
    obtain ⟨j, hj', ho⟩ := ha.exists_successor hc hw hi
      (show target.toNat ∈ i.successors by simp [Instruction.successors, hj, ht])
    exact ⟨j, hj', by rw [ht, ho, List.map_singleton]⟩

/-- A loop that is left at once jumps backwards and forwards, and its section is closed. -/
theorem Program.sections_closed_loop :
    ∃ image code, (Program.compile {} ⟨[.whileLoop (.ident "x") .breakLoop]⟩ = .ok image ∧
      image.sections[0]? = some code ∧ code.length < 4 * 2 ^ 32) ∧
      ∃ is, image.instructions 0 = .ok is ∧
        ∀ i ∈ is, ∀ offset ∈ i.successors, ∃ j ∈ is, j.offset = offset := by
  have h : Program.compile {} ⟨[.whileLoop (.ident "x") .breakLoop]⟩ = .ok
      { sections := [[4, 0, 0, 0, 0, 0, 0, 0, 14, 0, 0, 0, 8, 0, 0, 0, 12, 0, 0, 0, 8, 0, 0, 0,
          12, 0, 0, 0, 0, 0, 0, 0, 0, 0, 0, 0, 1, 0, 0, 0]]
        strings := ["x"] } := by
    decide +kernel
  obtain ⟨is, front, last, hi, -, -, -, hs⟩ := Program.sections_closed h
    (show _[0]? = some _ from rfl) (by decide)
  exact ⟨_, _, ⟨h, rfl, by decide⟩, is, hi, hs⟩

end ScriptCompiler
