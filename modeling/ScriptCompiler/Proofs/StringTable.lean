import ScriptCompiler.Proofs.Acceptance
import ScriptCompiler.Proofs.Addressing
import ScriptCompiler.Proofs.Nesting

/-!
# The string table

The string table of an image holds the strings that its code uses, each once. These are the values
of the string literals of the program, the properties of its members, and the names that are global
where they are used.

## Main definitions

* `Opcode.namesText`: the instructions whose operand is a string
* `Node.text?`: the string that a node names by itself

## Main results

* `Node.text_mem_plan_iff`: the strings in the plan of a node are its own and those of its targets
* `Emits.exists_site_of_text`: a string in the lines of a program comes from one of its nodes, or it
  is a global name
* `Program.strings_exact`: the string table of an image is what its code uses
-/

namespace ScriptCompiler

/-- Whether the operand of an instruction is a string. -/
def Opcode.namesText : Opcode → Bool
  | pushString | pushGlobal | setGlobal | member | setMember => true
  | _ => false

/-- Whether the operand of the instruction of a line is a string. -/
def Line.namesText : Line → Bool
  | plain op | unary op _ | binary op _ _ | text op _ | jump op _ => op.namesText
  | number _ | define _ => false

/-- The string that a node names by itself: the value of a literal, or a property. -/
def Node.text? : Node → Option String
  | string value => some value
  | member _ property => some property
  | _ => none

/-! ## Strings in lines -/

theorem Line.namesText_of_fixed {l : Line} (h : l.Fixed) : l.namesText = l.text?.isSome := by
  cases l with
  | plain op => cases op <;> first | rfl | cases h
  | unary op operand =>
    simp only [Line.Fixed, List.mem_cons, List.not_mem_nil, or_false] at h
    rcases h with rfl | rfl | rfl | rfl <;> rfl
  | binary op first second =>
    cases h
    rfl
  | text op string =>
    simp only [Line.Fixed, List.mem_cons, List.not_mem_nil, or_false] at h
    rcases h with rfl | rfl | rfl <;> rfl
  | number | define => rfl
  | jump => cases h

/-- The operands of the lines of plans are strings exactly where their instructions take some. -/
theorem Line.Planned.namesText {chain : List (List String)} {l : Line} (h : l.Planned chain) :
    l.namesText = l.text?.isSome := by
  cases h with
  | fixed h => exact namesText_of_fixed h
  | load name | store name =>
    rw [accessLine]
    split <;> rfl
  | @jump op label h => cases op <;> first | rfl | cases h
  | define | close => rfl

theorem Line.namesText_of_instruction? {strings : List String} {target : Label → Nat} {offset : Nat}
    {l : Line} {i : Instruction} (h : l.instruction? strings target offset = some i) :
    i.opcode.namesText = l.namesText := by
  cases l <;> cases h <;> rfl

namespace Emits

open ScriptCompiler.Part

variable {chain : List (List String)} {m m' : Mark} {parts : List Part} {lines : List Line}
  {pieces : List Piece}

/-- The lines of a plan are among its lines. -/
theorem mem_of_line (h : Emits chain m parts lines pieces m') {l : Line} (hl : .line l ∈ parts) :
    l ∈ lines := by
  induction h with
  | nil => cases hl
  | step hp _ ih =>
    rcases List.mem_cons.mp hl with rfl | hl
    · cases hp
      exact List.mem_cons_self
    · exact List.mem_append_right _ (ih hl)
  | inner hp _ _ _ ih =>
    rcases List.mem_cons.mp hl with rfl | hl
    · cases hp
    · exact List.mem_append_right _ (ih hl)
  | literal _ _ _ ih =>
    rcases List.mem_cons.mp hl with hl | hl
    · cases hl
    · exact List.mem_cons_of_mem _ (ih hl)

end Emits

/-! ## Strings in plans -/

section Plans

open ScriptCompiler.Part

theorem text_notMem_sequencePlan {op : Opcode} {text : String} (nodes : List Node) :
    .line (.text op text) ∉ Node.sequencePlan nodes := by
  fun_induction Node.sequencePlan nodes <;> simp_all

/-- **The strings in the plan of a node** are its own and those of its targets. -/
theorem Node.text_mem_plan_iff {node : Node} (ha : node.Assignable) {text : String} :
    (∃ op, .line (.text op text) ∈ node.plan) ↔ node.text? = some text ∨
      ∃ target, (.place, target) ∈ node.children ∧ target.text? = some text := by
  cases node with
  | declaration name init => cases init <;> simp [plan, text?, children]
  | ret argument => cases argument <;> simp [plan, text?, children]
  | ifElse test consequent alternate => cases alternate <;> simp [plan, text?, children]
  | forLoop init test step body =>
    cases init <;> cases test <;> cases step <;> simp [plan, text?, children]
  | sequence expressions => simp [plan, text?, children, text_notMem_sequencePlan]
  | call callee arguments =>
    obtain ⟨object, property, rfl⟩ | ⟨object, key, rfl⟩ | ⟨hp, hm⟩ := callee.callee_cases
    · simp [plan, calleePlan, text?, children, isMethod, eq_comm]
    · simp [plan, calleePlan, text?, children, isMethod]
    · simp [plan, hp, text?, children, hm]
  | assign target value | compound operator target value =>
    have ht := ha target List.mem_cons_self
    cases target with
    | ident | member | index => simp [plan, placePlan, text?, children, exists_or, eq_comm]
    | _ => cases ht
  | update operator before target =>
    have ht := ha target List.mem_cons_self
    cases target with
    | ident | member | index =>
      cases before <;> simp [plan, placePlan, text?, children, exists_or, eq_comm]
    | _ => cases ht
  | _ => simp [plan, text?, children, eq_comm]

theorem Node.text_mem_statementPlan_iff {node : Node} (h : node.isDeclaredFunction = false)
    {op : Opcode} {text : String} :
    .line (.text op text) ∈ node.statementPlan ↔ .line (.text op text) ∈ node.plan := by
  rw [statementPlan, h, if_neg Bool.false_ne_true]
  split <;> simp

end Plans

/-! ## Strings and sites -/

namespace Emits

open ScriptCompiler.Part

variable {chain : List (List String)} {m m' : Mark} {parts : List Part} {lines : List Line}
  {pieces : List Piece}

/-- The strings in the code of a construct are those of its node and of its targets. -/
theorem text_mem_inner_iff {p : Part} {plan : List Part} {entry : Entry} {s : Site}
    (hp : p.Inner plan) (h : Emits chain m plan lines pieces m') {depth : Nat}
    (he : p.entry? depth = some entry) (hs : s.Matches entry) {text : String} :
    (∃ op, .line (.text op text) ∈ plan) ↔ s.node.text? = some text ∨
      ∃ target, (.place, target) ∈ s.node.children ∧ target.text? = some text := by
  cases hf : s.isFunction with
  | true =>
    obtain ⟨r, hr⟩ := Option.isSome_iff_exists.mp hf
    have ht : s.node.text? = none := by
      cases hn : s.node <;> first | rfl | (rw [hn] at hr; cases hr)
    rw [ht, Node.children_of_routine? hr]
    rcases plan_of_inner_function hp he hs hr with rfl | rfl | rfl <;> simp
  | false =>
    rw [← Node.text_mem_plan_iff (entries_of_inner hp h he hs hf).1]
    cases hp with
    | value =>
      cases he
      rw [hs.2]
    | statement =>
      cases he
      have hd := Node.isDeclaredFunction_of_routine? (Site.routine?_eq_none.mp hf)
      rw [← hs.2.2]
      simp only [Node.text_mem_statementPlan_iff hd]
    | bind => cases he

/-- **A string in lines** is a global name, or one that a node of the program names, if sites of the
program stand behind the plan. -/
theorem exists_site_of_text {program : Program} (h : Emits chain m parts lines pieces m')
    (hb : ∀ entry ∈ entries m.loops.length parts, ∃ s ∈ program.sites, s.Matches entry)
    (ht : ∀ op text, .line (.text op text) ∈ parts →
      ∃ s ∈ program.sites, s.node.text? = some text)
    {op : Opcode} {text : String} (hl : .text op text ∈ lines) (ho : op.isAccess = false) :
    ∃ s ∈ program.sites, s.node.text? = some text := by
  -- The induction is on the lines; a construct inside is code of a node that stands in the program.
  induction h with
  | nil => cases hl
  | step hp _ ih =>
    obtain ⟨hn, hd⟩ := depth_of_step hp
    rw [entries, hn, ← hd] at hb
    rcases List.mem_append.mp hl with hl | hl
    · cases hp with
      | line l =>
        cases List.mem_singleton.mp hl
        exact ht op text List.mem_cons_self
      | load name | store name =>
        rw [List.mem_singleton, accessLine] at hl
        split at hl <;> cases hl
        cases ho
      | define | jump | leave | again | pass => cases List.mem_singleton.mp hl
      | _ => cases hl
    · exact ih hb (fun op text hm => ht op text (List.mem_cons_of_mem _ hm)) hl
  | @inner _ m p plan _ _ m₁ _ _ _ _ hp hi _ ihi ih =>
    have hloops : m₁.loops = m.loops := hi.loops (disciplined_of_inner hp)
    rw [entries, loopDepth_of_inner hp, Option.getD_some, List.forall_mem_append] at hb
    rcases List.mem_append.mp hl with hl | hl
    · cases he : p.entry? m.loops.length with
      | none =>
        cases hp with
        | value | statement => cases he
        | @bind r =>
          refine ihi ?_ (by simp [Routine.bindPlan]) hl
          rw [r.entries_bindPlan]
          simp
      | some entry =>
        obtain ⟨s, hs, hm⟩ := hb.1 entry (by simp [he])
        refine ihi (fun entry' he' => ?_) (fun op text hline => ?_) hl
        · obtain ⟨t, ht, hm'⟩ := exists_mem_within_of_inner hp hi he hm he'
          exact ⟨t, Program.mem_sites_of_mem_all hs (Site.mem_all_of_mem_within ht), hm'⟩
        · rcases (text_mem_inner_iff hp hi he hm).mp ⟨op, hline⟩ with ht | ⟨target, hc, ht⟩
          · exact ⟨s, hs, ht⟩
          · obtain ⟨index, hc⟩ := Site.exists_mem_inner hc
            exact ⟨_, Program.mem_sites_of_mem_all hs (Site.mem_all_of_mem_inner hc), ht⟩
    · refine ih ?_ (fun op text hm => ht op text (List.mem_cons_of_mem _ hm)) hl
      simpa only [Mark.outer, hloops] using hb.2
  | literal _ _ _ ih =>
    rcases List.mem_cons.mp hl with hl | hl
    · cases hl
    · exact ih hb (fun op text hm => ht op text (List.mem_cons_of_mem _ hm)) hl

/-- The lines of a segment name the strings of all nodes that stand in its body. -/
theorem text_mem_of_segment {segment : Segment} (h : Emits chain m segment.plan lines pieces m')
    (hl : m.loops = []) {f : Site} (hf : f.Heads segment) :
    ∀ c ∈ f.inner, ∀ t ∈ c.within, ∀ text, t.node.text? = some text →
      text ∈ Assembly.texts lines := by
  refine h.forall_segment
    (R := fun lines t => ∀ text, t.node.text? = some text → text ∈ Assembly.texts lines)
    (fun hs ht text he => List.filterMap_subset _ hs (ht text he)) (fun hp hi he hs => ?_) hl hf
  refine ⟨fun text ht => ?_, fun c hc hr text ht => ?_⟩
  · obtain ⟨op, hm⟩ := (text_mem_inner_iff hp hi he hs).mpr (.inl ht)
    exact List.mem_filterMap.mpr ⟨_, hi.mem_of_line hm, rfl⟩
  · obtain ⟨op, hm⟩ := (text_mem_inner_iff hp hi he hs).mpr
      (.inr ⟨c.node, hr ▸ Site.mem_children_of_mem_inner hc, ht⟩)
    exact List.mem_filterMap.mpr ⟨_, hi.mem_of_line hm, rfl⟩

end Emits

/-- The line of a use of a name has a string exactly if the name is global there. -/
theorem Access.line_eq_text_iff {chain : List (List String)} {a : Access} {text : String} :
    (a.line chain).text? = some text ↔ a.name = text ∧ ∀ names ∈ chain, text ∉ names := by
  rw [line, accessLine]
  split
  · rename_i hl
    constructor
    · intro h
      cases h
    rintro ⟨rfl, hn⟩
    cases hl.symm.trans (lexical_eq_none_iff.mpr hn)
  · rename_i hl
    rw [Line.text?, Option.some_inj]
    refine ⟨?_, And.left⟩
    rintro rfl
    exact ⟨rfl, lexical_eq_none_iff.mp hl⟩

theorem Segment.text_notMem_plan {segment : Segment} {op : Opcode} {text : String} :
    .line (.text op text) ∉ segment.plan := by
  cases segment with
  | top body => simp [plan, bodyPlan, endPlan]
  | function outer r => simp [plan, Routine.plan, Routine.prologue, bodyPlan, endPlan]

namespace Assembled

variable {image : Image} {id : Nat} {segment : Segment} {lines : List Line}

/-- The lines of a section that use names are those of the uses in its segment. -/
theorem filter_isAccess (h : Assembled image id segment lines) :
    lines.filter Line.isAccess = segment.uses.map (Access.line segment.chain) := by
  obtain ⟨_, _, _, he, -⟩ := h.emits
  rw [he.accesses (disciplined segment).neat, segment.accessLines_plan]

/-- The global names that a segment uses are among the strings of its section. -/
theorem text_mem_of_use (h : Assembled image id segment lines) {a : Access}
    (ha : a ∈ segment.uses) (hg : ∀ names ∈ segment.chain, a.name ∉ names) :
    a.name ∈ Assembly.texts lines := by
  have hm := List.mem_map_of_mem (f := Access.line segment.chain) ha
  rw [← h.filter_isAccess] at hm
  exact List.mem_filterMap.mpr
    ⟨_, List.mem_of_mem_filter hm, Access.line_eq_text_iff.mpr ⟨rfl, hg⟩⟩

/-- **The strings of a section** are named by nodes of the program, or are global names that its
segment uses. -/
theorem exists_of_text_mem {program : Program} (h : Assembled image id segment lines) {f : Site}
    (hf : f ∈ program.root.family) (hh : f.Heads segment) {text : String}
    (ht : text ∈ Assembly.texts lines) :
    (∃ s ∈ program.sites, s.node.text? = some text) ∨
      ∃ a ∈ segment.uses, a.name = text ∧ ∀ names ∈ segment.chain, text ∉ names := by
  obtain ⟨l, hl, ht⟩ := List.mem_filterMap.mp ht
  cases hacc : l.isAccess with
  | true =>
    have hm := List.mem_filter.mpr ⟨hl, hacc⟩
    rw [h.filter_isAccess] at hm
    obtain ⟨a, ha, rfl⟩ := List.mem_map.mp hm
    exact .inr ⟨a, ha, Access.line_eq_text_iff.mp ht⟩
  | false =>
    obtain ⟨op, rfl⟩ : ∃ op, l = .text op text := by
      cases l with
      | text op string =>
        cases ht
        exact ⟨op, rfl⟩
      | _ => cases ht
    obtain ⟨_, _, _, he, -⟩ := h.emits
    refine .inl (he.exists_site_of_text (fun entry hm => ?_)
      (fun op text hm => absurd hm Segment.text_notMem_plan) hl hacc)
    rw [List.length_nil, segment.entries_plan] at hm
    obtain ⟨node, hn, rfl⟩ := List.mem_map.mp hm
    obtain ⟨c, hc, rfl⟩ := hh.exists_statement hn
    obtain ⟨-, hr, hloop⟩ := hh.statement hc
    exact ⟨c, Program.mem_sites_of_mem_inner hf hc c.mem_all_self, by rw [hr]; rfl, hloop, rfl⟩

/-- **The string operands of a section** are the indices of the strings that its lines name. -/
theorem operand_iff (h : Assembled image id segment lines) (hn : image.strings.length ≤ 2 ^ 32)
    {is : List Instruction} (hi : image.instructions id = .ok is) {k : Nat} :
    (∃ i ∈ is, i.opcode.namesText = true ∧ i.operands.map UInt32.toNat = [k]) ↔
      ∃ text ∈ Assembly.texts lines, image.strings.idxOf text = k := by
  obtain ⟨_, _, _, he, -⟩ := h.emits
  have planned := he.planned (disciplined segment).neat
  have index : ∀ text ∈ Assembly.texts lines,
      ((image.strings.idxOf text).toUInt32).toNat = image.strings.idxOf text := fun text ht =>
    toNat_toUInt32 (Nat.lt_of_lt_of_le (List.idxOf_lt_length_of_mem (h.texts text ht)) hn)
  cases h.instructions_eq.symm.trans hi
  constructor
  · rintro ⟨i, hm, hop, hk⟩
    obtain ⟨before, l, after, rfl, hl⟩ := Assembly.exists_line_of_mem hm
    have hmem : l ∈ before ++ l :: after := List.mem_append_right _ List.mem_cons_self
    rw [Line.namesText_of_instruction? hl, (planned l hmem).namesText] at hop
    obtain ⟨text, ht⟩ := Option.isSome_iff_exists.mp hop
    have htext := List.mem_filterMap.mpr ⟨l, hmem, ht⟩
    refine ⟨text, htext, ?_⟩
    cases l with
    | text op string =>
      cases ht
      cases hl
      rw [← index _ htext]
      simpa using hk
    | _ => cases ht
  · rintro ⟨text, ht, rfl⟩
    obtain ⟨l, hl, hlt⟩ := List.mem_filterMap.mp ht
    obtain ⟨before, after, rfl⟩ := List.append_of_mem hl
    have hop : l.namesText = true := by
      rw [(planned l hl).namesText, hlt]
      rfl
    cases l with
    | text op string =>
      cases hlt
      refine ⟨⟨Assembly.wordCount before, op, [(image.strings.idxOf text).toUInt32]⟩, ?_, hop,
        congrArg (fun k => [k]) (index _ ht)⟩
      rw [Assembly.listing_append, Nat.zero_add]
      exact List.mem_append_right _ List.mem_cons_self
    | _ => cases hlt

end Assembled

namespace Program

variable {config : Config} {program : Program} {image : Image}

/-- The strings that the nodes of a program name are in the string table of its image. -/
theorem text_mem_of_site (h : program.compile config = .ok image) {s : Site}
    (hs : s ∈ program.sites) {text : String} (ht : s.node.text? = some text) :
    text ∈ image.strings := by
  refine (forall_sites (R := fun t => t.WellFormed ∧
    ∀ text, t.node.text? = some text → text ∈ image.strings) And.left ?_ s hs).2 text ht
  intro segment hm f hf c hc t ht
  obtain ⟨id, hid⟩ := List.mem_iff_getElem?.mp hm
  obtain ⟨lines, ha⟩ := (assembled h).2 id segment hid
  obtain ⟨_, _, _, he, -⟩ := ha.emits
  exact ⟨he.wellFormed_of_segment rfl hf c hc t ht, fun text htext =>
    ha.texts text (he.text_mem_of_segment rfl hf c hc t ht text htext)⟩

theorem exists_text_iff {text : String} :
    (∃ s ∈ program.sites, s.node.text? = some text) ↔
      (∃ s ∈ program.sites, s.node = .string text) ∨
        ∃ s ∈ program.sites, ∃ object, s.node = .member object text := by
  constructor
  · rintro ⟨s, hs, ht⟩
    cases hn : s.node with
    | string value =>
      rw [hn, Node.text?, Option.some_inj] at ht
      exact .inl ⟨s, hs, ht ▸ hn⟩
    | member object property =>
      rw [hn, Node.text?, Option.some_inj] at ht
      exact .inr ⟨s, hs, object, ht ▸ hn⟩
    | _ =>
      rw [hn] at ht
      cases ht
  · rintro (⟨s, hs, hn⟩ | ⟨s, hs, object, hn⟩)
    · exact ⟨s, hs, by rw [hn]; rfl⟩
    · exact ⟨s, hs, by rw [hn]; rfl⟩

/-- **The string table of an image is what its code uses.** All sections of the image decode. Its
strings are distinct, the operands of the instructions that take a string are the indices of all of
them, and they are the values of the string literals of the program, the properties of its members,
and the names that are used where no function around has them as local names. -/
theorem strings_exact (h : program.compile config = .ok image)
    (hn : image.strings.length ≤ 2 ^ 32) :
    (0 < image.sections.length ∧
      ∀ id < image.sections.length, ∃ is, image.instructions id = .ok is) ∧
    image.strings.Nodup ∧
      (∀ k, (∃ id is, image.instructions id = .ok is ∧
          ∃ i ∈ is, i.opcode.namesText = true ∧ i.operands.map UInt32.toNat = [k]) ↔
        k < image.strings.length) ∧
      ∀ text, text ∈ image.strings ↔
        (∃ s ∈ program.sites, s.node = .string text) ∨
        (∃ s ∈ program.sites, ∃ object, s.node = .member object text) ∨
        ∃ segment ∈ program.segments, ∃ a ∈ segment.uses,
          a.name = text ∧ ∀ names ∈ segment.chain, text ∉ names := by
  obtain ⟨pieces, hsegments, hlength, hpieces, hnodup, htexts⟩ := exists_pieces h
  refine ⟨sections_decode h, hnodup, fun k => ⟨?_, fun hk => ?_⟩, fun text => ?_⟩
  · rintro ⟨id, is, hi, hm⟩
    have ha := hpieces id _ (List.getElem?_eq_getElem (hlength ▸ Image.lt_of_instructions hi))
    obtain ⟨text, ht, rfl⟩ := (ha.operand_iff hn hi).mp hm
    exact List.idxOf_lt_length_of_mem (ha.texts text ht)
  · obtain ⟨piece, hp, ht⟩ := (htexts _).mp (List.getElem_mem hk)
    obtain ⟨id, hid⟩ := List.mem_iff_getElem?.mp hp
    have ha := hpieces id piece hid
    exact ⟨id, _, ha.instructions_eq, (ha.operand_iff hn ha.instructions_eq).mpr
      ⟨_, ht, hnodup.idxOf_getElem k hk⟩⟩
  · rw [← or_assoc, ← exists_text_iff]
    constructor
    · intro ht
      obtain ⟨piece, hp, ht⟩ := (htexts text).mp ht
      obtain ⟨id, hid⟩ := List.mem_iff_getElem?.mp hp
      have hs : program.segments[id]? = some piece.segment := by
        rw [← hsegments, List.getElem?_map, hid, Option.map_some]
      obtain ⟨f, hf, hh⟩ := exists_getElem?_of_forall₂ (wellFormed_of_compile h).forall₂_heads hs
      rcases (hpieces id piece hid).exists_of_text_mem (List.mem_of_getElem? hf) hh ht with hs | hu
      · exact .inl hs
      · exact .inr ⟨piece.segment, List.mem_of_getElem? hs, hu⟩
    · rintro (⟨s, hs, ht⟩ | ⟨segment, hs, a, ha, rfl, hg⟩)
      · exact text_mem_of_site h hs ht
      · obtain ⟨id, hid⟩ := List.mem_iff_getElem?.mp hs
        obtain ⟨lines, hlines⟩ := (assembled h).2 id segment hid
        exact hlines.texts _ (hlines.text_mem_of_use ha hg)

/-- A function stores a string in a property of the same name. The string table holds the two as
one, and the name of the function; it does not hold the name of the parameter. -/
theorem strings_exact_parameter :
    ∃ image, (compile {} ⟨[.function (some "f") ["a"]
        [.assign (.member (.ident "a") "p") (.string "p")]]⟩ = .ok image ∧
        image.strings.length ≤ 2 ^ 32) ∧
      image.strings = ["p", "f"] ∧ (∃ is, image.instructions 1 = .ok is) ∧
      (∃ id is, image.instructions id = .ok is ∧
        ∃ i ∈ is, i.opcode.namesText = true ∧ i.operands.map UInt32.toNat = [1]) ∧
      ¬ ∃ segment ∈ segments ⟨[.function (some "f") ["a"]
          [.assign (.member (.ident "a") "p") (.string "p")]]⟩, ∃ a ∈ segment.uses,
        a.name = "a" ∧ ∀ names ∈ segment.chain, "a" ∉ names := by
  have h : compile {} ⟨[.function (some "f") ["a"]
      [.assign (.member (.ident "a") "p") (.string "p")]]⟩ = .ok
      { sections := [
          [19, 0, 0, 0, 1, 0, 0, 0, 18, 0, 0, 0, 1, 0, 0, 0, 27, 0, 0, 0, 19, 0, 0, 0, 1, 0, 0, 0,
            27, 0, 0, 0, 0, 0, 0, 0, 1, 0, 0, 0],
          [21, 0, 0, 0, 0, 0, 0, 0, 22, 0, 0, 0, 1, 0, 0, 0, 0, 0, 0, 0, 8, 0, 0, 0, 1, 0, 0, 0,
            0, 0, 0, 0, 5, 0, 0, 0, 0, 0, 0, 0, 45, 0, 0, 0, 0, 0, 0, 0, 27, 0, 0, 0, 0, 0, 0, 0,
            1, 0, 0, 0]]
        strings := ["p", "f"] } := by
    decide +kernel
  obtain ⟨⟨-, decode⟩, -, hoperands, htexts⟩ := strings_exact h (by decide)
  refine ⟨_, ⟨h, by decide⟩, rfl, decode 1 (by decide), (hoperands 1).mpr (by decide), fun hu => ?_⟩
  exact absurd ((htexts "a").mpr (.inr (.inr hu))) (by decide)

end Program

end ScriptCompiler
