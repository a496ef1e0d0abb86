import ScriptCompiler.Proofs.Addressing
import ScriptCompiler.Proofs.ClosedCode
import ScriptCompiler.Proofs.Closures
import ScriptCompiler.Proofs.Decoding

/-!
# Declared functions are bound first

The section of a function starts by storing the function itself and its arguments. Then the
functions that are declared in its body are bound to their names, all of them, wherever the
declarations stand in blocks, branches and loops. Only then comes the code of the statements, and
the section ends by returning undefined. While a function is bound its own code is written, but to
other sections, so that nothing comes between the bindings.

## Main definitions

* `Instruction.bare`: an instruction without its offset
* `bindLines`: the lines that bind declared functions
* `Site.binding`: the instructions that bind a declared function
* `LaidOut`: a section is an opening, code of statements, and a return of undefined

## Main results

* `Emits.of_binds`: what binding declared functions comes to in their section
* `Emits.enters`: statements store neither the running function nor arguments
* `Emits.of_bodyPlan`: the parts of the code of a body
* `Program.bindings_first`: how the sections of a program are laid out
-/

namespace ScriptCompiler

/-- An instruction wherever it stands: its opcode, and its operands as numbers. -/
def Instruction.bare (i : Instruction) : Opcode × List Nat :=
  (i.opcode, i.operands.map UInt32.toNat)

/-- Whether an opcode stores the running function or one of its arguments. -/
def Opcode.enters : Opcode → Bool
  | setCallee | setArgument => true
  | _ => false

namespace Line

/-- Whether a line stores the running function or one of its arguments. -/
def enters : Line → Bool
  | plain op | unary op _ | binary op _ _ | text op _ | jump op _ => op.enters
  | number _ | define _ => false

/-- The instruction of a line without its offset, if it does not depend on labels. -/
def bare? (strings : List String) : Line → Option (Opcode × List Nat)
  | plain op => some (op, [])
  | unary op operand => some (op, [operand])
  | binary op first second => some (op, [first, second])
  | text op string => some (op, [strings.idxOf string])
  | number _ | jump .. | define _ => none

variable {strings : List String} {target : Label → Nat} {offset : Nat} {l : Line} {i : Instruction}

theorem enters_of_instruction? (h : l.instruction? strings target offset = some i) :
    i.opcode.enters = l.enters := by
  cases l <;> cases h <;> rfl

theorem exists_instruction_of_bare? {b : Opcode × List Nat} (hb : l.bare? strings = some b)
    (hf : l.Fits) (hs : strings.length ≤ 2 ^ 32) (ht : ∀ text, l.text? = some text → text ∈ strings)
    (target : Label → Nat) (offset : Nat) :
    ∃ i, l.instruction? strings target offset = some i ∧ i.bare = b := by
  cases l with
  | plain op =>
    cases hb
    exact ⟨_, rfl, rfl⟩
  | unary op operand =>
    cases hb
    have hw := toNat_toUInt32 (show operand < 2 ^ 32 from hf)
    exact ⟨_, rfl, by simp only [Instruction.bare, List.map_singleton, hw]⟩
  | binary op first second =>
    cases hb
    refine ⟨_, rfl, ?_⟩
    simp only [Instruction.bare, List.map_cons, List.map_nil, toNat_toUInt32 hf.1,
      toNat_toUInt32 hf.2]
  | text op string =>
    cases hb
    have hlt := Nat.lt_of_lt_of_le (List.idxOf_lt_length_of_mem (ht string rfl)) hs
    exact ⟨_, rfl, by simp only [Instruction.bare, List.map_singleton, toNat_toUInt32 hlt]⟩
  | number | jump | define => cases hb

end Line

/-- The listing of lines that do not depend on labels. -/
theorem Assembly.bare_listing {strings : List String} (hs : strings.length ≤ 2 ^ 32)
    (target : Label → Nat) (offset : Nat) {lines : List Line} {bs : List (Opcode × List Nat)}
    (hb : lines.map (Line.bare? strings) = bs.map some) (hf : ∀ l ∈ lines, l.Fits)
    (ht : ∀ text ∈ texts lines, text ∈ strings) :
    (listing strings target offset lines).map Instruction.bare = bs := by
  induction lines generalizing offset bs with
  | nil =>
    cases bs with
    | nil => rfl
    | cons b bs => cases hb
  | cons l lines ih =>
    cases bs with
    | nil => cases hb
    | cons b bs =>
      obtain ⟨hb, hbs⟩ := List.cons.inj hb
      rw [List.forall_mem_cons] at hf
      have htexts : ∀ text ∈ l.text?, text ∈ strings := by
        intro text hm
        exact ht text (List.mem_filterMap.mpr ⟨l, List.mem_cons_self, hm⟩)
      have hrest : ∀ text ∈ texts lines, text ∈ strings := by
        intro text hm
        obtain ⟨k, hk, hm⟩ := List.mem_filterMap.mp hm
        exact ht text (List.mem_filterMap.mpr ⟨k, List.mem_cons_of_mem _ hk, hm⟩)
      obtain ⟨i, hi, rfl⟩ :=
        Line.exists_instruction_of_bare? hb hf.1 hs htexts target offset
      rw [listing, hi, List.map_append, ih _ hbs hf.2 hrest]
      rfl

/-! ## Bindings in lines -/

/-- **The lines that bind declared functions**, the sections of which start at `next`. -/
def bindLines (chain : List (List String)) (next : SectionId) (rs : List Routine) : List Line :=
  (rs.zip (starts next rs)).flatMap fun (r, id) =>
    .unary .close id ::
      (r.name.toList.map (accessLine .setVariable .setGlobal chain) ++ [.plain .pop])

theorem bindLines_cons (chain : List (List String)) (next : SectionId) (r : Routine)
    (rs : List Routine) :
    bindLines chain next (r :: rs) =
      .unary .close next ::
        (r.name.toList.map (accessLine .setVariable .setGlobal chain) ++ [.plain .pop]) ++
        bindLines chain (next + r.sections) rs := rfl

namespace Emits

open ScriptCompiler.Part

variable {chain : List (List String)} {m m' : Mark} {parts : List Part} {lines : List Line}
  {pieces : List Piece}

theorem of_bindPlan {r : Routine} (h : Emits chain m r.bindPlan lines pieces m') :
    lines = .unary .close m.sections ::
      (r.name.toList.map (accessLine .setVariable .setGlobal chain) ++ [.plain .pop]) := by
  unfold Routine.bindPlan at h
  rcases h with _ | ⟨⟨⟩, h⟩ | ⟨⟨⟩⟩ | _
  rcases h with _ | ⟨⟨⟩, _⟩ | ⟨⟨⟩⟩ | ⟨_, h⟩
  refine congrArg (Line.unary .close m.sections :: ·) ?_
  cases hn : r.name with
  | none =>
    rw [hn] at h
    exact (eq_of_lines [.plain .pop] h).1
  | some name =>
    rw [hn] at h
    rcases h with _ | ⟨⟨⟩, h⟩ | ⟨⟨⟩⟩ | _
    rw [(eq_of_lines [.plain .pop] h).1]
    rfl

/-- **What binding declared functions comes to** in the section where they are bound. -/
theorem of_binds {rs : List Routine} (h : Emits chain m (rs.map .bind) lines pieces m') :
    lines = bindLines chain m.sections rs := by
  induction rs generalizing m lines pieces with
  | nil =>
    cases h
    rfl
  | cons r rest ih =>
    cases h with
    | step hp => cases hp
    | @inner _ _ _ _ here _ m₁ _ after _ _ hp hi h =>
      cases hp
      have hs : m₁.sections = m.sections + r.sections := by
        have hs := hi.sections_eq
        rwa [Routine.flatMap_routines_bindPlan, sectionsOf_cons, sectionsOf_nil, Nat.add_zero] at hs
      have hafter : after = bindLines chain (m.outer m₁).sections rest := ih h
      rw [hafter, hi.of_bindPlan, bindLines_cons, ← hs]
      rfl

/-- The own lines of a construct store neither the running function nor arguments. -/
theorem enters_of_inner {p : Part} {plan : List Part} (h : p.Inner plan) :
    ∀ l, .line l ∈ plan → l.enters = false := by
  intro l hl
  have hfixed : l.Fixed := (disciplined_of_inner h).neat _ hl
  have hcounts := counted_of_inner h l hl
  cases l with
  | plain op => cases op <;> first | rfl | cases hfixed
  | unary op operand =>
    simp only [Line.Counts, List.mem_cons, List.not_mem_nil, or_false] at hcounts
    rcases hcounts.1 with rfl | rfl | rfl <;> rfl
  | text op string =>
    simp only [Line.Fixed, List.mem_cons, List.not_mem_nil, or_false] at hfixed
    rcases hfixed with rfl | rfl | rfl <;> rfl
  | binary => cases hcounts
  | number | jump | define => first | rfl | cases hfixed

theorem enters_of_step {p : Part} {here : List Line} {m₁ : Mark} (h : Step chain m p here m₁)
    (hp : p.Neat) (hown : ∀ l, p = .line l → l.enters = false) :
    ∀ l ∈ here, l.enters = false := by
  cases h with
  | line l => exact List.forall_mem_singleton.mpr (hown l rfl)
  | load name | store name =>
    rw [List.forall_mem_singleton, accessLine]
    split <;> rfl
  | @jump op _ _ _ =>
    have hj : op.isJump = true := hp
    rw [List.forall_mem_singleton]
    cases op <;> first | rfl | cases hj
  | _ => simp [Line.enters, Opcode.enters]

/-- Code stores neither the running function nor arguments if the own lines of its parts do not. -/
theorem enters (h : Emits chain m parts lines pieces m') (hn : ∀ p ∈ parts, p.Neat)
    (hown : ∀ l, .line l ∈ parts → l.enters = false) : ∀ l ∈ lines, l.enters = false := by
  induction h with
  | nil => simp
  | step hp _ ih =>
    rw [List.forall_mem_cons] at hn
    refine List.forall_mem_append.mpr ⟨?_, ih hn.2 fun l hl => hown l (.tail _ hl)⟩
    exact enters_of_step hp hn.1 fun l hl => hown l (hl ▸ List.mem_cons_self)
  | inner hp _ _ ihi ih =>
    rw [List.forall_mem_cons] at hn
    refine List.forall_mem_append.mpr ⟨?_, ih hn.2 fun l hl => hown l (.tail _ hl)⟩
    exact ihi (disciplined_of_inner hp).neat (enters_of_inner hp)
  | literal _ _ _ ih =>
    rw [List.forall_mem_cons] at hn
    exact List.forall_mem_cons.mpr ⟨rfl, ih hn.2 fun l hl => hown l (.tail _ hl)⟩

/-- **The parts of the code of a body**: the bindings, the statements, and a return of undefined. -/
theorem of_bodyPlan {body : List Node} (h : Emits chain m (bodyPlan body) lines pieces m') :
    ∃ code inside m₁ m₂, Emits chain m₁ (body.map .statement) code inside m₂ ∧
      m₁.loops = m.loops ∧ m₁.own = m.own ∧
      m₁.pending = m.pending ++ starts m.sections (declaredIn body) ∧
      lines = bindLines chain m.sections (declaredIn body) ++ code ++
        [.plain .pushUndefined, .plain .ret] := by
  obtain ⟨_, _, m₂, _, _, hinit, hend, rfl, -⟩ := h.of_append
  obtain ⟨_, _, m₁, code, inside, hbinds, hstatements, rfl, -⟩ := hinit.of_append
  have hdisciplined : Disciplined ((declaredIn body).map Part.bind) :=
    disciplined_of_straight (by simp [Neat, Part.defines, Part.loopDepth])
  refine ⟨code, inside, m₁, m₂, hstatements, hbinds.loops hdisciplined, hbinds.own (by simp),
    hbinds.pending_binds, ?_⟩
  rw [hbinds.of_binds, hend.of_endPlan.1]

end Emits

/-! ## Layouts of sections -/

/-- **How a section is laid out**: it starts with an opening, goes on with code of the statements of
a body, and ends by returning undefined. The statements stand in no loop, and the functions that
they declare have the sections `declared`, in their order. -/
structure LaidOut (image : Image) (id : SectionId) (opening : List (Opcode × List Nat))
    (chain : List (List String)) (declared : List SectionId) (body : List Node)
    (front code last : List Instruction) : Prop where
  listed : image.instructions id = .ok (front ++ code ++ last)
  front : front.map Instruction.bare = opening
  statements : ∃ labels next lines pieces m' target offset,
    Emits chain ⟨labels, next, [], declared, []⟩ (body.map .statement) lines pieces m' ∧
      code = Assembly.listing image.strings target offset lines
  code : ∀ i ∈ code, i.opcode ≠ .setCallee ∧ i.opcode ≠ .setArgument
  last : last.map Instruction.bare = [(.pushUndefined, []), (.ret, [])]

/-- The lines that the section of a segment starts with. -/
def Segment.prologue : Segment → List Line
  | top _ => []
  | function _ r => r.prologue

theorem Segment.plan_eq (segment : Segment) :
    segment.plan = segment.prologue.map .line ++ bodyPlan segment.body := by
  cases segment <;> rfl

namespace Assembled

variable {image : Image} {id : Nat} {segment : Segment} {lines : List Line}

/-- The lines of a section: what it starts with, the bindings, the statements, and the end. -/
theorem exists_statements (h : Assembled image id segment lines) :
    ∃ labels next code pieces last,
      Emits segment.chain ⟨labels, next, [], starts (id + 1) (declaredIn segment.body), []⟩
        (segment.body.map .statement) code pieces last ∧
      lines = segment.prologue ++ bindLines segment.chain (id + 1) (declaredIn segment.body) ++
        code ++ [.plain .pushUndefined, .plain .ret] := by
  obtain ⟨labels, _, _, he, -⟩ := h.emits
  rw [segment.plan_eq] at he
  obtain ⟨_, _, _, _, _, hprologue, hbody, rfl, -⟩ := he.of_append
  obtain ⟨rfl, rfl⟩ := hprologue.eq_of_lines
  obtain ⟨code, pieces, ⟨labels', next, loops, pending, own⟩, last, hs, rfl, rfl, rfl, rfl⟩ :=
    hbody.of_bodyPlan
  exact ⟨labels', next, code, pieces, last, hs, by simp only [List.append_assoc]⟩

/-- **A section is laid out** with the opening that its lines come to. -/
theorem exists_laidOut (h : Assembled image id segment lines) (hs : image.strings.length ≤ 2 ^ 32)
    {opening : List (Opcode × List Nat)}
    (hb : (segment.prologue ++ bindLines segment.chain (id + 1) (declaredIn segment.body)).map
      (Line.bare? image.strings) = opening.map some)
    (hf : ∀ l ∈ segment.prologue ++ bindLines segment.chain (id + 1) (declaredIn segment.body),
      l.Fits) :
    ∃ front code last, LaidOut image id opening segment.chain
      (starts (id + 1) (declaredIn segment.body)) segment.body front code last := by
  obtain ⟨labels, next, code, pieces, m', he, hl⟩ := h.exists_statements
  have htexts := h.texts
  have hlisted := h.instructions_eq
  rw [hl] at htexts
  generalize target image lines = target at hlisted
  rw [hl, Assembly.listing_append, Assembly.listing_append] at hlisted
  refine ⟨_, _, _, hlisted, ?_, ⟨labels, next, code, pieces, m', target, _, he, rfl⟩, ?_, rfl⟩
  · refine Assembly.bare_listing hs target 0 hb hf fun text ht => htexts text ?_
    simp only [Assembly.texts, List.filterMap_append] at ht ⊢
    exact List.mem_append_left _ (List.mem_append_left _ ht)
  · intro i hi
    obtain ⟨before, l, after, rfl, hline⟩ := Assembly.exists_line_of_mem hi
    have henters := he.enters (by simp [Part.Neat]) (by simp) l (by simp)
    rw [← Line.enters_of_instruction? hline] at henters
    constructor <;>
    · intro ho
      rw [ho] at henters
      cases henters

end Assembled

/-! ## Bindings of declared functions -/

/-- **The instructions that bind a declared function** that has the section `id`: a closure over it
is stored under its name. -/
def Site.binding (t : Site) (id : SectionId) (store : String → Opcode × List Nat) :
    List (Opcode × List Nat) :=
  match t.node with
  | .function (some name) _ _ => [(.close, [id]), store name, (.pop, [])]
  | _ => []

theorem Site.binding_of_routine? {t : Site} {r : Routine} (ht : t.node.routine? = some r)
    {name : String} (hn : r.name = some name) (id : SectionId)
    (store : String → Opcode × List Nat) :
    t.binding id store = [(.close, [id]), store name, (.pop, [])] := by
  unfold binding
  cases hnode : t.node with
  | function =>
    rw [hnode] at ht
    cases ht
    cases hn
    rfl
  | _ =>
    rw [hnode] at ht
    cases ht

section Bindings

variable {chain : List (List String)} {next : SectionId} {rs : List Routine}

/-- Lines that bind functions are the instructions that bind them. -/
theorem map_bare_bindLines {ts : List Site} {sectionOf : Site → SectionId} {strings : List String}
    {store : String → Opcode × List Nat}
    (hr : List.Forall₂ (fun t r => t.node.routine? = some r) ts rs)
    (hids : ts.map sectionOf = starts next rs)
    (hstore : ∀ r ∈ rs, ∃ name, r.name = some name ∧
      (accessLine .setVariable .setGlobal chain name).bare? strings = some (store name)) :
    (bindLines chain next rs).map (Line.bare? strings) =
      (ts.flatMap fun t => t.binding (sectionOf t) store).map some := by
  induction hr generalizing next with
  | nil => rfl
  | @cons t r ts rs ht _ ih =>
    rw [List.forall_mem_cons] at hstore
    obtain ⟨hid, hids⟩ := List.cons.inj hids
    obtain ⟨⟨name, hn, hs⟩, hrest⟩ := hstore
    rw [bindLines_cons, List.map_append, ih hids hrest, List.flatMap_cons, List.map_append,
      Site.binding_of_routine? ht hn, hid, hn]
    show _ :: (accessLine .setVariable .setGlobal chain name).bare? strings :: _ = _
    rw [hs]
    rfl

theorem fits_bindLines (hids : ∀ id ∈ starts next rs, id < 2 ^ 32)
    (hstore : ∀ r ∈ rs, ∀ name, r.name = some name →
      (accessLine .setVariable .setGlobal chain name).Fits) :
    ∀ l ∈ bindLines chain next rs, l.Fits := by
  intro l hl
  obtain ⟨⟨r, id⟩, hm, hl⟩ := List.mem_flatMap.mp hl
  obtain ⟨hr, hid⟩ := List.of_mem_zip hm
  rcases List.mem_cons.mp hl with rfl | hl
  · exact hids id hid
  rcases List.mem_append.mp hl with hl | hl
  · obtain ⟨name, hn, rfl⟩ := List.mem_map.mp hl
    exact hstore r hr name (Option.mem_toList.mp hn)
  · cases List.mem_singleton.mp hl
    trivial

theorem access_mem_bindLines {r : Routine} (hr : r ∈ rs) {name : String} (hn : r.name = some name) :
    accessLine .setVariable .setGlobal chain name ∈ bindLines chain next rs := by
  induction rs generalizing next with
  | nil => cases hr
  | cons q rest ih =>
    rw [bindLines_cons]
    rcases List.mem_cons.mp hr with rfl | hr
    · exact List.mem_append_left _ (by simp [hn])
    · exact List.mem_append_right _ (ih hr)

end Bindings

/-- **The instructions that a function starts with**: it stores itself if it has a name, and its
arguments in their order. -/
def Routine.entry (r : Routine) : List (Opcode × List Nat) :=
  r.name.toList.map (fun name => (.setCallee, [r.locals.idxOf name])) ++
    r.params.zipIdx.map (fun (param, position) =>
      (.setArgument, [r.locals.idxOf param, position]))

theorem Routine.map_bare_prologue (r : Routine) (strings : List String) :
    r.prologue.map (Line.bare? strings) = r.entry.map some := by
  simp only [prologue, entry, List.map_append, List.map_map]
  rfl

theorem Routine.fits_of_mem_prologue {r : Routine} (hp : r.params.length ≤ 2 ^ 32)
    (hl : r.locals.length ≤ 2 ^ 32) : ∀ l ∈ r.prologue, l.Fits := by
  refine fits_prologue hl fun l hm => ?_
  rcases List.mem_append.mp hm with hm | hm
  · obtain ⟨name, -, rfl⟩ := List.mem_map.mp hm
    exact Nat.two_pow_pos 32
  · obtain ⟨⟨param, position⟩, hparam, rfl⟩ := List.mem_map.mp hm
    have hlt := (List.mem_zipIdx hparam).2.1
    show position < 2 ^ 32
    omega

theorem accessLine_of_mem (slotted global : Opcode) {names : List String} {name : String}
    (h : name ∈ names) (outer : List (List String)) :
    accessLine slotted global (names :: outer) name = .binary slotted (names.idxOf name) 0 := by
  rw [accessLine, lexical, if_pos h]

/-! ## Programs -/

namespace Program

variable {config : Config} {program : Program} {image : Image}

/-- The lines that bind the functions declared in a function, and the instructions that do. -/
theorem bare_of_declared (h : program.compile config = .ok image)
    (hn : image.sections.length ≤ 2 ^ 32) {f : Site} (hf : f ∈ program.root.family) {r : Routine}
    (hr : f.node.routine? = some r) (chain : List (List String))
    (store : String → Opcode × List Nat)
    (hstore : ∀ name ∈ r.body.flatMap Node.names,
      (accessLine .setVariable .setGlobal chain name).bare? image.strings = some (store name) ∧
        (accessLine .setVariable .setGlobal chain name).Fits) :
    (bindLines chain (program.sectionOf f.path + 1) (declaredIn r.body)).map
        (Line.bare? image.strings) =
      (f.declaredFunctions.flatMap fun t =>
        t.binding (program.sectionOf t.path) store).map some ∧
      ∀ l ∈ bindLines chain (program.sectionOf f.path + 1) (declaredIn r.body), l.Fits := by
  have wf := wellFormed_of_compile h
  have hids := (sectionOf_functions wf hf hr).1
  have hroutines : List.Forall₂ (fun t q => t.node.routine? = some q) f.declaredFunctions
      (declaredIn r.body) :=
    Site.forall₂_of_map_routine (Site.map_routine_declaredFunctions hr fun c hc t ht =>
      wf t (mem_sites_of_mem_inner hf hc (Site.mem_all_of_mem_within ht)))
  constructor
  · refine map_bare_bindLines hroutines hids fun q hq => ?_
    obtain ⟨name, hname, hq⟩ := exists_name_of_mem_declaredIn hq
    exact ⟨name, hq, (hstore name hname).1⟩
  · refine fits_bindLines (fun id hid => ?_) fun q hq name hname => ?_
    · rw [← hids] at hid
      obtain ⟨t, ht, rfl⟩ := List.mem_map.mp hid
      have hm := mem_sites_of_mem_functions hf (List.mem_append_left _ ht)
      exact Nat.lt_of_lt_of_le (sectionOf_lt h (mem_family_root.mpr (.inr hm))) hn
    · obtain ⟨name', hname', hq⟩ := exists_name_of_mem_declaredIn hq
      cases hq.symm.trans hname
      exact (hstore name hname').2

/-- **The section of a function** starts with the function, its arguments and its bindings. -/
theorem exists_laidOut_function (h : program.compile config = .ok image)
    (hstrings : image.strings.length ≤ 2 ^ 32) (hsections : image.sections.length ≤ 2 ^ 32)
    {f : Site} (hf : f ∈ program.sites) {r : Routine} (hr : f.node.routine? = some r)
    (hparams : r.params.length ≤ 2 ^ 32) (hlocals : r.locals.length ≤ 2 ^ 32) :
    ∃ outer front code last, LaidOut image (program.sectionOf f.path)
      (r.entry ++ f.declaredFunctions.flatMap fun t => t.binding (program.sectionOf t.path)
        fun name => (.setVariable, [r.locals.idxOf name, 0]))
      (r.locals :: outer) (f.declaredFunctions.map fun t => program.sectionOf t.path) r.body
      front code last := by
  have hfun : f.isFunction = true := by
    rw [Site.isFunction, hr]
    rfl
  have hm : f ∈ program.root.family := mem_family_root.mpr (.inr ⟨hf, hfun⟩)
  obtain ⟨outer, r', lines, hr', ha⟩ := exists_assembled_function h hf hfun
  cases hr.symm.trans hr'
  obtain ⟨hbare, hfits⟩ := bare_of_declared h hsections hm hr (r.locals :: outer)
    (fun name => (.setVariable, [r.locals.idxOf name, 0])) (by
      intro name hname
      have hlocal := r.mem_locals hname
      rw [accessLine_of_mem _ _ hlocal]
      exact ⟨rfl, Nat.lt_of_lt_of_le (List.idxOf_lt_length_of_mem hlocal) hlocals,
        Nat.two_pow_pos 32⟩)
  rw [(sectionOf_functions (wellFormed_of_compile h) hm hr).1]
  refine ⟨outer, ha.exists_laidOut hstrings ?_ ?_⟩
  · rw [List.map_append, List.map_append, ← r.map_bare_prologue, ← hbare]
    rfl
  · exact List.forall_mem_append.mpr ⟨r.fits_of_mem_prologue hparams hlocals, hfits⟩

/-- **The first section** starts with the bindings of the functions that the program declares. -/
theorem exists_laidOut_top (h : program.compile config = .ok image)
    (hstrings : image.strings.length ≤ 2 ^ 32) (hsections : image.sections.length ≤ 2 ^ 32) :
    ∃ front code last, LaidOut image 0
      (program.root.declaredFunctions.flatMap fun t => t.binding (program.sectionOf t.path)
        fun name => (.setGlobal, [image.strings.idxOf name]))
      [] (program.root.declaredFunctions.map fun t => program.sectionOf t.path) program.body
      front code last := by
  have hm : program.root ∈ program.root.family := mem_family_root.mpr (.inl rfl)
  have hzero : program.sectionOf program.root.path = 0 := program.sectionOf_nil
  obtain ⟨lines, ha⟩ := (assembled h).2 0 (.top program.body) rfl
  obtain ⟨hbare, hfits⟩ := bare_of_declared h hsections hm rfl []
    (fun name => (.setGlobal, [image.strings.idxOf name])) fun name hname => ⟨rfl, trivial⟩
  have hids := (sectionOf_functions (wellFormed_of_compile h) hm rfl).1
  rw [hzero] at hbare hfits hids
  rw [hids]
  exact ha.exists_laidOut hstrings hbare hfits

/-- The names of the functions that a program declares are strings of its image. -/
theorem name_mem_strings (h : program.compile config = .ok image) {t : Site}
    (ht : t ∈ program.root.declaredFunctions) {name : String} {params : List String}
    {body : List Node} (hnode : t.node = .function (some name) params body) :
    name ∈ image.strings := by
  have wf := wellFormed_of_compile h
  have hroutines : program.root.declaredFunctions.map (fun t => t.node.routine?) =
      (declaredIn program.body).map some :=
    Site.map_routine_declaredFunctions rfl fun c hc t ht =>
      wf.inside_root c hc t (Site.mem_all_of_mem_within ht)
  have hr : some ⟨some name, params, body⟩ ∈ (declaredIn program.body).map some := by
    rw [← hroutines]
    exact List.mem_map.mpr ⟨t, ht, by rw [hnode]; rfl⟩
  obtain ⟨r, hr, he⟩ := List.mem_map.mp hr
  obtain ⟨lines, ha⟩ := (assembled h).2 0 (.top program.body) rfl
  obtain ⟨_, _, code, _, _, -, hl⟩ := ha.exists_statements
  apply ha.texts
  refine List.mem_filterMap.mpr ⟨.text .setGlobal name, ?_, rfl⟩
  rw [hl]
  have haccess : accessLine .setVariable .setGlobal [] name ∈
      bindLines [] 1 (declaredIn program.body) :=
    access_mem_bindLines hr (by rw [Option.some.inj he])
  exact List.mem_append_left _ (List.mem_append_left _ haccess)

/-- **Declared functions are bound first.** The functions among the nodes of a program, by where
they stand, correspond to the sections of its image after the first. The section of a function
stores the function in its own slot if it has a name, and then the arguments in the slots of the
parameters; then, for every function that is declared in its body, in the order of the source, it
makes a closure over the section of that function, stores it in the slot of its name and drops it.
Code of the statements follows, in which neither the running function nor an argument is stored, and
a return of undefined. The first section is laid out in the same way, without a function or
arguments to store and with globals in place of slots. -/
theorem bindings_first (h : program.compile config = .ok image)
    (hstrings : image.strings.length ≤ 2 ^ 32) (hsections : image.sections.length ≤ 2 ^ 32) :
    Set.BijOn (fun f : Site => program.sectionOf f.path)
      {f | f ∈ program.sites ∧ f.isFunction = true} (Set.Ico 1 image.sections.length) ∧
    (∀ f ∈ program.sites, ∀ r, f.node.routine? = some r →
      r.params.length ≤ 2 ^ 32 → r.locals.length ≤ 2 ^ 32 →
      ∃ outer front code last, LaidOut image (program.sectionOf f.path)
        (r.entry ++ f.declaredFunctions.flatMap fun t => t.binding (program.sectionOf t.path)
          fun name => (.setVariable, [r.locals.idxOf name, 0]))
        (r.locals :: outer) (f.declaredFunctions.map fun t => program.sectionOf t.path) r.body
        front code last) ∧
    (∃ front code last, LaidOut image 0
      (program.root.declaredFunctions.flatMap fun t => t.binding (program.sectionOf t.path)
        fun name => (.setGlobal, [image.strings.idxOf name]))
      [] (program.root.declaredFunctions.map fun t => program.sectionOf t.path) program.body
      front code last) ∧
    ∀ t ∈ program.root.declaredFunctions, ∀ name params body,
      t.node = .function (some name) params body → name ∈ image.strings := by
  refine ⟨bijOn_sectionOf h, fun f hf r hr hparams hlocals => ?_,
    exists_laidOut_top h hstrings hsections, fun t ht name params body => name_mem_strings h ht⟩
  exact exists_laidOut_function h hstrings hsections hf hr hparams hlocals

/-- A function that is declared in a block in a loop is bound before the loop. -/
theorem bindings_first_loop :
    ∃ image outer front code last,
      (compile {} ⟨[.function (some "f") ["a"]
          [.whileLoop (.ident "a") (.block [.function (some "g") [] []])]]⟩ = .ok image ∧
        image.strings.length ≤ 2 ^ 32 ∧ image.sections.length ≤ 2 ^ 32) ∧
      LaidOut image 1
        [(.setCallee, [0]), (.setArgument, [1, 0]), (.close, [2]), (.setVariable, [2, 0]),
          (.pop, [])]
        (["f", "a", "g"] :: outer) [2]
        [.whileLoop (.ident "a") (.block [.function (some "g") [] []])] front code last := by
  have h : compile {} ⟨[.function (some "f") ["a"]
      [.whileLoop (.ident "a") (.block [.function (some "g") [] []])]]⟩ = .ok
      { sections := [
          [19, 0, 0, 0, 1, 0, 0, 0, 18, 0, 0, 0, 0, 0, 0, 0, 27, 0, 0, 0, 19, 0, 0, 0, 1, 0, 0, 0,
            27, 0, 0, 0, 0, 0, 0, 0, 1, 0, 0, 0],
          [21, 0, 0, 0, 0, 0, 0, 0, 22, 0, 0, 0, 1, 0, 0, 0, 0, 0, 0, 0, 19, 0, 0, 0, 2, 0, 0, 0,
            7, 0, 0, 0, 2, 0, 0, 0, 0, 0, 0, 0, 27, 0, 0, 0, 8, 0, 0, 0, 1, 0, 0, 0, 0, 0, 0, 0,
            14, 0, 0, 0, 21, 0, 0, 0, 19, 0, 0, 0, 2, 0, 0, 0, 27, 0, 0, 0, 12, 0, 0, 0,
            11, 0, 0, 0, 0, 0, 0, 0, 1, 0, 0, 0],
          [21, 0, 0, 0, 0, 0, 0, 0, 0, 0, 0, 0, 1, 0, 0, 0]]
        strings := ["f"] } := by
    decide +kernel
  obtain ⟨-, functions, -⟩ := bindings_first h (by decide) (by decide)
  obtain ⟨outer, front, code, last, hl⟩ := functions ⟨[0], [], .statement, false,
    .function (some "f") ["a"] [.whileLoop (.ident "a") (.block [.function (some "g") [] []])]⟩
    (by simp [sites, root, Site.inner, Site.all_eq, Site.child, Node.children, Site.isFunction,
      Node.routine?]) _ rfl (by decide) (by decide +kernel)
  refine ⟨_, outer, front, code, last, ⟨h, by decide, by decide⟩, ?_⟩
  convert hl using 2 <;> decide +kernel

end Program

end ScriptCompiler
