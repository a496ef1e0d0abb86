import ScriptCompiler.Proofs.Statements

/-!
# Compilation preserves meaning

The machine returns from the code of a section what the evaluator gives for the segment that the
section is compiled from, and leaves the same store. It never gets stuck, and it runs forever where
the evaluator needs more and more rounds.

## Main results

* `Located.follows_segment`: the machine follows the evaluator through a section
* `Program.meaning_preserved`: compilation preserves meaning
-/

namespace ScriptCompiler

open Machine

variable {Store Value : Type}

/-! ## The start of a section -/

section Start

variable {R : Runtime Store Value} {fetch : Nat → Option (Command × Nat)} {target : Label → Nat}
  {chain : List (List String)} {m m' : Mark} {rest : List Part} {offset last : Nat}

/-- Instructions that leave the stack as it is are run one after the other. -/
theorem wpAll_effects {α : Type} {xs : List α} {line : α → Line} {command : α → Command}
    {action : α → StateM Store Unit} {next : Nat} {pending : List Nat} {more : List Part}
    {after : Data Store Value → Prop} {d : Data Store Value}
    (hc : ∀ x target, (line x).command? target = some (command x))
    (ha : ∀ x d, (command x).act R d = some (d.effect d.stack (action x)))
    (h : wpAll R chain next pending more after (d.effect d.stack (xs.forM action))) :
    wpAll R chain next pending ((xs.map line).map .line ++ more) after d := by
  induction xs generalizing d with
  | nil => exact h
  | cons x xs ih => exact Part.wp_line (hc x) (ha x d) (ih h)

theorem Located.mark_lines {lines : List Line}
    (h : Located fetch target chain m (lines.map .line) offset last m') : m' = m := by
  induction lines generalizing offset with
  | nil => exact h.nil.2
  | cons l lines ih => exact ih h.line.2

/-- The machine binds the name of a function and its parameters. -/
theorem Located.reaches_prologue {r : Routine}
    (h : Located fetch target chain m (r.prologue.map .line) offset last m')
    (d : Data Store Value) :
    Reaches R fetch ⟨offset, d⟩ ⟨last, d.effect d.stack (R.enter r)⟩ := by
  have hw : wpAll R chain m.sections m.pending (r.prologue.map .line)
      (· = d.effect d.stack (R.enter r)) d := by
    rw [Routine.prologue, List.map_append]
    refine wpAll_effects (fun _ _ => rfl) (fun _ _ => rfl) ?_
    rw [← List.append_nil (List.map Part.line _)]
    exact wpAll_effects (fun _ _ => rfl) (fun _ _ => rfl) rfl
  obtain ⟨_, hr, rfl⟩ := h.exists_reaches (by simp) hw
  exact hr

variable (R) in
/-- The machine binds functions one after the other to their names. -/
theorem Located.reaches_binds {rs : List Routine}
    (h : Located fetch target chain m (rs.map .bind ++ rest) offset last m') :
    ∃ between labels,
      Located fetch target chain
        { m with
          labels := labels
          sections := m.sections + sectionsOf rs
          pending := m.pending ++ starts m.sections rs } rest between last m' ∧
      ∀ d : Data Store Value, Reaches R fetch ⟨offset, d⟩
        ⟨between, d.effect d.stack (R.bindAll chain rs m.sections)⟩ := by
  induction rs generalizing m offset with
  | nil =>
    rw [starts, List.append_nil]
    exact ⟨offset, m.labels, h, fun d => .refl _⟩
  | cons r rs ih =>
    obtain ⟨o₁, m₁, labels, hi, h⟩ := h.bind
    obtain ⟨between, labels', h, hr⟩ := ih h
    refine ⟨between, labels', ?_, fun d => ?_⟩
    · rw [starts, List.append_cons, sectionsOf_cons, ← Nat.add_assoc]
      exact h
    · have hw : wpAll R chain m.sections (m.pending ++ [m.sections])
          (.literal r :: (r.name.toList.map .store ++ [.plain .pop]))
          (· = d.effect d.stack (R.bindAll chain [r] m.sections)) d := by
        cases hn : r.name with
        | none => exact Part.wp_line (fun _ => rfl) rfl (by rw [Runtime.bindAll, hn]; rfl)
        | some name =>
          exact ⟨_, _, rfl, Part.wp_line (fun _ => rfl) rfl (by rw [Runtime.bindAll, hn]; rfl)⟩
      obtain ⟨_, hd, rfl⟩ := hi.note.exists_reaches (by simp) hw
      exact hd.trans (hr _)

end Start

/-! ## Sections -/

section Sections

variable {R : Runtime Store Value} {fetch : Nat → Option (Command × Nat)} {target : Label → Nat}

theorem Segment.eval_apply (segment : Segment) (rounds id : Nat) (store : Store) :
    segment.eval R rounds id store =
      match segment.exec R rounds id store with
      | none => none
      | some (.returned value, store) => some (value, store)
      | some (_, store) => some (R.constant .undefined, store) := by
  simp only [eval, bind, StateT.bind, Option.bind]
  rcases segment.exec R rounds id store with _ | ⟨_ | _ | _ | value, store⟩ <;> rfl

/-- The end of every section returns undefined. -/
theorem Located.returns_end {chain : List (List String)} {m m' : Mark} {offset last : Nat}
    (h : Located fetch target chain m endPlan offset last m') (temporary : Option Value)
    (store : Store) :
    Returns R fetch ⟨offset, [], temporary, store⟩ (R.constant .undefined) store := by
  obtain ⟨hpush, h⟩ := h.line
  obtain ⟨hret, h⟩ := h.line
  exact .of_reaches (.of_step (step_act (hpush _ rfl) rfl)) (.of_step (step_ret (hret _ rfl)))

variable (R) in
/-- The machine enters a section and comes to the code of its body. -/
theorem Located.reaches_body {segment : Segment} {m m' : Mark} {offset last : Nat}
    (h : Located fetch target segment.chain m segment.plan offset last m') :
    ∃ between, Located fetch target segment.chain m (bodyPlan segment.body) between last m' ∧
      ∀ d : Data Store Value, Reaches R fetch ⟨offset, d⟩
        ⟨between, d.effect d.stack (segment.enter R)⟩ := by
  cases segment with
  | top body => exact ⟨offset, h, fun d => .refl _⟩
  | function outer r =>
    obtain ⟨between, m₁, hp, hb⟩ := h.append
    rw [hp.mark_lines] at hb
    exact ⟨between, hb, hp.reaches_prologue⟩

/-- The machine follows the evaluator through the body of a section to its end. -/
theorem Located.follows_body {segment : Segment} {labels id last : Nat} {m' : Mark}
    (h : Located fetch target segment.chain ⟨labels, id + 1, [], [], []⟩ segment.plan 0 last m')
    (rounds : Nat) (store : Store) :
    ∃ between m₁, Located fetch target segment.chain m₁ endPlan between last m' ∧
      Follows R fetch target rounds (.start store) between [] (segment.exec R rounds id store) := by
  obtain ⟨o₁, h, henter⟩ := h.reaches_body R
  rw [bodyPlan, List.append_assoc] at h
  obtain ⟨o₂, _, h, hbinds⟩ := h.reaches_binds R
  obtain ⟨o₃, m₁, hs, hend⟩ := h.append
  have hstart := (henter (Machine.State.start store).data).trans (hbinds _)
  exact ⟨o₃, m₁, hend,
    (hs.follows_statements (fun node _ => node.statementSim) rounds none _).of_reaches hstart⟩

/-- **The machine follows the evaluator through a section.** -/
theorem Located.follows_segment {segment : Segment} {labels id last : Nat} {m' : Mark}
    (h : Located fetch target segment.chain ⟨labels, id + 1, [], [], []⟩ segment.plan 0 last m')
    (rounds : Nat) (store : Store) :
    match segment.eval R rounds id store with
    | none => GoesOn R fetch rounds (.start store)
    | some (value, store') => Returns R fetch (.start store) value store' := by
  obtain ⟨between, m₁, hend, hf⟩ := h.follows_body rounds store
  rw [Segment.eval_apply]
  match segment.exec R rounds id store, hf with
  | none, hf => exact hf
  | some (.normal, _), ⟨temporary, hf⟩ => exact .of_reaches hf (hend.returns_end temporary _)
  | some (.broke, _), ⟨_, _, _, hl, _⟩ => cases hl
  | some (.continued, _), ⟨_, _, _, hl, _⟩ => cases hl
  | some (.returned _, _), hf => exact hf

/-- Where the machine ends, the evaluator has come to the same result. -/
theorem Located.eval_of_halted {segment : Segment} {labels id last : Nat} {m' : Mark}
    (h : Located fetch target segment.chain ⟨labels, id + 1, [], [], []⟩ segment.plan 0 last m')
    {store : Store} {steps : Nat} {p : Progress Store Value}
    (hr : run R fetch steps (.start store) = p) (hp : ∀ s', p ≠ .running s') :
    ∃ value store', segment.eval R steps id store = some (value, store') ∧
      p = .returned value store' := by
  have hf := h.follows_segment (R := R) steps store
  match heval : segment.eval R steps id store with
  | none =>
    rw [heval] at hf
    obtain ⟨s', hrunning⟩ := hf.exists_running (Nat.le_refl steps)
    exact absurd (hr.symm.trans hrunning) (hp s')
  | some (value, store') =>
    rw [heval] at hf
    exact ⟨value, store', rfl, hf.eq_of_halted hr hp⟩

end Sections

/-! ## Meaning -/

/-- **Compilation preserves meaning.** There is a section for every segment of the program. The
machine returns a value from it and leaves a store if and only if that is what the evaluator comes
to in some number of rounds, and it never gets stuck. So it runs forever if no number of rounds is
enough for the evaluator. -/
theorem Program.meaning_preserved {config : Config} {program : Program} {image : Image}
    (h : program.compile config = .ok image) (hstrings : image.strings.length ≤ 2 ^ 32)
    (hsections : image.sections.length ≤ 2 ^ 32) :
    image.sections.length = program.segments.length ∧
      ∀ (id : Nat) segment code, program.segments[id]? = some segment →
        image.sections[id]? = some code → code.length < 4 * 2 ^ 32 →
        (∀ names ∈ segment.chain, names.length ≤ 2 ^ 32) →
        ∀ {Store Value : Type} (R : Runtime Store Value) (store : Store),
          (∀ value store', (∃ rounds, segment.eval R rounds id store = some (value, store')) ↔
            ∃ steps, run R (image.fetch id) steps (.start store) = .returned value store') ∧
          ∀ steps, run R (image.fetch id) steps (.start store) ≠ .stuck := by
  obtain ⟨hlength, hassembled⟩ := assembled h
  refine ⟨hlength, fun id segment code hs hc hw hlocals Store Value R store => ?_⟩
  obtain ⟨lines, ha⟩ := hassembled id segment hs
  obtain ⟨_, _, _, he, -⟩ := ha.emits
  have hchain := Nat.le_trans (length_chain_le_sections h hs) hsections
  have hcode := ha.codeAt ⟨hchain, hlocals, hsections⟩ hstrings (ha.wordCount_lt hc hw)
  have hlocated : Located (image.fetch id) _ segment.chain _ segment.plan 0 _ _ :=
    ⟨lines, _, he, hcode, rfl⟩
  refine ⟨fun value store' => ⟨?_, ?_⟩, fun steps hstuck => ?_⟩
  · rintro ⟨rounds, hr⟩
    have hf := hlocated.follows_segment (R := R) rounds store
    rw [hr] at hf
    exact hf
  · rintro ⟨steps, hreturned⟩
    obtain ⟨_, _, heval, ⟨⟩⟩ := hlocated.eval_of_halted hreturned nofun
    exact ⟨steps, heval⟩
  · obtain ⟨_, _, -, ⟨⟩⟩ := hlocated.eval_of_halted hstuck nofun

/-- A runtime with one number as its store, which is the value of every name. -/
def countingRuntime : Runtime Nat Nat where
  constant _ := 0
  truthy value := value ≠ 0
  loadVariable _ _ := get
  storeVariable _ _ value := set value
  loadGlobal _ := get
  storeGlobal _ value := set value
  member object _ := return object
  setMember _ _ _ := return
  index object _ := return object
  setIndex _ _ _ := return
  binary _ left right := return left + right
  unary _ argument := return argument
  update
    | .increment, argument => return argument + 1
    | .decrement, argument => return argument - 1
  array elements := return elements.length
  close id := return id
  call callee _ := return callee
  methodCall object _ _ := return object
  setCallee _ := return
  setArgument _ _ := return

/-- The body of a function that counts its argument down in a loop without a test. -/
def countdown : List Node :=
  [.forLoop none none none
      (.ifElse (.ident "n") (.update .decrement false (.ident "n")) (some .breakLoop)),
    .ret (some (.ident "n"))]

/-- The code of counting down returns zero. -/
theorem Program.meaning_preserved_countdown :
    ∃ image code, (Program.compile {} ⟨[.function (some "f") ["n"] countdown]⟩ = .ok image ∧
      image.strings.length ≤ 2 ^ 32 ∧ image.sections.length ≤ 2 ^ 32 ∧
      image.sections[1]? = some code ∧ code.length < 4 * 2 ^ 32) ∧
      ∃ steps, run countingRuntime (image.fetch 1) steps (.start 3) = .returned 0 0 := by
  have h : Program.compile {} ⟨[.function (some "f") ["n"] countdown]⟩ = .ok
      { sections := [
          [19, 0, 0, 0, 1, 0, 0, 0, 18, 0, 0, 0, 0, 0, 0, 0, 27, 0, 0, 0, 19, 0, 0, 0,
            1, 0, 0, 0, 27, 0, 0, 0, 0, 0, 0, 0, 1, 0, 0, 0],
          [21, 0, 0, 0, 0, 0, 0, 0, 22, 0, 0, 0, 1, 0, 0, 0, 0, 0, 0, 0, 8, 0, 0, 0, 1, 0, 0, 0,
            0, 0, 0, 0, 14, 0, 0, 0, 22, 0, 0, 0, 8, 0, 0, 0, 1, 0, 0, 0, 0, 0, 0, 0,
            42, 0, 0, 0, 52, 0, 0, 0, 7, 0, 0, 0, 1, 0, 0, 0, 0, 0, 0, 0, 27, 0, 0, 0,
            27, 0, 0, 0, 12, 0, 0, 0, 24, 0, 0, 0, 12, 0, 0, 0, 26, 0, 0, 0, 12, 0, 0, 0,
            5, 0, 0, 0, 8, 0, 0, 0, 1, 0, 0, 0, 0, 0, 0, 0, 1, 0, 0, 0, 0, 0, 0, 0, 1, 0, 0, 0]]
        strings := ["f"] } := by
    decide +kernel
  have hs : (Program.segments ⟨[.function (some "f") ["n"] countdown]⟩)[1]? =
      some (.function [] ⟨some "f", ["n"], countdown⟩) := by
    have hf : functionsIn [.function (some "f") ["n"] countdown] = [⟨some "f", ["n"], countdown⟩] :=
      rfl
    rw [Program.segments, hf, List.flatMap_singleton, Routine.segments_eq]
    rfl
  obtain ⟨-, hm⟩ := Program.meaning_preserved h (by decide) (by decide)
  obtain ⟨hreturns, -⟩ := hm 1 _ _ hs rfl (by simp) (by decide) countingRuntime 3
  exact ⟨_, _, ⟨h, by decide, by decide, rfl, by simp⟩, (hreturns 0 0).mp ⟨4, rfl⟩⟩

end ScriptCompiler
