import ScriptCompiler.Proofs.Decoding
import ScriptCompiler.Proofs.Evaluation

/-!
# Where the code of a plan is

The code of parts stands in the memory of a machine between two offsets, and on the way from one to
the other a mark changes. Every part can be taken off the front: it says what the machine fetches
there, and where the code of the other parts is.

## Main definitions

* `Located`: the code of parts is between two offsets

## Main results

* `Located.value`, `Located.statement`: the code of a node inside, and of what comes after it
* `Located.define`, `Located.jump`: labels stand for offsets
-/

namespace ScriptCompiler

/-- **The code of parts is between two offsets**, and the mark changes from `m` to `m'` on the
way. -/
def Located (fetch : Nat → Option (Command × Nat)) (target : Label → Nat)
    (chain : List (List String)) (m : Mark) (parts : List Part) (offset last : Nat) (m' : Mark) :
    Prop :=
  ∃ lines pieces, Emits chain m parts lines pieces m' ∧ CodeAt fetch target offset lines ∧
    last = offset + Assembly.wordCount lines

namespace Located

variable {fetch : Nat → Option (Command × Nat)} {target : Label → Nat}
  {chain : List (List String)} {m m' : Mark} {parts rest : List Part} {offset last : Nat}

theorem nil (h : Located fetch target chain m [] offset last m') : last = offset ∧ m' = m := by
  obtain ⟨lines, pieces, he, -, hl⟩ := h
  cases he
  exact ⟨hl, rfl⟩

theorem append {more : List Part}
    (h : Located fetch target chain m (parts ++ more) offset last m') :
    ∃ between m₁, Located fetch target chain m parts offset between m₁ ∧
      Located fetch target chain m₁ more between last m' := by
  obtain ⟨lines, pieces, he, hc, hl⟩ := h
  obtain ⟨_, _, m₁, _, _, he₁, he₂, rfl, rfl⟩ := he.of_append
  rw [codeAt_append] at hc
  rw [Assembly.wordCount_append, ← Nat.add_assoc] at hl
  exact ⟨_, m₁, ⟨_, _, he₁, hc.1, rfl⟩, ⟨_, _, he₂, hc.2, hl⟩⟩

/-- There is code only for what can be compiled. -/
theorem fail_notMem (h : Located fetch target chain m parts offset last m') (error : CompileError) :
    .fail error ∉ parts := by
  obtain ⟨lines, pieces, he, -, -⟩ := h
  exact he.fail_notMem error

/-- The code of an elementary part, and of what comes after it. -/
theorem step {p : Part} (h : Located fetch target chain m (p :: rest) offset last m')
    (hi : ∀ plan, ¬ p.Inner plan) (hl : ∀ r, p ≠ .literal r) :
    ∃ here m₁, Part.Step chain m p here m₁ ∧ CodeAt fetch target offset here ∧
      Located fetch target chain m₁ rest (offset + Assembly.wordCount here) last m' := by
  obtain ⟨lines, pieces, he, hc, hlast⟩ := h
  cases he with
  | step hp hr =>
    rw [codeAt_append] at hc
    rw [Assembly.wordCount_append, ← Nat.add_assoc] at hlast
    exact ⟨_, _, hp, hc.1, _, _, hr, hc.2, hlast⟩
  | inner hp => exact absurd hp (hi _)
  | literal => exact absurd rfl (hl _)

/-- The code of a construct in the same section, and of what comes after it. -/
theorem inner {p : Part} (h : Located fetch target chain m (p :: rest) offset last m')
    (hs : ∀ here m₁, ¬ Part.Step chain m p here m₁) (hl : ∀ r, p ≠ .literal r) :
    ∃ plan between m₁, p.Inner plan ∧
      Located fetch target chain m.inner plan offset between m₁ ∧
      Located fetch target chain (m.outer m₁) rest between last m' := by
  obtain ⟨lines, pieces, he, hc, hlast⟩ := h
  cases he with
  | step hp => exact absurd hp (hs _ _)
  | inner hp hi hr =>
    rw [codeAt_append] at hc
    rw [Assembly.wordCount_append, ← Nat.add_assoc] at hlast
    exact ⟨_, _, _, hp, ⟨_, _, hi, hc.1, rfl⟩, _, _, hr, hc.2, hlast⟩
  | literal => exact absurd rfl (hl _)

/-! ## Instructions -/

theorem line {l : Line} (h : Located fetch target chain m (.line l :: rest) offset last m') :
    (∀ c, l.command? target = some c → fetch offset = some (c, offset + l.words)) ∧
      Located fetch target chain m rest (offset + l.words) last m' := by
  obtain ⟨here, m₁, hs, hc, hr⟩ := h.step nofun nofun
  cases hs
  exact ⟨hc.2.1, hr⟩

/-- The machine loads the value of a name. -/
theorem load {name : String}
    (h : Located fetch target chain m (.load name :: rest) offset last m') :
    ∃ c next, fetch offset = some (c, next) ∧
      (∀ {Store Value : Type} (R : Runtime Store Value) (d : Data Store Value),
        c.act R d = some (d.result d.stack (R.load chain name))) ∧
      Located fetch target chain m rest next last m' := by
  obtain ⟨here, m₁, hs, hc, hr⟩ := h.step nofun nofun
  cases hs
  cases hl : lexical chain name with
  | none =>
    rw [accessLine, hl] at hc hr
    exact ⟨.loadGlobal name, _, hc.2.1 _ rfl, fun R d => by rw [Runtime.load, hl]; rfl,
      hr⟩
  | some address =>
    rw [accessLine, hl] at hc hr
    exact ⟨.loadVariable address.1 address.2, _, hc.2.1 _ rfl,
      fun R d => by rw [Runtime.load, hl]; rfl, hr⟩

/-- The machine stores the top value under a name and keeps it. -/
theorem store {name : String}
    (h : Located fetch target chain m (.store name :: rest) offset last m') :
    ∃ c next, fetch offset = some (c, next) ∧
      (∀ {Store Value : Type} (R : Runtime Store Value) (value : Value) (stack : List Value)
        (temporary : Option Value) (store : Store),
        c.act R ⟨value :: stack, temporary, store⟩ =
          some ⟨value :: stack, temporary, (R.store chain name value store).2⟩) ∧
      Located fetch target chain m rest next last m' := by
  obtain ⟨here, m₁, hs, hc, hr⟩ := h.step nofun nofun
  cases hs
  cases hl : lexical chain name with
  | none =>
    rw [accessLine, hl] at hc hr
    exact ⟨.storeGlobal name, _, hc.2.1 _ rfl,
      fun R value stack temporary store => by rw [Runtime.store, hl]; rfl, hr⟩
  | some address =>
    rw [accessLine, hl] at hc hr
    exact ⟨.storeVariable address.1 address.2, _, hc.2.1 _ rfl,
      fun R value stack temporary store => by rw [Runtime.store, hl]; rfl, hr⟩

theorem pass (h : Located fetch target chain m (.pass :: rest) offset last m') :
    ∃ id others, m.pending = id :: others ∧ fetch offset = some (.close id, offset + 2) ∧
      Located fetch target chain { m with pending := others } rest (offset + 2) last m' := by
  obtain ⟨here, m₁, hs, hc, hr⟩ := h.step nofun nofun
  cases hs with
  | pass hp => exact ⟨_, _, hp, hc.2.1 _ rfl, hr⟩

theorem note (h : Located fetch target chain m (.note :: rest) offset last m') :
    Located fetch target chain { m with pending := m.pending ++ [m.sections] } rest offset last
      m' := by
  obtain ⟨here, m₁, hs, hc, hr⟩ := h.step nofun nofun
  cases hs
  exact hr

theorem literal {r : Routine}
    (h : Located fetch target chain m (.literal r :: rest) offset last m') :
    fetch offset = some (.close m.sections, offset + 2) ∧
      ∃ labels, Located fetch target chain
        { m with labels := labels, sections := m.sections + r.sections } rest (offset + 2) last
        m' := by
  obtain ⟨lines, pieces, he, hc, hl⟩ := h
  cases he with
  | step hp => cases hp
  | inner hp => cases hp
  | @literal _ _ _ _ _ m₁ _ _ _ _ hi hr =>
    refine ⟨hc.2.1 _ rfl, m₁.labels, ?_⟩
    have hs : m₁.sections = m.sections + r.sections := by
      rw [hi.sections_eq, Routine.flatMap_routines_plan, Routine.sections_eq]
      simp only [Mark.inside, sectionsOf]
      omega
    have hm : m.after m₁ = { m with labels := m₁.labels, sections := m.sections + r.sections } := by
      rw [Mark.after, hs]
    rw [hm] at hr
    refine ⟨_, _, hr, hc.2.2, ?_⟩
    rw [hl, Assembly.wordCount_cons, ← Nat.add_assoc]
    rfl

/-! ## Constructs inside -/

/-- The mark after a construct in the same section. -/
theorem outer_eq {p : Part} {plan : List Part} {m₁ : Mark} (hp : p.Inner plan)
    (hn : p.notes = false) (h : Located fetch target chain m.inner plan offset last m₁) :
    m.outer m₁ = { m with
      labels := m₁.labels
      sections := m.sections + sectionsOf p.routines
      pending := m.pending.drop p.passes } := by
  obtain ⟨lines, pieces, he, -, -⟩ := h
  have hplan : ∀ q ∈ plan, q.notes = false := by
    cases hp with
    | value => exact Node.notes_plan _
    | statement => exact Node.notes_statementPlan _
    | bind => cases hn
  have hs := he.sections_eq
  have hpending := he.pending hplan
  have hloops := he.loops (disciplined_of_inner hp)
  rw [Emits.routines_of_inner hp] at hs
  rw [Emits.passesOf_of_inner hp] at hpending
  simp only [Mark.inner] at hs hpending hloops
  rw [Mark.outer, hs, hpending, hloops]

/-- The code of a value, and of what comes after it. -/
theorem value {node : Node}
    (h : Located fetch target chain m (.value node :: rest) offset last m') :
    node.isExpression = true ∧ ∃ between m₁ labels,
      Located fetch target chain m.inner node.plan offset between m₁ ∧
      Located fetch target chain
        { m with labels := labels, sections := m.sections + node.sections } rest between last
        m' := by
  obtain ⟨plan, between, m₁, hp, hi, hr⟩ := h.inner nofun nofun
  have hm := outer_eq hp rfl hi
  cases hp with
  | value he => exact ⟨he, between, m₁, m₁.labels, hi, hm ▸ hr⟩

/-- The code of a statement, and of what comes after it. -/
theorem statement {node : Node}
    (h : Located fetch target chain m (.statement node :: rest) offset last m') :
    ∃ between m₁ labels,
      Located fetch target chain m.inner node.statementPlan offset between m₁ ∧
      Located fetch target chain
        { m with
          labels := labels
          sections := m.sections + node.statementSections
          pending := m.pending.drop node.declared.length } rest between last m' := by
  obtain ⟨plan, between, m₁, hp, hi, hr⟩ := h.inner nofun nofun
  have hm := outer_eq hp rfl hi
  cases hp
  exact ⟨between, m₁, m₁.labels, hi, hm ▸ hr⟩

/-- The code of binding a function, and of what comes after it. -/
theorem bind {r : Routine}
    (h : Located fetch target chain m (.bind r :: rest) offset last m') :
    ∃ between m₁ labels, Located fetch target chain m.inner r.bindPlan offset between m₁ ∧
      Located fetch target chain
        { m with
          labels := labels
          sections := m.sections + r.sections
          pending := m.pending ++ [m.sections] } rest between last m' := by
  obtain ⟨plan, between, m₁, hp, hi, hr⟩ := h.inner nofun nofun
  cases hp
  have hm : m.outer m₁ = { m with
      labels := m₁.labels
      sections := m.sections + r.sections
      pending := m.pending ++ [m.sections] } := by
    obtain ⟨lines, pieces, he, -, -⟩ := hi
    have hs := he.sections_eq
    have hpending := he.pending_bindPlan
    have hloops := he.loops (disciplined_of_inner .bind)
    rw [Routine.flatMap_routines_bindPlan] at hs
    simp only [Mark.inner, sectionsOf_cons, sectionsOf_nil, Nat.add_zero] at hs hpending hloops
    rw [Mark.outer, hs, hpending, hloops]
  exact ⟨between, m₁, m₁.labels, hi, hm ▸ hr⟩

/-! ## Labels and loops -/

theorem fresh (h : Located fetch target chain m (.fresh :: rest) offset last m') :
    Located fetch target chain
      { m with labels := m.labels + 1, own := m.own ++ [⟨m.labels⟩] } rest offset last m' := by
  obtain ⟨here, m₁, hs, hc, hr⟩ := h.step nofun nofun
  cases hs
  exact hr

/-- A label stands for the offset where it is defined. -/
theorem define {index : Nat}
    (h : Located fetch target chain m (.define index :: rest) offset last m') :
    (∀ label, m.own[index]? = some label → target label = offset) ∧
      Located fetch target chain m rest offset last m' := by
  obtain ⟨here, m₁, hs, hc, hr⟩ := h.step nofun nofun
  cases hs with
  | define ho =>
    refine ⟨fun label hl => ?_, hr⟩
    cases ho.symm.trans hl
    exact hc.1 _ rfl

/-- A jump goes to the offset that its label stands for. -/
theorem jump {op : Opcode} {index : Nat}
    (h : Located fetch target chain m (.jump op index :: rest) offset last m') :
    ∃ label, m.own[index]? = some label ∧
      (∀ c, op.command? (fun _ => none) [target label] = some c →
        fetch offset = some (c, offset + 2)) ∧
      Located fetch target chain m rest (offset + 2) last m' := by
  obtain ⟨here, m₁, hs, hc, hr⟩ := h.step nofun nofun
  cases hs with
  | jump ho => exact ⟨_, ho, hc.2.1, hr⟩

theorem enter {n d : Nat}
    (h : Located fetch target chain m (.enter n d :: rest) offset last m') :
    ∃ next done, m.own[n]? = some next ∧ m.own[d]? = some done ∧
      Located fetch target chain { m with loops := ⟨next, done⟩ :: m.loops } rest offset last
        m' := by
  obtain ⟨here, m₁, hs, hc, hr⟩ := h.step nofun nofun
  cases hs with
  | enter hn hd => exact ⟨_, _, hn, hd, hr⟩

theorem exit (h : Located fetch target chain m (.exit :: rest) offset last m') :
    Located fetch target chain { m with loops := m.loops.tail } rest offset last m' := by
  obtain ⟨here, m₁, hs, hc, hr⟩ := h.step nofun nofun
  cases hs
  exact hr

theorem leave (h : Located fetch target chain m (.leave :: rest) offset last m') :
    ∃ loop loops, m.loops = loop :: loops ∧
      fetch offset = some (.jump (target loop.done), offset + 2) := by
  obtain ⟨here, m₁, hs, hc, hr⟩ := h.step nofun nofun
  cases hs with
  | leave hl => exact ⟨_, _, hl, hc.2.1 _ rfl⟩

theorem again (h : Located fetch target chain m (.again :: rest) offset last m') :
    ∃ loop loops, m.loops = loop :: loops ∧
      fetch offset = some (.jump (target loop.next), offset + 2) := by
  obtain ⟨here, m₁, hs, hc, hr⟩ := h.step nofun nofun
  cases hs with
  | again hl => exact ⟨_, _, hl, hc.2.1 _ rfl⟩

end Located

end ScriptCompiler
