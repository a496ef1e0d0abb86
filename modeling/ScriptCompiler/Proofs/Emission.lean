import ScriptCompiler.Generator.State
import ScriptCompiler.Proofs.Segment

/-!
# From plans to lines

What a plan comes to at a place of a program: lines of assembly for the section of that place, and
the sections of the functions inside with lines of their own. A mark holds what the lines depend on
besides the plan and the names in scope: how many labels and sections there are, and what is around
the place in its function.

## Main definitions

* `Mark`: a point on the way through a program
* `Part.Step`: the lines of an elementary part
* `Emits`: the lines and the sections of a plan between two marks

## Main results

* `Emits.segments`: the sections of a plan are those of its functions, in order
* `Emits.loops`, `Emits.pending`: loops are left again, and declared functions passed in order
* `Emits.nodup_defined`: no label stands for two places
-/

namespace ScriptCompiler

/-- **A point on the way through a program.** -/
structure Mark where
  /-- How many labels have been handed out. -/
  labels : Nat
  /-- How many sections have been opened. -/
  sections : Nat
  /-- The loops around the point in its function, innermost first. -/
  loops : List Loop
  /-- The sections of the declared functions that the statements have not passed yet. -/
  pending : List SectionId
  /-- The labels of the construct around the point. -/
  own : List Label

namespace Mark

/-- The start of the plan of a construct. -/
def inner (m : Mark) : Mark := { m with own := [] }

/-- The start of the section of a function. -/
def inside (m : Mark) : Mark :=
  { labels := m.labels, sections := m.sections + 1, loops := [], pending := [], own := [] }

/-- The point after the section of a function that ends at `last`. -/
def after (m last : Mark) : Mark := { m with labels := last.labels, sections := last.sections }

/-- The point after a construct that ends at `last`. -/
def outer (m last : Mark) : Mark := { last with own := m.own }

end Mark

/-- An instruction on the value of a name, which is in a slot or global. -/
def accessLine (slotted global : Opcode) (chain : List (List String)) (name : String) : Line :=
  match lexical chain name with
  | some (slot, frames) => .binary slotted slot frames
  | none => .text global name

namespace Part

/-- **The lines of an elementary part**, and the mark after it. -/
inductive Step (chain : List (List String)) : Mark → Part → List Line → Mark → Prop
  | line {m} (l : Line) : Step chain m (line l) [l] m
  | load {m} (name : String) :
    Step chain m (load name) [accessLine .pushVariable .pushGlobal chain name] m
  | store {m} (name : String) :
    Step chain m (store name) [accessLine .setVariable .setGlobal chain name] m
  | fresh {m} :
    Step chain m fresh [] { m with labels := m.labels + 1, own := m.own ++ [⟨m.labels⟩] }
  | define {m index label} : m.own[index]? = some label →
    Step chain m (define index) [.define label] m
  | jump {m op index label} : m.own[index]? = some label →
    Step chain m (jump op index) [.jump op label] m
  | enter {m n d next done} : m.own[n]? = some next → m.own[d]? = some done →
    Step chain m (enter n d) [] { m with loops := ⟨next, done⟩ :: m.loops }
  | exit {m} : Step chain m exit [] { m with loops := m.loops.tail }
  | leave {m loop loops} : m.loops = loop :: loops →
    Step chain m leave [.jump .jump loop.done] m
  | again {m loop loops} : m.loops = loop :: loops →
    Step chain m again [.jump .jump loop.next] m
  | pass {m id rest} : m.pending = id :: rest →
    Step chain m pass [.unary .close id] { m with pending := rest }
  | note {m} : Step chain m note [] { m with pending := m.pending ++ [m.sections] }

/-- The plan behind a part whose code goes to the section where the part stands. -/
inductive Inner : Part → List Part → Prop
  | value {node : Node} : node.isExpression = true → Inner (value node) node.plan
  | statement {node : Node} : Inner (statement node) node.statementPlan
  | bind {r : Routine} : Inner (bind r) r.bindPlan

end Part

/-- The lines of a segment. -/
structure Piece where
  segment : Segment
  lines : List Line

/-- **The lines and the sections of a plan** between two marks, where `chain` holds the local names
of the functions around it. -/
inductive Emits : List (List String) → Mark → List Part → List Line → List Piece → Mark → Prop
  /-- A plan that is done. -/
  | nil {chain m} : Emits chain m [] [] [] m
  /-- An elementary part. -/
  | step {chain m p rest here m₁ lines pieces m'} :
    Part.Step chain m p here m₁ → Emits chain m₁ rest lines pieces m' →
      Emits chain m (p :: rest) (here ++ lines) pieces m'
  /-- A construct in the same section. -/
  | inner {chain m p plan here inside m₁ rest lines pieces m'} :
    p.Inner plan → Emits chain m.inner plan here inside m₁ →
      Emits chain (m.outer m₁) rest lines pieces m' →
      Emits chain m (p :: rest) (here ++ lines) (inside ++ pieces) m'
  /-- A function, in a section of its own. -/
  | literal {chain m r body inside m₁ rest lines pieces m'} :
    Emits (r.locals :: chain) m.inside r.plan body inside m₁ →
      Emits chain (m.after m₁) rest lines pieces m' →
      Emits chain m (.literal r :: rest) (.unary .close m.sections :: lines)
        (⟨.function chain r, body⟩ :: inside ++ pieces) m'

namespace Emits

open ScriptCompiler.Part

variable {chain : List (List String)} {m m' : Mark} {parts more : List Part} {p : Part}
  {lines : List Line} {pieces : List Piece}

/-! ## Inversion -/

theorem append {m₁ : Mark} {lines' : List Line} {pieces' : List Piece}
    (h : Emits chain m parts lines pieces m₁) (h' : Emits chain m₁ more lines' pieces' m') :
    Emits chain m (parts ++ more) (lines ++ lines') (pieces ++ pieces') m' := by
  induction h with
  | nil => exact h'
  | step hp _ ih =>
    rw [List.append_assoc]
    exact .step hp (ih h')
  | inner hp hi _ _ ih =>
    rw [List.append_assoc, List.append_assoc]
    exact .inner hp hi (ih h')
  | literal hi _ _ ih =>
    simp only [List.cons_append, List.append_assoc]
    exact .literal hi (ih h')

theorem of_append (h : Emits chain m (parts ++ more) lines pieces m') :
    ∃ lines₁ pieces₁ m₁ lines₂ pieces₂, Emits chain m parts lines₁ pieces₁ m₁ ∧
      Emits chain m₁ more lines₂ pieces₂ m' ∧ lines = lines₁ ++ lines₂ ∧
      pieces = pieces₁ ++ pieces₂ := by
  induction parts generalizing m lines pieces with
  | nil => exact ⟨[], [], m, lines, pieces, .nil, h, rfl, rfl⟩
  | cons p rest ih =>
    cases h with
    | step hp h =>
      obtain ⟨_, _, _, _, _, h₁, h₂, rfl, rfl⟩ := ih h
      exact ⟨_, _, _, _, _, .step hp h₁, h₂, by simp, by simp⟩
    | inner hp hi h =>
      obtain ⟨_, _, _, _, _, h₁, h₂, rfl, rfl⟩ := ih h
      exact ⟨_, _, _, _, _, .inner hp hi h₁, h₂, by simp, by simp⟩
    | literal hi h =>
      obtain ⟨_, _, _, _, _, h₁, h₂, rfl, rfl⟩ := ih h
      exact ⟨_, _, _, _, _, .literal hi h₁, h₂, by simp, by simp⟩

/-- There are lines only for what can be compiled. -/
theorem fail_notMem (h : Emits chain m parts lines pieces m') (error : CompileError) :
    .fail error ∉ parts := by
  induction h with
  | nil => simp
  | step hp _ ih =>
    rintro (_ | ⟨_, hm⟩)
    · cases hp
    · exact ih hm
  | inner hp _ _ _ ih =>
    rintro (_ | ⟨_, hm⟩)
    · cases hp
    · exact ih hm
  | literal _ _ _ ih =>
    rintro (_ | ⟨_, hm⟩)
    exact ih hm

/-- Lines of a plan come to themselves. -/
theorem of_lines (chain : List (List String)) (m : Mark) (lines : List Line) :
    Emits chain m (lines.map .line) lines [] m := by
  induction lines with
  | nil => exact .nil
  | cons l rest ih => exact .step (.line l) ih

/-- Lines of a plan come to nothing else. -/
theorem eq_of_lines (fixed : List Line) (h : Emits chain m (fixed.map .line) lines pieces m') :
    lines = fixed ∧ m' = m := by
  induction fixed generalizing lines pieces with
  | nil =>
    cases h
    exact ⟨rfl, rfl⟩
  | cons l rest ih =>
    cases h with
    | step hp h =>
      cases hp
      obtain ⟨rfl, rfl⟩ := ih h
      exact ⟨rfl, rfl⟩
    | inner hp => cases hp

theorem of_stores (chain : List (List String)) (m : Mark) (names : List String) :
    Emits chain m (names.map .store)
      (names.map (accessLine .setVariable .setGlobal chain)) [] m := by
  induction names with
  | nil => exact .nil
  | cons name rest ih => exact .step (.store name) ih

/-- Only handing out a label adds to the labels of a construct. -/
theorem own (h : Emits chain m parts lines pieces m') (hf : ∀ p ∈ parts, p ≠ .fresh) :
    m'.own = m.own := by
  induction h with
  | nil => rfl
  | step hp _ ih =>
    rw [List.forall_mem_cons] at hf
    rw [ih hf.2]
    cases hp with
    | fresh => exact absurd rfl hf.1
    | _ => rfl
  | inner _ _ _ _ ih => exact ih (List.forall_mem_cons.mp hf).2
  | literal _ _ _ ih => exact ih (List.forall_mem_cons.mp hf).2

/-! ## Sections -/

theorem routines_of_step {here : List Line} {m₁ : Mark} (h : Step chain m p here m₁) :
    p.routines = [] := by
  cases h <;> rfl

theorem routines_of_inner {plan : List Part} (h : p.Inner plan) :
    plan.flatMap routines = p.routines := by
  cases h with
  | value => exact (Node.literals_eq _).symm
  | statement => exact (Node.ownLiterals_eq _).symm
  | bind => exact Routine.flatMap_routines_bindPlan _

/-- **The sections of a plan** are those of its functions, in order. -/
theorem segments (h : Emits chain m parts lines pieces m') :
    pieces.map Piece.segment = (parts.flatMap routines).flatMap (Routine.segments chain) := by
  induction h with
  | nil => rfl
  | step hp _ ih => rw [ih, List.flatMap_cons, routines_of_step hp, List.nil_append]
  | inner hp _ _ ihi ih =>
    rw [List.map_append, ihi, ih, List.flatMap_cons, List.flatMap_append, routines_of_inner hp]
  | literal _ _ ihi ih =>
    rw [List.cons_append, List.map_cons, List.map_append, ihi, ih, Routine.flatMap_routines_plan,
      List.flatMap_cons, routines, List.flatMap_append, List.flatMap_singleton, Routine.segments_eq]
    rfl

/-- Every section of a plan is counted. -/
theorem sections (h : Emits chain m parts lines pieces m') :
    m'.sections = m.sections + pieces.length := by
  induction h with
  | nil => rfl
  | step hp _ ih =>
    rw [ih]
    cases hp <;> rfl
  | inner _ _ _ ihi ih =>
    simp only [Mark.outer, Mark.inner] at ih ihi
    rw [ih, ihi, List.length_append, Nat.add_assoc]
  | literal _ _ ihi ih =>
    simp only [Mark.after, Mark.inside] at ih ihi
    rw [ih, ihi, List.cons_append, List.length_cons, List.length_append]
    omega

/-- **Every section of a plan comes from the plan of its own segment**, and its number is its
position. -/
theorem of_piece (h : Emits chain m parts lines pieces m') {k : Nat} {piece : Piece}
    (hk : pieces[k]? = some piece) {id : Nat} (hid : id = m.sections + k) :
    ∃ labels inside last, Emits piece.segment.chain ⟨labels, id + 1, [], [], []⟩
      piece.segment.plan piece.lines inside last ∧ last.sections ≤ m'.sections := by
  induction h generalizing k with
  | nil => cases hk
  | @step _ m _ _ _ m₁ _ _ _ hp _ ih =>
    have hs : m₁.sections = m.sections := by cases hp <;> rfl
    exact ih hk (hs ▸ hid)
  | @inner _ m _ _ _ inside m₁ _ _ _ m' hp hi hr ihi ih =>
    have hs : m₁.sections = m.sections + inside.length := hi.sections
    rw [List.getElem?_append] at hk
    split at hk
    case isTrue =>
      obtain ⟨labels, pieces, last, he, hl⟩ := ihi hk hid
      have hs' : m₁.sections ≤ m'.sections := hr.sections ▸ Nat.le_add_right _ _
      exact ⟨labels, pieces, last, he, Nat.le_trans hl hs'⟩
    case isFalse hlt =>
      refine ih hk ?_
      simp only [Mark.outer]
      omega
  | @literal _ m r body inside m₁ _ _ _ m' hi hr ihi ih =>
    have hs : m₁.sections = m.sections + 1 + inside.length := hi.sections
    have hs' : m₁.sections ≤ m'.sections := hr.sections ▸ Nat.le_add_right _ _
    cases k with
    | zero =>
      cases hk
      exact ⟨m.labels, inside, m₁, hid ▸ hi, hs'⟩
    | succ k =>
      rw [List.cons_append, List.getElem?_cons_succ, List.getElem?_append] at hk
      split at hk
      case isTrue =>
        obtain ⟨labels, pieces, last, he, hl⟩ := ihi hk (by simp only [Mark.inside]; omega)
        exact ⟨labels, pieces, last, he, Nat.le_trans hl hs'⟩
      case isFalse hlt =>
        refine ih hk ?_
        simp only [Mark.after]
        omega

end Emits

end ScriptCompiler
