import ScriptCompiler.Proofs.Plan

/-!
# What the sections of a program are compiled from

The first section holds the top level of a program, and every function has a section of its own.
After the section of a body come those of the functions declared in it and then those of its
literals, each followed at once by the sections of the functions inside it.

## Main definitions

* `Segment`: what a section is compiled from
* `Routine.segments`, `Program.segments`: the segments of a function and of a program, in the order
  of their sections
* `Routine.sections`, `Node.sections`: how many sections the code of a function and of a node opens

## Main results

* `Routine.segments_eq`: the segment of a function is followed by those of the functions inside it
* `Routine.length_segments`: a function has as many segments as its code opens sections
* `Program.length_chain_le`: every function around a segment has a section before it
-/

namespace ScriptCompiler

/-- **What a section is compiled from**: the top level of a program, or a function together with
the local names of the functions around it, innermost first. -/
inductive Segment where
  | top (body : List Node)
  | function (outer : List (List String)) (routine : Routine)

namespace Segment

/-- The local names of the functions around the code of a segment, innermost first. -/
def chain : Segment → List (List String)
  | top _ => []
  | function outer r => r.locals :: outer

/-- The statements of a segment. -/
def body : Segment → List Node
  | top body => body
  | function _ r => r.body

/-- The plan of the code of a segment. -/
def plan : Segment → List Part
  | top body => bodyPlan body
  | function _ r => r.plan

end Segment

theorem size_of_mem_routines (parts : List Part) :
    ∀ p ∈ parts, ∀ r ∈ p.routines, sizeOf r.body ≤ p.size := by
  induction parts using Part.induction with
  | nil => simp
  | cons p rest behind ih =>
    refine List.forall_mem_cons.mpr ⟨fun r hr => ?_, ih⟩
    cases p with
    | value node =>
      rw [Part.routines, node.literals_eq] at hr
      obtain ⟨q, hq, hr⟩ := List.mem_flatMap.mp hr
      exact Nat.le_trans (behind _ node.size_plan q hq r hr) (Nat.le_of_lt (node.size_plan q hq))
    | statement node =>
      rw [Part.routines, node.ownLiterals_eq] at hr
      obtain ⟨q, hq, hr⟩ := List.mem_flatMap.mp hr
      exact Nat.le_trans (behind _ node.size_statementPlan q hq r hr)
        (Nat.le_of_lt (node.size_statementPlan q hq))
    | literal q | bind q =>
      cases List.mem_singleton.mp hr
      exact Nat.le_refl _
    | _ => cases hr

theorem size_of_mem_functionsIn {body : List Node} {r : Routine} (h : r ∈ functionsIn body) :
    sizeOf r.body < sizeOf body := by
  rcases List.mem_append.mp h with h | h
  · exact size_of_mem_declaredIn h
  · obtain ⟨node, hn, hr⟩ := List.mem_flatMap.mp h
    exact Nat.lt_of_le_of_lt
      (size_of_mem_routines [.statement node] _ List.mem_cons_self r hr)
      (List.sizeOf_lt_of_mem hn)

namespace Routine

/-- **The segments of a function**, given the local names of the functions around it. -/
def segments (outer : List (List String)) (r : Routine) : List Segment :=
  .function outer r ::
    (functionsIn r.body).attach.flatMap fun ⟨q, _⟩ => q.segments (r.locals :: outer)
termination_by sizeOf r.body
decreasing_by exact size_of_mem_functionsIn ‹_›

/-- The segment of a function is followed by those of the functions inside it. -/
theorem segments_eq (outer : List (List String)) (r : Routine) :
    r.segments outer =
      .function outer r :: (functionsIn r.body).flatMap (segments (r.locals :: outer)) := by
  rw [segments, List.flatMap_subtype (g := segments (r.locals :: outer)) (fun _ _ => rfl),
    List.unattach_attach]

/-- How many sections the code of a function opens, its own and those inside it. -/
def sections (r : Routine) : Nat := (r.segments []).length

/-- A function has as many segments wherever it stands. -/
theorem length_segments (outer : List (List String)) (r : Routine) :
    (r.segments outer).length = r.sections := by
  suffices same : ∀ outer outer' : List (List String),
      (r.segments outer).length = (r.segments outer').length from same outer []
  induction hb : sizeOf r.body using Nat.strongRecOn generalizing r with
  | _ size ih =>
    intro outer outer'
    rw [segments_eq, segments_eq, List.length_cons, List.length_cons, List.length_flatMap,
      List.length_flatMap]
    congr 2
    refine List.map_congr_left fun q hq => ?_
    exact ih _ (hb ▸ size_of_mem_functionsIn hq) q rfl _ _

theorem sections_eq (r : Routine) :
    r.sections = ((functionsIn r.body).map sections).sum + 1 := by
  rw [sections, segments_eq, List.length_cons, List.length_flatMap]
  simp only [length_segments]

end Routine

/-- How many sections functions that stand next to each other open. -/
def sectionsOf (routines : List Routine) : Nat := (routines.map Routine.sections).sum

@[simp] theorem sectionsOf_nil : sectionsOf [] = 0 := rfl

@[simp] theorem sectionsOf_cons (r : Routine) (rs : List Routine) :
    sectionsOf (r :: rs) = r.sections + sectionsOf rs := by
  simp [sectionsOf]

@[simp] theorem sectionsOf_append (rs more : List Routine) :
    sectionsOf (rs ++ more) = sectionsOf rs + sectionsOf more := by
  simp [sectionsOf]

/-- How many sections the code of a node opens. -/
def Node.sections (node : Node) : Nat := sectionsOf node.literals

/-- **The segments of a program**, in the order of its sections. -/
def Program.segments (program : Program) : List Segment :=
  .top program.body :: (functionsIn program.body).flatMap (Routine.segments [])

/-! ## How deep functions stand -/

theorem exists_getElem?_of_flatMap {α β : Type} {f : α → List β} {xs : List α} {k : Nat} {y : β}
    (h : (xs.flatMap f)[k]? = some y) : ∃ x ∈ xs, ∃ j ≤ k, (f x)[j]? = some y := by
  induction xs generalizing k with
  | nil => cases h
  | cons x rest ih =>
    rw [List.flatMap_cons, List.getElem?_append] at h
    split at h
    · exact ⟨x, List.mem_cons_self, k, Nat.le_refl k, h⟩
    · obtain ⟨x', hx, j, hj, hy⟩ := ih h
      exact ⟨x', List.mem_cons_of_mem _ hx, j, by omega, hy⟩

/-- Every function around a segment has a section before it. -/
theorem Routine.length_chain_le {r : Routine} {outer : List (List String)} {k : Nat}
    {segment : Segment} (h : (r.segments outer)[k]? = some segment) :
    segment.chain.length ≤ outer.length + 1 + k := by
  induction hb : sizeOf r.body using Nat.strongRecOn generalizing r outer k with
  | _ size ih =>
    rw [segments_eq] at h
    cases k with
    | zero =>
      cases h
      simp [Segment.chain]
    | succ k =>
      obtain ⟨q, hq, j, hj, hs⟩ := exists_getElem?_of_flatMap h
      have := ih _ (hb ▸ size_of_mem_functionsIn hq) hs rfl
      simp only [List.length_cons] at this
      omega

theorem Program.length_chain_le {program : Program} {id : Nat} {segment : Segment}
    (h : program.segments[id]? = some segment) : segment.chain.length ≤ id := by
  cases id with
  | zero =>
    cases h
    exact Nat.le_refl 0
  | succ k =>
    obtain ⟨r, -, j, hj, hs⟩ := exists_getElem?_of_flatMap h
    have := Routine.length_chain_le hs
    simp only [List.length_nil] at this
    omega

end ScriptCompiler
