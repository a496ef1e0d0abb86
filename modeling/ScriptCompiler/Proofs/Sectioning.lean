import Mathlib.Data.List.Induction
import ScriptCompiler.Proofs.Resolution
import ScriptCompiler.Sections

/-!
# The history of sections

Sections are created, left and reentered, and in between items are emitted to whichever of them is
current. At any time the store holds what its history says: the sections are numbered in the order
of their creation, each of them holds what was emitted while it was current, and the current section
is the last one that was opened and has not been left. When all is written, the sections are laid
out in the order of their numbers.

## Main definitions

* `Sections.Step`, `Sections.run`: opening and leaving sections and emitting items
* `Sections.Proper`: steps that reenter only sections that have been created before
* `Sections.Settled`: steps that leave the sections they open, and no others
* `Sections.Innermost`: the last section that steps open and do not leave
* `Sections.trace`, `Sections.emission`, `Sections.written`: what is emitted while a section is
  current

## Main results

* `Sections.current_run_iff`: the current section is the innermost one that the steps leave open
* `Sections.Holds.run`: every section holds what was emitted while it was current
* `Sections.Holds.finish_eq_ok_iff`, `Sections.Holds.finish_eq_error_iff`: the two outcomes of the
  layout
* `Sections.contents_exact`: what the steps since the empty store say about the sections
-/

namespace ScriptCompiler.Sections

/-! ## Steps -/

/-- **A step in the history of sections.** -/
inductive Step where
  /-- Creates a section and opens it. -/
  | start
  /-- Opens a section again. -/
  | reenter (id : SectionId)
  /-- Leaves the current section. -/
  | leave
  /-- Adds items to the current section. -/
  | emit (items : List Item)
deriving DecidableEq, Repr

/-- The sections after a step. -/
def step (s : Sections) : Step → Sections
  | .start => s.start.2
  | .reenter id => s.reenter id
  | .leave => s.leave.2
  | .emit items => (s.emit items).2

/-- The sections after steps. -/
def run (s : Sections) (steps : List Step) : Sections := steps.foldl step s

/-- How many sections steps create. -/
def created (steps : List Step) : Nat := steps.count .start

/-- What a function of the sections and the next step gives along steps, in the order of time. -/
def trace {α : Type} (f : Sections → Step → List α) (s : Sections) : List Step → List α
  | [] => []
  | st :: rest => f s st ++ trace f (s.step st) rest

/-- The number that a step gives out, if it creates a section. -/
def number (s : Sections) : Step → List SectionId
  | .start => [s.start.1]
  | .reenter _ | .leave | .emit _ => []

/-- Whether a step can be taken when so many sections have been created: only those can be
reentered. -/
def Step.Allowed (count : Nat) : Step → Prop
  | reenter id => id < count
  | start | leave | emit _ => True

instance (count : Nat) (st : Step) : Decidable (st.Allowed count) :=
  match st with
  | .reenter id => inferInstanceAs (Decidable (id < count))
  | .start | .leave | .emit _ => .isTrue trivial

/-- **Steps that reenter only sections that have been created**, when so many have been created
before them. -/
def Proper (count : Nat) : List Step → Prop
  | [] => True
  | st :: rest => st.Allowed count ∧ Proper (count + created [st]) rest

instance decidableProper (count : Nat) : (steps : List Step) → Decidable (Proper count steps)
  | [] => .isTrue trivial
  | st :: rest =>
    have := decidableProper (count + created [st]) rest
    inferInstanceAs (Decidable (st.Allowed count ∧ Proper (count + created [st]) rest))

/-- A step opens a section, when so many have been created. -/
inductive Step.Opens (count : Nat) : Step → SectionId → Prop
  | start : Opens count start count
  | reenter (id : SectionId) : Opens count (reenter id) id

/-- **Steps that leave the sections they open**, and no others. -/
inductive Settled : List Step → Prop
  | nil : Settled []
  | emit {steps : List Step} (h : Settled steps) (items : List Item) :
    Settled (steps ++ [.emit items])
  | nested {steps inside : List Step} {opening : Step} {count : Nat} {id : SectionId}
    (h : Settled steps) (ho : opening.Opens count id) (hi : Settled inside) :
    Settled (steps ++ opening :: inside ++ [.leave])

/-- **The innermost section that steps leave open**: it is opened, and after that all sections that
are opened are left. -/
def Innermost (steps : List Step) (id : SectionId) : Prop :=
  ∃ before opening inside, steps = before ++ opening :: inside ∧
    opening.Opens (created before) id ∧ Settled inside

/-- Groups of items in the order in which they were emitted, each with the section that was
current. -/
abbrev Log := List (Option SectionId × List Item)

/-- What a step emits, if anything, with the section that is current then. -/
def emission (s : Sections) : Step → Log
  | .emit items => [(s.current, items)]
  | .start | .reenter _ | .leave => []

/-- The items that are emitted while a section is current. -/
def written (id : SectionId) (log : Log) : List Item :=
  (log.filter (·.1 = some id)).flatMap (·.2)

theorem run_append (s : Sections) (steps more : List Step) :
    s.run (steps ++ more) = (s.run steps).run more :=
  List.foldl_append

theorem run_snoc (s : Sections) (steps : List Step) (st : Step) :
    s.run (steps ++ [st]) = (s.run steps).step st :=
  run_append s steps [st]

theorem created_cons (st : Step) (rest : List Step) :
    created (st :: rest) = created [st] + created rest := by
  simp only [created, ← List.count_append, List.singleton_append]

theorem written_append (id : SectionId) (log more : Log) :
    written id (log ++ more) = written id log ++ written id more := by
  rw [written, List.filter_append, List.flatMap_append]
  rfl

/-! ## Numbers -/

/-- Only creating a section makes a difference to how many there are. -/
theorem size_step (s : Sections) (st : Step) : (s.step st).size = s.size + created [st] := by
  cases st with
  | start => exact Array.size_push _
  | reenter id => rfl
  | leave => rfl
  | emit items => exact size_emit s items

theorem size_run (s : Sections) (steps : List Step) :
    (s.run steps).size = s.size + created steps := by
  induction steps generalizing s with
  | nil => rfl
  | cons st rest ih =>
    change ((s.step st).run rest).size = _
    rw [ih, size_step, Nat.add_assoc, ← created_cons]

theorem size_run_empty (steps : List Step) : (run empty steps).size = created steps := by
  rw [size_run]
  exact Nat.zero_add _

theorem number_eq (s : Sections) (st : Step) : s.number st = List.range' s.size (created [st]) := by
  cases st <;> rfl

/-- Sections are numbered in the order of their creation, after those that there are. -/
theorem trace_number (s : Sections) (steps : List Step) :
    s.trace number steps = List.range' s.size (created steps) := by
  induction steps generalizing s with
  | nil => rfl
  | cons st rest ih =>
    rw [trace, number_eq, ih, size_step, created_cons st rest]
    exact List.range'_append_1

/-! ## The current section -/

theorem opened_of_opens {s : Sections} {opening : Step} {id : SectionId}
    (h : opening.Opens s.size id) : (s.step opening).opened = id :: s.opened := by
  cases h <;> rfl

/-- Steps that leave the sections they open have no effect on which sections are open. -/
theorem Settled.opened_run {steps : List Step} (h : Settled steps) (s : Sections) :
    (s.run steps).opened = s.opened := by
  induction h generalizing s with
  | nil => rfl
  | emit h items ih => rw [run_snoc, step, opened_emit, ih]
  | @nested steps inside opening count id h ho hi ih ih' =>
    rw [run_snoc, run_append]
    calc (((s.run steps).run (opening :: inside)).step .leave).opened
      _ = ((s.run steps).step opening).opened.tail := congrArg List.tail (ih' _)
      _ = (s.run steps).opened := by cases ho <;> rfl
      _ = s.opened := ih s

/-- A section that is opened is current again whenever all that are opened after it have been
left. -/
theorem opened_run_of_opens {steps inside : List Step} {opening : Step} {id : SectionId}
    (ho : opening.Opens (created steps) id) (hi : Settled inside) :
    (run empty (steps ++ opening :: inside)).opened = id :: (run empty steps).opened := by
  rw [run_append, ← opened_of_opens (size_run_empty steps ▸ ho)]
  exact hi.opened_run _

/-- An open section is the last that was opened and not left, and the sections around it are those
that were open before. -/
theorem exists_opening {steps : List Step} {id : SectionId} {outer : List SectionId}
    (h : (run empty steps).opened = id :: outer) :
    ∃ before opening inside, steps = before ++ opening :: inside ∧
      opening.Opens (created before) id ∧ Settled inside ∧ (run empty before).opened = outer := by
  -- The last step may leave a section, and then the history before that section was opened counts.
  induction hn : steps.length using Nat.strong_induction_on generalizing steps id outer with
  | _ n ih =>
    obtain rfl | ⟨steps, st, rfl⟩ := List.eq_nil_or_concat' steps
    · cases h
    have shorter : steps.length < n := by
      rw [← hn, List.length_append, List.length_singleton]
      exact Nat.lt_succ_self _
    rw [run_snoc] at h
    cases st with
    | start =>
      obtain ⟨rfl, rfl⟩ := List.cons.inj h
      exact ⟨steps, .start, [], rfl, size_run_empty steps ▸ .start, .nil, rfl⟩
    | reenter other =>
      obtain ⟨rfl, rfl⟩ := List.cons.inj h
      exact ⟨steps, .reenter other, [], rfl, .reenter other, .nil, rfl⟩
    | emit items =>
      rw [step, opened_emit] at h
      obtain ⟨before, opening, inside, rfl, ho, hi, hb⟩ := ih _ shorter h rfl
      exact ⟨before, opening, inside ++ [.emit items], by simp, ho, hi.emit items, hb⟩
    | leave =>
      obtain ⟨left, hl⟩ : ∃ left, (run empty steps).opened = left :: id :: outer := by
        cases hs : (run empty steps).opened with
        | nil =>
          rw [step, leave, hs] at h
          cases h
        | cons left rest =>
          rw [step, leave, hs] at h
          exact ⟨left, congrArg _ h⟩
      obtain ⟨middle, opening', inside', rfl, ho', hi', hm⟩ := ih _ shorter hl rfl
      have earlier : middle.length < n := by
        rw [List.length_append] at shorter
        exact Nat.lt_of_le_of_lt (Nat.le_add_right _ _) shorter
      obtain ⟨before, opening, inside, rfl, ho, hi, hb⟩ := ih _ earlier hm rfl
      exact ⟨before, opening, inside ++ opening' :: inside' ++ [.leave], by simp, ho,
        hi.nested ho' hi', hb⟩

/-- **The current section** is the innermost one that the steps leave open. -/
theorem current_run_iff {steps : List Step} {id : SectionId} :
    (run empty steps).current = some id ↔ Innermost steps id := by
  constructor
  · intro h
    obtain ⟨outer, ho⟩ := List.head?_eq_some_iff.mp h
    obtain ⟨before, opening, inside, hs, hb, hi, -⟩ := exists_opening ho
    exact ⟨before, opening, inside, hs, hb, hi⟩
  · rintro ⟨before, opening, inside, rfl, ho, hi⟩
    rw [current, opened_run_of_opens ho hi]
    rfl

/-! ## Contents -/

/-- **The sections hold what was emitted to them**, and all that are open have been created. -/
structure Holds (s : Sections) (log : Log) : Prop where
  opened : ∀ id ∈ s.opened, id < s.size
  contents : ∀ id < s.size, s.get? id = some (written id log).toArray
  fresh : ∀ id, s.size ≤ id → written id log = []

theorem holds_empty : Holds empty [] where
  opened := by simp [empty]
  contents := by simp [empty, size]
  fresh := fun _ _ => rfl

variable {s : Sections} {log : Log}

theorem Holds.start (h : s.Holds log) : s.start.2.Holds log := by
  have grown : s.start.2.size = s.size + 1 := size_step s .start
  refine ⟨fun id hm => ?_, fun id hlt => ?_, fun id hle => ?_⟩
  · rw [grown]
    obtain rfl | hm := List.mem_cons.mp hm
    · exact Nat.lt_succ_self _
    · exact Nat.lt_succ_of_lt (h.opened id hm)
  · rw [get?, Sections.start, Array.getElem?_push]
    split
    · next he =>
      rw [h.fresh id (Nat.le_of_eq he.symm)]
    · next hne =>
      rw [grown] at hlt
      exact h.contents id (Nat.lt_of_le_of_ne (Nat.le_of_lt_succ hlt) hne)
  · rw [grown] at hle
    exact h.fresh id (Nat.le_of_succ_le hle)

theorem Holds.emit (h : s.Holds log) (items : List Item) :
    (s.emit items).2.Holds (log ++ [(s.current, items)]) := by
  have added (id : SectionId) : written id (log ++ [(s.current, items)]) =
      if s.current = some id then written id log ++ items else written id log := by
    rw [written_append]
    by_cases hc : s.current = some id <;> simp [written, hc]
  refine ⟨?_, fun id hlt => ?_, fun id hle => ?_⟩
  · rw [opened_emit, size_emit]
    exact h.opened
  · rw [size_emit] at hlt
    rw [get?_emit, added, h.contents id hlt]
    split
    · simp
    · rfl
  · rw [size_emit] at hle
    have hne : s.current ≠ some id := fun hc =>
      Nat.not_lt.mpr hle (h.opened id (List.mem_of_head? hc))
    rw [added, if_neg hne]
    exact h.fresh id hle

/-- A step adds to what the sections hold what it emits. -/
theorem Holds.step (h : s.Holds log) {st : Step} (hs : st.Allowed s.size) :
    (s.step st).Holds (log ++ s.emission st) := by
  cases st with
  | start =>
    rw [emission, List.append_nil]
    exact h.start
  | reenter id =>
    rw [emission, List.append_nil]
    exact ⟨List.forall_mem_cons.mpr ⟨hs, h.opened⟩, h.contents, h.fresh⟩
  | leave =>
    rw [emission, List.append_nil]
    exact ⟨fun id hm => h.opened id (List.mem_of_mem_tail hm), h.contents, h.fresh⟩
  | emit items => exact h.emit items

/-- **Every section holds what was emitted while it was current**, after what it held before. -/
theorem Holds.run (h : s.Holds log) {steps : List Step} (hp : Proper s.size steps) :
    (s.run steps).Holds (log ++ s.trace emission steps) := by
  induction steps generalizing s log with
  | nil =>
    rw [trace, List.append_nil]
    exact h
  | cons st rest ih =>
    obtain ⟨hs, hr⟩ := hp
    rw [trace, ← List.append_assoc]
    exact ih (h.step hs) (size_step s st ▸ hr)

/-! ## Layout -/

theorem Holds.getElem?_zipIdx_iff (h : s.Holds log) {id : Nat} {entry : Array Item × Nat} :
    s.contents.toList.zipIdx[id]? = some entry ↔
      id < s.size ∧ entry = ((written id log).toArray, id) := by
  rw [List.getElem?_zipIdx, Array.getElem?_toList, Nat.zero_add]
  by_cases hlt : id < s.size
  · rw [show s.contents[id]? = _ from h.contents id hlt]
    simp [hlt, eq_comm]
  · rw [Array.getElem?_eq_none (Nat.not_lt.mp hlt)]
    simp [hlt]

/-- **Sections that can be laid out** are, by number, the bytes of what was emitted to them. -/
theorem Holds.finish_eq_ok_iff (h : s.Holds log) {encoded : List Bytes} :
    s.finish = .ok encoded ↔ encoded.length = s.size ∧ ∀ (id : Nat) bytes,
      encoded[id]? = some bytes → Layout.assemble id (written id log) = .ok bytes := by
  rw [finish, Layout.mapM_eq_ok_iff_getElem?, List.length_zipIdx]
  refine and_congr_right fun hl => forall_congr' fun id => ?_
  constructor
  · intro hf bytes hb
    have hlt : id < s.size := Nat.lt_of_lt_of_eq (List.getElem?_eq_some_iff.mp hb).1 hl
    exact hf _ bytes (h.getElem?_zipIdx_iff.mpr ⟨hlt, rfl⟩) hb
  · intro hf entry bytes hi hb
    obtain ⟨-, rfl⟩ := h.getElem?_zipIdx_iff.mp hi
    exact hf bytes hb

/-- **Sections that cannot be laid out** have the error of the first of them that has one. -/
theorem Holds.finish_eq_error_iff (h : s.Holds log) {e : UnresolvedLabel} :
    s.finish = .error e ↔ ∃ id < s.size, Layout.assemble id (written id log) = .error e ∧
      ∀ lower < id, ∃ bytes, Layout.assemble lower (written lower log) = .ok bytes := by
  rw [finish, Layout.mapM_eq_error_iff_getElem?]
  refine exists_congr fun id => ?_
  constructor
  · rintro ⟨entry, hi, he, hl⟩
    obtain ⟨hlt, rfl⟩ := h.getElem?_zipIdx_iff.mp hi
    refine ⟨hlt, he, fun lower hlo => ?_⟩
    exact hl lower hlo _ (h.getElem?_zipIdx_iff.mpr ⟨hlo.trans hlt, rfl⟩)
  · rintro ⟨hlt, he, hl⟩
    refine ⟨_, h.getElem?_zipIdx_iff.mpr ⟨hlt, rfl⟩, he, fun lower hlo entry hi => ?_⟩
    obtain ⟨-, rfl⟩ := h.getElem?_zipIdx_iff.mp hi
    exact hl lower hlo

/-! ## The whole history -/

/-- **What the history of sections says about them.** After any steps from the empty store on, of
which none reenters a section that has not been created,

* the numbers given out are `0`, `1`, `2` and so on, one for every section created;
* there are no other sections, and each holds what was emitted while it was current, in order;
* the current section is the last one that was opened and has not been left since;
* emitting tells which section is current, and if there is none it changes nothing;
* after a section has been opened, and whatever was opened inside it has been left, leaving gives
  that section and brings back the sections that were open before it;
* the layout of all sections has the bytes of every section at its number, or it is the error of the
  section with the lowest number that has one. -/
theorem contents_exact (steps : List Step) (h : Proper 0 steps) :
    trace number empty steps = List.range (created steps) ∧
    ((run empty steps).size = created steps ∧ ∀ id < created steps,
      (run empty steps).get? id = some (written id (trace emission empty steps)).toArray) ∧
    (∀ id, (run empty steps).current = some id ↔ Innermost steps id) ∧
    (∀ items, ((run empty steps).emit items).1 = (run empty steps).current ∧
      ((run empty steps).current = none →
        (run empty steps).emit items = (none, run empty steps))) ∧
    (∀ opening id inside, opening.Opens (created steps) id → Settled inside →
      (run empty (steps ++ opening :: inside)).leave.1 = some id ∧
        (run empty (steps ++ opening :: inside ++ [.leave])).opened = (run empty steps).opened) ∧
    (∀ encoded, (run empty steps).finish = .ok encoded ↔ encoded.length = created steps ∧
      ∀ (id : Nat) bytes, encoded[id]? = some bytes →
        Layout.assemble id (written id (trace emission empty steps)) = .ok bytes) ∧
    ∀ e, (run empty steps).finish = .error e ↔ ∃ id < created steps,
      Layout.assemble id (written id (trace emission empty steps)) = .error e ∧
        ∀ lower < id, ∃ bytes,
          Layout.assemble lower (written lower (trace emission empty steps)) = .ok bytes := by
  have holds : (run empty steps).Holds (trace emission empty steps) := holds_empty.run h
  have size := size_run_empty steps
  refine ⟨?_, ⟨size, ?_⟩, fun id => current_run_iff, ?_, ?_, ?_, ?_⟩
  · rw [trace_number, List.range_eq_range']
    rfl
  · intro id hlt
    exact holds.contents id (size ▸ hlt)
  · intro items
    exact ⟨emit_fst _ items, fun hc => emit_of_current_eq_none hc items⟩
  · intro opening id inside ho hi
    have inner := opened_run_of_opens ho hi
    constructor
    · rw [leave, inner]
      rfl
    · rw [run_snoc, step, leave, inner]
      rfl
  · intro encoded
    rw [holds.finish_eq_ok_iff, size]
  · intro e
    rw [holds.finish_eq_error_iff, size]

/-- Section `1` is left and entered again while section `0` stays open, and what is emitted when
both have been left is lost. Neither of the two defines the label it refers to; the error is that of
section `0`, although its reference was emitted last. -/
theorem contents_exact_reentered :
    let steps : List Step := [.start, .start, .emit [.refer ⟨4⟩], .leave, .reenter 1,
      .emit [.word 1], .leave, .emit [.word 2], .emit [.refer ⟨3⟩], .leave, .emit [.word 5]]
    Proper 0 steps ∧ trace number empty steps = [0, 1] ∧
      (run empty steps).get? 0 = some #[.word 2, .refer ⟨3⟩] ∧
      (run empty steps).get? 1 = some #[.refer ⟨4⟩, .word 1] ∧
      (run empty steps).finish = .error ⟨⟨3⟩, 0⟩ := by
  intro steps
  have proper : Proper 0 steps := by decide
  obtain ⟨numbers, ⟨-, contents⟩, -, -, -, -, failure⟩ := contents_exact steps proper
  refine ⟨proper, numbers, contents 0 (by decide), contents 1 (by decide), ?_⟩
  refine (failure _).mpr ⟨0, by decide, ?_, ?_⟩
  · apply Layout.assemble_eq_error_iff.mpr
    exact ⟨⟨3⟩, ⟨[.word 2], [], rfl, by decide, by simp⟩, rfl⟩
  · rintro lower ⟨⟩

end ScriptCompiler.Sections
