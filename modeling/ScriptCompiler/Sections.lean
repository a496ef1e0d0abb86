import ScriptCompiler.Layout

/-!
# Sections under construction

Code is written section by section, but the sections overlap in time: while one is open others
are opened, written and left again. The store keeps the items of every section and a stack of
the open ones; what is emitted goes to the section on top.

## Main definitions

* `Sections`: the items of every section, and the stack of open sections
* `Sections.start`, `Sections.reenter`, `Sections.leave`: opening and leaving a section
* `Sections.emit`: adding items to the current section
* `Sections.finish`: the layout of all sections

## Main results

* `Sections.emit_fst`, `Sections.opened_emit`, `Sections.size_emit`, `Sections.get?_emit`: emitting
  gives the current section and adds to its items, and nothing else changes
-/

namespace ScriptCompiler

/-- The number of a section; sections are numbered from zero in the order of their creation. -/
abbrev SectionId := Nat

/-- **The sections being written.** -/
structure Sections where
  /-- The items of every section, by number. -/
  contents : Array (Array Item) := #[]
  /-- The open sections, innermost first. -/
  opened : List SectionId := []
deriving DecidableEq, Repr, Inhabited

namespace Sections

/-- The store without sections. -/
def empty : Sections := {}

/-- How many sections there are. -/
def size (s : Sections) : Nat := s.contents.size

/-- Whether there is no section. -/
def isEmpty (s : Sections) : Bool := s.contents.isEmpty

/-- The items of a section. -/
def get? (s : Sections) (id : SectionId) : Option (Array Item) := s.contents[id]?

/-- The section that is written to. -/
def current (s : Sections) : Option SectionId := s.opened.head?

/-- Creates a section without items and opens it. -/
@[inline] def start (s : Sections) : SectionId × Sections :=
  (s.contents.size, { contents := s.contents.push #[], opened := s.contents.size :: s.opened })

/-- Opens a section that has been created before. -/
def reenter (id : SectionId) (s : Sections) : Sections := { s with opened := id :: s.opened }

/-- Leaves the current section. The one that was current before it is current again. -/
@[inline] def leave (s : Sections) : Option SectionId × Sections :=
  (s.opened.head?, { s with opened := s.opened.tail })

/-- Adds items at the end of the current section. Without a current section nothing happens. -/
@[inline] def emit (items : List Item) (s : Sections) : Option SectionId × Sections :=
  match s with
  | ⟨contents, []⟩ => (none, ⟨contents, []⟩)
  | ⟨contents, id :: outer⟩ => (some id, ⟨contents.modify id (· ++ items), id :: outer⟩)

/-- The bytes of every section, or the error of the first section that has one. -/
def finish (s : Sections) : Except UnresolvedLabel (List Bytes) :=
  s.contents.toList.zipIdx.mapM fun (items, id) => Layout.assemble id items.toList

theorem emit_fst (s : Sections) (items : List Item) : (s.emit items).1 = s.current := by
  obtain ⟨contents, _ | ⟨id, outer⟩⟩ := s <;> rfl

theorem emit_of_current_eq_none {s : Sections} (h : s.current = none) (items : List Item) :
    s.emit items = (none, s) := by
  obtain ⟨contents, _ | ⟨id, outer⟩⟩ := s
  · rfl
  · cases h

theorem opened_emit (s : Sections) (items : List Item) : (s.emit items).2.opened = s.opened := by
  obtain ⟨contents, _ | ⟨id, outer⟩⟩ := s <;> rfl

theorem size_emit (s : Sections) (items : List Item) : (s.emit items).2.size = s.size := by
  obtain ⟨contents, _ | ⟨id, outer⟩⟩ := s
  · rfl
  · exact Array.size_modify

/-- Emitting adds the items to the current section. -/
theorem get?_emit (s : Sections) (items : List Item) (id : SectionId) :
    (s.emit items).2.get? id =
      if s.current = some id then (s.get? id).map (fun old : Array Item => old ++ items)
      else s.get? id := by
  obtain ⟨contents, _ | ⟨current, outer⟩⟩ := s
  · rfl
  · simp only [Sections.current, List.head?_cons, Option.some.injEq]
    exact Array.getElem?_modify

end Sections

end ScriptCompiler
