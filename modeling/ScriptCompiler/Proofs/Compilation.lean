import ScriptCompiler.Proofs.Discipline
import ScriptCompiler.Proofs.Generation
import ScriptCompiler.Proofs.Resolution

/-!
# The sections of an image

Every section of the image of a program is assembled from lines that the plan of its segment comes
to. So what holds of the lines of every plan holds of the instructions of every section.

## Main definitions

* `Assembled`: a section is assembled from lines of the plan of a segment

## Main results

* `Program.exists_pieces`, `Program.assembled`: the sections of an image are assembled from the
  segments of the program, and its strings are those that they name
* `Assembled.instructions_eq`: the instructions of a section are those of its lines
* `Program.sections_decode`: all sections of an image decode
-/

namespace ScriptCompiler

/-- **A section is assembled from lines** that the plan of a segment comes to. -/
structure Assembled (image : Image) (id : Nat) (segment : Segment) (lines : List Line) : Prop where
  code : ∃ bytes, image.sections[id]? = some bytes ∧
    Layout.assemble id (Assembly.items image.strings lines) = .ok bytes
  emits : ∃ labels inside last, Emits segment.chain ⟨labels, id + 1, [], [], []⟩ segment.plan lines
    inside last ∧ last.sections ≤ image.sections.length
  texts : ∀ text ∈ Assembly.texts lines, text ∈ image.strings

namespace Program

theorem compile_ok {config : Config} {program : Program} {image : Image}
    (h : program.compile config = .ok image) :
    ∃ s, program.generate config.maxDepth = .ok s ∧ image.strings = s.strings.toList ∧
      s.sections.finish = .ok image.sections := by
  rw [compile] at h
  cases hg : program.generate config.maxDepth with
  | error e => rw [hg] at h; cases h
  | ok s =>
    rw [hg] at h
    cases hf : s.sections.finish with
    | error e =>
      simp only [bind, Except.bind, hf, Except.mapError] at h
      cases h
    | ok sections =>
      simp only [bind, Except.bind, hf, Except.mapError] at h
      cases h
      exact ⟨s, rfl, rfl, hf⟩

/-- **The sections of an image** are assembled from pieces, one for every segment of the program,
and its strings are those that the pieces name. -/
theorem exists_pieces {config : Config} {program : Program} {image : Image}
    (h : program.compile config = .ok image) :
    ∃ pieces : List Piece, pieces.map Piece.segment = program.segments ∧
      image.sections.length = pieces.length ∧
      (∀ (id : Nat) piece, pieces[id]? = some piece →
        Assembled image id piece.segment piece.lines) ∧
      image.strings.Nodup ∧
      ∀ text, text ∈ image.strings ↔ ∃ piece ∈ pieces, text ∈ Assembly.texts piece.lines := by
  obtain ⟨s, hg, hstrings, hf⟩ := compile_ok h
  obtain ⟨lines, pieces, m', he, hv, hnodup, ht⟩ := generate_emits hg
  obtain ⟨hlength, hsections⟩ := Layout.mapM_getElem? hf
  have hlength : image.sections.length = pieces.length + 1 := by
    have := congrArg List.length hv
    rw [hlength, List.length_zipIdx]
    simpa [State.view] using this
  have htexts : ∀ text, text ∈ image.strings ↔
      ∃ piece ∈ ⟨.top program.body, lines⟩ :: pieces, text ∈ Assembly.texts piece.lines := by
    intro text
    rw [hstrings, ht text]
    simp [Assembly.texts, List.filterMap_flatMap]
  refine ⟨⟨.top program.body, lines⟩ :: pieces, ?_, hlength, fun id piece hpiece => ⟨?_, ?_, ?_⟩,
    hstrings ▸ hnodup, htexts⟩
  · rw [List.map_cons, he.segments, flatMap_routines_bodyPlan, segments]
  · have hitems : s.view[id]? = some (Assembly.items s.strings.toList piece.lines) := by
      rw [hv, List.getElem?_map, hpiece, Option.map_some]
    rw [State.view, List.getElem?_map, Option.map_eq_some_iff] at hitems
    obtain ⟨items, hi, he⟩ := hitems
    obtain ⟨bytes, hb, ha⟩ := hsections id (items, id) (by simp [List.getElem?_zipIdx, hi])
    exact ⟨bytes, hb, by rw [hstrings, ← he]; exact ha⟩
  · have hlast : m'.sections ≤ image.sections.length := by
      rw [he.sections, hlength]
      exact Nat.le_of_eq (Nat.add_comm 1 _)
    cases id with
    | zero =>
      cases hpiece
      exact ⟨0, pieces, m', he, hlast⟩
    | succ k =>
      obtain ⟨labels, inside, last, he', hl⟩ := he.of_piece hpiece (Nat.add_comm k 1)
      exact ⟨labels, inside, last, he', Nat.le_trans hl hlast⟩
  · exact fun text htext => (htexts text).mpr ⟨piece, List.mem_of_getElem? hpiece, htext⟩

/-- The sections of an image are assembled from the segments of the program. -/
theorem assembled {config : Config} {program : Program} {image : Image}
    (h : program.compile config = .ok image) :
    image.sections.length = program.segments.length ∧
      ∀ (id : Nat) segment, program.segments[id]? = some segment →
        ∃ lines, Assembled image id segment lines := by
  obtain ⟨pieces, hsegments, hlength, ha, -⟩ := exists_pieces h
  refine ⟨by rw [hlength, ← hsegments, List.length_map], fun id segment hs => ?_⟩
  rw [← hsegments, List.getElem?_map, Option.map_eq_some_iff] at hs
  obtain ⟨piece, hpiece, rfl⟩ := hs
  exact ⟨piece.lines, ha id piece hpiece⟩

/-- An image has a section for every function around a segment. -/
theorem length_chain_le_sections {config : Config} {program : Program} {image : Image}
    (h : program.compile config = .ok image) {id : Nat} {segment : Segment}
    (hs : program.segments[id]? = some segment) : segment.chain.length ≤ image.sections.length := by
  rw [(assembled h).1]
  exact Nat.le_trans (length_chain_le hs) (Nat.le_of_lt (List.getElem?_eq_some_iff.mp hs).1)

/-- Every section of an image is assembled from a segment of the program. -/
theorem exists_assembled {config : Config} {program : Program} {image : Image}
    (h : program.compile config = .ok image) {id : Nat} (hid : id < image.sections.length) :
    ∃ segment lines, program.segments[id]? = some segment ∧ Assembled image id segment lines := by
  obtain ⟨hlength, hsegments⟩ := assembled h
  have hs := List.getElem?_eq_getElem (hlength ▸ hid)
  obtain ⟨lines, ha⟩ := hsegments id _ hs
  exact ⟨_, lines, hs, ha⟩

end Program

theorem Image.lt_of_instructions {image : Image} {id : Nat} {is : List Instruction}
    (h : image.instructions id = .ok is) : id < image.sections.length := by
  rw [instructions] at h
  split at h
  · cases h
  · exact (List.getElem?_eq_some_iff.mp ‹_›).1

namespace Assembled

variable {image : Image} {id : Nat} {segment : Segment} {lines : List Line}

theorem disciplined (segment : Segment) : Disciplined segment.plan := by
  cases segment with
  | top body => exact disciplined_of_straight (straight_bodyPlan body)
  | function outer r => exact r.disciplined_plan

theorem shaped (h : Assembled image id segment lines) : ∀ l ∈ lines, l.Shaped := by
  obtain ⟨_, _, _, he, -⟩ := h.emits
  exact he.shaped (disciplined segment).neat

theorem nodup_defined (h : Assembled image id segment lines) : (Assembly.defined lines).Nodup := by
  obtain ⟨_, _, _, he, -⟩ := h.emits
  have hnodup := he.nodup_defined rfl (disciplined segment)
  rw [Assembly.defined_append, List.nodup_append] at hnodup
  exact hnodup.1

/-- Where a label stands in a section. -/
def target (image : Image) (lines : List Line) : Label → Nat :=
  Layout.target (Assembly.items image.strings lines)

/-- **The instructions of a section** are those of its lines. -/
theorem instructions_eq (h : Assembled image id segment lines) :
    image.instructions id = .ok (Assembly.listing image.strings (target image lines) 0 lines) := by
  obtain ⟨bytes, hb, ha⟩ := h.code
  rw [Image.instructions, hb]
  simp only [Assembly.ofBytes_assemble h.shaped ha]
  rfl

end Assembled

/-- **All sections of an image decode**, and there is one for the top level. -/
theorem Program.sections_decode {config : Config} {program : Program} {image : Image}
    (h : program.compile config = .ok image) :
    0 < image.sections.length ∧
      ∀ id < image.sections.length, ∃ is, image.instructions id = .ok is := by
  refine ⟨?_, fun id hid => ?_⟩
  · rw [(assembled h).1]
    exact Nat.succ_pos _
  · obtain ⟨_, _, -, ha⟩ := exists_assembled h hid
    exact ⟨_, ha.instructions_eq⟩

end ScriptCompiler
