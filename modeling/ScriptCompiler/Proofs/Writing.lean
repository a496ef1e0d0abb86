import ScriptCompiler.Proofs.Pending
import ScriptCompiler.Proofs.Performance

/-!
# What code generation writes

A step of code generation that succeeds writes lines to the current section and appends the sections
of functions. Strings stand for their positions in the string pool, which stay right while the pool
grows.

## Main definitions

* `State.mark`: where a state is on the way through a program
* `State.Ready`: a section is open, and the string pool is sound
* `Writes`: the lines and the sections that a state has more than another
* `Emitted`: a state comes from another by carrying out a plan

## Main results

* `Writes.trans`, `Emitted.append`: what is written adds up
* `Generator.emitLine_writes`: emitting a line writes it
* `Generator.load_eq`, `Generator.store_eq`: the line of a use of a name
-/

namespace ScriptCompiler

namespace Line

/-- The string that a line names. -/
def text? : Line → Option String
  | text _ string => some string
  | _ => none

end Line

/-- The strings that lines name. -/
def Assembly.texts (lines : List Line) : List String := lines.filterMap Line.text?

namespace State

/-- The items of every section. -/
def view (s : State) : List (List Item) := s.sections.contents.toList.map Array.toList

/-- The section that is written to. -/
def current (s : State) : SectionId := s.sections.opened.headD 0

/-- Where a state is on the way through a program, with what is at hand there. -/
def mark (s : State) (hand : Hand) : Mark where
  labels := s.labels
  sections := s.sections.size
  loops := s.loops
  pending := hand.pending
  own := hand.own

/-- A section is open, and the string pool is sound. -/
structure Ready (s : State) : Prop where
  strings : s.strings.Valid
  opened : s.sections.opened = s.current :: s.sections.opened.tail
  current : s.current < s.view.length

theorem ready_start : Ready { sections := Sections.empty.start.2 } :=
  ⟨StringPool.valid_empty, rfl, Nat.zero_lt_one⟩

theorem Ready.deeper {s : State} (hs : s.Ready) : s.deeper.Ready :=
  ⟨hs.strings, hs.opened, hs.current⟩

end State

/-- **What a state has more than another**: lines in the current section, and sections. -/
structure Writes (s : State) (lines : List Line) (pieces : List Piece) (s' : State) : Prop where
  depth : s'.depth = s.depth
  opened : s'.sections.opened = s.sections.opened
  grows : s.strings.toList <+: s'.strings.toList
  texts : ∀ text ∈ Assembly.texts (lines ++ pieces.flatMap Piece.lines), text ∈ s'.strings.toList
  interned : ∀ text ∈ s'.strings.toList,
    text ∈ s.strings.toList ∨ text ∈ Assembly.texts (lines ++ pieces.flatMap Piece.lines)
  view : ∀ strings, s'.strings.toList <+: strings →
    s'.view = s.view.modify s.current (· ++ Assembly.items strings lines) ++
      pieces.map fun piece => Assembly.items strings piece.lines

theorem modify_append_left {α : Type} {i : Nat} {xs : List α} (h : i < xs.length)
    (f : α → α) (ys : List α) : (xs ++ ys).modify i f = xs.modify i f ++ ys := by
  induction xs generalizing i with
  | nil => cases h
  | cons x xs ih =>
    cases i with
    | zero => rfl
    | succ i => simp [ih (Nat.lt_of_succ_lt_succ h)]

theorem modify_append_length {α : Type} (xs : List α) (x : α) (f : α → α) :
    (xs ++ [x]).modify xs.length f = xs ++ [f x] := by
  induction xs with
  | nil => rfl
  | cons y xs ih => simp [ih]

namespace Writes

theorem refl (s : State) : Writes s [] [] s where
  depth := rfl
  opened := rfl
  grows := List.prefix_refl _
  texts := by simp [Assembly.texts]
  interned _ := .inl
  view strings _ := by
    simp only [Assembly.items, List.flatMap_nil, List.append_nil, List.map_nil]
    exact (List.modify_id _ _).symm

theorem current {s s' : State} {lines : List Line} {pieces : List Piece}
    (h : Writes s lines pieces s') : s'.current = s.current := by
  rw [State.current, h.opened, State.current]

theorem trans {s s₁ s' : State} {lines lines' : List Line} {pieces pieces' : List Piece}
    (hs : s.current < s.view.length) (h : Writes s lines pieces s₁)
    (h' : Writes s₁ lines' pieces' s') : Writes s (lines ++ lines') (pieces ++ pieces') s' where
  depth := h'.depth.trans h.depth
  opened := h'.opened.trans h.opened
  grows := h.grows.trans h'.grows
  texts := by
    have := h.texts
    have := h'.texts
    have := h'.grows.subset
    simp only [Assembly.texts, List.filterMap_append, List.flatMap_append, List.mem_append] at *
    grind
  interned := by
    have := h.interned
    have := h'.interned
    simp only [Assembly.texts, List.filterMap_append, List.flatMap_append, List.mem_append] at *
    grind
  view strings hp := by
    rw [h'.view strings hp, h.view strings (h'.grows.trans hp), h.current,
      modify_append_left (by simpa using hs), List.modify_modify_eq]
    simp [Function.comp_def]

theorem ready {s s' : State} {lines : List Line} {pieces : List Piece} (hs : s.Ready)
    (h : Writes s lines pieces s') (hv : s'.strings.Valid) : s'.Ready where
  strings := hv
  opened := by
    rw [h.current, h.opened]
    exact hs.opened
  current := by
    rw [h.current, h.view _ (List.prefix_refl _), List.length_append, List.length_modify]
    exact Nat.lt_of_lt_of_le hs.current (Nat.le_add_right _ _)

end Writes

/-- **A state comes from another by carrying out a plan**, with `hand` at hand before it and `hand'`
after it. -/
structure Emitted (s : State) (hand : Hand) (parts : List Part) (s' : State) (hand' : Hand) :
    Prop where
  ready : s'.Ready
  scopes : s'.scopes = s.scopes
  emits : ∃ lines pieces,
    Emits s.scopes.names (s.mark hand) parts lines pieces (s'.mark hand') ∧ Writes s lines pieces s'

namespace Emitted

variable {s s₁ s' : State} {hand hand₁ hand' : Hand} {parts more : List Part}

theorem nil (hs : s.Ready) (hand : Hand) : Emitted s hand [] s hand :=
  ⟨hs, rfl, [], [], .nil, Writes.refl s⟩

theorem append (hs : s.Ready) (h : Emitted s hand parts s₁ hand₁)
    (h' : Emitted s₁ hand₁ more s' hand') : Emitted s hand (parts ++ more) s' hand' := by
  obtain ⟨-, hc, lines, pieces, he, hw⟩ := h
  obtain ⟨hr, hc', lines', pieces', he', hw'⟩ := h'
  rw [hc] at he'
  exact ⟨hr, hc'.trans hc, _, _, he.append he', hw.trans hs.current hw'⟩

/-- The code of a construct is emitted with its plan. The labels of the construct stay its own. -/
theorem inner {p : Part} {plan : List Part} (hp : p.Inner plan)
    (h : Emitted s { pending := hand.pending } plan s' hand') :
    Emitted s hand [p] s' { hand with pending := hand'.pending } := by
  obtain ⟨hr, hc, lines, pieces, he, hw⟩ := h
  refine ⟨hr, hc, lines, pieces, ?_, hw⟩
  have := Emits.inner (m := s.mark hand) hp he .nil
  simpa [State.mark, Mark.outer] using this

/-- What is left to pass after a plan that binds no functions. -/
theorem pending (h : Emitted s hand parts s' hand') (hn : ∀ p ∈ parts, p.notes = false) :
    hand'.pending = hand.pending.drop (passesOf parts) := by
  obtain ⟨-, -, lines, pieces, he, -⟩ := h
  exact he.pending hn

/-- How deep the nesting is does not matter for what is emitted. -/
theorem deeper (h : Emitted s.deeper hand parts s' hand') :
    Emitted s hand parts s'.shallower hand' := by
  obtain ⟨hr, hc, lines, pieces, he, hw⟩ := h
  refine ⟨⟨hr.strings, hr.opened, hr.current⟩, hc, lines, pieces, he, ?_⟩
  refine ⟨?_, hw.opened, hw.grows, hw.texts, hw.interned, hw.view⟩
  rw [State.shallower, hw.depth]
  rfl

end Emitted

namespace Generator

/-! ## Elementary steps -/

/-- What emitting leaves as it is. -/
structure Keeps (s s' : State) : Prop where
  labels : s'.labels = s.labels
  loops : s'.loops = s.loops
  size : s'.sections.size = s.sections.size

theorem Keeps.mark {s s' : State} (h : Keeps s s') (hand : Hand) :
    s'.mark hand = s.mark hand := by
  simp only [State.mark, h.labels, h.loops, h.size]

theorem sections_emit {s : State} (hs : s.Ready) (items : List Item) :
    (s.sections.emit items).2 =
      { s.sections with contents := s.sections.contents.modify s.current (· ++ items) } := by
  have ho := hs.opened
  generalize s.current = id at ho
  rcases hs' : s.sections with ⟨contents, opened⟩
  rw [hs'] at ho
  simp only at ho
  rw [ho]
  rfl

/-- Emitting the items of lines writes the lines, if their strings are in the pool. -/
theorem emit_writes {s s' : State} (hs : s.Ready) {lines : List Line} {items : List Item}
    (hi : ∀ strings, s.strings.toList <+: strings → Assembly.items strings lines = items)
    (ht : ∀ text ∈ Assembly.texts lines, text ∈ s.strings.toList)
    (h : emit items s = .ok ((), s')) :
    s'.Ready ∧ Keeps s s' ∧ s'.scopes = s.scopes ∧ Writes s lines [] s' := by
  cases h
  simp only [sections_emit hs]
  have map_modify : ∀ (xs : List (Array Item)) (i : Nat),
      (xs.modify i (· ++ items)).map Array.toList =
        (xs.map Array.toList).modify i (· ++ items) := by
    intro xs
    induction xs with
    | nil => simp
    | cons x xs ih => rintro (_ | i) <;> simp [ih]
  have hk : Keeps s { s with sections := { s.sections with
      contents := s.sections.contents.modify s.current (· ++ items) } } :=
    ⟨rfl, rfl, by simp [Sections.size]⟩
  have hw : Writes s lines [] { s with sections := { s.sections with
      contents := s.sections.contents.modify s.current (· ++ items) } } := by
    refine ⟨rfl, rfl, List.prefix_refl _, by simpa using ht, fun _ => .inl, fun strings hp => ?_⟩
    simpa [hi strings hp, State.view, State.current] using map_modify _ _
  exact ⟨hw.ready hs hs.strings, hk, trivial, hw⟩

/-- Interning a string adds it to the pool, and writes nothing. -/
theorem intern_ok {s s' : State} (hs : s.Ready) {string : String} {position : Nat}
    (h : intern string s = .ok (position, s')) :
    s'.strings.toList = enlist s.strings.toList string ∧
      position = s'.strings.toList.idxOf string ∧ s'.Ready ∧
      ∃ strings, s' = { s with strings } := by
  cases h
  have hl := StringPool.toList_intern hs.strings string
  exact ⟨hl, hl ▸ StringPool.intern_fst hs.strings _,
    ⟨StringPool.valid_intern hs.strings string, hs.opened, hs.current⟩, _, rfl⟩

theorem Keeps.trans {s s₁ s' : State} (h : Keeps s s₁) (h' : Keeps s₁ s') : Keeps s s' where
  labels := h'.labels.trans h.labels
  loops := h'.loops.trans h.loops
  size := h'.size.trans h.size

/-- **Emitting a line writes it.** A string gets its position first, and from then on it stays
there. -/
theorem emitLine_writes {s s' : State} (hs : s.Ready) {l : Line}
    (h : emitLine l s = .ok ((), s')) :
    s'.Ready ∧ Keeps s s' ∧ s'.scopes = s.scopes ∧ Writes s [l] [] s' := by
  cases l with
  | text op string =>
    obtain ⟨position, s₁, hi, h⟩ := bind_ok h
    obtain ⟨hl, rfl, hs₁, strings, rfl⟩ := intern_ok hs hi
    have hm : string ∈ strings.toList := hl ▸ mem_enlist_self _ _
    obtain ⟨hs', hk, hc, hw⟩ : s'.Ready ∧ Keeps { s with strings } s' ∧ s'.scopes = s.scopes ∧
        Writes { s with strings } [.text op string] [] s' := by
      refine emit_writes hs₁ (fun strings hp => ?_) ?_ h
      · simp [Assembly.items, Line.items, idxOf_of_isPrefix hp hm]
      · simpa [Assembly.texts, Line.text?] using hm
    refine ⟨hs', ⟨hk.labels, hk.loops, hk.size⟩, hc,
      ⟨hw.depth, hw.opened, (hl ▸ prefix_enlist _ _).trans hw.grows, hw.texts, fun text ht => ?_,
        hw.view⟩⟩
    rcases hw.interned text ht with ht | ht
    · rw [hl, mem_enlist] at ht
      exact ht.imp_right (by simp [Assembly.texts, Line.text?])
    · exact .inr ht
  | _ => exact emit_writes hs (fun _ _ => rfl) (by simp [Assembly.texts, Line.text?]) h

/-- Parts that come to one line, and leave the mark as it is. -/
theorem emitted_line {s s' : State} (hs : s.Ready) {hand : Hand} {p : Part} {l : Line}
    (hp : Part.Step s.scopes.names (s.mark hand) p [l] (s.mark hand))
    (h : emitLine l s = .ok ((), s')) : Emitted s hand [p] s' hand := by
  obtain ⟨hs', hk, hc, hw⟩ := emitLine_writes hs h
  refine ⟨hs', hc, [l], [], ?_, hw⟩
  rw [hk.mark]
  exact .step hp .nil

theorem load_eq (name : String) (s : State) :
    load name s = emitLine (accessLine .pushVariable .pushGlobal s.scopes.names name) s := by
  rw [load, get_bind, accessLine, ← ScopeChain.address?_eq]
  cases s.scopes.address? name <;> rfl

theorem store_eq (name : String) (s : State) :
    store name s = emitLine (accessLine .setVariable .setGlobal s.scopes.names name) s := by
  rw [store, get_bind, accessLine, ← ScopeChain.address?_eq]
  cases s.scopes.address? name <;> rfl

end Generator

end ScriptCompiler
