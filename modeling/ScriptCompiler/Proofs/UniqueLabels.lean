import ScriptCompiler.Proofs.Acceptance

/-!
# Labels of a whole program

All sections of a program take their labels from one count, and they are written in turns: a
function inside a loop is written while the loop is. Still every label is defined at most once,
whichever section it is in, and a section refers only to labels that it defines itself. So the
layout of the sections never misses a label.

## Main results

* `Program.count_define_le_one`: over all sections together every label is defined at most once
* `Program.compile_ne_unresolvedLabel`: no program fails to compile for a label
* `Program.labels_exact`: labels are defined once, and where they are used
-/

namespace ScriptCompiler

theorem Assembly.count_define (strings : List String) (lines : List Line) (label : Label) :
    (items strings lines).count (.define label) = (defined lines).count label := by
  induction lines with
  | nil => rfl
  | cons line lines ih =>
    show (line.items strings ++ items strings lines).count _ = _
    rw [List.count_append, ih]
    cases line with
    | define other => by_cases h : other = label <;> simp [Line.items, defined, h, Nat.add_comm]
    | _ => simp [Line.items, defined]

namespace Program

variable {limit : Nat} {program : Program} {s : State}

/-- **Over all sections together every label is defined at most once.** -/
theorem count_define_le_one (h : program.generate limit = .ok s) (label : Label) :
    s.view.flatten.count (.define label) ≤ 1 := by
  obtain ⟨lines, pieces, m', he, hv, -, -⟩ := generate_emits h
  have hflatten : s.view.flatten =
      Assembly.items s.strings.toList (lines ++ pieces.flatMap Piece.lines) := by
    rw [hv, ← List.flatMap_def, Assembly.items, List.flatMap_append, List.flatMap_assoc]
    rfl
  have hnodup := he.nodup_defined rfl (Assembled.disciplined (.top program.body))
  rw [hflatten, Assembly.count_define]
  exact List.nodup_iff_count.mp hnodup label

/-- **No program fails to compile for a label.** An error comes from the nesting or from a node, and
neither has to do with labels. -/
theorem compile_ne_unresolvedLabel (config : Config) (program : Program) (e : UnresolvedLabel) :
    program.compile config ≠ .error (.unresolvedLabel e) := by
  intro h
  rcases generate_error (generate_of_compile_error h) with hdeep | ⟨site, -, hv⟩
  · cases hdeep
  · cases hv

/-- **Labels are defined once, and where they are used.** Whatever code generation gets through, all
its sections together define every label at most once. A label that a section refers to is defined
once by that section, and so by no other. For this reason compilation never misses a label. -/
theorem labels_exact (program : Program) :
    (∀ limit s, program.generate limit = .ok s →
      (∀ label, s.view.flatten.count (.define label) ≤ 1) ∧
      ∀ items ∈ s.view, ∀ label, .refer label ∈ items →
        items.count (.define label) = 1 ∧ s.view.flatten.count (.define label) = 1) ∧
    ∀ config e, program.compile config ≠ .error (.unresolvedLabel e) := by
  refine ⟨fun limit s h => ⟨count_define_le_one h, fun items hi label hr => ?_⟩,
    fun config => compile_ne_unresolvedLabel config program⟩
  have hhere : 1 ≤ items.count (.define label) :=
    List.one_le_count_iff.mpr (define_mem_of_refer h hi hr)
  have hall : items.count (.define label) ≤ s.view.flatten.count (.define label) :=
    (List.sublist_flatten_of_mem hi).count_le _
  have honce := count_define_le_one h label
  omega

/-- A function in a loop has labels of its own, handed out while those of the loop are in use. -/
theorem labels_exact_nested : ∃ s items,
    generate 10000 ⟨[.whileLoop (.ident "x") (.function none []
      [.logical .and (.ident "x") (.ident "y")])]⟩ = .ok s ∧
    s.view[1]? = some items ∧ .refer ⟨2⟩ ∈ items ∧ items.count (.define ⟨2⟩) = 1 ∧
    s.view.flatten.count (.define ⟨2⟩) = 1 := by
  have hview : (generate 10000 ⟨[.whileLoop (.ident "x") (.function none []
      [.logical .and (.ident "x") (.ident "y")])]⟩).toOption.bind (fun s => s.view[1]?) =
      some [.opcode .pushGlobal, .word 0, .opcode .dup, .opcode .jumpIfFalse, .refer ⟨2⟩,
        .opcode .pop, .opcode .pushGlobal, .word 1, .define ⟨2⟩, .opcode .pop,
        .opcode .pushUndefined, .opcode .ret] := by
    decide +kernel
  cases h : generate 10000 ⟨[.whileLoop (.ident "x") (.function none []
      [.logical .and (.ident "x") (.ident "y")])]⟩ with
  | error e =>
    rw [h] at hview
    cases hview
  | ok s =>
    rw [h] at hview
    refine ⟨s, _, rfl, hview, by decide, ?_⟩
    exact ((labels_exact _).1 _ s h).2 _ (List.mem_of_getElem? hview) ⟨2⟩ (by decide)

end Program

end ScriptCompiler
