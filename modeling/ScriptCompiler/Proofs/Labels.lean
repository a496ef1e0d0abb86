import ScriptCompiler.Proofs.Compilation
import ScriptCompiler.Proofs.Resolution

/-!
# Labels are defined where they are used

A plan names only labels that it has handed out, and it defines every one of them. The jumps of a
section therefore go to labels of the construct that they belong to or of a loop around it, all of
which the section defines, and its layout never misses one: what code generation gets through,
becomes an image.

## Main definitions

* `Labelled`: a plan names labels that it has handed out, and defines all of them

## Main results

* `Emits.mem_defined_of_jump`: the jumps of a section go to labels that it defines
* `Program.define_mem_of_refer`: the labels that a section refers to are defined in it
* `Program.generate_of_compile_error`: only code generation makes compilation fail
-/

namespace ScriptCompiler

namespace Part

/-- How many labels a part hands out. -/
def handsOut : Part → Nat
  | fresh => 1
  | _ => 0

/-- A part names only labels that have been handed out, if so many have. -/
def Knows (count : Nat) : Part → Prop
  | define index | jump _ index => index < count
  | enter next done => next < count ∧ done < count
  | _ => True

end Part

/-- Parts name only labels that have been handed out, where so many have been before. -/
def Known (count : Nat) : List Part → Prop
  | [] => True
  | p :: rest => p.Knows count ∧ Known (count + p.handsOut) rest

/-- How many labels parts hand out. -/
def handedOut (parts : List Part) : Nat := (parts.map Part.handsOut).sum

@[simp] theorem handedOut_cons (p : Part) (rest : List Part) :
    handedOut (p :: rest) = p.handsOut + handedOut rest := by
  simp [handedOut]

/-- **A plan names labels that it has handed out, and defines all of them.** -/
structure Labelled (plan : List Part) : Prop where
  known : Known 0 plan
  defined : ∀ index < handedOut plan, index ∈ plan.flatMap Part.defines

/-! ## Plans are labelled -/

section Plans

open ScriptCompiler.Part

/-- A part that has nothing to do with labels. -/
def Part.isUnlabelled : Part → Bool
  | fresh | define _ | jump .. | enter .. => false
  | _ => true

/-- Parts that have nothing to do with labels are labelled. -/
theorem labelled_of_unlabelled {parts : List Part} (h : ∀ p ∈ parts, p.isUnlabelled = true) :
    Labelled parts := by
  induction parts with
  | nil => exact ⟨trivial, fun _ hi => absurd hi (Nat.not_lt_zero _)⟩
  | cons p rest ih =>
    rw [List.forall_mem_cons] at h
    have hp : p.handsOut = 0 ∧ p.Knows 0 := by
      cases p <;> first | exact ⟨rfl, trivial⟩ | cases h.1
    obtain ⟨hk, hd⟩ := ih h.2
    refine ⟨⟨hp.2, by rw [hp.1]; exact hk⟩, fun index hi => ?_⟩
    rw [handedOut_cons, hp.1, Nat.zero_add] at hi
    exact List.mem_append_right _ (hd index hi)

theorem isUnlabelled_sequencePlan (nodes : List Node) :
    ∀ p ∈ Node.sequencePlan nodes, p.isUnlabelled = true := by
  fun_induction Node.sequencePlan nodes with
  | case1 => exact List.forall_mem_singleton.mpr rfl
  | case2 => exact List.forall_mem_singleton.mpr rfl
  | case3 node rest _ ih =>
    exact List.forall_mem_cons.mpr ⟨rfl, List.forall_mem_cons.mpr ⟨rfl, ih⟩⟩

theorem isUnlabelled_placePlan {use : Place → List Part}
    (hu : ∀ place, ∀ p ∈ use place, p.isUnlabelled = true) (target : Node) :
    ∀ p ∈ target.placePlan use, p.isUnlabelled = true := by
  obtain ⟨name, rfl⟩ | ⟨object, property, rfl⟩ | ⟨object, key, rfl⟩ | hf := target.target_cases
  · exact hu _
  · exact List.forall_mem_cons.mpr ⟨rfl, hu _⟩
  · exact List.forall_mem_cons.mpr ⟨rfl, List.forall_mem_cons.mpr ⟨rfl, hu _⟩⟩
  · rw [hf]
    exact List.forall_mem_singleton.mpr rfl

theorem isUnlabelled_calleePlan (callee : Node) :
    ∀ p ∈ callee.calleePlan, p.isUnlabelled = true := by
  cases callee <;> simp [Node.calleePlan, isUnlabelled]

/-- The plan of a node is labelled. -/
theorem Node.labelled_plan (node : Node) : Labelled node.plan := by
  cases node with
  | ifElse test consequent alternate =>
    cases alternate with
    | none =>
      exact ⟨by simp [plan, Known, Knows, handsOut],
        by simp [plan, handedOut, handsOut, Part.defines]⟩
    | some alternate =>
      refine ⟨by simp [plan, Known, Knows, handsOut], ?_⟩
      simp [plan, handedOut, handsOut, Part.defines]
      omega
  | forLoop init test step body =>
    cases init <;> cases test <;> cases step <;>
      refine ⟨by simp [plan, Known, Knows, handsOut], ?_⟩ <;>
      simp [plan, handedOut, handsOut, Part.defines] <;> omega
  | whileLoop | conditional =>
    refine ⟨by simp [plan, Known, Knows, handsOut], ?_⟩
    simp [plan, handedOut, handsOut, Part.defines]
    omega
  | logical =>
    exact ⟨by simp [plan, Known, Knows, handsOut],
      by simp [plan, handedOut, handsOut, Part.defines]⟩
  | declaration name init =>
    exact labelled_of_unlabelled (by cases init <;> simp [plan, isUnlabelled])
  | ret argument =>
    exact labelled_of_unlabelled (by cases argument <;> simp [plan, isUnlabelled])
  | array elements =>
    exact labelled_of_unlabelled (by simp [plan, isUnlabelled, or_imp, forall_and])
  | call callee arguments =>
    refine labelled_of_unlabelled (List.forall_mem_append.mpr
      ⟨List.forall_mem_append.mpr ⟨isUnlabelled_calleePlan callee, ?_⟩, ?_⟩)
    · simp [isUnlabelled]
    · simp [isUnlabelled]
  | assign target value =>
    rw [plan]
    refine labelled_of_unlabelled (isUnlabelled_placePlan (fun place => ?_) target)
    cases place <;> simp [isUnlabelled]
  | compound operator target value =>
    rw [plan]
    refine labelled_of_unlabelled (isUnlabelled_placePlan (fun place => ?_) target)
    cases place <;> simp [isUnlabelled]
  | update operator before target =>
    rw [plan]
    refine labelled_of_unlabelled (isUnlabelled_placePlan (fun place => ?_) target)
    cases place <;> cases before <;> simp [isUnlabelled]
  | sequence expressions => exact labelled_of_unlabelled (isUnlabelled_sequencePlan expressions)
  | _ => exact labelled_of_unlabelled (by simp [plan, isUnlabelled])

theorem known_append_line {count : Nat} {parts : List Part} (h : Known count parts) (l : Line) :
    Known count (parts ++ [.line l]) := by
  induction parts generalizing count with
  | nil => exact ⟨trivial, trivial⟩
  | cons p rest ih => exact ⟨h.1, ih h.2⟩

theorem Labelled.append_line {parts : List Part} (h : Labelled parts) (l : Line) :
    Labelled (parts ++ [.line l]) := by
  refine ⟨known_append_line h.known l, fun index hi => ?_⟩
  rw [List.flatMap_append]
  exact List.mem_append_left _ (h.defined index (by simpa [handedOut, handsOut] using hi))

theorem Node.labelled_statementPlan (node : Node) : Labelled node.statementPlan := by
  rw [statementPlan]
  split
  · refine Labelled.append_line ?_ _
    split
    · exact labelled_of_unlabelled (by simp [isUnlabelled])
    · exact node.labelled_plan
  · exact node.labelled_plan

/-- **The plans of constructs are labelled.** -/
theorem labelled_of_inner {p : Part} {plan : List Part} (h : p.Inner plan) : Labelled plan := by
  cases h with
  | value => exact Node.labelled_plan _
  | statement => exact Node.labelled_statementPlan _
  | bind =>
    exact labelled_of_unlabelled
      (by simp [Routine.bindPlan, isUnlabelled, or_imp, forall_and])

/-- The plan of a section hands out no labels of its own. -/
theorem Segment.fresh_notMem_plan (segment : Segment) : ∀ p ∈ segment.plan, p ≠ .fresh := by
  cases segment <;>
    simp [plan, Routine.plan, bodyPlan, endPlan, or_imp, forall_and]

end Plans

/-! ## Labels in code -/

/-- The labels of loops. -/
def loopLabels (loops : List Loop) : List Label :=
  loops.flatMap fun loop => [loop.next, loop.done]

namespace Emits

open ScriptCompiler.Part

variable {chain : List (List String)} {m m' : Mark} {parts : List Part} {lines : List Line}
  {pieces : List Piece}

theorem own_of_step {p : Part} {here : List Line} {m₁ : Mark} (h : Step chain m p here m₁) :
    m.own <+: m₁.own ∧ m₁.own.length = m.own.length + p.handsOut := by
  cases h with
  | fresh => exact ⟨List.prefix_append _ _, List.length_append⟩
  | _ => exact ⟨List.prefix_refl _, rfl⟩

/-- The labels of a construct are handed out one after the other. -/
theorem own_prefix (h : Emits chain m parts lines pieces m') :
    m.own <+: m'.own ∧ m'.own.length = m.own.length + handedOut parts := by
  induction h with
  | nil => exact ⟨List.prefix_refl _, rfl⟩
  | step hp _ ih =>
    obtain ⟨hpre, hlen⟩ := own_of_step hp
    exact ⟨hpre.trans ih.1, by rw [ih.2, hlen, handedOut_cons, Nat.add_assoc]⟩
  | @inner _ _ p _ _ _ _ _ _ _ _ hp _ _ _ ih =>
    have hh : p.handsOut = 0 := by cases hp <;> rfl
    exact ⟨ih.1, by rw [ih.2, handedOut_cons, hh, Nat.zero_add]; rfl⟩
  | literal _ _ _ ih => exact ⟨ih.1, by rw [ih.2, handedOut_cons]; simp [handsOut, Mark.after]⟩

/-- The labels that a plan defines are defined in its lines. -/
theorem exists_defined (h : Emits chain m parts lines pieces m') {index : Nat}
    (hi : index ∈ parts.flatMap Part.defines) :
    ∃ label ∈ Assembly.defined lines, m'.own[index]? = some label := by
  induction h with
  | nil => cases hi
  | @step _ m p _ here m₁ _ _ m' hp hr ih =>
    rw [List.flatMap_cons] at hi
    rw [Assembly.defined_append]
    rcases List.mem_append.mp hi with hi | hi
    · cases hp with
      | define ho =>
        cases List.mem_singleton.mp hi
        refine ⟨_, List.mem_append_left _ List.mem_cons_self, ?_⟩
        obtain ⟨more, hmore⟩ := hr.own_prefix.1
        rw [← hmore, List.getElem?_append_left (List.getElem?_eq_some_iff.mp ho).1]
        exact ho
      | _ => cases hi
    · obtain ⟨label, hm, ho⟩ := ih hi
      exact ⟨label, List.mem_append_right _ hm, ho⟩
  | @inner _ _ p _ _ _ _ _ _ _ _ hp _ _ _ ih =>
    have hd : p.defines = [] := by cases hp <;> rfl
    rw [List.flatMap_cons, hd] at hi
    obtain ⟨label, hm, ho⟩ := ih hi
    rw [Assembly.defined_append]
    exact ⟨label, List.mem_append_right _ hm, ho⟩
  | literal _ _ _ ih => exact ih hi

/-- All labels of a construct are defined in its lines, since the plan hands them out. -/
theorem own_subset_defined (h : Emits chain m parts lines pieces m') (hm : m.own = [])
    (hl : Labelled parts) : m'.own ⊆ Assembly.defined lines := by
  intro label ho
  obtain ⟨index, hi⟩ := List.mem_iff_getElem?.mp ho
  have hlt := (List.getElem?_eq_some_iff.mp hi).1
  rw [h.own_prefix.2, hm, List.length_nil, Nat.zero_add] at hlt
  obtain ⟨other, hother, ho'⟩ := h.exists_defined (hl.defined index hlt)
  cases hi.symm.trans ho'
  exact hother

/-- A jump goes to a label of its construct, to one of a loop around it, or to one that is defined
along with it. -/
theorem label_of_jump (h : Emits chain m parts lines pieces m') (hn : ∀ p ∈ parts, p.Neat)
    {op : Opcode} {label : Label} (hj : .jump op label ∈ lines) :
    label ∈ m'.own ∨ label ∈ loopLabels m.loops ∨ label ∈ Assembly.defined lines := by
  induction h with
  | nil => cases hj
  | @step _ m p _ here m₁ _ _ m' hp hr ih =>
    rw [List.forall_mem_cons] at hn
    rw [Assembly.defined_append]
    have hown : m.own ⊆ m'.own := ((own_of_step hp).1.trans hr.own_prefix.1).subset
    rcases List.mem_append.mp hj with hj | hj
    · cases hp with
      | line l =>
        cases List.mem_singleton.mp hj
        cases hn.1
      | load name | store name =>
        rw [List.mem_singleton, accessLine] at hj
        split at hj <;> cases hj
      | jump ho =>
        cases List.mem_singleton.mp hj
        exact .inl (hown (List.mem_of_getElem? ho))
      | leave hl | again hl =>
        cases List.mem_singleton.mp hj
        exact .inr (.inl (by simp [hl, loopLabels]))
      | define | pass => cases List.mem_singleton.mp hj
      | _ => cases hj
    · rcases ih hn.2 hj with ho | hl | hd
      · exact .inl ho
      · cases hp with
        | enter hnext hdone =>
          rcases List.mem_append.mp hl with hl | hl
          · rcases List.mem_cons.mp hl with rfl | hl
            · exact .inl (hown (List.mem_of_getElem? hnext))
            · cases List.mem_singleton.mp hl
              exact .inl (hown (List.mem_of_getElem? hdone))
          · exact .inr (.inl hl)
        | exit =>
          obtain ⟨loop, hm, hl⟩ := List.mem_flatMap.mp hl
          exact .inr (.inl (List.mem_flatMap.mpr ⟨loop, List.mem_of_mem_tail hm, hl⟩))
        | _ => exact .inr (.inl hl)
      · exact .inr (.inr (List.mem_append_right _ hd))
  | @inner _ m p plan here _ m₁ _ _ _ _ hp hi _ ihi ih =>
    rw [List.forall_mem_cons] at hn
    rw [Assembly.defined_append]
    have hp' := disciplined_of_inner hp
    have hl : m₁.loops = m.loops := hi.loops hp'
    rcases List.mem_append.mp hj with hj | hj
    · rcases ihi hp'.neat hj with ho | hl | hd
      · exact .inr (.inr (List.mem_append_left _
          (hi.own_subset_defined rfl (labelled_of_inner hp) ho)))
      · exact .inr (.inl hl)
      · exact .inr (.inr (List.mem_append_left _ hd))
    · rcases ih hn.2 hj with ho | hl' | hd
      · exact .inl ho
      · exact .inr (.inl (hl ▸ hl'))
      · exact .inr (.inr (List.mem_append_right _ hd))
  | literal _ _ _ ih =>
    rw [List.forall_mem_cons] at hn
    rcases List.mem_cons.mp hj with hj | hj
    · cases hj
    · exact ih hn.2 hj

/-- **The jumps of a section go to labels that it defines.** A section starts without labels of its
own, and stands in no loop. -/
theorem mem_defined_of_jump (segment : Segment) (hm : m.own = []) (hl : m.loops = [])
    (h : Emits chain m segment.plan lines pieces m') {op : Opcode} {label : Label}
    (hj : .jump op label ∈ lines) : label ∈ Assembly.defined lines := by
  rcases h.label_of_jump (Assembled.disciplined segment).neat hj with ho | hloop | hd
  · rw [h.own segment.fresh_notMem_plan, hm] at ho
    cases ho
  · rw [hl] at hloop
    cases hloop
  · exact hd

end Emits

/-! ## Layouts -/

theorem Line.refer_mem_items {strings : List String} {line : Line} {label : Label}
    (h : .refer label ∈ line.items strings) : ∃ op, line = .jump op label := by
  cases line with
  | jump op other =>
    simp only [items, List.mem_cons, List.not_mem_nil, or_false, reduceCtorEq, false_or,
      Item.refer.injEq] at h
    exact ⟨op, by rw [h]⟩
  | _ => simp [items] at h

/-! ## Programs -/

namespace Program

/-- **The labels that a section refers to are defined in it.** -/
theorem define_mem_of_refer {limit : Nat} {program : Program} {s : State}
    (h : program.generate limit = .ok s) {items : List Item} (hi : items ∈ s.view) {label : Label}
    (hr : .refer label ∈ items) : .define label ∈ items := by
  obtain ⟨lines, pieces, m', he, hv, -, -⟩ := generate_emits h
  rw [hv] at hi
  obtain ⟨piece, hp, rfl⟩ := List.mem_map.mp hi
  obtain ⟨line, hl, hr⟩ := List.mem_flatMap.mp hr
  obtain ⟨op, rfl⟩ := Line.refer_mem_items hr
  apply Assembly.define_mem_items.mpr
  apply Assembly.mem_defined.mp
  rcases List.mem_cons.mp hp with rfl | hp
  · exact he.mem_defined_of_jump (.top program.body) rfl rfl hl
  · obtain ⟨k, hk⟩ := List.mem_iff_getElem?.mp hp
    obtain ⟨labels, inside, last, he', -⟩ := he.of_piece hk rfl
    exact he'.mem_defined_of_jump _ rfl rfl hl

/-- What code generation gets through can be laid out. -/
theorem exists_finish {limit : Nat} {program : Program} {s : State}
    (h : program.generate limit = .ok s) : ∃ sections, s.sections.finish = .ok sections := by
  refine Layout.exists_mapM ?_
  rintro ⟨items, id⟩ hm
  have hitems : items.toList ∈ s.view := by
    obtain ⟨-, -, hi⟩ := List.mem_zipIdx hm
    exact List.mem_map_of_mem (hi ▸ List.getElem_mem _)
  exact Layout.exists_assemble_iff.mpr fun label hr => define_mem_of_refer h hitems hr

/-- **Only code generation makes compilation fail.** -/
theorem generate_of_compile_error {config : Config} {program : Program} {e : CompileError}
    (h : program.compile config = .error e) : program.generate config.maxDepth = .error e := by
  rw [compile] at h
  cases hg : program.generate config.maxDepth with
  | error e' =>
    rw [hg] at h
    cases h
    rfl
  | ok s =>
    obtain ⟨sections, hf⟩ := exists_finish hg
    simp only [hg, hf, bind, Except.bind, Except.mapError] at h
    cases h

end Program

end ScriptCompiler
