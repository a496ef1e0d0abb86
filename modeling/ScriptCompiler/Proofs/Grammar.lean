import ScriptCompiler.Proofs.Entries

/-!
# The grammar of programs

A program is well formed if every node can stand where it stands: constructs that the language does
not have stand nowhere, some constructs stand only as statements, only names, members and elements
are assigned to, and the jumps of loops stand in loops of their own function. Every way to break a
rule has its error.

In a well-formed program, the functions that a body declares and its function literals are the
functions that stand in it.

## Main definitions

* `Site.WellFormed`, `Program.WellFormed`: a node can stand where it stands, and all nodes of a
  program can
* `Site.Violates`: a node breaks a rule, which is an error
* `Site.functions`: the functions that stand in a function, but not in others inside it

## Main results

* `Site.Violates.not_wellFormed`: where a rule is broken, a node is not well formed
* `Site.map_routine_functions`: the functions that stand in a function are those of its body
* `Program.forall_sites`: what all nodes of the bodies of segments have, all nodes of a program have
-/

namespace ScriptCompiler

namespace Node

/-- Whether a node can stand only as a statement. -/
def isStatementOnly : Node → Bool
  | declaration .. | ret .. | ifElse .. | forLoop .. | whileLoop .. | breakLoop | continueLoop
  | block .. => true
  | _ => false

/-- A node that is no expression stands only as a statement, or the language does not have it. -/
theorem isExpression_eq_false {node : Node} (h : node.isExpression = false) :
    node.isStatementOnly = true ∨ ∃ kind, node = unsupported kind := by
  cases node with
  | unsupported kind => exact .inr ⟨kind, rfl⟩
  | _ => first | exact .inl rfl | cases h

end Node

namespace Site

/-- **A node can stand where it stands.** -/
structure WellFormed (s : Site) : Prop where
  /-- The language has the construct. -/
  supported : s.role ≠ .place → ∀ kind, s.node ≠ .unsupported kind
  /-- Where a value is needed, there is no statement. -/
  value : s.role = .value → s.node.isStatementOnly = false
  /-- What is assigned to is a name, a member or an element. -/
  place : s.role = .place → s.node.isPlace = true
  /-- The jumps of loops stand in loops. -/
  jump : s.node = .breakLoop ∨ s.node = .continueLoop → s.inLoop = true

/-- **A node breaks a rule**, which is an error. -/
inductive Violates (s : Site) : CompileError → Prop
  /-- The language does not have the construct. -/
  | unsupported {kind : String} : s.role ≠ .place → s.node = .unsupported kind →
    Violates s (.unsupportedConstruct kind)
  /-- A statement stands where a value is needed. -/
  | misplaced : s.role = .value → s.node.isStatementOnly = true →
    Violates s (.unsupportedConstruct s.node.kind)
  /-- What is assigned to cannot be. -/
  | target : s.role = .place → s.node.isPlace = false → Violates s (.invalidTarget s.node.kind)
  /-- A jump out of a loop where there is none. -/
  | breakLoop : s.node = .breakLoop → s.inLoop = false → Violates s (.jumpOutsideLoop "break")
  /-- A jump to the next round of a loop where there is none. -/
  | continueLoop : s.node = .continueLoop → s.inLoop = false →
    Violates s (.jumpOutsideLoop "continue")

theorem Violates.not_wellFormed {s : Site} {e : CompileError} (h : s.Violates e) :
    ¬ s.WellFormed := by
  intro wf
  cases h with
  | unsupported hr hn => exact wf.supported hr _ hn
  | misplaced hr hn => exact Bool.noConfusion (hn.symm.trans (wf.value hr))
  | target hr hn => exact Bool.noConfusion (hn.symm.trans (wf.place hr))
  | breakLoop hn hl => exact Bool.noConfusion (hl.symm.trans (wf.jump (.inl hn)))
  | continueLoop hn hl => exact Bool.noConfusion (hl.symm.trans (wf.jump (.inr hn)))

/-- A value that is no expression breaks a rule. -/
theorem violates_of_not_isExpression {s : Site} (hr : s.role = .value)
    (h : s.node.isExpression = false) : s.Violates (.unsupportedConstruct s.node.kind) := by
  rcases Node.isExpression_eq_false h with hs | ⟨kind, hk⟩
  · exact .misplaced hr hs
  · rw [hk]
    exact .unsupported (by simp [hr]) hk

namespace WellFormed

theorem isExpression {s : Site} (h : s.WellFormed) (hr : s.role = .value) :
    s.node.isExpression = true := by
  by_contra he
  exact (violates_of_not_isExpression hr (by simpa using he)).not_wellFormed h

theorem of_isPlace {s : Site} (hr : s.role = .place) (h : s.node.isPlace = true) :
    s.WellFormed where
  supported hn := absurd hr hn
  value hv := by simp [hr] at hv
  place _ := h
  jump hj := by rcases hj with hj | hj <;> simp [hj, Node.isPlace] at h

theorem of_isExpression {s : Site} (hr : s.role ≠ .place) (h : s.node.isExpression = true) :
    s.WellFormed where
  supported _ kind hk := by simp [hk, Node.isExpression] at h
  value _ := by cases hn : s.node <;> first | rfl | (rw [hn] at h; cases h)
  place hp := absurd hp hr
  jump hj := by rcases hj with hj | hj <;> simp [hj, Node.isExpression] at h

theorem assignable {s : Site} (h : ∀ c ∈ s.inner, c.WellFormed) : s.node.Assignable := by
  intro target hm
  obtain ⟨index, hc⟩ := exists_mem_inner hm
  exact (h _ hc).place rfl

end WellFormed

end Site

/-- **A program is well formed** if all its nodes can stand where they stand. -/
def Program.WellFormed (program : Program) : Prop := ∀ s ∈ program.sites, s.WellFormed

/-! ## The functions of a node -/

namespace Node

/-- The functions that a node declares are those of the statements directly inside it. -/
theorem declared_eq {node : Node} (h : node.routine? = none) :
    node.declared = node.children.flatMap fun (role, child) =>
      if role.isStatement then child.declared else [] := by
  cases node with
  | function => cases h
  | declaration name init =>
    cases init <;> simp [declared, declarations, children, Role.isStatement]
  | ret argument => cases argument <;> simp [declared, declarations, children, Role.isStatement]
  | ifElse test consequent alternate =>
    cases alternate <;> simp [declared, declarations, children, Role.isStatement]
  | forLoop init test step body =>
    cases init <;> cases test <;> cases step <;>
      simp [declared, declarations, children, Role.isStatement]
  | block statements =>
    rw [declared, declarations, declarationsAll_eq, List.filterMap_flatMap, children,
      List.flatMap_map]
    rfl
  | call callee arguments =>
    cases hm : callee.isMethod <;>
      simp [declared, declarations, children, hm, List.flatMap_map, Role.isStatement]
  | array | sequence => simp [declared, declarations, children, List.flatMap_map, Role.isStatement]
  | _ => simp [declared, declarations, children, Role.isStatement]

/-- The function literals of a node are those of the nodes directly inside it. -/
theorem literals_eq_flatMap {node : Node} (h : node.routine? = none) (ha : node.Assignable) :
    node.literals = node.children.flatMap fun (role, child) =>
      if role.isStatement then child.ownLiterals else child.literals := by
  cases node with
  | function => cases h
  | declaration name init => cases init <;> simp [literals, children, Role.isStatement]
  | ret argument => cases argument <;> simp [literals, children, Role.isStatement]
  | ifElse test consequent alternate =>
    cases alternate <;> simp [literals, children, Role.isStatement, ownLiterals]
  | forLoop init test step body =>
    cases init <;> cases test <;> cases step <;>
      simp [literals, initLiterals, literalsOptional, children, Role.isStatement, ownLiterals]
  | block statements =>
    rw [literals, statementLiterals_eq, children, List.flatMap_map]
    rfl
  | call callee arguments =>
    cases hm : callee.isMethod <;>
      simp [literals, literalsAll_eq, children, hm, List.flatMap_map, Role.isStatement]
  | array | sequence =>
    simp [literals, literalsAll_eq, children, List.flatMap_map, Role.isStatement]
  | assign target value | compound operator target value =>
    have ht := ha target List.mem_cons_self
    cases target with
    | ident | member | index => simp [literals, children, Role.isStatement]
    | _ => cases ht
  | update operator before target =>
    have ht := ha target List.mem_cons_self
    cases target with
    | ident | member | index => simp [literals, children, Role.isStatement]
    | _ => cases ht
  | _ => simp [literals, children, Role.isStatement, ownLiterals]

end Node

/-! ## The functions of a site -/

namespace Site

/-- Whether a site is that of a function that is declared by name. -/
def isDeclared (s : Site) : Bool := s.role.isStatement && s.node.isDeclaredFunction

/-- Whether a site is that of a function literal. -/
def isLiteral (s : Site) : Bool := s.isFunction && !s.isDeclared

/-- The functions declared by name that stand in a function, but not in others inside it. -/
def declaredFunctions (f : Site) : List Site := (f.inner.flatMap within).filter isDeclared

/-- The function literals that stand in a function, but not in others inside it. -/
def literalFunctions (f : Site) : List Site := (f.inner.flatMap within).filter isLiteral

/-- **The functions that stand in a function**, but not in others inside it, in the order of their
sections: those that are declared by name come first. -/
def functions (f : Site) : List Site := f.declaredFunctions ++ f.literalFunctions

theorem isFunction_of_isDeclared {s : Site} (h : s.isDeclared = true) : s.isFunction = true := by
  rw [isDeclared, Bool.and_eq_true] at h
  rw [isFunction]
  cases hn : s.node with
  | function => rfl
  | _ =>
    rw [hn] at h
    cases h.2

theorem mem_functions {f t : Site} :
    t ∈ f.functions ↔ t.isFunction = true ∧ ∃ c ∈ f.inner, t ∈ c.within := by
  have hf := @isFunction_of_isDeclared t
  simp only [functions, declaredFunctions, literalFunctions, List.mem_append, List.mem_filter,
    List.mem_flatMap, isLiteral, Bool.and_eq_true, Bool.not_eq_true']
  cases hd : t.isDeclared <;> grind

/-- The nodes directly inside a node, without the places where they stand. -/
theorem flatMap_inner {α : Type} (s : Site) (f : Role → Node → List α) :
    (s.inner.flatMap fun t => f t.role t.node) =
      s.node.children.flatMap fun (role, child) => f role child := by
  rw [inner, List.flatMap_map, ← List.zipIdx_map_fst 0 s.node.children, List.flatMap_map]
  simp [child]

/-- The declared functions that stand in a node are those that it declares. -/
theorem map_routine_declared {s : Site} (h : ∀ t ∈ s.within, t.WellFormed) :
    (s.within.filter isDeclared).map (fun t => t.node.routine?) =
      (if s.role.isStatement then s.node.declared else []).map some := by
  induction s using Site.induction with
  | step s ih =>
    rw [within_eq]
    cases hf : s.isFunction with
    | true =>
      obtain ⟨path, owner, role, inLoop, node⟩ := s
      cases node with
      | function name params body =>
        cases hr : role.isStatement <;> cases name <;>
          simp [isDeclared, hr, Node.isDeclaredFunction, Node.declared, Node.declarations,
            Node.routine?]
      | _ => cases hf
    | false =>
      have hn := routine?_eq_none.mp hf
      have inside : ∀ c ∈ s.inner, ∀ t ∈ c.within, t.WellFormed :=
        fun c hc t ht => h t (mem_within.mpr (.inr ⟨hf, c, hc, ht⟩))
      have hs : s.isDeclared = false := by
        by_contra hd
        rw [isFunction_of_isDeclared (by simpa using hd)] at hf
        cases hf
      rw [if_neg Bool.false_ne_true, List.filter_cons_of_neg (by simp [hs]), List.filter_flatMap,
        List.map_flatMap, List.flatMap_congr fun c hc => ih c hc (inside c hc),
        s.flatMap_inner fun role node => (if role.isStatement then node.declared else []).map some,
        ← List.map_flatMap, ← Node.declared_eq hn]
      split
      · rfl
      · next hr =>
        have he : ∀ child ∈ s.node.children, child.1.isStatement = false := by
          intro child hm
          cases hrole : s.role with
          | statement | loopBody => simp [hrole, Role.isStatement] at hr
          | value =>
            have hx := (h s s.mem_within_self).isExpression hrole
            exact Node.isStatement_of_mem_children hx hn hm
          | place =>
            rw [Node.role_of_mem_children_of_isPlace ((h s s.mem_within_self).place hrole) hm]
            rfl
        rw [Node.declared_eq hn, List.flatMap_eq_nil_iff.mpr fun child hm => by simp [he child hm]]

/-- The function literals that stand in a node are its own. -/
theorem map_routine_literals {s : Site} (h : ∀ t ∈ s.within, t.WellFormed) :
    (s.within.filter isLiteral).map (fun t => t.node.routine?) =
      (if s.role.isStatement then s.node.ownLiterals else s.node.literals).map some := by
  induction s using Site.induction with
  | step s ih =>
    rw [within_eq]
    cases hf : s.isFunction with
    | true =>
      obtain ⟨path, owner, role, inLoop, node⟩ := s
      cases node with
      | function name params body =>
        cases hr : role.isStatement <;> cases name <;>
          simp [isLiteral, isFunction, isDeclared, hr, Node.isDeclaredFunction, Node.ownLiterals,
            Node.unlessDeclared, Node.literals, Node.routine?]
      | _ => cases hf
    | false =>
      have hn := routine?_eq_none.mp hf
      have inside : ∀ c ∈ s.inner, ∀ t ∈ c.within, t.WellFormed :=
        fun c hc t ht => h t (mem_within.mpr (.inr ⟨hf, c, hc, ht⟩))
      -- A target that is no place has no code, so its function literals would not count.
      have ha : s.node.Assignable :=
        WellFormed.assignable fun c hc => inside c hc c c.mem_within_self
      have ho : s.node.ownLiterals = s.node.literals := by
        rw [Node.ownLiterals, Node.unlessDeclared, Node.isDeclaredFunction_of_routine? hn,
          if_neg Bool.false_ne_true]
      rw [if_neg Bool.false_ne_true, List.filter_cons_of_neg (by simp [isLiteral, hf]),
        List.filter_flatMap, List.map_flatMap,
        List.flatMap_congr fun c hc => ih c hc (inside c hc),
        s.flatMap_inner fun role node =>
          (if role.isStatement then node.ownLiterals else node.literals).map some,
        ← List.map_flatMap, ← Node.literals_eq_flatMap hn ha, ho, ite_self]

/-- The nodes directly inside a function are its statements. -/
theorem flatMap_inner_of_routine? {α : Type} {f : Site} {r : Routine}
    (hf : f.node.routine? = some r) (g : Role → Node → List α) :
    (f.inner.flatMap fun c => g c.role c.node) = r.body.flatMap (g .statement) := by
  rw [f.flatMap_inner g, Node.children_of_routine? hf, List.flatMap_map]

/-- The functions declared in a function are those that its body declares, in the same order. -/
theorem map_routine_declaredFunctions {f : Site} {r : Routine} (hf : f.node.routine? = some r)
    (h : ∀ c ∈ f.inner, ∀ t ∈ c.within, t.WellFormed) :
    f.declaredFunctions.map (fun t => t.node.routine?) = (declaredIn r.body).map some := by
  rw [declaredFunctions, List.filter_flatMap, List.map_flatMap,
    List.flatMap_congr fun c hc => map_routine_declared (h c hc), ← List.map_flatMap,
    flatMap_inner_of_routine? hf fun role node => if role.isStatement then node.declared else []]
  rfl

/-- The function literals in a function are those of its body, in the same order. -/
theorem map_routine_literalFunctions {f : Site} {r : Routine} (hf : f.node.routine? = some r)
    (h : ∀ c ∈ f.inner, ∀ t ∈ c.within, t.WellFormed) :
    f.literalFunctions.map (fun t => t.node.routine?) = (literalsIn r.body).map some := by
  rw [literalFunctions, List.filter_flatMap, List.map_flatMap,
    List.flatMap_congr fun c hc => map_routine_literals (h c hc), ← List.map_flatMap,
    flatMap_inner_of_routine? hf fun role node =>
      if role.isStatement then node.ownLiterals else node.literals]
  rfl

/-- **The functions that stand in a function are those of its body**, in the same order. -/
theorem map_routine_functions {f : Site} {r : Routine} (hf : f.node.routine? = some r)
    (h : ∀ c ∈ f.inner, ∀ t ∈ c.within, t.WellFormed) :
    f.functions.map (fun t => t.node.routine?) = (functionsIn r.body).map some := by
  rw [functions, List.map_append, map_routine_declaredFunctions hf h,
    map_routine_literalFunctions hf h, functionsIn, List.map_append]

/-! ## Sites and segments -/

/-- **A function is what a segment is compiled from**; for the top level, only its body counts. -/
inductive Heads (f : Site) : Segment → Prop
  | top {r : Routine} : f.node.routine? = some r → Heads f (.top r.body)
  | function {r : Routine} (chain : List (List String)) : f.node.routine? = some r →
    Heads f (.function chain r)

theorem Heads.exists_routine {f : Site} {segment : Segment} (h : f.Heads segment) :
    ∃ r, f.node.routine? = some r ∧ r.body = segment.body := by
  cases h with
  | top hr | function _ hr => exact ⟨_, hr, rfl⟩

theorem Heads.statement {f c : Site} {segment : Segment} (h : f.Heads segment) (hc : c ∈ f.inner) :
    c.node ∈ segment.body ∧ c.role = .statement ∧ c.inLoop = false := by
  obtain ⟨r, hf, hb⟩ := h.exists_routine
  have hfun : f.isFunction = true := by rw [isFunction, hf]; rfl
  obtain ⟨role, node, index, hi, rfl⟩ := mem_inner.mp hc
  have hm := List.mem_of_getElem? hi
  rw [Node.children_of_routine? hf] at hm
  obtain ⟨_, hm, he⟩ := List.mem_map.mp hm
  cases he
  exact ⟨hb ▸ hm, rfl, by simp [child, hfun]⟩

theorem Heads.exists_statement {f : Site} {segment : Segment} (h : f.Heads segment) {node : Node}
    (hm : node ∈ segment.body) : ∃ c ∈ f.inner, c.node = node := by
  obtain ⟨r, hf, hb⟩ := h.exists_routine
  have hm : (.statement, node) ∈ f.node.children := by
    rw [Node.children_of_routine? hf]
    exact List.mem_map_of_mem (hb ▸ hm)
  obtain ⟨index, hc⟩ := exists_mem_inner hm
  exact ⟨_, hc, rfl⟩

end Site

theorem Routine.function_mem_segments {r q : Routine} {outer : List (List String)}
    {segment : Segment} (h : segment ∈ r.segments outer) (hq : q ∈ functionsIn segment.body) :
    .function segment.chain q ∈ r.segments outer := by
  induction hb : sizeOf r.body using Nat.strongRecOn generalizing r outer with
  | _ size ih =>
    rw [segments_eq] at h ⊢
    refine List.mem_cons_of_mem _ (List.mem_flatMap.mpr ?_)
    rcases List.mem_cons.mp h with rfl | h
    · refine ⟨q, hq, ?_⟩
      rw [segments_eq]
      exact List.mem_cons_self
    · obtain ⟨r', hr, hs⟩ := List.mem_flatMap.mp h
      exact ⟨r', hr, ih _ (hb ▸ size_of_mem_functionsIn hr) hs rfl⟩

namespace Program

/-- The functions of a segment have segments of their own. -/
theorem function_mem_segments {program : Program} {q : Routine} {segment : Segment}
    (h : segment ∈ program.segments) (hq : q ∈ functionsIn segment.body) :
    .function segment.chain q ∈ program.segments := by
  refine List.mem_cons_of_mem _ (List.mem_flatMap.mpr ?_)
  rcases List.mem_cons.mp h with rfl | h
  · refine ⟨q, hq, ?_⟩
    rw [Routine.segments_eq]
    exact List.mem_cons_self
  · obtain ⟨r, hr, hs⟩ := List.mem_flatMap.mp h
    exact ⟨r, hr, Routine.function_mem_segments hs hq⟩

theorem heads_root (program : Program) : program.root.Heads (.top program.body) :=
  .top (r := ⟨none, [], program.body⟩) rfl

/-- **What all nodes of the bodies of segments have, all nodes of a program have**, if it makes them
well formed. -/
theorem forall_sites {program : Program} {R : Site → Prop} (wf : ∀ {t}, R t → t.WellFormed)
    (h : ∀ segment ∈ program.segments, ∀ f : Site, f.Heads segment →
      ∀ c ∈ f.inner, ∀ t ∈ c.within, R t) :
    ∀ t ∈ program.sites, R t := by
  -- The functions among the nodes of a body have segments, so that their bodies come next.
  have inside : ∀ (f : Site) (segment : Segment), segment ∈ program.segments →
      f.Heads segment → ∀ c ∈ f.inner, ∀ t ∈ c.within, t.isFunction = true →
        ∃ segment ∈ program.segments, t.Heads segment := by
    rintro f segment hs hf c hc t ht hfun
    obtain ⟨r, hr, hb⟩ := hf.exists_routine
    have hm := List.mem_map_of_mem (f := fun t => t.node.routine?)
      (Site.mem_functions.mpr ⟨hfun, c, hc, ht⟩)
    rw [Site.map_routine_functions hr fun c hc t ht => wf (h segment hs f hf c hc t ht)] at hm
    obtain ⟨q, hq, he⟩ := List.mem_map.mp hm
    exact ⟨_, function_mem_segments hs (hb ▸ hq), .function _ he.symm⟩
  -- From there the induction goes down, into the segment of a function wherever one stands.
  have below : ∀ s : Site, (∀ t ∈ s.within, R t) →
      (∀ t ∈ s.within, t.isFunction = true → ∃ segment ∈ program.segments, t.Heads segment) →
      ∀ t ∈ s.all, R t := by
    intro s
    induction s using Site.induction with
    | step s ih =>
      intro hR hs t ht
      rcases Site.mem_all.mp ht with rfl | ⟨c, hc, ht⟩
      · exact hR t t.mem_within_self
      · cases hf : s.isFunction with
        | true =>
          obtain ⟨segment, hm, hh⟩ := hs s s.mem_within_self hf
          exact ih c hc (h segment hm s hh c hc) (inside s segment hm hh c hc) t ht
        | false =>
          have hw : ∀ u ∈ c.within, u ∈ s.within :=
            fun u hu => Site.mem_within.mpr (.inr ⟨hf, c, hc, hu⟩)
          exact ih c hc (fun u hu => hR u (hw u hu)) (fun u hu => hs u (hw u hu)) t ht
  intro t ht
  obtain ⟨c, hc, ht⟩ := List.mem_flatMap.mp ht
  have hroot : Segment.top program.body ∈ program.segments := List.mem_cons_self
  exact below c (h _ hroot _ program.heads_root c hc)
    (inside _ _ hroot program.heads_root c hc) t ht

end Program

end ScriptCompiler
