import ScriptCompiler.Proofs.Recording

/-!
# The context is restored

The code of a node is generated in a context: the sections that are open, the scopes and the loops
around the node, and its depth. On the way down to the nodes inside, all of these change. When the
node is done, they are as they were before, and what has been produced until then has only been
added to: the current section has more items at its end, there may be more sections, strings and
labels, and more functions may have been compiled, but nothing that was there has changed.

None of this depends on the state that code generation starts from, or on where the node stands.

## Main definitions

* `Sections.Extends`, `State.Extends`: what was there is still there, and there may be more
* `State.Resumes`: moreover, the scopes are the same again
* `Generator.Adds`: a step only adds to what was there wherever it succeeds
* `Generator.Restores`: a step restores the context wherever it succeeds

## Main results

* `Generator.Restores.inFunction`, `Generator.Restores.closeFunction`: functions restore the context
* `Generator.code_restores`: so does the code of a node
* `Generator.bindFunctions_restores`: so does compiling the functions declared in a statement
* `Generator.context_restored`: values, statements, functions and hoisting restore the context
-/

namespace ScriptCompiler

/-! ## States that have more -/

/-- **Sections with more in them.** The same sections are open. The current section may have more
items at its end, and there may be more sections; all others are unchanged. -/
structure Sections.Extends (a b : Sections) : Prop where
  opened : b.opened = a.opened
  kept : ∀ id items, a.get? id = some items → a.current ≠ some id → b.get? id = some items
  current : ∀ id items, a.get? id = some items → a.current = some id →
    ∃ more, b.get? id = some (items ++ more)

/-- **A state with more in it**, in the same loops and at the same depth: more items, sections,
strings, labels and compiled functions, and more names in the innermost scope. -/
structure State.Extends (s t : State) : Prop where
  sections : s.sections.Extends t.sections
  strings : s.strings.toList <+: t.strings.toList
  names : ∃ more, t.scopes.scopes = s.scopes.scopes.modifyHead fun scope => ⟨scope.names ++ more⟩
  loops : t.loops = s.loops
  labels : s.labels ≤ t.labels
  depth : t.depth = s.depth
  functions : ∀ (path : Path) (id : SectionId), s.functions[path]? = some id →
    t.functions[path]? = some id

/-- **A state in the same context** as another, with more in it. -/
structure State.Resumes (s t : State) : Prop extends State.Extends s t where
  scopes : t.scopes = s.scopes

namespace Sections.Extends

theorem refl (a : Sections) : a.Extends a :=
  ⟨rfl, fun _ _ h _ => h, fun _ items h _ => ⟨#[], by rw [Array.append_empty, h]⟩⟩

theorem trans {a b c : Sections} (h : a.Extends b) (h' : b.Extends c) : a.Extends c := by
  have hc : b.current = a.current := congrArg List.head? h.opened
  refine ⟨h'.opened.trans h.opened, fun id items hi hn => ?_, fun id items hi hn => ?_⟩
  · exact h'.kept id items (h.kept id items hi hn) (hc ▸ hn)
  · obtain ⟨more, hm⟩ := h.current id items hi hn
    obtain ⟨rest, hr⟩ := h'.current id _ hm (hc.trans hn)
    exact ⟨more ++ rest, by rw [hr, Array.append_assoc]⟩

/-- Emitting adds items to the current section, if there is one. -/
theorem emit (items : List Item) (a : Sections) : a.Extends (a.emit items).2 := by
  refine ⟨opened_emit a items, fun id old ho hn => ?_, fun id old ho hn => ?_⟩
  · rw [get?_emit, if_neg hn, ho]
  · refine ⟨items.toArray, ?_⟩
    rw [get?_emit, if_pos hn, ho]
    exact congrArg some (Array.ext' (by simp))

/-- What happens in a section that has just been created leaves all older sections alone. -/
theorem of_start {a b : Sections} (h : a.start.2.Extends b) : a.Extends b.leave.2 := by
  have older : ∀ id items, a.get? id = some items → b.get? id = some items := by
    intro id items hi
    have hlt : id < a.contents.size := (Array.getElem?_eq_some_iff.mp hi).1
    refine h.kept id items ?_ fun hc => ?_
    · simp only [start, get?, Array.getElem?_push, if_neg (Nat.ne_of_lt hlt)]
      exact hi
    · exact Nat.ne_of_gt hlt (Option.some.inj hc)
  refine ⟨?_, fun id items hi _ => older id items hi, fun id items hi _ => ⟨#[], ?_⟩⟩
  · rw [leave, h.opened]
    rfl
  · rw [Array.append_empty]
    exact older id items hi

end Sections.Extends

namespace State

theorem Extends.refl (s : State) : s.Extends s where
  sections := .refl _
  strings := List.prefix_refl _
  names := ⟨[], by cases s.scopes.scopes <;> simp⟩
  loops := rfl
  labels := Nat.le_refl _
  depth := rfl
  functions _ _ h := h

theorem Extends.trans {s t u : State} (h : s.Extends t) (h' : t.Extends u) : s.Extends u where
  sections := h.sections.trans h'.sections
  strings := h.strings.trans h'.strings
  names := by
    obtain ⟨more, hm⟩ := h.names
    obtain ⟨rest, hr⟩ := h'.names
    refine ⟨more ++ rest, ?_⟩
    rw [hr, hm]
    cases s.scopes.scopes <;> simp
  loops := h'.loops.trans h.loops
  labels := Nat.le_trans h.labels h'.labels
  depth := h'.depth.trans h.depth
  functions path id hp := h'.functions path id (h.functions path id hp)

theorem Resumes.refl (s : State) : s.Resumes s := ⟨.refl s, rfl⟩

theorem Resumes.trans {s t u : State} (h : s.Resumes t) (h' : t.Resumes u) : s.Resumes u :=
  ⟨h.toExtends.trans h'.toExtends, h'.scopes.trans h.scopes⟩

/-- A function that had not been compiled before is recorded without harm to the others. -/
theorem Resumes.record {s t : State} (h : s.Resumes t) {path : Path}
    (hp : s.functions[path]? = none) (id : SectionId) :
    s.Resumes (t.withFunctions (t.functions.insert path id)) := by
  refine { h with functions := fun k other hk => ?_ }
  have hne : path ≠ k := by
    rintro rfl
    cases hp.symm.trans hk
  rw [State.withFunctions, Generator.getElem?_insert_of_ne hne]
  exact h.functions k other hk

end State

/-- A string pool only grows at its end. -/
theorem StringPool.prefix_intern (pool : StringPool) (text : String) :
    pool.toList <+: (pool.intern text).2.toList := by
  rw [intern]
  split
  · exact List.prefix_refl _
  · simp [toList]

/-- Declaring names adds to the innermost scope at most. -/
theorem ScopeChain.exists_declareEach_eq (chain : ScopeChain) (names : List String) :
    ∃ more, (chain.declareEach names).scopes =
      chain.scopes.modifyHead fun scope => ⟨scope.names ++ more⟩ := by
  obtain ⟨scopes⟩ := chain
  cases scopes with
  | nil => exact ⟨[], congrArg scopes (declareEach_empty names)⟩
  | cons scope outer =>
    obtain ⟨more, hm⟩ := prefix_enlistAll scope.names names
    exact ⟨more, by rw [declareEach_cons, ← hm]; rfl⟩

theorem State.extends_declareEach (s : State) (names : List String) :
    s.Extends { s with scopes := s.scopes.declareEach names } :=
  { State.Extends.refl s with names := s.scopes.exists_declareEach_eq names }

namespace Generator

variable {α β : Type}

/-- **A step only adds to what was there** wherever it succeeds. -/
def Adds (x : Generator α) : Prop :=
  ∀ ⦃s : State⦄ ⦃a : α⦄ ⦃t : State⦄, x s = .ok (a, t) → s.Extends t

/-- **A step restores the context** wherever it succeeds. -/
def Restores (x : Generator α) : Prop :=
  ∀ ⦃s : State⦄ ⦃a : α⦄ ⦃t : State⦄, x s = .ok (a, t) → s.Resumes t

/-! ## Steps in sequence -/

theorem Restores.adds {x : Generator α} (h : Restores x) : Adds x := fun _ _ _ hx =>
  (h hx).toExtends

theorem Adds.bind {x : Generator α} {f : α → Generator β} (hx : Adds x) (hf : ∀ a, Adds (f a)) :
    Adds (x >>= f) := by
  intro s b t h
  obtain ⟨a, s₁, h₁, h₂⟩ := bind_ok h
  exact (hx h₁).trans (hf a h₂)

namespace Restores

theorem pure (a : α) : Restores (pure a) := by
  intro s b t h
  cases h
  exact .refl s

theorem throw (e : CompileError) : Restores (throw e : Generator α) := by
  intro s a t h
  cases h

theorem bind {x : Generator α} {f : α → Generator β} (hx : Restores x)
    (hf : ∀ a, Restores (f a)) : Restores (x >>= f) := by
  intro s b t h
  obtain ⟨a, s₁, h₁, h₂⟩ := bind_ok h
  exact (hx h₁).trans (hf a h₂)

/-- A step that depends on the state. -/
theorem get {f : State → Generator α} (hf : ∀ s, Restores (f s)) : Restores (get >>= f) :=
  fun s _ _ h => hf s h

end Restores

/-! ## Elementary steps -/

theorem emit_restores (items : List Item) : Restores (emit items) := by
  intro s a t h
  cases h
  exact { State.Resumes.refl s with sections := .emit items _ }

theorem emitString_restores (op : Opcode) (text : String) : Restores (emitString op text) := by
  refine .bind (fun s a t h => ?_) fun position => emit_restores _
  cases h
  exact { State.Resumes.refl s with strings := s.strings.prefix_intern text }

theorem freshLabel_restores : Restores freshLabel := by
  intro s a t h
  cases h
  exact { State.Resumes.refl s with labels := Nat.le_succ _ }

theorem load_restores (name : String) : Restores (load name) := by
  refine .get fun s => ?_
  cases s.scopes.address? name with
  | none => exact emitString_restores _ _
  | some address => exact emit_restores _

theorem store_restores (name : String) : Restores (store name) := by
  refine .get fun s => ?_
  cases s.scopes.address? name with
  | none => exact emitString_restores _ _
  | some address => exact emit_restores _

theorem emitBreak_restores : Restores emitBreak := by
  refine .get fun s => ?_
  cases s.loops with
  | nil => exact .throw _
  | cons loop outer => exact emit_restores _

theorem emitContinue_restores : Restores emitContinue := by
  refine .get fun s => ?_
  cases s.loops with
  | nil => exact .throw _
  | cons loop outer => exact emit_restores _

theorem declare_adds (name : String) : Adds (declare name) := by
  intro s slot t h
  cases h
  exact s.extends_declareEach [name]

theorem declareAll_adds (limit : Nat) (nodes : List Node) : Adds (declareAll limit nodes) := by
  intro s _ t h
  rw [declareAll_ok nodes h]
  exact s.extends_declareEach _

/-! ## Places -/

theorem fetch_restores (place : Place) : Restores place.fetch := by
  cases place with
  | ident name => exact load_restores name
  | member property => exact (emit_restores _).bind fun _ => emitString_restores _ _
  | index => exact (emit_restores _).bind fun _ => emit_restores _

theorem placeStore_restores (place : Place) : Restores place.store := by
  cases place with
  | ident name => exact store_restores name
  | member property => exact emitString_restores _ _
  | index => exact emit_restores _

theorem keepOld_restores (place : Place) : Restores place.keepOld := by
  cases place <;> exact emit_restores _

theorem recallOld_restores (place : Place) : Restores place.recallOld := by
  cases place with
  | ident name => exact emit_restores _
  | member | index => exact (emit_restores _).bind fun _ => emit_restores _

theorem update_restores (op : Opcode) (before : Bool) (place : Place) :
    Restores (place.update op before) := by
  cases before with
  | true =>
    exact (fetch_restores place).bind fun _ => (emit_restores _).bind fun _ =>
      placeStore_restores place
  | false =>
    exact (fetch_restores place).bind fun _ => (keepOld_restores place).bind fun _ =>
      (emit_restores _).bind fun _ => (placeStore_restores place).bind fun _ =>
        recallOld_restores place

/-! ## Steps in a context -/

namespace Restores

theorem nested {x : Generator Unit} (hx : Restores x) (limit : Nat) :
    Restores (nested limit x) := by
  intro s a t h
  obtain ⟨last, hl, rfl⟩ := nested_ok h
  have hr := hx hl
  exact { hr with depth := by rw [State.shallower, hr.depth]; rfl }

theorem inLoop {x : Generator Unit} (hx : Restores x) (loop : Loop) :
    Restores (inLoop loop x) := by
  intro s a t h
  obtain ⟨last, hl, rfl⟩ := inLoop_ok h
  have hr := hx hl
  exact { hr with loops := congrArg List.tail hr.loops }

end Restores

theorem bindCallee_adds (name : Option String) : Adds (bindCallee name) := by
  cases name with
  | none => exact (Restores.pure ()).adds
  | some name => exact (declare_adds name).bind fun _ => (emit_restores _).adds

theorem bindArguments_adds (position : Nat) (params : List String) :
    Adds (bindArguments position params) := by
  induction params generalizing position with
  | nil => exact (Restores.pure ()).adds
  | cons param rest ih =>
    exact (declare_adds param).bind fun _ => (emit_restores _).adds.bind fun _ => ih _

/-- **A function restores the context**, if its body only adds to the scope and the section of the
function. -/
theorem Restores.inFunction {body : Generator Unit} (hb : Adds body) (name : Option String)
    (params : List String) : Restores (inFunction name params body) := by
  intro s id t h
  obtain ⟨-, last, hl, rfl⟩ := inFunction_eq_ok_iff.mp h
  have code : Adds (functionCode name params body) :=
    (bindCallee_adds name).bind fun _ => (bindArguments_adds 0 params).bind fun _ =>
      hb.bind fun _ => (emit_restores _).adds
  have he := code hl
  have scopes : (left s last).scopes = s.scopes := by
    obtain ⟨more, hm⟩ := he.names
    exact congrArg (ScopeChain.mk ∘ List.tail) hm
  exact {
    sections := he.sections.of_start
    strings := he.strings
    names := by rw [scopes]; exact (State.Extends.refl s).names
    loops := rfl
    labels := he.labels
    depth := he.depth
    functions := he.functions
    scopes }

/-- A closure over a function restores the context, whether the function has been compiled before or
is compiled and recorded now. -/
theorem Restores.closeFunction {path : Path} {compile : Generator SectionId}
    {bind : Generator Unit} (hc : Restores compile) (hb : Restores bind) :
    Restores (closeFunction path compile bind) := by
  intro s _ t h
  rcases closeFunction_ok h with ⟨id, -, h⟩ | ⟨hp, id, s₁, h₁, h⟩
  · exact emit_restores _ h
  · have after : Restores (emitUnary .close id >>= fun _ => bind) :=
      (emit_restores _).bind fun _ => hb
    exact ((hc h₁).record hp id).trans (after h)

section Nodes

variable {limit : Nat} {node : Node} {x : Generator Unit}

theorem asValue_restores (hx : Restores x) : Restores (asValue limit node x) := by
  rw [asValue]
  split
  · exact hx.nested limit
  · exact .throw _

theorem asStatement_restores (hx : Restores x) : Restores (asStatement limit node x) := by
  rw [asStatement]
  refine Restores.nested ?_ limit
  split
  · exact (hx.nested limit).bind fun _ => emit_restores _
  · exact hx

/-- A body declares its names, and otherwise restores the context of its function. -/
theorem body_adds {path : Path} {body : List Node} (hb : Restores (bindAll limit path 0 body))
    (hs : Restores (statements limit path 0 body)) :
    Adds (do declareAll limit body; bindAll limit path 0 body; statements limit path 0 body) :=
  (declareAll_adds limit body).bind fun _ => hb.adds.bind fun _ => hs.adds

end Nodes

/-! ## Nodes -/

mutual

/-- **The code of a node restores the context.** -/
theorem code_restores (limit : Nat) (path : Path) (node : Node) :
    Restores (code limit path node) := by
  cases node with
  | declaration name init =>
    exact optionalValue_restores limit _ (.pure ())
      ((store_restores name).bind fun _ => emit_restores _) init
  | function name params body =>
    have body :=
      body_adds (bindAll_restores limit path 0 body) (statements_restores limit path 0 body)
    exact .closeFunction (.inFunction body name params) (.pure ())
  | ret argument =>
    exact (optionalValue_restores limit _ (emit_restores _) (.pure ()) argument).bind fun _ =>
      emit_restores _
  | ifElse test consequent alternate =>
    exact freshLabel_restores.bind fun otherwise =>
      (asValue_restores (code_restores limit _ test)).bind fun _ => (emit_restores _).bind fun _ =>
        (asStatement_restores (code_restores limit _ consequent)).bind fun _ =>
          elseBranch_restores limit _ otherwise alternate
  | forLoop init test update body =>
    exact (optionalStatement_restores limit _ init).bind fun _ =>
      freshLabel_restores.bind fun _ => freshLabel_restores.bind fun _ =>
      freshLabel_restores.bind fun _ => (emit_restores _).bind fun _ =>
        (optionalValue_restores limit _ (.pure ()) (emit_restores _) test).bind fun _ =>
          Restores.inLoop ((asStatement_restores (code_restores limit _ body)).bind fun _ =>
            (emit_restores _).bind fun _ =>
            (optionalValue_restores limit _ (.pure ()) (emit_restores _) update).bind fun _ =>
              (emit_restores _).bind fun _ => emit_restores _) _
  | whileLoop test body =>
    exact freshLabel_restores.bind fun _ => freshLabel_restores.bind fun _ =>
      (emit_restores _).bind fun _ => (asValue_restores (code_restores limit _ test)).bind fun _ =>
        (emit_restores _).bind fun _ =>
          Restores.inLoop ((asStatement_restores (code_restores limit _ body)).bind fun _ =>
            (emit_restores _).bind fun _ => emit_restores _) _
  | breakLoop => exact emitBreak_restores
  | continueLoop => exact emitContinue_restores
  | block body => exact statements_restores limit path 0 body
  | ident name => exact load_restores name
  | string value => exact emitString_restores _ _
  | number | boolean | null | undefined => exact emit_restores _
  | array elements => exact (values_restores limit path 0 elements).bind fun _ => emit_restores _
  | member object property =>
    exact (asValue_restores (code_restores limit _ object)).bind fun _ => emitString_restores _ _
  | index object key =>
    exact (asValue_restores (code_restores limit _ object)).bind fun _ =>
      (asValue_restores (code_restores limit _ key)).bind fun _ => emit_restores _
  | call callee arguments =>
    rw [code]
    split
    · exact (method_restores limit path callee).bind fun _ =>
        (values_restores limit path 2 arguments).bind fun _ => emit_restores _
    · exact (asValue_restores (code_restores limit _ callee)).bind fun _ =>
        (values_restores limit path 2 arguments).bind fun _ => emit_restores _
  | assign target value =>
    exact (reach_restores limit path target).bind fun place =>
      (asValue_restores (code_restores limit _ value)).bind fun _ => placeStore_restores place
  | binary operator left right =>
    exact (asValue_restores (code_restores limit _ left)).bind fun _ =>
      (asValue_restores (code_restores limit _ right)).bind fun _ => emit_restores _
  | compound operator target value =>
    exact (reach_restores limit path target).bind fun place => (fetch_restores place).bind fun _ =>
      (asValue_restores (code_restores limit _ value)).bind fun _ => (emit_restores _).bind fun _ =>
        placeStore_restores place
  | logical operator left right =>
    exact freshLabel_restores.bind fun _ =>
      (asValue_restores (code_restores limit _ left)).bind fun _ =>
        (emit_restores _).bind fun _ => (emit_restores _).bind fun _ => (emit_restores _).bind
          fun _ => (asValue_restores (code_restores limit _ right)).bind fun _ => emit_restores _
  | unary operator argument =>
    exact (asValue_restores (code_restores limit _ argument)).bind fun _ => emit_restores _
  | update operator before target =>
    exact (reach_restores limit path target).bind fun place => update_restores _ before place
  | conditional test consequent alternate =>
    exact freshLabel_restores.bind fun _ => freshLabel_restores.bind fun _ =>
      (asValue_restores (code_restores limit _ test)).bind fun _ => (emit_restores _).bind fun _ =>
        (asValue_restores (code_restores limit _ consequent)).bind fun _ =>
          (emit_restores _).bind fun _ => (emit_restores _).bind fun _ =>
            (asValue_restores (code_restores limit _ alternate)).bind fun _ => emit_restores _
  | sequence expressions => exact sequence_restores limit path 0 expressions
  | unsupported kind => exact .throw _

theorem optionalValue_restores (limit : Nat) (path : Path) {absent present : Generator Unit}
    (ha : Restores absent) (hp : Restores present) (node : Option Node) :
    Restores (optionalValue limit path absent present node) := by
  cases node with
  | none => exact ha
  | some node => exact (asValue_restores (code_restores limit _ node)).bind fun _ => hp

theorem optionalStatement_restores (limit : Nat) (path : Path) (node : Option Node) :
    Restores (optionalStatement limit path node) := by
  cases node with
  | none => exact .pure ()
  | some node => exact asStatement_restores (code_restores limit _ node)

theorem elseBranch_restores (limit : Nat) (path : Path) (otherwise : Label) (node : Option Node) :
    Restores (elseBranch limit path otherwise node) := by
  cases node with
  | none => exact emit_restores _
  | some node =>
    exact freshLabel_restores.bind fun _ => (emit_restores _).bind fun _ =>
      (emit_restores _).bind fun _ =>
        (asStatement_restores (code_restores limit _ node)).bind fun _ => emit_restores _

theorem method_restores (limit : Nat) (path : Path) (callee : Node) :
    Restores (method limit path callee) := by
  cases callee with
  | member object property =>
    exact (asValue_restores (code_restores limit _ object)).bind fun _ => emitString_restores _ _
  | index object key =>
    exact (asValue_restores (code_restores limit _ object)).bind fun _ =>
      asValue_restores (code_restores limit _ key)
  | _ => exact .pure ()

theorem reach_restores (limit : Nat) (path : Path) (target : Node) :
    Restores (reach limit path target) := by
  cases target with
  | ident name => exact .pure _
  | member object property =>
    exact (asValue_restores (code_restores limit _ object)).bind fun _ => .pure _
  | index object key =>
    exact (asValue_restores (code_restores limit _ object)).bind fun _ =>
      (asValue_restores (code_restores limit _ key)).bind fun _ => .pure _
  | _ => exact .throw _

theorem values_restores (limit : Nat) (path : Path) (position : Nat) (nodes : List Node) :
    Restores (values limit path position nodes) := by
  cases nodes with
  | nil => exact .pure ()
  | cons node rest =>
    exact (asValue_restores (code_restores limit _ node)).bind fun _ =>
      values_restores limit path _ rest

theorem sequence_restores (limit : Nat) (path : Path) (position : Nat) (nodes : List Node) :
    Restores (sequence limit path position nodes) := by
  cases nodes with
  | nil => exact emit_restores _
  | cons node rest =>
    cases rest with
    | nil => exact asValue_restores (code_restores limit _ node)
    | cons next more =>
      exact (asValue_restores (code_restores limit _ node)).bind fun _ =>
        (emit_restores _).bind fun _ => sequence_restores limit path _ (next :: more)

theorem statements_restores (limit : Nat) (path : Path) (position : Nat) (nodes : List Node) :
    Restores (statements limit path position nodes) := by
  cases nodes with
  | nil => exact .pure ()
  | cons node rest =>
    exact (asStatement_restores (code_restores limit _ node)).bind fun _ =>
      statements_restores limit path _ rest

/-- **Compiling the functions declared in a statement restores the context.** -/
theorem bindFunctions_restores (limit : Nat) (path : Path) (node : Node) :
    Restores (bindFunctions limit path node) := by
  cases node with
  | function name params body =>
    cases name with
    | none => exact .pure ()
    | some name =>
      have body :=
        body_adds (bindAll_restores limit path 0 body) (statements_restores limit path 0 body)
      exact .closeFunction (.inFunction body (some name) params)
        ((store_restores name).bind fun _ => emit_restores _)
  | block body => exact bindAll_restores limit path 0 body
  | ifElse test consequent alternate =>
    exact (bindFunctions_restores limit _ consequent).bind fun _ =>
      bindOptional_restores limit _ alternate
  | forLoop init test update body =>
    exact (bindOptional_restores limit _ init).bind fun _ => bindFunctions_restores limit _ body
  | whileLoop test body => exact bindFunctions_restores limit _ body
  | _ => exact .pure ()

theorem bindOptional_restores (limit : Nat) (path : Path) (node : Option Node) :
    Restores (bindOptional limit path node) := by
  cases node with
  | none => exact .pure ()
  | some node => exact bindFunctions_restores limit path node

theorem bindAll_restores (limit : Nat) (path : Path) (position : Nat) (nodes : List Node) :
    Restores (bindAll limit path position nodes) := by
  cases nodes with
  | nil => exact .pure ()
  | cons node rest =>
    exact (bindFunctions_restores limit _ node).bind fun _ => bindAll_restores limit path _ rest

end

/-- **Code generation restores the context.** From any state and wherever a node stands, the code of
the node as a value or as a statement, the code of the node by itself and with it that of a
function, and compiling the functions that a statement declares resume the context: the same
sections, scopes and loops are open, at the same depth, and all else, the record of compiled
functions included, has only been added to. So does hoisting, which declares the names of statements
and compiles their functions, but for names that it adds to the innermost scope. -/
theorem context_restored (limit : Nat) (path : Path) (s t : State) :
    (∀ node, asValue limit node (code limit path node) s = .ok ((), t) → s.Resumes t) ∧
    (∀ node, asStatement limit node (code limit path node) s = .ok ((), t) → s.Resumes t) ∧
    (∀ node, code limit path node s = .ok ((), t) → s.Resumes t) ∧
    (∀ node, bindFunctions limit path node s = .ok ((), t) → s.Resumes t) ∧
    ∀ position body, (do declareAll limit body; bindAll limit path position body) s = .ok ((), t) →
      s.Extends t := by
  refine ⟨fun node h => ?_, fun node h => ?_, fun node h => ?_, fun node h => ?_,
    fun position body h => ?_⟩
  · exact asValue_restores (code_restores limit path node) h
  · exact asStatement_restores (code_restores limit path node) h
  · exact code_restores limit path node h
  · exact bindFunctions_restores limit path node h
  · have hoist : Adds (do declareAll limit body; bindAll limit path position body) :=
      (declareAll_adds limit body).bind fun _ => (bindAll_restores limit path position body).adds
    exact hoist h

/-- A step of whose result something is found out succeeds. -/
theorem exists_of_any {x : Generator α} {s : State} {p : α × State → Bool}
    (h : (x s).toOption.any p = true) : ∃ a t, x s = .ok (a, t) ∧ p (a, t) = true := by
  cases hx : x s with
  | error e =>
    rw [hx] at h
    cases h
  | ok r =>
    rw [hx] at h
    exact ⟨r.1, r.2, rfl, h⟩

/-- Inside a function at `[7]`, hoisting a name and two functions extends the scope by all three and
records the sections of the functions. When the statements come to the second function, its section
is known, and a closure over it is all that is added. A loop with another function in it, which
takes a section of its own, is left as if it had not been entered. -/
theorem context_restored_in_function :
    let s := entered { sections := Sections.empty.start.2, depth := 2 }
    let first := .function (some "f") ["a"] [.ret (some (.ident "x"))]
    let second := .function (some "g") [] []
    let body := [.declaration "x" none, first, second]
    let loop := .whileLoop (.ident "y") (.block [.breakLoop, .function none [] []])
    ∃ t u v,
      ((do declareAll 9 body; bindAll 9 [7] 0 body) s = .ok ((), t) ∧ s.Extends t ∧
        t.scopes = ⟨[⟨["x", "f", "g"]⟩]⟩ ∧ t.functions.toList = [([1, 7], 2), ([2, 7], 3)]) ∧
      (asStatement 9 second (code 9 [2, 7] second) t = .ok ((), u) ∧ t.Resumes u ∧
        u.sections.get? 1 =
          (t.sections.get? 1).map (· ++ #[.opcode .close, .word 3, .opcode .pop])) ∧
      asStatement 9 loop (code 9 [3, 7] loop) u = .ok ((), v) ∧ u.Resumes v ∧
        v.functions.toList = [([1, 1, 3, 7], 4), ([1, 7], 2), ([2, 7], 3)] := by
  intro s first second body loop
  let hoist : Generator Unit := do declareAll 9 body; bindAll 9 [7] 0 body
  let met := asStatement 9 second (code 9 [2, 7] second)
  let looped := asStatement 9 loop (code 9 [3, 7] loop)
  obtain ⟨_, t, ht, h⟩ := exists_of_any (x := hoist) (s := s) (p := fun (_, t) =>
    t.scopes = ⟨[⟨["x", "f", "g"]⟩]⟩ ∧ t.functions.toList = [([1, 7], 2), ([2, 7], 3)] ∧
      (met t).toOption.any fun (_, u) =>
        u.sections.get? 1 =
          (t.sections.get? 1).map (· ++ #[.opcode .close, .word 3, .opcode .pop]) ∧
        (looped u).toOption.any fun (_, v) =>
          v.functions.toList = [([1, 1, 3, 7], 4), ([1, 7], 2), ([2, 7], 3)])
    (by decide +kernel)
  obtain ⟨names, record, h⟩ := of_decide_eq_true h
  obtain ⟨_, u, hu, h⟩ := exists_of_any (x := met) h
  obtain ⟨items, h⟩ := of_decide_eq_true h
  obtain ⟨_, v, hv, h⟩ := exists_of_any (x := looped) h
  exact ⟨t, u, v,
    ⟨ht, (context_restored 9 [7] s t).2.2.2.2 0 body ht, names, record⟩,
    ⟨hu, (context_restored 9 [2, 7] t u).2.1 second hu, items⟩,
    hv, (context_restored 9 [3, 7] u v).2.1 loop hv, of_decide_eq_true h⟩

end Generator

end ScriptCompiler
