import ScriptCompiler.Proofs.Carrying

/-!
# Code generation emits what is planned

A run of code generation that succeeds writes the lines of its plan to the current section and
appends the sections of the functions inside. The proof goes part by part: what a part needs is that
all plans of smaller parts are carried out.

## Main definitions

* `Generator.Performs`: carrying out a plan writes its lines and sections

## Main results

* `Generator.routine_emits`: compiling a function writes its sections
* `Generator.perform_emitted`: carrying out a plan writes its lines and sections
* `Program.generate_emits`: the sections of a program are written from its segments
-/

namespace ScriptCompiler

namespace Generator

/-! ## Constructs -/

/-- Carrying out a plan writes its lines and sections. -/
def Performs (limit : Nat) (plan : List Part) : Prop :=
  ∀ ⦃hand hand' : Hand⦄ ⦃s s' : State⦄, s.Ready →
    perform limit hand plan s = .ok (hand', s') → Emitted s hand plan s' hand'

section Constructs

variable {limit : Nat} {node : Node} {s s' : State} {hand : Hand}

theorem asValue_emitted (hp : Performs limit node.plan) (hs : s.Ready)
    (h : asValue limit node (discard (perform limit { pending := hand.pending } node.plan)) s =
      .ok ((), s')) :
    Emitted s hand [.value node] s' hand := by
  rw [asValue] at h
  split at h
  case isTrue he =>
    obtain ⟨s₁, hc, rfl⟩ := nested_ok h
    obtain ⟨hand₁, hc⟩ := discard_ok hc
    have hi := (hp hs.deeper hc).deeper
    have hpending := hi.pending node.notes_plan
    rw [passesOf_eq_zero (Node.passes_plan he), List.drop_zero] at hpending
    have := Emitted.inner (.value he) hi
    rwa [hpending] at this
  case isFalse => cases h

theorem closePending_emitted (hs : s.Ready) {rest : List SectionId}
    (h : closePending hand.pending s = .ok (rest, s')) :
    Emitted s hand [.pass] s' { hand with pending := rest } := by
  cases hp : hand.pending with
  | nil =>
    rw [hp] at h
    cases h
  | cons id rest' =>
    rw [hp] at h
    obtain ⟨_, s₁, h₁, h₂⟩ := bind_ok h
    cases h₂
    obtain ⟨hs', hk, hc, hw⟩ := emitLine_writes (l := .unary .close id) hs h₁
    refine ⟨hs', hc, _, _, .step (.pass hp) ?_, hw⟩
    rw [hk.mark]
    exact .nil

theorem asStatement_emitted (hp : Performs limit node.standingPlan) (hs : s.Ready)
    (h : asStatement limit node
      (discard (perform limit { pending := hand.pending } node.standingPlan)) s = .ok ((), s')) :
    Emitted s hand [.statement node] s'
      { hand with pending := hand.pending.drop node.declared.length } := by
  suffices ∃ hand', Emitted s { pending := hand.pending } node.statementPlan s' hand' by
    obtain ⟨hand', hi⟩ := this
    have hpending := hi.pending node.notes_statementPlan
    rw [Node.passesOf_statementPlan] at hpending
    rw [← hpending]
    exact .inner .statement hi
  obtain ⟨s₁, h₁, rfl⟩ := nested_ok h
  suffices ∃ hand', Emitted s.deeper { pending := hand.pending } node.statementPlan s₁ hand' by
    obtain ⟨hand', hi⟩ := this
    exact ⟨hand', hi.deeper⟩
  rw [Node.statementPlan_eq]
  split at h₁
  case isTrue he =>
    obtain ⟨_, s₂, hn, hpop⟩ := bind_ok h₁
    obtain ⟨s₃, hc, rfl⟩ := nested_ok hn
    obtain ⟨hand', hc⟩ := discard_ok hc
    have hi := (hp hs.deeper.deeper hc).deeper
    rw [if_pos he]
    exact ⟨hand', hi.append hs.deeper (emitted_line hi.ready (.line (.plain .pop)) hpop)⟩
  case isFalse he =>
    obtain ⟨hand', hc⟩ := discard_ok h₁
    rw [if_neg he, List.append_nil]
    exact ⟨hand', hp hs.deeper hc⟩

end Constructs

/-! ## Functions -/

/-- Binding a name to its slot writes one line, with the slot that the name has in the end. -/
theorem bindSlot_writes {s s' : State} (hs : s.Ready) {scope : Scope} {outer : List Scope}
    (hc : s.scopes = ⟨scope :: outer⟩) {name : String} {locals : List String}
    (hl : enlist scope.names name <+: locals) {l : Nat → Line}
    (h : (do let slot ← declare name; emitLine (l (slot.getD 0))) s = .ok ((), s')) :
    s'.Ready ∧ Keeps s s' ∧ s'.scopes = ⟨⟨enlist scope.names name⟩ :: outer⟩ ∧
      Writes s [l (locals.idxOf name)] [] s' := by
  obtain ⟨slot, s₁, hd, h⟩ := bind_ok h
  have hd' : declare name s = .ok (some ((enlist scope.names name).idxOf name),
      { s with scopes := ⟨⟨enlist scope.names name⟩ :: outer⟩ }) := by
    change Except.ok ((s.scopes.declare name).1,
      { s with scopes := (s.scopes.declare name).2 }) = _
    rw [hc, ScopeChain.declare_cons]
  cases hd'.symm.trans hd
  have hs₁ : ({ s with scopes := ⟨⟨enlist scope.names name⟩ :: outer⟩ } : State).Ready :=
    ⟨hs.strings, hs.opened, hs.current⟩
  obtain ⟨hs', hk, hc', hw⟩ := emitLine_writes hs₁ h
  rw [Option.getD_some, ← idxOf_of_isPrefix hl (mem_enlist_self _ _)] at hw
  exact ⟨hs', ⟨hk.labels, hk.loops, hk.size⟩, hc',
    ⟨hw.depth, hw.opened, hw.grows, hw.texts, hw.interned, hw.view⟩⟩

theorem bindCallee_writes {s s' : State} (hs : s.Ready) {scope : Scope} {outer : List Scope}
    (hc : s.scopes = ⟨scope :: outer⟩) {name : Option String} {locals : List String}
    (hl : enlistAll scope.names name.toList <+: locals) (h : bindCallee name s = .ok ((), s')) :
    s'.Ready ∧ Keeps s s' ∧ s'.scopes = ⟨⟨enlistAll scope.names name.toList⟩ :: outer⟩ ∧
      Writes s (name.toList.map fun name => .unary .setCallee (locals.idxOf name)) [] s' := by
  cases name with
  | none =>
    cases h
    exact ⟨hs, ⟨rfl, rfl, rfl⟩, hc, Writes.refl s⟩
  | some name => exact bindSlot_writes hs hc hl (l := fun slot => .unary .setCallee slot) h

theorem bindArguments_writes {s s' : State} (hs : s.Ready) {scope : Scope} {outer : List Scope}
    (hc : s.scopes = ⟨scope :: outer⟩) {position : Nat} {params : List String}
    {locals : List String} (hl : enlistAll scope.names params <+: locals)
    (h : bindArguments position params s = .ok ((), s')) :
    s'.Ready ∧ Keeps s s' ∧ s'.scopes = ⟨⟨enlistAll scope.names params⟩ :: outer⟩ ∧
      Writes s ((params.zipIdx position).map fun (param, position) =>
        .binary .setArgument (locals.idxOf param) position) [] s' := by
  induction params generalizing s scope position with
  | nil =>
    cases h
    exact ⟨hs, ⟨rfl, rfl, rfl⟩, hc, Writes.refl _⟩
  | cons param rest ih =>
    have hb : bindArguments position (param :: rest) = ((declare param >>= fun slot =>
        emitLine (.binary .setArgument (slot.getD 0) position)) >>= fun _ =>
        bindArguments (position + 1) rest) := by
      simp [bindArguments, emitLine]
    rw [hb] at h
    obtain ⟨_, s₁, hb, h⟩ := bind_ok h
    obtain ⟨hs₁, hk, hc₁, hw⟩ := bindSlot_writes hs hc
      ((prefix_enlistAll _ rest).trans hl) (l := fun slot => .binary .setArgument slot position) hb
    obtain ⟨hs', hk', hc', hw'⟩ := ih hs₁ hc₁ hl h
    exact ⟨hs', hk.trans hk', hc', hw.trans hs.current hw'⟩

/-- **The code of a body** is emitted with its plan, once its names are declared. -/
theorem bodyCode_emitted {limit : Nat} {body : List Node} (hp : Performs limit (workPlan body))
    {s s₁ s' : State} (hs : s.Ready) (h : bodyCode limit body s = .ok ((), s₁))
    (hend : emitEnd s₁ = .ok ((), s')) :
    ∃ hand', Emitted { s with scopes := s.scopes.declareEach (body.flatMap Node.names) } {}
      (bodyPlan body) s' hand' := by
  obtain ⟨_, s₂, h₁, h₂⟩ := bind_ok h
  obtain rfl := declareAll_ok body h₁
  obtain ⟨hand', h₂⟩ := discard_ok h₂
  have hr : State.Ready { s with scopes := s.scopes.declareEach (body.flatMap Node.names) } :=
    ⟨hs.strings, hs.opened, hs.current⟩
  have he := hp hr h₂
  refine ⟨hand', he.append hr ?_⟩
  obtain ⟨hs', hk, hc, hw⟩ : s'.Ready ∧ Keeps s₁ s' ∧ s'.scopes = s₁.scopes ∧
      Writes s₁ [.plain .pushUndefined, .plain .ret] [] s' :=
    emit_writes he.ready (fun _ _ => rfl) (by simp [Assembly.texts, Line.text?]) hend
  refine ⟨hs', hc, _, _, ?_, hw⟩
  rw [hk.mark]
  exact Emits.of_lines _ _ [.plain .pushUndefined, .plain .ret]

theorem routine_ok {limit : Nat} {r : Routine} {s s' : State} {id : SectionId}
    (h : routine limit r s = .ok (id, s')) :
    id = s.sections.size ∧ ∃ s₁ s₂ s₃ last, bindCallee r.name (entered s) = .ok ((), s₁) ∧
      bindArguments 0 r.params s₁ = .ok ((), s₂) ∧ bodyCode limit r.body s₂ = .ok ((), s₃) ∧
      emitEnd s₃ = .ok ((), last) ∧ s' = left s last := by
  obtain ⟨hid, last, hf, rfl⟩ := inFunction_eq_ok_iff.mp h
  obtain ⟨_, s₁, h₁, h⟩ := bind_ok hf
  obtain ⟨_, s₂, h₂, h⟩ := bind_ok h
  obtain ⟨_, s₃, h₃, h₄⟩ := bind_ok h
  exact ⟨hid, s₁, s₂, s₃, last, h₁, h₂, h₃, h₄, rfl⟩

theorem ready_entered {s : State} (hs : s.Ready) : (entered s).Ready :=
  ⟨hs.strings, rfl, by simp [entered, State.current, Sections.start, State.view]⟩

/-- What is written in a function is a section more. -/
theorem left_writes {s last : State} {chain : List (List String)} {r : Routine}
    {body : List Line} {inside : List Piece} (h : Writes (entered s) body inside last) :
    Writes s [] (⟨.function chain r, body⟩ :: inside) (left s last) := by
  refine ⟨h.depth, ?_, h.grows, ?_, h.interned, fun strings hp => ?_⟩
  · change last.sections.opened.tail = _
    rw [h.opened]
    rfl
  · exact h.texts
  · have hv : (entered s).view = s.view ++ [[]] := by simp [entered, Sections.start, State.view]
    have hc : (entered s).current = s.view.length := by
      simp [entered, Sections.start, State.current, State.view]
    have hn := (Writes.refl s).view strings (h.grows.trans hp)
    rw [List.map_nil, List.append_nil] at hn
    change last.view = _
    rw [h.view strings hp, hv, hc, modify_append_length, ← hn]
    simp

/-- **The code of a function** goes to a section of its own. -/
theorem routine_emits {limit : Nat} {r : Routine} (hp : Performs limit (workPlan r.body))
    {s s' : State} {id : SectionId} (hs : s.Ready) (h : routine limit r s = .ok (id, s'))
    (hand : Hand) :
    id = s.sections.size ∧ s'.Ready ∧ s'.scopes = s.scopes ∧ ∃ body inside m₁,
      Emits (r.locals :: s.scopes.names) (s.mark hand).inside r.plan body inside m₁ ∧
      s'.mark hand = (s.mark hand).after m₁ ∧
      Writes s [] (⟨.function s.scopes.names r, body⟩ :: inside) s' := by
  obtain ⟨rfl, s₁, s₂, s₃, last, h₁, h₂, h₃, h₄, rfl⟩ := routine_ok h
  have hs₀ := ready_entered hs
  have hlocals : enlistAll (enlistAll (enlistAll [] r.name.toList) r.params)
      (r.body.flatMap Node.names) = r.locals := by
    rw [← enlistAll_append, ← enlistAll_append, enlistAll_nil, Routine.locals, List.append_assoc]
  have hparams : enlistAll (enlistAll [] r.name.toList) r.params <+: r.locals :=
    hlocals ▸ prefix_enlistAll _ _
  obtain ⟨hs₁, hk₁, hc₁, hw₁⟩ :=
    bindCallee_writes hs₀ rfl ((prefix_enlistAll _ r.params).trans hparams) h₁
  obtain ⟨hs₂, hk₂, hc₂, hw₂⟩ := bindArguments_writes hs₁ hc₁ hparams h₂
  obtain ⟨hand', hs₄, hc₄, lines, pieces, he, hw₃⟩ := bodyCode_emitted hp hs₂ h₃ h₄
  have hscopes : s₂.scopes.declareEach (r.body.flatMap Node.names) =
      ⟨⟨r.locals⟩ :: s.scopes.scopes⟩ := by
    rw [hc₂, ScopeChain.declareEach_cons, hlocals]
  simp only [hscopes] at hc₄ he hw₃
  have hm : ({ s₂ with scopes := ⟨⟨r.locals⟩ :: s.scopes.scopes⟩ } : State).mark {} =
      (s.mark hand).inside := by
    have : s₂.mark {} = (entered s).mark {} := (hk₂.mark {}).trans (hk₁.mark {})
    change s₂.mark {} = _
    rw [this]
    simp [entered, Sections.start, Sections.size, State.mark, Mark.inside]
  rw [hm] at he
  have hw : Writes (entered s) (r.prologue ++ lines) pieces last := by
    have hw₃' : Writes s₂ lines pieces last :=
      ⟨hw₃.depth, hw₃.opened, hw₃.grows, hw₃.texts, hw₃.interned, hw₃.view⟩
    exact (hw₁.trans hs₀.current hw₂).trans hs₀.current hw₃'
  have hl : Writes s [] (⟨.function s.scopes.names r, r.prologue ++ lines⟩ :: pieces)
      (left s last) := left_writes hw
  refine ⟨rfl, hl.ready hs hs₄.strings, ?_, r.prologue ++ lines, pieces, last.mark hand',
    (Emits.of_lines _ _ _).append he, rfl, hl⟩
  rw [left, hc₄]
  rfl

theorem literal_emitted {limit : Nat} {r : Routine} (hp : Performs limit (workPlan r.body))
    {s s₁ s' : State} {id : SectionId} (hs : s.Ready) (hand : Hand)
    (h₁ : routine limit r s = .ok (id, s₁)) (h₂ : emitUnary .close id s₁ = .ok ((), s')) :
    Emitted s hand [.literal r] s' hand := by
  obtain ⟨rfl, hs₁, hc₁, body, inside, m₁, he, hm, hw⟩ := routine_emits hp hs h₁ hand
  obtain ⟨hs', hk, hc, hw'⟩ := emitLine_writes (l := .unary .close s.sections.size) hs₁ h₂
  refine ⟨hs', hc.trans hc₁, [.unary .close s.sections.size],
    ⟨.function s.scopes.names r, body⟩ :: inside, ?_, ?_⟩
  · have := Emits.literal (m := s.mark hand) he .nil
    rw [hk.mark, hm]
    rwa [List.append_nil] at this
  · simpa using hw.trans hs.current hw'

theorem forM_store_emitted {s s' : State} (hs : s.Ready) (name : Option String)
    (h : name.forM store s = .ok ((), s')) :
    s'.Ready ∧ Keeps s s' ∧ s'.scopes = s.scopes ∧ Writes s
      (name.toList.map (accessLine .setVariable .setGlobal s.scopes.names)) [] s' := by
  cases name with
  | none =>
    cases h
    exact ⟨hs, ⟨rfl, rfl, rfl⟩, rfl, Writes.refl _⟩
  | some name => exact emitLine_writes hs (store_eq name s ▸ h)

theorem bind_emitted {limit : Nat} {r : Routine} (hp : Performs limit (workPlan r.body))
    {s s₁ s₂ s₃ s' : State} {id : SectionId} (hs : s.Ready) (hand : Hand)
    (h₁ : routine limit r s = .ok (id, s₁)) (h₂ : emitUnary .close id s₁ = .ok ((), s₂))
    (h₃ : r.name.forM store s₂ = .ok ((), s₃)) (h₄ : emitPlain .pop s₃ = .ok ((), s')) :
    Emitted s hand [.bind r] s' { hand with pending := hand.pending ++ [id] } := by
  obtain ⟨rfl, hs₁, hc₁, body, inside, m₁, he, hm, hw₁⟩ :=
    routine_emits hp hs h₁ { pending := hand.pending ++ [id] }
  obtain ⟨hs₂, hk₂, hc₂, hw₂⟩ := emitLine_writes (l := .unary .close s.sections.size) hs₁ h₂
  obtain ⟨hs₃, hk₃, hc₃, hw₃⟩ := forM_store_emitted hs₂ r.name h₃
  obtain ⟨hs', hk₄, hc₄, hw₄⟩ := emitLine_writes (l := .plain .pop) hs₃ h₄
  have hc : s₂.scopes = s.scopes := hc₂.trans hc₁
  have hw := ((hw₁.trans hs.current hw₂).trans hs.current hw₃).trans hs.current hw₄
  have hi : Emitted s { pending := hand.pending } r.bindPlan s'
      { pending := hand.pending ++ [s.sections.size] } := by
    refine ⟨hs', hc₄.trans (hc₃.trans hc), _, _, ?_, hw⟩
    rw [hk₄.mark, hk₃.mark, hk₂.mark, hm, hc]
    have := Emits.step (m := s.mark { pending := hand.pending }) .note (Emits.literal he
      ((Emits.of_stores _ _ r.name.toList).append (Emits.of_lines _ _ [.plain .pop])))
    simp only [List.nil_append, List.cons_append, List.append_nil] at this ⊢
    exact this
  exact .inner .bind hi

theorem ownLabel_ok {own : List Label} {index : Nat} {label : Label} {s s' : State}
    (h : ownLabel own index s = .ok (label, s')) : own[index]? = some label ∧ s' = s := by
  rw [ownLabel] at h
  cases ho : own[index]? with
  | some label' =>
    rw [ho] at h
    cases h
    exact ⟨rfl, rfl⟩
  | none =>
    rw [ho] at h
    cases h

theorem emitBreak_ok {s s' : State} (h : emitBreak s = .ok ((), s')) :
    ∃ loop loops, s.loops = loop :: loops ∧
      emitLine (.jump .jump loop.done) s = .ok ((), s') := by
  rw [emitBreak, get_bind] at h
  cases hl : s.loops with
  | nil =>
    rw [hl] at h
    cases h
  | cons loop loops =>
    rw [hl] at h
    exact ⟨loop, loops, rfl, h⟩

theorem emitContinue_ok {s s' : State} (h : emitContinue s = .ok ((), s')) :
    ∃ loop loops, s.loops = loop :: loops ∧
      emitLine (.jump .jump loop.next) s = .ok ((), s') := by
  rw [emitContinue, get_bind] at h
  cases hl : s.loops with
  | nil =>
    rw [hl] at h
    cases h
  | cons loop loops =>
    rw [hl] at h
    exact ⟨loop, loops, rfl, h⟩

/-- A part writes its lines and sections, if all plans of smaller parts do. -/
theorem performPart_emitted {limit : Nat} {p : Part}
    (smaller : ∀ plan, (∀ q ∈ plan, q.size < p.size) → Performs limit plan) {s s' : State}
    {hand hand' : Hand} (hs : s.Ready) (h : performPart limit hand p s = .ok (hand', s')) :
    Emitted s hand [p] s' hand' := by
  unfold performPart at h
  cases p with
  | line l =>
    obtain ⟨_, s₁, h₁, h₂⟩ := bind_ok h
    cases h₂
    exact emitted_line hs (.line l) h₁
  | load name =>
    obtain ⟨_, s₁, h₁, h₂⟩ := bind_ok h
    cases h₂
    exact emitted_line hs (.load name) (load_eq name s ▸ h₁)
  | store name =>
    obtain ⟨_, s₁, h₁, h₂⟩ := bind_ok h
    cases h₂
    exact emitted_line hs (.store name) (store_eq name s ▸ h₁)
  | fresh =>
    cases h
    refine ⟨⟨hs.strings, hs.opened, hs.current⟩, rfl, [], [], .step .fresh .nil, ?_⟩
    exact { Writes.refl _ with }
  | define index =>
    obtain ⟨label, _, h₁, h₂⟩ := bind_ok h
    obtain ⟨ho, rfl⟩ := ownLabel_ok h₁
    obtain ⟨_, s₁, h₃, h₄⟩ := bind_ok h₂
    cases h₄
    exact emitted_line hs (.define ho) h₃
  | jump op index =>
    obtain ⟨label, _, h₁, h₂⟩ := bind_ok h
    obtain ⟨ho, rfl⟩ := ownLabel_ok h₁
    obtain ⟨_, s₁, h₃, h₄⟩ := bind_ok h₂
    cases h₄
    exact emitted_line hs (.jump ho) h₃
  | enter next done =>
    obtain ⟨label, _, h₁, h₂⟩ := bind_ok h
    obtain ⟨ho, rfl⟩ := ownLabel_ok h₁
    obtain ⟨label', _, h₃, h₄⟩ := bind_ok h₂
    obtain ⟨ho', rfl⟩ := ownLabel_ok h₃
    cases h₄
    refine ⟨⟨hs.strings, hs.opened, hs.current⟩, rfl, [], [], .step (.enter ho ho') .nil, ?_⟩
    exact { Writes.refl _ with }
  | exit =>
    cases h
    refine ⟨⟨hs.strings, hs.opened, hs.current⟩, rfl, [], [], .step .exit .nil, ?_⟩
    exact { Writes.refl _ with }
  | leave =>
    obtain ⟨_, s₁, h₁, h₂⟩ := bind_ok h
    cases h₂
    obtain ⟨loop, loops, hl, h₃⟩ := emitBreak_ok h₁
    exact emitted_line hs (.leave hl) h₃
  | again =>
    obtain ⟨_, s₁, h₁, h₂⟩ := bind_ok h
    cases h₂
    obtain ⟨loop, loops, hl, h₃⟩ := emitContinue_ok h₁
    exact emitted_line hs (.again hl) h₃
  | value node =>
    obtain ⟨_, s₁, h₁, h₂⟩ := bind_ok h
    cases h₂
    exact asValue_emitted (smaller _ node.size_plan) hs h₁
  | statement node =>
    obtain ⟨_, s₁, h₁, h₂⟩ := bind_ok h
    cases h₂
    exact asStatement_emitted (smaller _ node.size_standingPlan) hs h₁
  | pass =>
    obtain ⟨_, s₁, h₁, h₂⟩ := bind_ok h
    cases h₂
    exact closePending_emitted hs h₁
  | note =>
    cases h
    exact ⟨hs, rfl, [], [], .step .note .nil, Writes.refl _⟩
  | literal r =>
    obtain ⟨id, s₁, h₁, h₂⟩ := bind_ok h
    obtain ⟨_, s₂, h₃, h₄⟩ := bind_ok h₂
    cases h₄
    exact literal_emitted (smaller _ (size_workPlan r.body)) hs hand h₁ h₃
  | bind r =>
    obtain ⟨id, s₁, h₁, h₂⟩ := bind_ok h
    obtain ⟨_, s₂, h₃, h₄⟩ := bind_ok h₂
    obtain ⟨_, s₃, h₅, h₆⟩ := bind_ok h₄
    obtain ⟨_, s₄, h₇, h₈⟩ := bind_ok h₆
    cases h₈
    exact bind_emitted (smaller _ (size_workPlan r.body)) hs hand h₁ h₃ h₅ h₇
  | fail error => cases h

/-- **Carrying out a plan** writes its lines and sections. -/
theorem perform_emitted (limit : Nat) (parts : List Part) : Performs limit parts := by
  induction parts using Part.induction with
  | nil =>
    intro hand hand' s s' hs h
    rw [perform_nil] at h
    cases h
    exact .nil hs hand
  | cons p rest smaller ih =>
    intro hand hand' s s' hs h
    rw [perform_cons] at h
    obtain ⟨hand₁, s₁, h₁, h₂⟩ := bind_ok h
    have hp := performPart_emitted smaller hs h₁
    exact hp.append hs (ih hp.ready h₂)

end Generator

/-! ## Programs -/

/-- The point at the start of a program. -/
def Mark.start : Mark := { labels := 0, sections := 1, loops := [], pending := [], own := [] }

/-- The section of a program has a number, which is not needed any more. -/
theorem Program.performer_of_performed {limit : Nat} {program : Program} {s : State}
    (h : program.performed limit = .ok s) : ∃ id, program.performer limit {} = .ok (id, s) := by
  obtain ⟨⟨id, t⟩, hg, rfl⟩ := Generator.map_eq_ok_iff.mp h
  exact ⟨id, hg⟩

/-- **The sections of a program** are written from its plan. -/
theorem Program.performed_emits {limit : Nat} {program : Program} {s : State}
    (h : program.performed limit = .ok s) :
    ∃ lines pieces m', Emits [] .start (bodyPlan program.body) lines pieces m' ∧
      s.view = (⟨.top program.body, lines⟩ :: pieces).map
        (fun piece => Assembly.items s.strings.toList piece.lines) ∧ s.strings.toList.Nodup ∧
      ∀ text, text ∈ s.strings.toList ↔
        text ∈ Assembly.texts (lines ++ pieces.flatMap Piece.lines) := by
  obtain ⟨id, hg⟩ := performer_of_performed h
  obtain ⟨-, s₁, h₁, rfl⟩ := Generator.inSection_ok hg
  obtain ⟨_, s₂, hbody, hend⟩ := Generator.bind_ok h₁
  obtain ⟨hand', hr, -, lines, pieces, he, hw⟩ := Generator.bodyCode_emitted
    (Generator.perform_emitted limit _) State.ready_start hbody hend
  have hc : (ScopeChain.declareEach .empty (program.body.flatMap Node.names)).names = [] := by
    rw [ScopeChain.declareEach_empty]
    rfl
  rw [show _ = [] from hc] at he
  refine ⟨lines, pieces, _, he, ?_, hr.strings.nodup, fun text => ⟨fun ht => ?_, hw.texts text⟩⟩
  · rw [List.map_cons]
    exact hw.view _ (List.prefix_refl _)
  · exact (hw.interned text ht).resolve_left (by simp [StringPool.empty, StringPool.toList])

theorem Program.generate_emits {limit : Nat} {program : Program} {s : State}
    (h : program.generate limit = .ok s) :
    ∃ lines pieces m', Emits [] .start (bodyPlan program.body) lines pieces m' ∧
      s.view = (⟨.top program.body, lines⟩ :: pieces).map
        (fun piece => Assembly.items s.strings.toList piece.lines) ∧ s.strings.toList.Nodup ∧
      ∀ text, text ∈ s.strings.toList ↔
        text ∈ Assembly.texts (lines ++ pieces.flatMap Piece.lines) := by
  have emits := performed_emits (performed_of_generate h)
  exact emits

end ScriptCompiler
