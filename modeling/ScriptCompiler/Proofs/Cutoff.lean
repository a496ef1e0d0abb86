import ScriptCompiler.Proofs.Carrying

/-!
# What a lower limit changes

The limit on the nesting is read in one place only, where a step goes one level deeper, and there it
makes the step fail or does nothing. So of two limits the lower one makes code generation fail at
the nesting or has no effect: the state after every step is the same, and so is every other error.

## Main definitions

* `Generator.Limited`: a limit only cuts a step off

## Main results

* `Generator.Limited.bind`, `Generator.Limited.nested`: steps made of such steps are such steps
* `Generator.perform_limited`: carrying out a plan is cut off by a limit, and not changed otherwise
* `Program.limit_cuts_off`: a limit only cuts compilation off
-/

namespace ScriptCompiler

namespace Generator

/-! ## Steps under a limit -/

/-- **A limit only cuts a step off.** Of two limits, the lower one makes the step fail at the
nesting or changes nothing. -/
def Limited {α : Type} (x : Nat → Generator α) : Prop :=
  ∀ ⦃limit limit' : Nat⦄, limit ≤ limit' → ∀ s : State,
    x limit s = .error (.nestingTooDeep limit) ∨ x limit s = x limit' s

namespace Limited

variable {α β : Type}

/-- A step that has nothing to do with the limit. -/
theorem const (x : Generator α) : Limited fun _ => x :=
  fun _ _ _ _ => .inr rfl

theorem bind {x : Nat → Generator α} {f : Nat → α → Generator β} (hx : Limited x)
    (hf : ∀ a, Limited fun limit => f limit a) : Limited fun limit => x limit >>= f limit := by
  intro limit limit' hl s
  simp only [bind_eq]
  rcases hx hl s with h | h
  · exact .inl (by rw [h]; rfl)
  · rw [← h]
    cases x limit s with
    | error e => exact .inr rfl
    | ok r => exact hf r.1 hl r.2

theorem discard {x : Nat → Generator α} (hx : Limited x) :
    Limited fun limit => Functor.discard (x limit) := by
  simp only [discard_eq]
  exact hx.bind fun _ => const _

theorem nested {x : Nat → Generator Unit} (hx : Limited x) :
    Limited fun limit => nested limit (x limit) := by
  intro limit limit' hl s
  simp only [nested_eq]
  by_cases hd : limit ≤ s.depth
  · exact .inl (if_pos hd)
  · rw [if_neg hd, if_neg (by omega)]
    rcases hx hl s.deeper with h | h
    · exact .inl (by rw [h]; rfl)
    · exact .inr (by rw [h])

theorem inSection {x : Nat → Generator Unit} (hx : Limited x) :
    Limited fun limit => inSection (x limit) :=
  (const _).bind fun _ => hx.bind fun _ => const _

theorem inFunction {x : Nat → Generator Unit} (hx : Limited x) (name : Option String)
    (params : List String) : Limited fun limit => inFunction name params (x limit) :=
  inSection ((const _).bind fun _ => (const _).bind fun _ => (const _).bind fun _ =>
    (const _).bind fun _ => hx.bind fun _ => const _)

end Limited

/-! ## Code generation under a limit -/

theorem declareAll_limited (nodes : List Node) : Limited fun limit => declareAll limit nodes := by
  intro limit limit' hl s
  simp only [declareAll_eq, declaring]
  split
  · rw [if_pos (by omega)]
    exact .inr rfl
  · exact .inl rfl

theorem asValue_limited {node : Node} {x : Nat → Generator Unit} (hx : Limited x) :
    Limited fun limit => asValue limit node (x limit) := by
  simp only [asValue]
  split
  · exact hx.nested
  · exact .const _

theorem asStatement_limited {node : Node} {x : Nat → Generator Unit} (hx : Limited x) :
    Limited fun limit => asStatement limit node (x limit) := by
  simp only [asStatement]
  refine Limited.nested ?_
  split
  · exact hx.nested.bind fun _ => .const _
  · exact hx

theorem bodyCode_limited {body : List Node}
    (hw : Limited fun limit => perform limit {} (workPlan body)) :
    Limited fun limit => bodyCode limit body :=
  (declareAll_limited body).bind fun _ => hw.discard

/-- Carrying out a part is cut off by a limit, if carrying out all plans of smaller parts is. -/
theorem performPart_limited {p : Part}
    (smaller : ∀ plan, (∀ q ∈ plan, q.size < p.size) →
      ∀ hand, Limited fun limit => perform limit hand plan)
    (hand : Hand) : Limited fun limit => performPart limit hand p := by
  unfold performPart
  cases p with
  | value node =>
    exact (asValue_limited (smaller _ node.size_plan _).discard).bind fun _ => .const _
  | statement node =>
    exact (asStatement_limited (smaller _ node.size_standingPlan _).discard).bind fun _ => .const _
  | literal r | bind r =>
    have work := bodyCode_limited (smaller _ (size_workPlan r.body) {})
    exact (work.inFunction r.name r.params).bind fun _ => .const _
  | _ => exact .const _

/-- **Carrying out a plan is cut off by a limit, and not changed otherwise.** -/
theorem perform_limited (parts : List Part) (hand : Hand) :
    Limited fun limit => perform limit hand parts := by
  induction parts using Part.induction generalizing hand with
  | nil =>
    simp only [perform_nil]
    exact .const _
  | cons p rest smaller ih =>
    simp only [perform_cons]
    exact (performPart_limited smaller hand).bind fun hand => ih hand

end Generator

namespace Program

theorem performer_limited (program : Program) :
    Generator.Limited fun limit => program.performer limit :=
  .inSection ((Generator.bodyCode_limited (Generator.perform_limited _ {})).bind fun _ => .const _)

theorem performed_limited (program : Program) {limit limit' : Nat} (h : limit ≤ limit') :
    program.performed limit = .error (.nestingTooDeep limit) ∨
      program.performed limit = program.performed limit' := by
  rcases program.performer_limited h {} with hc | hc
  · exact .inl (congrArg (Except.map Prod.snd) hc)
  · exact .inr (congrArg (Except.map Prod.snd) hc)

/-- What compilation gives depends on the limit only through the plan of the program. -/
theorem compile_congr {program : Program} {config config' : Config}
    (h : program.performed config.maxDepth = program.performed config'.maxDepth) :
    program.compile config = program.compile config' := by
  rw [compile_eq, compile_eq, h]

/-- **A limit only cuts compilation off.** Under the lower of two limits a program is nested too
deeply, or the result is the same as under the higher one, be it an image or an error. -/
theorem limit_cuts_off (program : Program) (config config' : Config)
    (h : config.maxDepth ≤ config'.maxDepth) :
    program.compile config = .error (.nestingTooDeep config.maxDepth) ∨
      program.compile config = program.compile config' := by
  rcases program.performed_limited h with hg | hg
  · exact .inl (by rw [compile_eq, hg]; rfl)
  · exact .inr (compile_congr hg)

/-- Under a limit that suffices the error is the one that there is under all higher limits. -/
theorem limit_cuts_off_jump :
    (1 ≤ 3 ∧ compile ⟨1⟩ ⟨[.ident "x", .breakLoop]⟩ = .error (.nestingTooDeep 1)) ∧
      2 ≤ 3 ∧ compile ⟨2⟩ ⟨[.ident "x", .breakLoop]⟩ = compile ⟨3⟩ ⟨[.ident "x", .breakLoop]⟩ := by
  refine ⟨⟨by decide, ?_⟩, by decide, ?_⟩
  · apply (limit_cuts_off ⟨[.ident "x", .breakLoop]⟩ ⟨1⟩ ⟨3⟩ (by decide)).resolve_right
    decide +kernel
  · apply (limit_cuts_off ⟨[.ident "x", .breakLoop]⟩ ⟨2⟩ ⟨3⟩ (by decide)).resolve_left
    decide +kernel

end Program

end ScriptCompiler
