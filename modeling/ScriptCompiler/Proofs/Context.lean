import ScriptCompiler.Program

/-!
# Steps in a context as equations

What a step of code generation does in a context, told by what it does by itself: from which state
it runs, and how the state that it ends in is brought back into the context.

## Main definitions

* `State.deeper`, `State.shallower`: a state one level deeper and one less deep
* `Generator.entered`, `Generator.left`: the states at the start of a function and after it
* `Generator.functionCode`: the code in the section of a function

## Main results

* `Generator.bind_eq`, `Generator.bind_ok`: one step after another
* `Generator.nested_eq`: a step one level deeper
* `Generator.inSection_eq`, `Generator.inFunction_eq`: a step in a section and in a function
-/

namespace ScriptCompiler

namespace State

/-- One level deeper. -/
def deeper (s : State) : State := { s with depth := s.depth + 1 }

/-- One level less deep. -/
def shallower (s : State) : State := { s with depth := s.depth - 1 }

end State

namespace Generator

/-! ## One step after another -/

/-- Of two steps the second runs from where the first ends. -/
theorem bind_eq {α β : Type} (x : Generator α) (f : α → Generator β) (s : State) :
    (x >>= f) s = (x s).bind fun r => f r.1 r.2 := rfl

theorem bind_ok {α β : Type} {x : Generator α} {f : α → Generator β} {s s' : State} {b : β}
    (h : (x >>= f) s = .ok (b, s')) : ∃ a s₁, x s = .ok (a, s₁) ∧ f a s₁ = .ok (b, s') := by
  rw [bind_eq] at h
  cases hx : x s with
  | error e => rw [hx] at h; cases h
  | ok r => rw [hx] at h; exact ⟨r.1, r.2, rfl, h⟩

theorem get_bind {α : Type} (f : State → Generator α) (s : State) :
    ((get : Generator State) >>= f) s = f s s := rfl

theorem discard_eq {α : Type} (x : Generator α) : discard x = (x >>= fun _ => pure ()) := by
  funext s
  rw [bind_eq]
  change (x s).bind (fun r => _) = _
  cases x s <;> rfl

theorem discard_bind {α β : Type} (x : Generator α) (f : α → Generator β) :
    discard (x >>= f) = (x >>= fun a => discard (f a)) := by
  simp only [discard_eq, bind_assoc]

theorem discard_ok {α : Type} {x : Generator α} {s s' : State}
    (h : discard x s = .ok ((), s')) : ∃ a, x s = .ok (a, s') := by
  rw [discard_eq] at h
  obtain ⟨a, s₁, hx, h⟩ := bind_ok h
  cases h
  exact ⟨a, hx⟩

theorem map_eq_ok_iff {ε α β : Type} {x : Except ε α} {g : α → β} {b : β} :
    x.map g = .ok b ↔ ∃ a, x = .ok a ∧ b = g a := by
  cases x <;> simp [Except.map, eq_comm]

/-! ## Steps one level deeper and in loops -/

/-- A step one level deeper fails if there is no level left, and otherwise comes back up. -/
theorem nested_eq (limit : Nat) (step : Generator Unit) (s : State) :
    nested limit step s =
      if limit ≤ s.depth then .error (.nestingTooDeep limit)
      else (step s.deeper).map fun r => ((), r.2.shallower) := by
  rw [nested, get_bind]
  split
  · rfl
  · change (step s.deeper).bind (fun r => _) = _
    cases step s.deeper <;> rfl

theorem nested_eq_ok_iff {limit : Nat} {step : Generator Unit} {s t : State} :
    nested limit step s = .ok ((), t) ↔
      s.depth < limit ∧ ∃ last, step s.deeper = .ok ((), last) ∧ t = last.shallower := by
  rw [nested_eq]
  by_cases hd : limit ≤ s.depth
  · simp [hd, Nat.not_lt.mpr hd]
  · rw [if_neg hd, map_eq_ok_iff]
    constructor
    · rintro ⟨⟨_, last⟩, hl, ht⟩
      cases ht
      exact ⟨Nat.not_le.mp hd, last, hl, rfl⟩
    · rintro ⟨-, last, hl, rfl⟩
      exact ⟨((), last), hl, rfl⟩

theorem nested_ok {limit : Nat} {step : Generator Unit} {s s' : State}
    (h : nested limit step s = .ok ((), s')) :
    ∃ s₁, step s.deeper = .ok ((), s₁) ∧ s' = s₁.shallower :=
  (nested_eq_ok_iff.mp h).2

theorem inLoop_ok {loop : Loop} {step : Generator Unit} {s t : State}
    (h : inLoop loop step s = .ok ((), t)) :
    ∃ last, step { s with loops := loop :: s.loops } = .ok ((), last) ∧
      t = { last with loops := last.loops.tail } := by
  obtain ⟨_, _, h₁, h⟩ := bind_ok h
  cases h₁
  obtain ⟨_, last, h₂, h₃⟩ := bind_ok h
  cases h₃
  exact ⟨last, h₂, rfl⟩

/-! ## Steps in sections -/

/-- A step in a section of its own starts with an empty section and leaves it again. -/
theorem inSection_eq (step : Generator Unit) (s : State) :
    inSection step s = (step { s with sections := s.sections.start.2 }).map fun r =>
      (s.sections.size, { r.2 with sections := r.2.sections.leave.2 }) := by
  change (step { s with sections := s.sections.start.2 }).bind (fun r => _) = _
  cases step { s with sections := s.sections.start.2 } <;> rfl

theorem inSection_ok {step : Generator Unit} {s s' : State} {id : SectionId}
    (h : inSection step s = .ok (id, s')) :
    id = s.sections.size ∧ ∃ s₁, step { s with sections := s.sections.start.2 } = .ok ((), s₁) ∧
      s' = { s₁ with sections := s₁.sections.leave.2 } := by
  rw [inSection_eq, map_eq_ok_iff] at h
  obtain ⟨⟨_, s₁⟩, hs, ht⟩ := h
  cases ht
  exact ⟨rfl, s₁, hs, rfl⟩

/-- The state at the start of a function. -/
def entered (s : State) : State :=
  { s with sections := s.sections.start.2, scopes := s.scopes.push, loops := [] }

/-- The state after a function that ends in the state `last`. -/
def left (s last : State) : State :=
  { last with
    sections := last.sections.leave.2
    scopes := last.scopes.pop.2
    loops := s.loops }

/-- The code in the section of a function. -/
def functionCode (name : Option String) (params : List String) (body : Generator Unit) :
    Generator Unit := do
  bindCallee name
  bindArguments 0 params
  body
  emitEnd

/-- A step inside a function runs from the start of the function, and the context is restored after
it. -/
theorem inFunction_eq (name : Option String) (params : List String) (body : Generator Unit)
    (s : State) :
    inFunction name params body s =
      (functionCode name params body (entered s)).map fun r => (s.sections.size, left s r.2) := by
  let restore : Generator Unit := modify fun last => { last with
    scopes := last.scopes.pop.2
    loops := s.loops }
  have split : (do bindCallee name; bindArguments 0 params; body; emitEnd; restore) =
      (functionCode name params body >>= fun _ => restore) := by
    simp only [functionCode, bind_assoc]
  rw [inFunction, inSection_eq]
  change ((do bindCallee name; bindArguments 0 params; body; emitEnd; restore)
    (entered s)).map _ = _
  rw [split]
  change ((functionCode name params body (entered s)).bind fun _ => _).map _ = _
  cases functionCode name params body (entered s) <;> rfl

theorem inFunction_eq_ok_iff {name : Option String} {params : List String} {body : Generator Unit}
    {s t : State} {id : SectionId} :
    inFunction name params body s = .ok (id, t) ↔
      id = s.sections.size ∧ ∃ last, functionCode name params body (entered s) = .ok ((), last) ∧
        t = left s last := by
  rw [inFunction_eq, map_eq_ok_iff]
  constructor
  · rintro ⟨⟨_, last⟩, hl, ht⟩
    cases ht
    exact ⟨rfl, last, hl, rfl⟩
  · rintro ⟨rfl, last, hl, rfl⟩
    exact ⟨((), last), hl, rfl⟩

end Generator

end ScriptCompiler
