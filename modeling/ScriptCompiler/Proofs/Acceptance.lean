import ScriptCompiler.Proofs.Grammar
import ScriptCompiler.Proofs.Labels

/-!
# What compiles

A program compiles exactly if it is well formed, unless it is nested too deeply. What has lines is
well formed, since the plans of ill-formed constructs come to none. Conversely, carrying out a plan
fails only at a part that a node of the program is behind, and with the error of the rule that the
node breaks.

## Main definitions

* `Backed`: there are nodes behind the parts of a plan
* `Explained`: an error comes from the nesting, or from a node that breaks a rule

## Main results

* `Program.wellFormed_of_compile`: a program that compiles is well formed
* `Generator.perform_error`: carrying out a plan fails only where a node behind it breaks a rule
* `Program.compile_ok_iff_wellFormed`: what compiles, and why a program does not
-/

namespace ScriptCompiler

/-! ## What has code is well formed -/

namespace Emits

open ScriptCompiler.Part

variable {chain : List (List String)} {m m' : Mark} {lines : List Line} {pieces : List Piece}

/-- The jumps of loops have lines only in loops. -/
theorem loops_of_jump {p : Part} {rest : List Part} (hp : p = leave ∨ p = again)
    (h : Emits chain m (p :: rest) lines pieces m') : 0 < m.loops.length := by
  rcases hp with rfl | rfl
  all_goals
    cases h with
    | inner hi => cases hi
    | step hs =>
      cases hs
      rename_i hl _
      rw [hl]
      exact Nat.succ_pos _

/-- A statement that has lines is well formed. -/
theorem wellFormed_of_statementPlan {s : Site} (hr : s.role.isStatement = true)
    (hl : s.inLoop = decide (0 < m.loops.length))
    (h : Emits chain (Mark.inner m) s.node.statementPlan lines pieces m') : s.WellFormed where
  supported _ kind hk := by
    rw [hk] at h
    exact h.fail_notMem _ List.mem_cons_self
  value hv := by
    rw [hv] at hr
    cases hr
  place hp := by
    rw [hp] at hr
    cases hr
  jump hj := by
    rw [hl, decide_eq_true_iff]
    rcases hj with hj | hj
    · rw [hj] at h
      exact loops_of_jump (m := m.inner) (.inl rfl) h
    · rw [hj] at h
      exact loops_of_jump (m := m.inner) (.inr rfl) h

/-- What has lines is well formed, and so is what it assigns to. -/
theorem wellFormed_of_inner {p : Part} {plan : List Part} {entry : Entry} {s : Site}
    (hp : p.Inner plan) (h : Emits chain (Mark.inner m) plan lines pieces m')
    (he : p.entry? m.loops.length = some entry) (hs : s.Matches entry) :
    s.WellFormed ∧ ∀ c ∈ s.inner, c.role = .place → c.WellFormed := by
  refine ⟨?_, fun c hc hr => .of_isPlace hr ?_⟩
  · cases hp with
    | value hx =>
      cases he
      obtain ⟨hr, rfl⟩ := hs
      exact .of_isExpression (by simp [hr]) hx
    | statement =>
      cases he
      obtain ⟨hr, hl, rfl⟩ := hs
      exact wellFormed_of_statementPlan hr hl h
    | bind => cases he
  · -- Had a target been no place, the plan would be a failure and have no lines.
    have hm := hr ▸ Site.mem_children_of_mem_inner hc
    cases hf : s.isFunction with
    | false => exact (entries_of_inner hp h he hs hf).1 c.node hm
    | true =>
      obtain ⟨r, hf⟩ := Option.isSome_iff_exists.mp hf
      rw [Node.children_of_routine? hf] at hm
      simp at hm

/-- A part enters and leaves loops as it says. -/
theorem length_loops {p : Part} (h : Emits chain m [p] lines pieces m') :
    m'.loops.length = (p.loopDepth m.loops.length).getD 0 := by
  cases h with
  | step hs hr =>
    cases hr
    exact (depth_of_step hs).2
  | inner hp hi hr =>
    cases hr
    rw [loopDepth_of_inner hp]
    exact congrArg List.length (hi.loops (disciplined_of_inner hp))
  | literal _ hr =>
    cases hr
    rfl

/-- **What the lines of every construct show of it, and of what it assigns to, the lines of a
segment show of all nodes that stand in its body.** -/
theorem forall_segment {R : List Line → Site → Prop}
    (mono : ∀ {lines lines' : List Line} {s : Site}, lines ⊆ lines' → R lines s → R lines' s)
    (own : ∀ {chain m plan lines pieces m' entry} {p : Part} {s : Site}, p.Inner plan →
      Emits chain (Mark.inner m) plan lines pieces m' → p.entry? m.loops.length = some entry →
      s.Matches entry → R lines s ∧ ∀ c ∈ s.inner, c.role = .place → R lines c)
    {segment : Segment} (h : Emits chain m segment.plan lines pieces m') (hl : m.loops = [])
    {f : Site} (hf : f.Heads segment) : ∀ c ∈ f.inner, ∀ t ∈ c.within, R lines t := by
  intro c hc
  obtain ⟨hb, hr, hloop⟩ := hf.statement hc
  have he : .statement false c.node ∈ entries m.loops.length segment.plan := by
    rw [hl, List.length_nil, segment.entries_plan]
    exact List.mem_map_of_mem hb
  exact h.forall_within (R := R) mono own he ⟨by rw [hr]; rfl, hloop, rfl⟩

/-- The nodes of a segment that has lines are well formed. -/
theorem wellFormed_of_segment {segment : Segment} (h : Emits chain m segment.plan lines pieces m')
    (hl : m.loops = []) {f : Site} (hf : f.Heads segment) :
    ∀ c ∈ f.inner, ∀ t ∈ c.within, t.WellFormed :=
  h.forall_segment (R := fun _ t => t.WellFormed) (fun _ hw => hw) wellFormed_of_inner hl hf

end Emits

/-- **A program that compiles is well formed.** -/
theorem Program.wellFormed_of_compile {config : Config} {program : Program} {image : Image}
    (h : program.compile config = .ok image) : program.WellFormed := by
  refine forall_sites id fun segment hs f hf => ?_
  obtain ⟨id, hid⟩ := List.mem_iff_getElem?.mp hs
  obtain ⟨lines, ha⟩ := (assembled h).2 id segment hid
  obtain ⟨_, _, _, he, -⟩ := ha.emits
  exact he.wellFormed_of_segment rfl hf

/-! ## Nodes behind plans -/

/-- A site of a program stands behind a part, where so many loops are open. -/
def Part.Backed (program : Program) (depth : Nat) : Part → Prop
  | value node => ∃ s ∈ program.sites, s.Matches (.value node)
  | statement node => ∃ s ∈ program.sites, s.Matches (.statement (decide (0 < depth)) node)
  | literal r | bind r => ∃ s ∈ program.sites, s.node.routine? = some r
  | leave => 0 < depth ∨ ∃ s ∈ program.sites, s.Violates (.jumpOutsideLoop "break")
  | again => 0 < depth ∨ ∃ s ∈ program.sites, s.Violates (.jumpOutsideLoop "continue")
  | fail error => ∃ s ∈ program.sites, s.Violates error
  | _ => True

/-- **Sites of a program stand behind the parts of a plan**, where so many loops are open before
it. -/
def Backed (program : Program) (depth : Nat) : List Part → Prop
  | [] => True
  | p :: rest => p.Backed program depth ∧ Backed program ((p.loopDepth depth).getD 0) rest

section Backed

open ScriptCompiler.Part

variable {program : Program} {depth : Nat}

/-- Whether a part holds the code of a node, or is elementary and never without code. -/
def Part.isSound : Part → Bool
  | leave | again | literal _ | bind _ | fail _ => false
  | _ => true

theorem backed_of_entries {parts : List Part} (hs : ∀ p ∈ parts, p.isSound = true)
    (h : ∀ entry ∈ entries depth parts, ∃ s ∈ program.sites, s.Matches entry) :
    Backed program depth parts := by
  induction parts generalizing depth with
  | nil => trivial
  | cons p rest ih =>
    rw [List.forall_mem_cons] at hs
    rw [entries, List.forall_mem_append] at h
    refine ⟨?_, ih hs.2 h.2⟩
    cases p with
    | value | statement => exact h.1 _ List.mem_cons_self
    | leave | again | literal | bind | fail => cases hs.1
    | _ => trivial

theorem backed_of_forall {parts : List Part}
    (h : ∀ p ∈ parts, p.loopDepth depth = some depth ∧ p.Backed program depth) :
    Backed program depth parts := by
  induction parts with
  | nil => trivial
  | cons p rest ih =>
    rw [List.forall_mem_cons] at h
    refine ⟨h.1.2, ?_⟩
    rw [h.1.1]
    exact ih h.2

theorem isSound_sequencePlan (nodes : List Node) :
    ∀ p ∈ Node.sequencePlan nodes, p.isSound = true := by
  fun_induction Node.sequencePlan nodes with
  | case1 => exact List.forall_mem_singleton.mpr rfl
  | case2 => exact List.forall_mem_singleton.mpr rfl
  | case3 node rest _ ih =>
    exact List.forall_mem_cons.mpr ⟨rfl, List.forall_mem_cons.mpr ⟨rfl, ih⟩⟩

/-- Only the jumps of loops, constructs that the language does not have and bad targets may be
without code. -/
theorem Node.isSound_plan {node : Node} (hf : node.routine? = none) (ha : node.Assignable)
    (hj : node ≠ breakLoop ∧ node ≠ continueLoop) (hu : ∀ kind, node ≠ unsupported kind) :
    ∀ p ∈ node.plan, p.isSound = true := by
  cases node with
  | function => cases hf
  | breakLoop => exact absurd rfl hj.1
  | continueLoop => exact absurd rfl hj.2
  | unsupported kind => exact absurd rfl (hu kind)
  | declaration name init => cases init <;> simp [plan, isSound]
  | ret argument => cases argument <;> simp [plan, isSound]
  | ifElse test consequent alternate => cases alternate <;> simp [plan, isSound]
  | forLoop init test step body =>
    cases init <;> cases test <;> cases step <;> simp [plan, isSound]
  | array elements => simp [plan, or_imp, forall_and, isSound]
  | sequence expressions => exact isSound_sequencePlan expressions
  | call callee arguments =>
    obtain ⟨object, property, rfl⟩ | ⟨object, key, rfl⟩ | ⟨hp, hm⟩ := callee.callee_cases
    · simp [plan, calleePlan, or_imp, forall_and, isSound]
    · simp [plan, calleePlan, or_imp, forall_and, isSound]
    · rw [plan, hp]
      simp [or_imp, forall_and, isSound]
  | assign target value | compound operator target value =>
    have ht := ha target List.mem_cons_self
    cases target with
    | ident | member | index => simp [plan, placePlan, isSound]
    | _ => cases ht
  | update operator before target =>
    have ht := ha target List.mem_cons_self
    cases target with
    | ident | member | index => cases before <;> simp [plan, placePlan, isSound]
    | _ => cases ht
  | _ => simp [plan, isSound]

/-- **Sites stand behind the plan of a node**: those of the nodes inside it, or its own if it breaks
a rule. -/
theorem backed_plan {s : Site} (hs : s ∈ program.sites) (hr : s.role ≠ .place)
    (hl : s.node.isExpression = true ∨ s.inLoop = decide (0 < depth)) :
    Backed program depth s.node.plan := by
  by_cases hj : s.node = .breakLoop ∨ s.node = .continueLoop
  · rcases Nat.eq_zero_or_pos depth with rfl | hd
    · have hx : s.node.isExpression = false := by rcases hj with hj | hj <;> rw [hj] <;> rfl
      have hl : s.inLoop = false := hl.resolve_left (by simp [hx])
      rcases hj with hj | hj <;> rw [hj]
      · exact ⟨.inr ⟨s, hs, .breakLoop hj hl⟩, trivial⟩
      · exact ⟨.inr ⟨s, hs, .continueLoop hj hl⟩, trivial⟩
    · rcases hj with hj | hj <;> rw [hj] <;> exact ⟨.inl hd, trivial⟩
  by_cases hu : ∃ kind, s.node = .unsupported kind
  · obtain ⟨kind, hk⟩ := hu
    rw [hk]
    exact ⟨⟨s, hs, .unsupported hr hk⟩, trivial⟩
  by_cases ha : s.node.Assignable
  · cases hf : s.isFunction with
    | true =>
      obtain ⟨r, hf⟩ := Option.isSome_iff_exists.mp hf
      have hp : s.node.plan = [.literal r] := by
        cases hn : s.node <;> rw [hn] at hf <;> cases hf
        rfl
      rw [hp]
      exact ⟨⟨s, hs, hf⟩, trivial⟩
    | false =>
      have hn := Site.routine?_eq_none.mp hf
      refine backed_of_entries (Node.isSound_plan hn ha (not_or.mp hj) (not_exists.mp hu))
        fun entry he => ?_
      rw [Node.entries_plan depth hn ha] at he
      obtain ⟨t, ht, hm⟩ := Site.exists_mem_within_of_mem_entries hf ha hl he
      exact ⟨t, Program.mem_sites_of_mem_all hs (Site.mem_all_of_mem_within ht), hm⟩
  · simp only [Node.Assignable, not_forall, Bool.not_eq_true] at ha
    obtain ⟨target, hm, ht⟩ := ha
    obtain ⟨index, hc⟩ := Site.exists_mem_inner hm
    rw [Node.plan_of_not_isPlace hm ht]
    exact ⟨⟨_, Program.mem_sites_of_mem_all hs (Site.mem_all_of_mem_inner hc), .target rfl ht⟩,
      trivial⟩

/-- A function that has been declared is passed. -/
theorem backed_standingPlan {s : Site} (hs : s ∈ program.sites) (hr : s.role ≠ .place)
    (hl : s.inLoop = decide (0 < depth)) : Backed program depth s.node.standingPlan := by
  rw [Node.standingPlan]
  split
  · exact ⟨trivial, trivial⟩
  · exact backed_plan hs hr (.inr hl)

theorem Node.known_standingPlan (node : Node) : Known 0 node.standingPlan := by
  rw [standingPlan]
  split
  · exact ⟨trivial, trivial⟩
  · exact node.labelled_plan.known

theorem Node.passesOf_standingPlan (node : Node) :
    passesOf node.standingPlan = node.declared.length := by
  have h := node.passesOf_statementPlan
  rw [statementPlan_eq, passesOf_append] at h
  split at h
  · exact h
  · exact h

end Backed

/-- The functions that a statement declares stand in it. -/
theorem Site.exists_mem_within_of_mem_declared {s : Site} {r : Routine} (h : r ∈ s.node.declared) :
    ∃ t ∈ s.within, t.node.routine? = some r := by
  induction s using Site.induction with
  | step s ih =>
    cases hf : s.isFunction with
    | true =>
      refine ⟨s, s.mem_within_self, ?_⟩
      cases hn : s.node with
      | function name params body =>
        rw [hn] at h
        cases name with
        | none => cases h
        | some name =>
          cases List.mem_singleton.mp h
          rfl
      | _ =>
        rw [isFunction, hn] at hf
        cases hf
    | false =>
      rw [Node.declared_eq (routine?_eq_none.mp hf)] at h
      obtain ⟨⟨role, child⟩, hm, h⟩ := List.mem_flatMap.mp h
      obtain ⟨index, hc⟩ := exists_mem_inner hm
      change r ∈ if role.isStatement then child.declared else [] at h
      split at h
      · obtain ⟨t, ht, hr⟩ := ih _ hc h
        exact ⟨t, mem_within.mpr (.inr ⟨hf, _, hc, ht⟩), hr⟩
      · cases h

/-- Sites stand behind the body of a function that a program has, and behind its top level. -/
theorem Site.Heads.backed {program : Program} {f : Site} {segment : Segment}
    (hf : f.Heads segment) (h : ∀ c ∈ f.inner, c ∈ program.sites) :
    Backed program 0 ((declaredIn segment.body).map .bind) ∧
      Backed program 0 (segment.body.map .statement) := by
  have body : ∀ node ∈ segment.body, ∃ s ∈ program.sites, s.Matches (.statement false node) := by
    intro node hm
    obtain ⟨c, hc, hn⟩ := hf.exists_statement hm
    obtain ⟨-, hr, hl⟩ := hf.statement hc
    exact ⟨c, h c hc, by rw [hr]; rfl, hl, hn⟩
  refine ⟨backed_of_forall ?_, backed_of_forall ?_⟩
  · refine List.forall_mem_map.mpr fun r hr => ⟨rfl, ?_⟩
    obtain ⟨node, hm, hr⟩ := List.mem_flatMap.mp hr
    obtain ⟨s, hs, -, -, rfl⟩ := body node hm
    obtain ⟨t, ht, hr⟩ := Site.exists_mem_within_of_mem_declared hr
    exact ⟨t, Program.mem_sites_of_mem_all hs (Site.mem_all_of_mem_within ht), hr⟩
  · exact List.forall_mem_map.mpr fun node hm => ⟨rfl, body node hm⟩

/-! ## Where code generation fails -/

/-- **An error comes from the nesting, or from a node that breaks a rule.** -/
def Explained (limit : Nat) (program : Program) (e : CompileError) : Prop :=
  e = .nestingTooDeep limit ∨ ∃ s ∈ program.sites, s.Violates e

namespace Generator

/-- What gives a result has not failed. -/
theorem ok_ne_error {α ε : Type} {a : α} {e : ε} : (.ok a : Except ε α) ≠ .error e := by
  intro h
  cases h

theorem map_error {α β ε : Type} {x : Except ε α} {f : α → β} {e : ε} (h : x.map f = .error e) :
    x = .error e := by
  cases x with
  | error e' =>
    cases h
    rfl
  | ok a => cases h

theorem bind_error {α β : Type} {x : Generator α} {f : α → Generator β} {s : State}
    {e : CompileError} (h : (x >>= f) s = .error e) :
    x s = .error e ∨ ∃ a s₁, x s = .ok (a, s₁) ∧ f a s₁ = .error e := by
  change (x s).bind (fun r => f r.1 r.2) = _ at h
  cases hx : x s with
  | error e' =>
    rw [hx] at h
    cases h
    exact .inl rfl
  | ok r =>
    rw [hx] at h
    exact .inr ⟨r.1, r.2, rfl, h⟩

/-- Where what comes after cannot fail, what comes before has failed. -/
theorem error_of_bind {α β : Type} {x : Generator α} {f : α → Generator β} {s : State}
    {e : CompileError} (h : (x >>= f) s = .error e) (hf : ∀ a s₁, f a s₁ ≠ .error e) :
    x s = .error e :=
  (bind_error h).resolve_right fun ⟨a, s₁, _, h⟩ => hf a s₁ h

theorem emitLine_ne_error (l : Line) (s : State) (e : CompileError) : emitLine l s ≠ .error e := by
  cases l <;> exact ok_ne_error

theorem nested_error {limit : Nat} {step : Generator Unit} {s : State} {e : CompileError}
    (h : nested limit step s = .error e) :
    e = .nestingTooDeep limit ∨ step s.deeper = .error e := by
  rw [nested_eq] at h
  split at h
  · cases h
    exact .inl rfl
  · cases hs : step s.deeper with
    | error e' =>
      rw [hs] at h
      cases h
      exact .inr rfl
    | ok r =>
      rw [hs] at h
      cases h

theorem bindCallee_ne_error (name : Option String) (s : State) (e : CompileError) :
    bindCallee name s ≠ .error e := by
  cases name <;> exact ok_ne_error

theorem bindArguments_ne_error (position : Nat) (params : List String) (s : State)
    (e : CompileError) : bindArguments position params s ≠ .error e := by
  induction params generalizing s position with
  | nil => exact ok_ne_error
  | cons param rest ih =>
    intro h
    obtain ⟨_, _, -, h⟩ := (bind_error h).resolve_left ok_ne_error
    obtain ⟨_, _, -, h⟩ := (bind_error h).resolve_left ok_ne_error
    exact ih _ _ h

theorem discard_error {α : Type} {x : Generator α} {s : State} {e : CompileError}
    (h : discard x s = .error e) : x s = .error e := by
  rw [discard_eq] at h
  exact error_of_bind h fun _ _ => ok_ne_error

/-- Carrying out a plan fails only where the nesting is too deep, or where a node behind it breaks a
rule, if there are declared functions enough for it to pass and it has the labels that it names. -/
def Fails (limit : Nat) (program : Program) (plan : List Part) : Prop :=
  ∀ hand s e, s.Ready → passesOf plan ≤ hand.pending.length → Known hand.own.length plan →
    Backed program s.loops.length plan → perform limit hand plan s = .error e →
    Explained limit program e

variable {limit : Nat} {program : Program}

theorem asValue_error {node : Node} (hp : Fails limit program node.plan) {hand : Hand} {s : State}
    {e : CompileError} (hs : s.Ready) {depth : Nat} (hb : (Part.value node).Backed program depth)
    (h : asValue limit node (discard (perform limit { pending := hand.pending } node.plan)) s =
      .error e) : Explained limit program e := by
  obtain ⟨t, ht, hr, rfl⟩ := hb
  rw [asValue] at h
  split at h
  case isTrue he =>
    rcases nested_error h with h | h
    · exact .inl h
    · refine hp { pending := hand.pending } _ e hs.deeper ?_ t.node.labelled_plan.known
        (backed_plan ht (by simp [hr]) (.inl he)) (discard_error h)
      rw [passesOf_eq_zero (Node.passes_plan he)]
      exact Nat.zero_le _
  case isFalse he =>
    cases h
    exact .inr ⟨t, ht, Site.violates_of_not_isExpression hr (by simpa using he)⟩

theorem closePending_ne_error {pending : List SectionId} (hd : 0 < pending.length) (s : State)
    (e : CompileError) : closePending pending s ≠ .error e := by
  cases pending with
  | nil => exact absurd hd (Nat.lt_irrefl 0)
  | cons id rest => exact ok_ne_error

theorem asStatement_error {node : Node} (hp : Fails limit program node.standingPlan) {hand : Hand}
    {s : State} {e : CompileError} (hs : s.Ready)
    (hd : node.declared.length ≤ hand.pending.length)
    (hb : (Part.statement node).Backed program s.loops.length)
    (h : asStatement limit node
      (discard (perform limit { pending := hand.pending } node.standingPlan)) s = .error e) :
    Explained limit program e := by
  obtain ⟨t, ht, hr, hl, rfl⟩ := hb
  have standing {s' : State} (hs' : s'.Ready) (he : s'.loops = s.loops)
      (h : discard (perform limit { pending := hand.pending } t.node.standingPlan) s' = .error e) :
      Explained limit program e := by
    refine hp { pending := hand.pending } _ e hs' (t.node.passesOf_standingPlan.symm ▸ hd)
      t.node.known_standingPlan ?_ (discard_error h)
    rw [he]
    exact backed_standingPlan ht (fun hp => by rw [hp] at hr; cases hr) hl
  rcases nested_error h with h | h
  · exact .inl h
  split at h
  case isTrue =>
    have h := error_of_bind h fun _ _ => ok_ne_error
    rcases nested_error h with h | h
    · exact .inl h
    · exact standing hs.deeper.deeper rfl h
  case isFalse => exact standing hs.deeper rfl h

/-- The code of a body fails at the nesting of its declarations, or where that of its declared
functions or its statements does. Binding notes as many functions as the statements pass. -/
theorem bodyCode_error (segment : Segment)
    (smaller : ∀ plan, (∀ q ∈ plan, q.size < sizeOf segment.body) → Fails limit program plan)
    {f : Site} (hf : f.Heads segment) (hS : ∀ c ∈ f.inner, c ∈ program.sites) {s : State}
    {e : CompileError} (hs : s.Ready) (hl : s.loops = [])
    (h : bodyCode limit segment.body s = .error e) : Explained limit program e := by
  obtain ⟨hbinds, hstatements⟩ := hf.backed hS
  have unlabelled : ∀ {parts : List Part}, (∀ p ∈ parts, p.isUnlabelled = true) → Known 0 parts :=
    fun hp => (labelled_of_unlabelled hp).known
  rcases bind_error h with h | ⟨_, s₁, h₁, h⟩
  · exact .inl (declareAll_error segment.body h)
  rw [declareAll_ok segment.body h₁] at h
  have hs₁ : State.Ready { s with
      scopes := s.scopes.declareEach (segment.body.flatMap Node.names) } :=
    ⟨hs.strings, hs.opened, hs.current⟩
  have h := discard_error h
  rw [workPlan, perform_append] at h
  rcases bind_error h with h | ⟨hand, s₂, h₂, h⟩
  · have hz : passesOf ((declaredIn segment.body).map .bind) = 0 :=
      passesOf_eq_zero (by simp [Part.passes])
    refine smaller _ (size_binds segment.body) {} _ e hs₁ (hz ▸ Nat.zero_le _)
      (unlabelled (by simp [Part.isUnlabelled])) ?_ h
    rw [hl]
    exact hbinds
  · obtain ⟨hs₂, -, _, _, he, -⟩ := perform_emitted limit _ hs₁ h₂
    have hpending : passesOf (segment.body.map .statement) ≤ hand.pending.length := by
      rw [passesOf_statements, show hand.pending = _ from he.pending_binds, List.length_append,
        length_starts]
      exact Nat.le_add_left _ _
    have hown : hand.own = [] := he.own (by simp)
    have hloops : s₂.loops = s.loops := he.loops (disciplined_of_straight
      (by simp [Part.Neat, Part.defines, Part.loopDepth]))
    refine smaller _ (size_statements segment.body) hand s₂ e hs₂ hpending ?_ ?_ h
    · rw [hown]
      exact unlabelled (by simp [Part.isUnlabelled])
    · rw [hloops, hl]
      exact hstatements

/-- Compiling a function fails only where its body does, since the prologue and the end of its
section cannot fail. -/
theorem routine_error {r : Routine}
    (smaller : ∀ plan, (∀ q ∈ plan, q.size < sizeOf r.body) → Fails limit program plan) {f : Site}
    (hf : f ∈ program.sites) (hr : f.node.routine? = some r) {s : State} {e : CompileError}
    (hs : s.Ready) (h : routine limit r s = .error e) : Explained limit program e := by
  rw [routine, inFunction_eq] at h
  have h := map_error h
  obtain ⟨_, s₁, h₁, h⟩ := (bind_error h).resolve_left (bindCallee_ne_error _ _ _)
  obtain ⟨_, s₂, h₂, h⟩ := (bind_error h).resolve_left (bindArguments_ne_error _ _ _ _)
  have h := error_of_bind h fun _ _ => ok_ne_error
  obtain ⟨hs₁, hk₁, hc₁, -⟩ := bindCallee_writes (ready_entered hs) rfl (List.prefix_refl _) h₁
  obtain ⟨hs₂, hk₂, -, -⟩ := bindArguments_writes hs₁ hc₁ (List.prefix_refl _) h₂
  refine bodyCode_error (.function [] r) smaller (.function [] hr) (fun c hc => ?_) hs₂
    (hk₂.loops.trans hk₁.loops) h
  exact Program.mem_sites_of_mem_all hf (Site.mem_all_of_mem_inner hc)

theorem ownLabel_ne_error {own : List Label} {index : Nat} (h : index < own.length) (s : State)
    (e : CompileError) : ownLabel own index s ≠ .error e := by
  rw [ownLabel, List.getElem?_eq_getElem h]
  exact ok_ne_error

theorem forM_store_ne_error (name : Option String) (s : State) (e : CompileError) :
    name.forM store s ≠ .error e := by
  cases name with
  | none => exact ok_ne_error
  | some name =>
    change store name s ≠ _
    rw [store_eq]
    exact emitLine_ne_error _ _ _

/-- A part fails only where the nesting is too deep or where a node behind it breaks a rule, if all
plans of smaller parts do. -/
theorem performPart_error {p : Part}
    (smaller : ∀ plan, (∀ q ∈ plan, q.size < p.size) → Fails limit program plan) {s : State}
    {hand : Hand} {e : CompileError} (hs : s.Ready) (hd : p.passes ≤ hand.pending.length)
    (hk : p.Knows hand.own.length) (hb : p.Backed program s.loops.length)
    (h : performPart limit hand p s = .error e) : Explained limit program e := by
  have last : ∀ {α : Type} {x : Generator α} {f : α → Hand},
      (x >>= fun a => (pure (f a) : Generator Hand)) s = .error e → x s = .error e :=
    fun h => error_of_bind h fun _ _ => ok_ne_error
  unfold performPart at h
  cases p with
  | line l => exact absurd (last h) (emitLine_ne_error _ _ _)
  | load name => exact absurd (load_eq name s ▸ last h) (emitLine_ne_error _ _ _)
  | store name => exact absurd (store_eq name s ▸ last h) (emitLine_ne_error _ _ _)
  | fresh | exit | note => cases h
  | define index | jump op index =>
    obtain ⟨_, _, _, h⟩ := (bind_error h).resolve_left (ownLabel_ne_error hk _ _)
    cases h
  | enter next done =>
    obtain ⟨_, _, _, h⟩ := (bind_error h).resolve_left (ownLabel_ne_error hk.1 _ _)
    obtain ⟨_, _, _, h⟩ := (bind_error h).resolve_left (ownLabel_ne_error hk.2 _ _)
    cases h
  | leave | again =>
    have h := last h
    simp only [emitBreak, emitContinue, get_bind] at h
    cases hl : s.loops with
    | nil =>
      rw [hl] at h hb
      cases h
      exact .inr (hb.resolve_left (Nat.lt_irrefl 0))
    | cons loop loops =>
      rw [hl] at h
      cases h
  | value node => exact asValue_error (smaller _ node.size_plan) hs hb (last h)
  | statement node => exact asStatement_error (smaller _ node.size_standingPlan) hs hd hb (last h)
  | pass => exact absurd (last h) (closePending_ne_error hd _ _)
  | literal r =>
    obtain ⟨f, hf, hr⟩ := hb
    refine routine_error smaller hf hr hs ((bind_error h).resolve_right ?_)
    rintro ⟨_, _, _, h⟩
    cases h
  | bind r =>
    obtain ⟨f, hf, hr⟩ := hb
    refine routine_error smaller hf hr hs ((bind_error h).resolve_right ?_)
    rintro ⟨_, _, _, h⟩
    obtain ⟨_, _, _, h⟩ := (bind_error h).resolve_left ok_ne_error
    obtain ⟨_, _, _, h⟩ := (bind_error h).resolve_left (forM_store_ne_error _ _ _)
    cases h
  | fail error =>
    cases h
    exact .inr hb

/-- **Carrying out a plan fails only where the nesting is too deep, or where a node behind it breaks
a rule.** After a part that went well, the lines that it came to say what the mark is. -/
theorem perform_error (limit : Nat) (program : Program) (parts : List Part) :
    Fails limit program parts := by
  induction parts using Part.induction with
  | nil =>
    intro hand s e _ _ _ _ h
    rw [perform_nil] at h
    cases h
  | cons p rest smaller ih =>
    intro hand s e hs hd hk hb h
    rw [passesOf_cons] at hd
    rw [perform_cons] at h
    rcases bind_error h with h | ⟨hand₁, s₁, h₁, h⟩
    · exact performPart_error smaller hs (by omega) hk.1 hb.1 h
    · have hp := performPart_emitted (fun plan _ => perform_emitted limit plan) hs h₁
      obtain ⟨_, _, he, -⟩ := hp.emits
      have hd₁ : passesOf rest ≤ hand₁.pending.length := by
        have hle : hand.pending.length ≤ hand₁.pending.length + passesOf [p] := he.length_pending_le
        rw [passesOf_cons, passesOf_nil] at hle
        omega
      have hk₁ : hand₁.own.length = hand.own.length + p.handsOut := he.own_prefix.2
      have hl₁ : s₁.loops.length = (p.loopDepth s.loops.length).getD 0 := he.length_loops
      exact ih hand₁ s₁ e hp.ready hd₁ (hk₁ ▸ hk.2) (hl₁ ▸ hb.2) h

end Generator

/-! ## Programs -/

namespace Program

/-- Code generation fails only where the nesting is too deep, or where a node breaks a rule. -/
theorem generate_error {limit : Nat} {program : Program} {e : CompileError}
    (h : program.generate limit = .error e) : Explained limit program e := by
  have h : program.performed limit = .error e := by
    rw [performed_eq, h]
    rfl
  have h : program.performer limit {} = .error e := Generator.map_error h
  obtain ⟨_, _, hg, h⟩ := (Generator.bind_error h).resolve_left Generator.ok_ne_error
  cases hg
  have h := Generator.error_of_bind h fun _ _ => Generator.ok_ne_error
  have h := Generator.error_of_bind h fun _ _ => Generator.ok_ne_error
  refine Generator.bodyCode_error (.top program.body)
    (fun plan _ => Generator.perform_error limit program plan) program.heads_root (fun c hc => ?_)
    State.ready_start rfl h
  exact List.mem_flatMap.mpr ⟨c, hc, c.mem_all_self⟩

/-- **What compiles, and why a program does not.** Unless a program is nested too deeply, it
compiles exactly if all its nodes can stand where they stand, and otherwise the error is that of a
node that breaks a rule. -/
theorem compile_ok_iff_wellFormed (config : Config) (program : Program)
    (h : program.compile config ≠ .error (.nestingTooDeep config.maxDepth)) :
    ((∃ image, program.compile config = .ok image) ↔ program.WellFormed) ∧
      ∀ e, program.compile config = .error e → ∃ s ∈ program.sites, s.Violates e := by
  have failure : ∀ e, program.compile config = .error e → ∃ s ∈ program.sites, s.Violates e := by
    intro e he
    rcases generate_error (generate_of_compile_error he) with rfl | hv
    · exact absurd he h
    · exact hv
  refine ⟨⟨fun ⟨image, hc⟩ => wellFormed_of_compile hc, fun wf => ?_⟩, failure⟩
  cases hc : program.compile config with
  | ok image => exact ⟨image, rfl⟩
  | error e =>
    obtain ⟨s, hs, hv⟩ := failure e hc
    exact absurd (wf s hs) hv.not_wellFormed

/-- A jump stands in a loop, but not one in a function in the loop. -/
theorem compile_ok_iff_wellFormed_break :
    (compile {} ⟨[.whileLoop (.ident "x") .breakLoop]⟩ ≠ .error (.nestingTooDeep 10000) ∧
      WellFormed ⟨[.whileLoop (.ident "x") .breakLoop]⟩) ∧
    compile {} ⟨[.whileLoop (.ident "x") (.function none [] [.breakLoop])]⟩ ≠
        .error (.nestingTooDeep 10000) ∧
      ¬ WellFormed ⟨[.whileLoop (.ident "x") (.function none [] [.breakLoop])]⟩ ∧
      ∃ s ∈ sites ⟨[.whileLoop (.ident "x") (.function none [] [.breakLoop])]⟩,
        s.Violates (.jumpOutsideLoop "break") := by
  have hin : ∃ image, compile {} ⟨[.whileLoop (.ident "x") .breakLoop]⟩ = .ok image :=
    ⟨{ sections := [[4, 0, 0, 0, 0, 0, 0, 0, 14, 0, 0, 0, 8, 0, 0, 0, 12, 0, 0, 0, 8, 0, 0, 0,
          12, 0, 0, 0, 0, 0, 0, 0, 0, 0, 0, 0, 1, 0, 0, 0]]
       strings := ["x"] }, by decide +kernel⟩
  have hout : compile {} ⟨[.whileLoop (.ident "x") (.function none [] [.breakLoop])]⟩ =
      .error (.jumpOutsideLoop "break") := by
    decide +kernel
  have hn : compile {} ⟨[.whileLoop (.ident "x") .breakLoop]⟩ ≠ .error (.nestingTooDeep 10000) := by
    obtain ⟨image, h⟩ := hin
    simp [h]
  have hn' : compile {} ⟨[.whileLoop (.ident "x") (.function none [] [.breakLoop])]⟩ ≠
      .error (.nestingTooDeep 10000) := by
    simp [hout]
  obtain ⟨accepts, fails⟩ := compile_ok_iff_wellFormed {} _ hn'
  refine ⟨⟨hn, (compile_ok_iff_wellFormed {} _ hn).1.mp hin⟩, hn', fun wf => ?_, fails _ hout⟩
  obtain ⟨image, h⟩ := accepts.mpr wf
  cases hout.symm.trans h

end Program

end ScriptCompiler
