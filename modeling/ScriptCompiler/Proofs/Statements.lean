import ScriptCompiler.Proofs.Expressions

/-!
# The code of statements

The machine follows the evaluator through the code of a statement. A statement that ends normally
leaves the machine at the end of its code with an empty stack; one that leaves a loop or goes on
with its next round, at the label of the loop; and one that returns, nowhere. Where the evaluator
runs out of rounds, the machine goes on for as many steps.

## Main definitions

* `Follows`: what the machine does where the evaluator comes to a result
* `StatementSim`: the machine follows the evaluator through the code of a statement

## Main results

* `follows_loop`: a loop is followed, if its test, its body and its step are
* `Node.valueSim`, `Node.statementSim`: the code of every expression leaves its value, and the
  machine follows the evaluator through the code of every statement
-/

namespace ScriptCompiler

open Machine

variable {Store Value : Type}

/-- **What the machine does where the evaluator comes to a result**, in the code of a statement that
ends at `last` and has `loops` around it. -/
def Follows (R : Runtime Store Value) (fetch : Nat → Option (Command × Nat))
    (target : Label → Nat) (rounds : Nat) (s : Machine.State Store Value) (last : Nat)
    (loops : List Loop) : Option (Outcome Value × Store) → Prop
  | none => GoesOn R fetch rounds s
  | some (.normal, store) => ∃ temporary, Reaches R fetch s ⟨last, [], temporary, store⟩
  | some (.broke, store) => ∃ loop outer temporary, loops = loop :: outer ∧
    Reaches R fetch s ⟨target loop.done, [], temporary, store⟩
  | some (.continued, store) => ∃ loop outer temporary, loops = loop :: outer ∧
    Reaches R fetch s ⟨target loop.next, [], temporary, store⟩
  | some (.returned value, store) => Returns R fetch s value store

/-- **The machine follows the evaluator** through the code of a statement, wherever the code is. -/
def StatementSim (R : Runtime Store Value) (fetch : Nat → Option (Command × Nat))
    (target : Label → Nat) (node : Node) : Prop :=
  ∀ chain m offset last m' rounds (temporary : Option Value) store, m.own = [] →
    Located fetch target chain m node.statementPlan offset last m' →
    Follows R fetch target rounds ⟨offset, [], temporary, store⟩ last m.loops
      (R.exec chain rounds node m.sections m.pending store)

section Following

variable {R : Runtime Store Value} {fetch : Nat → Option (Command × Nat)} {target : Label → Nat}
  {rounds last : Nat} {loops : List Loop} {s s' : Machine.State Store Value}
  {result : Option (Outcome Value × Store)}

theorem Follows.of_advances {steps : Nat} (h : Advances R fetch steps s s')
    (hf : Follows R fetch target rounds s' last loops result) :
    Follows R fetch target (steps + rounds) s last loops result := by
  match result with
  | none => exact GoesOn.of_advances h hf
  | some (.normal, _) =>
    obtain ⟨temporary, hf⟩ := hf
    exact ⟨temporary, h.reaches.trans hf⟩
  | some (.broke, _) | some (.continued, _) =>
    obtain ⟨loop, outer, temporary, rfl, hf⟩ := hf
    exact ⟨loop, outer, temporary, rfl, h.reaches.trans hf⟩
  | some (.returned _, _) => exact Returns.of_reaches h.reaches hf

theorem Follows.of_reaches (h : Reaches R fetch s s')
    (hf : Follows R fetch target rounds s' last loops result) :
    Follows R fetch target rounds s last loops result :=
  Nat.zero_add rounds ▸ hf.of_advances h.advances

theorem Follows.mono {more : Nat} (h : Follows R fetch target more s last loops result)
    (hle : rounds ≤ more) : Follows R fetch target rounds s last loops result := by
  match result with
  | none => exact GoesOn.mono h hle
  | some (.normal, _) | some (.broke, _) | some (.continued, _) | some (.returned _, _) => exact h

/-- After a statement that ends normally the machine may go somewhere else. -/
theorem Follows.trans {between : Nat} (h : Follows R fetch target rounds s between loops result)
    (hr : ∀ temporary store, Reaches R fetch ⟨between, [], temporary, store⟩
      ⟨last, [], temporary, store⟩) : Follows R fetch target rounds s last loops result := by
  match result with
  | some (.normal, store) =>
    obtain ⟨temporary, h⟩ := h
    exact ⟨temporary, h.trans (hr temporary store)⟩
  | none | some (.broke, _) | some (.continued, _) | some (.returned _, _) => exact h

theorem andThen_apply (first second : StateT Store Option (Outcome Value)) (store : Store) :
    Runtime.andThen first second store =
      match first store with
      | some (.normal, store) => second store
      | result => result := by
  simp only [Runtime.andThen, bind, StateT.bind, Option.bind]
  rcases first store with _ | ⟨_ | _ | _ | value, store⟩ <;> rfl

/-- A statement is followed by what comes after it if it ends normally. -/
theorem Follows.andThen {between : Nat} {first second : StateT Store Option (Outcome Value)}
    {store : Store} (h : Follows R fetch target rounds s between loops (first store))
    (hs : ∀ temporary store,
      Follows R fetch target rounds ⟨between, [], temporary, store⟩ last loops (second store)) :
    Follows R fetch target rounds s last loops (Runtime.andThen first second store) := by
  rw [andThen_apply]
  match first store, h with
  | none, h => exact h
  | some (.normal, store), ⟨temporary, h⟩ => exact (hs temporary store).of_reaches h
  | some (.broke, _), h | some (.continued, _), h | some (.returned _, _), h => exact h

end Following

/-! ## Loops -/

section Loops

variable {R : Runtime Store Value} {fetch : Nat → Option (Command × Nat)} {target : Label → Nat}
  {loops : List Loop}

theorem loop_succ (test : StateM Store Bool) (body : StateT Store Option (Outcome Value))
    (step : StateM Store Unit) (rounds : Nat) (store : Store) :
    Runtime.loop test body step (rounds + 1) store =
      if (test store).1 then
        match body (test store).2 with
        | none => none
        | some (.normal, store) | some (.continued, store) =>
          Runtime.loop test body step rounds (step store).2
        | some (.broke, store) => some (.normal, store)
        | some (.returned value, store) => some (.returned value, store)
      else some (.normal, (test store).2) := by
  simp only [Runtime.loop, certainly, bind, StateT.bind, Option.bind]
  rcases test store with ⟨_ | _, store⟩
  · rfl
  · simp only [if_true, StateT.bind, bind, Option.bind]
    rcases body store with _ | ⟨_ | _ | _ | value, store'⟩ <;> rfl

/-- **A loop is followed**, if its test, its body and its step are. A round takes a step of the
machine at least, either in its test or in coming back to the test. -/
theorem follows_loop {test : StateM Store Bool} {body : StateT Store Option (Outcome Value)}
    {step : StateM Store Unit} {top inside between rounds : Nat} {loop : Loop} (forth back : Nat)
    (htest : ∀ temporary store, ∃ temporary', if (test store).1 then
      Advances R fetch forth ⟨top, [], temporary, store⟩ ⟨inside, [], temporary', (test store).2⟩
      else Reaches R fetch ⟨top, [], temporary, store⟩
        ⟨target loop.done, [], temporary', (test store).2⟩)
    (hbody : ∀ temporary store, Follows R fetch target rounds ⟨inside, [], temporary, store⟩ between
      (loop :: loops) (body store))
    (hstep : ∀ offset, offset = between ∨ offset = target loop.next → ∀ temporary store,
      ∃ temporary', Advances R fetch back ⟨offset, [], temporary, store⟩
        ⟨top, [], temporary', (step store).2⟩)
    (hpos : 1 ≤ forth + back) {n : Nat} (hn : n ≤ rounds) (temporary : Option Value)
    (store : Store) :
    Follows R fetch target n ⟨top, [], temporary, store⟩ (target loop.done) loops
      (Runtime.loop test body step n store) := by
  induction n generalizing temporary store with
  | zero => exact ⟨_, 0, Nat.le_refl 0, rfl⟩
  | succ n ih =>
    obtain ⟨temporary₁, ht⟩ := htest temporary store
    rw [loop_succ]
    split at ht
    next hchoice =>
      rw [if_pos hchoice]
      have hb := hbody temporary₁ (test store).2
      have next : ∀ offset temporary₂ store',
          offset = between ∨ offset = target loop.next →
          Reaches R fetch ⟨inside, [], temporary₁, (test store).2⟩
            ⟨offset, [], temporary₂, store'⟩ →
          Follows R fetch target (n + 1) ⟨top, [], temporary, store⟩ (target loop.done) loops
            (Runtime.loop test body step n (step store').2) := by
        intro offset temporary₂ store' ho hr
        obtain ⟨temporary₃, hs⟩ := hstep offset ho temporary₂ store'
        have hround := (ht.trans hr.advances).trans hs
        exact ((ih (by omega) temporary₃ _).of_advances hround).mono (by omega)
      match body (test store).2, hb with
      | none, hb => exact (GoesOn.of_advances ht hb).mono (by omega)
      | some (.normal, store'), ⟨temporary₂, hb⟩ => exact next _ temporary₂ store' (.inl rfl) hb
      | some (.continued, store'), ⟨_, _, temporary₂, rfl, hb⟩ =>
        exact next _ temporary₂ store' (.inr rfl) hb
      | some (.broke, store'), ⟨_, _, temporary₂, rfl, hb⟩ =>
        exact ⟨temporary₂, ht.reaches.trans hb⟩
      | some (.returned value, store'), hb => exact Returns.of_reaches ht.reaches hb
    next hchoice =>
      rw [if_neg hchoice]
      exact ⟨temporary₁, ht⟩

end Loops

/-! ## Code inside statements -/

section Inside

variable {R : Runtime Store Value} {fetch : Nat → Option (Command × Nat)} {target : Label → Nat}
  {chain : List (List String)} {m m' : Mark} {rest : List Part} {offset last : Nat}

/-- The machine follows a statement and goes on with what comes after it. -/
theorem Located.follows_statement {node : Node}
    (h : Located fetch target chain m (.statement node :: rest) offset last m')
    (hs : StatementSim R fetch target node) (next : Nat) (hn : m.sections = next)
    (pending : List Nat) (hp : m.pending = pending) (loops : List Loop) (hl : m.loops = loops)
    (rounds : Nat) :
    ∃ between labels,
      Located fetch target chain
        { m with
          labels := labels
          sections := next + node.statementSections
          pending := pending.drop node.declared.length } rest between last m' ∧
      ∀ temporary store, Follows R fetch target rounds ⟨offset, [], temporary, store⟩ between loops
        (R.exec chain rounds node next pending store) := by
  obtain ⟨between, m₁, labels, hi, hr⟩ := h.statement
  subst hn hp hl
  exact ⟨between, labels, hr, fun temporary store =>
    hs chain m.inner _ _ _ rounds temporary store rfl hi⟩

/-- The machine takes a test and goes on with what comes after it, or jumps to a label. -/
theorem Located.tested {test : Node} {index : Nat} {label : Label}
    (h : Located fetch target chain m (.value test :: .jump .jumpIfFalse index :: rest) offset last
      m')
    (hv : ValueSim R fetch target test) (next : Nat) (hn : m.sections = next)
    (hlabel : m.own[index]? = some label) :
    ∃ between labels,
      Located fetch target chain { m with labels := labels, sections := next + test.sections }
        rest between last m' ∧
      ∀ temporary store, ∃ temporary', if (R.test chain (some test) next store).1 then
        Advances R fetch 1 ⟨offset, [], temporary, store⟩
          ⟨between, [], temporary', (R.test chain (some test) next store).2⟩
        else Reaches R fetch ⟨offset, [], temporary, store⟩
          ⟨target label, [], temporary', (R.test chain (some test) next store).2⟩ := by
  obtain ⟨o, labels, h, hd⟩ := h.reaches_value hv next hn
  obtain ⟨label', hlabel', hjump, h⟩ := h.jump
  cases hlabel.symm.trans hlabel'
  refine ⟨_, labels, h, fun temporary store => ?_⟩
  obtain ⟨temporary', hd⟩ := hd [] temporary store
  have hbranch := hd.advances.trans (.of_step (step_branch (hjump _ rfl)))
  have htest : R.test chain (some test) next store =
    (R.truthy (R.value chain test next store).1, (R.value chain test next store).2) := rfl
  rw [htest]
  refine ⟨temporary', ?_⟩
  cases htruth : R.truthy (R.value chain test next store).1 with
  | true =>
    rw [htruth, if_neg (by decide)] at hbranch
    exact hbranch
  | false =>
    rw [htruth, if_pos rfl] at hbranch
    exact hbranch.reaches

/-- A test that is missing holds. -/
theorem Located.tested_optional {test : Option Node} {index : Nat} {label : Label}
    (h : Located fetch target chain m
      (test.elim [] (fun test => [.value test, .jump .jumpIfFalse index]) ++ rest) offset last m')
    (hv : ∀ node, test = some node → ValueSim R fetch target node) (next : Nat)
    (hn : m.sections = next) (hlabel : m.own[index]? = some label) :
    ∃ between labels,
      Located fetch target chain
        { m with labels := labels, sections := next + sectionsOf (Node.literalsOptional test) }
        rest between last m' ∧
      ∀ temporary store, ∃ temporary', if (R.test chain test next store).1 then
        Advances R fetch 0 ⟨offset, [], temporary, store⟩
          ⟨between, [], temporary', (R.test chain test next store).2⟩
        else Reaches R fetch ⟨offset, [], temporary, store⟩
          ⟨target label, [], temporary', (R.test chain test next store).2⟩ := by
  cases test with
  | none =>
    subst hn
    exact ⟨offset, m.labels, h, fun temporary store => ⟨temporary, (Reaches.refl _).advances⟩⟩
  | some test =>
    obtain ⟨between, labels, h, ht⟩ := Located.tested h (hv test rfl) next hn hlabel
    refine ⟨between, labels, h, fun temporary store => ?_⟩
    obtain ⟨temporary', ht⟩ := ht temporary store
    refine ⟨temporary', ?_⟩
    split
    next htruth =>
      rw [if_pos htruth] at ht
      exact ht.mono (Nat.zero_le 1)
    next htruth => rwa [if_neg htruth] at ht

/-- The machine evaluates an expression, if there is one, and drops its value. -/
theorem Located.dropped {node : Option Node}
    (h : Located fetch target chain m
      (node.elim [] (fun node => [.value node, .plain .pop]) ++ rest) offset last m')
    (hv : ∀ inside, node = some inside → ValueSim R fetch target inside) (next : Nat)
    (hn : m.sections = next) :
    ∃ between labels,
      Located fetch target chain
        { m with labels := labels, sections := next + sectionsOf (Node.literalsOptional node) }
        rest between last m' ∧
      ∀ temporary store, ∃ temporary', Reaches R fetch ⟨offset, [], temporary, store⟩
        ⟨between, [], temporary', (R.drop chain node next store).2⟩ := by
  cases node with
  | none =>
    subst hn
    exact ⟨offset, m.labels, h, fun temporary store => ⟨temporary, .refl _⟩⟩
  | some node =>
    obtain ⟨between, labels, h, hd⟩ := Located.reaches_value h (hv node rfl) next hn
    obtain ⟨hpop, h⟩ := h.line
    refine ⟨_, labels, h, fun temporary store => ?_⟩
    obtain ⟨temporary', hd⟩ := hd [] temporary store
    exact ⟨temporary', hd.trans (.of_step (step_act (hpop _ rfl) rfl))⟩

end Inside

/-! ## Constructs -/

section Constructs

variable {R : Runtime Store Value} {fetch : Nat → Option (Command × Nat)} {target : Label → Nat}

theorem exec_ifElse_none (chain : List (List String)) (rounds : Nat) (test consequent : Node)
    (next : Nat) (pending : List Nat) (store : Store) :
    R.exec chain rounds (.ifElse test consequent none) next pending store =
      if (R.test chain (some test) next store).1 then
        R.exec chain rounds consequent (next + test.sections) pending
          (R.test chain (some test) next store).2
      else some (.normal, (R.test chain (some test) next store).2) :=
  apply_ite (fun action : StateT Store Option (Outcome Value) =>
    action (R.test chain (some test) next store).2) ..

theorem exec_ifElse_some (chain : List (List String)) (rounds : Nat)
    (test consequent alternate : Node) (next : Nat) (pending : List Nat) (store : Store) :
    R.exec chain rounds (.ifElse test consequent (some alternate)) next pending store =
      if (R.test chain (some test) next store).1 then
        R.exec chain rounds consequent (next + test.sections) pending
          (R.test chain (some test) next store).2
      else
        R.exec chain rounds alternate (next + test.sections + consequent.statementSections)
          (pending.drop consequent.declared.length) (R.test chain (some test) next store).2 :=
  apply_ite (fun action : StateT Store Option (Outcome Value) =>
    action (R.test chain (some test) next store).2) ..

theorem statementSim_ifElse_none {test consequent : Node} (htest : ValueSim R fetch target test)
    (hconsequent : StatementSim R fetch target consequent) :
    StatementSim R fetch target (.ifElse test consequent none) := by
  rintro chain ⟨labels, sections, loops, pending, _⟩ offset last m' rounds temporary store ⟨⟩ h
  obtain ⟨o₁, _, h, ht⟩ := h.fresh.tested htest sections rfl rfl
  obtain ⟨o₂, _, h, hs⟩ := h.follows_statement hconsequent _ rfl pending rfl loops rfl rounds
  obtain ⟨hdefine, h⟩ := h.define
  obtain ⟨rfl, -⟩ := h.nil
  obtain ⟨temporary₁, ht⟩ := ht temporary store
  rw [exec_ifElse_none]
  split at ht
  next htruth =>
    rw [if_pos htruth]
    exact (hs temporary₁ _).of_reaches ht.reaches
  next htruth =>
    rw [if_neg htruth]
    rw [hdefine _ rfl] at ht
    exact ⟨temporary₁, ht⟩

theorem statementSim_ifElse_some {test consequent alternate : Node}
    (htest : ValueSim R fetch target test) (hconsequent : StatementSim R fetch target consequent)
    (halternate : StatementSim R fetch target alternate) :
    StatementSim R fetch target (.ifElse test consequent (some alternate)) := by
  rintro chain ⟨labels, sections, loops, pending, _⟩ offset last m' rounds temporary store ⟨⟩ h
  obtain ⟨o₁, _, h, ht⟩ := h.fresh.tested htest sections rfl rfl
  obtain ⟨o₂, _, h, hs⟩ := h.follows_statement hconsequent _ rfl pending rfl loops rfl rounds
  obtain ⟨done, hdone, hjump, h⟩ := h.fresh.jump
  obtain ⟨hdefine₀, h⟩ := h.define
  obtain ⟨o₃, _, h, hs'⟩ := h.follows_statement halternate _ rfl _ rfl loops rfl rounds
  obtain ⟨hdefine₁, h⟩ := h.define
  obtain ⟨rfl, -⟩ := h.nil
  obtain ⟨temporary₁, ht⟩ := ht temporary store
  rw [exec_ifElse_some]
  split at ht
  next htruth =>
    rw [if_pos htruth]
    refine ((hs temporary₁ _).of_reaches ht.reaches).trans fun temporary store => ?_
    rw [← hdefine₁ done hdone]
    exact .of_step (step_jump (hjump _ rfl))
  next htruth =>
    rw [if_neg htruth]
    rw [hdefine₀ _ rfl] at ht
    exact (hs' temporary₁ _).of_reaches ht

theorem statementSim_whileLoop {test body : Node} (htest : ValueSim R fetch target test)
    (hbody : StatementSim R fetch target body) :
    StatementSim R fetch target (.whileLoop test body) := by
  rintro chain ⟨labels, sections, loops, pending, _⟩ offset last m' rounds temporary store ⟨⟩ h
  obtain ⟨hnext, h⟩ := h.fresh.fresh.define
  obtain ⟨o₁, _, h, ht⟩ := h.tested htest sections rfl rfl
  obtain ⟨next, done, hnext', hdone', h⟩ := h.enter
  obtain ⟨o₂, _, h, hs⟩ := h.follows_statement hbody _ rfl pending rfl _ rfl rounds
  obtain ⟨label, hlabel, hjump, h⟩ := h.jump
  obtain ⟨hdone, h⟩ := h.define
  obtain ⟨rfl, -⟩ := h.exit.nil
  cases hnext'
  cases hdone'
  cases hlabel
  rw [← hdone _ rfl]
  refine follows_loop 1 0 ht hs ?_ (Nat.le_refl 1) (Nat.le_refl rounds) temporary store
  rintro _ (rfl | rfl) temporary store
  · rw [← hnext _ rfl]
    exact ⟨temporary, (Advances.of_step (step_jump (hjump _ rfl))).mono (Nat.zero_le 1)⟩
  · rw [hnext _ rfl]
    exact ⟨temporary, (Reaches.refl _).advances⟩

/-- The plan of a for loop after its initialization. -/
def Node.roundsPlan (test step : Option Node) (body : Node) : List Part :=
  .fresh :: .fresh :: .fresh :: .define 0 ::
    (test.elim [] (fun test => [.value test, .jump .jumpIfFalse 2]) ++
      .enter 1 2 :: .statement body :: .define 1 ::
        (step.elim [] (fun step => [.value step, .plain .pop]) ++
          [.jump .jump 0, .define 2, .exit]))

theorem Node.statementPlan_forLoop (init test step : Option Node) (body : Node) :
    (Node.forLoop init test step body).statementPlan =
      init.toList.map .statement ++ roundsPlan test step body := by
  simp [statementPlan, isExpression, plan, roundsPlan]

/-- The rounds of a for loop are followed. -/
theorem Located.follows_rounds {test step : Option Node} {body : Node}
    (htest : ∀ node, test = some node → ValueSim R fetch target node)
    (hstep : ∀ node, step = some node → ValueSim R fetch target node)
    (hbody : StatementSim R fetch target body) {chain : List (List String)} {m m' : Mark}
    {offset last : Nat}
    (h : Located fetch target chain m (Node.roundsPlan test step body) offset last m')
    (hown : m.own = []) (rounds : Nat) (temporary : Option Value) (store : Store) :
    Follows R fetch target rounds ⟨offset, [], temporary, store⟩ last m.loops
      (Runtime.loop (R.test chain test m.sections)
        (R.exec chain rounds body (m.sections + sectionsOf (Node.literalsOptional test)) m.pending)
        (R.drop chain step
          (m.sections + sectionsOf (Node.literalsOptional test) + body.statementSections))
        rounds store) := by
  obtain ⟨labels, sections, loops, pending, _⟩ := m
  cases hown
  obtain ⟨hfirst, h⟩ := h.fresh.fresh.fresh.define
  obtain ⟨o₁, _, h, ht⟩ := h.tested_optional htest sections rfl rfl
  obtain ⟨next, done, hnext', hdone', h⟩ := h.enter
  obtain ⟨o₂, _, h, hs⟩ := h.follows_statement hbody _ rfl pending rfl _ rfl rounds
  obtain ⟨hnext, h⟩ := h.define
  obtain ⟨o₃, _, h, hd⟩ := h.dropped hstep _ rfl
  obtain ⟨label, hlabel, hjump, h⟩ := h.jump
  obtain ⟨hdone, h⟩ := h.define
  obtain ⟨rfl, -⟩ := h.exit.nil
  cases hnext'
  cases hdone'
  cases hlabel
  rw [← hdone _ rfl]
  refine follows_loop 0 1 ht hs ?_ (Nat.le_refl 1) (Nat.le_refl rounds) temporary store
  rintro offset ho temporary store
  obtain rfl : offset = o₂ := ho.elim id fun ho => ho.trans (hnext _ rfl)
  obtain ⟨temporary', hd⟩ := hd temporary store
  rw [← hfirst _ rfl]
  exact ⟨temporary', hd.advances.trans (.of_step (step_jump (hjump _ rfl)))⟩

theorem statementSim_forLoop {init test step : Option Node} {body : Node}
    (hinit : ∀ node, init = some node → StatementSim R fetch target node)
    (htest : ∀ node, test = some node → ValueSim R fetch target node)
    (hstep : ∀ node, step = some node → ValueSim R fetch target node)
    (hbody : StatementSim R fetch target body) :
    StatementSim R fetch target (.forLoop init test step body) := by
  rintro chain m offset last m' rounds temporary store hown h
  rw [Node.statementPlan_forLoop] at h
  cases init with
  | none => exact h.follows_rounds htest hstep hbody hown rounds temporary store
  | some init =>
    obtain ⟨o₁, _, h, hs⟩ :=
      Located.follows_statement h (hinit init rfl) m.sections rfl m.pending rfl m.loops rfl rounds
    exact (hs temporary store).andThen (h.follows_rounds htest hstep hbody hown rounds)

/-- Statements in sequence are followed. -/
theorem Located.follows_statements {nodes : List Node}
    (hs : ∀ node ∈ nodes, StatementSim R fetch target node) {chain : List (List String)}
    {m m' : Mark} {offset last : Nat}
    (h : Located fetch target chain m (nodes.map .statement) offset last m') (rounds : Nat)
    (temporary : Option Value) (store : Store) :
    Follows R fetch target rounds ⟨offset, [], temporary, store⟩ last m.loops
      (R.execAll chain rounds nodes m.sections m.pending store) := by
  induction nodes generalizing m offset temporary store with
  | nil =>
    obtain ⟨rfl, -⟩ := h.nil
    exact ⟨temporary, .refl _⟩
  | cons node rest ih =>
    rw [List.forall_mem_cons] at hs
    obtain ⟨o₁, _, h, hf⟩ :=
      Located.follows_statement h hs.1 m.sections rfl m.pending rfl m.loops rfl rounds
    exact (hf temporary store).andThen (ih hs.2 h)

/-- The value of an expression in statement position is dropped. -/
theorem exec_expression {node : Node} (he : node.isExpression = true)
    (hd : node.isDeclaredFunction = false) (chain : List (List String)) (rounds next : Nat)
    (pending : List Nat) (store : Store) :
    R.exec chain rounds node next pending store =
      some (.normal, (R.value chain node next store).2) := by
  cases node with
  | declaration | ret | ifElse | forLoop | whileLoop | breakLoop | continueLoop | block
  | unsupported => cases he
  | function name params body =>
    cases name with
    | none => rfl
    | some name => cases hd
  | _ => rfl

theorem statementSim_expression {node : Node} (he : node.isExpression = true)
    (hd : node.isDeclaredFunction = false) (h : ValueSim R fetch target node) :
    StatementSim R fetch target node := by
  intro chain m offset last m' rounds temporary store hown hn
  rw [Node.statementPlan, if_pos he, hd] at hn
  obtain ⟨o₁, m₁, hv, hn⟩ := hn.append
  obtain ⟨hpop, hn⟩ := hn.line
  obtain ⟨rfl, -⟩ := hn.nil
  obtain ⟨temporary', hr⟩ := h chain m offset o₁ m₁ [] temporary store hown he hv
  rw [exec_expression he hd]
  exact ⟨temporary', hr.trans (.of_step (step_act (hpop _ rfl) rfl))⟩

theorem Node.eq_function_of_isDeclaredFunction {node : Node} (h : node.isDeclaredFunction = true) :
    ∃ name params body, node = .function (some name) params body := by
  cases node with
  | function name params body =>
    cases name with
    | none => cases h
    | some name => exact ⟨name, params, body, rfl⟩
  | _ => cases h

/-- A declared function in statement position is a closure that is dropped. -/
theorem statementSim_declared (name : String) (params : List String) (body : List Node) :
    StatementSim R fetch target (.function (some name) params body) := by
  intro chain m offset last m' rounds temporary store hown h
  obtain ⟨id, others, hp, hclose, h⟩ := h.pass
  obtain ⟨hpop, h⟩ := h.line
  obtain ⟨rfl, -⟩ := h.nil
  rw [hp]
  exact ⟨temporary, (Reaches.of_step (step_act hclose rfl)).trans
    (.of_step (step_act (hpop _ rfl) rfl))⟩

theorem statementSim_declaration {name : String} {source : Node}
    (h : ValueSim R fetch target source) :
    StatementSim R fetch target (.declaration name (some source)) := by
  intro chain m offset last m' rounds temporary store hown hn
  obtain ⟨o₁, _, hn, hr⟩ := hn.reaches_value h m.sections rfl
  obtain ⟨c, o₂, hstore, ha, hn⟩ := hn.store
  obtain ⟨hpop, hn⟩ := hn.line
  obtain ⟨rfl, -⟩ := hn.nil
  obtain ⟨temporary', hr⟩ := hr [] temporary store
  have hr := hr.trans (.of_step (step_act hstore (ha R _ [] temporary' _)))
  exact ⟨temporary', hr.trans (.of_step (step_act (hpop _ rfl) rfl))⟩

theorem statementSim_ret {argument : Node} (h : ValueSim R fetch target argument) :
    StatementSim R fetch target (.ret (some argument)) := by
  intro chain m offset last m' rounds temporary store hown hn
  obtain ⟨o₁, _, hn, hr⟩ := hn.reaches_value h m.sections rfl
  obtain ⟨hret, hn⟩ := hn.line
  obtain ⟨temporary', hr⟩ := hr [] temporary store
  exact Returns.of_reaches hr (.of_step (step_ret (hret _ rfl)))

/-- **The machine follows the evaluator** through the code of a statement, if it does so through the
code of what is inside it. -/
theorem statementSim_of_inside {node : Node}
    (hv : ∀ inside, .value inside ∈ node.statementPlan → ValueSim R fetch target inside)
    (hs : ∀ inside, .statement inside ∈ node.statementPlan → StatementSim R fetch target inside) :
    StatementSim R fetch target node := by
  cases he : node.isExpression with
  | true =>
    cases hd : node.isDeclaredFunction with
    | true =>
      obtain ⟨name, params, body, rfl⟩ := Node.eq_function_of_isDeclaredFunction hd
      exact statementSim_declared name params body
    | false =>
      rw [Node.statementPlan, if_pos he, hd] at hv
      exact statementSim_expression he hd
        (valueSim_of_inside fun inside hi => hv inside (List.mem_append_left _ hi))
  | false =>
    rw [Node.statementPlan, he] at hv hs
    cases node with
    | declaration name init =>
      cases init with
      | none =>
        intro chain m offset last m' rounds temporary store hown h
        obtain ⟨rfl, -⟩ := h.nil
        exact ⟨temporary, .refl _⟩
      | some source => exact statementSim_declaration (hv source (by simp [Node.plan]))
    | ret argument =>
      cases argument with
      | none =>
        intro chain m offset last m' rounds temporary store hown h
        obtain ⟨hpush, h⟩ := h.line
        obtain ⟨hret, h⟩ := h.line
        exact Returns.of_reaches (.of_step (step_act (hpush _ rfl) rfl))
          (.of_step (step_ret (hret _ rfl)))
      | some argument => exact statementSim_ret (hv argument (by simp [Node.plan]))
    | ifElse test consequent alternate =>
      have htest := hv test (by cases alternate <;> simp [Node.plan])
      have hconsequent := hs consequent (by cases alternate <;> simp [Node.plan])
      cases alternate with
      | none => exact statementSim_ifElse_none htest hconsequent
      | some alternate =>
        exact statementSim_ifElse_some htest hconsequent (hs alternate (by simp [Node.plan]))
    | forLoop init test step body =>
      refine statementSim_forLoop ?_ ?_ ?_ (hs body (by simp [Node.plan]))
      · rintro node rfl
        exact hs node (by simp [Node.plan])
      · rintro node rfl
        exact hv node (by simp [Node.plan])
      · rintro node rfl
        exact hv node (by simp [Node.plan])
    | whileLoop test body =>
      exact statementSim_whileLoop (hv test (by simp [Node.plan])) (hs body (by simp [Node.plan]))
    | breakLoop =>
      intro chain m offset last m' rounds temporary store hown h
      obtain ⟨loop, outer, hl, hjump⟩ := h.leave
      exact ⟨loop, outer, temporary, hl, .of_step (step_jump hjump)⟩
    | continueLoop =>
      intro chain m offset last m' rounds temporary store hown h
      obtain ⟨loop, outer, hl, hjump⟩ := h.again
      exact ⟨loop, outer, temporary, hl, .of_step (step_jump hjump)⟩
    | block statements =>
      intro chain m offset last m' rounds temporary store hown h
      exact Located.follows_statements (fun node hn => hs node (List.mem_map_of_mem hn)) h rounds
        temporary store
    | unsupported kind =>
      intro chain m offset last m' rounds temporary store hown h
      exact absurd List.mem_cons_self (h.fail_notMem _)
    | _ => cases he

/-- **The code of every expression leaves its value.** -/
theorem Node.valueSim (node : Node) : ValueSim R fetch target node :=
  valueSim_of_inside fun inside _ => inside.valueSim
termination_by sizeOf node
decreasing_by exact node.size_plan (.value inside) ‹_›

/-- **The machine follows the evaluator through the code of every statement.** -/
theorem Node.statementSim (node : Node) : StatementSim R fetch target node :=
  statementSim_of_inside (fun inside _ => inside.valueSim) fun inside _ => inside.statementSim
termination_by sizeOf node
decreasing_by exact node.size_statementPlan (.statement inside) ‹_›

end Constructs

end ScriptCompiler
