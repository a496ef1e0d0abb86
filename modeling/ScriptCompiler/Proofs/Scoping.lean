import Mathlib.Data.List.Forall2
import Mathlib.Data.Set.Function
import Mathlib.Order.Interval.Set.Defs
import ScriptCompiler.Proofs.Routine

/-!
# The history of scopes

Scopes are entered, filled with names and left again. At any time the open scopes hold what their
history says: each of them the names that were declared in it since it was entered, numbered in the
order in which they came first. What happens inside a scope has no effect on the scopes around it,
so leaving it brings back the addresses that names had before it was entered.

## Main definitions

* `ScopeChain.Step`, `ScopeChain.run`: entering and leaving scopes and declaring names
* `ScopeChain.log`: the names declared in every open scope, read off the steps
* `ScopeChain.level`: how many of the scopes that steps enter are still open after them
* `Scope.Numbers`: a scope numbers the names that were declared in it

## Main results

* `Scope.numbers_enlistAll`: names enlisted from nothing are numbered in the order of declaration
* `ScopeChain.scopes_run`: the open scopes hold the names in the log
* `ScopeChain.inside_run`: steps inside a scope leave the scopes around it alone
* `ScopeChain.history_exact`: what the steps since the top level say about the scopes
-/

namespace ScriptCompiler

/-! ## Numbering -/

theorem mem_enlistAll {names more : List String} {name : String} :
    name ∈ enlistAll names more ↔ name ∈ names ∨ name ∈ more := by
  induction more generalizing names with
  | nil => simp
  | cons first more ih => rw [enlistAll_cons, ih, mem_enlist, List.mem_cons, or_assoc]

theorem nodup_enlistAll {names : List String} (h : names.Nodup) (more : List String) :
    (enlistAll names more).Nodup := by
  induction more generalizing names with
  | nil => exact h
  | cons name more ih => exact ih (nodup_enlist h name)

/-- Names are enlisted in the order in which they come first. -/
theorem idxOf_enlistAll_lt {names : List String} {a b : String} (hb : b ∈ names)
    (h : names.idxOf a < names.idxOf b) :
    (enlistAll [] names).idxOf a < (enlistAll [] names).idxOf b := by
  -- A name at the end is new, and then it comes after all others, or it changes nothing.
  induction names using List.reverseRecOn with
  | nil => cases hb
  | append_singleton names last ih =>
    have ha : a ∈ names := by
      by_contra ha
      have hlt := List.idxOf_lt_length_iff.mpr hb
      rw [List.length_append, List.length_singleton] at hlt
      rw [List.idxOf_append_of_notMem ha] at h
      omega
    have hm : a ∈ enlistAll [] names := mem_enlistAll.mpr (.inr ha)
    rw [enlistAll_append, enlistAll_cons, enlistAll_empty, idxOf_of_isPrefix (prefix_enlist _ _) hm]
    by_cases hn : b ∈ names
    · rw [idxOf_of_isPrefix (prefix_enlist _ _) (mem_enlistAll.mpr (.inr hn))]
      rw [List.idxOf_append_of_mem ha, List.idxOf_append_of_mem hn] at h
      exact ih hn h
    · obtain rfl : b = last := by simpa [hn] using hb
      have hnew : b ∉ enlistAll [] names := by simpa [mem_enlistAll] using hn
      rw [idxOf_enlist_of_not_mem hnew]
      exact List.idxOf_lt_length_iff.mpr hm

theorem Scope.slot?_eq_some_iff {scope : Scope} {name : String} {slot : Nat} :
    scope.slot? name = some slot ↔ name ∈ scope.names ∧ slot = scope.names.idxOf name := by
  rw [slot?_eq]
  split <;> simp_all [eq_comm]

theorem Scope.slot?_eq_none_iff {scope : Scope} {name : String} :
    scope.slot? name = none ↔ name ∉ scope.names := by
  rw [slot?_eq]
  split <;> simp_all

/-- **A scope numbers names**, those given and no others: their slots are the numbers below the size
of the scope, each for one name, in the order in which the names come first. -/
structure Scope.Numbers (scope : Scope) (names : List String) : Prop where
  bijOn : Set.BijOn (scope.slot? ·) {name | name ∈ names} (some '' Set.Iio scope.size)
  absent : ∀ name, name ∉ names → scope.slot? name = none
  ordered : ∀ a b, a ∈ names → b ∈ names → names.idxOf a < names.idxOf b →
    ∃ slot slot', scope.slot? a = some slot ∧ scope.slot? b = some slot' ∧ slot < slot'

theorem Scope.numbers_enlistAll (names : List String) : Numbers ⟨enlistAll [] names⟩ names := by
  have mem (name : String) : name ∈ enlistAll [] names ↔ name ∈ names := by simp [mem_enlistAll]
  have present {name : String} (h : name ∈ names) :
      slot? name ⟨enlistAll [] names⟩ = some ((enlistAll [] names).idxOf name) := by
    rw [slot?_eq, if_pos ((mem name).mpr h)]
  refine ⟨⟨fun name hn => ?_, fun name hn other ho he => ?_, ?_⟩, fun name hn => ?_, ?_⟩
  · exact ⟨_, List.idxOf_lt_length_iff.mpr ((mem name).mpr hn), (present hn).symm⟩
  · simp only [present hn, present ho, Option.some.injEq] at he
    exact (List.idxOf_inj ((mem name).mpr hn)).mp he
  · rintro _ ⟨slot, hs, rfl⟩
    have hl : slot < (enlistAll [] names).length := hs
    have hn : (enlistAll [] names)[slot] ∈ names := (mem _).mp (List.getElem_mem hl)
    refine ⟨_, hn, (present hn).trans ?_⟩
    rw [(nodup_enlistAll List.nodup_nil names).idxOf_getElem]
  · rw [slot?_eq, if_neg (mt (mem name).mp hn)]
  · intro a b ha hb h
    exact ⟨_, _, present ha, present hb, idxOf_enlistAll_lt hb h⟩

namespace ScopeChain

/-! ## Steps -/

/-- **A step in the history of scopes.** -/
inductive Step where
  /-- Enters a scope. -/
  | push
  /-- Leaves the innermost scope. -/
  | pop
  /-- Declares a name in the innermost scope. -/
  | declare (name : String)
deriving DecidableEq, Repr

/-- The scopes after a step. -/
def step (chain : ScopeChain) : Step → ScopeChain
  | .push => chain.push
  | .pop => chain.pop.2
  | .declare name => (chain.declare name).2

/-- The scopes after steps. -/
def run (chain : ScopeChain) (steps : List Step) : ScopeChain := steps.foldl step chain

/-- What a step adds to the names declared in the open scopes, or takes away from them. -/
def record (log : List (List String)) : Step → List (List String)
  | .push => [] :: log
  | .pop => log.tail
  | .declare name => log.modifyHead (· ++ [name])

/-- **The names declared in every open scope** since it was entered, in order and with repetitions,
innermost scope first. At the top level no scope is open, and a declaration leaves no trace. -/
def log (steps : List Step) : List (List String) := steps.foldl record []

/-- How many scopes are open inside a given one after a step, if so many were open before it; none
if the step leaves the given scope. -/
def Step.level (depth : Nat) : Step → Option Nat
  | push => some (depth + 1)
  | pop => if depth = 0 then none else some (depth - 1)
  | declare _ => some depth

/-- How many scopes are open inside a given one after steps, if so many were open before them; none
if the steps leave the given scope. -/
def level (depth : Nat) (steps : List Step) : Option Nat := steps.foldlM Step.level depth

theorem run_append (chain : ScopeChain) (steps more : List Step) :
    chain.run (steps ++ more) = (chain.run steps).run more :=
  List.foldl_append

/-- A step takes scopes that hold the names of a log to scopes that hold those of the next one. -/
theorem scopes_step {chain : ScopeChain} {log : List (List String)}
    (h : chain.scopes = log.map fun names => ⟨enlistAll [] names⟩) (s : Step) :
    (chain.step s).scopes = (record log s).map fun names => ⟨enlistAll [] names⟩ := by
  obtain ⟨scopes⟩ := chain
  obtain rfl : scopes = _ := h
  cases s with
  | push => rfl
  | pop => exact List.map_tail.symm
  | declare name =>
    cases log with
    | nil => rfl
    | cons names outer =>
      simp only [step, record, List.map_cons, declare_cons, List.modifyHead_cons, enlistAll_append,
        enlistAll_cons, enlistAll_empty]

/-- **The open scopes hold the names in the log**, each where it comes first. -/
theorem scopes_run (steps : List Step) :
    (run empty steps).scopes = (log steps).map fun names => ⟨enlistAll [] names⟩ := by
  induction steps using List.reverseRecOn with
  | nil => rfl
  | append_singleton steps s ih =>
    rw [run_append, log, List.foldl_append]
    exact scopes_step ih s

/-- The names in the log are those that the open scopes number. -/
theorem numbers_run (steps : List Step) :
    List.Forall₂ Scope.Numbers (run empty steps).scopes (log steps) := by
  rw [scopes_run, List.forall₂_map_left_iff]
  exact List.forall₂_same.mpr fun names _ => Scope.numbers_enlistAll names

theorem declare_of_nil {chain : ScopeChain} {name : String} (h : chain.scopes = []) :
    chain.declare name = (none, chain) := by
  rw [declare, h]

/-- Declaring a name gives its slot in the innermost scope, if there is one. -/
theorem declare_of_ne_nil {chain : ScopeChain} (h : chain.scopes ≠ []) (name : String) :
    ∃ slot scope outer, chain.declare name = (some slot, ⟨scope :: outer⟩) ∧
      scope.slot? name = some slot := by
  obtain ⟨scopes⟩ := chain
  cases scopes with
  | nil => exact absurd rfl h
  | cons scope outer =>
    exact ⟨_, _, _, declare_cons scope outer name,
      Scope.slot?_eq_some_iff.mpr ⟨mem_enlist_self _ _, rfl⟩⟩

/-! ## Inside a scope -/

/-- Scopes are open inside others: one, and so many more inside it. -/
def Inside (outer : List Scope) (depth : Nat) (chain : ScopeChain) : Prop :=
  ∃ inner, inner.length = depth + 1 ∧ chain.scopes = inner ++ outer

/-- A step inside a scope leaves the scopes around it alone, as long as the scope itself stays
open. -/
theorem inside_step {outer : List Scope} {depth depth' : Nat} {chain : ScopeChain}
    (h : Inside outer depth chain) {s : Step} (hs : s.level depth = some depth') :
    Inside outer depth' (chain.step s) := by
  obtain ⟨scopes⟩ := chain
  obtain ⟨inner, hi, rfl⟩ := h
  cases s with
  | push =>
    cases hs
    exact ⟨{} :: inner, by rw [List.length_cons, hi], rfl⟩
  | pop =>
    obtain ⟨hz, hs⟩ : depth ≠ 0 ∧ depth - 1 = depth' := by simpa [Step.level] using hs
    obtain ⟨scope, rest, rfl⟩ := List.exists_cons_of_length_eq_add_one hi
    refine ⟨rest, ?_, rfl⟩
    rw [List.length_cons] at hi
    omega
  | declare name =>
    cases hs
    obtain ⟨scope, rest, rfl⟩ := List.exists_cons_of_length_eq_add_one hi
    refine ⟨⟨enlist scope.names name⟩ :: rest, hi, ?_⟩
    rw [step, List.cons_append, declare_cons, List.cons_append]

/-- **Steps inside a scope leave the scopes around it alone.** -/
theorem inside_run {outer : List Scope} {depth depth' : Nat} {chain : ScopeChain}
    (h : Inside outer depth chain) {steps : List Step} (hs : level depth steps = some depth') :
    Inside outer depth' (chain.run steps) := by
  induction steps generalizing chain depth with
  | nil =>
    cases hs
    exact h
  | cons s rest ih =>
    rw [level, List.foldlM_cons] at hs
    obtain ⟨depth₁, h₁, h₂⟩ := Option.bind_eq_some_iff.mp hs
    exact ih (inside_step h h₁) h₂

theorem inside_push (chain : ScopeChain) : Inside chain.scopes 0 chain.push :=
  ⟨[{}], rfl, rfl⟩

/-- Leaving a scope brings back the scopes that were open before it was entered. -/
theorem run_pop {chain : ScopeChain} {steps : List Step} (hs : level 0 steps = some 0) :
    (chain.push.run steps).step .pop = chain := by
  obtain ⟨inner, hi, hc⟩ := inside_run (inside_push chain) hs
  obtain ⟨scope, rfl⟩ := List.length_eq_one_iff.mp hi
  rw [step, pop, hc]
  rfl

/-! ## Addresses -/

/-- The address of a name is in the innermost scope that has a slot for it. -/
theorem address?_eq_some_iff {chain : ScopeChain} {name : String} {slot depth : Nat} :
    chain.address? name = some (slot, depth) ↔
      (∃ scope, chain.scopes[depth]? = some scope ∧ scope.slot? name = some slot) ∧
        ∀ inner < depth, ∀ scope, chain.scopes[inner]? = some scope → scope.slot? name = none := by
  rw [address?_eq, lexical_eq_some_iff]
  simp only [names, List.getElem?_map, Option.map_eq_some_iff, Scope.slot?_eq_some_iff,
    Scope.slot?_eq_none_iff]
  constructor
  · rintro ⟨⟨_, ⟨scope, hs, rfl⟩, hm, rfl⟩, hi⟩
    exact ⟨⟨scope, hs, hm, rfl⟩, fun inner hlt scope hs => hi inner hlt _ ⟨scope, hs, rfl⟩⟩
  · rintro ⟨⟨scope, hs, hm, rfl⟩, hi⟩
    refine ⟨⟨_, ⟨scope, hs, rfl⟩, hm, rfl⟩, ?_⟩
    rintro inner hlt _ ⟨scope, hs, rfl⟩
    exact hi inner hlt scope hs

theorem address?_eq_none_iff {chain : ScopeChain} {name : String} :
    chain.address? name = none ↔ ∀ scope ∈ chain.scopes, scope.slot? name = none := by
  rw [address?_eq, lexical_eq_none_iff]
  simp only [names, List.forall_mem_map, Scope.slot?_eq_none_iff]

/-! ## The whole history -/

/-- **What the history of scopes says about them.** After any steps from the top level on,

* every open scope numbers the names that were declared in it since it was entered;
* declaring a name does nothing at the top level, and elsewhere it gives the slot that the name then
  has in the innermost scope;
* whatever is done inside a scope, the scopes around it stay as they are, and when it is left
  everything is as it was before it was entered, the addresses of all names included;
* the address of a name is its slot in the innermost scope that holds it, and there is none if no
  open scope does. -/
theorem history_exact (steps : List Step) :
    List.Forall₂ Scope.Numbers (run empty steps).scopes (log steps) ∧
    (∀ name,
      ((run empty steps).scopes = [] →
        (run empty steps).declare name = (none, run empty steps)) ∧
      ((run empty steps).scopes ≠ [] → ∃ slot scope outer,
        (run empty steps).declare name = (some slot, run empty (steps ++ [.declare name])) ∧
        (run empty (steps ++ [.declare name])).scopes = scope :: outer ∧
        scope.slot? name = some slot)) ∧
    (∀ inside depth, level 0 inside = some depth →
      (∃ inner, inner.length = depth + 1 ∧
        (run empty (steps ++ .push :: inside)).scopes = inner ++ (run empty steps).scopes) ∧
      (depth = 0 → run empty (steps ++ .push :: inside ++ [.pop]) = run empty steps ∧
        ∀ name, (run empty (steps ++ .push :: inside ++ [.pop])).address? name =
          (run empty steps).address? name)) ∧
    ∀ name,
      (∀ slot depth, (run empty steps).address? name = some (slot, depth) ↔
        (∃ scope, (run empty steps).scopes[depth]? = some scope ∧ scope.slot? name = some slot) ∧
          ∀ inner < depth, ∀ scope, (run empty steps).scopes[inner]? = some scope →
            scope.slot? name = none) ∧
      ((run empty steps).address? name = none ↔
        ∀ scope ∈ (run empty steps).scopes, scope.slot? name = none) := by
  refine ⟨numbers_run steps, fun name => ⟨declare_of_nil, fun h => ?_⟩, fun inside depth hl => ?_,
    fun name => ⟨fun slot depth => address?_eq_some_iff, address?_eq_none_iff⟩⟩
  · obtain ⟨slot, scope, outer, hd, hs⟩ := declare_of_ne_nil h name
    have hr : run empty (steps ++ [.declare name]) = ⟨scope :: outer⟩ := by
      rw [run_append]
      exact congrArg Prod.snd hd
    rw [hr]
    exact ⟨slot, scope, outer, hd, rfl, hs⟩
  · have hr (more : List Step) : run empty (steps ++ .push :: more) =
        (run empty steps).push.run more := run_append _ _ _
    refine ⟨hr inside ▸ inside_run (inside_push _) hl, ?_⟩
    rintro rfl
    have hp : run empty (steps ++ .push :: inside ++ [.pop]) = run empty steps := by
      rw [List.append_assoc, List.cons_append, hr, run_append]
      exact run_pop hl
    exact ⟨hp, fun name => by rw [hp]⟩

/-- In the outer scope the second declaration of `a` has no effect. In the inner scope `b` gets a
slot of its own, and when that scope is left `b` has its old address again. -/
theorem history_exact_shadowed :
    level 0 [.declare "b"] = some 0 ∧
      log [.push, .declare "a", .declare "b", .declare "a"] = [["a", "b", "a"]] ∧
      (run empty
        [.push, .declare "a", .declare "b", .declare "a", .push, .declare "b"]).address? "b" =
        some (0, 0) ∧
      (run empty ([.push, .declare "a", .declare "b", .declare "a"] ++
        .push :: [.declare "b"] ++ [.pop])).address? "b" = some (1, 0) := by
  have hl : level 0 [.declare "b"] = some 0 := rfl
  have h := history_exact [.push, .declare "a", .declare "b", .declare "a"]
  refine ⟨hl, rfl, by decide, ?_⟩
  rw [((h.2.2.1 _ _ hl).2 rfl).2]
  decide

end ScopeChain

end ScriptCompiler
