import Mathlib.Data.List.Basic
import Mathlib.Data.List.Induction
import ScriptCompiler.Scope
import ScriptCompiler.StringPool

/-!
# Names and strings by position

Scopes and the string pool number what they hold in the order of first use: a name that is new goes
to the end of a list, and its number is its position in that list. Since the list only grows at its
end, a number stays right.

## Main definitions

* `enlist`, `enlistAll`: a list of names with more names, each where it comes first
* `StringPool.Valid`: the strings of a pool are distinct, and its index gives their positions

## Main results

* `idxOf_of_isPrefix`: positions are stable while a list grows
* `enlistAll_nil`: names listed from nothing are those without later repetitions
* `Scope.declare_eq`, `StringPool.toList_intern`: declaring a name and interning a string enlist it
-/

namespace ScriptCompiler

/-- The names with one more at the end, unless they hold it already. -/
def enlist (names : List String) (name : String) : List String :=
  if name ∈ names then names else names ++ [name]

/-- The names with more of them, one after the other. -/
def enlistAll (names more : List String) : List String := more.foldl enlist names

@[simp] theorem enlistAll_empty (names : List String) : enlistAll names [] = names := rfl

@[simp] theorem enlistAll_cons (names : List String) (name : String) (more : List String) :
    enlistAll names (name :: more) = enlistAll (enlist names name) more := rfl

theorem enlistAll_append (names more rest : List String) :
    enlistAll names (more ++ rest) = enlistAll (enlistAll names more) rest :=
  List.foldl_append

theorem mem_enlist_self (names : List String) (name : String) : name ∈ enlist names name := by
  unfold enlist
  split
  · assumption
  · simp

theorem mem_enlist {names : List String} {name other : String} :
    other ∈ enlist names name ↔ other ∈ names ∨ other = name := by
  unfold enlist
  split
  · exact ⟨.inl, fun h => h.elim id (· ▸ ‹_›)⟩
  · simp

theorem nodup_enlist {names : List String} (h : names.Nodup) (name : String) :
    (enlist names name).Nodup := by
  unfold enlist
  split
  · exact h
  · next hm => exact List.nodup_append.mpr ⟨h, by simp, by grind⟩

theorem prefix_enlist (names : List String) (name : String) : names <+: enlist names name := by
  unfold enlist
  split
  · exact List.prefix_refl names
  · exact List.prefix_append names [name]

theorem prefix_enlistAll (names more : List String) : names <+: enlistAll names more := by
  induction more generalizing names with
  | nil => exact List.prefix_refl names
  | cons name more ih => exact (prefix_enlist names name).trans (ih (enlist names name))

/-- Names are listed where they come first. -/
theorem enlistAll_nil (more : List String) : enlistAll [] more = more.eraseDups := by
  induction more using List.reverseRecOn with
  | nil => rfl
  | append_singleton more name ih =>
    rw [enlistAll_append, ih, List.eraseDups_append]
    by_cases h : name ∈ more
    · simp [enlist, List.removeAll, h]
    · simp [enlist, List.removeAll, h, List.eraseDups_cons]

/-- **Positions are stable** while a list grows at its end. -/
theorem idxOf_of_isPrefix {names more : List String} {name : String} (h : names <+: more)
    (hm : name ∈ names) : more.idxOf name = names.idxOf name := by
  obtain ⟨rest, rfl⟩ := h
  exact List.idxOf_append_of_mem hm

theorem idxOf_enlist_of_not_mem {names : List String} {name : String} (h : name ∉ names) :
    (enlist names name).idxOf name = names.length := by
  rw [enlist, if_neg h, List.idxOf_append_of_notMem h]
  simp

/-! ## Scopes -/

theorem Scope.slot?_eq (name : String) (scope : Scope) :
    scope.slot? name = if name ∈ scope.names then some (scope.names.idxOf name) else none := by
  obtain ⟨names⟩ := scope
  rw [Scope.slot?]
  induction names with
  | nil => rfl
  | cons first names ih =>
    rw [List.idxOf?_cons, ih, List.idxOf_cons]
    by_cases he : first = name
    · simp [he]
    · by_cases hm : name ∈ names
      · simp [hm, beq_eq_false_iff_ne.mpr he]
      · simp [he, hm, Ne.symm he]

/-- Declaring a name enlists it, and its slot is its position. -/
theorem Scope.declare_eq (name : String) (scope : Scope) :
    scope.declare name =
      ((enlist scope.names name).idxOf name, ⟨enlist scope.names name⟩) := by
  rw [Scope.declare, Scope.slot?_eq]
  by_cases h : name ∈ scope.names
  · simp [enlist, h]
  · simp [h, idxOf_enlist_of_not_mem h, Scope.size]
    simp [enlist, h]

/-- The scopes with more names declared in the innermost one. -/
def ScopeChain.declareEach (chain : ScopeChain) (names : List String) : ScopeChain :=
  names.foldl (fun chain name => (chain.declare name).2) chain

theorem ScopeChain.declareEach_append (chain : ScopeChain) (names more : List String) :
    chain.declareEach (names ++ more) = (chain.declareEach names).declareEach more :=
  List.foldl_append

/-- Declaring a name in a function gives it its position among the names there. -/
theorem ScopeChain.declare_cons (scope : Scope) (outer : List Scope) (name : String) :
    (⟨scope :: outer⟩ : ScopeChain).declare name =
      (some ((enlist scope.names name).idxOf name), ⟨⟨enlist scope.names name⟩ :: outer⟩) := by
  simp only [declare, Scope.declare_eq]

theorem ScopeChain.declareEach_cons (scope : Scope) (outer : List Scope) (names : List String) :
    (⟨scope :: outer⟩ : ScopeChain).declareEach names =
      ⟨⟨enlistAll scope.names names⟩ :: outer⟩ := by
  induction names generalizing scope with
  | nil => rfl
  | cons name names ih =>
    rw [declareEach, List.foldl_cons, declare_cons]
    exact ih ⟨enlist scope.names name⟩

/-- At the top level nothing is declared. -/
theorem ScopeChain.declareEach_empty (names : List String) :
    ScopeChain.empty.declareEach names = .empty := by
  induction names with
  | nil => rfl
  | cons name names ih => exact ih

/-! ## The string pool -/

namespace StringPool

/-- A pool holds every string once, and its index gives the position of every string that it holds,
and of no other. -/
structure Valid (pool : StringPool) : Prop where
  nodup : pool.toList.Nodup
  index : ∀ text, pool.index[text]? =
    if text ∈ pool.toList then some (pool.toList.idxOf text) else none

theorem valid_empty : Valid empty where
  nodup := by simp [empty, toList]
  index text := by simp [empty, toList]

theorem intern_of_mem {pool : StringPool} (h : pool.Valid) {text : String}
    (hm : text ∈ pool.toList) : pool.intern text = (pool.toList.idxOf text, pool) := by
  rw [intern, h.index text, if_pos hm]

theorem intern_of_not_mem {pool : StringPool} (h : pool.Valid) {text : String}
    (hm : text ∉ pool.toList) :
    pool.intern text = (pool.toList.length,
      { strings := pool.strings.push text
        index := pool.index.insert text pool.toList.length }) := by
  rw [intern, h.index text, if_neg hm]
  simp [toList]

/-- Interning a string enlists it. -/
theorem toList_intern {pool : StringPool} (h : pool.Valid) (text : String) :
    (pool.intern text).2.toList = enlist pool.toList text := by
  by_cases hm : text ∈ pool.toList
  · rw [intern_of_mem h hm, enlist, if_pos hm]
  · rw [intern_of_not_mem h hm, enlist, if_neg hm]
    simp [toList]

/-- The position of a string that has been interned is its position among all strings. -/
theorem intern_fst {pool : StringPool} (h : pool.Valid) (text : String) :
    (pool.intern text).1 = (enlist pool.toList text).idxOf text := by
  by_cases hm : text ∈ pool.toList
  · rw [intern_of_mem h hm, enlist, if_pos hm]
  · rw [intern_of_not_mem h hm, idxOf_enlist_of_not_mem hm]

theorem valid_intern {pool : StringPool} (h : pool.Valid) (text : String) :
    (pool.intern text).2.Valid := by
  refine ⟨toList_intern h text ▸ nodup_enlist h.nodup text, fun other => ?_⟩
  rw [toList_intern h]
  by_cases hm : text ∈ pool.toList
  · rw [intern_of_mem h hm, enlist, if_pos hm]
    exact h.index other
  · rw [intern_of_not_mem h hm]
    simp only [Std.TreeMap.getElem?_insert, Std.compare_eq_iff_eq]
    by_cases he : text = other
    · subst he
      rw [if_pos rfl, if_pos (mem_enlist_self _ _), idxOf_enlist_of_not_mem hm]
    · rw [if_neg he, h.index other, enlist, if_neg hm]
      by_cases ho : other ∈ pool.toList
      · simp [ho, List.idxOf_append_of_mem ho]
      · simp [ho, Ne.symm he]

end StringPool

end ScriptCompiler
