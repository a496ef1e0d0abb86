import Mathlib.Data.List.Forall2
import ScriptCompiler.Proofs.Interning

/-!
# The history of a string pool

Code refers to strings by the positions that the pool gave them when the code was generated, and by
the time an image is complete many more strings have been interned. The positions are right then
because they are those of the final list: the strings of all calls, each where it comes first.

## Main definitions

* `StringPool.internAll`: strings interned one after the other, with the positions they are given
* `StringPool.Places`: a pool has a string in a position, and gives that position for it

## Main results

* `StringPool.toList_internAll`: strings interned one after the other are enlisted
* `StringPool.internAll_fst`: their positions are those in the list after all of them
* `StringPool.positions_exact`: the strings and the positions, for any calls on a pool without
  strings
-/

namespace ScriptCompiler.StringPool

/-- Interns strings one after the other: the positions they are given, and the pool after all of
them. -/
def internAll : List String → StringPool → List Nat × StringPool
  | [], pool => ([], pool)
  | text :: rest, pool =>
    let (position, pool) := pool.intern text
    let (positions, pool) := internAll rest pool
    (position :: positions, pool)

/-- **A pool places a string**: it has the string in a position, and interning the string gives that
position and leaves the pool as it is. -/
structure Places (pool : StringPool) (text : String) (position : Nat) : Prop where
  stored : pool.toList[position]? = some text
  found : pool.intern text = (position, pool)

theorem valid_internAll {pool : StringPool} (h : pool.Valid) (texts : List String) :
    (internAll texts pool).2.Valid := by
  induction texts generalizing pool with
  | nil => exact h
  | cons text rest ih => exact ih (valid_intern h text)

/-- Strings that are interned one after the other are enlisted. -/
theorem toList_internAll {pool : StringPool} (h : pool.Valid) (texts : List String) :
    (internAll texts pool).2.toList = enlistAll pool.toList texts := by
  induction texts generalizing pool with
  | nil => rfl
  | cons text rest ih =>
    rw [enlistAll_cons, ← toList_intern h]
    exact ih (valid_intern h text)

/-- **The positions of strings are final**: each is the position of the string in the list after all
calls, whenever it was given. -/
theorem internAll_fst {pool : StringPool} (h : pool.Valid) (texts : List String) :
    (internAll texts pool).1 = texts.map (enlistAll pool.toList texts).idxOf := by
  induction texts generalizing pool with
  | nil => rfl
  | cons text rest ih =>
    -- What comes after the first call only adds to the list that the call leaves behind.
    have first : (pool.intern text).1 = (enlistAll pool.toList (text :: rest)).idxOf text := by
      rw [intern_fst h, enlistAll_cons]
      symm
      exact idxOf_of_isPrefix (prefix_enlistAll _ rest) (mem_enlist_self _ _)
    have others := ih (valid_intern h text)
    rw [toList_intern h, ← enlistAll_cons] at others
    rw [List.map_cons, ← first, ← others]
    rfl

theorem Valid.places {pool : StringPool} (h : pool.Valid) {text : String}
    (hm : text ∈ pool.toList) :
    pool.Places text (pool.toList.idxOf text) :=
  ⟨List.getElem?_idxOf hm, intern_of_mem h hm⟩

/-- More calls leave a string in its position. -/
theorem Valid.places_internAll {pool : StringPool} (h : pool.Valid) {text : String}
    (hm : text ∈ pool.toList) (more : List String) :
    (internAll more pool).2.Places text (pool.toList.idxOf text) := by
  have grows : pool.toList <+: (internAll more pool).2.toList := by
    rw [toList_internAll h]
    exact prefix_enlistAll _ more
  rw [← idxOf_of_isPrefix grows hm]
  exact (valid_internAll h more).places (grows.subset hm)

/-- Positions in a list tell its strings apart. -/
theorem map_idxOf_eq_iff {names : List String} {a b : Option String}
    (h : ∀ name ∈ a, name ∈ names) :
    a.map names.idxOf = b.map names.idxOf ↔ a = b := by
  cases a with
  | none => cases b <;> simp
  | some text =>
    cases b with
    | none => simp
    | some other =>
      rw [Option.map_some, Option.map_some, Option.some.injEq, Option.some.injEq]
      exact List.idxOf_inj (h text rfl)

/-- **The strings and the positions** after any calls on a pool without strings.

* The strings are those of the calls, without later repetitions.
* Every call gives the position of its string in that list.
* Whatever is interned afterwards, each string stays in its position, and interning it again gives
  the same position and changes nothing.
* Two calls give the same position exactly if their strings are equal. -/
theorem positions_exact (texts : List String) :
    (internAll texts empty).2.toList = texts.eraseDups ∧
    (internAll texts empty).1 = texts.map texts.eraseDups.idxOf ∧
    (∀ more, List.Forall₂ (internAll more (internAll texts empty).2).2.Places texts
      (internAll texts empty).1) ∧
    ∀ i j : Nat, (internAll texts empty).1[i]? = (internAll texts empty).1[j]? ↔
      texts[i]? = texts[j]? := by
  have strings : (internAll texts empty).2.toList = texts.eraseDups := by
    rw [toList_internAll valid_empty]
    exact enlistAll_nil texts
  have positions : (internAll texts empty).1 = texts.map texts.eraseDups.idxOf := by
    rw [internAll_fst valid_empty, ← enlistAll_nil]
    rfl
  refine ⟨strings, positions, fun more => ?_, fun i j => ?_⟩
  · rw [positions, List.forall₂_map_right_iff]
    refine List.forall₂_same.mpr fun text ht => ?_
    rw [← strings]
    apply (valid_internAll valid_empty texts).places_internAll
    rw [strings]
    exact List.mem_eraseDups.mpr ht
  · rw [positions, List.getElem?_map, List.getElem?_map]
    apply map_idxOf_eq_iff
    intro text ht
    exact List.mem_eraseDups.mpr (List.mem_of_getElem? ht)

/-- The second call for `b` gives its old position, and the empty string gets one like any other. -/
example : (internAll ["b", "a", "b", ""] empty).1 = [0, 1, 0, 2] := by decide +kernel

end ScriptCompiler.StringPool
