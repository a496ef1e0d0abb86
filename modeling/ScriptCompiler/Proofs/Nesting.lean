import Mathlib.Data.List.Forall2
import Mathlib.Data.List.Perm.Basic
import ScriptCompiler.Proofs.Grammar

/-!
# Functions inside functions

The functions of a program are numbered in the order of their sections: a function is followed at
once by those inside it. So the functions inside a function have consecutive numbers that start
right after its own.

## Main definitions

* `Site.family`: a function and the functions inside it, in the order of their sections
* `Program.sectionOf`: the number of the function that stands at a path

## Main results

* `Site.perm_family`: the family of a function has every function inside it once
* `Site.exists_append_family`: the families inside a family are blocks of it
* `Program.WellFormed.forall₂_heads`: the segments of a program are those of the family of its top
  level
* `Program.block_of_mem`: the functions inside a function have the numbers right after its own
-/

namespace ScriptCompiler

namespace Site

theorem sizeOf_le_of_mem_all {s t : Site} (h : t ∈ s.all) : sizeOf t.node ≤ sizeOf s.node := by
  induction s using Site.induction with
  | step s ih =>
    rcases mem_all.mp h with rfl | ⟨c, hc, ht⟩
    · exact Nat.le_refl _
    · exact Nat.le_trans (ih c hc ht) (Nat.le_of_lt (sizeOf_lt_of_mem_inner hc))

theorem sizeOf_lt_of_mem_functions {f t : Site} (h : t ∈ f.functions) :
    sizeOf t.node < sizeOf f.node := by
  obtain ⟨-, c, hc, ht⟩ := mem_functions.mp h
  exact Nat.lt_of_le_of_lt (sizeOf_le_of_mem_all (mem_all_of_mem_within ht))
    (sizeOf_lt_of_mem_inner hc)

/-- **A function and the functions inside it**, in the order of their sections. -/
def family (f : Site) : List Site :=
  f :: f.functions.attach.flatMap fun ⟨t, _⟩ => t.family
termination_by sizeOf f.node
decreasing_by exact sizeOf_lt_of_mem_functions ‹_›

theorem family_eq (f : Site) : f.family = f :: f.functions.flatMap family := by
  rw [family, List.flatMap_subtype (g := family) (fun _ _ => rfl), List.unattach_attach]

/-- Induction over the functions that stand in a function. -/
theorem functions_induction {P : Site → Prop} (step : ∀ f, (∀ t ∈ f.functions, P t) → P f)
    (f : Site) : P f := by
  induction hs : sizeOf f.node using Nat.strongRecOn generalizing f with
  | _ size ih => exact step f fun t ht => ih _ (hs ▸ sizeOf_lt_of_mem_functions ht) t rfl

/-! ## The members of a family -/

/-- The functions that stand in a function are those of its nodes, in another order. -/
theorem perm_functions (f : Site) :
    f.functions.Perm ((f.inner.flatMap within).filter isFunction) := by
  have hd : ((f.inner.flatMap within).filter isFunction).filter isDeclared =
      f.declaredFunctions := by
    rw [List.filter_filter]
    refine List.filter_congr fun t _ => ?_
    cases h : t.isDeclared with
    | false => rfl
    | true => simp [isFunction_of_isDeclared h]
  have hl : ((f.inner.flatMap within).filter isFunction).filter (fun t => !t.isDeclared) =
      f.literalFunctions := by
    rw [List.filter_filter]
    exact List.filter_congr fun t _ => Bool.and_comm _ _
  rw [functions, ← hd, ← hl]
  exact List.filter_append_perm _ _

/-- All functions from a node on downwards are those from the functions that stand in it on. -/
theorem filter_isFunction_all (s : Site) :
    s.all.filter isFunction =
      (s.within.filter isFunction).flatMap fun t => t.all.filter isFunction := by
  induction s using Site.induction with
  | step s ih =>
    cases hf : s.isFunction with
    | true => simp [within_eq, hf]
    | false =>
      rw [all_eq, within_eq, hf, if_neg Bool.false_ne_true, List.filter_cons_of_neg (by simp [hf]),
        List.filter_cons_of_neg (by simp [hf]), List.filter_flatMap, List.filter_flatMap,
        List.flatMap_assoc]
      exact List.flatMap_congr ih

/-- **The family of a function** has every function from it on downwards once. -/
theorem perm_family {f : Site} (hf : f.isFunction = true) :
    f.family.Perm (f.all.filter isFunction) := by
  induction f using functions_induction with
  | step f ih =>
    have hinside : (f.inner.flatMap all).filter isFunction =
        ((f.inner.flatMap within).filter isFunction).flatMap fun t => t.all.filter isFunction := by
      rw [List.filter_flatMap, List.filter_flatMap, List.flatMap_assoc]
      exact List.flatMap_congr fun c _ => filter_isFunction_all c
    rw [family_eq, all_eq, List.filter_cons_of_pos hf, hinside]
    exact .cons _ (f.perm_functions.flatMap fun t ht => ih t ht (mem_functions.mp ht).1)

theorem mem_family {f t : Site} (hf : f.isFunction = true) :
    t ∈ f.family ↔ t ∈ f.all ∧ t.isFunction = true := by
  rw [(perm_family hf).mem_iff, List.mem_filter]

/-- No two functions of a family stand at the same path. -/
theorem nodup_paths_family {f : Site} (hf : f.isFunction = true) : (f.family.map path).Nodup :=
  ((perm_family hf).map path).nodup_iff.mpr (f.nodup_paths.sublist (List.filter_sublist.map path))

/-- **The families inside a family are blocks of it.** -/
theorem exists_append_family {f t : Site} (h : t ∈ f.family) :
    ∃ before after, f.family = before ++ t.family ++ after := by
  induction f using functions_induction with
  | step f ih =>
    rw [family_eq] at h
    rcases List.mem_cons.mp h with rfl | h
    · exact ⟨[], [], by simp⟩
    · obtain ⟨g, hg, ht⟩ := List.mem_flatMap.mp h
      obtain ⟨before, after, he⟩ := ih g hg ht
      obtain ⟨first, last, hs⟩ := List.append_of_mem hg
      refine ⟨f :: first.flatMap family ++ before, after ++ last.flatMap family, ?_⟩
      rw [family_eq, hs, List.flatMap_append, List.flatMap_cons, he]
      simp

/-- A function that stands in a function belongs to it. -/
theorem owner_of_mem_functions {f t : Site} (hf : f.isFunction = true) (h : t ∈ f.functions) :
    t.owner = f.path := by
  obtain ⟨-, c, hc, ht⟩ := mem_functions.mp h
  obtain ⟨role, node, index, -, rfl⟩ := mem_inner.mp hc
  rw [owner_of_mem_within ht, child, if_pos hf]

/-- Every function of a family but the first stands in another one of it. -/
theorem exists_mem_functions {f t : Site} (h : t ∈ f.family) :
    t = f ∨ ∃ g ∈ f.family, t ∈ g.functions := by
  induction f using functions_induction with
  | step f ih =>
    rw [family_eq] at h
    rcases List.mem_cons.mp h with rfl | h
    · exact .inl rfl
    · obtain ⟨g, hg, ht⟩ := List.mem_flatMap.mp h
      refine .inr ?_
      rcases ih g hg ht with rfl | ⟨g', hg', ht⟩
      · exact ⟨f, by rw [family_eq]; exact List.mem_cons_self, hg⟩
      · refine ⟨g', ?_, ht⟩
        rw [family_eq]
        exact List.mem_cons_of_mem _ (List.mem_flatMap.mpr ⟨g, hg, hg'⟩)

/-! ## Families and segments -/

theorem forall₂_of_map_routine {ts : List Site} {rs : List Routine}
    (h : ts.map (fun t => t.node.routine?) = rs.map some) :
    List.Forall₂ (fun t r => t.node.routine? = some r) ts rs := by
  rw [← List.forall₂_eq_eq_eq, List.forall₂_map_left_iff, List.forall₂_map_right_iff] at h
  exact h

/-- The functions that stand in a well-formed function, next to those of its body. -/
theorem forall₂_functions {f : Site} {r : Routine} (hr : f.node.routine? = some r)
    (wf : ∀ c ∈ f.inner, ∀ t ∈ c.all, t.WellFormed) :
    List.Forall₂ (fun t q => t.node.routine? = some q) f.functions (functionsIn r.body) :=
  forall₂_of_map_routine
    (map_routine_functions hr fun c hc t ht => wf c hc t (mem_all_of_mem_within ht))

/-- What is inside a function that stands in a well-formed function is well formed. -/
theorem wellFormed_of_mem_functions {f t : Site} (wf : ∀ c ∈ f.inner, ∀ t ∈ c.all, t.WellFormed)
    (ht : t ∈ f.functions) : ∀ c ∈ t.inner, ∀ u ∈ c.all, u.WellFormed := by
  intro c hc u hu
  obtain ⟨-, d, hd, ht⟩ := mem_functions.mp ht
  exact wf d hd u (mem_all_trans (mem_all_of_mem_within ht) (mem_all.mpr (.inr ⟨c, hc, hu⟩)))

/-- The segments of a well-formed function are those of its family, in the same order. -/
theorem forall₂_heads {f : Site} {r : Routine} (hr : f.node.routine? = some r)
    (wf : ∀ c ∈ f.inner, ∀ t ∈ c.all, t.WellFormed) (outer : List (List String)) :
    List.Forall₂ (fun t segment => ∃ chain q, segment = .function chain q ∧
      t.node.routine? = some q) f.family (r.segments outer) := by
  induction f using functions_induction generalizing r outer with
  | step f ih =>
    rw [family_eq, Routine.segments_eq]
    refine .cons ⟨outer, r, rfl, hr⟩ (List.rel_flatMap
      ((List.forall₂_and_left (p := (· ∈ f.functions)) _ _).mpr
        ⟨fun _ => id, forall₂_functions hr wf⟩) ?_)
    exact fun t q ⟨ht, hq⟩ => ih t ht hq (wellFormed_of_mem_functions wf ht) _

theorem length_family {f : Site} {r : Routine} (hr : f.node.routine? = some r)
    (wf : ∀ c ∈ f.inner, ∀ t ∈ c.all, t.WellFormed) : f.family.length = r.sections :=
  (forall₂_heads hr wf []).length_eq

end Site

/-! ## Numbers of sections -/

namespace Program

variable {program : Program}

theorem isFunction_root (program : Program) : program.root.isFunction = true := rfl

theorem WellFormed.inside_root (wf : program.WellFormed) :
    ∀ c ∈ program.root.inner, ∀ t ∈ c.all, t.WellFormed :=
  fun c hc t ht => wf t (List.mem_flatMap.mpr ⟨c, hc, ht⟩)

/-- **The segments of a well-formed program** are those of the family of its top level. -/
theorem WellFormed.forall₂_heads (wf : program.WellFormed) :
    List.Forall₂ Site.Heads program.root.family program.segments := by
  rw [Site.family_eq, segments]
  refine .cons program.heads_root (List.rel_flatMap
    ((List.forall₂_and_left (p := (· ∈ program.root.functions)) _ _).mpr
      ⟨fun _ => id, Site.forall₂_functions rfl wf.inside_root⟩) ?_)
  rintro t q ⟨ht, hq⟩
  refine (Site.forall₂_heads hq (Site.wellFormed_of_mem_functions wf.inside_root ht) []).imp ?_
  rintro t segment ⟨chain, q, rfl, hq⟩
  exact .function chain hq

theorem exists_getElem?_of_forall₂ {α β : Type} {R : α → β → Prop} {xs : List α} {ys : List β}
    (h : List.Forall₂ R xs ys) {k : Nat} {y : β} (hy : ys[k]? = some y) :
    ∃ x, xs[k]? = some x ∧ R x y := by
  induction h generalizing k with
  | nil => cases hy
  | cons hr _ ih =>
    cases k with
    | zero =>
      cases hy
      exact ⟨_, rfl, hr⟩
    | succ k => exact ih hy

/-- The functions of a program are its top level and the functions among its nodes. -/
theorem mem_family_root {f : Site} :
    f ∈ program.root.family ↔ f = program.root ∨ f ∈ program.sites ∧ f.isFunction = true := by
  rw [Site.mem_family program.isFunction_root, all_root, List.mem_cons]
  constructor
  · rintro ⟨rfl | h, hf⟩
    · exact .inl rfl
    · exact .inr ⟨h, hf⟩
  · rintro (rfl | ⟨h, hf⟩)
    · exact ⟨.inl rfl, rfl⟩
    · exact ⟨.inr h, hf⟩

/-- The nodes inside a function of a program are nodes of the program. -/
theorem mem_sites_of_mem_inner {f c t : Site} (hf : f ∈ program.root.family) (hc : c ∈ f.inner)
    (ht : t ∈ c.all) : t ∈ program.sites := by
  rcases mem_family_root.mp hf with rfl | ⟨hf, -⟩
  · exact List.mem_flatMap.mpr ⟨c, hc, ht⟩
  · exact mem_sites_of_mem_all hf (Site.mem_all.mpr (.inr ⟨c, hc, ht⟩))

/-- **The number of the function that stands at a path**, which is that of its section. -/
def sectionOf (program : Program) (path : List Nat) : Nat :=
  (program.root.family.map Site.path).idxOf path

theorem sectionOf_nil (program : Program) : program.sectionOf [] = 0 := by
  rw [sectionOf, Site.family_eq]
  rfl

/-- A function has as many functions before it as its number says. -/
theorem sectionOf_of_append {f : Site} {before after : List Site}
    (h : program.root.family = before ++ f :: after) :
    program.sectionOf f.path = before.length := by
  have hn := Site.nodup_paths_family program.isFunction_root
  rw [h, List.map_append, List.map_cons, List.nodup_append] at hn
  rw [sectionOf, h, List.map_append, List.map_cons, List.idxOf_append_of_notMem,
    List.idxOf_cons_self, Nat.add_zero, List.length_map]
  exact fun hm => hn.2.2 _ hm _ List.mem_cons_self rfl

/-- The functions of a program stand at the positions of their numbers. -/
theorem getElem?_family_iff {f : Site} {k : Nat} :
    program.root.family[k]? = some f ↔ f ∈ program.root.family ∧ program.sectionOf f.path = k := by
  constructor
  · intro h
    obtain ⟨hlt, hf⟩ := List.getElem?_eq_some_iff.mp h
    have he : program.root.family =
        program.root.family.take k ++ f :: program.root.family.drop (k + 1) := by
      rw [← hf, ← List.drop_eq_getElem_cons hlt, List.take_append_drop]
    refine ⟨List.mem_of_getElem? h, ?_⟩
    rw [sectionOf_of_append he, List.length_take]
    omega
  · rintro ⟨h, rfl⟩
    obtain ⟨before, after, he⟩ := List.append_of_mem h
    rw [sectionOf_of_append he, he]
    simp

theorem eq_of_sectionOf_eq {f g : Site} (hf : f ∈ program.root.family)
    (hg : g ∈ program.root.family) (h : program.sectionOf f.path = program.sectionOf g.path) :
    f = g :=
  Option.some_inj.mp
    ((getElem?_family_iff.mpr ⟨hf, h⟩).symm.trans (getElem?_family_iff.mpr ⟨hg, rfl⟩))

/-- The family of a function is a block that starts at its number. -/
theorem exists_append_of_mem {f : Site} (hf : f ∈ program.root.family) :
    ∃ before after, program.root.family = before ++ f.family ++ after ∧
      before.length = program.sectionOf f.path := by
  obtain ⟨before, after, he⟩ := Site.exists_append_family hf
  have hs : program.root.family = before ++ f :: (f.functions.flatMap Site.family ++ after) := by
    rw [he, Site.family_eq]
    simp
  exact ⟨before, after, he, (sectionOf_of_append hs).symm⟩

/-- **The functions inside a function have the numbers right after its own.** -/
theorem block_of_mem {f : Site} (hf : f ∈ program.root.family) (k : Nat) :
    (program.sectionOf f.path < k ∧ k < program.sectionOf f.path + f.family.length) ↔
      ∃ g ∈ program.root.family, f.path <+: g.path ∧ g.path ≠ f.path ∧
        program.sectionOf g.path = k := by
  have hall := (Site.mem_family program.isFunction_root).mp hf
  obtain ⟨before, after, he, hl⟩ := exists_append_of_mem hf
  rw [← hl]
  constructor
  · rintro ⟨hlt, hlt'⟩
    obtain ⟨j, rfl⟩ := Nat.exists_eq_add_of_lt hlt
    have hj : j + 1 < f.family.length := by omega
    have hg : program.root.family[before.length + j + 1]? = some (f.family[j + 1]) := by
      rw [he, List.append_assoc, List.getElem?_append_right (by omega), Nat.add_assoc,
        Nat.add_sub_cancel_left, List.getElem?_append_left hj, List.getElem?_eq_getElem hj]
    obtain ⟨hm, hs⟩ := getElem?_family_iff.mp hg
    have hin := ((Site.mem_family hall.2).mp (List.getElem_mem hj)).1
    refine ⟨_, hm, Site.prefix_of_mem_all hin, fun hp => ?_, hs⟩
    rw [hp] at hs
    omega
  · rintro ⟨g, hg, hp, hne, rfl⟩
    have hg' := (Site.mem_family program.isFunction_root).mp hg
    have hin := (Site.mem_family hall.2).mpr ⟨Site.mem_all_of_prefix_path hall.1 hg'.1 hp, hg'.2⟩
    obtain ⟨j, hj⟩ := List.mem_iff_getElem?.mp hin
    have hlt := (List.getElem?_eq_some_iff.mp hj).1
    have hk : program.sectionOf g.path = before.length + j := by
      refine (getElem?_family_iff.mp ?_).2
      rw [he, List.append_assoc, List.getElem?_append_right (by omega), Nat.add_sub_cancel_left,
        List.getElem?_append_left hlt, hj]
    have hz : j ≠ 0 := by
      rintro rfl
      rw [Site.family_eq] at hj
      cases hj
      exact hne rfl
    omega

theorem root_notMem_sites (program : Program) : program.root ∉ program.sites := by
  intro h
  obtain ⟨c, hc, ht⟩ := List.mem_flatMap.mp h
  exact Nat.lt_irrefl _ (Site.length_path_lt hc ht)

/-- **A function among the nodes of a program stands in one that has a smaller number.** -/
theorem exists_owner {t : Site} (h : t ∈ program.sites) (hf : t.isFunction = true) :
    ∃ f ∈ program.root.family, t ∈ f.functions ∧ t.owner = f.path ∧
      program.sectionOf f.path < program.sectionOf t.path := by
  have hm : t ∈ program.root.family := mem_family_root.mpr (.inr ⟨h, hf⟩)
  rcases Site.exists_mem_functions hm with rfl | ⟨f, hm', ht⟩
  · exact absurd h program.root_notMem_sites
  · have hfun := ((Site.mem_family program.isFunction_root).mp hm').2
    obtain ⟨-, c, hc, hw⟩ := Site.mem_functions.mp ht
    have hall := Site.mem_all_of_mem_within hw
    refine ⟨f, hm', ht, Site.owner_of_mem_functions hfun ht,
      ((block_of_mem hm' _).mpr ⟨t, hm, ?_, fun hp => ?_, rfl⟩).1⟩
    · exact Site.prefix_of_mem_all (Site.mem_all.mpr (.inr ⟨c, hc, hall⟩))
    · have := Site.length_path_lt hc hall
      rw [hp] at this
      exact Nat.lt_irrefl _ this

end Program

end ScriptCompiler
