import Mathlib.Order.Interval.Set.Defs
import Mathlib.Data.Set.Function
import ScriptCompiler.Proofs.Acceptance
import ScriptCompiler.Proofs.Nesting

/-!
# Closures and sections

Every function of a program has one section, and the closures over it are made where it stands: two
in all for a function that is declared by name, one when it is bound and one when its declaration is
passed, and one for any other.

## Main definitions

* `Line.closed?`, `Instruction.closed?`: the section that a closure is made over
* `Assembly.closed`: the sections that lines make closures over

## Main results

* `Emits.closed`: the closures in the lines of a plan are over what it passes and over its functions
* `Program.sectionOf_functions`: the numbers of the functions that stand in a function
* `Program.closures_exact`: every function is compiled once, into a section of its own
-/

namespace ScriptCompiler

/-- The section that the closure of a line is made over. -/
def Line.closed? : Line → Option SectionId
  | unary .close id => some id
  | _ => none

/-- The section that the closure of an instruction is made over. -/
def Instruction.closed? (i : Instruction) : Option SectionId :=
  if i.opcode = .close then (i.operands.map UInt32.toNat).head? else none

/-- The sections that lines make closures over. -/
def Assembly.closed (lines : List Line) : List SectionId := lines.filterMap Line.closed?

@[simp] theorem Assembly.closed_append (lines more : List Line) :
    closed (lines ++ more) = closed lines ++ closed more :=
  List.filterMap_append

theorem Assembly.closed_cons (l : Line) (lines : List Line) :
    closed (l :: lines) = l.closed?.toList ++ closed lines := by
  rw [closed, closed, List.filterMap_cons]
  cases l.closed? <;> rfl

/-! ## Where sections start -/

theorem starts_append (next : SectionId) (rs more : List Routine) :
    starts next (rs ++ more) = starts next rs ++ starts (next + sectionsOf rs) more := by
  induction rs generalizing next with
  | nil => rfl
  | cons r rest ih => simp [starts, ih, Nat.add_assoc]

theorem le_of_mem_starts {next id : SectionId} {rs : List Routine} (h : id ∈ starts next rs) :
    next ≤ id := by
  induction rs generalizing next with
  | nil => cases h
  | cons r rest ih =>
    rcases List.mem_cons.mp h with rfl | h
    · exact Nat.le_refl _
    · exact Nat.le_trans (Nat.le_add_right _ _) (ih h)

/-- No two functions start at the same section. -/
theorem nodup_starts (next : SectionId) (rs : List Routine) : (starts next rs).Nodup := by
  induction rs generalizing next with
  | nil => exact List.nodup_nil
  | cons r rest ih =>
    refine List.nodup_cons.mpr ⟨fun h => ?_, ih _⟩
    have pos : 0 < r.sections := r.sections_eq ▸ Nat.succ_pos _
    exact Nat.not_le.mpr (Nat.lt_add_of_pos_right pos) (le_of_mem_starts h)

/-! ## Closures in lines -/

theorem Line.closed?_of_fixed {l : Line} (h : l.Fixed) : l.closed? = none := by
  cases l with
  | unary op operand =>
    simp only [Line.Fixed, List.mem_cons, List.not_mem_nil, or_false] at h
    rcases h with rfl | rfl | rfl | rfl <;> rfl
  | _ => rfl

/-- The closures of the lines of plans are those of their instructions. -/
theorem Line.Planned.closed?_eq {chain : List (List String)} {l : Line} (h : l.Planned chain)
    (hid : ∀ id ∈ l.closed?, id < 2 ^ 32) {strings : List String} {target : Label → Nat}
    {offset : Nat} {i : Instruction} (hi : l.instruction? strings target offset = some i) :
    i.closed? = l.closed? := by
  cases h with
  | fixed h =>
    cases l with
    | plain op => cases op <;> cases hi <;> rfl
    | unary op operand =>
      simp only [Line.Fixed, List.mem_cons, List.not_mem_nil, or_false] at h
      rcases h with rfl | rfl | rfl | rfl <;> cases hi <;> rfl
    | binary op first second =>
      cases h
      cases hi
      rfl
    | text op string =>
      simp only [Line.Fixed, List.mem_cons, List.not_mem_nil, or_false] at h
      rcases h with rfl | rfl | rfl <;> cases hi <;> rfl
    | number value =>
      cases hi
      rfl
    | jump => cases h
    | define => cases hi
  | load name | store name =>
    rw [accessLine] at hi ⊢
    split at hi <;> cases hi <;> rfl
  | @jump op label h => cases op <;> cases hi <;> first | rfl | cases h
  | define => cases hi
  | close id =>
    cases hi
    simp [Instruction.closed?, closed?, toNat_toUInt32 (hid id rfl)]

/-- The closures in a listing are those of its lines. -/
theorem Assembly.closed_listing {chain : List (List String)} (strings : List String)
    (target : Label → Nat) (offset : Nat) {lines : List Line} (h : ∀ l ∈ lines, l.Planned chain)
    (hid : ∀ id ∈ closed lines, id < 2 ^ 32) :
    (listing strings target offset lines).filterMap Instruction.closed? = closed lines := by
  induction lines generalizing offset with
  | nil => rfl
  | cons l lines ih =>
    rw [List.forall_mem_cons] at h
    rw [closed_cons, List.forall_mem_append] at hid
    rw [listing, List.filterMap_append, ih _ h.2 hid.2, closed_cons]
    cases hi : l.instruction? strings target offset with
    | none =>
      cases l with
      | define label => rfl
      | _ => cases hi
    | some i =>
      rw [← h.1.closed?_eq (by simpa using hid.1) hi]
      cases hc : i.closed? <;> simp [hc]

namespace Emits

open ScriptCompiler.Part

variable {chain : List (List String)} {m m' : Mark} {parts : List Part} {lines : List Line}
  {pieces : List Piece}

/-- Elementary parts make closures over the declared functions that they pass. -/
theorem closed_of_step {p : Part} {here : List Line} {m₁ : Mark} (h : Step chain m p here m₁)
    (hp : p.Neat) :
    Assembly.closed here = m.pending.take p.passes ∧ m₁.sections = m.sections ∧
      ∃ more, m₁.pending = m.pending.drop p.passes ++ more := by
  cases h with
  | line l =>
    refine ⟨?_, rfl, [], by simp [passes]⟩
    simp [Assembly.closed, Line.closed?_of_fixed hp, passes]
  | load name | store name =>
    refine ⟨?_, rfl, [], by simp [passes]⟩
    rw [accessLine]
    split <;> rfl
  | pass hm => exact ⟨by rw [hm]; rfl, rfl, [], by simp [hm, passes]⟩
  | note => exact ⟨rfl, rfl, [m.sections], rfl⟩
  | _ => exact ⟨rfl, rfl, [], by simp [passes]⟩

/-- What is left to pass after a construct, and maybe what it notes. -/
theorem exists_pending_of_inner {p : Part} {plan : List Part} (hp : p.Inner plan)
    (h : Emits chain m plan lines pieces m') :
    ∃ more, m'.pending = m.pending.drop p.passes ++ more := by
  rw [← passesOf_of_inner hp]
  cases hp with
  | value => exact ⟨[], by rw [h.pending (Node.notes_plan _), List.append_nil]⟩
  | statement => exact ⟨[], by rw [h.pending (Node.notes_statementPlan _), List.append_nil]⟩
  | bind =>
    refine ⟨[m.sections], ?_⟩
    rw [pending_bindPlan h,
      passesOf_eq_zero (by simp [Routine.bindPlan, or_imp, forall_and, passes]), List.drop_zero]

theorem take_add_of_drop {pending pending₁ more : List SectionId} {a b : Nat}
    (h : pending₁ = pending.drop a ++ more) (hd : a + b ≤ pending.length) :
    pending.take (a + b) = pending.take a ++ pending₁.take b ∧ b ≤ pending₁.length := by
  have hb : b ≤ (pending.drop a).length := by
    rw [List.length_drop]
    omega
  rw [List.take_add, h, List.take_append_of_le_length hb, List.length_append]
  exact ⟨rfl, Nat.le_trans hb (Nat.le_add_right _ _)⟩

/-- **The closures in the lines of a plan** are over the declared functions that it passes and over
its own functions. -/
theorem closed (h : Emits chain m parts lines pieces m') (hn : ∀ p ∈ parts, p.Neat)
    (hd : passesOf parts ≤ m.pending.length) :
    (Assembly.closed lines).Perm
      (m.pending.take (passesOf parts) ++ starts m.sections (parts.flatMap routines)) := by
  induction h with
  | nil => exact .refl _
  | step hp _ ih =>
    rw [List.forall_mem_cons] at hn
    rw [passesOf_cons] at hd ⊢
    obtain ⟨hc, hs, more, hm⟩ := closed_of_step hp hn.1
    obtain ⟨ht, hd'⟩ := take_add_of_drop hm hd
    rw [Assembly.closed_append, hc, ht, List.flatMap_cons, routines_of_step hp, List.nil_append,
      ← hs, List.append_assoc]
    exact (ih hn.2 hd').append_left _
  | @inner _ m p _ _ _ m₁ _ _ _ _ hp hi _ ihi ih =>
    rw [List.forall_mem_cons] at hn
    rw [passesOf_cons] at hd ⊢
    obtain ⟨more, hm⟩ : ∃ more, m₁.pending = m.pending.drop p.passes ++ more :=
      exists_pending_of_inner (m := m.inner) hp hi
    obtain ⟨ht, hd'⟩ := take_add_of_drop hm hd
    have hs := hi.sections_eq
    have hinside := ihi (disciplined_of_inner hp).neat
      (passesOf_of_inner hp ▸ Nat.le_trans (Nat.le_add_right _ _) hd)
    rw [routines_of_inner hp] at hs hinside
    rw [passesOf_of_inner hp] at hinside
    have hrest := ih hn.2 hd'
    rw [Assembly.closed_append, ht, List.flatMap_cons, starts_append]
    simp only [Mark.inner, Mark.outer] at hinside hrest hs ⊢
    rw [hs] at hrest
    refine (hinside.append hrest).trans ?_
    simp only [List.append_assoc]
    refine List.Perm.append_left _ ?_
    rw [← List.append_assoc, ← List.append_assoc]
    exact List.perm_append_comm.append_right _
  | @literal _ m r _ _ m₁ _ _ _ _ hi _ _ ih =>
    rw [List.forall_mem_cons] at hn
    rw [passesOf_cons, show (Part.literal r).passes = 0 from rfl, Nat.zero_add] at hd ⊢
    have hs : m₁.sections = m.sections + r.sections := by
      rw [hi.sections_eq, Routine.flatMap_routines_plan, r.sections_eq]
      simp only [Mark.inside, sectionsOf]
      omega
    have hrest := ih hn.2 hd
    simp only [Mark.after, hs] at hrest
    rw [Assembly.closed_cons, List.flatMap_cons]
    exact (hrest.cons _).trans List.perm_middle.symm

/-- Lines alone make no closures. -/
theorem closed_of_lines (fixed : List Line) (h : Emits chain m (fixed.map .line) lines pieces m')
    (hf : ∀ l ∈ fixed, l.Fixed) :
    Assembly.closed lines = [] ∧ m' = m := by
  obtain ⟨rfl, rfl⟩ := h.eq_of_lines fixed
  exact ⟨List.filterMap_eq_nil_iff.mpr fun l hl => Line.closed?_of_fixed (hf l hl), rfl⟩

/-- Binding notes the sections of the declared functions, and the statements pass all of them. -/
theorem closed_bodyPlan {body : List Node} (h : Emits chain m (bodyPlan body) lines pieces m')
    (hp : m.pending = []) :
    (Assembly.closed lines).Perm
      (starts m.sections (declaredIn body) ++ starts m.sections (functionsIn body)) := by
  obtain ⟨_, _, m₂, _, _, hinit, hend, rfl, -⟩ := h.of_append
  obtain ⟨_, _, m₁, _, _, hbinds, hstatements, rfl, -⟩ := hinit.of_append
  have hend := (closed_of_lines [.plain .pushUndefined, .plain .ret] hend
    (by simp [Line.Fixed, Opcode.operandWords])).1
  have hz : passesOf ((declaredIn body).map .bind) = 0 := passesOf_eq_zero (by simp [passes])
  have hc₁ := hbinds.closed (by simp [Neat]) (hz ▸ Nat.zero_le _)
  rw [hz, List.take_zero, List.nil_append, flatMap_routines_bind] at hc₁
  have hpending : m₁.pending = starts m.sections (declaredIn body) := by
    rw [hbinds.pending_binds, hp, List.nil_append]
  have hpasses : passesOf (body.map .statement) = m₁.pending.length := by
    rw [passesOf_statements, hpending, length_starts]
  have hs : m₁.sections = m.sections + sectionsOf (declaredIn body) := by
    rw [hbinds.sections_eq, flatMap_routines_bind]
  have hc₂ := hstatements.closed (by simp [Neat]) (Nat.le_of_eq hpasses)
  rw [hpasses, List.take_length, flatMap_routines_statement, hpending, hs] at hc₂
  rw [Assembly.closed_append, Assembly.closed_append, hend, List.append_nil, functionsIn,
    starts_append]
  exact hc₁.append hc₂

/-- **The closures in a section** are over its declared functions, and then over all its
functions. -/
theorem closed_segment {segment : Segment} (h : Emits chain m segment.plan lines pieces m')
    (hp : m.pending = []) :
    (Assembly.closed lines).Perm (starts m.sections (declaredIn segment.body) ++
      starts m.sections (functionsIn segment.body)) := by
  cases segment with
  | top body => exact closed_bodyPlan h hp
  | function outer r =>
    obtain ⟨_, _, m₁, _, _, hprologue, hbody, rfl, -⟩ := h.of_append
    obtain ⟨hc, rfl⟩ := closed_of_lines _ hprologue r.fixed_prologue
    rw [Assembly.closed_append, hc, List.nil_append]
    exact closed_bodyPlan hbody hp

end Emits

/-! ## Numbers and sections -/

/-- The segments of a function are all of functions. -/
theorem Routine.function_of_mem_segments {r : Routine} {outer : List (List String)}
    {segment : Segment} (h : segment ∈ r.segments outer) :
    ∃ chain q, segment = .function chain q := by
  induction hb : sizeOf r.body using Nat.strongRecOn generalizing r outer with
  | _ size ih =>
    rw [segments_eq] at h
    rcases List.mem_cons.mp h with rfl | h
    · exact ⟨outer, r, rfl⟩
    · obtain ⟨q, hq, hs⟩ := List.mem_flatMap.mp h
      exact ih _ (hb ▸ size_of_mem_functionsIn hq) hs rfl

theorem Site.mem_functions_of_mem_closed {f t : Site}
    (h : t ∈ f.declaredFunctions ++ f.functions) : t ∈ f.functions := by
  rcases List.mem_append.mp h with h | h
  · exact List.mem_append_left _ h
  · exact h

namespace Program

variable {program : Program}

/-- Functions whose families stand next to each other have the numbers of their sections. -/
theorem map_sectionOf {ts : List Site} {rs : List Routine} (before after : List Site)
    (h : program.root.family = before ++ ts.flatMap Site.family ++ after)
    (hr : List.Forall₂ (fun t r => t.node.routine? = some r) ts rs)
    (hl : ∀ t ∈ ts, ∀ r, t.node.routine? = some r → t.family.length = r.sections) :
    ts.map (fun t => program.sectionOf t.path) = starts before.length rs := by
  induction hr generalizing before with
  | nil => rfl
  | @cons t r ts rs ht _ ih =>
    rw [List.forall_mem_cons] at hl
    rw [List.flatMap_cons] at h
    have hs : program.root.family = before ++ t :: (t.functions.flatMap Site.family ++
        ts.flatMap Site.family ++ after) := by
      rw [h, Site.family_eq]
      simp
    have hrest := ih (before ++ t.family) (by rw [h]; simp) hl.2
    rw [List.length_append, hl.1 r ht] at hrest
    rw [List.map_cons, sectionOf_of_append hs, hrest]
    rfl

/-- **The numbers of the functions that stand in a function** are those of their sections: the
families inside stand right behind the function, those of the declared ones first. -/
theorem sectionOf_functions (wf : program.WellFormed) {f : Site} (hf : f ∈ program.root.family)
    {r : Routine} (hr : f.node.routine? = some r) :
    f.declaredFunctions.map (fun t => program.sectionOf t.path) =
        starts (program.sectionOf f.path + 1) (declaredIn r.body) ∧
      f.functions.map (fun t => program.sectionOf t.path) =
        starts (program.sectionOf f.path + 1) (functionsIn r.body) := by
  have inside : ∀ c ∈ f.inner, ∀ t ∈ c.all, t.WellFormed :=
    fun c hc t ht => wf t (mem_sites_of_mem_inner hf hc ht)
  have hlength : ∀ t ∈ f.functions, ∀ q, t.node.routine? = some q →
      t.family.length = q.sections :=
    fun t ht q hq => Site.length_family hq (Site.wellFormed_of_mem_functions inside ht)
  obtain ⟨before, after, he, hl⟩ := exists_append_of_mem hf
  rw [f.family_eq] at he
  rw [← hl, ← List.length_singleton (a := f), ← List.length_append]
  constructor
  · refine map_sectionOf _ (f.literalFunctions.flatMap Site.family ++ after) ?_
      (Site.forall₂_of_map_routine (Site.map_routine_declaredFunctions hr fun c hc t ht =>
        inside c hc t (Site.mem_all_of_mem_within ht)))
      (fun t ht => hlength t (List.mem_append_left _ ht))
    rw [he, Site.functions]
    simp
  · refine map_sectionOf _ after ?_ (Site.forall₂_functions hr inside) hlength
    rw [he]
    simp

/-- The functions that stand in a function of a program are functions among its nodes. -/
theorem mem_sites_of_mem_functions {f t : Site} (hf : f ∈ program.root.family)
    (ht : t ∈ f.functions) : t ∈ program.sites ∧ t.isFunction = true := by
  obtain ⟨hfun, c, hc, hw⟩ := Site.mem_functions.mp ht
  exact ⟨mem_sites_of_mem_inner hf hc (Site.mem_all_of_mem_within hw), hfun⟩

/-- **The closures in a section** are over the functions that stand in its function: first over the
declared ones, and then over all of them. -/
theorem closed_of_assembled (wf : program.WellFormed) {image : Image} {id : Nat} {f : Site}
    (hf : program.root.family[id]? = some f) {segment : Segment} (hs : f.Heads segment)
    {lines : List Line} (ha : Assembled image id segment lines) :
    (Assembly.closed lines).Perm
      ((f.declaredFunctions ++ f.functions).map fun t => program.sectionOf t.path) := by
  obtain ⟨hm, rfl⟩ := getElem?_family_iff.mp hf
  obtain ⟨r, hr, hb⟩ := hs.exists_routine
  obtain ⟨hd, hfunctions⟩ := sectionOf_functions wf hm hr
  obtain ⟨_, _, _, he, -⟩ := ha.emits
  rw [List.map_append, hd, hfunctions, hb]
  exact he.closed_segment rfl

/-- A function stands in the function that owns it. -/
theorem mem_functions_iff {f t : Site} (hf : f ∈ program.root.family) (ht : t ∈ program.sites)
    (hfun : t.isFunction = true) :
    t ∈ f.functions ↔ program.sectionOf f.path = program.sectionOf t.owner := by
  obtain ⟨g, hg, htg, howner, -⟩ := exists_owner ht hfun
  constructor
  · intro h
    rw [Site.owner_of_mem_functions ((Site.mem_family program.isFunction_root).mp hf).2 h]
  · intro h
    rw [howner] at h
    exact eq_of_sectionOf_eq hf hg h ▸ htg

/-- Numbers tell the functions of a program apart. -/
theorem mem_map_sectionOf {ts : List Site} (hts : ∀ u ∈ ts, u ∈ program.root.family) {t : Site}
    (ht : t ∈ program.root.family) :
    program.sectionOf t.path ∈ ts.map (fun u => program.sectionOf u.path) ↔ t ∈ ts := by
  refine ⟨fun h => ?_, fun h => List.mem_map_of_mem h⟩
  obtain ⟨u, hu, he⟩ := List.mem_map.mp h
  exact eq_of_sectionOf_eq (hts u hu) ht he ▸ hu

/-- A function is closed over only where it stands, and twice if it is declared there. -/
theorem count_sectionOf (wf : program.WellFormed) {f t : Site} (hf : f ∈ program.root.family)
    (ht : t ∈ program.sites) (hfun : t.isFunction = true) :
    ((f.declaredFunctions ++ f.functions).map fun u => program.sectionOf u.path).count
        (program.sectionOf t.path) =
      if program.sectionOf f.path = program.sectionOf t.owner then if t.isDeclared then 2 else 1
      else 0 := by
  obtain ⟨r, hr⟩ := Option.isSome_iff_exists.mp
    ((Site.mem_family program.isFunction_root).mp hf).2
  obtain ⟨hd, hfunctions⟩ := sectionOf_functions wf hf hr
  have inside : ∀ u ∈ f.functions, u ∈ program.root.family :=
    fun u hu => mem_family_root.mpr (.inr (mem_sites_of_mem_functions hf hu))
  have hm : t ∈ program.root.family := mem_family_root.mpr (.inr ⟨ht, hfun⟩)
  have declared : t ∈ f.declaredFunctions ↔ t ∈ f.functions ∧ t.isDeclared = true := by
    rw [Site.mem_functions, Site.declaredFunctions, List.mem_filter, List.mem_flatMap]
    exact ⟨fun h => ⟨⟨hfun, h.1⟩, h.2⟩, fun h => ⟨h.1.2, h.2⟩⟩
  -- Neither list of numbers has one twice, so each adds one if the function is in its list.
  rw [List.map_append, List.count_append, List.Nodup.count (hd ▸ nodup_starts _ _),
    List.Nodup.count (hfunctions ▸ nodup_starts _ _)]
  simp only [mem_map_sectionOf (fun u hu => inside u (List.mem_append_left _ hu)) hm,
    mem_map_sectionOf inside hm, declared, mem_functions_iff hf ht hfun]
  by_cases howner : program.sectionOf f.path = program.sectionOf t.owner
  · cases hdecl : t.isDeclared <;> simp [howner]
  · simp [howner]

/-! ## Functions and sections -/

variable {config : Config} {image : Image}

theorem length_family_root (h : program.compile config = .ok image) :
    program.root.family.length = image.sections.length :=
  (wellFormed_of_compile h).forall₂_heads.length_eq.trans (assembled h).1.symm

theorem sectionOf_lt (h : program.compile config = .ok image) {f : Site}
    (hf : f ∈ program.root.family) : program.sectionOf f.path < image.sections.length :=
  length_family_root h ▸
    (List.getElem?_eq_some_iff.mp (getElem?_family_iff.mpr ⟨hf, rfl⟩)).1

/-- The functions among the nodes of a program have the numbers of the sections after the first. -/
theorem bijOn_sectionOf (h : program.compile config = .ok image) :
    Set.BijOn (fun f : Site => program.sectionOf f.path)
      {f | f ∈ program.sites ∧ f.isFunction = true} (Set.Ico 1 image.sections.length) := by
  refine ⟨fun f ⟨hf, hfun⟩ => ⟨?_, ?_⟩, fun f hf g hg he => ?_, fun k ⟨hk, hlt⟩ => ?_⟩
  · obtain ⟨_, -, -, -, hlt⟩ := exists_owner hf hfun
    exact Nat.succ_le_of_lt (Nat.lt_of_le_of_lt (Nat.zero_le _) hlt)
  · exact sectionOf_lt h (mem_family_root.mpr (.inr ⟨hf, hfun⟩))
  · exact eq_of_sectionOf_eq (mem_family_root.mpr (.inr hf)) (mem_family_root.mpr (.inr hg)) he
  · rw [← length_family_root h] at hlt
    obtain ⟨hm, hs⟩ := getElem?_family_iff.mp (List.getElem?_eq_getElem hlt)
    rcases mem_family_root.mp hm with he | hf
    · rw [he] at hs
      exact absurd (hs.symm.trans program.sectionOf_nil) (Nat.ne_of_gt hk)
    · exact ⟨_, hf, hs⟩

/-- The section that a function has the number of is assembled from the function. -/
theorem exists_assembled_function (h : program.compile config = .ok image) {f : Site}
    (hf : f ∈ program.sites) (hfun : f.isFunction = true) :
    ∃ chain r lines, f.node.routine? = some r ∧
      Assembled image (program.sectionOf f.path) (.function chain r) lines := by
  have hm : f ∈ program.root.family := mem_family_root.mpr (.inr ⟨hf, hfun⟩)
  obtain ⟨segment, lines, hs, ha⟩ := exists_assembled h (sectionOf_lt h hm)
  obtain ⟨g, hg, hh⟩ := exists_getElem?_of_forall₂ (wellFormed_of_compile h).forall₂_heads hs
  cases (getElem?_family_iff.mpr ⟨hm, rfl⟩).symm.trans hg
  have hpos : 0 < program.sectionOf f.path := ((bijOn_sectionOf h).1 ⟨hf, hfun⟩).1
  obtain ⟨k, hk⟩ := Nat.exists_eq_succ_of_ne_zero (Nat.ne_of_gt hpos)
  rw [hk, segments, List.getElem?_cons_succ] at hs
  obtain ⟨q, -, hs⟩ := List.mem_flatMap.mp (List.mem_of_getElem? hs)
  obtain ⟨chain, r, rfl⟩ := q.function_of_mem_segments hs
  cases hh with
  | function _ hr => exact ⟨chain, r, lines, hr, ha⟩

/-- **The closures of an image** are over the functions that stand in the function of their
section. -/
theorem closed_of_instructions (h : program.compile config = .ok image)
    (hn : image.sections.length ≤ 2 ^ 32) {id : Nat} {is : List Instruction}
    (hi : image.instructions id = .ok is) :
    ∃ f ∈ program.root.family, program.sectionOf f.path = id ∧
      (is.filterMap Instruction.closed?).Perm
        ((f.declaredFunctions ++ f.functions).map fun t => program.sectionOf t.path) := by
  have wf := wellFormed_of_compile h
  obtain ⟨segment, lines, hs, ha⟩ := exists_assembled h (Image.lt_of_instructions hi)
  obtain ⟨f, hf, hh⟩ := exists_getElem?_of_forall₂ wf.forall₂_heads hs
  obtain ⟨hm, hid⟩ := getElem?_family_iff.mp hf
  have hclosed := closed_of_assembled wf hf hh ha
  obtain ⟨_, _, _, he, -⟩ := ha.emits
  refine ⟨f, hm, hid, ?_⟩
  cases ha.instructions_eq.symm.trans hi
  rwa [Assembly.closed_listing _ _ _ (he.planned (Assembled.disciplined segment).neat)]
  intro k hk
  obtain ⟨t, ht, rfl⟩ := List.mem_map.mp (hclosed.mem_iff.mp hk)
  exact Nat.lt_of_lt_of_le (sectionOf_lt h (mem_family_root.mpr
    (.inr (mem_sites_of_mem_functions hm (Site.mem_functions_of_mem_closed ht))))) hn

/-- **Every function is compiled once, into a section of its own.** The functions among the nodes of
a program, by where they stand, correspond to the sections of its image after the first, and all
sections decode. The section of a function comes after that of the function around it and right
before those of the functions inside it. Closures over it are made in the section of the function
around it and nowhere else, two if it is declared by name and one if it is not; and no closure is
made over anything else. -/
theorem closures_exact (h : program.compile config = .ok image)
    (hn : image.sections.length ≤ 2 ^ 32) :
    (0 < image.sections.length ∧
      ∀ id < image.sections.length, ∃ is, image.instructions id = .ok is) ∧
    ∃ sectionOf : List Nat → Nat, sectionOf [] = 0 ∧
      Set.BijOn (fun f : Site => sectionOf f.path)
        {f | f ∈ program.sites ∧ f.isFunction = true} (Set.Ico 1 image.sections.length) ∧
      (∀ f ∈ program.sites, f.isFunction = true →
        (∃ chain r lines, f.node.routine? = some r ∧
          Assembled image (sectionOf f.path) (.function chain r) lines) ∧
        sectionOf f.owner < sectionOf f.path ∧
        (∀ id is, image.instructions id = .ok is →
          (is.filterMap Instruction.closed?).count (sectionOf f.path) =
            if id = sectionOf f.owner then if f.isDeclared then 2 else 1 else 0) ∧
        ∃ last, ∀ k, (sectionOf f.path < k ∧ k < last) ↔
          ∃ g ∈ program.sites, g.isFunction = true ∧ f.path <+: g.path ∧ g.path ≠ f.path ∧
            sectionOf g.path = k) ∧
      ∀ id is, image.instructions id = .ok is →
        ∀ k ∈ is.filterMap Instruction.closed?,
          ∃ f ∈ program.sites, f.isFunction = true ∧ sectionOf f.path = k := by
  have wf := wellFormed_of_compile h
  refine ⟨sections_decode h, program.sectionOf, program.sectionOf_nil, bijOn_sectionOf h,
    fun f hf hfun => ⟨exists_assembled_function h hf hfun, ?_, fun id is hi => ?_, ?_⟩,
    fun id is hi k hk => ?_⟩
  · obtain ⟨_, -, -, howner, hlt⟩ := exists_owner hf hfun
    exact howner ▸ hlt
  · obtain ⟨g, hg, rfl, hclosed⟩ := closed_of_instructions h hn hi
    rw [hclosed.count_eq, count_sectionOf wf hg hf hfun]
  · have hm : f ∈ program.root.family := mem_family_root.mpr (.inr ⟨hf, hfun⟩)
    refine ⟨program.sectionOf f.path + f.family.length, fun k => (block_of_mem hm k).trans ?_⟩
    constructor
    · rintro ⟨g, hg, hp, hne, hk⟩
      rcases mem_family_root.mp hg with rfl | ⟨hg, hgf⟩
      · exact absurd (List.prefix_nil.mp hp).symm hne
      · exact ⟨g, hg, hgf, hp, hne, hk⟩
    · rintro ⟨g, hg, hgf, hp, hne, hk⟩
      exact ⟨g, mem_family_root.mpr (.inr ⟨hg, hgf⟩), hp, hne, hk⟩
  · obtain ⟨f, hf, -, hclosed⟩ := closed_of_instructions h hn hi
    obtain ⟨t, ht, rfl⟩ := List.mem_map.mp (hclosed.mem_iff.mp hk)
    obtain ⟨ht, hfun⟩ := mem_sites_of_mem_functions hf (Site.mem_functions_of_mem_closed ht)
    exact ⟨t, ht, hfun, rfl⟩

/-- A function that is declared by name returns a function literal. -/
theorem closures_exact_nested :
    ∃ image outer inner, ∃ sectionOf : List Nat → Nat,
      (compile {} ⟨[.function (some "f") [] [.ret (some (.function none [] []))]]⟩ = .ok image ∧
        image.sections.length ≤ 2 ^ 32) ∧
      image.instructions 0 = .ok outer ∧ image.instructions 1 = .ok inner ∧
      sectionOf [0] = 1 ∧ sectionOf [0, 0, 0] = 2 ∧
      (outer.filterMap Instruction.closed?).count (sectionOf [0]) = 2 ∧
      (inner.filterMap Instruction.closed?).count (sectionOf [0, 0, 0]) = 1 := by
  have h : compile {} ⟨[.function (some "f") [] [.ret (some (.function none [] []))]]⟩ = .ok
      { sections := [
          [19, 0, 0, 0, 1, 0, 0, 0, 18, 0, 0, 0, 0, 0, 0, 0, 27, 0, 0, 0, 19, 0, 0, 0, 1, 0, 0, 0,
            27, 0, 0, 0, 0, 0, 0, 0, 1, 0, 0, 0],
          [21, 0, 0, 0, 0, 0, 0, 0, 19, 0, 0, 0, 2, 0, 0, 0, 1, 0, 0, 0, 0, 0, 0, 0, 1, 0, 0, 0],
          [0, 0, 0, 0, 1, 0, 0, 0]]
        strings := ["f"] } := by
    decide +kernel
  obtain ⟨⟨-, decode⟩, sectionOf, hzero, hbij, hfunctions, -⟩ := closures_exact h (by decide)
  have hf : (⟨[0], [], .statement, false, .function (some "f") []
      [.ret (some (.function none [] []))]⟩ : Site) ∈
      sites ⟨[.function (some "f") [] [.ret (some (.function none [] []))]]⟩ := by
    simp [sites, root, Site.inner, Site.all_eq, Site.child, Node.children, Site.isFunction,
      Node.routine?]
  have hg : (⟨[0, 0, 0], [0], .value, false, .function none [] []⟩ : Site) ∈
      sites ⟨[.function (some "f") [] [.ret (some (.function none [] []))]]⟩ := by
    simp [sites, root, Site.inner, Site.all_eq, Site.child, Node.children, Site.isFunction,
      Node.routine?]
  obtain ⟨outer, houter⟩ := decode 0 (Nat.zero_lt_succ 2)
  obtain ⟨inner, hinner⟩ := decode 1 (by decide)
  obtain ⟨-, hlt, hcount, -⟩ := hfunctions _ hf rfl
  obtain ⟨-, hlt', hcount', -⟩ := hfunctions _ hg rfl
  have hlast : sectionOf [0, 0, 0] < 3 := (hbij.1 ⟨hg, rfl⟩).2
  simp only [hzero] at hlt hlt' hcount hcount'
  have hone : sectionOf [0] = 1 := by omega
  rw [hone] at hlt' hcount'
  refine ⟨_, outer, inner, sectionOf, ⟨h, by decide⟩, houter, hinner, hone, by omega, ?_, ?_⟩
  · rw [hcount 0 _ houter]
    rfl
  · rw [hcount' 1 _ hinner]
    rfl

end Program

end ScriptCompiler
