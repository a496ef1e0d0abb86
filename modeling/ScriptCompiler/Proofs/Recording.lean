import ScriptCompiler.Proofs.Declaring

/-!
# The record of compiled functions

Most steps of code generation have nothing to do with the record of the functions that have been
compiled. Those that compile a function look it up first and record it afterwards, and they do so
only for functions that stand in a region of the program. So what such a step does can be told
without the record: it goes as a step that is given the sections of the functions which have been
compiled.

## Main definitions

* `Beyond`: the paths through the positions under a path from one position on
* `Generator.Blind`: a step that has nothing to do with the record
* `Generator.Within`: a step that records functions only in a region
* `Generator.Standing`: which functions of a region have been compiled
* `Generator.Follows`: a step goes as one that is given the sections of compiled functions

## Main results

* `Generator.closeFunction_ok`: what a closure over a function comes to
* `Generator.Within.closeFunction`: a function is recorded where it stands, and what is in it below
* `Generator.Follows.compiled`, `Generator.Follows.lookedUp`: closures over functions
* `Generator.Follows.bind`, `Generator.Follows.child`: steps in regions that have nothing in common
-/

namespace ScriptCompiler

/-- The same state with another record of the functions that have been compiled. -/
def State.withFunctions (s : State) (functions : Std.TreeMap Path SectionId) : State :=
  { s with functions }

/-! ## Where functions stand -/

/-- A path that leads through one of the positions under `path` from `position` on. -/
def Beyond (path : Path) (position : Nat) (k : Path) : Prop :=
  ∃ n, position ≤ n ∧ (n :: path) <:+ k

namespace Beyond

variable {path k : Path} {position : Nat}

theorem mono {position' : Nat} (h : Beyond path position' k) (hp : position ≤ position') :
    Beyond path position k := by
  obtain ⟨n, hn, hk⟩ := h
  exact ⟨n, Nat.le_trans hp hn, hk⟩

/-- The paths through different positions are different. -/
theorem not_suffix {n : Nat} (h : Beyond path position k) (hn : n < position) :
    ¬ (n :: path) <:+ k := by
  intro hk
  obtain ⟨m, hm, hs⟩ := h
  have he := (List.suffix_of_suffix_length_le hk hs (Nat.le_refl _)).eq_of_length rfl
  have : n = m := (List.cons.inj he).1
  omega

theorem suffix (h : Beyond path position k) : path <:+ k := by
  obtain ⟨n, -, hs⟩ := h
  exact (List.suffix_cons n path).trans hs

end Beyond

namespace Generator

variable {α β : Type}

/-! ## Steps without the record -/

/-- A step that has nothing to do with the record of compiled functions. -/
def Blind (x : Generator α) : Prop :=
  ∀ (s : State) (f : Std.TreeMap Path SectionId),
    x (s.withFunctions f) = (x s).map fun r => (r.1, r.2.withFunctions f)

namespace Blind

theorem functions {x : Generator α} (h : Blind x) {s t : State} {a : α} (hx : x s = .ok (a, t)) :
    t.functions = s.functions := by
  have := h s s.functions
  change x s = _ at this
  rw [hx] at this
  exact congrArg (fun r => r.2.functions) (Except.ok.inj this)

theorem pure (a : α) : Blind (pure a) := fun _ _ => rfl

theorem throw (e : CompileError) : Blind (throw e : Generator α) := fun _ _ => rfl

theorem bind {x : Generator α} {g : α → Generator β} (hx : Blind x) (hg : ∀ a, Blind (g a)) :
    Blind (x >>= g) := by
  intro s f
  rw [bind_eq, bind_eq, hx s f]
  cases x s with
  | error e => rfl
  | ok r => exact hg r.1 r.2 f

end Blind

theorem emitLine_blind (l : Line) : Blind (emitLine l) := by
  cases l <;> exact fun _ _ => rfl

theorem load_blind (name : String) : Blind (load name) := by
  intro s f
  rw [load_eq, load_eq]
  exact emitLine_blind _ s f

theorem store_blind (name : String) : Blind (store name) := by
  intro s f
  rw [store_eq, store_eq]
  exact emitLine_blind _ s f

theorem emitBreak_blind : Blind emitBreak := by
  intro s f
  have hl : (s.withFunctions f).loops = s.loops := rfl
  rw [emitBreak, get_bind, get_bind, hl]
  cases s.loops <;> rfl

theorem emitContinue_blind : Blind emitContinue := by
  intro s f
  have hl : (s.withFunctions f).loops = s.loops := rfl
  rw [emitContinue, get_bind, get_bind, hl]
  cases s.loops <;> rfl

theorem bindCallee_blind (name : Option String) : Blind (bindCallee name) := by
  cases name <;> exact fun _ _ => rfl

theorem bindArguments_blind (position : Nat) (params : List String) :
    Blind (bindArguments position params) := by
  induction params generalizing position with
  | nil => exact .pure ()
  | cons param rest ih =>
    exact Blind.bind (fun _ _ => rfl) fun _ => Blind.bind (fun _ _ => rfl) fun _ => ih _

theorem declareAll_blind (limit : Nat) (nodes : List Node) : Blind (declareAll limit nodes) := by
  intro s f
  rw [declareAll_eq, declaring, declaring]
  change (if _ ≤ limit - s.depth then _ else _) = _
  split <;> rfl

/-- What a closure over a function is followed by. -/
theorem close_blind {bind : Generator Unit} (h : Blind bind) (id : SectionId) :
    Blind (emitUnary .close id >>= fun _ => bind) :=
  (emitLine_blind (.unary .close id)).bind fun _ => h

/-! ## Steps with the record -/

theorem closeFunction_of_some {path : Path} {s : State} {id : SectionId}
    (h : s.functions[path]? = some id) (compile : Generator SectionId) (bind : Generator Unit) :
    closeFunction path compile bind s = emitUnary .close id s := by
  rw [closeFunction, get_bind, h]

theorem closeFunction_of_none {path : Path} {s : State} (h : s.functions[path]? = none)
    (compile : Generator SectionId) (bind : Generator Unit) :
    closeFunction path compile bind s = (compile s).bind fun r =>
      (emitUnary .close r.1 >>= fun _ => bind)
        (r.2.withFunctions (r.2.functions.insert path r.1)) := by
  rw [closeFunction, get_bind, h]
  rfl

/-- **What a closure over a function comes to.** If the function has been compiled, the closure is
all. Otherwise the function is compiled and recorded first. -/
theorem closeFunction_ok {path : Path} {compile : Generator SectionId} {bind : Generator Unit}
    {s t : State} (h : closeFunction path compile bind s = .ok ((), t)) :
    (∃ id, s.functions[path]? = some id ∧ emitUnary .close id s = .ok ((), t)) ∨
      s.functions[path]? = none ∧ ∃ id s₁, compile s = .ok (id, s₁) ∧
        (emitUnary .close id >>= fun _ => bind)
          (s₁.withFunctions (s₁.functions.insert path id)) = .ok ((), t) := by
  cases hp : s.functions[path]? with
  | some id =>
    rw [closeFunction_of_some hp] at h
    exact .inl ⟨id, rfl, h⟩
  | none =>
    rw [closeFunction_of_none hp] at h
    cases hc : compile s with
    | error e =>
      rw [hc] at h
      cases h
    | ok r =>
      rw [hc] at h
      exact .inr ⟨rfl, r.1, r.2, rfl, h⟩

/-- A function is recorded under its own path only. -/
theorem getElem?_insert_of_ne {functions : Std.TreeMap Path SectionId} {path k : Path}
    (h : path ≠ k) (id : SectionId) : (functions.insert path id)[k]? = functions[k]? := by
  rw [Std.TreeMap.getElem?_insert, if_neg]
  rwa [Std.LawfulEqOrd.compare_eq_iff_eq]

/-- A step records functions only in a region. -/
def Within (region : Path → Prop) (x : Generator α) : Prop :=
  ∀ ⦃s : State⦄ ⦃a : α⦄ ⦃t : State⦄, x s = .ok (a, t) →
    ∀ k, ¬ region k → t.functions[k]? = s.functions[k]?

theorem Blind.within {x : Generator α} (h : Blind x) (region : Path → Prop) : Within region x := by
  intro s a t hx k _
  rw [h.functions hx]

namespace Within

variable {region : Path → Prop}

theorem mono {region' : Path → Prop} {x : Generator α} (h : Within region x)
    (hr : ∀ k, region k → region' k) : Within region' x :=
  fun _ _ _ hx k hk => h hx k (mt (hr k) hk)

theorem bind {x : Generator α} {g : α → Generator β} (hx : Within region x)
    (hg : ∀ a, Within region (g a)) : Within region (x >>= g) := by
  intro s b t h k hk
  obtain ⟨a, s₁, h₁, h₂⟩ := bind_ok h
  exact (hg a h₂ k hk).trans (hx h₁ k hk)

theorem nested {x : Generator Unit} (h : Within region x) (limit : Nat) :
    Within region (nested limit x) := by
  intro s a t hn k hk
  obtain ⟨last, hl, rfl⟩ := nested_ok hn
  exact h hl k hk

theorem inFunction {body : Generator Unit} (h : Within region body) (name : Option String)
    (params : List String) : Within region (inFunction name params body) := by
  intro s id t hf k hk
  obtain ⟨-, last, hl, rfl⟩ := inFunction_eq_ok_iff.mp hf
  have code : Within region (functionCode name params body) :=
    ((bindCallee_blind name).within _).bind fun _ =>
      ((bindArguments_blind 0 params).within _).bind fun _ => h.bind fun _ =>
        Blind.within (fun _ _ => rfl) _
  exact code hl k hk

/-- A function is recorded where it stands, and what is in it below. -/
theorem closeFunction {path : Path} {compile : Generator SectionId} {bind : Generator Unit}
    (hc : Within (Beyond path 0) compile) (hb : Blind bind) :
    Within (path <:+ ·) (closeFunction path compile bind) := by
  intro s a t h k hk
  rcases closeFunction_ok h with ⟨id, -, h⟩ | ⟨-, id, s₁, h₁, h⟩
  · exact Blind.within (fun _ _ => rfl) _ h k hk
  · have hne : path ≠ k := by
      rintro rfl
      exact hk (List.suffix_refl _)
    rw [(close_blind hb id).functions h, State.withFunctions, getElem?_insert_of_ne hne]
    exact hc h₁ k fun hb => hk hb.suffix

end Within

/-- **The record of compiled functions in a region**: it holds the sections `ids` of the functions
at `keys` and of those inside them, and of no others. -/
structure Standing (region : Path → Prop) (keys : List Path) (ids : List SectionId) (s : State) :
    Prop where
  known : keys.map (s.functions[·]?) = ids.map some
  fresh : ∀ k, region k → (∀ key ∈ keys, ¬ key <:+ k) → s.functions[k]? = none

/-- **A step that looks up functions goes as one that is given their sections**, where the functions
at `keys` have been compiled and no others in the region. -/
structure Follows (region : Path → Prop) (keys : List Path) (x : Generator α)
    (y : List SectionId → Generator α) : Prop where
  inside : ∀ key ∈ keys, ∀ k, key <:+ k → region k
  within : Within region x
  run : ∀ (s : State) (ids rest : List SectionId) (f : Std.TreeMap Path SectionId),
    Standing region keys ids s →
    y (ids ++ rest) (s.withFunctions f) = (x s).map fun r => (r.1, r.2.withFunctions f)

namespace Follows

variable {region : Path → Prop} {keys : List Path}

theorem of_blind {x : Generator α} (h : Blind x) : Follows region [] x fun _ => x where
  inside := by simp
  within := h.within _
  run s _ _ f _ := h s f

theorem mono {region' : Path → Prop} {x : Generator α} {y : List SectionId → Generator α}
    (h : Follows region keys x y) (hr : ∀ k, region k → region' k) :
    Follows region' keys x y where
  inside key hk k hs := hr k (h.inside key hk k hs)
  within := h.within.mono hr
  run s ids rest f hs := h.run s ids rest f ⟨hs.known, fun k hk => hs.fresh k (hr k hk)⟩

/-- What comes before and has nothing to do with the record. -/
theorem after [Inhabited α] {x : Generator α} {g : α → Generator β}
    {y : α → List SectionId → Generator β} (hx : Blind x)
    (hg : ∀ a, Follows region keys (g a) (y a)) :
    Follows region keys (x >>= g) fun pending => x >>= fun a => y a pending where
  inside := (hg default).inside
  within := (hx.within _).bind fun a => (hg a).within
  run s ids rest f hs := by
    rw [bind_eq, bind_eq, hx s f]
    cases hr : x s with
    | error e => rfl
    | ok r =>
      have hf : r.2.functions = s.functions := hx.functions hr
      exact (hg r.1).run r.2 ids rest f ⟨by rw [hf]; exact hs.known, by rw [hf]; exact hs.fresh⟩

/-- What comes after and has nothing to do with the record. -/
theorem before {x : Generator α} {y : List SectionId → Generator α} {g : α → Generator β}
    (hx : Follows region keys x y) (hg : ∀ a, Blind (g a)) :
    Follows region keys (x >>= g) fun pending => y pending >>= g where
  inside := hx.inside
  within := hx.within.bind fun a => (hg a).within _
  run s ids rest f hs := by
    rw [bind_eq, bind_eq, hx.run s ids rest f hs]
    cases x s with
    | error e => rfl
    | ok r => exact hg r.1 r.2 f

theorem nested {x : Generator Unit} {y : List SectionId → Generator Unit}
    (h : Follows region keys x y) (limit : Nat) :
    Follows region keys (nested limit x) fun pending => nested limit (y pending) where
  inside := h.inside
  within := h.within.nested limit
  run s ids rest f hs := by
    have hr := h.run s.deeper ids rest f ⟨hs.known, hs.fresh⟩
    rw [nested_eq, nested_eq]
    change (if limit ≤ s.depth then _ else (y (ids ++ rest) (s.deeper.withFunctions f)).map _) = _
    rw [hr]
    split
    · rfl
    · cases x s.deeper <;> rfl

theorem inSection {body body' : Generator Unit} (h : Follows region [] body fun _ => body') :
    Follows region [] (inSection body) fun _ => inSection body' :=
  .after (fun _ _ => rfl) fun _ => h.before fun _ => Blind.bind (fun _ _ => rfl) fun _ => .pure _

theorem inFunction {body body' : Generator Unit} (h : Follows region [] body fun _ => body')
    (name : Option String) (params : List String) :
    Follows region [] (inFunction name params body) fun _ => inFunction name params body' where
  inside := by simp
  within := h.within.inFunction name params
  run s ids rest f hs := by
    have code : Follows region [] (functionCode name params body)
        fun _ => functionCode name params body' :=
      .after (bindCallee_blind name) fun _ => .after (bindArguments_blind 0 params) fun _ =>
        h.before fun _ _ _ => rfl
    have hr := code.run (entered s) ids rest f ⟨hs.known, hs.fresh⟩
    rw [inFunction_eq, inFunction_eq]
    change (functionCode name params body' ((entered s).withFunctions f)).map _ = _
    rw [hr]
    cases functionCode name params body (entered s) <;> rfl

/-- A function that has not been compiled is compiled. -/
theorem compiled {path : Path} {compile compile' : Generator SectionId} {bind : Generator Unit}
    (hc : Follows (Beyond path 0) [] compile fun _ => compile') (hb : Blind bind) :
    Follows (path <:+ ·) [] (closeFunction path compile bind)
      fun _ => compile' >>= fun id => emitUnary .close id >>= fun _ => bind where
  inside := by simp
  within := hc.within.closeFunction hb
  run s ids rest f hs := by
    have hp : s.functions[path]? = none := hs.fresh path (List.suffix_refl _) (by simp)
    have hr := hc.run s ids rest f ⟨hs.known, fun k hk => hs.fresh k hk.suffix⟩
    rw [closeFunction_of_none hp, bind_eq, hr]
    cases compile s with
    | error e => rfl
    | ok r =>
      change (emitUnary .close r.1 >>= fun _ => bind) (r.2.withFunctions f) = Except.map _
        ((emitUnary .close r.1 >>= fun _ => bind) (r.2.withFunctions _))
      rw [close_blind hb, close_blind hb]
      cases (emitUnary .close r.1 >>= fun _ => bind) r.2 <;> rfl

/-- A function that has been compiled is looked up. -/
theorem lookedUp {path : Path} {compile : Generator SectionId} {bind : Generator Unit}
    (hc : Within (Beyond path 0) compile) (hb : Blind bind) :
    Follows (path <:+ ·) [path] (closeFunction path compile bind)
      fun pending => discard (closePending pending) where
  inside := by simp
  within := hc.closeFunction hb
  run s ids rest f hs := by
    obtain ⟨id, rfl, hp⟩ : ∃ id, ids = [id] ∧ s.functions[path]? = some id := by
      have hk := hs.known
      cases ids with
      | nil => cases hk
      | cons id ids =>
        obtain ⟨hp, hn⟩ := List.cons.inj hk
        exact ⟨id, by rw [List.map_eq_nil_iff.mp hn.symm], hp⟩
    rw [closeFunction_of_some hp]
    rfl

/-- Of two steps in regions that have nothing in common, the second is given what the first
leaves. -/
theorem bind {region₁ region₂ : Path → Prop} {keys₁ keys₂ : List Path} {x : Generator Unit}
    {x' : Generator β} {y : List SectionId → Generator Unit} {y' : List SectionId → Generator β}
    (h₁ : Follows region₁ keys₁ x y) (h₂ : Follows region₂ keys₂ x' y')
    (hd : ∀ k, region₂ k → ¬ region₁ k) (hr₁ : ∀ k, region₁ k → region k)
    (hr₂ : ∀ k, region₂ k → region k) :
    Follows region (keys₁ ++ keys₂) (x >>= fun _ => x')
      fun pending => y pending >>= fun _ => y' (pending.drop keys₁.length) where
  inside := List.forall_mem_append.mpr
    ⟨fun key hk k hs => hr₁ k (h₁.inside key hk k hs),
      fun key hk k hs => hr₂ k (h₂.inside key hk k hs)⟩
  within := (h₁.within.mono hr₁).bind fun _ => h₂.within.mono hr₂
  run s ids rest f hs := by
    have hk := hs.known
    rw [List.map_append] at hk
    obtain ⟨ids₁, ids₂, rfl, hk₁, hk₂⟩ := List.append_eq_map_iff.mp hk
    have hl : keys₁.length = ids₁.length := by simpa using (congrArg List.length hk₁).symm
    have first : Standing region₁ keys₁ ids₁ s := by
      refine ⟨hk₁.symm, fun k hk hn => hs.fresh k (hr₁ k hk) ?_⟩
      refine List.forall_mem_append.mpr ⟨hn, fun key hm hs => ?_⟩
      exact hd k (h₂.inside key hm k hs) hk
    simp only [bind_eq, List.append_assoc, h₁.run s ids₁ (ids₂ ++ rest) f first]
    cases hx : x s with
    | error e => rfl
    | ok r =>
      have second : Standing region₂ keys₂ ids₂ r.2 := by
        refine ⟨?_, fun k hk hn => ?_⟩
        · rw [hk₂]
          refine List.map_congr_left fun key hm => h₁.within hx key (hd key ?_)
          exact h₂.inside key hm key (List.suffix_refl _)
        · rw [h₁.within hx k (hd k hk)]
          refine hs.fresh k (hr₂ k hk) (List.forall_mem_append.mpr ⟨fun key hm hs => ?_, hn⟩)
          exact hd k hk (h₁.inside key hm k hs)
      rw [hl, List.drop_append, Nat.sub_self, List.drop_length, List.nil_append, List.drop_zero]
      exact h₂.run r.2 ids₂ rest f second

/-- A node at one position before what stands at later ones. -/
theorem child {path : Path} {position n : Nat} {keys' : List Path} {x x' : Generator Unit}
    {y y' : List SectionId → Generator Unit} (h : Follows ((n :: path) <:+ ·) keys x y)
    (hp : position ≤ n) (h' : Follows (Beyond path (n + 1)) keys' x' y') :
    Follows (Beyond path position) (keys ++ keys') (x >>= fun _ => x')
      fun pending => y pending >>= fun _ => y' (pending.drop keys.length) :=
  h.bind h' (fun _ hk => hk.not_suffix (Nat.lt_succ_self n)) (fun _ hk => ⟨n, hp, hk⟩)
    fun _ hk => hk.mono (Nat.le_succ_of_le hp)

end Follows

end Generator

end ScriptCompiler
