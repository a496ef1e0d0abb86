import ScriptCompiler.Proofs.Recording

/-!
# Code generation carries out plans

Generating the code of a node is the same as carrying out its plan. Code generation finds the
section of a declared function by where the function stands, while a plan passes the declared
functions in the order of the source, and the two agree: when the statements of a body are compiled,
the functions that have been compiled in the region of the body are those that it declares.

## Main definitions

* `Node.declaredAt`: where the functions stand that a statement declares
* `Generator.Carries`: the code of a construct carries out the rest of its plan
* `Generator.CodeFollows`: the code of a node carries out its plan
* `Generator.Binds`: binding functions compiles and records them

## Main results

* `Generator.code_follows`: the code of every node carries out its plan
* `Generator.bindFunctions_binds`: so does compiling the functions that a statement declares
* `Program.performed_eq`: code generation carries out the plan of a program
-/

namespace ScriptCompiler

/-! ## Where functions are declared -/

mutual

/-- **Where the functions stand that a statement at `path` declares**, in the order of the
source. -/
def Node.declaredAt (path : Path) : Node → List Path
  | function (some _) _ _ => [path]
  | block statements => declaredAtAll path 0 statements
  | ifElse _ consequent alternate =>
    consequent.declaredAt (1 :: path) ++ declaredAtOptional (2 :: path) alternate
  | forLoop init _ _ body =>
    declaredAtOptional (0 :: path) init ++ body.declaredAt (2 :: path)
  | whileLoop _ body => body.declaredAt (1 :: path)
  | _ => []

/-- Where the functions stand that a statement declares which may be missing. -/
def Node.declaredAtOptional (path : Path) : Option Node → List Path
  | none => []
  | some node => node.declaredAt path

/-- Where the functions stand that statements under `path` declare. -/
def Node.declaredAtAll (path : Path) (position : Nat) : List Node → List Path
  | [] => []
  | node :: rest => node.declaredAt (position :: path) ++ declaredAtAll path (position + 1) rest

end

namespace Node

mutual

theorem length_declaredAt (path : Path) (node : Node) :
    (node.declaredAt path).length = node.declared.length := by
  cases node with
  | function name params body => cases name <;> rfl
  | block statements =>
    rw [declaredAt, length_declaredAtAll path 0 statements, declaredIn, declared, declarations,
      declarationsAll_eq, List.filterMap_flatMap]
    rfl
  | ifElse test consequent alternate =>
    cases alternate with
    | none =>
      simp [declaredAt, declaredAtOptional, length_declaredAt (1 :: path) consequent, declared,
        declarations]
    | some alternate =>
      simp [declaredAt, declaredAtOptional, length_declaredAt (1 :: path) consequent,
        length_declaredAt (2 :: path) alternate, declared, declarations]
  | forLoop init test step body =>
    cases init with
    | none =>
      simp [declaredAt, declaredAtOptional, length_declaredAt (2 :: path) body, declared,
        declarations]
    | some init =>
      simp [declaredAt, declaredAtOptional, length_declaredAt (0 :: path) init,
        length_declaredAt (2 :: path) body, declared, declarations]
  | whileLoop test body =>
    simp [declaredAt, length_declaredAt (1 :: path) body, declared, declarations]
  | _ => rfl

/-- A path for every declared function. -/
theorem length_declaredAtAll (path : Path) (position : Nat) (nodes : List Node) :
    (declaredAtAll path position nodes).length = (declaredIn nodes).length := by
  cases nodes with
  | nil => rfl
  | cons node rest =>
    rw [declaredAtAll, List.length_append, length_declaredAt (position :: path) node,
      length_declaredAtAll path (position + 1) rest, declaredIn, declaredIn, List.flatMap_cons,
      List.length_append]

end

end Node

namespace Generator

/-! ## Parts and plans -/

/-- A part that is one step, which has nothing to do with the record. -/
structure Elementary (limit : Nat) (own : List Label) (p : Part) (action : Generator Unit) :
    Prop where
  perform : ∀ pending, performPart limit ⟨own, pending⟩ p =
    (action >>= fun _ => pure ⟨own, pending⟩)
  blind : Blind action

namespace Elementary

variable {limit : Nat} {own : List Label}

theorem line (l : Line) : Elementary limit own (.line l) (emitLine l) :=
  ⟨fun _ => by rw [performPart], emitLine_blind l⟩

theorem load (name : String) : Elementary limit own (.load name) (load name) :=
  ⟨fun _ => by rw [performPart], load_blind name⟩

theorem store (name : String) : Elementary limit own (.store name) (store name) :=
  ⟨fun _ => by rw [performPart], store_blind name⟩

theorem define {index : Nat} {label : Label} (h : own[index]? = some label) :
    Elementary limit own (.define index) (define label) :=
  ⟨fun _ => by rw [performPart, ownLabel, h, pure_bind], fun _ _ => rfl⟩

theorem jump (op : Opcode) {index : Nat} {label : Label} (h : own[index]? = some label) :
    Elementary limit own (.jump op index) (emitJump op label) :=
  ⟨fun _ => by rw [performPart, ownLabel, h, pure_bind], fun _ _ => rfl⟩

theorem enter {n d : Nat} {next done : Label} (hn : own[n]? = some next)
    (hd : own[d]? = some done) : Elementary limit own (.enter n d)
      (modify fun s => { s with loops := ⟨next, done⟩ :: s.loops }) :=
  ⟨fun _ => by rw [performPart, ownLabel, ownLabel, hn, hd, pure_bind, pure_bind], fun _ _ => rfl⟩

theorem exit : Elementary limit own .exit (modify fun s => { s with loops := s.loops.tail }) :=
  ⟨fun _ => by rw [performPart], fun _ _ => rfl⟩

theorem leave : Elementary limit own .leave emitBreak :=
  ⟨fun _ => by rw [performPart], emitBreak_blind⟩

theorem again : Elementary limit own .again emitContinue :=
  ⟨fun _ => by rw [performPart], emitContinue_blind⟩

end Elementary

/-- **The code of a construct carries out its plan**, or the rest of one, where the nodes of the
plan stand under `path` from `position` on. -/
def Carries (limit : Nat) (path : Path) (position : Nat) (keys : List Path) (own : List Label)
    (plan : List Part) (x : Generator Unit) : Prop :=
  Follows (Beyond path position) keys x fun pending => discard (perform limit ⟨own, pending⟩ plan)

/-- The code of a node carries out its plan, wherever the node stands: as a value, where no function
in it has been compiled, and in statement position, where those have been that it declares. -/
structure CodeFollows (limit : Nat) (node : Node) : Prop where
  value : node.isExpression = true → ∀ path, Follows (path <:+ ·) [] (code limit path node)
    fun pending => discard (perform limit { pending } node.plan)
  statement : ∀ path, Follows (path <:+ ·) (node.declaredAt path) (code limit path node)
    fun pending => discard (perform limit { pending } node.standingPlan)

namespace Carries

variable {limit : Nat} {path : Path} {position : Nat} {keys : List Path} {own : List Label}
  {rest : List Part} {x : Generator Unit}

theorem nil : Carries limit path position [] own [] (pure ()) := by
  refine ⟨by simp, (Blind.pure ()).within _, fun s ids rest f hs => ?_⟩
  rw [perform_nil]
  rfl

theorem mono {position' : Nat} (h : Carries limit path position' keys own rest x)
    (hp : position ≤ position') : Carries limit path position keys own rest x :=
  Follows.mono h fun _ hk => hk.mono hp

/-- The last step of a construct. -/
theorem last (h : Carries limit path position keys own (rest ++ []) (x >>= fun _ => pure ())) :
    Carries limit path position keys own rest x := by
  rwa [bind_pure_unit, List.append_nil] at h

theorem fail (e : CompileError) :
    Carries limit path position [] own (.fail e :: rest) (throw e) := by
  refine ⟨by simp, (Blind.throw e).within _, fun s ids rest f hs => ?_⟩
  rw [perform_cons, performPart]
  rfl

theorem step {p : Part} {action : Generator Unit} (hp : Elementary limit own p action)
    (h : Carries limit path position keys own rest x) :
    Carries limit path position keys own (p :: rest) (action >>= fun _ => x) := by
  have := Follows.after hp.blind fun _ => h
  unfold Carries
  simpa only [perform_cons, hp.perform, bind_assoc, pure_bind, discard_bind] using this

theorem single {p : Part} {action : Generator Unit} (hp : Elementary limit own p action) :
    Carries limit path position [] own [p] action :=
  .last (.step hp .nil)

theorem fresh {x : Label → Generator Unit}
    (h : ∀ label, Carries limit path position keys (own ++ [label]) rest (x label)) :
    Carries limit path position keys own (.fresh :: rest) (freshLabel >>= x) := by
  have := Follows.after (x := freshLabel) (fun _ _ => rfl) h
  unfold Carries
  simpa only [perform_cons, performPart, bind_assoc, pure_bind, discard_bind] using this

theorem value {node : Node} (hn : CodeFollows limit node) {n : Nat} (hp : position ≤ n)
    (h : Carries limit path (n + 1) keys own rest x) :
    Carries limit path position keys own (.value node :: rest)
      (asValue limit node (code limit (n :: path) node) >>= fun _ => x) := by
  have first : Follows ((n :: path) <:+ ·) [] (asValue limit node (code limit (n :: path) node))
      fun pending => asValue limit node (discard (perform limit { pending } node.plan)) := by
    simp only [asValue]
    split
    case isTrue he => exact (hn.value he _).nested limit
    case isFalse => exact .of_blind (.throw _)
  have := first.child hp h
  unfold Carries
  simpa only [perform_cons, performPart, bind_assoc, pure_bind, discard_bind, List.nil_append,
    List.length_nil, List.drop_zero] using this

theorem statement {node : Node} (hn : CodeFollows limit node) {n : Nat} (hp : position ≤ n)
    (h : Carries limit path (n + 1) keys own rest x) :
    Carries limit path position (node.declaredAt (n :: path) ++ keys) own (.statement node :: rest)
      (asStatement limit node (code limit (n :: path) node) >>= fun _ => x) := by
  have first : Follows ((n :: path) <:+ ·) (node.declaredAt (n :: path))
      (asStatement limit node (code limit (n :: path) node)) fun pending =>
        asStatement limit node (discard (perform limit { pending } node.standingPlan)) := by
    simp only [asStatement]
    refine Follows.nested ?_ limit
    split
    · exact ((hn.statement _).nested limit).before fun _ _ _ => rfl
    · exact hn.statement _
  have := first.child hp h
  rw [Node.length_declaredAt] at this
  unfold Carries
  simpa only [perform_cons, performPart, bind_assoc, pure_bind, discard_bind] using this

/-! ## Constructs -/

theorem values {nodes : List Node} (hn : ∀ node ∈ nodes, CodeFollows limit node) {m : Nat}
    (hp : position + nodes.length ≤ m) (h : Carries limit path m keys own rest x) :
    Carries limit path position keys own (nodes.map .value ++ rest)
      (values limit path position nodes >>= fun _ => x) := by
  induction nodes generalizing position with
  | nil =>
    rw [Generator.values, pure_bind]
    exact h.mono hp
  | cons node nodes ih =>
    rw [List.forall_mem_cons] at hn
    rw [List.length_cons] at hp
    rw [Generator.values, bind_assoc]
    exact .value hn.1 (Nat.le_refl _) (ih hn.2 (by omega))

theorem sequence {nodes : List Node} (hn : ∀ node ∈ nodes, CodeFollows limit node) :
    Carries limit path position [] own (Node.sequencePlan nodes)
      (sequence limit path position nodes) := by
  fun_induction Node.sequencePlan nodes generalizing position with
  | case1 => exact .single (.line (.plain .pushUndefined))
  | case2 node => exact .last (.value (hn node List.mem_cons_self) (Nat.le_refl _) .nil)
  | case3 node nodes hne ih =>
    cases nodes with
    | nil => exact absurd rfl hne
    | cons next nodes =>
      rw [List.forall_mem_cons] at hn
      exact .value hn.1 (Nat.le_refl _) (.step (.line (.plain .pop)) (ih hn.2))

theorem statements {nodes : List Node} (hn : ∀ node ∈ nodes, CodeFollows limit node) :
    Carries limit path position (Node.declaredAtAll path position nodes) own
      (nodes.map .statement) (statements limit path position nodes) := by
  induction nodes generalizing position with
  | nil => exact .nil
  | cons node nodes ih =>
    rw [List.forall_mem_cons] at hn
    exact .statement hn.1 (Nat.le_refl _) (ih hn.2)

theorem optionalStatement {node : Option Node} (hn : ∀ n ∈ node, CodeFollows limit n) {n : Nat}
    (hp : position ≤ n) (h : Carries limit path (n + 1) keys own rest x) :
    Carries limit path position (Node.declaredAtOptional (n :: path) node ++ keys) own
      (node.toList.map .statement ++ rest)
      (optionalStatement limit (n :: path) node >>= fun _ => x) := by
  cases node with
  | none =>
    rw [Generator.optionalStatement, pure_bind]
    exact h.mono (Nat.le_succ_of_le hp)
  | some node => exact .statement (hn node rfl) hp h

/-- A value that may be missing, and the step that follows if it is not. -/
theorem optionalValue {node : Option Node} (hn : ∀ n ∈ node, CodeFollows limit n) {n : Nat}
    (hp : position ≤ n) {p : Part} {action : Generator Unit} (ha : Elementary limit own p action)
    (h : Carries limit path (n + 1) keys own rest x) :
    Carries limit path position keys own (node.elim [] (fun node => [.value node, p]) ++ rest)
      (optionalValue limit (n :: path) (pure ()) action node >>= fun _ => x) := by
  cases node with
  | none =>
    rw [Generator.optionalValue, pure_bind]
    exact h.mono (Nat.le_succ_of_le hp)
  | some node =>
    rw [Generator.optionalValue, bind_assoc]
    exact .value (hn node rfl) hp (.step ha h)

/-- The object and the key of a target come before what is done with the place. -/
theorem reach {target : Node} (hn : ∀ n, sizeOf n < sizeOf target → CodeFollows limit n)
    {use : Place → List Part} {action : Place → Generator Unit}
    (h : ∀ place, Carries limit path 2 [] [] (use place) (action place)) :
    Carries limit path 0 [] [] (target.placePlan use) (reach limit path target >>= action) := by
  cases target with
  | ident name =>
    rw [Generator.reach, pure_bind]
    exact (h (.ident name)).mono (Nat.zero_le _)
  | member object property =>
    have ho := hn object (by rw [Node.member.sizeOf_spec]; omega)
    simp only [Generator.reach, bind_assoc, pure_bind]
    exact .value ho (Nat.le_refl 0) ((h _).mono (Nat.le_succ 1))
  | index object key =>
    have ho := hn object (by rw [Node.index.sizeOf_spec]; omega)
    have hk := hn key (by rw [Node.index.sizeOf_spec]; omega)
    simp only [Generator.reach, bind_assoc, pure_bind]
    exact .value ho (Nat.le_refl 0) (.value hk (Nat.le_refl 1) (h _))
  | _ => exact .fail _

theorem fetch (place : Place) (h : Carries limit path position keys own rest x) :
    Carries limit path position keys own (place.fetchPlan ++ rest)
      (place.fetch >>= fun _ => x) := by
  cases place with
  | ident name => exact .step (.load name) h
  | member property =>
    rw [Place.fetch, bind_assoc]
    exact .step (.line (.plain .dup)) (.step (.line (.text .member property)) h)
  | index =>
    rw [Place.fetch, bind_assoc]
    exact .step (.line (.plain .dup2)) (.step (.line (.plain .index)) h)

theorem store (place : Place) (h : Carries limit path position keys own rest x) :
    Carries limit path position keys own (place.storePlan ++ rest)
      (place.store >>= fun _ => x) := by
  cases place with
  | ident name => exact .step (.store name) h
  | member property => exact .step (.line (.text .setMember property)) h
  | index => exact .step (.line (.plain .setIndex)) h

theorem keepOld (place : Place) (h : Carries limit path position keys own rest x) :
    Carries limit path position keys own (place.keepPlan ++ rest)
      (place.keepOld >>= fun _ => x) := by
  cases place with
  | ident name => exact .step (.line (.plain .dup)) h
  | member | index => exact .step (.line (.plain .saveTemporary)) h

theorem recallOld (place : Place) (h : Carries limit path position keys own rest x) :
    Carries limit path position keys own (place.recallPlan ++ rest)
      (place.recallOld >>= fun _ => x) := by
  cases place with
  | ident name => exact .step (.line (.plain .pop)) h
  | member | index =>
    rw [Place.recallOld, bind_assoc]
    exact .step (.line (.plain .pop)) (.step (.line (.plain .loadTemporary)) h)

theorem update (op : Opcode) (before : Bool) (place : Place) :
    Carries limit path position [] own (place.updatePlan op before) (place.update op before) := by
  cases before with
  | true => exact .fetch place (.step (.line (.plain op)) (.last (.store place .nil)))
  | false =>
    rw [Place.updatePlan, if_neg Bool.false_ne_true]
    simp only [List.append_assoc, List.cons_append]
    exact .fetch place <| .keepOld place <| .step (.line (.plain op)) <| .store place <|
      .last (.recallOld place .nil)

end Carries

section Nodes

variable {limit : Nat}

theorem CodeFollows.of_carries {node : Node} (hf : node.isDeclaredFunction = false)
    (h : ∀ path, Carries limit path 0 (node.declaredAt path) [] node.plan (code limit path node)) :
    CodeFollows limit node where
  value he path := by
    have hd : node.declaredAt path = [] := by
      cases node with
      | function name => cases name <;> first | rfl | cases hf
      | _ => first | rfl | cases he
    have := h path
    rw [hd] at this
    exact Follows.mono this fun _ hk => hk.suffix
  statement path := by
    rw [Node.standingPlan, hf]
    exact Follows.mono (h path) fun _ hk => hk.suffix

/-- **Binding functions one after the other compiles and records them**, where none of them has been
compiled. -/
structure Binds (limit : Nat) (region : Path → Prop) (keys : List Path) (rs : List Routine)
    (x : Generator Unit) : Prop where
  inside : ∀ key ∈ keys, ∀ k, key <:+ k → region k
  within : Within region x
  run : ∀ (s : State) (hand : Hand) (f : Std.TreeMap Path SectionId),
    (∀ k, region k → s.functions[k]? = none) →
    (∃ e, x s = .error e ∧ perform limit hand (rs.map .bind) (s.withFunctions f) = .error e) ∨
      ∃ t ids, x s = .ok ((), t) ∧ Standing region keys ids t ∧
        perform limit hand (rs.map .bind) (s.withFunctions f) =
          .ok ({ hand with pending := hand.pending ++ ids }, t.withFunctions f)

namespace Binds

variable {region : Path → Prop}

theorem nil : Binds limit region [] [] (pure ()) where
  inside := by simp
  within := (Blind.pure ()).within _
  run s hand f hs := by
    refine .inr ⟨s, [], rfl, ⟨rfl, fun k hk _ => hs k hk⟩, ?_⟩
    rw [List.map_nil, perform_nil, List.append_nil]
    rfl

theorem mono {region' : Path → Prop} {keys : List Path} {rs : List Routine} {x : Generator Unit}
    (h : Binds limit region keys rs x) (hr : ∀ k, region k → region' k) :
    Binds limit region' keys rs x where
  inside key hk k hs := hr k (h.inside key hk k hs)
  within := h.within.mono hr
  run s hand f hs := by
    refine (h.run s hand f fun k hk => hs k (hr k hk)).imp id ?_
    rintro ⟨t, ids, hx, ht, hp⟩
    refine ⟨t, ids, hx, ⟨ht.known, fun k hk hn => ?_⟩, hp⟩
    by_cases hi : region k
    · exact ht.fresh k hi hn
    · exact (h.within hx k hi).trans (hs k hk)

/-- Functions in regions that have nothing in common. -/
theorem append {region₁ region₂ : Path → Prop} {keys₁ keys₂ : List Path} {rs₁ rs₂ : List Routine}
    {x₁ x₂ : Generator Unit} (h₁ : Binds limit region₁ keys₁ rs₁ x₁)
    (h₂ : Binds limit region₂ keys₂ rs₂ x₂) (hd : ∀ k, region₂ k → ¬ region₁ k)
    (hr₁ : ∀ k, region₁ k → region k) (hr₂ : ∀ k, region₂ k → region k) :
    Binds limit region (keys₁ ++ keys₂) (rs₁ ++ rs₂) (x₁ >>= fun _ => x₂) where
  inside := List.forall_mem_append.mpr
    ⟨fun key hk k hs => hr₁ k (h₁.inside key hk k hs),
      fun key hk k hs => hr₂ k (h₂.inside key hk k hs)⟩
  within := (h₁.within.mono hr₁).bind fun _ => h₂.within.mono hr₂
  run s hand f hs := by
    simp only [List.map_append, perform_append, bind_eq]
    rcases h₁.run s hand f fun k hk => hs k (hr₁ k hk) with ⟨e, hx, hp⟩ | ⟨t, ids, hx, ht, hp⟩
    · rw [hx, hp]
      exact .inl ⟨e, rfl, rfl⟩
    rw [hx, hp]
    have fresh : ∀ k, region₂ k → t.functions[k]? = none := fun k hk =>
      (h₁.within hx k (hd k hk)).trans (hs k (hr₂ k hk))
    rcases h₂.run t { hand with pending := hand.pending ++ ids } f fresh with
      ⟨e, hx', hp'⟩ | ⟨u, ids', hx', hu, hp'⟩
    · exact .inl ⟨e, hx', hp'⟩
    refine .inr ⟨u, ids ++ ids', hx', ⟨?_, fun k hk hn => ?_⟩, ?_⟩
    · rw [List.map_append, List.map_append, ← ht.known, ← hu.known]
      congr 1
      refine List.map_congr_left fun key hm => h₂.within hx' key fun hr => hd key hr ?_
      exact h₁.inside key hm key (List.suffix_refl _)
    · rw [List.forall_mem_append] at hn
      by_cases hi₂ : region₂ k
      · exact hu.fresh k hi₂ hn.2
      rw [h₂.within hx' k hi₂]
      by_cases hi₁ : region₁ k
      · exact ht.fresh k hi₁ hn.1
      · exact (h₁.within hx k hi₁).trans (hs k hk)
    · rw [← List.append_assoc]
      exact hp'

/-- A function that has not been compiled is compiled, recorded and bound to its name. -/
theorem compiled {path : Path} {r : Routine} {compile compile' : Generator SectionId}
    {bind : Generator Unit} (hc : Follows (Beyond path 0) [] compile fun _ => compile')
    (hb : Blind bind)
    (hp : ∀ hand, perform limit hand [.bind r] = (compile' >>= fun id =>
      (emitUnary .close id >>= fun _ => bind) >>= fun _ =>
        pure { hand with pending := hand.pending ++ [id] })) :
    Binds limit (path <:+ ·) [path] [r] (closeFunction path compile bind) where
  inside := by simp
  within := hc.within.closeFunction hb
  run s hand f hs := by
    have hr := hc.run s [] [] f ⟨rfl, fun k hk _ => hs k hk.suffix⟩
    rw [List.map_singleton, hp, bind_eq, hr, closeFunction_of_none (hs path (List.suffix_refl _))]
    cases compile s with
    | error e => exact .inl ⟨e, rfl, rfl⟩
    | ok r =>
      simp only [Except.map, Except.bind, bind_eq (emitUnary .close r.1 >>= fun _ => bind)]
      rw [close_blind hb, close_blind hb]
      cases (emitUnary .close r.1 >>= fun _ => bind) r.2 with
      | error e => exact .inl ⟨e, rfl, rfl⟩
      | ok u =>
        refine .inr ⟨_, [r.1], rfl, ⟨?_, fun k hk hn => ?_⟩, rfl⟩
        · simp [State.withFunctions]
        · exact absurd hk (hn path List.mem_cons_self)

/-- A statement before others under the same path. -/
theorem child {path : Path} {position n : Nat} {keys keys' : List Path} {rs rs' : List Routine}
    {x x' : Generator Unit} (h : Binds limit ((n :: path) <:+ ·) keys rs x) (hp : position ≤ n)
    (h' : Binds limit (Beyond path (n + 1)) keys' rs' x') :
    Binds limit (Beyond path position) (keys ++ keys') (rs ++ rs') (x >>= fun _ => x') :=
  h.append h' (fun _ hk => hk.not_suffix (Nat.lt_succ_self n)) (fun _ hk => ⟨n, hp, hk⟩)
    fun _ hk => hk.mono (Nat.le_succ_of_le hp)

/-- The last statement under a path. -/
theorem only {path : Path} {position n : Nat} {keys : List Path} {rs : List Routine}
    {x : Generator Unit} (h : Binds limit ((n :: path) <:+ ·) keys rs x) (hp : position ≤ n) :
    Binds limit (Beyond path position) keys rs x :=
  h.mono fun _ hk => ⟨n, hp, hk⟩

end Binds

/-- Binding the functions that a statement declares compiles and records them, wherever the
statement stands. -/
def DeclaredBinds (limit : Nat) (node : Node) : Prop :=
  ∀ path, Binds limit (path <:+ ·) (node.declaredAt path) node.declared
    (bindFunctions limit path node)

theorem bindOptional_binds {node : Option Node} (hn : ∀ n ∈ node, DeclaredBinds limit n)
    (path : Path) :
    Binds limit (path <:+ ·) (Node.declaredAtOptional path node) (node.elim [] Node.declared)
      (bindOptional limit path node) := by
  cases node with
  | none => exact .nil
  | some node => exact hn node rfl path

theorem bindAll_binds {nodes : List Node} (hn : ∀ node ∈ nodes, DeclaredBinds limit node)
    (path : Path) (position : Nat) :
    Binds limit (Beyond path position) (Node.declaredAtAll path position nodes) (declaredIn nodes)
      (bindAll limit path position nodes) := by
  induction nodes generalizing position with
  | nil => exact .nil
  | cons node rest ih =>
    rw [List.forall_mem_cons] at hn
    exact (hn.1 _).child (Nat.le_refl _) (ih hn.2 _)

/-- The statements of a body pass the functions that have been bound before. -/
theorem body_follows {body : List Node} (hn : ∀ node ∈ body, CodeFollows limit node)
    (hb : ∀ node ∈ body, DeclaredBinds limit node) (path : Path) :
    Follows (Beyond path 0) []
      (do declareAll limit body; bindAll limit path 0 body; statements limit path 0 body)
      fun _ => bodyCode limit body := by
  have binds := bindAll_binds hb path 0
  have work : Carries limit path 0 _ [] _ (statements limit path 0 body) := .statements hn
  refine .after (declareAll_blind limit body) fun _ => ⟨by simp, ?_, fun s ids rest f hs => ?_⟩
  · exact binds.within.bind fun _ => work.within
  simp only [workPlan, perform_append, discard_bind, bind_eq]
  rcases binds.run s {} f (fun k hk => hs.fresh k hk (by simp)) with
    ⟨e, hx, hp⟩ | ⟨t, ids', hx, ht, hp⟩
  · rw [hx, hp]
    rfl
  · rw [hx, hp]
    have := work.run t ids' [] f ht
    rw [List.append_nil] at this
    exact this

theorem function_follows {body : List Node} (hn : ∀ node ∈ body, CodeFollows limit node)
    (hb : ∀ node ∈ body, DeclaredBinds limit node) (name : Option String) (params : List String) :
    CodeFollows limit (.function name params body) := by
  have work (path : Path) := (body_follows hn hb path).inFunction name params
  have literal (path : Path) : Follows (path <:+ ·) []
      (code limit path (.function name params body)) fun pending =>
        discard (perform limit { pending } [.literal ⟨name, params, body⟩]) := by
    simp only [code, perform_cons, perform_nil, performPart, bind_assoc, pure_bind, discard_bind]
    exact (work path).compiled (.pure ())
  refine ⟨fun _ => literal, fun path => ?_⟩
  cases name with
  | none => exact literal path
  | some name =>
    have hp (pending : List SectionId) :
        discard (perform limit { pending } [.pass]) = discard (closePending pending) := by
      simp only [perform_cons, perform_nil, performPart, bind_assoc, pure_bind, discard_bind]
      rfl
    change Follows _ [path] _ fun pending => discard (perform limit { pending } [.pass])
    simp only [hp, code]
    exact .lookedUp (work path).within (.pure ())

theorem function_binds {body : List Node} (hn : ∀ node ∈ body, CodeFollows limit node)
    (hb : ∀ node ∈ body, DeclaredBinds limit node) (name : String) (params : List String) :
    DeclaredBinds limit (.function (some name) params body) := by
  intro path
  refine .compiled ((body_follows hn hb path).inFunction (some name) params)
    ((store_blind name).bind fun _ _ _ => rfl) fun hand => ?_
  simp only [perform_cons, perform_nil, performPart, bind_assoc, pure_bind]
  rfl

mutual

/-- **The code of a node carries out its plan.** -/
theorem code_follows (limit : Nat) (node : Node) : CodeFollows limit node := by
  cases node with
  | function name params body =>
    exact function_follows (fun n hn => code_follows limit n)
      (fun n hn => bindFunctions_binds limit n) name params
  | declaration name init =>
    refine .of_carries rfl fun path => ?_
    cases init with
    | none => exact .nil
    | some init =>
      exact .value (code_follows limit init) (Nat.le_refl 0)
        (.step (.store name) (.single (.line (.plain .pop))))
  | ret argument =>
    refine .of_carries rfl fun path => ?_
    cases argument with
    | none => exact .step (.line (.plain .pushUndefined)) (.single (.line (.plain .ret)))
    | some argument =>
      rw [code, optionalValue, bind_pure_unit]
      exact .value (code_follows limit argument) (Nat.le_refl 0)
        (.single (.line (.plain .ret)))
  | ifElse test consequent alternate =>
    refine .of_carries rfl fun path => ?_
    cases alternate with
    | none =>
      exact .fresh fun otherwise => .value (code_follows limit test) (Nat.le_refl 0) <|
        .step (.jump .jumpIfFalse rfl) <|
        .statement (code_follows limit consequent) (Nat.le_refl 1) <| .single (.define rfl)
    | some alternate =>
      rw [Node.declaredAt, Node.declaredAtOptional, ← List.append_nil (alternate.declaredAt _)]
      exact .fresh fun otherwise => .value (code_follows limit test) (Nat.le_refl 0) <|
        .step (.jump .jumpIfFalse rfl) <|
        .statement (code_follows limit consequent) (Nat.le_refl 1) <|
        .fresh fun done => .step (.jump .jump rfl) <| .step (.define rfl) <|
        .statement (code_follows limit alternate) (Nat.le_refl 2) <| .single (.define rfl)
  | forLoop init test step body =>
    refine .of_carries rfl fun path => ?_
    simp only [code, Node.plan, inLoop, bind_assoc, List.append_assoc, List.cons_append,
      List.nil_append]
    rw [Node.declaredAt, ← List.append_nil (body.declaredAt _)]
    exact .optionalStatement (fun n hn => code_follows limit n) (Nat.le_refl 0) <|
      .fresh fun start => .fresh fun next => .fresh fun done => .step (.define rfl) <|
      .optionalValue (fun n hn => code_follows limit n) (Nat.le_refl 1) (.jump .jumpIfFalse rfl) <|
      .step (.enter rfl rfl) <| .statement (code_follows limit body) (Nat.le_refl 2) <|
      .step (.define rfl) <|
      .optionalValue (fun n hn => code_follows limit n) (Nat.le_refl 3) (.line (.plain .pop)) <|
      .step (.jump .jump rfl) <| .step (.define rfl) <| .single .exit
  | whileLoop test body =>
    refine .of_carries rfl fun path => ?_
    simp only [code, Node.plan, inLoop, bind_assoc]
    rw [Node.declaredAt, ← List.append_nil (body.declaredAt _)]
    exact .fresh fun start => .fresh fun done => .step (.define rfl) <|
      .value (code_follows limit test) (Nat.le_refl 0) <| .step (.jump .jumpIfFalse rfl) <|
      .step (.enter rfl rfl) <| .statement (code_follows limit body) (Nat.le_refl 1) <|
      .step (.jump .jump rfl) <| .step (.define rfl) <| .single .exit
  | breakLoop => exact .of_carries rfl fun path => .single .leave
  | continueLoop => exact .of_carries rfl fun path => .single .again
  | block body => exact .of_carries rfl fun path => .statements fun n hn => code_follows limit n
  | ident name => exact .of_carries rfl fun path => .single (.load name)
  | number value => exact .of_carries rfl fun path => .single (.line (.number value))
  | string value =>
    exact .of_carries rfl fun path => .single (.line (.text .pushString value))
  | boolean value => exact .of_carries rfl fun path => .single (.line (.plain _))
  | null => exact .of_carries rfl fun path => .single (.line (.plain .pushNull))
  | undefined => exact .of_carries rfl fun path => .single (.line (.plain .pushUndefined))
  | array elements =>
    exact .of_carries rfl fun path => .values (fun n hn => code_follows limit n) (Nat.le_refl _)
      (.single (.line (.unary .array elements.length)))
  | member object property =>
    exact .of_carries rfl fun path => .value (code_follows limit object) (Nat.le_refl 0)
      (.single (.line (.text .member property)))
  | index object key =>
    exact .of_carries rfl fun path => .value (code_follows limit object) (Nat.le_refl 0)
      (.value (code_follows limit key) (Nat.le_refl 1) (.single (.line (.plain .index))))
  | call callee arguments =>
    refine .of_carries rfl fun path => ?_
    have hn : ∀ n ∈ arguments, CodeFollows limit n := fun n hn => code_follows limit n
    have rest (op : Opcode) (position : Nat) (hp : position ≤ 2) :
        Carries limit path position [] []
          (arguments.map .value ++ [.line (.unary op arguments.length)])
          (values limit path 2 arguments >>= fun _ => emitUnary op arguments.length) :=
      Carries.mono (.values hn (Nat.le_refl _) (.single (.line (.unary op arguments.length)))) hp
    rw [code, Node.plan, List.append_assoc]
    obtain ⟨object, property, rfl⟩ | ⟨object, key, rfl⟩ | ⟨hp, hm⟩ := callee.callee_cases
    · simp only [Node.isMethod, if_true, method, bind_assoc]
      exact .value (code_follows limit object) (Nat.le_refl 0)
        (.step (.line (.text .pushString property)) (rest _ 1 (Nat.le_succ 1)))
    · simp only [Node.isMethod, if_true, method, bind_assoc]
      exact .value (code_follows limit object) (Nat.le_refl 0)
        (.value (code_follows limit key) (Nat.le_refl 1) (rest _ 2 (Nat.le_refl 2)))
    · rw [hp, hm, if_neg Bool.false_ne_true, if_neg Bool.false_ne_true]
      exact .value (code_follows limit callee) (Nat.le_refl 0) (rest _ 1 (Nat.le_succ 1))
  | assign target value =>
    refine .of_carries rfl fun path => ?_
    rw [code, Node.plan]
    exact .reach (fun n hn => code_follows limit n) fun place =>
      .value (code_follows limit value) (Nat.le_refl 2) (.last (.store place .nil))
  | binary operator left right =>
    exact .of_carries rfl fun path => .value (code_follows limit left) (Nat.le_refl 0)
      (.value (code_follows limit right) (Nat.le_refl 1)
        (.single (.line (.plain operator.opcode))))
  | compound operator target value =>
    refine .of_carries rfl fun path => ?_
    rw [code, Node.plan]
    exact .reach (fun n hn => code_follows limit n) fun place => .fetch place <|
      .value (code_follows limit value) (Nat.le_refl 2) <|
      .step (.line (.plain operator.opcode)) (.last (.store place .nil))
  | logical operator left right =>
    exact .of_carries rfl fun path => .fresh fun done =>
      .value (code_follows limit left) (Nat.le_refl 0) <| .step (.line (.plain .dup)) <|
      .step (.jump operator.opcode rfl) <| .step (.line (.plain .pop)) <|
      .value (code_follows limit right) (Nat.le_refl 1) <| .single (.define rfl)
  | unary operator argument =>
    exact .of_carries rfl fun path => .value (code_follows limit argument) (Nat.le_refl 0)
      (.single (.line (.plain operator.opcode)))
  | update operator before target =>
    exact .of_carries rfl fun path => .reach (fun n hn => code_follows limit n) fun place =>
      .update operator.opcode before place
  | conditional test consequent alternate =>
    exact .of_carries rfl fun path => .fresh fun otherwise => .fresh fun done =>
      .value (code_follows limit test) (Nat.le_refl 0) <| .step (.jump .jumpIfFalse rfl) <|
      .value (code_follows limit consequent) (Nat.le_refl 1) <| .step (.jump .jump rfl) <|
      .step (.define rfl) <| .value (code_follows limit alternate) (Nat.le_refl 2) <|
      .single (.define rfl)
  | sequence expressions =>
    exact .of_carries rfl fun path => .sequence fun n hn => code_follows limit n
  | unsupported kind => exact .of_carries rfl fun path => .fail _

/-- **Binding the functions that a statement declares** compiles and records them. -/
theorem bindFunctions_binds (limit : Nat) (node : Node) : DeclaredBinds limit node := by
  intro path
  cases node with
  | function name params body =>
    cases name with
    | none => exact .nil
    | some name =>
      exact function_binds (fun n hn => code_follows limit n)
        (fun n hn => bindFunctions_binds limit n) name params path
  | block statements =>
    rw [Node.declared, Node.declarations, Node.declarationsAll_eq, List.filterMap_flatMap]
    exact (bindAll_binds (fun n hn => bindFunctions_binds limit n) path 0).mono
      fun _ hk => hk.suffix
  | ifElse test consequent alternate =>
    have hd : (Node.ifElse test consequent alternate).declared =
        consequent.declared ++ alternate.elim [] Node.declared := by
      cases alternate <;> simp [Node.declared, Node.declarations]
    rw [hd]
    exact ((bindFunctions_binds limit consequent _).child (Nat.zero_le 1)
      ((bindOptional_binds (fun n hn => bindFunctions_binds limit n) _).only (Nat.le_refl 2))).mono
        fun _ hk => hk.suffix
  | forLoop init test step body =>
    have hd : (Node.forLoop init test step body).declared =
        init.elim [] Node.declared ++ body.declared := by
      cases init <;> simp [Node.declared, Node.declarations]
    rw [hd]
    exact ((bindOptional_binds (fun n hn => bindFunctions_binds limit n) _).child (Nat.le_refl 0)
      ((bindFunctions_binds limit body _).only (Nat.le_succ 1))).mono fun _ hk => hk.suffix
  | whileLoop test body =>
    exact (bindFunctions_binds limit body _).mono fun _ hk => (List.suffix_cons _ _).trans hk
  | _ => exact .nil

end

end Nodes

end Generator

/-! ## Programs -/

namespace Program

open Generator in
theorem generator_follows (limit : Nat) (program : Program) :
    Follows (Beyond [] 0) [] (program.generator limit) fun _ => program.performer limit := by
  have body : Follows (Beyond [] 0) [] _ fun _ => bodyCode limit program.body :=
    body_follows (fun node _ => code_follows limit node)
      (fun node _ => bindFunctions_binds limit node) []
  have run := (body.before (g := fun _ => emitEnd) fun _ _ _ => rfl).inSection
  simp only [bind_assoc] at run
  exact run

/-- **Code generation carries out the plan of a program.** The two end in the same state, but for
the record of compiled functions. -/
theorem performed_eq (limit : Nat) (program : Program) :
    program.performed limit = (program.generate limit).map (State.withFunctions · ∅) := by
  have run := (generator_follows limit program).run {} [] [] ∅ ⟨rfl, fun _ _ _ => rfl⟩
  change (program.performer limit (State.withFunctions {} ∅)).map _ =
    ((program.generator limit {}).map _).map _
  rw [run]
  cases program.generator limit {} <;> rfl

theorem performed_of_generate {limit : Nat} {program : Program} {s : State}
    (h : program.generate limit = .ok s) :
    program.performed limit = .ok (s.withFunctions ∅) := by
  rw [performed_eq, h]
  rfl

/-- The image of a program is what the plan of the program comes to. -/
theorem compile_eq (config : Config) (program : Program) :
    program.compile config = (program.performed config.maxDepth).bind fun s =>
      (s.sections.finish.mapError .unresolvedLabel).bind fun sections =>
        .ok { sections, strings := s.strings.toList } := by
  rw [performed_eq]
  change (program.generate config.maxDepth).bind _ = _
  cases program.generate config.maxDepth <;> rfl

end Program

end ScriptCompiler
