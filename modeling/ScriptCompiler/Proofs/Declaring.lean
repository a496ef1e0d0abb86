import ScriptCompiler.Proofs.Writing

/-!
# Declaring the names of a body

Before a body is compiled, a walk over its statements declares their names. With every statement
inside a statement the walk goes one level deeper, so it may run into the limit on the nesting. That
is all that can go wrong, and the names in the innermost scope are all that changes: the walk comes
to a number of levels and a list of names. What later modules say about the walk they say about
these two, which belong to the tree.

## Main definitions

* `Node.declaringLevels`: the levels that declaring the names of a statement takes
* `Generator.declaring`: declaring names within a number of levels

## Main results

* `Generator.declareAll_eq`: declaring the names of statements
-/

namespace ScriptCompiler

/-! ## The levels of declarations -/

namespace Node

mutual

/-- **The levels that declaring the names of a statement takes**: one for the statement, and those
of the statements in it. -/
def declaringLevels : Node → Nat
  | block statements => declaringLevelsAll statements + 1
  | ifElse _ consequent alternate =>
    max consequent.declaringLevels (declaringLevelsOptional alternate) + 1
  | forLoop init _ _ body => max (declaringLevelsOptional init) body.declaringLevels + 1
  | whileLoop _ body => body.declaringLevels + 1
  | _ => 1

/-- The levels of a statement that may be missing. -/
def declaringLevelsOptional : Option Node → Nat
  | none => 0
  | some node => node.declaringLevels

/-- The most that one of the statements takes. -/
def declaringLevelsAll : List Node → Nat
  | [] => 0
  | node :: rest => max node.declaringLevels (declaringLevelsAll rest)

end

end Node

namespace Generator

/-! ## Declarations -/

/-- **Declaring names within a number of levels.** It fails if there are not so many levels left,
and otherwise it changes nothing but the innermost scope. -/
def declaring (limit levels : Nat) (names : List String) : Generator Unit := fun s =>
  if levels ≤ limit - s.depth then .ok ((), { s with scopes := s.scopes.declareEach names })
  else .error (.nestingTooDeep limit)

section Declaring

variable (limit : Nat)

theorem nested_declaring (levels : Nat) (names : List String) :
    nested limit (declaring limit levels names) = declaring limit (levels + 1) names := by
  funext s
  rw [nested_eq]
  by_cases hd : limit ≤ s.depth
  · rw [if_pos hd, declaring, if_neg (by omega)]
  · have hl : levels ≤ limit - s.deeper.depth ↔ levels + 1 ≤ limit - s.depth := by
      simp only [State.deeper]
      omega
    rw [if_neg hd, declaring, declaring]
    by_cases h : levels ≤ limit - s.deeper.depth
    · rw [if_pos h, if_pos (hl.mp h)]
      rfl
    · rw [if_neg h, if_neg (mt hl.mpr h)]
      rfl

/-- Of two walks from the same level, the one that takes more levels counts. -/
theorem declaring_bind (levels levels' : Nat) (names names' : List String) :
    (declaring limit levels names >>= fun _ => declaring limit levels' names') =
      declaring limit (max levels levels') (names ++ names') := by
  funext s
  rw [bind_eq, declaring, declaring]
  by_cases h : levels ≤ limit - s.depth
  · rw [if_pos h]
    change declaring limit levels' names' _ = _
    by_cases h' : levels' ≤ limit - s.depth
    · rw [declaring, if_pos h', if_pos (Nat.max_le.mpr ⟨h, h'⟩), ScopeChain.declareEach_append]
    · rw [declaring, if_neg h', if_neg (mt (fun h => (Nat.max_le.mp h).2) h')]
  · rw [if_neg h, if_neg (mt (fun h => (Nat.max_le.mp h).1) h)]
    rfl

/-- Declaring nothing takes no level. -/
theorem pure_eq_declaring : pure () = declaring limit 0 [] := by
  funext s
  exact (if_pos (Nat.zero_le _)).symm

/-- Declaring one name takes no level. -/
theorem declare_eq_declaring (name : String) :
    discard (declare name) = declaring limit 0 [name] := by
  funext s
  exact (if_pos (Nat.zero_le _)).symm

mutual

theorem declareNames_eq (node : Node) :
    declareNames limit node = declaring limit node.declaringLevels node.names := by
  cases node with
  | declaration name init =>
    rw [declareNames, declare_eq_declaring limit, nested_declaring]
    rfl
  | function name params body =>
    cases name with
    | none =>
      rw [declareNames, pure_eq_declaring limit, nested_declaring]
      · rfl
      all_goals simp
    | some name =>
      rw [declareNames, declare_eq_declaring limit, nested_declaring]
      rfl
  | block statements =>
    have hn : (Node.block statements).names = statements.flatMap Node.names := by
      rw [Node.names, Node.declarations, Node.declarationsAll_eq, List.map_flatMap]
      rfl
    rw [declareNames, declareAll_eq statements, nested_declaring, hn]
    rfl
  | ifElse test consequent alternate =>
    rw [declareNames, declareNames_eq consequent]
    cases alternate with
    | none =>
      rw [declareOptional, pure_eq_declaring limit, declaring_bind, nested_declaring,
        List.append_nil]
      rfl
    | some alternate =>
      have hn : (Node.ifElse test consequent (some alternate)).names =
          consequent.names ++ alternate.names := List.map_append
      rw [declareOptional, declareNames_eq alternate, declaring_bind, nested_declaring, hn]
      rfl
  | forLoop init test step body =>
    rw [declareNames, declareNames_eq body]
    cases init with
    | none =>
      rw [declareOptional, pure_eq_declaring limit, declaring_bind, nested_declaring,
        List.nil_append]
      rfl
    | some init =>
      have hn : (Node.forLoop (some init) test step body).names = init.names ++ body.names :=
        List.map_append
      rw [declareOptional, declareNames_eq init, declaring_bind, nested_declaring, hn]
      rfl
  | whileLoop test body =>
    rw [declareNames, declareNames_eq body, nested_declaring]
    rfl
  | _ =>
    rw [declareNames, pure_eq_declaring limit, nested_declaring]
    · rfl
    all_goals simp

/-- **Declaring the names of statements** takes the levels of the statements, and declares their
names in sequence. -/
theorem declareAll_eq (nodes : List Node) :
    declareAll limit nodes =
      declaring limit (Node.declaringLevelsAll nodes) (nodes.flatMap Node.names) := by
  cases nodes with
  | nil => exact pure_eq_declaring limit
  | cons node rest =>
    rw [declareAll, declareNames_eq node, declareAll_eq rest, declaring_bind, List.flatMap_cons]
    rfl

end

end Declaring

variable {limit : Nat} {s s' : State}

theorem declareAll_eq_ok_iff {nodes : List Node} :
    declareAll limit nodes s = .ok ((), s') ↔
      Node.declaringLevelsAll nodes ≤ limit - s.depth ∧
        s' = { s with scopes := s.scopes.declareEach (nodes.flatMap Node.names) } := by
  rw [declareAll_eq, declaring]
  by_cases h : Node.declaringLevelsAll nodes ≤ limit - s.depth
  · simp [h, eq_comm]
  · simp [h]

/-- Declaring the names of statements changes nothing else. -/
theorem declareAll_ok (nodes : List Node) (h : declareAll limit nodes s = .ok ((), s')) :
    s' = { s with scopes := s.scopes.declareEach (nodes.flatMap Node.names) } :=
  (declareAll_eq_ok_iff.mp h).2

/-- Declaring the names of statements fails only at the nesting. -/
theorem declareAll_error (nodes : List Node) {e : CompileError}
    (h : declareAll limit nodes s = .error e) : e = .nestingTooDeep limit := by
  rw [declareAll_eq, declaring] at h
  split at h <;> cases h
  rfl

end Generator

end ScriptCompiler
