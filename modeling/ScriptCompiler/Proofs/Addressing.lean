import Mathlib.Data.List.Forall2
import ScriptCompiler.Proofs.ClosedCode

/-!
# Lexical addressing

The instructions of a section that load or store a name are those that the uses of names in its
source call for, in order: the address of a name is its slot in the innermost function around the
use that has it among its local names, and its position in the string table if none has it.

## Main definitions

* `Access`: a use of a name
* `Node.uses`, `Node.statementUses`: the uses of names in an expression and in a statement, in the
  order in which they happen
* `Segment.uses`: the uses of names in a section
* `Access.Addressed`: an instruction has the address of the name that is used

## Main results

* `Emits.accesses`: the lines of a plan that use names are those of its uses
* `Node.mem_names_of_declare`: a declaration that is run declares a local name
* `Program.addresses_exact`: the instructions of an image that use names have their addresses
-/

namespace ScriptCompiler

/-- **A use of a name.** -/
inductive Access where
  /-- The value of a name. -/
  | load (name : String)
  /-- An assignment to a name. -/
  | store (name : String)
  /-- The first value of a name, given by its declaration or by the function that it stands for. -/
  | declare (name : String)
deriving DecidableEq, Repr

namespace Access

/-- The name that is used. -/
def name : Access → String
  | load name | store name | declare name => name

/-- The opcode for a name in a slot. -/
def slotted : Access → Opcode
  | load _ => .pushVariable
  | store _ | declare _ => .setVariable

/-- The opcode for a name that is global. -/
def global : Access → Opcode
  | load _ => .pushGlobal
  | store _ | declare _ => .setGlobal

/-- Whether a use gives a name its first value. -/
def isDeclare : Access → Bool
  | declare _ => true
  | _ => false

/-- The line of a use of a name. -/
def line (chain : List (List String)) (a : Access) : Line :=
  accessLine a.slotted a.global chain a.name

/-- **An instruction has the address of the name that is used**, given the local names of the
functions around it, innermost first, and the string table. -/
inductive Addressed (chain : List (List String)) (strings : List String) (a : Access)
    (i : Instruction) : Prop
  /-- The slot is the position of the name in the first list that has it. -/
  | slot {names : List String} {frames : Nat} :
    chain[frames]? = some names → a.name ∈ names →
      (∀ inner < frames, ∀ names, chain[inner]? = some names → a.name ∉ names) →
      i.opcode = a.slotted → i.operands.map UInt32.toNat = [names.idxOf a.name, frames] →
      Addressed chain strings a i
  /-- A name that no list has is addressed by its position in the string table. -/
  | global :
    (∀ names ∈ chain, a.name ∉ names) → a.name ∈ strings →
      i.opcode = a.global → i.operands.map UInt32.toNat = [strings.idxOf a.name] →
      Addressed chain strings a i

end Access

/-! ## The uses of names in the source -/

namespace Node

mutual

/-- **The uses of names in an expression**, in the order in which they happen. Functions inside it
are not part of it. -/
def uses : Node → List Access
  | ident name => [.load name]
  | array elements => usesAll elements
  | member object _ => object.uses
  | index object key => object.uses ++ key.uses
  | call callee arguments => callee.uses ++ usesAll arguments
  | assign (ident name) value => value.uses ++ [.store name]
  | compound _ (ident name) value => .load name :: value.uses ++ [.store name]
  | assign (member object _) value | compound _ (member object _) value =>
    object.uses ++ value.uses
  | assign (index object key) value | compound _ (index object key) value =>
    object.uses ++ key.uses ++ value.uses
  | binary _ left right | logical _ left right => left.uses ++ right.uses
  | unary _ argument => argument.uses
  | update _ _ (ident name) => [.load name, .store name]
  | update _ _ (member object _) => object.uses
  | update _ _ (index object key) => object.uses ++ key.uses
  | conditional test consequent alternate => test.uses ++ consequent.uses ++ alternate.uses
  | sequence expressions => usesAll expressions
  | _ => []

/-- The uses of names in expressions in sequence. -/
def usesAll : List Node → List Access
  | [] => []
  | node :: rest => node.uses ++ usesAll rest

end

mutual

/-- **The uses of names in a statement**, in the order of its code. -/
def statementUses : Node → List Access
  | declaration _ none | ret none => []
  | declaration name (some value) => value.uses ++ [.declare name]
  | ret (some value) => value.uses
  | ifElse test consequent none => test.uses ++ consequent.statementUses
  | ifElse test consequent (some alternate) =>
    test.uses ++ consequent.statementUses ++ alternate.statementUses
  | forLoop none test step body =>
    test.elim [] uses ++ body.statementUses ++ step.elim [] uses
  | forLoop (some init) test step body =>
    init.statementUses ++ test.elim [] uses ++ body.statementUses ++ step.elim [] uses
  | whileLoop test body => test.uses ++ body.statementUses
  | block statements => statementUsesAll statements
  | other => other.uses

/-- The uses of names in statements in sequence. -/
def statementUsesAll : List Node → List Access
  | [] => []
  | node :: rest => node.statementUses ++ statementUsesAll rest

end

theorem usesAll_eq (nodes : List Node) : usesAll nodes = nodes.flatMap uses := by
  induction nodes with
  | nil => rfl
  | cons node rest ih => rw [usesAll, ih, List.flatMap_cons]

theorem statementUsesAll_eq (nodes : List Node) :
    statementUsesAll nodes = nodes.flatMap statementUses := by
  induction nodes with
  | nil => rfl
  | cons node rest ih => rw [statementUsesAll, ih, List.flatMap_cons]

end Node

/-- **The uses of names in a section**: the functions declared in a body are bound before its
statements run. -/
def Segment.uses (segment : Segment) : List Access :=
  (declaredIn segment.body).flatMap (fun r => r.name.toList.map .declare) ++
    segment.body.flatMap Node.statementUses

/-! ## The uses of names in plans -/

/-- The uses of names behind a part. -/
def Part.uses : Part → List Access
  | load name => [.load name]
  | store name => [.store name]
  | value node => node.uses
  | statement node => node.statementUses
  | bind r => r.name.toList.map .declare
  | _ => []

section Plans

open ScriptCompiler.Part

/-- The lines that use names in the code of parts. -/
def accessLines (chain : List (List String)) (parts : List Part) : List Line :=
  (parts.flatMap Part.uses).map (Access.line chain)

theorem accessLines_cons (chain : List (List String)) (p : Part) (rest : List Part) :
    accessLines chain (p :: rest) = p.uses.map (Access.line chain) ++ accessLines chain rest := by
  simp [accessLines]

variable (chain : List (List String))

theorem flatMap_uses_value (nodes : List Node) :
    (nodes.map .value).flatMap Part.uses = nodes.flatMap Node.uses := by
  rw [List.flatMap_map]
  rfl

theorem flatMap_uses_statement (nodes : List Node) :
    (nodes.map .statement).flatMap Part.uses = nodes.flatMap Node.statementUses := by
  rw [List.flatMap_map]
  rfl

theorem flatMap_uses_sequencePlan (nodes : List Node) :
    (Node.sequencePlan nodes).flatMap Part.uses = nodes.flatMap Node.uses := by
  fun_induction Node.sequencePlan nodes with
  | case1 => rfl
  | case2 => rfl
  | case3 node rest _ ih => simp [Part.uses, ih]

/-- The uses of names in an expression are those in its plan. -/
theorem Node.flatMap_uses_plan {node : Node} (h : node.isExpression = true) :
    node.plan.flatMap Part.uses = node.uses := by
  cases node with
  | declaration | ret | ifElse | forLoop | whileLoop | breakLoop | continueLoop | block
  | unsupported => cases h
  | array elements => simp [plan, uses, usesAll_eq, flatMap_uses_value, Part.uses]
  | call callee arguments =>
    cases callee <;>
      simp [plan, calleePlan, uses, usesAll_eq, flatMap_uses_value, Part.uses]
  | sequence expressions => rw [plan, uses, usesAll_eq, flatMap_uses_sequencePlan]
  | assign target value | compound operator target value =>
    cases target <;> simp [plan, placePlan, uses, Part.uses]
  | update operator before target =>
    cases target <;> cases before <;> simp [plan, placePlan, uses, Part.uses]
  | _ => simp [plan, uses, Part.uses]

/-- The lines that use names in a statement are those in its plan. -/
theorem Node.accessLines_statementPlan (node : Node) :
    accessLines chain node.statementPlan = node.statementUses.map (Access.line chain) := by
  rw [accessLines, statementPlan]
  cases h : node.isExpression with
  | true =>
    have hs : node.statementUses = node.uses := by
      cases node <;> first | rfl | cases h
    rw [hs, if_pos rfl, List.flatMap_append]
    split
    · next hd =>
      have hu : node.uses = [] := by
        cases node <;> first | rfl | cases hd
      rw [hu]
      rfl
    · rw [flatMap_uses_plan h]
      simp [Part.uses]
  | false =>
    rw [if_neg Bool.false_ne_true]
    cases node with
    | declaration name init =>
      cases init
      · rfl
      · simp only [plan, statementUses, Part.uses, List.flatMap_cons, List.flatMap_nil,
          List.map_append]
        rfl
    | ret argument => cases argument <;> simp [plan, statementUses, Part.uses]
    | ifElse test consequent alternate =>
      cases alternate <;> simp [plan, statementUses, Part.uses]
    | forLoop init test step body =>
      cases init <;> cases test <;> cases step <;> simp [plan, statementUses, Part.uses]
    | block statements => rw [plan, statementUses, statementUsesAll_eq, flatMap_uses_statement]
    | whileLoop | breakLoop | continueLoop | unsupported =>
      simp [plan, statementUses, uses, Part.uses]
    | _ => cases h

theorem accessLines_of_inner {p : Part} {plan : List Part} (h : p.Inner plan) :
    accessLines chain plan = p.uses.map (Access.line chain) := by
  cases h with
  | value he => rw [accessLines, Node.flatMap_uses_plan he, Part.uses]
  | statement => exact Node.accessLines_statementPlan chain _
  | @bind r =>
    cases hn : r.name with
    | none => simp [Routine.bindPlan, hn, accessLines, Part.uses]
    | some name =>
      simp only [Routine.bindPlan, hn, accessLines, Part.uses, Option.toList_some]
      rfl

/-- The lines that use names in a section are those in its plan. -/
theorem Segment.accessLines_plan (segment : Segment) :
    accessLines chain segment.plan = segment.uses.map (Access.line chain) := by
  have hb : ∀ body, (bodyPlan body).flatMap Part.uses =
      (declaredIn body).flatMap (fun r => r.name.toList.map .declare) ++
        body.flatMap Node.statementUses := by
    intro body
    simp [bodyPlan, endPlan, Part.uses, List.flatMap_map]
  rw [accessLines, uses]
  cases segment with
  | top body => rw [plan, hb, Segment.body]
  | function outer r =>
    rw [plan, Routine.plan, List.flatMap_append, hb, Segment.body]
    simp [Part.uses, List.flatMap_map]

end Plans

/-! ## The uses of names in code -/

namespace Opcode

/-- Whether an instruction loads or stores a name. -/
def isAccess : Opcode → Bool
  | pushVariable | setVariable | pushGlobal | setGlobal => true
  | _ => false

end Opcode

/-- Whether a line loads or stores a name. -/
def Line.isAccess : Line → Bool
  | plain op | unary op _ | binary op _ _ | text op _ | jump op _ => op.isAccess
  | number _ | define _ => false

theorem Line.isAccess_of_fixed {l : Line} (h : l.Fixed) : l.isAccess = false := by
  cases l with
  | plain op => cases op <;> first | rfl | cases h
  | unary op operand =>
    simp only [Line.Fixed, List.mem_cons, List.not_mem_nil, or_false] at h
    rcases h with rfl | rfl | rfl | rfl <;> rfl
  | binary op first second =>
    cases h
    rfl
  | text op string =>
    simp only [Line.Fixed, List.mem_cons, List.not_mem_nil, or_false] at h
    rcases h with rfl | rfl | rfl <;> rfl
  | number | define => rfl
  | jump => cases h

theorem Access.isAccess_line (chain : List (List String)) (a : Access) :
    (a.line chain).isAccess = true := by
  rw [line, accessLine]
  split <;> cases a <;> rfl

theorem Line.isAccess_of_instruction? {strings : List String} {target : Label → Nat} {offset : Nat}
    {l : Line} {i : Instruction} (h : l.instruction? strings target offset = some i) :
    i.opcode.isAccess = l.isAccess := by
  cases l <;> cases h <;> rfl

namespace Emits

open ScriptCompiler.Part

variable {chain : List (List String)} {m m' : Mark} {parts : List Part} {lines : List Line}
  {pieces : List Piece}

theorem accesses_of_step {p : Part} {here : List Line} {m₁ : Mark} (h : Step chain m p here m₁)
    (hp : p.Neat) : here.filter Line.isAccess = p.uses.map (Access.line chain) := by
  cases h with
  | line l => simp [Line.isAccess_of_fixed hp, Part.uses]
  | load name => exact List.filter_cons_of_pos ((Access.load name).isAccess_line chain)
  | store name => exact List.filter_cons_of_pos ((Access.store name).isAccess_line chain)
  | jump =>
    rename_i op _ _ _
    cases op <;> first | rfl | cases hp
  | _ => rfl

/-- **The lines of a plan that use names** are those of its uses. -/
theorem accesses (h : Emits chain m parts lines pieces m') (hn : ∀ p ∈ parts, p.Neat) :
    lines.filter Line.isAccess = accessLines chain parts := by
  induction h with
  | nil => rfl
  | step hp _ ih =>
    rw [List.forall_mem_cons] at hn
    rw [List.filter_append, accessLines_cons, accesses_of_step hp hn.1, ih hn.2]
  | inner hp _ _ ihi ih =>
    rw [List.forall_mem_cons] at hn
    rw [List.filter_append, accessLines_cons, ihi (disciplined_of_inner hp).neat,
      accessLines_of_inner _ hp, ih hn.2]
  | literal _ _ _ ih =>
    rw [List.forall_mem_cons] at hn
    rw [accessLines_cons, List.filter_cons_of_neg (by simp [Line.isAccess, Opcode.isAccess]),
      ih hn.2]
    rfl

end Emits

/-- The instructions that use names are those of the lines that do. -/
theorem Assembly.forall₂_accesses (strings : List String) (target : Label → Nat) (offset : Nat)
    (lines : List Line) :
    List.Forall₂ (fun l i => ∃ offset, l.instruction? strings target offset = some i)
      (lines.filter Line.isAccess)
      ((listing strings target offset lines).filter fun i => i.opcode.isAccess) := by
  induction lines generalizing offset with
  | nil => exact .nil
  | cons l lines ih =>
    rw [listing, List.filter_append]
    cases hi : l.instruction? strings target offset with
    | none =>
      cases l with
      | define label => exact ih _
      | _ => cases hi
    | some i =>
      have ha := Line.isAccess_of_instruction? hi
      cases hl : l.isAccess with
      | false =>
        rw [List.filter_cons_of_neg (by simp [hl])]
        simpa [ha, hl] using ih _
      | true =>
        rw [List.filter_cons_of_pos hl]
        simpa [ha, hl] using List.Forall₂.cons ⟨offset, hi⟩ (ih _)

/-! ## Declarations -/

/-- An expression declares nothing. -/
theorem Node.isDeclare_of_mem_uses (node : Node) : ∀ a ∈ node.uses, a.isDeclare = false := by
  revert node
  apply Node.uses.induct (fun node => ∀ a ∈ node.uses, a.isDeclare = false)
    (fun nodes => ∀ a ∈ usesAll nodes, a.isDeclare = false) <;>
    simp_all [uses, usesAll, or_imp, forall_and, Access.isDeclare]

theorem Node.declare_notMem_uses (node : Node) (name : String) : .declare name ∉ node.uses :=
  fun h => Bool.noConfusion (node.isDeclare_of_mem_uses _ h)

theorem Node.declare_notMem_elim (node : Option Node) (name : String) :
    .declare name ∉ node.elim [] uses := by
  cases node with
  | none => exact List.not_mem_nil
  | some node => exact node.declare_notMem_uses name

mutual

/-- **A declaration that is run declares a local name**: the statements in which declarations are
looked for are those that are run as statements. -/
theorem Node.mem_names_of_declare {name : String} (node : Node)
    (h : .declare name ∈ node.statementUses) : name ∈ node.names := by
  cases node with
  | declaration other init =>
    cases init with
    | none => cases h
    | some value =>
      have h := (List.mem_append.mp h).resolve_left (value.declare_notMem_uses name)
      cases List.mem_singleton.mp h
      exact List.mem_singleton_self _
  | ret argument =>
    cases argument with
    | none => cases h
    | some value => exact absurd h (value.declare_notMem_uses name)
  | ifElse test consequent alternate =>
    cases alternate with
    | none =>
      exact mem_names_of_declare consequent
        ((List.mem_append.mp h).resolve_left (test.declare_notMem_uses name))
    | some alternate =>
      simp only [statementUses, List.mem_append, test.declare_notMem_uses name, false_or] at h
      rw [names, declarations, List.map_append, List.mem_append]
      exact h.imp (mem_names_of_declare consequent) (mem_names_of_declare alternate)
  | forLoop init test step body =>
    cases init with
    | none =>
      simp only [statementUses, List.mem_append, declare_notMem_elim, false_or, or_false] at h
      exact mem_names_of_declare body h
    | some init =>
      simp only [statementUses, List.mem_append, declare_notMem_elim, or_false] at h
      rw [names, declarations, List.map_append, List.mem_append]
      exact h.imp (mem_names_of_declare init) (mem_names_of_declare body)
  | whileLoop test body =>
    exact mem_names_of_declare body
      ((List.mem_append.mp h).resolve_left (test.declare_notMem_uses name))
  | block statements => exact mem_map_declarationsAll_of_declare statements h
  | _ => exact absurd h (declare_notMem_uses _ name)

theorem Node.mem_map_declarationsAll_of_declare {name : String} (nodes : List Node)
    (h : .declare name ∈ statementUsesAll nodes) : name ∈ (declarationsAll nodes).map (·.1) := by
  cases nodes with
  | nil => cases h
  | cons node rest =>
    rw [declarationsAll, List.map_append, List.mem_append]
    exact (List.mem_append.mp h).imp (mem_names_of_declare node)
      (mem_map_declarationsAll_of_declare rest)

end

/-- A function is declared under its own name. -/
theorem Node.name_of_mem_declarations {name : String} {r : Routine} (node : Node) :
    (name, some r) ∈ node.declarations → r.name = some name := by
  revert node
  apply Node.declarations.induct
    (fun node => (name, some r) ∈ node.declarations → r.name = some name)
    (fun nodes => (name, some r) ∈ declarationsAll nodes → r.name = some name)
  all_goals simp_all [declarations, declarationsAll, or_imp]

/-- A declared function has a name, which the statements declare. -/
theorem exists_name_of_mem_declaredIn {body : List Node} {r : Routine} (h : r ∈ declaredIn body) :
    ∃ name ∈ body.flatMap Node.names, r.name = some name := by
  obtain ⟨node, hnode, hr⟩ := List.mem_flatMap.mp h
  obtain ⟨⟨name, _⟩, hd, rfl⟩ := List.mem_filterMap.mp hr
  have hname : name ∈ node.names := List.mem_map.mpr ⟨_, hd, rfl⟩
  exact ⟨name, List.mem_flatMap.mpr ⟨node, hnode, hname⟩, node.name_of_mem_declarations hd⟩

theorem Routine.mem_locals {r : Routine} {name : String} (h : name ∈ r.body.flatMap Node.names) :
    name ∈ r.locals := by
  rw [locals, List.mem_eraseDups]
  exact List.mem_append_right _ h

theorem Segment.mem_locals_of_declare {outer : List (List String)} {r : Routine} {name : String}
    (h : .declare name ∈ (Segment.function outer r).uses) : name ∈ r.locals := by
  have hn : name ∈ r.body.flatMap Node.names := by
    rcases List.mem_append.mp h with h | h
    · obtain ⟨q, hq, hn⟩ := List.mem_flatMap.mp h
      obtain ⟨own, hown, hname⟩ := exists_name_of_mem_declaredIn hq
      rw [hname] at hn
      cases List.mem_singleton.mp hn
      exact hown
    · obtain ⟨node, hnode, hn⟩ := List.mem_flatMap.mp h
      exact List.mem_flatMap.mpr ⟨node, hnode, node.mem_names_of_declare hn⟩
  exact r.mem_locals hn

/-! ## Addresses -/

/-- An instruction that comes from the line of a use has the address of the name. -/
theorem Access.addressed_of_instruction? {chain : List (List String)} {strings : List String}
    {target : Label → Nat} {offset : Nat} {a : Access} {i : Instruction}
    (h : (a.line chain).instruction? strings target offset = some i)
    (hc : chain.length ≤ 2 ^ 32) (hn : ∀ names ∈ chain, names.length ≤ 2 ^ 32)
    (hs : strings.length ≤ 2 ^ 32)
    (ht : ∀ text, (a.line chain).text? = some text → text ∈ strings) :
    a.Addressed chain strings i := by
  rw [line, accessLine] at h ht
  cases hl : lexical chain a.name with
  | none =>
    rw [hl] at h ht
    cases h
    have hm := ht a.name rfl
    refine .global (lexical_eq_none_iff.mp hl) hm rfl ?_
    have := List.idxOf_lt_length_of_mem hm
    rw [List.map_singleton, toNat_toUInt32 (by omega)]
  | some address =>
    obtain ⟨slot, frames⟩ := address
    rw [hl] at h
    cases h
    obtain ⟨⟨names, hf, hm, rfl⟩, hi⟩ := lexical_eq_some_iff.mp hl
    refine .slot hf hm hi rfl ?_
    have := hn names (List.mem_of_getElem? hf)
    have := List.idxOf_lt_length_of_mem hm
    have := (List.getElem?_eq_some_iff.mp hf).1
    rw [List.map_cons, List.map_singleton, toNat_toUInt32 (by omega), toNat_toUInt32 (by omega)]

/-- A declaration inside a function gives its first value to a slot of that function. -/
theorem Access.Addressed.eq_zero_of_declare {outer : List (List String)} {r : Routine}
    {strings : List String} {a : Access} {i : Instruction}
    (h : a.Addressed (r.locals :: outer) strings i)
    (ha : a ∈ (Segment.function outer r).uses) (hd : a.isDeclare = true) :
    i.opcode = .setVariable ∧ i.operands.map UInt32.toNat = [r.locals.idxOf a.name, 0] := by
  obtain ⟨name, rfl⟩ : ∃ name, a = .declare name := by
    cases a with
    | declare name => exact ⟨name, rfl⟩
    | _ => cases hd
  have hm := Segment.mem_locals_of_declare ha
  cases h with
  | @slot names frames hf _ hi hop ho =>
    cases frames with
    | zero =>
      cases hf
      exact ⟨hop, ho⟩
    | succ frames => exact absurd hm (hi 0 (Nat.succ_pos _) _ rfl)
  | global hn => exact absurd hm (hn _ List.mem_cons_self)

/-- **Lexical addressing is exact.** The image of a program has a section for each of its segments,
and the instructions of a section that use names are, in order, those of the uses of names in its
segment, each with the address of its name; and what is declared inside a function is stored in a
slot of that function. -/
theorem Program.addresses_exact {config : Config} {program : Program} {image : Image}
    (h : program.compile config = .ok image) (hstrings : image.strings.length ≤ 2 ^ 32)
    (hsections : image.sections.length ≤ 2 ^ 32) :
    image.sections.length = program.segments.length ∧
      ∀ (id : Nat) segment, program.segments[id]? = some segment →
        (∀ names ∈ segment.chain, names.length ≤ 2 ^ 32) →
        ∃ is, image.instructions id = .ok is ∧
          List.Forall₂ (fun a i => a.Addressed segment.chain image.strings i ∧
              ∀ outer r, segment = .function outer r → a.isDeclare = true →
                i.opcode = .setVariable ∧
                  i.operands.map UInt32.toNat = [r.locals.idxOf a.name, 0])
            segment.uses (is.filter fun i => i.opcode.isAccess) := by
  obtain ⟨hlength, hsegments⟩ := assembled h
  refine ⟨hlength, fun id segment hs hlocals => ?_⟩
  obtain ⟨lines, ha⟩ := hsegments id segment hs
  have hchain := Nat.le_trans (length_chain_le_sections h hs) hsections
  obtain ⟨_, _, _, he, -⟩ := ha.emits
  refine ⟨_, ha.instructions_eq, ?_⟩
  have hlines : lines.filter Line.isAccess = segment.uses.map (Access.line segment.chain) := by
    rw [he.accesses (Assembled.disciplined segment).neat, segment.accessLines_plan]
  have hforall : List.Forall₂ _ _ _ :=
    Assembly.forall₂_accesses image.strings (Assembled.target image lines) 0 lines
  rw [hlines, List.forall₂_map_left_iff] at hforall
  have hforall := (List.forall₂_and_left _ _).mpr ⟨fun a (ha : a ∈ segment.uses) => ha, hforall⟩
  refine hforall.imp fun a i ⟨hm, offset, hi⟩ => ?_
  have hline : a.line segment.chain ∈ lines := by
    have := List.mem_map_of_mem (f := Access.line segment.chain) hm
    rw [← hlines] at this
    exact List.mem_of_mem_filter this
  have haddr := Access.addressed_of_instruction? hi hchain hlocals hstrings fun text ht =>
    ha.texts text (List.mem_filterMap.mpr ⟨_, hline, ht⟩)
  refine ⟨haddr, ?_⟩
  rintro outer r rfl hd
  exact haddr.eq_zero_of_declare hm hd

/-- A function inside another one uses a variable of the other one and a global, and the other one
declares that variable and the function. -/
theorem Program.addresses_exact_nested :
    ∃ image is, (Program.compile {} ⟨[.function (some "f") ["a"]
        [.declaration "b" (some (.ident "a")), .function (some "g") []
          [.assign (.ident "b") (.binary .add (.ident "b") (.ident "c"))]]]⟩ = .ok image ∧
      image.strings.length ≤ 2 ^ 32 ∧ image.sections.length ≤ 2 ^ 32) ∧
      image.instructions 2 = .ok is ∧
      List.Forall₂ (Access.Addressed [["g"], ["f", "a", "b", "g"]] ["c", "f"])
        [.load "b", .load "c", .store "b"] (is.filter fun i => i.opcode.isAccess) := by
  have h : Program.compile {} ⟨[.function (some "f") ["a"]
        [.declaration "b" (some (.ident "a")), .function (some "g") []
          [.assign (.ident "b") (.binary .add (.ident "b") (.ident "c"))]]]⟩ = .ok
      { sections := [
          [19, 0, 0, 0, 1, 0, 0, 0, 18, 0, 0, 0, 1, 0, 0, 0, 27, 0, 0, 0, 19, 0, 0, 0, 1, 0, 0, 0,
            27, 0, 0, 0, 0, 0, 0, 0, 1, 0, 0, 0],
          [21, 0, 0, 0, 0, 0, 0, 0, 22, 0, 0, 0, 1, 0, 0, 0, 0, 0, 0, 0, 19, 0, 0, 0, 2, 0, 0, 0,
            7, 0, 0, 0, 3, 0, 0, 0, 0, 0, 0, 0, 27, 0, 0, 0, 8, 0, 0, 0, 1, 0, 0, 0, 0, 0, 0, 0,
            7, 0, 0, 0, 2, 0, 0, 0, 0, 0, 0, 0, 27, 0, 0, 0, 19, 0, 0, 0, 2, 0, 0, 0, 27, 0, 0, 0,
            0, 0, 0, 0, 1, 0, 0, 0],
          [21, 0, 0, 0, 0, 0, 0, 0, 8, 0, 0, 0, 2, 0, 0, 0, 1, 0, 0, 0, 4, 0, 0, 0, 0, 0, 0, 0,
            3, 0, 0, 0, 7, 0, 0, 0, 2, 0, 0, 0, 1, 0, 0, 0, 27, 0, 0, 0, 0, 0, 0, 0, 1, 0, 0, 0]]
        strings := ["c", "f"] } := by
    decide +kernel
  obtain ⟨-, hsegments⟩ := Program.addresses_exact h (by decide) (by decide)
  obtain ⟨is, hi, hf⟩ := hsegments 2 (.function [["f", "a", "b", "g"]]
      ⟨some "g", [], [.assign (.ident "b") (.binary .add (.ident "b") (.ident "c"))]⟩)
    (by simp [Program.segments, functionsIn, declaredIn, literalsIn, Node.declared,
      Node.declarations, Node.ownLiterals, Node.unlessDeclared, Node.literals,
      Node.isDeclaredFunction, Routine.segments_eq, Routine.locals, Node.names]; rfl) (by decide)
  exact ⟨_, is, ⟨h, by decide, by decide⟩, hi, hf.imp fun _ _ h => h.1⟩

end ScriptCompiler
