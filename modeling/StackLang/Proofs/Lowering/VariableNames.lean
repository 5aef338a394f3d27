/-
The names of variables do not matter to lowering.

A renaming goes over a tree (`Tree.rename`) wherever a variable is meant: in parameters, declarations, assignments and
uses. Functions and types keep their names. If different names stay different, a lowering step on the renamed tree is the
step on the tree itself in other words: it gives the same code and module, or the same fault with the variable renamed in
it (`LowerFault.rename`), and it leaves the variables renamed (`Locals.rename`). So each lemma is an equation between
steps, from the look-up of a variable to a whole definition (`definition_rename`).
-/
import Mathlib.Tactic
import StackLang.Lowering.Function
import StackLang.Proofs.Steps

namespace StackLang

/-! ## Renaming -/

variable (r : Name → Name)

def Parameter.rename (p : Parameter) : Parameter :=
  { p with name := r p.name }

namespace Tree

/-- the same form with another name, if it carries one -/
def withName (f : Name) : Tree → Tree
  | .name _ => .name f
  | .ident _ => .ident f
  | .call _ arguments => .call f arguments
  | .declare _ type t => .declare f type t
  | .assign _ t => .assign f t
  | .addAssign _ t => .addAssign f t
  | .define _ parameters returns body => .define f parameters returns body
  | t => t

mutual

/-- the tree with its variables renamed; in the place of a call the name at the root is a function's, and stays -/
def rename : Tree → Tree
  | .number n => .number n
  | .name x => .name (r x)
  | .ident x => .ident (r x)
  | .positive t => .positive t.rename
  | .negative t => .negative t.rename
  | .binary op left right => .binary op left.rename right.rename
  | .callOperand t => .callOperand (t.name?.elim t.rename t.rename.withName)
  | .call f arguments => .call f (renameAll arguments)
  | .ret t => .ret t.rename
  | .declare x type t => .declare (r x) type t.rename
  | .assign x t => .assign (r x) t.rename
  | .addAssign x t => .addAssign (r x) t.rename
  | .define f parameters returns body => .define f (parameters.map (·.rename r)) returns (renameAll body)
  | .program statements => .program (renameAll statements)

def renameAll : List Tree → List Tree
  | [] => []
  | t :: rest => t.rename :: renameAll rest

end

/-- what is left in the place of a call, its own name apart -/
def renameCall (t : Tree) : Tree :=
  t.name?.elim (t.rename r) (t.rename r).withName

variable {r}

theorem renameAll_eq_map (trees : List Tree) : renameAll r trees = trees.map (rename r) := by
  induction trees with
  | nil => rfl
  | cons t rest ih => rw [renameAll, ih, List.map_cons]

theorem form_rename (t : Tree) : (t.rename r).form = t.form := by
  cases t <;> rfl

theorem isArithmetic_rename (t : Tree) : (t.rename r).isArithmetic = t.isArithmetic := by
  cases t <;> rfl

/-- in the place of a call a form keeps its name -/
theorem name?_renameCall (t : Tree) : (t.renameCall r).name? = t.name? := by
  cases t <;> rfl

theorem form_renameCall (t : Tree) : (t.renameCall r).form = t.form := by
  cases t <;> rfl

end Tree

def Violation.rename : Violation → Violation
  | .redeclaredVariable x => .redeclaredVariable (r x)
  | .undeclaredVariable x => .undeclaredVariable (r x)
  | .cannotInitialize x declared actual => .cannotInitialize (r x) declared actual
  | .variableNotInt x type => .variableNotInt (r x) type
  | violation => violation

def LowerFault.rename : LowerFault → LowerFault
  | .semantic violation => .semantic (violation.rename r)
  | fault => fault

/-- faults are of the same class: told by the same stage, or the same fault without a wording -/
def LowerFault.SameClass (fault fault' : LowerFault) : Prop :=
  match fault, fault' with
  | .semantic _, .semantic _ | .encoding _, .encoding _ => True
  | _, _ => fault = fault'

theorem LowerFault.sameClass_rename (fault : LowerFault) : fault.SameClass (fault.rename r) := by
  cases fault with
  | semantic violation => trivial
  | encoding fault => trivial
  | tooDeep => rfl
  | notCall form => rfl

namespace Locals

def rename (l : Locals) : Locals :=
  ⟨l.entries.map (Prod.map r id)⟩

variable {r}

theorem count_rename (l : Locals) : (l.rename r).count = l.count :=
  List.length_map ..

variable (h : Function.Injective r)
include h

theorem find?_rename (l : Locals) (x : Name) : (l.rename r).find? (r x) = l.find? x := by
  unfold find? rename
  induction l.entries with
  | nil => rfl
  | cons e rest ih =>
    have hsame : (r x == r e.1) = (x == e.1) := by rw [Bool.eq_iff_iff, beq_iff_eq, beq_iff_eq, h.eq_iff]
    rw [List.map_cons, List.lookup_cons, List.lookup_cons, ih]
    simp [hsame]

theorem get_rename (l : Locals) (x : Name) : (l.rename r).get (r x) = (l.get x).mapError (·.rename r) := by
  unfold get
  rw [find?_rename h]
  cases l.find? x with
  | none => rfl
  | some v => rfl

theorem contains_rename (l : Locals) (x : Name) : (l.rename r).contains (r x) = l.contains x := by
  unfold contains
  rw [find?_rename h]

theorem declare_rename (l : Locals) (x type : Name) :
    (l.rename r).declare (r x) type = ((l.declare x type).map (Prod.map id (rename r))).mapError (·.rename r) := by
  unfold declare
  rw [contains_rename h, count_rename]
  split
  · rfl
  · simp [rename, Except.map, Except.mapError]

end Locals

def Frame.rename (frame : Frame) : Frame :=
  { frame with locals := frame.locals.rename r }

namespace Lower

open Step (mapFault mapFault_bind)

variable {r} {α β : Type} {frame : Frame} {functions : FunctionTable}

/-! ## Checks -/

theorem check_mapError (e : Except Violation α) :
    check (e.mapError (·.rename r)) = mapFault (.rename r) (check e) := by
  cases e with
  | ok a => rfl
  | error violation => rfl

/-- the faults of a check name no variable -/
def Nameless (e : Except Violation α) : Prop :=
  ∀ r : Name → Name, e.mapError (·.rename r) = e

theorem Nameless.check {e : Except Violation α} (h : Nameless e) : mapFault (.rename r) (check e) = check e := by
  rw [← check_mapError, h r]

theorem nameless_push (n : Int) : Nameless (push n) := by
  intro r
  unfold push
  split <;> rfl

theorem nameless_load (slot : Nat) : Nameless (load slot) := by
  intro r
  unfold load
  split_ifs <;> rfl

theorem nameless_store (slot : Nat) : Nameless (store slot) := by
  intro r
  unfold store
  split_ifs <;> rfl

theorem nameless_unroll (base : Code) (n : Int) : Nameless (unroll base n) := by
  intro r
  unfold unroll
  split_ifs
  · exact nameless_push 1 r
  · rfl
  · rfl

theorem nameless_lookup (f : Name) : Nameless (functions.lookup f) := by
  intro r
  unfold FunctionTable.lookup
  cases functions.find? f <;> rfl

theorem nameless_requireValue (type : Name) : Nameless (TypeWord.requireValue type) := by
  intro r
  unfold TypeWord.requireValue
  split <;> rfl

theorem Nameless.bind {e : Except Violation α} {f : α → Except Violation β} (he : Nameless e)
    (hf : ∀ a, Nameless (f a)) : Nameless (e >>= f) := by
  intro r
  cases e with
  | ok a => exact hf a r
  | error violation => exact congrArg Except.error (Except.error.inj (he r))

theorem nameless_letter (type : Name) : Nameless (TypeWord.letter type) := by
  intro r
  unfold TypeWord.letter
  split_ifs <;> rfl

theorem nameless_letters (parameters : List Parameter) :
    Nameless (parameters.mapM fun p => TypeWord.letter p.type) := by
  induction parameters with
  | nil => exact fun _ => rfl
  | cons p rest ih =>
    rw [List.mapM_cons]
    exact (nameless_letter p.type).bind fun _ => ih.bind fun _ _ => rfl

theorem nameless_descriptor (s : Signature) : Nameless s.descriptor :=
  (nameless_letters s.parameters).bind fun _ => (nameless_letter s.returns).bind fun _ _ => rfl

/-- a descriptor shows types alone -/
theorem descriptor_rename (returns : Name) (parameters : List Parameter) :
    Signature.descriptor ⟨returns, parameters.map (·.rename r)⟩ = Signature.descriptor ⟨returns, parameters⟩ := by
  unfold Signature.descriptor
  dsimp only
  rw [List.mapM_map]
  rfl

/-- the faults of the module name no variable -/
theorem mapFault_onModule (change : ModuleM α) : mapFault (.rename r) (onModule change) = onModule change := by
  funext m
  cases hrun : change m with
  | ok a m' =>
    have hchange : onModule change m = .ok a m' := Step.mapFault_eq_ok.2 hrun
    rw [hchange]
    exact Step.mapFault_eq_ok.2 hchange
  | error fault m' =>
    have hchange : onModule change m = .error (.encoding fault) m' := Step.mapFault_of_error hrun
    rw [hchange]
    exact Step.mapFault_of_error hchange

/-! ## Steps one after the other -/

theorem bind_rename {x x' : Lower α} {f f' : α → Lower β} (hx : x' = mapFault (.rename r) x)
    (hf : ∀ a, f' a = mapFault (.rename r) (f a)) : x' >>= f' = mapFault (.rename r) (x >>= f) := by
  rw [mapFault_bind, ← hx]
  exact bind_congr hf

/-- behind a check whose faults name no variable -/
theorem Nameless.bind_rename {e : Except Violation α} (he : Nameless e) {f f' : α → Lower β}
    (hf : ∀ a, f' a = mapFault (.rename r) (f a)) : Lower.check e >>= f' = mapFault (.rename r) (Lower.check e >>= f) :=
  Lower.bind_rename he.check.symm hf

/-- behind a check that gives a renamed result -/
theorem check_bind_rename {γ : Type} (e : Except Violation α) (g : α → γ) {f : α → Lower β} {f' : γ → Lower β}
    (hf : ∀ a, f' (g a) = mapFault (.rename r) (f a)) :
    check ((e.map g).mapError (·.rename r)) >>= f' = mapFault (.rename r) (check e >>= f) := by
  cases e with
  | ok a => exact hf a
  | error violation => rfl

/-- a check in front of a step -/
theorem guard_rename {c : Prop} [Decidable c] {violation violation' : Violation} {step step' : Lower α}
    (hviolation : violation' = violation.rename r) (hstep : step' = mapFault (.rename r) step) :
    (if c then (do violate violation'; step') else step') =
      mapFault (.rename r) (if c then (do violate violation; step) else step) := by
  split
  · rw [mapFault_bind, hviolation, hstep]
    rfl
  · exact hstep

theorem if_rename {c : Prop} [Decidable c] {x x' y y' : Lower α} (hx : x' = mapFault (.rename r) x)
    (hy : y' = mapFault (.rename r) y) : (if c then x' else y') = mapFault (.rename r) (if c then x else y) := by
  rw [hx, hy, apply_ite (mapFault _)]

/-! ## Expressions -/

theorem hasCall_rename (depth : Nat) (t : Tree) :
    hasCall depth (t.rename r) = mapFault (.rename r) (hasCall depth t) := by
  induction depth generalizing t with
  | zero => rfl
  | succ depth ih =>
    cases t with
    | positive t => exact ih t
    | negative t => exact ih t
    | binary op left right => exact bind_rename (ih left) fun found => if_rename rfl (ih right)
    | _ => rfl

section

variable {value : α → Lower (Code × Name)} {value' : β → Lower (Code × Name)} {g : α → β}

theorem argumentCodes_rename (h : ∀ a, value' (g a) = mapFault (.rename r) (value a)) (f : Name)
    (arguments : List (α × Parameter)) :
    argumentCodes value' f (arguments.map (Prod.map g id)) =
      mapFault (.rename r) (argumentCodes value f arguments) := by
  induction arguments with
  | nil => rfl
  | cons a rest ih =>
    obtain ⟨a, p⟩ := a
    exact bind_rename (h a) fun found => if_rename (bind_rename ih fun _ => rfl) rfl

theorem call_rename (h : ∀ a, value' (g a) = mapFault (.rename r) (value a)) (f : Name) (arguments : List α) :
    call (frame.rename r) value' f (arguments.map g) = mapFault (.rename r) (call frame value f arguments) := by
  unfold call
  rw [List.length_map]
  refine (nameless_lookup f).bind_rename fun signature => guard_rename rfl ?_
  rw [List.zip_map_left]
  refine bind_rename (argumentCodes_rename h f _) fun code => (nameless_descriptor signature).bind_rename fun _ => ?_
  exact bind_rename (mapFault_onModule _).symm fun _ => rfl

end

theorem treeCall_rename {value value' : Tree → Lower (Code × Name)}
    (h : ∀ t, value' (t.rename r) = mapFault (.rename r) (value t)) (f : Name) (arguments : List Tree) :
    call (frame.rename r) value' f (Tree.renameAll r arguments) =
      mapFault (.rename r) (call frame value f arguments) := by
  rw [Tree.renameAll_eq_map]
  exact call_rename h f arguments

theorem intFunction_rename (t : Tree) :
    intFunction (frame.rename r) (t.renameCall r) = mapFault (.rename r) (intFunction frame t) := by
  unfold intFunction
  rw [Tree.name?_renameCall, Tree.form_renameCall]
  cases t.name? with
  | none => rfl
  | some f => exact (nameless_lookup f).bind_rename fun signature => if_rename rfl rfl

theorem operandCall_rename {value value' : Tree → Lower (Code × Name)}
    (h : ∀ t, value' (t.rename r) = mapFault (.rename r) (value t)) (t : Tree) :
    operandCall (frame.rename r) value' (t.renameCall r) = mapFault (.rename r) (operandCall frame value t) := by
  refine bind_rename (intFunction_rename t) fun f => ?_
  cases t with
  | call g arguments =>
    exact bind_rename (treeCall_rename h f arguments) fun _ => rfl
  | define g parameters returns body =>
    let refuse (_ : Parameter) : Lower (Code × Name) := violate (.unsupportedExpression "FunctionArgument")
    have hrefuse (p : Parameter) : refuse (p.rename r) = mapFault (.rename r) (refuse p) := rfl
    exact bind_rename (call_rename hrefuse f parameters) fun _ => rfl
  | _ => rfl

theorem negatedLiteral?_rename (t : Tree) : negatedLiteral? (t.rename r) = negatedLiteral? t := by
  cases t <;> rfl

/-- the two sorts of expressions at a depth, on a tree and on the renamed tree -/
structure RenamedAt (r : Name → Name) (frame : Frame) (depth : Nat) : Prop where
  value : ∀ t, value (frame.rename r) depth (t.rename r) = mapFault (.rename r) (value frame depth t)
  arithmetic : ∀ t, arithmetic (frame.rename r) depth (t.rename r) = mapFault (.rename r) (arithmetic frame depth t)

section

variable (h : Function.Injective r) {depth : Nat}
include h

theorem get_rename (x : Name) :
    check ((frame.rename r).locals.get (r x)) = mapFault (.rename r) (check (frame.locals.get x)) := by
  rw [← check_mapError]
  exact congrArg check (Locals.get_rename h frame.locals x)

theorem value_rename (ih : RenamedAt r frame depth) (t : Tree) :
    value (frame.rename r) (depth + 1) (t.rename r) = mapFault (.rename r) (value frame (depth + 1) t) := by
  have hother (hident : ∀ x, t ≠ .ident x) (hcall : ∀ f arguments, t ≠ .call f arguments)
      (hident' : ∀ x, t.rename r ≠ .ident x) (hcall' : ∀ f arguments, t.rename r ≠ .call f arguments) :
      value (frame.rename r) (depth + 1) (t.rename r) = mapFault (.rename r) (value frame (depth + 1) t) := by
    rw [value, value, Tree.isArithmetic_rename, Tree.form_rename]
    · exact if_rename (bind_rename (ih.arithmetic t) fun _ => rfl) rfl
    all_goals assumption
  cases t with
  | ident x => exact bind_rename (get_rename h x) fun v => (nameless_load v.slot).bind_rename fun _ => rfl
  | call f arguments => exact bind_rename (treeCall_rename ih.value f arguments) fun result => if_rename rfl rfl
  | _ => exact hother (by simp) (by simp) (by simp [Tree.rename]) (by simp [Tree.rename])

theorem arithmetic_rename (ih : RenamedAt r frame depth) (t : Tree) :
    arithmetic (frame.rename r) (depth + 1) (t.rename r) = mapFault (.rename r) (arithmetic frame (depth + 1) t) := by
  cases t with
  | number n => exact (nameless_push n).check.symm
  | name x => exact bind_rename (get_rename h x) fun v => if_rename (nameless_load v.slot).check.symm rfl
  | callOperand t => exact operandCall_rename ih.value t
  | positive t => exact ih.arithmetic t
  | negative t =>
    rw [Tree.rename, arithmetic, arithmetic, negatedLiteral?_rename]
    cases negatedLiteral? t with
    | some code => rfl
    | none => exact bind_rename (ih.arithmetic t) fun _ => rfl
  | binary op left right =>
    by_cases hop : op = .pow
    · subst hop
      cases right with
      | number n =>
        refine bind_rename (hasCall_rename depth left) fun found => if_rename rfl ?_
        exact bind_rename (ih.arithmetic left) fun code => (nameless_unroll code n).check.symm
      | _ => rfl
    · rw [Tree.rename, arithmetic, arithmetic]
      · cases binaryInstr? op with
        | none => rfl
        | some instr => exact bind_rename (ih.arithmetic left) fun _ => bind_rename (ih.arithmetic right) fun _ => rfl
      all_goals assumption
  | _ => rfl

theorem renamedAt (frame : Frame) (depth : Nat) : RenamedAt r frame depth := by
  induction depth with
  | zero => exact ⟨fun _ => rfl, fun _ => rfl⟩
  | succ depth ih => exact ⟨value_rename h ih, arithmetic_rename h ih⟩

end

/-! ## Statements and definitions -/

def renameScope (r : Name → Name) (result : Code × Locals) : Code × Locals :=
  (result.1, result.2.rename r)

section

variable {x x' : Lower α} {f f' : α → Lower (Code × Locals)} {step step' : Lower (Code × Locals)}

theorem bind_renameScope (hx : x' = mapFault (.rename r) x)
    (hf : ∀ a, f' a = mapFault (.rename r) (renameScope r <$> f a)) :
    x' >>= f' = mapFault (.rename r) (renameScope r <$> (x >>= f)) := by
  rw [map_bind]
  exact bind_rename hx hf

theorem guard_renameScope {c : Prop} [Decidable c] {violation violation' : Violation}
    (hviolation : violation' = violation.rename r) (hstep : step' = mapFault (.rename r) (renameScope r <$> step)) :
    (if c then (do violate violation'; step') else step') =
      mapFault (.rename r) (renameScope r <$> (if c then (do violate violation; step) else step)) := by
  split
  · exact bind_renameScope (congrArg violate hviolation) fun _ => hstep
  · exact hstep

end

section

variable (h : Function.Injective r)
include h

theorem declaration_rename (depth : Nat) (x type : Name) (t : Tree) :
    declaration (frame.rename r) depth (r x) type (t.rename r) =
      mapFault (.rename r) (renameScope r <$> declaration frame depth x type t) := by
  refine bind_renameScope (nameless_requireValue type).check.symm fun _ => ?_
  have hcontains : (frame.rename r).locals.contains (r x) = frame.locals.contains x :=
    Locals.contains_rename h frame.locals x
  rw [hcontains]
  refine guard_renameScope rfl (bind_renameScope ((renamedAt h frame depth).value t) fun value => ?_)
  refine guard_renameScope rfl ?_
  have hdeclare : (frame.rename r).locals.declare (r x) type = _ := Locals.declare_rename h frame.locals x type
  rw [hdeclare, map_bind]
  refine check_bind_rename _ _ fun declared => ?_
  exact bind_renameScope (nameless_store declared.1.slot).check.symm fun _ => rfl

theorem assignment_rename (depth : Nat) (x : Name) (t : Tree) :
    assignment (frame.rename r) depth (r x) (t.rename r) = mapFault (.rename r) (assignment frame depth x t) := by
  refine bind_rename (get_rename h x) fun v => bind_rename ((renamedAt h frame depth).value t) fun value => ?_
  exact guard_rename rfl ((nameless_store v.slot).bind_rename fun _ => rfl)

theorem addition_rename (depth : Nat) (x : Name) (t : Tree) :
    addition (frame.rename r) depth (r x) (t.rename r) = mapFault (.rename r) (addition frame depth x t) := by
  refine bind_rename (get_rename h x) fun v => bind_rename ((renamedAt h frame depth).value t) fun value => ?_
  refine guard_rename rfl ((nameless_load v.slot).bind_rename fun _ => ?_)
  exact (nameless_store v.slot).bind_rename fun _ => rfl

theorem statement_rename (frame : Frame) (depth : Nat) (t : Tree) :
    statement (frame.rename r) depth (t.rename r) =
      mapFault (.rename r) (renameScope r <$> statement frame depth t) := by
  have hvalue := (renamedAt h frame depth).value
  cases t with
  | declare x type t => exact declaration_rename h depth x type t
  | assign x t => exact bind_renameScope (assignment_rename h depth x t) fun _ => rfl
  | addAssign x t => exact bind_renameScope (addition_rename h depth x t) fun _ => rfl
  | ret t => exact bind_renameScope (hvalue t) fun _ => rfl
  | call f arguments => exact bind_renameScope (treeCall_rename hvalue f arguments) fun _ => rfl
  | _ => rfl

theorem body_rename (depth : Nat) (locals : Locals) (found : List Code) (trees : List Tree) :
    body functions depth (locals.rename r) found (Tree.renameAll r trees) =
      mapFault (.rename r) (renameScope r <$> body functions depth locals found trees) := by
  induction trees generalizing locals found with
  | nil => rfl
  | cons t rest ih =>
    have hfirst : statement ⟨functions, locals.rename r⟩ depth (t.rename r) =
        mapFault (.rename r) (renameScope r <$> statement ⟨functions, locals⟩ depth t) :=
      statement_rename h ⟨functions, locals⟩ depth t
    rw [Tree.renameAll, body, body, hfirst, map_bind, mapFault_bind, Step.mapFault_map, bind_map_left]
    exact bind_congr fun result => ih result.2 (result.1 :: found)

theorem declareAll_rename (parameters : List Parameter) (locals : Locals) :
    (parameters.map (·.rename r)).foldlM (fun l p => return (← l.declare p.name p.type).2) (locals.rename r) =
      ((parameters.foldlM (fun l p => return (← l.declare p.name p.type).2) locals : Except Violation Locals).map
        (Locals.rename r)).mapError (·.rename r) := by
  induction parameters generalizing locals with
  | nil => rfl
  | cons p rest ih =>
    have hdeclare : (locals.rename r).declare (p.rename r).name (p.rename r).type = _ :=
      Locals.declare_rename h locals p.name p.type
    rw [List.map_cons, List.foldlM_cons, List.foldlM_cons, hdeclare]
    cases locals.declare p.name p.type with
    | ok declared => exact ih declared.2
    | error violation => rfl

/-- a definition with its variables renamed is the same definition in other words -/
theorem definition_rename (functions : FunctionTable) (depth : Nat) (name : Name) (parameters : List Parameter)
    (returns : Name) (statements : List Tree) :
    definition functions depth name (parameters.map (·.rename r)) returns (Tree.renameAll r statements) =
      mapFault (.rename r) (definition functions depth name parameters returns statements) := by
  have hlocals : parameterLocals (parameters.map (·.rename r)) =
      ((parameterLocals parameters).map (Locals.rename r)).mapError (·.rename r) :=
    declareAll_rename h parameters .empty
  unfold definition
  rw [hlocals]
  refine check_bind_rename _ _ fun locals => ?_
  rw [body_rename h, mapFault_bind, Step.mapFault_map, bind_map_left]
  refine bind_congr fun result => guard_rename rfl ?_
  rw [descriptor_rename]
  refine (nameless_descriptor _).bind_rename fun descriptor => ?_
  have hcount : (result.2.rename r).count = result.2.count := Locals.count_rename result.2
  rw [hcount]
  exact bind_rename (mapFault_onModule _).symm fun _ => rfl

end

/-- Variables may be renamed as long as different ones stay different. A definition is then lowered to the same code and
the same module as before. Where it is not lowered, it fails with a fault of the same class, the variable in it renamed,
and leaves the same module behind. -/
theorem variable_names_do_not_matter {r : Name → Name} (h : Function.Injective r) (functions : FunctionTable)
    (depth : Nat) (name : Name) (parameters : List Parameter) (returns : Name) (statements : List Tree) (m : Module) :
    (∀ code m',
      definition functions depth name (parameters.map (·.rename r)) returns (Tree.renameAll r statements) m =
        .ok code m' ↔ definition functions depth name parameters returns statements m = .ok code m') ∧
    ∀ fault m', definition functions depth name parameters returns statements m = .error fault m' →
      definition functions depth name (parameters.map (·.rename r)) returns (Tree.renameAll r statements) m =
        .error (fault.rename r) m' ∧ fault.SameClass (fault.rename r) := by
  rw [definition_rename h]
  constructor
  · intro code m'
    exact Step.mapFault_eq_ok
  · intro fault m' hfails
    exact ⟨Step.mapFault_of_error hfails, fault.sameClass_rename r⟩

/-- two names swapped in a definition that is lowered -/
theorem swapped_names_do_not_matter :
    Function.Injective (Equiv.swap ("x" : Name) "y") ∧ ∃ code m',
      definition .initial 3 "f" [⟨"x", "int"⟩] "int"
        [.declare "y" "int" (.binary .mul (.name "x") (.number 2)), .ret (.binary .sub (.name "y") (.name "x"))]
        (.empty "Main" "base/Object") = .ok code m' ∧
      definition .initial 3 "f" [⟨"y", "int"⟩] "int"
        [.declare "x" "int" (.binary .mul (.name "y") (.number 2)), .ret (.binary .sub (.name "x") (.name "y"))]
        (.empty "Main" "base/Object") = .ok code m' := by
  have hswap : Function.Injective (Equiv.swap ("x" : Name) "y") := (Equiv.swap _ _).injective
  have hnames := variable_names_do_not_matter hswap .initial 3 "f" [⟨"x", "int"⟩] "int"
    [.declare "y" "int" (.binary .mul (.name "x") (.number 2)), .ret (.binary .sub (.name "y") (.name "x"))]
    (.empty "Main" "base/Object")
  refine ⟨hswap, _, _, rfl, ?_⟩
  exact (hnames.1 _ _).2 rfl

end Lower

end StackLang
