/-
How lowering works on the module.

A lowering step changes the module only by adding method references to its pool and, once a definition is lowered,
methods; it never looks at it otherwise (`Lower.Adds`). Every function of lowering is put together from such steps,
expressions and statements from references alone (`adds_expressions`, `adds_statement`). So what references and methods
do to a module, and what they do to two modules side by side, every lowering does.
-/
import Mathlib.Tactic
import StackLang.Lowering.Function
import StackLang.Proofs.Steps

namespace StackLang.Lower

/-- a step that works on the module by adding references and, where `methods` holds, methods, and in no other way -/
inductive Adds (methods : Prop) : {α : Type} → Lower α → Prop
  | pure {α : Type} (a : α) : Adds methods (pure a)
  | throw {α : Type} (fault : LowerFault) : Adds methods (throw fault : Lower α)
  | reference (name descriptor : String) : Adds methods (onModule (Module.addMethodRef name descriptor))
  | method (name descriptor : String) (code : Bytes) (maxLocals : Int) :
      methods → Adds methods (onModule (Module.addMethod name descriptor code maxLocals))
  | bind {α β : Type} {x : Lower α} {f : α → Lower β} :
      Adds methods x → (∀ a, Adds methods (f a)) → Adds methods (x >>= f)

variable {methods : Prop} {α : Type} {frame : Frame} {functions : FunctionTable}

theorem adds_check (e : Except Violation α) : Adds methods (check e) := by
  cases e with
  | ok a => exact .pure a
  | error violation => exact .throw _

/-- a check in front of a step -/
theorem adds_guard {c : Prop} [Decidable c] (violation : Violation) {step : Lower α} (h : Adds methods step) :
    Adds methods (if c then (do violate violation; step) else step) := by
  split
  · exact .bind (.throw _) fun _ => h
  · exact h

/-! ## Expressions -/

theorem adds_hasCall (depth : Nat) (t : Tree) : Adds methods (hasCall depth t) := by
  induction depth generalizing t with
  | zero => exact .throw _
  | succ depth ih =>
    cases t with
    | callOperand t => exact .pure true
    | positive t => exact ih t
    | negative t => exact ih t
    | binary op l r =>
      refine .bind (ih l) fun found => ?_
      split
      · exact .pure true
      · exact ih r
    | _ => exact .pure false

theorem adds_argumentCodes {value : α → Lower (Code × Name)} (h : ∀ a, Adds methods (value a)) (f : Name)
    (arguments : List (α × Parameter)) : Adds methods (argumentCodes value f arguments) := by
  induction arguments with
  | nil => exact .pure _
  | cons a rest ih =>
    rw [argumentCodes]
    refine .bind (h a.1) fun r => ?_
    dsimp only
    split
    · exact .bind ih fun _ => .pure _
    · exact .throw _

theorem adds_call {value : α → Lower (Code × Name)} (h : ∀ a, Adds methods (value a)) (f : Name) (arguments : List α) :
    Adds methods (call frame value f arguments) := by
  refine .bind (adds_check _) fun signature => adds_guard _ (.bind (adds_argumentCodes h f _) fun _ => ?_)
  exact .bind (adds_check _) fun _ => .bind (.reference _ _) fun _ => .pure _

theorem adds_intFunction (t : Tree) : Adds methods (intFunction frame t) := by
  unfold intFunction
  split
  · exact .throw _
  · refine .bind (adds_check _) fun signature => ?_
    split
    · exact .pure _
    · exact .throw _

theorem adds_operandCall {value : Tree → Lower (Code × Name)} (h : ∀ t, Adds methods (value t)) (t : Tree) :
    Adds methods (operandCall frame value t) := by
  refine .bind (adds_intFunction t) fun f => ?_
  split
  · exact .bind (adds_call h f _) fun _ => .pure _
  · exact .bind (adds_call (fun _ => .throw _) f _) fun _ => .pure _
  · exact .throw _

theorem adds_value {depth : Nat} (hvalue : ∀ t, Adds methods (value frame depth t))
    (harithmetic : ∀ t, Adds methods (arithmetic frame depth t)) (t : Tree) :
    Adds methods (value frame (depth + 1) t) := by
  have hother (hident : ∀ x, t ≠ .ident x) (hcall : ∀ f arguments, t ≠ .call f arguments) :
      Adds methods (value frame (depth + 1) t) := by
    rw [value]
    · split
      · exact .bind (harithmetic t) fun _ => .pure _
      · exact .throw _
    · exact hident
    · exact hcall
  cases t with
  | ident x => exact .bind (adds_check _) fun _ => .bind (adds_check _) fun _ => .pure _
  | call f arguments =>
    rw [value]
    refine .bind (adds_call hvalue f arguments) fun r => ?_
    dsimp only
    split
    · exact .throw _
    · exact .pure _
  | _ => exact hother (by simp) (by simp)

theorem adds_arithmetic {depth : Nat} (hvalue : ∀ t, Adds methods (value frame depth t))
    (harithmetic : ∀ t, Adds methods (arithmetic frame depth t)) (t : Tree) :
    Adds methods (arithmetic frame (depth + 1) t) := by
  cases t with
  | number n => exact adds_check _
  | name x =>
    refine .bind (adds_check _) fun v => ?_
    split
    · exact adds_check _
    · exact .throw _
  | callOperand t => exact adds_operandCall hvalue t
  | positive t => exact harithmetic t
  | negative t =>
    rw [arithmetic]
    split
    · exact .pure _
    · exact .bind (harithmetic t) fun _ => .pure _
  | binary op l r =>
    by_cases hop : op = .pow
    · subst hop
      cases r with
      | number n =>
        rw [arithmetic]
        refine .bind (adds_hasCall depth l) fun found => ?_
        split
        · exact .throw _
        · exact .bind (harithmetic l) fun _ => adds_check _
      | _ => exact .throw _
    · rw [arithmetic]
      · split
        · exact .throw _
        · exact .bind (harithmetic l) fun _ => .bind (harithmetic r) fun _ => .pure _
      · exact hop
  | _ => exact .throw _

/-- whatever its depth, an expression adds references only -/
theorem adds_expressions (methods : Prop) (frame : Frame) (depth : Nat) :
    (∀ t, Adds methods (value frame depth t)) ∧ ∀ t, Adds methods (arithmetic frame depth t) := by
  induction depth with
  | zero => exact ⟨fun t => .throw _, fun t => .throw _⟩
  | succ depth ih => exact ⟨adds_value ih.1 ih.2, adds_arithmetic ih.1 ih.2⟩

/-! ## Statements and definitions -/

theorem adds_declaration (depth : Nat) (x type : Name) (t : Tree) : Adds methods (declaration frame depth x type t) := by
  refine .bind (adds_check _) fun _ => adds_guard _ (.bind ((adds_expressions methods frame depth).1 t) fun r => ?_)
  exact adds_guard _ (.bind (adds_check _) fun _ => .bind (adds_check _) fun _ => .pure _)

theorem adds_assignment (depth : Nat) (x : Name) (t : Tree) : Adds methods (assignment frame depth x t) := by
  refine .bind (adds_check _) fun v => .bind ((adds_expressions methods frame depth).1 t) fun r => ?_
  exact adds_guard _ (.bind (adds_check _) fun _ => .pure _)

theorem adds_addition (depth : Nat) (x : Name) (t : Tree) : Adds methods (addition frame depth x t) := by
  refine .bind (adds_check _) fun v => .bind ((adds_expressions methods frame depth).1 t) fun r => ?_
  exact adds_guard _ (.bind (adds_check _) fun _ => .bind (adds_check _) fun _ => .pure _)

theorem adds_statement (depth : Nat) (t : Tree) : Adds methods (statement frame depth t) := by
  have hvalue := (adds_expressions methods frame depth).1
  cases t with
  | declare x type t => exact adds_declaration depth x type t
  | assign x t => exact .bind (adds_assignment depth x t) fun _ => .pure _
  | addAssign x t => exact .bind (adds_addition depth x t) fun _ => .pure _
  | ret t => exact .bind (hvalue t) fun _ => .pure _
  | call f arguments => exact .bind (adds_call hvalue f arguments) fun _ => .pure _
  | _ => exact .throw _

theorem adds_body (depth : Nat) (locals : Locals) (found : List Code) (trees : List Tree) :
    Adds methods (body functions depth locals found trees) := by
  induction trees generalizing locals found with
  | nil => exact .pure _
  | cons t rest ih => exact .bind (adds_statement depth t) fun r => ih r.2 (r.1 :: found)

/-- a definition adds its method last -/
theorem adds_definition (hmethods : methods) (depth : Nat) (name : Name) (parameters : List Parameter) (returns : Name)
    (trees : List Tree) : Adds methods (definition functions depth name parameters returns trees) := by
  refine .bind (adds_check _) fun locals => .bind (adds_body depth locals [] trees) fun r => ?_
  refine adds_guard _ (.bind (adds_check _) fun descriptor => ?_)
  exact .bind (.method _ _ _ _ hmethods) fun _ => .pure _

theorem adds_definitions (hmethods : methods) (depth : Nat) (trees : List Tree) :
    Adds methods (definitions functions depth trees) := by
  induction trees with
  | nil => exact .pure _
  | cons t rest ih =>
    cases t with
    | define name parameters returns statements =>
      exact .bind (adds_definition hmethods depth name parameters returns statements) fun _ => ih
    | _ => exact .throw _

end StackLang.Lower
