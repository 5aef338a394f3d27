/-
Lowering with more levels.

Every part of a tree is lowered with one level less than the whole, and with none left lowering fails at that part. A
step with fewer levels ends as the same step with more of them does, with the same code or fault and the same module,
unless the tree nests too deeply (`Within`). As in reading, this is kept by the ways in which steps are put together.
-/
import StackLang.Lowering.Function
import StackLang.Proofs.Twins

namespace StackLang.Lower

open Step (UpTo)

variable {α β : Type}

/-- the first step ends as the second does, unless trees nest too deeply for it -/
abbrev Within (x y : Lower α) : Prop :=
  UpTo (· = LowerFault.tooDeep) x y

/-! ## Expressions -/

theorem hasCall_within {levels more : Nat} (h : levels ≤ more) (t : Tree) : Within (hasCall levels t) (hasCall more t) := by
  induction levels generalizing more t with
  | zero => exact UpTo.throw _ _
  | succ levels ih =>
    obtain ⟨more, rfl⟩ := Nat.exists_eq_add_of_le' (Nat.one_le_of_lt h)
    have hinner : levels ≤ more := Nat.le_of_succ_le_succ h
    cases t with
    | positive t => exact ih hinner t
    | negative t => exact ih hinner t
    | binary op l r =>
      refine (ih hinner l).bind fun found => ?_
      split
      · exact UpTo.refl _
      · exact ih hinner r
    | _ => exact UpTo.refl _

section

variable {value value' : β → Lower (Code × Name)}

theorem argumentCodes_within (h : ∀ b, Within (value b) (value' b)) (function : Name) (arguments : List (β × Parameter)) :
    Within (argumentCodes value function arguments) (argumentCodes value' function arguments) := by
  induction arguments with
  | nil => exact UpTo.refl _
  | cons a rest ih =>
    refine (h a.1).bind fun r => ?_
    dsimp only
    split
    · exact ih.before _
    · exact UpTo.refl _

theorem call_within (h : ∀ b, Within (value b) (value' b)) (frame : Frame) (function : Name) (arguments : List β) :
    Within (call frame value function arguments) (call frame value' function arguments) := by
  refine UpTo.behind _ fun signature => ?_
  split
  · exact UpTo.behind _ fun _ => (argumentCodes_within h function _).before _
  · exact (argumentCodes_within h function _).before _

theorem operandCall_within {value value' : Tree → Lower (Code × Name)} (h : ∀ t, Within (value t) (value' t))
    (frame : Frame) (t : Tree) : Within (operandCall frame value t) (operandCall frame value' t) := by
  refine UpTo.behind _ fun f => ?_
  cases t with
  | call g arguments => exact (call_within h frame f arguments).before _
  | _ => exact UpTo.refl _

end

/-- the two sorts of expressions with the one number of levels and with the other -/
structure WithinAt (frame : Frame) (levels more : Nat) : Prop where
  value : ∀ t, Within (value frame levels t) (value frame more t)
  arithmetic : ∀ t, Within (arithmetic frame levels t) (arithmetic frame more t)

variable {frame : Frame} {levels more : Nat}

theorem value_within (ih : WithinAt frame levels more) (t : Tree) :
    Within (value frame (levels + 1) t) (value frame (more + 1) t) := by
  have hother (hident : ∀ x, t ≠ .ident x) (hcall : ∀ f arguments, t ≠ .call f arguments) :
      Within (value frame (levels + 1) t) (value frame (more + 1) t) := by
    rw [value, value]
    · split
      · exact (ih.arithmetic t).before _
      · exact UpTo.refl _
    all_goals assumption
  cases t with
  | ident x => exact UpTo.refl _
  | call f arguments => exact (call_within ih.value frame f arguments).before _
  | _ => exact hother (by simp) (by simp)

theorem arithmetic_within (ih : WithinAt frame levels more) (h : levels ≤ more) (t : Tree) :
    Within (arithmetic frame (levels + 1) t) (arithmetic frame (more + 1) t) := by
  cases t with
  | callOperand t => exact operandCall_within ih.value frame t
  | positive t => exact ih.arithmetic t
  | negative t =>
    rw [arithmetic, arithmetic]
    split
    · exact UpTo.refl _
    · exact (ih.arithmetic t).before _
  | binary op l r =>
    by_cases hop : op = .pow
    · subst hop
      cases r with
      | number n =>
        rw [arithmetic, arithmetic]
        refine (hasCall_within h l).bind fun found => ?_
        split
        · exact UpTo.refl _
        · exact (ih.arithmetic l).before _
      | _ => exact UpTo.refl _
    · rw [arithmetic, arithmetic]
      · split
        · exact UpTo.refl _
        · exact (ih.arithmetic l).bind fun _ => (ih.arithmetic r).before _
      all_goals assumption
  | _ => exact UpTo.refl _

/-- more levels make a difference only where there were too few -/
theorem withinAt (frame : Frame) (h : levels ≤ more) : WithinAt frame levels more := by
  induction levels generalizing more with
  | zero => exact ⟨fun _ => UpTo.throw _ _, fun _ => UpTo.throw _ _⟩
  | succ levels ih =>
    obtain ⟨more, rfl⟩ := Nat.exists_eq_add_of_le' (Nat.one_le_of_lt h)
    have hle : levels ≤ more := Nat.le_of_succ_le_succ h
    exact ⟨value_within (ih hle), arithmetic_within (ih hle) hle⟩

/-! ## Statements, definitions and programs -/

theorem declaration_within (h : levels ≤ more) (name type : Name) (t : Tree) :
    Within (declaration frame levels name type t) (declaration frame more name type t) := by
  refine UpTo.behind _ fun _ => ?_
  split
  · exact UpTo.behind _ fun _ => ((withinAt frame h).value t).before _
  · exact ((withinAt frame h).value t).before _

theorem assignment_within (h : levels ≤ more) (name : Name) (t : Tree) :
    Within (assignment frame levels name t) (assignment frame more name t) :=
  UpTo.behind _ fun _ => ((withinAt frame h).value t).before _

theorem addition_within (h : levels ≤ more) (name : Name) (t : Tree) :
    Within (addition frame levels name t) (addition frame more name t) :=
  UpTo.behind _ fun _ => ((withinAt frame h).value t).before _

theorem statement_within (h : levels ≤ more) (t : Tree) :
    Within (statement frame levels t) (statement frame more t) := by
  cases t with
  | declare name type t => exact declaration_within h name type t
  | assign name t => exact (assignment_within h name t).before _
  | addAssign name t => exact (addition_within h name t).before _
  | ret t => exact ((withinAt frame h).value t).before _
  | call f arguments => exact (call_within (withinAt frame h).value frame f arguments).before _
  | _ => exact UpTo.refl _

variable {functions : FunctionTable}

theorem body_within (h : levels ≤ more) (trees : List Tree) (locals : Locals) (found : List Code) :
    Within (body functions levels locals found trees) (body functions more locals found trees) := by
  induction trees generalizing locals found with
  | nil => exact UpTo.refl _
  | cons t rest ih => exact (statement_within h t).bind fun r => ih r.2 (r.1 :: found)

theorem definition_within (h : levels ≤ more) (name : Name) (parameters : List Parameter) (returns : Name)
    (trees : List Tree) :
    Within (definition functions levels name parameters returns trees)
      (definition functions more name parameters returns trees) :=
  UpTo.behind _ fun locals => (body_within h trees locals []).before _

theorem definitions_within (h : levels ≤ more) (trees : List Tree) :
    Within (definitions functions levels trees) (definitions functions more trees) := by
  induction trees with
  | nil => exact UpTo.refl _
  | cons t rest ih =>
    cases t with
    | define name parameters returns trees => exact (definition_within h name parameters returns trees).bind fun _ => ih
    | _ => exact UpTo.refl _

end StackLang.Lower
