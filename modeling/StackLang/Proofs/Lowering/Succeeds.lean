/-
When lowering succeeds.

Each lemma takes one form of trees and says exactly when lowering it succeeds: which parts are lowered, in which order,
which checks pass, and what code and module this gives. Properties of lowering start from here and unfold nothing.
-/
import Mathlib.Tactic
import StackLang.Lowering.Function
import StackLang.Proofs.Source.Rules

namespace StackLang.Lower

variable {α : Type} {m m' : Module} {frame : Frame} {functions : FunctionTable} {locals locals' : Locals} {depth : Nat}
  {code : Code} {f x type : Name} {t : Tree}

/-! ## Checks -/

theorem check_eq_ok {e : Except Violation α} {a : α} : check e m = .ok a m' ↔ e = .ok a ∧ m = m' := by
  cases e with
  | ok b => simp [check]
  | error violation => simp [check, violate]

theorem get_eq_ok {v : Variable} : locals.get x = .ok v ↔ locals.find? x = some v := by
  unfold Locals.get
  cases locals.find? x with
  | none => simp
  | some w => simp

theorem lookup_eq_ok {s : Signature} : functions.lookup f = .ok s ↔ functions.find? f = some s := by
  unfold FunctionTable.lookup
  cases functions.find? f with
  | none => simp
  | some s' => simp

/-- a check in front of a step -/
theorem guard_eq_ok {c : Prop} [Decidable c] {violation : Violation} {step : Lower α} {a : α} :
    (if c then (do violate violation; step) else step) m = .ok a m' ↔ ¬ c ∧ step m = .ok a m' := by
  have hfails : violate (α := PUnit) violation m = .error (.semantic violation) m := rfl
  by_cases hc : c
  · rw [if_pos hc, Step.bind_of_error hfails]
    simp [hc]
  · simp [hc]

theorem unless_eq_ok {c : Prop} [Decidable c] {violation : Violation} {step : Lower α} {a : α} :
    (if c then violate violation else step) m = .ok a m' ↔ ¬ c ∧ step m = .ok a m' := by
  by_cases hc : c
  · simp [hc, violate]
  · simp [hc]

theorem if_eq_ok {c : Prop} [Decidable c] {violation : Violation} {step : Lower α} {a : α} :
    (if c then step else violate violation) m = .ok a m' ↔ c ∧ step m = .ok a m' := by
  by_cases hc : c
  · simp [hc]
  · simp [hc, violate]

/-! ## Calls -/

theorem argumentCodes_cons_eq_ok {value : α → Lower (Code × Name)} {a : α} {p : Parameter}
    {rest : List (α × Parameter)} :
    argumentCodes value f ((a, p) :: rest) m = .ok code m' ↔
      ∃ first type m₁ more, value a m = .ok (first, type) m₁ ∧ TypeWord.compatible p.type type = true ∧
        argumentCodes value f rest m₁ = .ok more m' ∧ code = first ++ more := by
  simp only [argumentCodes, Step.bind_eq_ok, if_eq_ok, Step.pure_eq_ok]
  constructor
  · rintro ⟨⟨first, type⟩, m₁, hfirst, hcompatible, more, m₂, hrest, rfl, rfl⟩
    exact ⟨first, type, m₁, more, hfirst, hcompatible, hrest, rfl⟩
  · rintro ⟨first, type, m₁, more, hfirst, hcompatible, hrest, rfl⟩
    exact ⟨(first, type), m₁, hfirst, hcompatible, more, m', hrest, rfl, rfl⟩

/-- a call succeeds for a known function and as many arguments as it has parameters; it adds a reference last -/
theorem call_eq_ok {value : α → Lower (Code × Name)} {arguments : List α} {s : Signature} :
    call frame value f arguments m = .ok (code, s) m' ↔
      frame.functions.find? f = some s ∧ arguments.length = s.arity ∧
      ∃ argumentCode m₁ descriptor index,
        argumentCodes value f (arguments.zip s.parameters) m = .ok argumentCode m₁ ∧
        s.descriptor = .ok descriptor ∧ Module.addMethodRef f.display descriptor m₁ = .ok index m' ∧
        code = argumentCode ++ [.invokevirtual (UInt16.ofNat index)] := by
  simp only [call, Step.bind_eq_ok, check_eq_ok, lookup_eq_ok, guard_eq_ok, onModule, Step.mapFault_eq_ok,
    Step.pure_eq_ok]
  constructor
  · rintro ⟨s', _, ⟨hfind, rfl⟩, harity, argumentCode, m₁, harguments, descriptor, _, ⟨hdescriptor, rfl⟩, index, _,
      hadd, heq, rfl⟩
    obtain ⟨rfl, rfl⟩ := Prod.mk.inj heq
    exact ⟨hfind, not_not.1 harity, argumentCode, m₁, descriptor, index, harguments, hdescriptor, hadd, rfl⟩
  · rintro ⟨hfind, harity, argumentCode, m₁, descriptor, index, harguments, hdescriptor, hadd, rfl⟩
    exact ⟨s, m, ⟨hfind, rfl⟩, not_not.2 harity, argumentCode, m₁, harguments, descriptor, m₁, ⟨hdescriptor, rfl⟩,
      index, m', hadd, rfl, rfl⟩

/-- a call that is an operand succeeds if the function returns an integer -/
theorem operandCall_eq_ok {value : Tree → Lower (Code × Name)} {arguments : List Tree} :
    operandCall frame value (.call f arguments) m = .ok code m' ↔
      ∃ s, s.returns = TypeWord.int ∧ call frame value f arguments m = .ok (code, s) m' := by
  simp only [operandCall, intFunction, Tree.name?, Step.bind_eq_ok, check_eq_ok, lookup_eq_ok, if_eq_ok,
    Step.pure_eq_ok]
  constructor
  · rintro ⟨f', _, ⟨s, _, ⟨hfind, rfl⟩, hint, rfl, rfl⟩, ⟨code', s'⟩, _, hcall, rfl, rfl⟩
    obtain rfl : s = s' := Option.some.inj (hfind.symm.trans (call_eq_ok.1 hcall).1)
    exact ⟨s, hint, hcall⟩
  · rintro ⟨s, hint, hcall⟩
    exact ⟨f, m, ⟨s, m, ⟨(call_eq_ok.1 hcall).1, rfl⟩, hint, rfl, rfl⟩, (code, s), m', hcall, rfl, rfl⟩

/-! ## Expressions -/

theorem arithmetic_name_eq_ok :
    arithmetic frame (depth + 1) (.name x) m = .ok code m' ↔
      ∃ v, frame.locals.find? x = some v ∧ v.type = TypeWord.int ∧ load v.slot = .ok code ∧ m = m' := by
  simp only [arithmetic, Step.bind_eq_ok, check_eq_ok, get_eq_ok, if_eq_ok]
  constructor
  · rintro ⟨v, _, ⟨hfind, rfl⟩, hint, hload, rfl⟩
    exact ⟨v, hfind, hint, hload, rfl⟩
  · rintro ⟨v, hfind, hint, hload, rfl⟩
    exact ⟨v, m, ⟨hfind, rfl⟩, hint, hload, rfl⟩

theorem negatedLiteral?_eq_some (h : negatedLiteral? t = some code) : ∃ n, t = .number n ∧ push (-n) = .ok code := by
  cases t with
  | number n => exact ⟨n, rfl, Step.eq_ok_of_toOption h⟩
  | _ => cases h

/-- a negated literal is pushed if it can be; everything else is negated on the stack -/
theorem arithmetic_negative_eq_ok :
    arithmetic frame (depth + 1) (.negative t) m = .ok code m' ↔
      negatedLiteral? t = some code ∧ m = m' ∨
      negatedLiteral? t = none ∧ ∃ inner, arithmetic frame depth t m = .ok inner m' ∧ code = inner ++ [.ineg] := by
  rw [arithmetic]
  cases negatedLiteral? t with
  | some code' => simp
  | none =>
    simp only [Step.bind_eq_ok, Step.pure_eq_ok, reduceCtorEq, false_and, true_and, false_or]
    constructor
    · rintro ⟨inner, _, hinner, rfl, rfl⟩
      exact ⟨inner, hinner, rfl⟩
    · rintro ⟨inner, hinner, rfl⟩
      exact ⟨inner, m', hinner, rfl, rfl⟩

theorem arithmetic_power_eq_ok {base exponent : Tree} :
    arithmetic frame (depth + 1) (.binary .pow base exponent) m = .ok code m' ↔
      ∃ n inner m₁, exponent = .number n ∧ hasCall depth base m = .ok false m₁ ∧
        arithmetic frame depth base m₁ = .ok inner m' ∧ unroll inner n = .ok code := by
  cases exponent with
  | number n =>
    simp only [arithmetic, Step.bind_eq_ok, unless_eq_ok, check_eq_ok]
    constructor
    · rintro ⟨found, m₁, hsearch, hfound, inner, _, hinner, hunroll, rfl⟩
      obtain rfl : found = false := by simpa using hfound
      exact ⟨n, inner, m₁, rfl, hsearch, hinner, hunroll⟩
    · rintro ⟨_, inner, m₁, heq, hsearch, hinner, hunroll⟩
      cases heq
      exact ⟨false, m₁, hsearch, by simp, inner, m', hinner, hunroll, rfl⟩
  | _ => simp [arithmetic, violate]

theorem arithmetic_binary_eq_ok {op : BinaryOp} (hop : op ≠ .pow) {l r : Tree} :
    arithmetic frame (depth + 1) (.binary op l r) m = .ok code m' ↔
      ∃ i left right m₁, binaryInstr? op = some i ∧ arithmetic frame depth l m = .ok left m₁ ∧
        arithmetic frame depth r m₁ = .ok right m' ∧ code = left ++ right ++ [i] := by
  rw [arithmetic]
  · cases binaryInstr? op with
    | none => simp [violate]
    | some i =>
      simp only [Step.bind_eq_ok, Step.pure_eq_ok]
      constructor
      · rintro ⟨left, m₁, hleft, right, _, hright, rfl, rfl⟩
        exact ⟨i, left, right, m₁, rfl, hleft, hright, rfl⟩
      · rintro ⟨_, left, right, m₁, heq, hleft, hright, rfl⟩
        cases heq
        exact ⟨left, m₁, hleft, right, m', hright, rfl, rfl⟩
  · exact hop

theorem value_ident_eq_ok :
    value frame (depth + 1) (.ident x) m = .ok (code, type) m' ↔
      ∃ v, frame.locals.find? x = some v ∧ v.type = type ∧ load v.slot = .ok code ∧ m = m' := by
  simp only [value, Step.bind_eq_ok, check_eq_ok, get_eq_ok, Step.pure_eq_ok, Prod.mk.injEq]
  constructor
  · rintro ⟨v, _, ⟨hfind, rfl⟩, _, _, ⟨hload, rfl⟩, ⟨rfl, rfl⟩, rfl⟩
    exact ⟨v, hfind, rfl, hload, rfl⟩
  · rintro ⟨v, hfind, rfl, hload, rfl⟩
    exact ⟨v, m, ⟨hfind, rfl⟩, code, m, ⟨hload, rfl⟩, ⟨rfl, rfl⟩, rfl⟩

theorem value_call_eq_ok {arguments : List Tree} :
    value frame (depth + 1) (.call f arguments) m = .ok (code, type) m' ↔
      ∃ s, call frame (value frame depth) f arguments m = .ok (code, s) m' ∧ s.returns ≠ TypeWord.void ∧
        s.returns = type := by
  simp only [value, Step.bind_eq_ok, unless_eq_ok, Step.pure_eq_ok, Prod.mk.injEq]
  constructor
  · rintro ⟨⟨code', s⟩, _, hcall, hvoid, ⟨rfl, rfl⟩, rfl⟩
    exact ⟨s, hcall, hvoid, rfl⟩
  · rintro ⟨s, hcall, hvoid, rfl⟩
    exact ⟨(code, s), m', hcall, hvoid, ⟨rfl, rfl⟩, rfl⟩

/-- all forms but variables and calls are arithmetic or no expressions -/
theorem value_other_eq_ok (hident : ∀ x, t ≠ .ident x) (hcall : ∀ f arguments, t ≠ .call f arguments) :
    value frame (depth + 1) t m = .ok (code, type) m' ↔
      t.isArithmetic = true ∧ arithmetic frame depth t m = .ok code m' ∧ type = TypeWord.int := by
  rw [value]
  · simp only [if_eq_ok, Step.bind_eq_ok, Step.pure_eq_ok, Prod.mk.injEq]
    constructor
    · rintro ⟨hform, _, _, harithmetic, ⟨rfl, rfl⟩, rfl⟩
      exact ⟨hform, harithmetic, rfl⟩
    · rintro ⟨hform, harithmetic, rfl⟩
      exact ⟨hform, code, m', harithmetic, ⟨rfl, rfl⟩, rfl⟩
  · exact hident
  · exact hcall

/-! ## Statements -/

theorem compatible_iff {declared actual : Name} :
    TypeWord.compatible declared actual = true ↔ declared = TypeWord.int ∧ actual = TypeWord.int := by
  unfold TypeWord.compatible
  simp only [Bool.and_eq_true, decide_eq_true_eq]
  constructor
  · rintro ⟨rfl, hint⟩
    exact ⟨hint, hint⟩
  · rintro ⟨rfl, rfl⟩
    exact ⟨rfl, rfl⟩

theorem statement_declare_eq_ok :
    statement frame depth (.declare x type t) m = .ok (code, locals') m' ↔
      ∃ v inner last, type = TypeWord.int ∧ value frame depth t m = .ok (inner, TypeWord.int) m' ∧
        frame.locals.declare x type = .ok (v, locals') ∧ store v.slot = .ok last ∧ code = inner ++ last := by
  simp only [statement, declaration, Step.bind_eq_ok, check_eq_ok, TypeWord.requireValue_eq_ok, guard_eq_ok,
    Step.pure_eq_ok, Prod.mk.injEq, Bool.not_eq_true', Bool.not_eq_false, compatible_iff]
  constructor
  · rintro ⟨_, _, ⟨⟨htype, rfl⟩, rfl⟩, _, ⟨inner, actual⟩, _, hvalue, ⟨_, hactual⟩, ⟨v, locals₁⟩, _, ⟨hdeclare, rfl⟩, last,
      _, ⟨hstore, rfl⟩, ⟨rfl, rfl⟩, rfl⟩
    obtain rfl : actual = TypeWord.int := hactual
    exact ⟨v, inner, last, htype, hvalue, hdeclare, hstore, rfl⟩
  · rintro ⟨v, inner, last, htype, hvalue, hdeclare, hstore, rfl⟩
    have hfresh : frame.locals.contains x = false := by simp [Locals.contains, (Locals.declare_eq_ok hdeclare).1]
    exact ⟨type, m, ⟨⟨htype, rfl⟩, rfl⟩, by simp [hfresh], (inner, TypeWord.int), m', hvalue, ⟨htype, rfl⟩, (v, locals'), m',
      ⟨hdeclare, rfl⟩, last, m', ⟨hstore, rfl⟩, ⟨rfl, rfl⟩, rfl⟩

theorem statement_assign_eq_ok :
    statement frame depth (.assign x t) m = .ok (code, locals') m' ↔
      ∃ v inner last, frame.locals.find? x = some v ∧ v.type = TypeWord.int ∧
        value frame depth t m = .ok (inner, TypeWord.int) m' ∧ store v.slot = .ok last ∧ code = inner ++ last ∧
        locals' = frame.locals := by
  simp only [statement, assignment, Step.bind_eq_ok, check_eq_ok, get_eq_ok, guard_eq_ok, Step.pure_eq_ok,
    Prod.mk.injEq, Bool.not_eq_true', Bool.not_eq_false, compatible_iff]
  constructor
  · rintro ⟨_, _, ⟨v, _, ⟨hfind, rfl⟩, ⟨inner, actual⟩, _, hvalue, ⟨htype, hactual⟩, last, _, ⟨hstore, rfl⟩, rfl, rfl⟩,
      ⟨rfl, rfl⟩, rfl⟩
    obtain rfl : actual = TypeWord.int := hactual
    exact ⟨v, inner, last, hfind, htype, hvalue, hstore, rfl, rfl⟩
  · rintro ⟨v, inner, last, hfind, htype, hvalue, hstore, rfl, rfl⟩
    exact ⟨_, m', ⟨v, m, ⟨hfind, rfl⟩, (inner, TypeWord.int), m', hvalue, ⟨htype, rfl⟩, last, m', ⟨hstore, rfl⟩, rfl, rfl⟩,
      ⟨rfl, rfl⟩, rfl⟩

theorem statement_addAssign_eq_ok :
    statement frame depth (.addAssign x t) m = .ok (code, locals') m' ↔
      ∃ v inner old last, frame.locals.find? x = some v ∧ v.type = TypeWord.int ∧
        value frame depth t m = .ok (inner, TypeWord.int) m' ∧ load v.slot = .ok old ∧ store v.slot = .ok last ∧
        code = inner ++ old ++ [.iadd] ++ last ∧ locals' = frame.locals := by
  simp only [statement, addition, Step.bind_eq_ok, check_eq_ok, get_eq_ok, guard_eq_ok, Step.pure_eq_ok,
    Prod.mk.injEq, Bool.not_eq_true', Bool.not_eq_false, compatible_iff]
  constructor
  · rintro ⟨_, _, ⟨v, _, ⟨hfind, rfl⟩, ⟨inner, actual⟩, _, hvalue, ⟨htype, hactual⟩, old, _, ⟨hload, rfl⟩, last, _,
      ⟨hstore, rfl⟩, rfl, rfl⟩, ⟨rfl, rfl⟩, rfl⟩
    obtain rfl : actual = TypeWord.int := hactual
    exact ⟨v, inner, old, last, hfind, htype, hvalue, hload, hstore, rfl, rfl⟩
  · rintro ⟨v, inner, old, last, hfind, htype, hvalue, hload, hstore, rfl, rfl⟩
    exact ⟨_, m', ⟨v, m, ⟨hfind, rfl⟩, (inner, TypeWord.int), m', hvalue, ⟨htype, rfl⟩, old, m', ⟨hload, rfl⟩, last, m',
      ⟨hstore, rfl⟩, rfl, rfl⟩, ⟨rfl, rfl⟩, rfl⟩

theorem statement_ret_eq_ok :
    statement frame depth (.ret t) m = .ok (code, locals') m' ↔
      ∃ inner type, value frame depth t m = .ok (inner, type) m' ∧ code = inner ++ [.ireturn] ∧
        locals' = frame.locals := by
  simp only [statement, Step.bind_eq_ok, Step.pure_eq_ok, Prod.mk.injEq]
  constructor
  · rintro ⟨⟨inner, type⟩, _, hvalue, ⟨rfl, rfl⟩, rfl⟩
    exact ⟨inner, type, hvalue, rfl, rfl⟩
  · rintro ⟨inner, type, hvalue, rfl, rfl⟩
    exact ⟨(inner, type), m', hvalue, ⟨rfl, rfl⟩, rfl⟩

theorem statement_call_eq_ok {arguments : List Tree} :
    statement frame depth (.call f arguments) m = .ok (code, locals') m' ↔
      ∃ s, call frame (value frame depth) f arguments m = .ok (code, s) m' ∧ locals' = frame.locals := by
  simp only [statement, Step.bind_eq_ok, Step.pure_eq_ok, Prod.mk.injEq]
  constructor
  · rintro ⟨⟨inner, s⟩, _, hcall, ⟨rfl, rfl⟩, rfl⟩
    exact ⟨s, hcall, rfl⟩
  · rintro ⟨s, hcall, rfl⟩
    exact ⟨(code, s), m', hcall, ⟨rfl, rfl⟩, rfl⟩

end StackLang.Lower
