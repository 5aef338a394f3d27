/-
The code of a program, piece by piece.

Lowering joins the codes of the statements of a body and adds the whole to the module as a method. `programPieces` is
lowering that keeps the code of each statement of each definition apart; it is the same step otherwise
(`definitions_eq_pieces`), so what is said of the pieces is said of the code that a program is lowered to.
-/
import StackLang.Proofs.Lowering.Succeeds

namespace StackLang.Lower

variable {m m' : Module} {functions : FunctionTable} {locals locals' : Locals} {depth : Nat} {t : Tree}
  {rest trees : List Tree}

/-- the code of each statement of a body, and the variables after it -/
def bodyPieces (functions : FunctionTable) (depth : Nat) (locals : Locals) : List Tree → Lower (List Code × Locals)
  | [] => return ([], locals)
  | t :: rest => do
    let (code, locals) ← statement ⟨functions, locals⟩ depth t
    let (pieces, locals) ← bodyPieces functions depth locals rest
    return (code :: pieces, locals)

/-- a definition: gives the code of each of its statements, and adds the whole to the module as a method -/
def definitionPieces (functions : FunctionTable) (depth : Nat) (name : Name) (parameters : List Parameter)
    (returns : Name) (statements : List Tree) : Lower (List Code) := do
  let locals ← check (parameterLocals parameters)
  let (pieces, locals) ← bodyPieces functions depth locals statements
  if Code.size pieces.flatten > maxCodeSize then
    violate (.functionTooLarge name)
  let descriptor ← check (Signature.descriptor ⟨returns, parameters⟩)
  let _ ← onModule (Module.addMethod name.display descriptor (Code.encode pieces.flatten) locals.count)
  return pieces

/-- the definitions of a program in order: gives the code of each statement of each of them -/
def programPieces (functions : FunctionTable) (depth : Nat) : List Tree → Lower (List (List Code))
  | [] => return []
  | .define name parameters returns statements :: rest => do
    let pieces ← definitionPieces functions depth name parameters returns statements
    return pieces :: (← programPieces functions depth rest)
  | t :: _ => violate (.outsideFunction t.form)

/-! ## The same steps as lowering -/

theorem body_eq_pieces (found : List Code) :
    body functions depth locals found trees =
      (fun r => (found.reverse.flatten ++ r.1.flatten, r.2)) <$> bodyPieces functions depth locals trees := by
  induction trees generalizing locals found with
  | nil => simp [body, bodyPieces]
  | cons t rest ih => simp [body, bodyPieces, ih]

theorem definition_eq_pieces (name returns : Name) (parameters : List Parameter) :
    definition functions depth name parameters returns trees =
      List.flatten <$> definitionPieces functions depth name parameters returns trees := by
  simp only [definition, definitionPieces, body_eq_pieces, map_bind, bind_map_left, List.reverse_nil, List.flatten_nil,
    List.nil_append]
  congr 1
  funext locals
  congr 1
  funext r
  split_ifs
  · simp
  · simp

/-- keeping the pieces apart changes nothing of what lowering does -/
theorem definitions_eq_pieces :
    definitions functions depth trees = (fun _ => ()) <$> programPieces functions depth trees := by
  induction trees with
  | nil => simp [definitions, programPieces]
  | cons t rest ih =>
    cases t with
    | define name parameters returns statements =>
      simp [definitions, programPieces, ih, definition_eq_pieces]
    | _ => rfl

/-! ## When they succeed -/

theorem bodyPieces_cons_eq_ok {pieces : List Code} :
    bodyPieces functions depth locals (t :: rest) m = .ok (pieces, locals') m' ↔
      ∃ code locals₁ m₁ more, statement ⟨functions, locals⟩ depth t m = .ok (code, locals₁) m₁ ∧
        bodyPieces functions depth locals₁ rest m₁ = .ok (more, locals') m' ∧ pieces = code :: more := by
  simp only [bodyPieces, Step.bind_eq_ok, Step.pure_eq_ok, Prod.mk.injEq]
  constructor
  · rintro ⟨⟨code, locals₁⟩, m₁, hfirst, ⟨more, locals₂⟩, _, hrest, ⟨rfl, rfl⟩, rfl⟩
    exact ⟨code, locals₁, m₁, more, hfirst, hrest, rfl⟩
  · rintro ⟨code, locals₁, m₁, more, hfirst, hrest, rfl⟩
    exact ⟨(code, locals₁), m₁, hfirst, (more, locals'), m', hrest, ⟨rfl, rfl⟩, rfl⟩

theorem definitionPieces_eq_ok {name returns : Name} {parameters : List Parameter} {pieces : List Code} :
    definitionPieces functions depth name parameters returns trees m = .ok pieces m' ↔
      ∃ locals locals' m₁ descriptor method, parameterLocals parameters = .ok locals ∧
        bodyPieces functions depth locals trees m = .ok (pieces, locals') m₁ ∧
        Code.size pieces.flatten ≤ maxCodeSize ∧ Signature.descriptor ⟨returns, parameters⟩ = .ok descriptor ∧
        Module.addMethod name.display descriptor (Code.encode pieces.flatten) locals'.count m₁ = .ok method m' := by
  simp only [definitionPieces, Step.bind_eq_ok, check_eq_ok, guard_eq_ok, onModule, Step.mapFault_eq_ok,
    Step.pure_eq_ok, not_lt]
  constructor
  · rintro ⟨locals, _, ⟨hlocals, rfl⟩, ⟨found, locals'⟩, m₁, hbody, hsize, descriptor, _, ⟨hdescriptor, rfl⟩, method, _,
      hadd, rfl, rfl⟩
    exact ⟨locals, locals', m₁, descriptor, method, hlocals, hbody, hsize, hdescriptor, hadd⟩
  · rintro ⟨locals, locals', m₁, descriptor, method, hlocals, hbody, hsize, hdescriptor, hadd⟩
    exact ⟨locals, m, ⟨hlocals, rfl⟩, (pieces, locals'), m₁, hbody, hsize, descriptor, m₁, ⟨hdescriptor, rfl⟩, method, m',
      hadd, rfl, rfl⟩

theorem programPieces_cons_eq_ok {parts : List (List Code)} :
    programPieces functions depth (t :: rest) m = .ok parts m' ↔
      ∃ name parameters returns statements pieces m₁ more, t = .define name parameters returns statements ∧
        definitionPieces functions depth name parameters returns statements m = .ok pieces m₁ ∧
        programPieces functions depth rest m₁ = .ok more m' ∧ parts = pieces :: more := by
  cases t with
  | define name parameters returns statements =>
    simp only [programPieces, Step.bind_eq_ok, Step.pure_eq_ok]
    constructor
    · rintro ⟨pieces, m₁, hfirst, more, _, hrest, rfl, rfl⟩
      exact ⟨name, parameters, returns, statements, pieces, m₁, more, rfl, hfirst, hrest, rfl⟩
    · rintro ⟨_, _, _, _, pieces, m₁, more, heq, hfirst, hrest, rfl⟩
      cases heq
      exact ⟨pieces, m₁, hfirst, more, m', hrest, rfl, rfl⟩
  | _ => simp [programPieces, violate]

theorem definitions_eq_ok :
    definitions functions depth trees m = .ok () m' ↔ ∃ parts, programPieces functions depth trees m = .ok parts m' := by
  rw [definitions_eq_pieces, map_eq_pure_bind, Step.bind_eq_ok]
  simp

end StackLang.Lower
