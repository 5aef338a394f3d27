/-
Reading statements, definitions and programs.

Inside a function body no definition may start and no variable may be declared twice, parameters included; both are
found while reading. A definition is checked and entered into the function table after its closing brace, so a call
can only name a function whose definition has ended before it.
-/
import StackLang.Source.Expression

namespace StackLang.Parse

/-- an expression up to its semicolon -/
def valueToSemicolon (depth : Nat) : Parse Tree := do
  let value ← expression depth
  let _ ← expect .semicolon .semicolon
  return value

/-- after `let`: a declaration, with the token that names the variable -/
def declaration (depth : Nat) : Parse (Token × Tree) := do
  let name ← expect .name .identifier
  let type ← expect .name .type
  let _ ← expect .equals .equals
  let value ← valueToSemicolon depth
  return (name, .declare name.name type.name value)

/-- a statement that is neither a declaration nor a definition -/
def plainStatement (depth : Nat) (token : Token) : Parse Tree := do
  match token.kind with
  | .returnWord =>
    let _ ← advance
    return .ret (← valueToSemicolon depth)
  | .name =>
    match ← kindAt 1 with
    | some .equals =>
      let _ ← advance
      let _ ← advance
      return .assign token.name (← valueToSemicolon depth)
    | some .plus =>
      let _ ← advance
      let _ ← advance
      let _ ← expect .equals .equalsAfterPlus
      return .addAssign token.name (← valueToSemicolon depth)
    | some .openParen =>
      let call ← functionCall (expression depth)
      let _ ← expect .semicolon .semicolon
      return call
    | _ => refuse (.unknownStatement token) token
  | _ => refuse (.unknownStatement token) token

/-- the names declared inside a body after a new one, which must not be among them; outside of bodies none are kept -/
def declare (name : Token) : Parse Unit := do
  match (← get).declared with
  | none => return ()
  | some names =>
    if name.name ∈ names then
      violate (.redeclaredVariable name.name) name
    else
      modify fun s => { s with declared := some (name.name :: names) }

/-- after `let`: a declaration of a variable that is new in its body -/
def newVariable (depth : Nat) : Parse Tree := do
  let (name, tree) ← declaration depth
  declare name
  return tree

/-- a statement of a function body, where no definition may start -/
def bodyStatement (depth : Nat) : Parse Tree := do
  let token ← current
  match token.kind with
  | .funWord => violate .nestedDefinition token
  | .letWord =>
    let _ ← advance
    newVariable depth
  | _ => plainStatement depth token

/-- after `{`: statements up to the closing brace; those found are given latest first -/
def block (depth : Nat) (found : List Tree) : List Token → Parse (List Tree)
  | [] => endOfInput
  | _ :: rounds => do
    let token ← current
    if token.kind = .closeBrace then
      let _ ← advance
      return found.reverse
    else
      let tree ← bodyStatement depth
      block depth (tree :: found) rounds

/-- after `{`: the body of a function, in which its parameters are declared. Behind it, read or not, nothing is. -/
def body (depth : Nat) (parameters : List Parameter) : Parse (List Tree) :=
  Step.leaving (fun s => { s with declared := none }) do
    modify fun s => { s with declared := some (parameters.map (·.name)) }
    block depth [] (← ahead)

/-- parameters up to the closing parenthesis; those found are given latest first -/
def parametersAfter (found : List Parameter) : List Token → Parse (List Parameter)
  | [] => endOfInput
  | _ :: rounds => do
    let name ← expect .name .argumentName
    let type ← expect .name .argumentType
    if name.name ∈ found.map (·.name) then
      violate (.redeclaredVariable name.name) name
    else
      let found := ⟨name.name, type.name⟩ :: found
      let separator ← advance
      if separator.kind = .closeParen then
        return found.reverse
      else if separator.kind = .comma then
        parametersAfter found rounds
      else
        expected .commaOrClose separator

def parameters : Parse (List Parameter) := do
  let next ← current
  if next.kind = .closeParen then
    let _ ← advance
    return []
  else
    parametersAfter [] (← ahead)

/-- the return type in front of a body; without one the function returns nothing -/
def returnType : Parse Name := do
  let next ← current
  match next.kind with
  | .name =>
    let _ ← advance
    return next.name
  | .openBrace => return TypeWord.void
  | _ => expected .returnType next

/-- the table after a definition whose types are known and whose name is new -/
def registered (functions : FunctionTable) (name : Name) (s : Signature) : Except Violation FunctionTable := do
  let _ ← TypeWord.requireReturn s.returns
  s.parameters.forM fun p => discard (TypeWord.requireValue p.type)
  functions.define name s

/-- after `fun`: a definition, entered into the function table -/
def definition (depth : Nat) : Parse Tree := do
  let name ← expect .name .functionName
  let _ ← expect .openParen .openParen
  let parameters ← parameters
  let returns ← returnType
  let _ ← expect .openBrace .openBrace
  let body ← body depth parameters
  let functions ← checkAt name (registered (← get).functions name.name ⟨returns, parameters⟩)
  let tree := Tree.define name.name parameters returns body
  modify fun s => { s with functions := functions, finished := s.finished ++ [tree] }
  return tree

/-- a statement: a definition outside of bodies, or what may stand in a body -/
def statement (depth : Nat) : Parse Tree := do
  let token ← current
  if token.kind = .funWord ∧ (← get).declared.isNone then
    let _ ← advance
    definition depth
  else
    bodyStatement depth

/-- statements up to the end of the tokens; those found are given latest first -/
def statements (depth : Nat) (found : List Tree) : List Token → Parse (List Tree)
  | [] => return found.reverse
  | _ :: rounds => do
    if ← exhausted then
      return found.reverse
    else
      let tree ← statement depth
      statements depth (tree :: found) rounds

/-- all tokens ahead as a program -/
def program (depth : Nat) : Parse Tree := do
  return .program (← statements depth [] (← ahead))

end StackLang.Parse
