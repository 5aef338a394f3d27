/-
Printed programs.

A tree is printed as a row of words, with parentheses only where the row would otherwise be read as another tree
(`grouped`). Next to it stands the number of levels that reading the row nests. Of a tree whose names and numbers can be
written at all (`Atoms.printable`), each word is one lexeme when it stands alone (`lexes_programWords`).
-/
import StackLang.Proofs.Source.Forms
import StackLang.Proofs.Source.Grammar
import StackLang.Proofs.Source.Rules
import StackLang.Proofs.Source.Words

namespace StackLang

/-! ## Rows of words -/

def BinaryOp.sign : BinaryOp → TokenKind
  | .add => .plus
  | .sub => .minus
  | .mul => .star
  | .div => .slash
  | .pow => .power
  | .other word => .other word

/-- a row of words, in parentheses where they are needed -/
def grouped (needed : Bool) (row : List Word) : List Word :=
  if needed then .sign .openParen :: (row ++ [.sign .closeParen]) else row

/-- the levels that parentheses add -/
def groupedLevels (needed : Bool) (levels : Nat) : Nat :=
  if needed then levels + 2 else levels

namespace Tree

/-- the level of arithmetic that a form is of: that of its operator, and 4 for operands -/
def level : Tree → Nat
  | .binary op _ _ => op.sign.precedence
  | _ => 4

mutual

def words : Tree → List Word
  | .number n => [.number n]
  | .name x | .ident x => [.name x]
  | .positive t => .sign .plus :: grouped (t.level < 4) t.words
  | .negative t => .sign .minus :: grouped (t.level < 4) t.words
  | .binary op l r =>
    grouped (l.level < op.sign.precedence) l.words ++
      .sign op.sign :: grouped (r.level ≤ op.sign.precedence) r.words
  | .callOperand t => t.words
  | .call f arguments => .name f :: .sign .openParen :: (argumentWords arguments ++ [.sign .closeParen])
  | .ret _ | .declare .. | .assign .. | .addAssign .. | .define .. | .program _ => []

/-- the words of arguments, with commas between them; a variable or a call that is arithmetic stands in parentheses -/
def argumentWords : List Tree → List Word
  | [] => []
  | [t] => grouped t.isLeaf t.words
  | t :: u :: rest => grouped t.isLeaf t.words ++ .sign .comma :: argumentWords (u :: rest)

end

def valueWords (t : Tree) : List Word :=
  grouped t.isLeaf t.words

def plainWords : Tree → List Word
  | .ret v => .sign .returnWord :: (v.valueWords ++ [.sign .semicolon])
  | .declare x type v =>
    .sign .letWord :: .name x :: .name type :: .sign .equals :: (v.valueWords ++ [.sign .semicolon])
  | .assign x v => .name x :: .sign .equals :: (v.valueWords ++ [.sign .semicolon])
  | .addAssign x v => .name x :: .sign .plus :: .sign .equals :: (v.valueWords ++ [.sign .semicolon])
  | .call f arguments => (call f arguments).words ++ [.sign .semicolon]
  | _ => []

end Tree

/-- the words of parameters, with commas between them -/
def parameterWords : List Parameter → List Word
  | [] => []
  | [p] => [.name p.name, .name p.type]
  | p :: q :: rest => .name p.name :: .name p.type :: .sign .comma :: parameterWords (q :: rest)

/-- the words of a return type, which may be left out if the function returns nothing -/
def returnWords (shown : Bool) (returns : Name) : List Word :=
  if returns = TypeWord.void ∧ shown = false then [] else [.name returns]

/-- the words of a statement of a program; which functions show that they return nothing is left open -/
def Tree.statementWords (shown : Name → Bool) : Tree → List Word
  | .define f parameters returns body =>
    .sign .funWord :: .name f :: .sign .openParen :: (parameterWords parameters ++
      .sign .closeParen :: (returnWords (shown f) returns ++
        .sign .openBrace :: (body.flatMap Tree.plainWords ++ [.sign .closeBrace])))
  | t => t.plainWords

def programWords (shown : Name → Bool) (trees : List Tree) : List Word :=
  trees.flatMap (Tree.statementWords shown)

/-! ## Levels -/

namespace Tree

/-- the levels of a whole expression, from those of its form -/
def valueLevelsOf (t : Tree) (levels : Nat) : Nat :=
  if t.isArithmetic then groupedLevels t.isLeaf levels + 2 else levels + 1

mutual

/-- the levels that reading an operand takes, or a call -/
def levels : Tree → Nat
  | .number _ | .name _ => 1
  | .positive t | .negative t => groupedLevels (t.level < 4) t.levels + 1
  | .binary op l r =>
    max (groupedLevels (l.level < op.sign.precedence) l.levels)
      (groupedLevels (r.level ≤ op.sign.precedence) r.levels + 1)
  | .callOperand t => t.levels + 1
  | .call _ arguments => argumentLevels arguments
  | .ident _ | .ret _ | .declare .. | .assign .. | .addAssign .. | .define .. | .program _ => 0

def argumentLevels : List Tree → Nat
  | [] => 0
  | t :: rest => max (t.valueLevelsOf t.levels) (argumentLevels rest)

end

def valueLevels (t : Tree) : Nat :=
  t.valueLevelsOf t.levels

def plainLevels : Tree → Nat
  | .ret v | .declare _ _ v | .assign _ v | .addAssign _ v => v.valueLevels
  | t => t.levels

def statementLevels : Tree → Nat
  | .define _ _ _ body => (body.map plainLevels).foldr max 0
  | t => t.plainLevels

end Tree

def programLevels (trees : List Tree) : Nat :=
  (trees.map Tree.statementLevels).foldr max 0

/-! ## Printable trees -/

/-- names that are split off as names, and numbers that can be read in decimal notation -/
def Atoms.printable : Atoms where
  name x := ∃ s, x = ⟨some s⟩ ∧ tokenize s = .ok [⟨.name, some s, .start⟩]
  number n := 0 ≤ n ∧ (toString n.toNat).length ≤ 4300

/-- a statement is a definition or one that may stand in a body, and then it is printed in the same way -/
theorem Tree.IsStatement.define_or_plain {atoms : Atoms} {t : Tree} (h : t.IsStatement atoms) (shown : Name → Bool) :
    (∃ f parameters returns body, t = .define f parameters returns body) ∨
      t.IsPlain atoms ∧ t.isDefinition = false ∧ t.statementWords shown = t.plainWords ∧
        t.statementLevels = t.plainLevels := by
  cases t with
  | define f parameters returns body => exact .inl ⟨f, parameters, returns, body, rfl⟩
  | _ => exact .inr ⟨h, rfl, rfl, rfl⟩

theorem Atoms.printable.lexes {x : Name} (h : Atoms.printable.name x) : (Word.name x).Lexes := by
  obtain ⟨s, rfl, hs⟩ := h
  exact Word.lexes_name hs

/-- the signs of operators are written -/
theorem BinaryOp.IsSign.lexes {op : BinaryOp} (h : op.IsSign) : (Word.sign op.sign).Lexes := by
  cases op with
  | other => cases h
  | _ => exact Word.lexes_sign rfl

theorem TypeWord.lexes {type : Name} (h : type = int ∨ type = void) : (Word.name type).Lexes := by
  rcases h with rfl | rfl
  · exact ⟨by decide, by decide⟩
  · exact ⟨by decide, by decide⟩

/-! ## Each word is a lexeme -/

/-- each of the words is one lexeme when it stands alone -/
def RowLexes (row : List Word) : Prop :=
  ∀ w ∈ row, w.Lexes

namespace RowLexes

variable {row rest : List Word} {w : Word}

theorem nil : RowLexes [] :=
  fun _ h => absurd h List.not_mem_nil

theorem cons (hw : w.Lexes) (h : RowLexes row) : RowLexes (w :: row) :=
  List.forall_mem_cons.2 ⟨hw, h⟩

theorem sign {kind : TokenKind} {s : String} (hs : kind.spelling? = some s) (h : RowLexes row) :
    RowLexes (.sign kind :: row) :=
  cons (Word.lexes_sign hs) h

theorem name {x : Name} (hx : Atoms.printable.name x) (h : RowLexes row) : RowLexes (.name x :: row) :=
  cons (Atoms.printable.lexes hx) h

theorem append (h : RowLexes row) (hrest : RowLexes rest) : RowLexes (row ++ rest) :=
  List.forall_mem_append.2 ⟨h, hrest⟩

theorem grouped (h : RowLexes row) (needed : Bool) : RowLexes (grouped needed row) := by
  unfold StackLang.grouped
  split_ifs
  · exact sign rfl (h.append (sign rfl nil))
  · exact h

theorem flatMap {trees : List Tree} {words : Tree → List Word} (h : ∀ t ∈ trees, RowLexes (words t)) :
    RowLexes (trees.flatMap words) := by
  intro w hw
  obtain ⟨t, ht, hw⟩ := List.mem_flatMap.1 hw
  exact h t ht w hw

/-- a whole expression, from its forms -/
theorem value {t : Tree} (hcall : t.IsCall .printable → RowLexes t.words)
    (hoperand : t.IsOperand .printable → RowLexes t.words) (hform : t.IsValue .printable) : RowLexes t.valueWords := by
  refine grouped ?_ _
  rcases hform with hident | hcalled | harithmetic
  · cases t with
    | ident x => exact name hident nil
    | _ => cases hident
  · exact hcall hcalled
  · exact hoperand harithmetic

end RowLexes

mutual

theorem lexes_operand : (t : Tree) → t.IsOperand .printable → RowLexes t.words
  | .number n, _ => .cons (Word.lexes_number n) .nil
  | .name _, hform => .name hform .nil
  | .callOperand t, hform => lexes_call t hform
  | .positive t, hform => .sign rfl ((lexes_operand t hform).grouped _)
  | .negative t, hform => .sign rfl ((lexes_operand t hform).grouped _)
  | .binary _ l r, hform =>
    ((lexes_operand l hform.2.1).grouped _).append (.cons hform.1.lexes ((lexes_operand r hform.2.2).grouped _))
  | .ident _, hform | .call .., hform | .ret _, hform | .declare .., hform | .assign .., hform | .addAssign .., hform
  | .define .., hform | .program _, hform => hform.elim

theorem lexes_call : (t : Tree) → t.IsCall .printable → RowLexes t.words
  | .call _ arguments, hform =>
    .name hform.1 (.sign rfl ((lexes_arguments arguments hform.2).append (.sign rfl .nil)))
  | .number _, hform | .name _, hform | .ident _, hform | .positive _, hform | .negative _, hform | .binary .., hform
  | .callOperand _, hform | .ret _, hform | .declare .., hform | .assign .., hform | .addAssign .., hform
  | .define .., hform | .program _, hform => hform.elim

theorem lexes_arguments : (trees : List Tree) → Tree.AreValues .printable trees → RowLexes (Tree.argumentWords trees)
  | [], _ => .nil
  | [t], hforms => .value (lexes_call t) (lexes_operand t) hforms.1
  | t :: u :: rest, hforms =>
    (RowLexes.value (lexes_call t) (lexes_operand t) hforms.1).append (.sign rfl (lexes_arguments (u :: rest) hforms.2))

end

theorem lexes_plainWords {t : Tree} (hform : t.IsPlain .printable) : RowLexes t.plainWords := by
  have hvalue : ∀ {v : Tree}, v.IsValue .printable → RowLexes (v.valueWords ++ [.sign .semicolon]) :=
    fun {v} hv => (RowLexes.value (lexes_call v) (lexes_operand v) hv).append (.sign rfl .nil)
  cases t with
  | ret v => exact .sign rfl (hvalue hform)
  | declare x type v =>
    obtain ⟨hx, htype, hv⟩ := hform
    exact .sign rfl (.name hx (.name htype (.sign rfl (hvalue hv))))
  | assign x v => exact .name hform.1 (.sign rfl (hvalue hform.2))
  | addAssign x v => exact .name hform.1 (.sign rfl (.sign rfl (hvalue hform.2)))
  | call f arguments => exact (lexes_call _ hform).append (.sign rfl .nil)
  | _ => cases hform

theorem lexes_parameterWords {parameters : List Parameter} (hnames : ∀ p ∈ parameters, Atoms.printable.name p.name)
    (htypes : ∀ p ∈ parameters, p.type = TypeWord.int) : RowLexes (parameterWords parameters) := by
  have htype : ∀ p ∈ parameters, (Word.name p.type).Lexes := fun p hp => TypeWord.lexes (.inl (htypes p hp))
  fun_induction parameterWords parameters with
  | case1 => exact .nil
  | case2 p => exact .name (hnames p List.mem_cons_self) (.cons (htype p List.mem_cons_self) .nil)
  | case3 p q rest ih =>
    obtain ⟨hname, hnames⟩ := List.forall_mem_cons.1 hnames
    have hrest := ih hnames (List.forall_mem_cons.1 htypes).2 (List.forall_mem_cons.1 htype).2
    exact .name hname (.cons (htype p List.mem_cons_self) (.sign rfl hrest))

theorem lexes_returnWords {returns : Name} (h : returns = TypeWord.int ∨ returns = TypeWord.void) (shown : Bool) :
    RowLexes (returnWords shown returns) := by
  unfold returnWords
  split_ifs
  · exact .nil
  · exact .cons (TypeWord.lexes h) .nil

theorem lexes_statementWords {functions : FunctionTable} {t : Tree} (hform : t.IsStatement .printable)
    (hrules : StatementRules functions t) (shown : Name → Bool) : RowLexes (t.statementWords shown) := by
  rcases hform.define_or_plain shown with ⟨f, parameters, returns, body, rfl⟩ | ⟨hplain, -, hwords, -⟩
  · obtain ⟨hf, hnames, hbody⟩ := hform
    have hdefinition := hrules.definition _ _ _ _ rfl
    have hblock : RowLexes (body.flatMap Tree.plainWords) := .flatMap fun t ht => lexes_plainWords (hbody t ht)
    refine .sign rfl (.name hf (.sign rfl ((lexes_parameterWords hnames hdefinition.parameterTypes).append ?_)))
    refine .sign rfl ((lexes_returnWords hdefinition.returnType _).append ?_)
    exact .sign rfl (hblock.append (.sign rfl .nil))
  · rw [hwords]
    exact lexes_plainWords hplain

theorem lexes_programWords {functions : FunctionTable} {trees : List Tree}
    (hforms : ∀ t ∈ trees, t.IsStatement .printable) (hrules : ProgramRules functions trees) (shown : Name → Bool) :
    RowLexes (programWords shown trees) := by
  induction trees generalizing functions with
  | nil => exact .nil
  | cons t rest ih =>
    obtain ⟨hform, hforms⟩ := List.forall_mem_cons.1 hforms
    exact (lexes_statementWords hform hrules.1 shown).append (ih hforms hrules.2)

end StackLang
