/-
The grammar of source texts, as relations between rows of tokens and trees.

Arithmetic has four levels: sums (1), products (2), powers (3) and operands (4). On each level operators group to the
left; a phrase of one level is also one of the level below. A variable or a call that is a whole expression is not
arithmetic: it becomes `ident` or `call`, unless it stands in parentheses. Relations say nothing about functions and
variables being known; `Rules` does.
-/
import StackLang.Proofs.Source.Lexed

namespace StackLang

/-- variables and calls as operands: the trees of arithmetic that have another form as whole expressions -/
def Tree.isLeaf : Tree → Bool
  | .name _ | .callOperand _ => true
  | _ => false

namespace Grammar

/-! ## Expressions -/

mutual

/-- arithmetic of a level: 1 for sums, 2 for products, 3 for powers, 4 for operands -/
inductive Arithmetic : Nat → List Token → Tree → Prop
  /-- the left side is of the operator's level, the right side of the next one -/
  | binary {level : Nat} {op : Token} {o : BinaryOp} {ls rs : List Token} {l r : Tree} :
      op.kind.operator? = some o → op.kind.precedence = level → Arithmetic level ls l →
      Arithmetic (level + 1) rs r → Arithmetic level (ls ++ op :: rs) (.binary o l r)
  | lift {level : Nat} {ts : List Token} {t : Tree} : Arithmetic (level + 1) ts t → Arithmetic level ts t
  | number {x : Token} {s : String} : x.kind = .number → x.text = some s → Arithmetic 4 [x] (.number (decimal s))
  | name {x : Token} : x.kind = .name → Arithmetic 4 [x] (.name x.name)
  | call {ts : List Token} {t : Tree} : Call ts t → Arithmetic 4 ts (.callOperand t)
  | group {o c : Token} {ts : List Token} {t : Tree} :
      o.kind = .openParen → Arithmetic 1 ts t → c.kind = .closeParen → Arithmetic 4 (o :: (ts ++ [c])) t
  | positive {p : Token} {ts : List Token} {t : Tree} :
      p.kind = .plus → Arithmetic 4 ts t → Arithmetic 4 (p :: ts) (.positive t)
  | negative {m : Token} {ts : List Token} {t : Tree} :
      m.kind = .minus → Arithmetic 4 ts t → Arithmetic 4 (m :: ts) (.negative t)

inductive Call : List Token → Tree → Prop
  | empty {f o c : Token} :
      f.kind = .name → o.kind = .openParen → c.kind = .closeParen → Call [f, o, c] (.call f.name [])
  | filled {f o c : Token} {ts : List Token} {trees : List Tree} :
      f.kind = .name → o.kind = .openParen → Arguments ts trees → c.kind = .closeParen →
      Call (f :: o :: (ts ++ [c])) (.call f.name trees)

/-- one or more arguments with commas between them -/
inductive Arguments : List Token → List Tree → Prop
  | one {ts : List Token} {t : Tree} : Expression ts t → Arguments ts [t]
  | more {ts rest : List Token} {t : Tree} {trees : List Tree} {comma : Token} :
      Expression ts t → comma.kind = .comma → Arguments rest trees → Arguments (ts ++ comma :: rest) (t :: trees)

inductive Expression : List Token → Tree → Prop
  | ident {x : Token} : x.kind = .name → Expression [x] (.ident x.name)
  | call {ts : List Token} {t : Tree} : Call ts t → Expression ts t
  /-- a variable or a call by itself is arithmetic only in parentheses -/
  | arithmetic {ts : List Token} {t : Tree} :
      Arithmetic 1 ts t → (t.isLeaf = true → ts.head?.map Token.kind = some .openParen) → Expression ts t

end

/-! ## First tokens -/

/-- a call starts with a name and a parenthesis -/
theorem Call.head {ts : List Token} {t : Tree} (h : Call ts t) :
    ∃ f o rest trees, ts = f :: o :: rest ∧ f.kind = .name ∧ o.kind = .openParen ∧ t = .call f.name trees := by
  cases h with
  | empty hf ho _ => exact ⟨_, _, _, _, rfl, hf, ho, rfl⟩
  | filled hf ho _ _ => exact ⟨_, _, _, _, rfl, hf, ho, rfl⟩

theorem Arithmetic.head {level : Nat} {ts : List Token} {t : Tree} :
    Arithmetic level ts t → ∃ x rest, ts = x :: rest ∧ x.kind ≠ .closeParen
  | .binary _ _ hl _ => by
    obtain ⟨x, rest, rfl, hx⟩ := hl.head
    exact ⟨x, _, rfl, hx⟩
  | .lift h => h.head
  | .number hx _ => ⟨_, _, rfl, by simp [hx]⟩
  | .name hx => ⟨_, _, rfl, by simp [hx]⟩
  | .call h => by
    obtain ⟨f, o, rest, _, rfl, hf, _, _⟩ := h.head
    exact ⟨f, _, rfl, by simp [hf]⟩
  | .group ho _ _ => ⟨_, _, rfl, by simp [ho]⟩
  | .positive hx _ => ⟨_, _, rfl, by simp [hx]⟩
  | .negative hx _ => ⟨_, _, rfl, by simp [hx]⟩

theorem Expression.head {ts : List Token} {t : Tree} (h : Expression ts t) :
    ∃ x rest, ts = x :: rest ∧ x.kind ≠ .closeParen := by
  cases h with
  | ident hx => exact ⟨_, _, rfl, by simp [hx]⟩
  | call h =>
    obtain ⟨f, o, rest, _, rfl, hf, _, _⟩ := h.head
    exact ⟨f, _, rfl, by simp [hf]⟩
  | arithmetic h _ => exact h.head

/-- arguments do not start with the parenthesis that ends them, and each takes a token -/
theorem Arguments.head {ts : List Token} {trees : List Tree} :
    Arguments ts trees → ∃ x rest, ts = x :: rest ∧ x.kind ≠ .closeParen ∧ trees.length ≤ ts.length
  | .one h => by
    obtain ⟨x, rest, rfl, hx⟩ := h.head
    exact ⟨x, rest, rfl, hx, by simp⟩
  | .more h _ h' => by
    obtain ⟨x, rest, rfl, hx⟩ := h.head
    obtain ⟨_, _, _, _, hlen⟩ := h'.head
    exact ⟨x, _, rfl, hx, by simp; omega⟩

/-! ## Statements -/

/-- statements that are no definitions -/
inductive Plain : List Token → Tree → Prop
  | ret {r s : Token} {ts : List Token} {v : Tree} :
      r.kind = .returnWord → Expression ts v → s.kind = .semicolon → Plain (r :: (ts ++ [s])) (.ret v)
  | declare {l x type e s : Token} {ts : List Token} {v : Tree} :
      l.kind = .letWord → x.kind = .name → type.kind = .name → e.kind = .equals → Expression ts v →
      s.kind = .semicolon → Plain (l :: x :: type :: e :: (ts ++ [s])) (.declare x.name type.name v)
  | assign {x e s : Token} {ts : List Token} {v : Tree} :
      x.kind = .name → e.kind = .equals → Expression ts v → s.kind = .semicolon →
      Plain (x :: e :: (ts ++ [s])) (.assign x.name v)
  | addAssign {x p e s : Token} {ts : List Token} {v : Tree} :
      x.kind = .name → p.kind = .plus → e.kind = .equals → Expression ts v → s.kind = .semicolon →
      Plain (x :: p :: e :: (ts ++ [s])) (.addAssign x.name v)
  | call {s : Token} {ts : List Token} {t : Tree} : Call ts t → s.kind = .semicolon → Plain (ts ++ [s]) t

/-- one or more parameters with commas between them -/
inductive Parameters : List Token → List Parameter → Prop
  | one {x type : Token} : x.kind = .name → type.kind = .name → Parameters [x, type] [⟨x.name, type.name⟩]
  | more {x type comma : Token} {ts : List Token} {ps : List Parameter} :
      x.kind = .name → type.kind = .name → comma.kind = .comma → Parameters ts ps →
      Parameters (x :: type :: comma :: ts) (⟨x.name, type.name⟩ :: ps)

/-- the type in front of a body; absent it is `void` -/
inductive ReturnType : List Token → Name → Prop
  | absent : ReturnType [] TypeWord.void
  | given {type : Token} : type.kind = .name → ReturnType [type] type.name

/-- phrases one after the other -/
inductive Row (item : List Token → Tree → Prop) : List Token → List Tree → Prop
  | nil : Row item [] []
  | cons {ts rest : List Token} {t : Tree} {trees : List Tree} :
      item ts t → Row item rest trees → Row item (ts ++ rest) (t :: trees)

/-- statements outside of functions -/
inductive Statement : List Token → Tree → Prop
  | plain {ts : List Token} {t : Tree} : Plain ts t → Statement ts t
  | define {f n o c b e : Token} {ps rs body : List Token} {parameters : List Parameter} {returns : Name}
      {trees : List Tree} :
      f.kind = .funWord → n.kind = .name → o.kind = .openParen →
      (ps = [] ∧ parameters = [] ∨ Parameters ps parameters) → c.kind = .closeParen → ReturnType rs returns →
      b.kind = .openBrace → Row Plain body trees → e.kind = .closeBrace →
      Statement (f :: n :: o :: (ps ++ c :: (rs ++ b :: (body ++ [e])))) (.define n.name parameters returns trees)

def Program : List Token → List Tree → Prop :=
  Row Statement

end Grammar

end StackLang
