/-
Expressions as a stratified grammar.

Sums are made of products, products of powers and powers of signed operands; on each stratum an operator has a phrase of
its own stratum on the left and one of the next stratum on the right, so that operators group to the left, `**`
included, and a sign binds more tightly than all of them. The rules also ask what reading asks of names and numbers:
every function called is in the table, every one called as an operand returns an integer, and no number is overlong.

These strata are the levels of `Grammar` together with its rules (`expression_iff`). So reading an expression follows
them exactly: what is read derives from them and stops in front of no operator, and what derives from them is read, if
neither an operator nor a parenthesis follows it (`expression_reads_strata`).
-/
import StackLang.Proofs.Source.ExpressionSound

namespace StackLang

namespace Strata

section

variable (functions : FunctionTable)

mutual

/-- sums and differences of products -/
inductive Sum : List Token → Tree → Prop
  | add {ls rs : List Token} {op : Token} {l r : Tree} :
      Sum ls l → op.kind = .plus → Product rs r → Sum (ls ++ op :: rs) (.binary .add l r)
  | sub {ls rs : List Token} {op : Token} {l r : Tree} :
      Sum ls l → op.kind = .minus → Product rs r → Sum (ls ++ op :: rs) (.binary .sub l r)
  | product {ts : List Token} {t : Tree} : Product ts t → Sum ts t

/-- products and quotients of powers -/
inductive Product : List Token → Tree → Prop
  | mul {ls rs : List Token} {op : Token} {l r : Tree} :
      Product ls l → op.kind = .star → Power rs r → Product (ls ++ op :: rs) (.binary .mul l r)
  | div {ls rs : List Token} {op : Token} {l r : Tree} :
      Product ls l → op.kind = .slash → Power rs r → Product (ls ++ op :: rs) (.binary .div l r)
  | power {ts : List Token} {t : Tree} : Power ts t → Product ts t

/-- powers of signed operands -/
inductive Power : List Token → Tree → Prop
  | pow {ls rs : List Token} {op : Token} {l r : Tree} :
      Power ls l → op.kind = .power → Signed rs r → Power (ls ++ op :: rs) (.binary .pow l r)
  | signed {ts : List Token} {t : Tree} : Signed ts t → Power ts t

/-- operands with their signs -/
inductive Signed : List Token → Tree → Prop
  | positive {sign : Token} {ts : List Token} {t : Tree} :
      sign.kind = .plus → Signed ts t → Signed (sign :: ts) (.positive t)
  | negative {sign : Token} {ts : List Token} {t : Tree} :
      sign.kind = .minus → Signed ts t → Signed (sign :: ts) (.negative t)
  | number {x : Token} {s : String} :
      x.kind = .number → x.text = some s → s.toList.length ≤ 4300 → Signed [x] (.number (decimal s))
  | name {x : Token} : x.kind = .name → Signed [x] (.name x.name)
  | call {ts : List Token} {f : Name} {arguments : List Tree} {s : Signature} :
      Call ts (.call f arguments) → functions.find? f = some s → s.returns = TypeWord.int →
      Signed ts (.callOperand (.call f arguments))
  | group {o c : Token} {ts : List Token} {t : Tree} :
      o.kind = .openParen → Sum ts t → c.kind = .closeParen → Signed (o :: (ts ++ [c])) t

/-- calls of functions of the table -/
inductive Call : List Token → Tree → Prop
  | empty {f o c : Token} :
      f.kind = .name → f.name ∈ functions.names → o.kind = .openParen → c.kind = .closeParen →
      Call [f, o, c] (.call f.name [])
  | filled {f o c : Token} {ts : List Token} {trees : List Tree} :
      f.kind = .name → f.name ∈ functions.names → o.kind = .openParen → Arguments ts trees → c.kind = .closeParen →
      Call (f :: o :: (ts ++ [c])) (.call f.name trees)

/-- one or more expressions with commas between them -/
inductive Arguments : List Token → List Tree → Prop
  | one {ts : List Token} {t : Tree} : Expression ts t → Arguments ts [t]
  | more {ts rest : List Token} {t : Tree} {trees : List Tree} {comma : Token} :
      Expression ts t → comma.kind = .comma → Arguments rest trees → Arguments (ts ++ comma :: rest) (t :: trees)

/-- whole expressions: a name by itself and a call by itself have trees of their own -/
inductive Expression : List Token → Tree → Prop
  | ident {x : Token} : x.kind = .name → Expression [x] (.ident x.name)
  | call {ts : List Token} {t : Tree} : Call ts t → Expression ts t
  | sum {ts : List Token} {t : Tree} :
      Sum ts t → (t.isLeaf = true → ts.head?.map Token.kind = some .openParen) → Expression ts t

end

end

/-- the signs that stand between operands -/
def operators : List TokenKind :=
  [.plus, .minus, .star, .slash, .power]

theorem mem_operators_iff {kind : TokenKind} : kind ∈ operators ↔ kind.precedence ≠ 0 := by
  cases kind <;> simp [operators, TokenKind.precedence]

/-! ## Strata are levels -/

/-- a row of tokens that derives the tree, with all functions known and no overlong number -/
structure Derived (functions : FunctionTable) (phrase : List Token → Tree → Prop) (ts : List Token) (t : Tree) : Prop where
  derives : phrase ts t
  calls : CallsKnown functions t
  short : ∀ x ∈ ts, x.Short

variable {functions : FunctionTable}

namespace Derived

open Grammar (Arithmetic)
open Parse (short_of_kind)

theorem binary {level : Nat} {ls rs : List Token} {op : Token} {kind : TokenKind} {o : BinaryOp} {l r : Tree}
    (hl : Derived functions (Arithmetic level) ls l) (hop : op.kind = kind)
    (hr : Derived functions (Arithmetic (level + 1)) rs r) (ho : kind.operator? = some o)
    (hlevel : kind.precedence = level) : Derived functions (Arithmetic level) (ls ++ op :: rs) (.binary o l r) := by
  subst hop
  refine ⟨.binary ho hlevel hl.derives hr.derives, CallsKnown.binary_iff.2 ⟨hl.calls, hr.calls⟩, ?_⟩
  refine List.forall_mem_append.2 ⟨hl.short, List.forall_mem_cons.2 ⟨short_of_kind rfl ?_, hr.short⟩⟩
  rintro hnumber
  rw [hnumber] at ho
  cases ho

theorem lift {level : Nat} {ts : List Token} {t : Tree} (h : Derived functions (Arithmetic (level + 1)) ts t) :
    Derived functions (Arithmetic level) ts t :=
  ⟨.lift h.derives, h.calls, h.short⟩

end Derived

open Parse (short_of_kind)

mutual

theorem Sum.derived {ts : List Token} {t : Tree} :
    Sum functions ts t → Derived functions (Grammar.Arithmetic 1) ts t
  | .add hl hop hr => hl.derived.binary hop hr.derived rfl rfl
  | .sub hl hop hr => hl.derived.binary hop hr.derived rfl rfl
  | .product h => h.derived.lift

theorem Product.derived {ts : List Token} {t : Tree} :
    Product functions ts t → Derived functions (Grammar.Arithmetic 2) ts t
  | .mul hl hop hr => hl.derived.binary hop hr.derived rfl rfl
  | .div hl hop hr => hl.derived.binary hop hr.derived rfl rfl
  | .power h => h.derived.lift

theorem Power.derived {ts : List Token} {t : Tree} :
    Power functions ts t → Derived functions (Grammar.Arithmetic 3) ts t
  | .pow hl hop hr => hl.derived.binary hop hr.derived rfl rfl
  | .signed h => h.derived.lift

theorem Signed.derived {ts : List Token} {t : Tree} :
    Signed functions ts t → Derived functions (Grammar.Arithmetic 4) ts t
  | .positive hsign h =>
    ⟨.positive hsign h.derived.derives, h.derived.calls.same rfl rfl,
      List.forall_mem_cons.2 ⟨short_of_kind hsign (by decide), h.derived.short⟩⟩
  | .negative hsign h =>
    ⟨.negative hsign h.derived.derives, h.derived.calls.same rfl rfl,
      List.forall_mem_cons.2 ⟨short_of_kind hsign (by decide), h.derived.short⟩⟩
  | .number hkind hs hlength => by
    refine ⟨.number hkind hs, .of_no_calls rfl rfl, List.forall_mem_singleton.2 ?_⟩
    intro s' _ hs'
    obtain rfl := Option.some.inj (hs.symm.trans hs')
    exact hlength
  | .name hkind =>
    ⟨.name hkind, .of_no_calls rfl rfl, List.forall_mem_singleton.2 (short_of_kind hkind (by decide))⟩
  | .call h hfind hreturns =>
    ⟨.call h.derived.derives, CallsKnown.callOperand_iff.2 ⟨⟨_, hfind, hreturns⟩, h.derived.calls⟩, h.derived.short⟩
  | .group ho h hc => by
    refine ⟨.group ho h.derived.derives hc, h.derived.calls, ?_⟩
    refine List.forall_mem_cons.2 ⟨short_of_kind ho (by decide), List.forall_mem_append.2 ⟨h.derived.short, ?_⟩⟩
    exact List.forall_mem_singleton.2 (short_of_kind hc (by decide))

theorem Call.derived {ts : List Token} {t : Tree} : Call functions ts t → Derived functions Grammar.Call ts t
  | .empty hf hknown ho hc => by
    refine ⟨.empty hf ho hc, CallsKnown.call_iff.2 ⟨hknown, by simp⟩, ?_⟩
    simp [short_of_kind hf, short_of_kind ho, short_of_kind hc]
  | .filled hf hknown ho h hc => by
    obtain ⟨hderives, hcalls, hshort⟩ := h.derived
    refine ⟨.filled hf ho hderives hc, CallsKnown.call_iff.2 ⟨hknown, hcalls⟩, ?_⟩
    refine List.forall_mem_cons.2 ⟨short_of_kind hf (by decide), List.forall_mem_cons.2 ⟨short_of_kind ho (by decide), ?_⟩⟩
    exact List.forall_mem_append.2 ⟨hshort, List.forall_mem_singleton.2 (short_of_kind hc (by decide))⟩

theorem Arguments.derived {ts : List Token} {trees : List Tree} : Arguments functions ts trees →
    Grammar.Arguments ts trees ∧ (∀ t ∈ trees, CallsKnown functions t) ∧ ∀ x ∈ ts, x.Short
  | .one h => ⟨.one h.derived.derives, List.forall_mem_singleton.2 h.derived.calls, h.derived.short⟩
  | .more h hcomma hmore => by
    obtain ⟨hderives, hcalls, hshort⟩ := hmore.derived
    refine ⟨.more h.derived.derives hcomma hderives, List.forall_mem_cons.2 ⟨h.derived.calls, hcalls⟩, ?_⟩
    exact List.forall_mem_append.2 ⟨h.derived.short,
      List.forall_mem_cons.2 ⟨short_of_kind hcomma (by decide), hshort⟩⟩

theorem Expression.derived {ts : List Token} {t : Tree} :
    Expression functions ts t → Derived functions Grammar.Expression ts t
  | .ident hkind =>
    ⟨.ident hkind, .of_no_calls rfl rfl, List.forall_mem_singleton.2 (short_of_kind hkind (by decide))⟩
  | .call h => ⟨.call h.derived.derives, h.derived.calls, h.derived.short⟩
  | .sum h hleaf => ⟨.arithmetic h.derived.derives hleaf, h.derived.calls, h.derived.short⟩

end

/-- the stratum of a level -/
def AtLevel (functions : FunctionTable) : Nat → List Token → Tree → Prop
  | 0 | 1 => Sum functions
  | 2 => Product functions
  | 3 => Power functions
  | 4 => Signed functions
  | _ => fun _ _ => False

theorem AtLevel.lift {level : Nat} {ts : List Token} {t : Tree} (h : AtLevel functions (level + 1) ts t) :
    AtLevel functions level ts t := by
  rcases level with _ | _ | _ | _ | level
  · exact h
  · exact .product h
  · exact .power h
  · exact .signed h
  · cases h

theorem AtLevel.binary {level : Nat} {ls rs : List Token} {op : Token} {o : BinaryOp} {l r : Tree}
    (ho : op.kind.operator? = some o) (hlevel : op.kind.precedence = level) (hl : AtLevel functions level ls l)
    (hr : AtLevel functions (level + 1) rs r) : AtLevel functions level (ls ++ op :: rs) (.binary o l r) := by
  subst hlevel
  cases hop : op.kind with
  | plus =>
    rw [hop] at ho hl hr
    cases ho
    exact .add hl hop hr
  | minus =>
    rw [hop] at ho hl hr
    cases ho
    exact .sub hl hop hr
  | star =>
    rw [hop] at ho hl hr
    cases ho
    exact .mul hl hop hr
  | slash =>
    rw [hop] at ho hl hr
    cases ho
    exact .div hl hop hr
  | power =>
    rw [hop] at ho hl hr
    cases ho
    exact .pow hl hop hr
  | _ =>
    rw [hop] at ho
    cases ho

mutual

theorem atLevel_of_arithmetic {level : Nat} {ts : List Token} {t : Tree} :
    Grammar.Arithmetic level ts t → CallsKnown functions t → (∀ x ∈ ts, x.Short) → AtLevel functions level ts t
  | .binary ho hlevel hl hr, hcalls, hshort => by
    obtain ⟨hcl, hcr⟩ := CallsKnown.binary_iff.1 hcalls
    obtain ⟨hsl, hsr⟩ := List.forall_mem_append.1 hshort
    exact AtLevel.binary ho hlevel (atLevel_of_arithmetic hl hcl hsl)
      (atLevel_of_arithmetic hr hcr (List.forall_mem_cons.1 hsr).2)
  | .lift h, hcalls, hshort => (atLevel_of_arithmetic h hcalls hshort).lift
  | .number hkind hs, _, hshort => .number hkind hs (hshort _ (by simp) _ hkind hs)
  | .name hkind, _, _ => .name hkind
  | .call h, hcalls, hshort => by
    have hcall := call_of_grammar h hcalls.of_callOperand hshort
    obtain ⟨f, _, _, trees, _, _, _, rfl⟩ := h.head
    obtain ⟨⟨s, hfind, hreturns⟩, -⟩ := CallsKnown.callOperand_iff.1 hcalls
    exact .call hcall hfind hreturns
  | .group ho h hc, hcalls, hshort =>
    .group ho (atLevel_of_arithmetic h hcalls (List.forall_mem_append.1 (List.forall_mem_cons.1 hshort).2).1) hc
  | .positive hkind h, hcalls, hshort =>
    .positive hkind (atLevel_of_arithmetic h (hcalls.same rfl rfl) (List.forall_mem_cons.1 hshort).2)
  | .negative hkind h, hcalls, hshort =>
    .negative hkind (atLevel_of_arithmetic h (hcalls.same rfl rfl) (List.forall_mem_cons.1 hshort).2)

theorem call_of_grammar {ts : List Token} {t : Tree} :
    Grammar.Call ts t → CallsKnown functions t → (∀ x ∈ ts, x.Short) → Call functions ts t
  | .empty hf ho hc, hcalls, _ => .empty hf (CallsKnown.call_iff.1 hcalls).1 ho hc
  | .filled hf ho h hc, hcalls, hshort => by
    obtain ⟨hknown, htrees⟩ := CallsKnown.call_iff.1 hcalls
    have hinner := (List.forall_mem_append.1 (List.forall_mem_cons.1 (List.forall_mem_cons.1 hshort).2).2).1
    exact .filled hf hknown ho (arguments_of_grammar h htrees hinner) hc

theorem arguments_of_grammar {ts : List Token} {trees : List Tree} :
    Grammar.Arguments ts trees → (∀ t ∈ trees, CallsKnown functions t) → (∀ x ∈ ts, x.Short) →
      Arguments functions ts trees
  | .one h, hcalls, hshort => .one (expression_of_grammar h (hcalls _ (by simp)) hshort)
  | .more h hcomma hmore, hcalls, hshort => by
    obtain ⟨hcall, hcalls⟩ := List.forall_mem_cons.1 hcalls
    obtain ⟨hfirst, hrest⟩ := List.forall_mem_append.1 hshort
    exact .more (expression_of_grammar h hcall hfirst) hcomma
      (arguments_of_grammar hmore hcalls (List.forall_mem_cons.1 hrest).2)

theorem expression_of_grammar {ts : List Token} {t : Tree} :
    Grammar.Expression ts t → CallsKnown functions t → (∀ x ∈ ts, x.Short) → Expression functions ts t
  | .ident hkind, _, _ => .ident hkind
  | .call h, hcalls, hshort => .call (call_of_grammar h hcalls hshort)
  | .arithmetic h hleaf, hcalls, hshort => .sum (atLevel_of_arithmetic h hcalls hshort) hleaf

end

/-- the strata are the levels of the grammar with its rules -/
theorem expression_iff {ts : List Token} {t : Tree} :
    Expression functions ts t ↔ Grammar.Expression ts t ∧ CallsKnown functions t ∧ ∀ x ∈ ts, x.Short := by
  constructor
  · intro h
    exact ⟨h.derived.derives, h.derived.calls, h.derived.short⟩
  · rintro ⟨hderives, hcalls, hshort⟩
    exact expression_of_grammar hderives hcalls hshort

end Strata

/-! ## Reading follows the strata -/

/-- both states, told by what is passed, the tokens taken and what is still ahead -/
theorem Took.states {ts : List Token} {s s' : ParseState} (h : Took ts s s') :
    s = ⟨⟨s.cursor.passed, ts ++ s'.cursor.ahead⟩, s.functions, s.finished, s.declared⟩ ∧
      s' = ⟨⟨ts.reverse ++ s.cursor.passed, s'.cursor.ahead⟩, s.functions, s.finished, s.declared⟩ := by
  rw [← h.ahead, ← h.passed, ← h.functions, ← h.finished, ← h.declared]
  exact ⟨by rw [h.functions, h.finished, h.declared], rfl⟩

namespace Parse

variable {depth : Nat} {s s' : ParseState} {t : Tree}

theorem bounded_zero_iff :
    Bounded 0 s ↔ ((s.cursor.ahead.head?.map Token.kind).bind TokenKind.operator?) = none := by
  unfold Bounded
  cases s.cursor.ahead.head? with
  | none => simp
  | some x => simp [operator?_eq_none_iff]

/-- an expression is read up to where no operator follows -/
theorem expression_bounded (hs : Lexed s) (h : expression depth s = .ok t s') : Bounded 0 s' := by
  cases depth with
  | zero => cases h
  | succ depth =>
    have harithmetic : ∀ s, Lexed s → arithmetic depth 0 s = .ok t s' → Bounded 0 s' :=
      fun s hs h => ((soundAt depth).arithmetic 0 s t s' (Nat.zero_le _) hs h).2
    rw [expression] at h
    obtain ⟨x, s₁, hcurrent, h⟩ := Step.bind_eq_ok.1 h
    obtain ⟨hhead, rfl⟩ := current_eq_ok.1 hcurrent
    rw [Step.bind_of_ok (kindAt_one _)] at h
    split_ifs at h with hstarts hname
    · exact harithmetic s hs h
    · rw [Step.bind_of_ok (kindAt_back _)] at h
      split_ifs at h
      · obtain ⟨call, s₂, -, h⟩ := callExpression_eq_ok h
        split_ifs at h with hoperator
        · exact harithmetic { s₂ with cursor := s.cursor } hs h
        · cases h
          exact bounded_zero_iff.2 (Option.not_isSome_iff_eq_none.1 hoperator)
      · -- a name in front of an operator would have started arithmetic
        obtain ⟨y, s₂, hadvance, h⟩ := Step.bind_eq_ok.1 h
        obtain ⟨rfl, rfl⟩ := Step.pure_eq_ok.1 h
        obtain ⟨rfl, htook⟩ := took_of_advance hhead hadvance
        simp only [startsArithmetic, hname, htook.ahead, List.singleton_append, List.tail_cons] at hstarts
        exact bounded_zero_iff.2 (Option.not_isSome_iff_eq_none.1 hstarts)
    · cases h

/-- **Expressions are read by the strata.** From any place in the tokens of a source text that is not right after the
word `fun`, unless phrases nest too deeply: what is read derives its tree from the strata, and no operator follows it; and
a row of tokens that derives a tree, with neither an operator nor a parenthesis after it, is read as that tree to its
end. -/
theorem expression_reads_strata {source : String} {tokens : List Token} (htokens : tokenize source = .ok tokens)
    {s : ParseState} (hrow : s.cursor.tokens = tokens) (hplace : NotAfterFun s.cursor.passed) {depth : Nat}
    (hdeep : ∀ left, expression depth s ≠ .error .tooDeep left) :
    (∀ t s', expression depth s = .ok t s' → ∃ ts, Took ts s s' ∧ Strata.Expression s.functions ts t ∧
      ∀ x ∈ s'.cursor.ahead.head?, x.kind ∉ Strata.operators) ∧
    ∀ ts t s', Took ts s s' → Strata.Expression s.functions ts t →
      (∀ x ∈ s'.cursor.ahead.head?, x.kind ∉ Strata.operators ∧ x.kind ≠ .openParen) → expression depth s = .ok t s' := by
  have hlexed : Lexed s := fun x hx => lexed_of_tokenize htokens x (hrow ▸ List.mem_append_right _ hx)
  constructor
  · intro t s' h
    obtain ⟨ts, htook, hderives, hcalls, hshort⟩ := (soundAt depth).expression s t s' hlexed h
    refine ⟨ts, htook, Strata.expression_iff.2 ⟨hderives, hcalls, hshort⟩, fun x hx => ?_⟩
    have hnone := expression_bounded hlexed h x hx
    rw [Strata.mem_operators_iff, not_not]
    exact Nat.le_zero.1 hnone
  · intro ts t s' htook hstrata hnext
    obtain ⟨hderives, hcalls, hshort⟩ := Strata.expression_iff.1 hstrata
    have hfit : Fit ts := fun x hx => ⟨hlexed x (htook.mem hx), hshort x hx⟩
    obtain ⟨levels, haccepted⟩ := expression_complete hderives hcalls hfit
    have hends : Ends 0 s'.cursor.ahead := by
      intro x hx
      obtain ⟨hoperator, hparen⟩ := hnext x hx
      rw [Strata.mem_operators_iff, not_not] at hoperator
      exact ⟨hparen, hoperator.le⟩
    obtain ⟨hstart, hstop⟩ := htook.states
    have hread := haccepted depth s'.cursor.ahead s.cursor.passed s.finished s.declared hends hplace
    rw [← hstart, ← hstop] at hread
    exact hread.yields.ok hdeep

/-- a call, a power and a sign -/
def signedText : String :=
  "f()-2**-y"

def signedTokens : List Token :=
  [⟨.name, some "f", ⟨1, 1⟩⟩, ⟨.openParen, none, ⟨1, 2⟩⟩, ⟨.closeParen, none, ⟨1, 3⟩⟩, ⟨.minus, none, ⟨1, 4⟩⟩,
   ⟨.number, some "2", ⟨1, 5⟩⟩, ⟨.power, none, ⟨1, 6⟩⟩, ⟨.minus, none, ⟨1, 8⟩⟩, ⟨.name, some "y", ⟨1, 9⟩⟩]

def signedTree : Tree :=
  .binary .sub (.callOperand (.call "f" [])) (.binary .pow (.number 2) (.negative (.name "y")))

/-- the text is read with a function `f` that returns an integer, so it derives its tree -/
theorem signedTokens_derive :
    let functions : FunctionTable := ⟨[("f", ⟨TypeWord.int, []⟩)]⟩
    tokenize signedText = .ok signedTokens ∧ NotAfterFun [] ∧
      expression 10 ⟨.ofTokens signedTokens, functions, [], none⟩ =
        .ok signedTree ⟨⟨signedTokens.reverse, []⟩, functions, [], none⟩ ∧
      Strata.Expression functions signedTokens signedTree := by
  intro functions
  have htokens : tokenize signedText = .ok signedTokens := by decide +kernel
  have hplace : NotAfterFun [] := by simp [NotAfterFun]
  have hread : expression 10 ⟨.ofTokens signedTokens, functions, [], none⟩ =
      .ok signedTree ⟨⟨signedTokens.reverse, []⟩, functions, [], none⟩ := Step.eq_ok_iff.2 (by decide +kernel)
  have hdeep : ∀ left, expression 10 ⟨.ofTokens signedTokens, functions, [], none⟩ ≠ .error .tooDeep left := by
    intro left hleft
    cases hread.symm.trans hleft
  obtain ⟨ts, htook, hderives, -⟩ := (expression_reads_strata htokens rfl hplace hdeep).1 _ _ hread
  obtain rfl : ts = signedTokens := by simpa [Cursor.ofTokens] using htook.ahead.symm
  exact ⟨htokens, hplace, hread, hderives⟩

end Parse

end StackLang
