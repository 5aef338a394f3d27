/-
Every derivable expression is read.

A row of tokens that derives an expression, in front of a token that cannot go on with it, is read to exactly the tree
of the derivation, if there are levels enough to nest (`expression_complete`). The argument follows the derivation, with
one lemma for each form that counts the levels it takes. For arithmetic it says what precedence climbing does with a
phrase of a level in front of any rest: reading the phrase and going on is going on with its tree as the left side
(`Climbs`). A phrase that starts with a call is read twice, so a derivation also keeps what it starts with (`Lead`).
-/
import StackLang.Proofs.Source.Grammar
import StackLang.Proofs.Source.Places
import StackLang.Proofs.Source.Rules

namespace StackLang

namespace Parse

open Grammar

/-! ## Where a phrase ends -/

/-- the rest does not go on with arithmetic of a level: no operator above it and no parenthesis comes next -/
def Ends (level : Nat) (rest : List Token) : Prop :=
  ∀ x ∈ rest.head?, x.kind ≠ .openParen ∧ x.kind.precedence ≤ level

theorem Ends.mono {k j : Nat} {rest : List Token} (h : Ends k rest) (hkj : k ≤ j) : Ends j rest := by
  intro x hx
  exact ⟨(h x hx).1, (h x hx).2.trans hkj⟩

theorem ends_cons {level : Nat} {x : Token} {rest : List Token} (hne : x.kind ≠ .openParen)
    (hx : x.kind.precedence ≤ level) : Ends level (x :: rest) := by
  intro y hy
  cases hy
  exact ⟨hne, hx⟩

theorem operator?_eq_none_iff {kind : TokenKind} : kind.operator? = none ↔ kind.precedence = 0 := by
  cases kind <;> simp [TokenKind.operator?, TokenKind.precedence]

theorem precedence_le (kind : TokenKind) : kind.precedence ≤ 3 := by
  cases kind <;> simp [TokenKind.precedence]

theorem ne_openParen_of_operator? {kind : TokenKind} {o : BinaryOp} (h : kind.operator? = some o) :
    kind ≠ .openParen := by
  rintro rfl
  cases h

/-- after an expression no operator and no parenthesis comes next -/
theorem Ends.next {rest : List Token} (h : Ends 0 rest) :
    ((rest.head?.map Token.kind).bind TokenKind.operator?) = none ∧ rest.head?.map Token.kind ≠ some .openParen := by
  cases rest with
  | nil => exact ⟨rfl, by simp⟩
  | cons x rest =>
    obtain ⟨hne, hx⟩ := h x rfl
    exact ⟨operator?_eq_none_iff.2 (Nat.le_zero.1 hx), fun h => hne (Option.some.inj h)⟩

/-! ## The operator loop -/

section Operators

variable {right : Nat → Parse Tree} {threshold : Nat} {left : Tree} {passed rest : List Token}
  {functions : FunctionTable} {finished : List Tree} {declared : Option (List Name)}

/-- the loop stops where arithmetic above the threshold ends -/
theorem operators_of_ends (h : Ends threshold rest) (rounds : List Token) :
    operators right threshold left rounds ⟨⟨passed, rest⟩, functions, finished, declared⟩ =
      .ok left ⟨⟨passed, rest⟩, functions, finished, declared⟩ := by
  cases rounds with
  | nil => rfl
  | cons _ rounds =>
    rw [operators, Step.bind_of_ok (kindAt_zero _)]
    cases rest with
    | nil => rfl
    | cons x rest =>
      dsimp only [List.head?_cons, Option.map_some]
      cases x.kind.operator? with
      | none => rfl
      | some o =>
        dsimp only
        rw [if_pos (h x rfl).2]
        rfl

/-- an operator above the threshold takes its right side and becomes the new left side -/
theorem operators_cons {op : Token} {o : BinaryOp} (ho : op.kind.operator? = some o)
    (h : threshold < op.kind.precedence) (round : Token) (rounds : List Token) :
    operators right threshold left (round :: rounds) ⟨⟨passed, op :: rest⟩, functions, finished, declared⟩ =
      (right op.kind.precedence >>= fun tree => operators right threshold (.binary o left tree) rounds)
        ⟨⟨op :: passed, rest⟩, functions, finished, declared⟩ := by
  rw [operators, Step.bind_of_ok (kindAt_zero _)]
  dsimp only [List.head?_cons, Option.map_some]
  rw [ho]
  dsimp only
  rw [if_neg (Nat.not_le.2 h), Step.bind_of_ok advance_cons]

end Operators

/-! ## What a derivation does -/

/-- tokens that a source text can have, with no overlong number among them -/
def Fit (ts : List Token) : Prop :=
  ∀ x ∈ ts, x.Lexed ∧ x.Short

theorem fit_append {ts us : List Token} : Fit (ts ++ us) ↔ Fit ts ∧ Fit us :=
  List.forall_mem_append

theorem fit_cons {x : Token} {ts : List Token} : Fit (x :: ts) ↔ (x.Lexed ∧ x.Short) ∧ Fit ts :=
  List.forall_mem_cons

theorem integer?_of_fit {x : Token} {s : String} (hkind : x.kind = .number) (hs : x.text = some s)
    (hx : x.Lexed ∧ x.Short) : Text.integer? s = some (decimal s : Int) := by
  obtain ⟨s', hs', hvalue⟩ := hx.1.integer? hkind
  obtain rfl : s = s' := Option.some.inj (hs.symm.trans hs')
  rw [hvalue, if_pos (hx.2 s hkind hs)]

/-- with these levels the step reads the row `ts` in front of `rest` and gives `t`, whatever came before -/
def Accepts (functions : FunctionTable) (levels : Nat) (step : Nat → Parse Tree) (ts rest : List Token) (t : Tree) :
    Prop :=
  ∀ depth passed finished declared, YieldsIf (levels ≤ depth) (step depth)
    ⟨⟨passed, ts ++ rest⟩, functions, finished, declared⟩ t
    ⟨⟨ts.reverse ++ passed, rest⟩, functions, finished, declared⟩

theorem Accepts.mono {functions : FunctionTable} {levels more : Nat} {step : Nat → Parse Tree} {ts rest : List Token}
    {t : Tree} (h : Accepts functions levels step ts rest t) (hle : levels ≤ more) :
    Accepts functions more step ts rest t :=
  fun depth passed finished declared => (h depth passed finished declared).mono hle.trans

/-- reading a phrase and going on is going on with its tree on the left, in as many rounds as tokens are left; the
levels are those of the operands -/
def Climbs (functions : FunctionTable) (levels level : Nat) (ts : List Token) (t : Tree) : Prop :=
  ∀ threshold depth rest passed finished declared, threshold < level → Ends level rest →
    (¬ levels ≤ depth ∧
      ∃ e, arithmetic (depth + 1) threshold ⟨⟨passed, ts ++ rest⟩, functions, finished, declared⟩ = .error .tooDeep e) ∨
    ∃ rounds : List Token, rest.length ≤ rounds.length ∧
      arithmetic (depth + 1) threshold ⟨⟨passed, ts ++ rest⟩, functions, finished, declared⟩ =
        operators (arithmetic depth) threshold t rounds ⟨⟨ts.reverse ++ passed, rest⟩, functions, finished, declared⟩

/-- what follows the first operand of a phrase: nothing, and the phrase is that operand, or an operator -/
def Tail (tail : List Token) (t : Tree) : Prop :=
  tail = [] ∧ t.isLeaf = true ∨ ∃ op rest o, tail = op :: rest ∧ op.kind.operator? = some o

/-- reading a call with expressions as its arguments -/
def callAt (depth : Nat) : Parse Tree :=
  functionCall (expression depth)

/-- what a phrase of arithmetic starts with -/
inductive Lead (functions : FunctionTable) (levels : Nat) (ts : List Token) (t : Tree) : Prop
  | sign {x : Token} {tail : List Token} :
      ts = x :: tail → (∀ following, startsArithmetic x.kind following = true) → Lead functions levels ts t
  | name {x : Token} {tail : List Token} : ts = x :: tail → x.kind = .name → Tail tail t → Lead functions levels ts t
  | call {f o : Token} {cs tail : List Token} {c : Tree} :
      ts = f :: o :: (cs ++ tail) → f.kind = .name → o.kind = .openParen → Tail tail t →
      (∀ rest, Accepts functions levels callAt (f :: o :: cs) rest c) → Lead functions levels ts t

/-- what is known of a phrase of arithmetic of a level -/
structure Climbable (functions : FunctionTable) (levels level : Nat) (ts : List Token) (t : Tree) : Prop where
  operand : 4 ≤ level → ∀ rest, Ends 4 rest → Accepts functions levels operand ts rest t
  climbs : Climbs functions levels level ts t
  lead : Lead functions levels ts t

/-! ## Operands -/

variable {functions : FunctionTable} {levels : Nat} {ts rest : List Token} {t : Tree} {x : Token}

theorem accepts_number {s : String} {n : Int} (hkind : x.kind = .number) (hs : x.text = some s)
    (hvalue : Text.integer? s = some n) : Accepts functions 1 operand [x] rest (.number n) := by
  intro depth passed finished declared
  cases depth with
  | zero => exact YieldsIf.tooDeep (by omega)
  | succ depth =>
    rw [operand]
    refine YieldsIf.after current_cons ?_
    simp only [hkind, numberLiteral]
    refine YieldsIf.after advance_cons ?_
    simp only [hs, hvalue]
    exact YieldsIf.of_ok rfl

theorem accepts_name (hkind : x.kind = .name) (hrest : Ends 4 rest) :
    Accepts functions 1 operand [x] rest (.name x.name) := by
  intro depth passed finished declared
  cases depth with
  | zero => exact YieldsIf.tooDeep (by omega)
  | succ depth =>
    have hnext : rest.head?.map Token.kind ≠ some .openParen := by
      cases rest with
      | nil => simp
      | cons y rest => exact fun h => (hrest y rfl).1 (Option.some.inj h)
    rw [operand, List.singleton_append]
    refine YieldsIf.after current_cons ?_
    simp only [hkind]
    refine YieldsIf.after (kindAt_one _) ?_
    dsimp only [List.tail_cons]
    rw [if_neg hnext]
    exact YieldsIf.after advance_cons (YieldsIf.of_ok rfl)

/-- a known call whose function returns an integer -/
theorem accepts_callOperand {f o : Token} {cs : List Token} {trees : List Tree} (hf : f.kind = .name)
    (ho : o.kind = .openParen) (hint : ∃ s, functions.find? f.name = some s ∧ s.returns = TypeWord.int)
    (hcall : Accepts functions levels callAt (f :: o :: cs) rest (.call f.name trees)) :
    Accepts functions (levels + 1) operand (f :: o :: cs) rest (.callOperand (.call f.name trees)) := by
  intro depth passed finished declared
  cases depth with
  | zero => exact YieldsIf.tooDeep (by omega)
  | succ depth =>
    obtain ⟨s, hs, hreturns⟩ := hint
    have hlookup : functions.lookup f.name = .ok s := by
      unfold FunctionTable.lookup
      rw [hs]
    rw [operand]
    refine YieldsIf.after current_cons ?_
    simp only [hf]
    refine YieldsIf.after (kindAt_one _) ?_
    rw [if_pos (by simp [ho]), callOperand]
    refine YieldsIf.after current_cons ((hcall depth passed finished declared).inside.bind ?_)
    refine YieldsIf.after (Step.get_apply _) ?_
    refine YieldsIf.after (checkAt_eq_ok.2 ⟨hlookup, rfl⟩) ?_
    rw [if_pos hreturns]
    exact YieldsIf.of_ok rfl

/-- arithmetic that climbs is read to its end -/
theorem Climbs.accepts {level threshold : Nat} (h : Climbs functions levels level ts t) (hlt : threshold < level)
    (hrest : Ends threshold rest) : Accepts functions (levels + 1) (fun depth => arithmetic depth threshold) ts rest t := by
  intro depth passed finished declared
  cases depth with
  | zero => exact YieldsIf.tooDeep (by omega)
  | succ depth =>
    rcases h threshold depth rest passed finished declared hlt (hrest.mono hlt.le) with
      ⟨hfew, hdeep⟩ | ⟨rounds, -, hrun⟩
    · exact .inr ⟨by omega, hdeep⟩
    · exact YieldsIf.of_ok (hrun.trans (operators_of_ends hrest rounds))

theorem accepts_group {o c : Token} (ho : o.kind = .openParen) (hc : c.kind = .closeParen)
    (h : Climbs functions levels 1 ts t) : Accepts functions (levels + 2) operand (o :: (ts ++ [c])) rest t := by
  intro depth passed finished declared
  cases depth with
  | zero => exact YieldsIf.tooDeep (by omega)
  | succ depth =>
    have hends : Ends 0 (c :: rest) := ends_cons (by simp [hc]) (by simp [hc, TokenKind.precedence])
    have hinner := (h.accepts Nat.one_pos hends depth (o :: passed) finished declared).inside
    rw [operand, show o :: (ts ++ [c]) ++ rest = o :: (ts ++ c :: rest) by simp]
    refine YieldsIf.after current_cons ?_
    simp only [ho]
    refine YieldsIf.after advance_cons ?_
    refine hinner.bind (YieldsIf.after (expect_cons hc) (YieldsIf.of_ok ?_))
    simp

/-- an operand behind a sign, which tells what is made of it -/
theorem accepts_signed {sign : Tree → Tree}
    (hsign : x.kind = .plus ∧ sign = .positive ∨ x.kind = .minus ∧ sign = .negative)
    (h : Accepts functions levels operand ts rest t) :
    Accepts functions (levels + 1) operand (x :: ts) rest (sign t) := by
  intro depth passed finished declared
  cases depth with
  | zero => exact YieldsIf.tooDeep (by omega)
  | succ depth =>
    rw [operand]
    refine YieldsIf.after current_cons ?_
    have hread : YieldsIf (levels + 1 ≤ depth + 1) (advance >>= fun _ => operand depth >>= fun t => pure (sign t))
        ⟨⟨passed, x :: (ts ++ rest)⟩, functions, finished, declared⟩ (sign t)
        ⟨⟨(x :: ts).reverse ++ passed, rest⟩, functions, finished, declared⟩ := by
      refine YieldsIf.after advance_cons ((h depth (x :: passed) finished declared).inside.bind (YieldsIf.of_ok ?_))
      simp
    rcases hsign with ⟨hkind, rfl⟩ | ⟨hkind, rfl⟩
    · simp only [hkind]
      exact hread
    · simp only [hkind]
      exact hread

/-! ## Climbing -/

/-- an operand is the first left side -/
theorem climbs_of_operand (h : ∀ rest, Ends 4 rest → Accepts functions levels operand ts rest t) :
    Climbs functions levels 4 ts t := by
  intro threshold depth rest passed finished declared _ hrest
  rw [arithmetic]
  rcases h rest hrest depth passed finished declared with hok | ⟨hfew, e, hdeep⟩
  · right
    refine ⟨rest, le_rfl, ?_⟩
    rw [Step.bind_of_ok hok, Step.bind_of_ok (ahead_apply _)]
  · exact .inl ⟨hfew, e, Step.bind_of_error hdeep _⟩

/-- a phrase, an operator of its level and a phrase of the next level -/
theorem Climbs.binary {level n m : Nat} {op : Token} {o : BinaryOp} {ls rs : List Token} {l r : Tree}
    (ho : op.kind.operator? = some o) (hlevel : op.kind.precedence = level) (hl : Climbs functions n level ls l)
    (hr : Climbs functions m (level + 1) rs r) :
    Climbs functions (max n (m + 1)) level (ls ++ op :: rs) (.binary o l r) := by
  intro threshold depth rest passed finished declared hlt hrest
  rw [show ls ++ op :: rs ++ rest = ls ++ op :: (rs ++ rest) by simp]
  have hop : Ends level (op :: (rs ++ rest)) := ends_cons (ne_openParen_of_operator? ho) hlevel.le
  rcases hl threshold depth _ passed finished declared hlt hop with ⟨hfew, hdeep⟩ | ⟨rounds, hlen, hrun⟩
  · exact .inl ⟨by omega, hdeep⟩
  · cases rounds with
    | nil => simp at hlen
    | cons round rounds =>
      rw [hrun, operators_cons ho (hlevel ▸ hlt), hlevel]
      have hright := hr.accepts (Nat.lt_succ_self level) hrest depth (op :: (ls.reverse ++ passed)) finished declared
      rcases hright with hok | ⟨hfew, e, hdeep⟩
      · right
        refine ⟨rounds, ?_, ?_⟩
        · simp only [List.length_cons, List.length_append] at hlen
          omega
        · rw [Step.bind_of_ok hok]
          simp
      · exact .inl ⟨by omega, e, Step.bind_of_error hdeep _⟩

theorem Climbs.lift {level : Nat} (h : Climbs functions levels (level + 1) ts t) : Climbs functions levels level ts t := by
  intro threshold depth rest passed finished declared hlt hrest
  exact h threshold depth rest passed finished declared (Nat.lt_succ_of_lt hlt) (hrest.mono (Nat.le_succ _))

theorem Tail.binary {tail rs : List Token} {op : Token} {o : BinaryOp} {l r : Tree} (ho : op.kind.operator? = some o)
    (h : Tail tail l) : Tail (tail ++ op :: rs) (.binary o l r) := by
  right
  rcases h with ⟨rfl, _⟩ | ⟨op', rest, o', rfl, ho'⟩
  · exact ⟨op, rs, o, rfl, ho⟩
  · exact ⟨op', rest ++ op :: rs, o', rfl, ho'⟩

/-- a phrase starts as its left side starts -/
theorem Lead.binary {more : Nat} {op : Token} {o : BinaryOp} {ls rs : List Token} {l r : Tree}
    (ho : op.kind.operator? = some o) (h : Lead functions levels ls l) (hle : levels ≤ more) :
    Lead functions more (ls ++ op :: rs) (.binary o l r) := by
  cases h with
  | sign hls hstarts => exact .sign (by rw [hls]; rfl) hstarts
  | name hls hkind htail => exact .name (by rw [hls]; rfl) hkind (htail.binary ho)
  | @call f paren cs tail c hls hf hparen htail hcall =>
    have htail' : Tail (tail ++ op :: rs) (.binary o l r) := htail.binary ho
    exact .call (by simp [hls]) hf hparen htail' fun rest => (hcall rest).mono hle

theorem climbable_of_operand (h : ∀ rest, Ends 4 rest → Accepts functions levels operand ts rest t)
    (hlead : Lead functions levels ts t) : Climbable functions levels 4 ts t :=
  ⟨fun _ => h, climbs_of_operand h, hlead⟩

/-! ## Calls and whole expressions -/

/-- an expression in front of what may follow it -/
def ExpressionAccepted (functions : FunctionTable) (levels : Nat) (ts : List Token) (t : Tree) : Prop :=
  ∀ depth rest passed finished declared, Ends 0 rest → NotAfterFun passed →
    YieldsIf (levels ≤ depth) (expression depth) ⟨⟨passed, ts ++ rest⟩, functions, finished, declared⟩ t
      ⟨⟨ts.reverse ++ passed, rest⟩, functions, finished, declared⟩

/-- arguments up to the closing parenthesis, in at least as many rounds -/
def ArgumentsAccepted (functions : FunctionTable) (levels : Nat) (ts : List Token) (trees : List Tree) : Prop :=
  ∀ (depth : Nat) (c : Token) (rest passed rounds : List Token) (found finished : List Tree) declared,
    c.kind = .closeParen → NotAfterFun passed → trees.length ≤ rounds.length →
    YieldsIf (levels ≤ depth) (arguments (expression depth) found rounds)
      ⟨⟨passed, ts ++ c :: rest⟩, functions, finished, declared⟩ (found.reverse ++ trees)
      ⟨⟨c :: (ts.reverse ++ passed), rest⟩, functions, finished, declared⟩

theorem ExpressionAccepted.one (h : ExpressionAccepted functions levels ts t) :
    ArgumentsAccepted functions levels ts [t] := by
  intro depth c rest passed rounds found finished declared hc hpassed hrounds
  cases rounds with
  | nil => simp at hrounds
  | cons round rounds =>
    have hends : Ends 0 (c :: rest) := ends_cons (by simp [hc]) (by simp [hc, TokenKind.precedence])
    rw [arguments]
    refine (h depth (c :: rest) passed finished declared hends hpassed).bind (YieldsIf.after advance_cons ?_)
    rw [if_pos hc]
    exact YieldsIf.of_ok (by simp)

theorem ExpressionAccepted.more {n m : Nat} {us : List Token} {trees : List Tree} {comma : Token}
    (h : ExpressionAccepted functions n ts t) (hcomma : comma.kind = .comma)
    (h' : ArgumentsAccepted functions m us trees) :
    ArgumentsAccepted functions (max n m) (ts ++ comma :: us) (t :: trees) := by
  intro depth c rest passed rounds found finished declared hc hpassed hrounds
  cases rounds with
  | nil => simp at hrounds
  | cons round rounds =>
    have hends : Ends 0 (comma :: (us ++ c :: rest)) :=
      ends_cons (by simp [hcomma]) (by simp [hcomma, TokenKind.precedence])
    have hafter : NotAfterFun (comma :: (ts.reverse ++ passed)) := notAfterFun_cons (by simp [hcomma])
    have hmore := h' depth c rest _ rounds (t :: found) finished declared hc hafter (by simpa using hrounds)
    rw [arguments, show ts ++ comma :: us ++ c :: rest = ts ++ comma :: (us ++ c :: rest) by simp]
    refine ((h depth _ passed finished declared hends hpassed).mono (le_trans (le_max_left n m))).bind ?_
    refine YieldsIf.after advance_cons ?_
    rw [if_neg (by simp [hcomma]), if_pos hcomma]
    simpa using hmore.mono (le_trans (le_max_right n m))

theorem accepts_emptyCall {f o c : Token} (hf : f.kind = .name) (ho : o.kind = .openParen) (hc : c.kind = .closeParen)
    (hknown : f.name ∈ functions.names) : Accepts functions 0 callAt [f, o, c] rest (.call f.name []) := by
  intro depth passed finished declared
  obtain ⟨s, hs⟩ := functions.lookup_of_mem hknown
  rw [callAt, functionCall]
  refine YieldsIf.after (expect_cons hf) (YieldsIf.after (Step.get_apply _) ?_)
  refine YieldsIf.after (checkAt_eq_ok.2 ⟨hs, rfl⟩) (YieldsIf.after (expect_cons ho) (YieldsIf.after current_cons ?_))
  rw [if_pos hc]
  exact YieldsIf.after advance_cons (YieldsIf.of_ok rfl)

/-- the arguments do not start with the parenthesis that ends them, and each takes a token -/
theorem accepts_filledCall {f o c : Token} {trees : List Tree} (hf : f.kind = .name) (ho : o.kind = .openParen)
    (hhead : ∀ x ∈ ts.head?, x.kind ≠ .closeParen) (hne : ts ≠ []) (hlen : trees.length ≤ ts.length)
    (hc : c.kind = .closeParen) (hknown : f.name ∈ functions.names) (h : ArgumentsAccepted functions levels ts trees) :
    Accepts functions levels callAt (f :: o :: (ts ++ [c])) rest (.call f.name trees) := by
  intro depth passed finished declared
  obtain ⟨s, hs⟩ := functions.lookup_of_mem hknown
  obtain ⟨x, tail, rfl⟩ := List.exists_cons_of_ne_nil hne
  have hafter : NotAfterFun (o :: f :: passed) := notAfterFun_cons (by simp [ho])
  have hrounds : trees.length ≤ (x :: tail ++ c :: rest).length := by
    rw [List.length_append]
    exact hlen.trans (Nat.le_add_right _ _)
  have harguments := h depth c rest _ _ [] finished declared hc hafter hrounds
  rw [callAt, functionCall, show f :: o :: (x :: tail ++ [c]) ++ rest = f :: o :: (x :: tail ++ c :: rest) by simp]
  refine YieldsIf.after (expect_cons hf) (YieldsIf.after (Step.get_apply _) ?_)
  refine YieldsIf.after (checkAt_eq_ok.2 ⟨hs, rfl⟩) (YieldsIf.after (expect_cons ho) ?_)
  refine YieldsIf.after current_cons ?_
  rw [if_neg (hhead x rfl)]
  refine YieldsIf.after (ahead_apply _) (harguments.bind (YieldsIf.of_ok ?_))
  simp

theorem accepted_ident (hkind : x.kind = .name) : ExpressionAccepted functions 1 [x] (.ident x.name) := by
  intro depth rest passed finished declared hends _
  cases depth with
  | zero => exact YieldsIf.tooDeep (by omega)
  | succ depth =>
    obtain ⟨hoperator, hparen⟩ := hends.next
    rw [expression, List.singleton_append]
    refine YieldsIf.after current_cons (YieldsIf.after (kindAt_one _) ?_)
    dsimp only [List.tail_cons]
    rw [if_neg (by simp [startsArithmetic, hkind, hoperator]), if_pos hkind]
    refine YieldsIf.after (kindAt_back _) ?_
    rw [if_neg (fun h => hparen h.1)]
    exact YieldsIf.after advance_cons (YieldsIf.of_ok rfl)

section

variable {enough : Prop} {depth : Nat} {s s₁ s' : ParseState} {call : Tree} {again : Parse Tree}

theorem callExpression_kept (h : YieldsIf enough (functionCall (expression depth)) s call s₁)
    (hnext : (s₁.cursor.ahead.head?.map Token.kind).bind TokenKind.operator? = none) :
    YieldsIf enough (callExpression (expression depth) again) s call s₁ := by
  rcases h with hok | ⟨hfew, e, hdeep⟩
  · refine .of_ok ?_
    rw [callExpression_of_call hok, hnext]
    rfl
  · exact .inr ⟨hfew, e, callExpression_of_error hdeep⟩

theorem callExpression_reread (h : YieldsIf enough (functionCall (expression depth)) s call s₁)
    (hnext : ((s₁.cursor.ahead.head?.map Token.kind).bind TokenKind.operator?).isSome)
    (hagain : YieldsIf enough again { s₁ with cursor := s.cursor } t s') :
    YieldsIf enough (callExpression (expression depth) again) s t s' := by
  rcases h with hok | ⟨hfew, e, hdeep⟩
  · rw [YieldsIf, callExpression_of_call hok, if_pos hnext]
    exact hagain
  · exact .inr ⟨hfew, e, callExpression_of_error hdeep⟩

end

/-- a call in front of no operator is the whole expression -/
theorem accepted_call {f o : Token} {cs : List Token} (hf : f.kind = .name) (ho : o.kind = .openParen)
    (h : ∀ rest, Accepts functions levels callAt (f :: o :: cs) rest t) :
    ExpressionAccepted functions (levels + 1) (f :: o :: cs) t := by
  intro depth rest passed finished declared hends hpassed
  cases depth with
  | zero => exact YieldsIf.tooDeep (by omega)
  | succ depth =>
    obtain ⟨hoperator, _⟩ := hends.next
    rw [expression]
    refine YieldsIf.after current_cons (YieldsIf.after (kindAt_one _) ?_)
    rw [if_neg (by simp [startsArithmetic, hf, ho, TokenKind.operator?]), if_pos hf]
    refine YieldsIf.after (kindAt_back _) ?_
    rw [if_pos ⟨by simp [ho], hpassed⟩]
    exact callExpression_kept (h rest depth passed finished declared).inside hoperator

/-- arithmetic that is no lone variable or call is recognised by what it starts with -/
theorem accepted_arithmetic (h : Climbable functions levels 1 ts t)
    (hleaf : t.isLeaf = true → ts.head?.map Token.kind = some .openParen) :
    ExpressionAccepted functions (levels + 2) ts t := by
  intro depth rest passed finished declared hends hpassed
  cases depth with
  | zero => exact YieldsIf.tooDeep (by omega)
  | succ depth =>
    have hrun := (h.climbs.accepts Nat.one_pos hends depth passed finished declared).inside
    rw [expression]
    cases h.lead with
    | sign hts hstarts =>
      subst hts
      refine YieldsIf.after current_cons (YieldsIf.after (kindAt_one _) ?_)
      rw [if_pos (hstarts _)]
      exact hrun
    | name hts hkind htail =>
      subst hts
      rcases htail with ⟨-, ht⟩ | ⟨op, tail, o, rfl, ho⟩
      · simp [hkind] at hleaf
        simp [hleaf] at ht
      · refine YieldsIf.after current_cons (YieldsIf.after (kindAt_one _) ?_)
        rw [if_pos (by simp [startsArithmetic, hkind, ho])]
        exact hrun
    | @call f o cs tail c hts hf ho htail hcall =>
      subst hts
      rcases htail with ⟨-, ht⟩ | ⟨op, tail, operator, rfl, hoperator⟩
      · simp [hf] at hleaf
        simp [hleaf] at ht
      · have hfirst := ((hcall (op :: (tail ++ rest))).mono (Nat.le_succ _) depth passed finished declared).inside
        rw [show f :: o :: (cs ++ op :: tail) ++ rest = f :: o :: cs ++ op :: (tail ++ rest) by simp] at hrun ⊢
        refine YieldsIf.after current_cons (YieldsIf.after (kindAt_one _) ?_)
        rw [if_neg (by simp [startsArithmetic, hf, ho, TokenKind.operator?]), if_pos hf]
        refine YieldsIf.after (kindAt_back _) ?_
        rw [if_pos ⟨by simp [ho], hpassed⟩]
        exact callExpression_reread hfirst (by simp [hoperator]) hrun

/-! ## Forms of arithmetic -/

theorem Climbable.binary {n m level : Nat} {op : Token} {o : BinaryOp} {ls rs : List Token} {l r : Tree}
    (ho : op.kind.operator? = some o) (hlevel : op.kind.precedence = level) (hl : Climbable functions n level ls l)
    (hr : Climbable functions m (level + 1) rs r) :
    Climbable functions (max n (m + 1)) level (ls ++ op :: rs) (.binary o l r) := by
  refine ⟨fun hfour => ?_, hl.climbs.binary ho hlevel hr.climbs, hl.lead.binary ho (le_max_left _ _)⟩
  rw [← hlevel] at hfour
  exact absurd hfour (Nat.not_le.2 (Nat.lt_succ_of_le (precedence_le _)))

theorem Climbable.lift {level : Nat} (h : Climbable functions levels (level + 1) ts t) :
    Climbable functions levels level ts t :=
  ⟨fun hfour => h.operand (Nat.le_succ_of_le hfour), h.climbs.lift, h.lead⟩

theorem climbable_number {s : String} {n : Int} (hkind : x.kind = .number) (hs : x.text = some s)
    (hvalue : Text.integer? s = some n) : Climbable functions 1 4 [x] (.number n) :=
  climbable_of_operand (fun _ _ => accepts_number hkind hs hvalue) (.sign rfl (by simp [hkind, startsArithmetic]))

theorem climbable_name (hkind : x.kind = .name) : Climbable functions 1 4 [x] (.name x.name) :=
  climbable_of_operand (fun _ hends => accepts_name hkind hends) (.name rfl hkind (.inl ⟨rfl, rfl⟩))

theorem climbable_callOperand {f o : Token} {cs : List Token} {trees : List Tree} (hf : f.kind = .name)
    (ho : o.kind = .openParen) (hint : ∃ s, functions.find? f.name = some s ∧ s.returns = TypeWord.int)
    (hcall : ∀ rest, Accepts functions levels callAt (f :: o :: cs) rest (.call f.name trees)) :
    Climbable functions (levels + 1) 4 (f :: o :: cs) (.callOperand (.call f.name trees)) :=
  climbable_of_operand (fun rest _ => accepts_callOperand hf ho hint (hcall rest))
    (.call (by simp) hf ho (.inl ⟨rfl, rfl⟩) fun rest => (hcall rest).mono (Nat.le_succ _))

theorem Climbable.group {o c : Token} (ho : o.kind = .openParen) (hc : c.kind = .closeParen)
    (h : Climbable functions levels 1 ts t) : Climbable functions (levels + 2) 4 (o :: (ts ++ [c])) t :=
  climbable_of_operand (fun _ _ => accepts_group ho hc h.climbs) (.sign rfl (by simp [ho, startsArithmetic]))

theorem Climbable.signed {sign : Tree → Tree}
    (hsign : x.kind = .plus ∧ sign = .positive ∨ x.kind = .minus ∧ sign = .negative)
    (h : Climbable functions levels 4 ts t) : Climbable functions (levels + 1) 4 (x :: ts) (sign t) := by
  have hstarts : ∀ following, startsArithmetic x.kind following = true := by
    intro following
    rcases hsign with ⟨hkind, -⟩ | ⟨hkind, -⟩
    · simp [hkind, startsArithmetic]
    · simp [hkind, startsArithmetic]
  exact climbable_of_operand (fun rest hends => accepts_signed hsign (h.operand le_rfl rest hends)) (.sign rfl hstarts)

/-! ## Derivations are read -/

mutual

theorem arithmetic_complete {level : Nat} {ts : List Token} {t : Tree} :
    Arithmetic level ts t → CallsKnown functions t → Fit ts → ∃ levels, Climbable functions levels level ts t
  | .binary ho hlevel hl hr, hcalls, hts => by
    obtain ⟨hcl, hcr⟩ := CallsKnown.binary_iff.1 hcalls
    obtain ⟨htl, htr⟩ := fit_append.1 hts
    obtain ⟨n, left⟩ := arithmetic_complete hl hcl htl
    obtain ⟨m, right⟩ := arithmetic_complete hr hcr (fit_cons.1 htr).2
    exact ⟨_, left.binary ho hlevel right⟩
  | .lift h, hcalls, hts => by
    obtain ⟨n, inner⟩ := arithmetic_complete h hcalls hts
    exact ⟨n, inner.lift⟩
  | .number hkind hs, _, hts => ⟨1, climbable_number hkind hs (integer?_of_fit hkind hs (hts _ (by simp)))⟩
  | .name hkind, _, _ => ⟨1, climbable_name hkind⟩
  | .call h, hcalls, hts => by
    obtain ⟨n, hcall⟩ := call_complete h hcalls.of_callOperand hts
    obtain ⟨f, o, cs, trees, rfl, hf, ho, rfl⟩ := h.head
    exact ⟨n + 1, climbable_callOperand hf ho (CallsKnown.callOperand_iff.1 hcalls).1 hcall⟩
  | .group ho h hc, hcalls, hts => by
    obtain ⟨n, inner⟩ := arithmetic_complete h hcalls (fit_append.1 (fit_cons.1 hts).2).1
    exact ⟨n + 2, inner.group ho hc⟩
  | .positive hkind h, hcalls, hts => by
    obtain ⟨n, inner⟩ := arithmetic_complete h (hcalls.same rfl rfl) (fit_cons.1 hts).2
    exact ⟨n + 1, inner.signed (.inl ⟨hkind, rfl⟩)⟩
  | .negative hkind h, hcalls, hts => by
    obtain ⟨n, inner⟩ := arithmetic_complete h (hcalls.same rfl rfl) (fit_cons.1 hts).2
    exact ⟨n + 1, inner.signed (.inr ⟨hkind, rfl⟩)⟩

theorem call_complete {ts : List Token} {t : Tree} :
    Call ts t → CallsKnown functions t → Fit ts → ∃ levels, ∀ rest, Accepts functions levels callAt ts rest t
  | .empty hf ho hc, hcalls, _ => ⟨0, fun _ => accepts_emptyCall hf ho hc (CallsKnown.call_iff.1 hcalls).1⟩
  | .filled hf ho h hc, hcalls, hts => by
    obtain ⟨hknown, htrees⟩ := CallsKnown.call_iff.1 hcalls
    have hfit := (fit_append.1 (fit_cons.1 (fit_cons.1 hts).2).2).1
    obtain ⟨n, harguments⟩ := arguments_complete h htrees hfit
    obtain ⟨x, tail, rfl, hx, hlen⟩ := h.head
    refine ⟨n, fun _ => accepts_filledCall hf ho ?_ (List.cons_ne_nil x tail) hlen hc hknown harguments⟩
    rintro _ ⟨⟩
    exact hx

theorem arguments_complete {ts : List Token} {trees : List Tree} :
    Arguments ts trees → (∀ t ∈ trees, CallsKnown functions t) → Fit ts →
      ∃ levels, ArgumentsAccepted functions levels ts trees
  | .one h, hcalls, hts => by
    obtain ⟨n, first⟩ := expression_complete h (hcalls _ (by simp)) hts
    exact ⟨n, first.one⟩
  | .more h hcomma h', hcalls, hts => by
    obtain ⟨hfirst, hmore⟩ := fit_append.1 hts
    obtain ⟨n, first⟩ := expression_complete h (hcalls _ (by simp)) hfirst
    obtain ⟨m, more⟩ := arguments_complete h' (fun t ht => hcalls t (by simp [ht])) (fit_cons.1 hmore).2
    exact ⟨max n m, first.more hcomma more⟩

/-- an expression that keeps the rules is read to its tree -/
theorem expression_complete {ts : List Token} {t : Tree} :
    Expression ts t → CallsKnown functions t → Fit ts → ∃ levels, ExpressionAccepted functions levels ts t
  | .ident hkind, _, _ => ⟨1, accepted_ident hkind⟩
  | .call h, hcalls, hts => by
    obtain ⟨n, hcall⟩ := call_complete h hcalls hts
    obtain ⟨f, o, cs, trees, rfl, hf, ho, rfl⟩ := h.head
    exact ⟨n + 1, accepted_call hf ho hcall⟩
  | .arithmetic h hleaf, hcalls, hts => by
    obtain ⟨n, inner⟩ := arithmetic_complete h hcalls hts
    exact ⟨n + 2, accepted_arithmetic inner hleaf⟩

end

end Parse

end StackLang
