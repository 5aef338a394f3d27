/-
Reading without going back.

A call in front of an operator is read twice: once as a call, to find the operator behind it, and from its first token
again as the first operand of arithmetic. A reader that never goes back (`Direct`) keeps the call instead: it asks that
the function returns an integer and goes on with the operators from behind the call (`goOn`).

The second reading goes through other steps than the first and has fewer levels, in which the calls among the arguments
are themselves read twice. Levels make no difference but for nesting too deeply (`functionCall_yields`), so the second
reading meets the call that the first one found, and both readers end alike (`direct_within`).
-/
import StackLang.Proofs.Source.Nesting
import StackLang.Proofs.Source.Recorded
import StackLang.Proofs.Source.Strata

namespace StackLang.Parse

open Step (UpTo)

/-- behind a call that started with `name`: the call is the first operand, and the operators behind it follow -/
def goOn (right : Nat → Parse Tree) (name : Token) (call : Tree) : Parse Tree := do
  let signature ← checkAt name ((← get).functions.lookup name.name)
  if signature.returns = TypeWord.int then
    operators right 0 (.callOperand call) (← ahead)
  else
    violate (.callNotInt name.name signature.returns) name

namespace Direct

/-- an expression of any form, read without going back; its parts are read by given readers -/
def expressionAbove (r : Readers) : Parse Tree := do
  let token ← current
  let following ← kindAt 1
  if startsArithmetic token.kind following then
    r.arithmetic 0
  else if token.kind = .name then
    if following = some .openParen ∧ (← kindAt (-1)) ≠ some .funWord then
      let call ← functionCall r.expression
      if ((← kindAt 0).bind TokenKind.operator?).isSome then
        goOn r.arithmetic token call
      else
        return call
    else
      let _ ← advance
      return .ident token.name
  else
    expected .expression token

/-- readers that never go back, with a number of levels -/
def readersAt : Nat → Readers
  | 0 => ⟨throw .tooDeep, fun _ => throw .tooDeep, throw .tooDeep⟩
  | depth + 1 => ⟨expressionAbove (readersAt depth), (readersAt depth).arithmeticAbove, (readersAt depth).operandAbove⟩

/-- an expression, read without going back anywhere in it -/
def expression (depth : Nat) : Parse Tree :=
  (readersAt depth).expression

end Direct

/-! ## The second reading of a call -/

variable {levels depth : Nat} {s s₁ : ParseState} {f o : Token} {rest : List Token} {c : Tree}

/-- a call that is read with some levels is read as the same call with any, unless they are too few -/
theorem functionCall_yields (h : functionCall (expression levels) s = .ok c s₁) (depth : Nat) :
    Yields (functionCall (expression depth)) s c s₁ := by
  rcases Nat.le_total depth levels with hle | hle
  · rw [Yields, ← h]
    exact (functionCall_within (withinAt hle).expression).ends s
  · have hkept : ∀ left, functionCall (expression levels) s ≠ .error .tooDeep left := by simp [h]
    exact .inl (((functionCall_within (withinAt hle).expression).eq hkept).trans h)

/-- a call as the first operand, and the operators behind it -/
theorem callOperand_goOn {argument : Parse Tree} (hhead : s.cursor.ahead.head? = some f)
    (h : functionCall argument s = .ok c s₁) (right : Nat → Parse Tree) :
    (callOperand argument >>= fun left => ahead >>= fun rounds => operators right 0 left rounds) s = goOn right f c s₁ := by
  have hcurrent : current s = .ok f s := current_eq_ok.2 ⟨hhead, rfl⟩
  simp only [callOperand, goOn, bind_assoc]
  rw [Step.bind_of_ok hcurrent, Step.bind_of_ok h]
  refine congrFun (bind_congr fun t => bind_congr fun signature => ?_) s₁
  split_ifs
  · rw [pure_bind]
  · rfl

theorem goOn_within {right right' : Nat → Parse Tree} (h : ∀ precedence, Within (right precedence) (right' precedence))
    (name : Token) (call : Tree) : Within (goOn right name call) (goOn right' name call) := by
  refine UpTo.behind _ fun t => UpTo.behind _ fun signature => ?_
  split
  · exact UpTo.behind _ fun rounds => operators_within h 0 rounds _
  · exact UpTo.refl _

/-- arithmetic from a call on is what follows the call, with the call as the first operand -/
theorem arithmetic_of_call (hahead : s.cursor.ahead = f :: o :: rest) (hf : f.kind = .name) (ho : o.kind = .openParen)
    (hcall : functionCall (expression levels) s = .ok c s₁) (depth : Nat) :
    arithmetic depth 0 s = goOn (arithmetic depth) f c s₁ ∨ ∃ left, arithmetic depth 0 s = .error .tooDeep left := by
  rcases depth with _ | _ | depth
  · exact .inr ⟨s, rfl⟩
  · exact .inr ⟨s, rfl⟩
  · have hhead : s.cursor.ahead.head? = some f := by rw [hahead]; rfl
    have hcurrent : current s = .ok f s := current_eq_ok.2 ⟨hhead, rfl⟩
    have hoperand : operand (depth + 1) s = callOperand (expression depth) s := by
      rw [operand, Step.bind_of_ok hcurrent]
      simp only [hf]
      rw [Step.bind_of_ok (kindAt_one _), if_pos (by simp [hahead, ho])]
    rw [arithmetic, Step.bind_eq_of_eq hoperand]
    rcases functionCall_yields hcall depth with hagain | ⟨left, hdeep⟩
    · rw [callOperand_goOn hhead hagain]
      -- the right sides have one level less than the whole
      exact (goOn_within (withinAt (Nat.le_succ (depth + 1))).arithmetic f c).ends s₁
    · have hlost : callOperand (expression depth) s = .error .tooDeep left := by
        rw [callOperand, Step.bind_of_ok hcurrent, Step.bind_of_error hdeep]
      exact .inr ⟨left, Step.bind_of_error hlost _⟩

/-! ## What reading an expression leaves alone -/

/-- all but the cursor stays, whether an expression is read or not -/
theorem expression_leaves (depth : Nat) (s : ParseState) : (Setting.of s).Kept (Step.left (expression depth s)) := by
  have hquiet := (quietAt (.of s) depth).expression s (ready_of s)
  have hleaves : Step.Ensures (expression depth) s (fun _ => (Setting.of s).Kept) (fun _ => (Setting.of s).Kept) :=
    hquiet.imp (fun _ _ ht => ht.1.toKept) fun _ _ ht => ht
  exact hleaves.left

/-! ## The reader that never goes back -/

/-- a call in front of an operator, read again by the readers below, and kept by readers that end as they do -/
theorem reread_within {r : Readers} (h : (readersAt depth).Within r) (hahead : s.cursor.ahead = f :: o :: rest)
    (hf : f.kind = .name) (ho : o.kind = .openParen) (hcall : functionCall (expression depth) s = .ok c s₁)
    (hnext : ((s₁.cursor.ahead.head?.map Token.kind).bind TokenKind.operator?).isSome) :
    callExpression (expression depth) (arithmetic depth 0) s = goOn r.arithmetic f c s₁ ∨
      ∃ left, callExpression (expression depth) (arithmetic depth 0) s = .error .tooDeep left := by
  obtain ⟨-, hkept⟩ := functionCall_calls hcall
  have hback : ({ s₁ with cursor := s.cursor } : ParseState) = s := by
    rw [hkept.functions, hkept.finished, hkept.declared]
    rfl
  rw [callExpression_of_call hcall, if_pos hnext, hback]
  rcases arithmetic_of_call hahead hf ho hcall depth with heq | hdeep
  · rw [heq]
    exact (goOn_within h.arithmetic f c).ends s₁
  · exact .inr hdeep

/-- a call, read again if an operator follows it, and a call that is kept then -/
theorem callFirst_within {r : Readers} (h : (readersAt depth).Within r) (hahead : s.cursor.ahead = f :: o :: rest)
    (hf : f.kind = .name) (ho : o.kind = .openParen) :
    let twice := callExpression (expression depth) (arithmetic depth 0)
    let once : Parse Tree := do
      let call ← functionCall r.expression
      if ((← kindAt 0).bind TokenKind.operator?).isSome then
        goOn r.arithmetic f call
      else
        return call
    twice s = once s ∨ ∃ left, twice s = .error .tooDeep left := by
  intro twice once
  rcases (functionCall_within h.expression).ends s with heq | ⟨left, hdeep⟩
  · cases hcall : functionCall (expression depth) s with
    | error fault left =>
      left
      exact (callExpression_of_error hcall).trans (Step.bind_of_error (heq.symm.trans hcall) _).symm
    | ok c s₁ =>
      unfold twice once
      rw [Step.bind_of_ok (heq.symm.trans hcall), Step.bind_of_ok (kindAt_zero _)]
      split_ifs with hnext
      · exact reread_within h hahead hf ho hcall hnext
      · rw [callExpression_of_call hcall, if_neg hnext]
        exact .inl rfl
  · exact .inr ⟨left, callExpression_of_error hdeep⟩

theorem ahead_of_kinds (hhead : s.cursor.ahead.head? = some f)
    (hnext : s.cursor.ahead.tail.head?.map Token.kind = some .openParen) :
    ∃ o rest, s.cursor.ahead = f :: o :: rest ∧ o.kind = .openParen := by
  obtain ⟨tail, htail⟩ := List.head?_eq_some_iff.1 hhead
  rw [htail, List.tail_cons] at hnext
  obtain ⟨o, ho, hkind⟩ := Option.map_eq_some_iff.1 hnext
  obtain ⟨rest, rfl⟩ := List.head?_eq_some_iff.1 ho
  exact ⟨o, rest, htail, hkind⟩

theorem expression_direct {r : Readers} (h : (readersAt depth).Within r) :
    Within (expression (depth + 1)) (Direct.expressionAbove r) := by
  intro s
  rw [expression, Direct.expressionAbove]
  cases hcurrent : current s with
  | error fault left =>
    left
    rw [Step.bind_of_error hcurrent, Step.bind_of_error hcurrent]
  | ok f s' =>
    obtain ⟨hhead, rfl⟩ := current_eq_ok.1 hcurrent
    rw [Step.bind_of_ok hcurrent, Step.bind_of_ok hcurrent, Step.bind_of_ok (kindAt_one _),
      Step.bind_of_ok (kindAt_one _)]
    split_ifs with hstarts hname
    · exact h.arithmetic 0 s
    · rw [Step.bind_of_ok (kindAt_back _), Step.bind_of_ok (kindAt_back _)]
      split_ifs with hparen
      · obtain ⟨o, rest, hahead, ho⟩ := ahead_of_kinds hhead hparen.1
        rcases callFirst_within h hahead hname ho with heq | ⟨left, hdeep⟩
        · exact .inl heq
        · exact .inr ⟨_, left, rfl, hdeep⟩
      · exact .inl rfl
    · exact .inl rfl

/-- readers that go back end as readers that do not, unless phrases nest too deeply for them -/
theorem direct_within (depth : Nat) : (readersAt depth).Within (Direct.readersAt depth) := by
  induction depth with
  | zero => exact ⟨UpTo.refl _, fun _ => UpTo.refl _, UpTo.refl _⟩
  | succ depth ih =>
    rw [readersAt_succ]
    exact ⟨expression_direct ih, ih.arithmeticAbove, ih.operandAbove⟩

/-- what an expression that starts with a call and an operator behind it is read as, by the second reading -/
theorem expression_of_call (hahead : s.cursor.ahead = f :: o :: rest) (hf : f.kind = .name) (ho : o.kind = .openParen)
    (hplace : NotAfterFun s.cursor.passed) (hcall : functionCall (expression levels) s = .ok c s₁)
    (hnext : ((s₁.cursor.ahead.head?.map Token.kind).bind TokenKind.operator?).isSome) (depth : Nat) :
    expression depth s = goOn (arithmetic depth) f c s₁ ∨ ∃ left, expression depth s = .error .tooDeep left := by
  cases depth with
  | zero => exact .inr ⟨s, rfl⟩
  | succ depth =>
    have hcurrent : current s = .ok f s := current_eq_ok.2 ⟨by rw [hahead]; rfl, rfl⟩
    rw [expression, Step.bind_of_ok hcurrent, Step.bind_of_ok (kindAt_one _),
      if_neg (by simp [startsArithmetic, hf, hahead, ho, TokenKind.operator?]), if_pos hf,
      Step.bind_of_ok (kindAt_back _), if_pos ⟨by simp [hahead, ho], hplace⟩]
    rcases functionCall_yields hcall depth with hfirst | ⟨left, hdeep⟩
    · exact reread_within (withinAt (Nat.le_succ depth)) hahead hf ho hfirst hnext
    · exact .inr ⟨left, callExpression_of_error hdeep⟩

/-- what goes on behind a call of a known function -/
theorem goOn_apply {signature : Signature} (h : s₁.functions.lookup f.name = .ok signature) (right : Nat → Parse Tree) :
    goOn right f c s₁ =
      if signature.returns = TypeWord.int then operators right 0 (.callOperand c) s₁.cursor.ahead s₁
      else .error (.semantic (.callNotInt f.name signature.returns) (some f.position)) s₁ := by
  rw [goOn, Step.bind_of_ok (Step.get_apply _), Step.bind_of_ok (checkAt_eq_ok.2 ⟨h, rfl⟩)]
  split_ifs
  · rw [Step.bind_of_ok (ahead_apply _)]
  · rfl

/-- **Reading a call again is exact.** Where a call stands that is not right after the word `fun`, and an operator
follows it, an expression is read as it is by a reader that keeps the call, unless phrases nest too deeply: a function
that returns no integer is told at its name, and else the operators behind the call follow, with the call as their first
operand. The same comes out, in result or fault and in the state left behind, of a reader that goes back nowhere, in
arguments and right sides neither. Behind the call the cursor can go back to where the call started, by as many tokens
as the call has. The table does not change, nor do the finished definitions, nor the names declared in the body that is
read; a statement of the body adds its own variable alone. -/
theorem reread_call_exact (hahead : s.cursor.ahead = f :: o :: rest) (hf : f.kind = .name) (ho : o.kind = .openParen)
    (hplace : NotAfterFun s.cursor.passed) (hcall : functionCall (expression levels) s = .ok c s₁)
    (hnext : ∃ x ∈ s₁.cursor.ahead.head?, x.kind ∈ Strata.operators)
    (hdeep : ∀ left, expression depth s ≠ .error .tooDeep left) :
    (∃ arguments signature, c = .call f.name arguments ∧ s.functions.lookup f.name = .ok signature ∧
      expression depth s =
        if signature.returns = TypeWord.int then operators (arithmetic depth) 0 (.callOperand c) s₁.cursor.ahead s₁
        else .error (.semantic (.callNotInt f.name signature.returns) (some f.position)) s₁) ∧
    expression depth s = Direct.expression depth s ∧
    s₁.cursor.restore s.cursor.position = .ok (s₁.cursor.position - s.cursor.position, s.cursor) ∧
    (Step.left (expression depth s)).functions = s.functions ∧
    (Step.left (expression depth s)).finished = s.finished ∧
    (Step.left (expression depth s)).declared = s.declared ∧
    ∀ start tree left, bodyStatement depth start = .ok tree left →
      left.declared = start.declared.map (tree.declared?.toList ++ ·) := by
  have hoperator : ((s₁.cursor.ahead.head?.map Token.kind).bind TokenKind.operator?).isSome := by
    obtain ⟨x, hx, hoperator⟩ := hnext
    rw [Strata.mem_operators_iff] at hoperator
    rw [Option.mem_def.1 hx]
    exact Option.isSome_iff_ne_none.2 fun hnone => hoperator (operator?_eq_none_iff.1 hnone)
  obtain ⟨⟨x, arguments, signature, hx, hcallee, hlookup⟩, hkept⟩ := functionCall_calls hcall
  obtain rfl : f = x := by
    rw [hahead] at hx
    exact Option.some.inj hx
  obtain ⟨htable, hfinished, hdeclared⟩ := expression_leaves depth s
  refine ⟨⟨arguments, signature, hcallee, hlookup, ?_⟩, ?_, functionCall_restores hcall, htable, hfinished, hdeclared,
    ?_⟩
  · have hlookup₁ : s₁.functions.lookup f.name = .ok signature := by rwa [hkept.functions]
    rw [← goOn_apply hlookup₁]
    exact (expression_of_call hahead hf ho hplace hcall hoperator depth).resolve_right fun ⟨left, h⟩ => hdeep left h
  · exact ((direct_within depth).expression.eq hdeep).symm
  · intro start tree left h
    exact ((readsPlain_bodyStatement start (ready_of start)).of_ok h).1.declared

/-- `f(f(1)+2)-3` -/
def calledTokens : List Token :=
  [⟨.name, some "f", ⟨1, 1⟩⟩, ⟨.openParen, none, ⟨1, 2⟩⟩, ⟨.name, some "f", ⟨1, 3⟩⟩, ⟨.openParen, none, ⟨1, 4⟩⟩,
   ⟨.number, some "1", ⟨1, 5⟩⟩, ⟨.closeParen, none, ⟨1, 6⟩⟩, ⟨.plus, none, ⟨1, 7⟩⟩, ⟨.number, some "2", ⟨1, 8⟩⟩,
   ⟨.closeParen, none, ⟨1, 9⟩⟩, ⟨.minus, none, ⟨1, 10⟩⟩, ⟨.number, some "3", ⟨1, 11⟩⟩]

/-- the call that `calledTokens` starts with -/
def calledTree : Tree :=
  .call "f" [.binary .add (.callOperand (.call "f" [.number 1])) (.number 2)]

/-- both calls are read twice, one inside the other, and what comes out is what is read without going back -/
theorem calledTokens_once :
    let functions : FunctionTable := ⟨[("f", ⟨TypeWord.int, [⟨"n", TypeWord.int⟩]⟩)]⟩
    let whole : Tree := .binary .sub (.callOperand calledTree) (.number 3)
    functionCall (expression 9) ⟨.ofTokens calledTokens, functions, [], none⟩ =
        .ok calledTree ⟨⟨(calledTokens.take 9).reverse, calledTokens.drop 9⟩, functions, [], none⟩ ∧
      Direct.expression 10 ⟨.ofTokens calledTokens, functions, [], none⟩ =
        .ok whole ⟨⟨calledTokens.reverse, []⟩, functions, [], none⟩ := by
  intro functions whole
  have hcall : functionCall (expression 9) ⟨.ofTokens calledTokens, functions, [], none⟩ =
      .ok calledTree ⟨⟨(calledTokens.take 9).reverse, calledTokens.drop 9⟩, functions, [], none⟩ :=
    Step.eq_ok_iff.2 (by decide +kernel)
  have hread : expression 10 ⟨.ofTokens calledTokens, functions, [], none⟩ =
      .ok whole ⟨⟨calledTokens.reverse, []⟩, functions, [], none⟩ := Step.eq_ok_iff.2 (by decide +kernel)
  have hplace : NotAfterFun (Cursor.ofTokens calledTokens).passed := by simp [NotAfterFun, Cursor.ofTokens]
  have hdeep : ∀ left, expression 10 ⟨.ofTokens calledTokens, functions, [], none⟩ ≠ .error .tooDeep left := by
    intro left hleft
    cases hread.symm.trans hleft
  refine ⟨hcall, ?_⟩
  rw [← hread]
  exact (reread_call_exact rfl rfl rfl hplace hcall ⟨_, rfl, by decide⟩ hdeep).2.1.symm

end StackLang.Parse
