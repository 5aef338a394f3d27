/-
Reading a program in two parts.

A statement looks at no token behind its end (`statement_parallel`), so statements that are read from a row of tokens are
read from the front of every longer row too (`statements_continue`). What is behind them is read as it would be by
itself, from the table that the first part leaves behind (`statements_append`).
-/
import StackLang.Proofs.Source.SideBySide
import StackLang.Proofs.Source.StatementSound

namespace StackLang

/-! ## Last tokens -/

namespace Grammar

variable {ts : List Token} {t : Tree} {trees : List Tree}

theorem statement_last (h : Statement ts t) : ∃ front e, ts = front ++ [e] ∧ e.kind ≠ .funWord := by
  cases h with
  | plain h =>
    cases h with
    | ret _ _ hs => exact ⟨_ :: _, _, rfl, by simp [hs]⟩
    | declare _ _ _ _ _ hs => exact ⟨_ :: _ :: _ :: _ :: _, _, rfl, by simp [hs]⟩
    | assign _ _ _ hs => exact ⟨_ :: _ :: _, _, rfl, by simp [hs]⟩
    | addAssign _ _ _ _ hs => exact ⟨_ :: _ :: _ :: _, _, rfl, by simp [hs]⟩
    | call _ hs => exact ⟨_, _, rfl, by simp [hs]⟩
  | @define f n o c b e ps rs body parameters returns trees _ _ _ _ _ _ _ _ he =>
    exact ⟨f :: n :: o :: (ps ++ c :: (rs ++ b :: body)), e, by simp, by simp [he]⟩

theorem program_last (h : Program ts trees) : ts = [] ∨ ∃ front e, ts = front ++ [e] ∧ e.kind ≠ .funWord := by
  induction h with
  | nil => exact .inl rfl
  | cons hfirst _ ih =>
    refine .inr ?_
    rcases ih with rfl | ⟨front, e, rfl, he⟩
    · rw [List.append_nil]
      exact statement_last hfirst
    · exact ⟨_, e, (List.append_assoc _ _ _).symm, he⟩

end Grammar

namespace Parse

variable {rest : List Token} {s t s' : ParseState} {depth : Nat}

/-! ## Statements -/

theorem valueToSemicolon_parallel (rest : List Token) (depth : Nat) :
    Parallel rest 0 2 Eq (valueToSemicolon depth) (valueToSemicolon depth) := by
  refine (expression_parallel rest depth).1.bind_same (fun value => ?_) (by decide)
  exact (expect_parallel _ _).bind_like (fun _ _ _ => .pure rfl) (by decide)

theorem declaration_parallel (rest : List Token) (depth : Nat) :
    Parallel rest 0 2 (fun a b => a.1.Like b.1 ∧ a.2 = b.2) (declaration depth) (declaration depth) := by
  refine (expect_parallel _ _).bind_like (fun name name' hname => ?_) (by decide)
  refine (expect_parallel _ _).bind_like (fun type type' htype => ?_) (by decide)
  refine (expect_parallel _ _).bind_like (fun _ _ _ => ?_) (by decide)
  refine (valueToSemicolon_parallel rest depth).bind_same (fun value => ?_) (by decide)
  exact .pure ⟨hname, by rw [hname.name, htype.name]⟩

theorem plainStatement_parallel {x y : Token} (h : x.Like y) :
    Parallel rest 0 2 Eq (plainStatement depth x) (plainStatement depth y) := by
  have hvalue := valueToSemicolon_parallel rest depth
  unfold plainStatement
  rw [← h.kind, ← h.name]
  cases x.kind
  case returnWord =>
    refine advance_parallel.bind_like (fun _ _ _ => ?_) (by decide)
    exact hvalue.bind_same (fun _ => .pure rfl) (by decide)
  case name =>
    refine (kindAt_parallel 1).bind_same (fun following => ?_) (by decide)
    rcases following with _ | following
    · exact refuse_parallel h.unknownStatement _ _
    cases following
    case equals =>
      refine advance_parallel.bind_like (fun _ _ _ => ?_) (by decide)
      refine advance_parallel.bind_like (fun _ _ _ => ?_) (by decide)
      exact hvalue.bind_same (fun _ => .pure rfl) (by decide)
    case plus =>
      refine advance_parallel.bind_like (fun _ _ _ => ?_) (by decide)
      refine advance_parallel.bind_like (fun _ _ _ => ?_) (by decide)
      refine (expect_parallel _ _).bind_like (fun _ _ _ => ?_) (by decide)
      exact hvalue.bind_same (fun _ => .pure rfl) (by decide)
    case openParen =>
      refine (functionCall_parallel (expression_parallel rest depth).1).bind_same (fun call => ?_) (by decide)
      exact (expect_parallel _ _).bind_like (fun _ _ _ => .pure rfl) (by decide)
    all_goals exact refuse_parallel h.unknownStatement _ _
  all_goals exact refuse_parallel h.unknownStatement _ _

theorem declare_parallel {x y : Token} (h : x.Like y) : Parallel rest 0 0 Eq (declare x) (declare y) := by
  refine .bind_get fun a b _ hdeclared => ?_
  rw [h.name, hdeclared]
  split
  · exact .pure rfl
  · split_ifs
    · exact violate_parallel _ _ _
    · exact .redeclare

theorem newVariable_parallel (rest : List Token) (depth : Nat) :
    Parallel rest 0 0 Eq (newVariable depth) (newVariable depth) := by
  refine (declaration_parallel rest depth).bind (fun a => ⟨a, .refl _, rfl⟩) (fun a b hab => ?_) (by decide)
  refine (declare_parallel hab.1).bind_same (fun _ => ?_) (by decide)
  exact .pure hab.2

theorem bodyStatement_parallel (rest : List Token) (depth : Nat) :
    Parallel rest 0 1 Eq (bodyStatement depth) (bodyStatement depth) := by
  refine current_parallel.bind_like (fun x y hxy => ?_) (by decide)
  rw [← hxy.kind]
  cases x.kind
  case funWord => exact violate_parallel _ _ _
  case letWord => exact advance_parallel.bind_like (fun _ _ _ => newVariable_parallel rest depth) (by decide)
  all_goals exact (plainStatement_parallel hxy).mono le_rfl (by decide)

theorem block_parallel (found : List Tree) {rounds rounds' : List Token} (hrounds : Rounds rest rounds rounds') :
    Parallel rest 0 0 Eq (block depth found rounds) (block depth found rounds') := by
  induction rounds generalizing found rounds' with
  | nil => exact endOfInput_rounds rfl hrounds
  | cons _ rounds ih =>
    obtain ⟨_, more, rfl, hmore⟩ := hrounds.cons
    refine current_parallel.bind_like (fun x y hxy => ?_) (by decide)
    rw [← hxy.kind]
    split_ifs
    · exact advance_parallel.bind_like (fun _ _ _ => .pure rfl) (by decide)
    · refine (bodyStatement_parallel rest depth).bind_same (fun tree => ?_) (by decide)
      exact ih (tree :: found) hmore

theorem body_parallel (rest : List Token) (depth : Nat) (parameters : List Parameter) :
    Parallel rest 0 0 Eq (body depth parameters) (body depth parameters) := by
  refine .leaving (Parallel.redeclare.bind_same (fun _ => ?_) (by decide))
  exact .bind_ahead fun _ _ hrounds => block_parallel [] hrounds

/-! ## Definitions -/

theorem parametersAfter_parallel (found : List Parameter) {rounds rounds' : List Token}
    (hrounds : Rounds rest rounds rounds') :
    Parallel rest 0 0 Eq (parametersAfter found rounds) (parametersAfter found rounds') := by
  induction rounds generalizing found rounds' with
  | nil => exact endOfInput_rounds rfl hrounds
  | cons _ rounds ih =>
    obtain ⟨_, more, rfl, hmore⟩ := hrounds.cons
    refine (expect_parallel _ _).bind_like (fun name name' hname => ?_) (by decide)
    refine (expect_parallel _ _).bind_like (fun type type' htype => ?_) (by decide)
    rw [hname.name, htype.name]
    split_ifs
    · exact violate_parallel _ _ _
    · refine advance_parallel.bind_like (fun x y hxy => ?_) (by decide)
      rw [← hxy.kind]
      split_ifs
      · exact .pure rfl
      · exact ih _ hmore
      · exact expected_parallel _ hxy

theorem parameters_parallel (rest : List Token) : Parallel rest 0 0 Eq parameters parameters := by
  refine current_parallel.bind_like (fun x y hxy => ?_) (by decide)
  rw [← hxy.kind]
  split_ifs
  · exact advance_parallel.bind_like (fun _ _ _ => .pure rfl) (by decide)
  · exact .bind_ahead fun _ _ hrounds => parametersAfter_parallel [] hrounds

theorem returnType_parallel (rest : List Token) : Parallel rest 0 0 Eq returnType returnType := by
  refine current_parallel.bind_like (fun x y hxy => ?_) (by decide)
  rw [← hxy.kind, ← hxy.name]
  cases x.kind
  case name => exact advance_parallel.bind_like (fun _ _ _ => .pure rfl) (by decide)
  case openBrace => exact .pure rfl
  all_goals exact expected_parallel _ hxy

theorem definition_parallel (rest : List Token) (depth : Nat) :
    Parallel rest 0 0 Eq (definition depth) (definition depth) := by
  refine (expect_parallel _ _).bind_like (fun name name' hname => ?_) (by decide)
  refine (expect_parallel _ _).bind_like (fun _ _ _ => ?_) (by decide)
  refine (parameters_parallel rest).bind_same (fun ps => ?_) (by decide)
  refine (returnType_parallel rest).bind_same (fun returns => ?_) (by decide)
  refine (expect_parallel _ _).bind_like (fun _ _ _ => ?_) (by decide)
  refine (body_parallel rest depth ps).bind_same (fun body => ?_) (by decide)
  refine .bind_get fun a b hfunctions _ => ?_
  rw [hname.name, hfunctions]
  refine (checkAt_parallel _ _ _).bind_same (fun functions => ?_) (by decide)
  exact fun s t hst => .of_ok rfl rfl ⟨hst.ahead, hst.notAfterFun, rfl, hst.declared⟩ le_rfl

/-- a statement looks at no token behind its end -/
theorem statement_parallel (rest : List Token) (depth : Nat) :
    Parallel rest 0 1 Eq (statement depth) (statement depth) := by
  refine current_parallel.bind_like (fun x y hxy => .bind_get fun a b _ hdeclared => ?_) (by decide)
  rw [← hxy.kind, hdeclared]
  split_ifs
  · exact advance_parallel.bind_like (fun _ _ _ => definition_parallel rest depth) (by decide)
  · exact bodyStatement_parallel rest depth

/-! ## Programs -/

theorem statements_exhausted {found : List Tree} {rounds : List Token} (h : s.cursor.ahead = []) :
    statements depth found rounds s = .ok found.reverse s := by
  cases rounds with
  | nil => rfl
  | cons round rounds => rw [statements, Step.bind_of_ok (exhausted_apply s), h]; rfl

/-- with tokens ahead and rounds for all of them, another statement is read -/
theorem statements_more (depth : Nat) (found : List Tree) {rounds : List Token} (hs : s.left ≤ rounds.length)
    (h : s.cursor.ahead ≠ []) :
    ∃ more : List Token, rounds.length = more.length + 1 ∧ statements depth found rounds s =
      (statement depth >>= fun tree => statements depth (tree :: found) more) s := by
  cases rounds with
  | nil => exact absurd (List.length_eq_zero_iff.1 (Nat.le_zero.1 hs)) h
  | cons round more =>
    refine ⟨more, rfl, ?_⟩
    rw [statements, Step.bind_of_ok (exhausted_apply s), if_neg (by rwa [List.isEmpty_iff])]

/-- the statements of a row are read from the front of a longer row too, and reading goes on behind them -/
theorem statements_continue {found trees : List Tree} {rounds rounds' : List Token} (hst : Beside rest s t)
    (hs : s.left ≤ rounds.length) (ht : t.left ≤ rounds'.length) (h : statements depth found rounds s = .ok trees s') :
    ∃ rounds'' t', Beside rest s' t' ∧ t'.left ≤ rounds''.length ∧
      statements depth found rounds' t = statements depth trees.reverse rounds'' t' := by
  induction hn : s.left using Nat.strong_induction_on generalizing found s t rounds rounds' with
  | _ n ih =>
    by_cases hnone : s.cursor.ahead = []
    · rw [statements_exhausted hnone] at h
      cases h
      exact ⟨rounds', t, hst, ht, by rw [List.reverse_reverse]⟩
    · obtain ⟨more, hmore, hfirst⟩ := statements_more depth found hs hnone
      obtain ⟨more', hmore', hsecond⟩ := statements_more depth found ht (hst.ne_nil hnone)
      rw [hfirst] at h
      obtain ⟨tree, s₁, hstatement, h⟩ := Step.bind_eq_ok.1 h
      have hagrees := statement_parallel rest depth s t hst
      rw [hstatement] at hagrees
      obtain ⟨htakes, hok⟩ := hagrees
      obtain ⟨_, t₁, hstatement', rfl, hst₁⟩ := hok (.inr (Nat.zero_le _))
      have hleft := hst.left
      have hleft₁ := hst₁.left
      obtain ⟨rounds'', t', hst', ht', hcontinue⟩ :=
        ih s₁.left (by omega) hst₁ (by omega) (show t₁.left ≤ more'.length by omega) h rfl
      exact ⟨rounds'', t', hst', ht', by rw [hsecond, Step.bind_of_ok hstatement', hcontinue]⟩

/-- like rows are read as the same statements, whatever was found before them -/
theorem statements_agrees {found found' : List Tree} {rounds rounds' : List Token} (hst : Beside [] s t)
    (hs : s.left ≤ rounds.length) (ht : t.left ≤ rounds'.length) :
    Agrees [] 0 0 (fun a b => ∃ trees, a = found.reverse ++ trees ∧ b = found'.reverse ++ trees) s
      (statements depth found rounds s) (statements depth found' rounds' t) := by
  induction hn : s.left using Nat.strong_induction_on generalizing found found' s t rounds rounds' with
  | _ n ih =>
    by_cases hnone : s.cursor.ahead = []
    · rw [statements_exhausted hnone, statements_exhausted (hst.nil hnone)]
      exact .of_ok rfl ⟨[], by simp, by simp⟩ hst le_rfl
    · obtain ⟨more, hmore, hfirst⟩ := statements_more depth found hs hnone
      obtain ⟨more', hmore', hsecond⟩ := statements_more depth found' ht (hst.ne_nil hnone)
      rw [hfirst, hsecond]
      refine (statement_parallel [] depth s t hst).bind (fun a => ⟨a, rfl⟩) ?_ (by decide)
      rintro tree _ s₁ t₁ htakes rfl hst₁
      have hleft := hst.left
      have hleft₁ := hst₁.left
      refine (ih s₁.left (by omega) hst₁ (by omega) (by omega) rfl).imp ?_
      rintro _ _ ⟨trees, rfl, rfl⟩
      exact ⟨tree :: trees, by simp, by simp⟩

/-- a program does not end with `fun` -/
theorem ProgramRead.notAfterFun {tokens : List Token} {functions : FunctionTable} {trees : List Tree}
    (h : ProgramRead ⟨.ofTokens tokens, functions, [], none⟩ trees s) : NotAfterFun s.cursor.passed := by
  have hpassed : s.cursor.passed = tokens.reverse := by
    rw [h.state, allRead]
    exact List.append_nil _
  unfold NotAfterFun
  rw [hpassed, List.head?_reverse]
  rcases Grammar.program_last h.derives with hnone | ⟨front, e, hlast, he⟩
  · simp only [Cursor.ofTokens] at hnone
    simp [hnone]
  · simp only [Cursor.ofTokens] at hlast
    simpa [hlast] using he

/-- the tokens of two texts in one row: after the statements of the first, those of the second are read as they are
from the table that the first leaves behind -/
theorem statements_append {first second second' : List Token} {functions : FunctionTable} {trees : List Tree}
    (h : statements depth [] first ⟨.ofTokens first, functions, [], none⟩ = .ok trees s)
    (hread : ProgramRead ⟨.ofTokens first, functions, [], none⟩ trees s)
    (hlike : List.Forall₂ Token.Like second second') :
    Agrees [] 0 0 (fun a b => b = trees ++ a) ⟨.ofTokens second, s.functions, [], none⟩
      (statements depth [] second ⟨.ofTokens second, s.functions, [], none⟩)
      (statements depth [] (first ++ second') ⟨.ofTokens (first ++ second'), functions, [], none⟩) := by
  have hstart : Beside second ⟨.ofTokens first, functions, [], none⟩
      ⟨.ofTokens (first ++ second'), functions, [], none⟩ :=
    ⟨List.rel_append (List.forall₂_same.2 fun x _ => .refl x) hlike, Iff.rfl, rfl, rfl⟩
  have hrounds : (⟨.ofTokens (first ++ second'), functions, [], none⟩ : ParseState).left ≤ (first ++ second').length :=
    le_rfl
  obtain ⟨rounds, t, hst, ht, hcontinue⟩ := statements_continue hstart le_rfl hrounds h
  have hahead := hst.ahead
  rw [hread.state, allRead, List.nil_append, ← List.append_nil second] at hahead
  have hfirst : NotAfterFun [] := by
    intro hfun
    cases hfun
  have hbeside : Beside [] ⟨.ofTokens second, s.functions, [], none⟩ t :=
    ⟨hahead, iff_of_true hfirst (hst.notAfterFun.1 hread.notAfterFun), hst.functions,
      hread.outside.symm.trans hst.declared⟩
  rw [hcontinue]
  refine (statements_agrees hbeside le_rfl ht).imp ?_
  rintro _ _ ⟨new, rfl, rfl⟩
  simp

end Parse

end StackLang
