/-
Printed programs are read back.

The reader follows the tree that a row of words was printed from. Arithmetic climbs to the level of its tree, and
parentheses lift it to the level that its place asks for (`Climbing.at`); with that, each form is read by its own lemma,
in the levels that are counted next to the printing. Blanks between the words make a text of the row, so a program is
given back by the text of its words (`program_of_printed`).
-/
import StackLang.Proofs.Source.Printed
import StackLang.Proofs.Source.StatementComplete

namespace StackLang

theorem BinaryOp.IsSign.operator? {op : BinaryOp} (h : op.IsSign) : op.sign.operator? = some op := by
  cases op with
  | other => cases h
  | _ => rfl

theorem BinaryOp.IsSign.precedence {op : BinaryOp} (h : op.IsSign) : 1 ≤ op.sign.precedence ∧ op.sign.precedence ≤ 3 := by
  cases op with
  | other => cases h
  | _ => decide

theorem Tree.IsOperand.level_pos {atoms : Atoms} {t : Tree} (h : t.IsOperand atoms) : 1 ≤ t.level := by
  cases t with
  | binary op l r => exact h.1.precedence.1
  | _ => exact Nat.le_add_left 1 3

/-! ## Tokens of rows -/

section

variable {ts : List Token} {w v : Word} {row rest : List Word}

theorem words_cons (h : ts.map Token.word = w :: row) :
    ∃ x us, ts = x :: us ∧ x.kind = w.kind ∧ x.text = w.text ∧ us.map Token.word = row := by
  obtain ⟨x, us, rfl, rfl, hus⟩ := List.map_eq_cons_iff.1 h
  exact ⟨x, us, rfl, rfl, rfl, hus⟩

theorem words_name {x : Name} (h : ts.map Token.word = .name x :: row) :
    ∃ y us, ts = y :: us ∧ y.kind = .name ∧ x = y.name ∧ us.map Token.word = row := by
  obtain ⟨y, us, rfl, hkind, htext, hus⟩ := words_cons h
  exact ⟨y, us, rfl, hkind, (congrArg Name.mk htext).symm, hus⟩

theorem words_append (h : ts.map Token.word = row ++ rest) :
    ∃ us vs, ts = us ++ vs ∧ us.map Token.word = row ∧ vs.map Token.word = rest :=
  List.map_eq_append_iff.1 h

theorem words_concat (h : ts.map Token.word = row ++ [v]) :
    ∃ us y, ts = us ++ [y] ∧ us.map Token.word = row ∧ y.kind = v.kind := by
  obtain ⟨us, vs, rfl, hus, hvs⟩ := words_append h
  obtain ⟨y, _, rfl, hy, -, hnil⟩ := words_cons hvs
  obtain rfl := List.map_eq_nil_iff.1 hnil
  exact ⟨us, y, rfl, hus, hy⟩

end

namespace Parse

open Grammar

variable {functions : FunctionTable} {ts : List Token} {t : Tree}

/-! ## Arithmetic -/

theorem Climbable.lower {levels k j : Nat} (h : Climbable functions levels k ts t) (hle : j ≤ k) :
    Climbable functions levels j ts t := by
  obtain ⟨d, rfl⟩ := Nat.exists_eq_add_of_le hle
  induction d with
  | zero => exact h
  | succ d ih => exact ih h.lift (Nat.le_add_right j d)

/-- the tokens of a tree climb, with the levels and at the level of the tree -/
def Climbing (functions : FunctionTable) (t : Tree) : Prop :=
  ∀ ts : List Token, ts.map Token.word = t.words → Climbable functions t.levels t.level ts t

/-- in parentheses a phrase is an operand -/
theorem Climbing.inParentheses (h : Climbing functions t) (hpos : 1 ≤ t.level)
    (hts : ts.map Token.word = .sign .openParen :: (t.words ++ [.sign .closeParen])) :
    Climbable functions (t.levels + 2) 4 ts t ∧ ts.head?.map Token.kind = some .openParen := by
  obtain ⟨o, us, rfl, ho, -, hus⟩ := words_cons hts
  obtain ⟨us, c, rfl, hus, hc⟩ := words_concat hus
  exact ⟨((h us hus).lower hpos).group ho hc, congrArg some ho⟩

/-- a phrase that is in parentheses if it is below a level is a phrase of that level -/
theorem Climbing.at {k : Nat} (h : Climbing functions t) (hpos : 1 ≤ t.level) (hk : k ≤ 4)
    (hts : ts.map Token.word = grouped (t.level < k) t.words) :
    Climbable functions (groupedLevels (t.level < k) t.levels) k ts t := by
  unfold grouped at hts
  unfold groupedLevels
  by_cases hneeded : t.level < k
  · simp only [hneeded, decide_true, if_true] at hts ⊢
    exact (h.inParentheses hpos hts).1.lower hk
  · simp only [hneeded, decide_false, Bool.false_eq_true, if_false] at hts ⊢
    exact (h ts hts).lower (Nat.not_lt.1 hneeded)

theorem Climbing.signed {kind : TokenKind} {sign : Tree → Tree} (h : Climbing functions t) (hpos : 1 ≤ t.level)
    (hsign : kind = .plus ∧ sign = .positive ∨ kind = .minus ∧ sign = .negative)
    (hts : ts.map Token.word = .sign kind :: grouped (t.level < 4) t.words) :
    Climbable functions (groupedLevels (t.level < 4) t.levels + 1) 4 ts (sign t) := by
  obtain ⟨x, us, rfl, hkind, -, hus⟩ := words_cons hts
  obtain rfl : x.kind = kind := hkind
  exact (h.at hpos le_rfl hus).signed hsign

theorem Climbing.binary {op : BinaryOp} {l r : Tree} (hop : op.IsSign) (hl : Climbing functions l) (hlpos : 1 ≤ l.level)
    (hr : Climbing functions r) (hrpos : 1 ≤ r.level) : Climbing functions (.binary op l r) := by
  intro ts hts
  obtain ⟨-, hle⟩ := hop.precedence
  obtain ⟨ls, us, rfl, hls, hus⟩ := words_append hts
  obtain ⟨x, rs, rfl, hkind, -, hrs⟩ := words_cons hus
  have hkind : x.kind = op.sign := hkind
  -- the right operand climbs to the level above that of the operator
  simp only [← Nat.lt_succ_iff] at hrs
  have hleft := hl.at hlpos (by omega) hls
  have hright := hr.at hrpos (by omega) hrs
  have hoperands := hleft.binary (hkind ▸ hop.operator?) (congrArg _ hkind) hright
  simp only [Nat.lt_succ_iff] at hoperands
  exact hoperands

/-! ## Calls and whole expressions -/

structure CallRead (functions : FunctionTable) (levels : Nat) (ts : List Token) (t : Tree) : Prop where
  head : ∃ f o cs trees, ts = f :: o :: cs ∧ f.kind = .name ∧ o.kind = .openParen ∧ t = .call f.name trees
  accepted : ∀ rest, Accepts functions levels callAt ts rest t

/-- tokens of expressions are read as arguments; they do not start with the parenthesis that ends them -/
structure ArgumentsRead (functions : FunctionTable) (levels : Nat) (ts : List Token) (trees : List Tree) : Prop where
  head : ∃ x us, ts = x :: us ∧ x.kind ≠ .closeParen
  length : trees.length ≤ ts.length
  accepted : ArgumentsAccepted functions levels ts trees

theorem Lead.head {levels : Nat} (h : Lead functions levels ts t) : ∃ x us, ts = x :: us ∧ x.kind ≠ .closeParen := by
  cases h with
  | sign hts hstarts =>
    refine ⟨_, _, hts, fun hkind => ?_⟩
    have hstart := hstarts none
    rw [hkind] at hstart
    cases hstart
  | name hts hkind => exact ⟨_, _, hts, by simp [hkind]⟩
  | call hts hf => exact ⟨_, _, hts, by simp [hf]⟩

/-- a whole expression is read, if it is read as what it is -/
theorem value_read (hcall : t.IsCall .printable → ∀ us : List Token, us.map Token.word = t.words →
      CallRead functions t.levels us t)
    (hoperand : t.IsOperand .printable → Climbing functions t) (hform : t.IsValue .printable)
    (hts : ts.map Token.word = t.valueWords) :
    ExpressionAccepted functions t.valueLevels ts t ∧ ∃ x us, ts = x :: us ∧ x.kind ≠ .closeParen := by
  rcases hform with hident | hcalled | harithmetic
  · cases t with
    | ident x =>
      obtain ⟨y, us, rfl, hkind, rfl, hus⟩ := words_name hts
      obtain rfl := List.map_eq_nil_iff.1 hus
      exact ⟨accepted_ident hkind, y, [], rfl, by simp [hkind]⟩
    | _ => cases hident
  · cases t with
    | call f arguments =>
      have hread := hcall hcalled ts hts
      obtain ⟨g, o, cs, trees, rfl, hg, ho, -⟩ := hread.head
      exact ⟨accepted_call hg ho hread.accepted, g, _, rfl, by simp [hg]⟩
    | _ => cases hcalled
  · have hclimbs := hoperand harithmetic
    have hlevels : t.valueLevels = groupedLevels t.isLeaf t.levels + 2 := by
      rw [Tree.valueLevels, Tree.valueLevelsOf, if_pos harithmetic.isArithmetic]
    rw [hlevels]
    unfold Tree.valueWords grouped at hts
    unfold groupedLevels
    cases hleaf : t.isLeaf with
    | true =>
      rw [hleaf, if_pos rfl] at hts
      rw [if_pos rfl]
      obtain ⟨hgroup, hhead⟩ := hclimbs.inParentheses harithmetic.level_pos hts
      exact ⟨accepted_arithmetic (hgroup.lower (by omega)) fun _ => hhead, hgroup.lead.head⟩
    | false =>
      rw [hleaf, if_neg Bool.false_ne_true] at hts
      rw [if_neg Bool.false_ne_true]
      have hread := hclimbs ts hts
      refine ⟨accepted_arithmetic (hread.lower harithmetic.level_pos) fun h => ?_, hread.lead.head⟩
      rw [hleaf] at h
      cases h

/-- a call is read, if its arguments are -/
theorem call_read {f : Name} {arguments : List Tree} (hknown : f ∈ functions.names)
    (h : arguments ≠ [] → ∀ us : List Token, us.map Token.word = Tree.argumentWords arguments →
      ArgumentsRead functions (Tree.argumentLevels arguments) us arguments)
    (hts : ts.map Token.word = (Tree.call f arguments).words) :
    CallRead functions (Tree.call f arguments).levels ts (.call f arguments) := by
  rw [Tree.words] at hts
  obtain ⟨g, us, rfl, hg, rfl, hus⟩ := words_name hts
  obtain ⟨o, us, rfl, ho, -, hus⟩ := words_cons hus
  obtain ⟨us, c, rfl, hus, hc⟩ := words_concat hus
  refine ⟨⟨g, o, _, arguments, rfl, hg, ho, rfl⟩, fun rest => ?_⟩
  rw [Tree.levels]
  cases arguments with
  | nil =>
    obtain rfl := List.map_eq_nil_iff.1 hus
    exact accepts_emptyCall hg ho hc hknown
  | cons t trees =>
    obtain ⟨⟨x, vs, rfl, hx⟩, hlength, haccepted⟩ := h (List.cons_ne_nil t trees) us hus
    refine accepts_filledCall hg ho ?_ (List.cons_ne_nil x vs) hlength hc hknown haccepted
    rintro _ ⟨⟩
    exact hx

mutual

theorem climbable_words : (t : Tree) → t.IsOperand .printable → CallsKnown functions t → Climbing functions t
  | .number n, hform, _ => by
    intro ts hts
    obtain ⟨x, us, rfl, hkind, htext, hus⟩ := words_cons hts
    obtain rfl := List.map_eq_nil_iff.1 hus
    exact climbable_number hkind htext (Word.integer?_toString hform.1 hform.2)
  | .name x, _, _ => by
    intro ts hts
    obtain ⟨y, us, rfl, hkind, rfl, hus⟩ := words_name hts
    obtain rfl := List.map_eq_nil_iff.1 hus
    exact climbable_name hkind
  | .callOperand t, hform, hcalls => by
    intro ts hts
    have hread := call_words t hform hcalls.of_callOperand ts hts
    obtain ⟨f, o, cs, trees, rfl, hf, ho, rfl⟩ := hread.head
    exact climbable_callOperand hf ho (CallsKnown.callOperand_iff.1 hcalls).1 hread.accepted
  | .positive t, hform, hcalls => by
    intro ts hts
    exact (climbable_words t hform (hcalls.same rfl rfl)).signed (Tree.IsOperand.level_pos hform) (.inl ⟨rfl, rfl⟩) hts
  | .negative t, hform, hcalls => by
    intro ts hts
    exact (climbable_words t hform (hcalls.same rfl rfl)).signed (Tree.IsOperand.level_pos hform) (.inr ⟨rfl, rfl⟩) hts
  | .binary op l r, hform, hcalls => by
    obtain ⟨hop, hl, hr⟩ := hform
    obtain ⟨hlcalls, hrcalls⟩ := CallsKnown.binary_iff.1 hcalls
    exact .binary hop (climbable_words l hl hlcalls) hl.level_pos (climbable_words r hr hrcalls) hr.level_pos
  | .ident _, hform, _ | .call .., hform, _ | .ret _, hform, _ | .declare .., hform, _ | .assign .., hform, _
  | .addAssign .., hform, _ | .define .., hform, _ | .program _, hform, _ => hform.elim

theorem call_words : (t : Tree) → t.IsCall .printable → CallsKnown functions t →
    ∀ ts : List Token, ts.map Token.word = t.words → CallRead functions t.levels ts t
  | .call f arguments, hform, hcalls => by
    intro ts hts
    obtain ⟨hknown, hcalls⟩ := CallsKnown.call_iff.1 hcalls
    exact call_read hknown (arguments_words arguments hform.2 hcalls) hts
  | .number _, hform, _ | .name _, hform, _ | .ident _, hform, _ | .positive _, hform, _ | .negative _, hform, _
  | .binary .., hform, _ | .callOperand _, hform, _ | .ret _, hform, _ | .declare .., hform, _ | .assign .., hform, _
  | .addAssign .., hform, _ | .define .., hform, _ | .program _, hform, _ => hform.elim

theorem arguments_words : (trees : List Tree) → Tree.AreValues .printable trees →
    (∀ t ∈ trees, CallsKnown functions t) → trees ≠ [] →
      ∀ ts : List Token, ts.map Token.word = Tree.argumentWords trees →
        ArgumentsRead functions (Tree.argumentLevels trees) ts trees
  | [], _, _, hne => absurd rfl hne
  | [t], hforms, hcalls, _ => by
    intro ts hts
    have hknown := hcalls t List.mem_cons_self
    obtain ⟨hread, hhead⟩ := value_read (fun hform => call_words t hform hknown)
      (fun hform => climbable_words t hform hknown) hforms.1 hts
    rw [show Tree.argumentLevels [t] = t.valueLevels from Nat.max_zero _]
    refine ⟨hhead, ?_, hread.one⟩
    obtain ⟨x, us, rfl, -⟩ := hhead
    exact Nat.succ_le_succ (Nat.zero_le _)
  | t :: u :: rest, hforms, hcalls, _ => by
    intro ts hts
    obtain ⟨hknown, hcalls⟩ := List.forall_mem_cons.1 hcalls
    obtain ⟨us, vs, rfl, hus, hvs⟩ := words_append hts
    obtain ⟨x, vs, rfl, hcomma, -, hvs⟩ := words_cons hvs
    obtain ⟨hread, y, us, rfl, hy⟩ := value_read (fun hform => call_words t hform hknown)
      (fun hform => climbable_words t hform hknown) hforms.1 hus
    have hmore := arguments_words (u :: rest) hforms.2 hcalls (List.cons_ne_nil u rest) vs hvs
    refine ⟨⟨y, _, rfl, hy⟩, ?_, hread.more hcomma hmore.accepted⟩
    have hlength := hmore.length
    simp only [List.length_cons, List.length_append] at hlength ⊢
    omega

end

theorem value_words (hform : t.IsValue .printable) (hcalls : CallsKnown functions t)
    (hts : ts.map Token.word = t.valueWords ++ [.sign .semicolon]) :
    ∃ us c, ts = us ++ [c] ∧ c.kind = .semicolon ∧ ExpressionAccepted functions t.valueLevels us t := by
  obtain ⟨us, c, rfl, hus, hc⟩ := words_concat hts
  refine ⟨us, c, rfl, hc, ?_⟩
  exact (value_read (fun hform => call_words t hform hcalls) (fun hform => climbable_words t hform hcalls) hform hus).1

/-! ## Statements -/

theorem plainAccepted_words (hform : t.IsPlain .printable) (hcalls : CallsKnown functions t)
    (hts : ts.map Token.word = t.plainWords) : PlainAccepted functions t.plainLevels ts t := by
  cases t with
  | ret v =>
    obtain ⟨r, us, rfl, hr, -, hus⟩ := words_cons hts
    obtain ⟨us, c, rfl, hc, hvalue⟩ := value_words hform (hcalls.same rfl rfl) hus
    exact accepted_ret hr hvalue hc
  | declare x type v =>
    obtain ⟨l, row, rfl, hl, -, hrow⟩ := words_cons hts
    obtain ⟨x, us, rfl, hx, rfl, hus⟩ := words_name hrow
    obtain ⟨type, vs, rfl, htype, rfl, hvs⟩ := words_name hus
    obtain ⟨e, ws, rfl, he, -, hws⟩ := words_cons hvs
    obtain ⟨us, c, rfl, hc, hvalue⟩ := value_words hform.2.2 (hcalls.same rfl rfl) hws
    exact accepted_declare hl hx htype he hvalue hc
  | assign x v =>
    obtain ⟨x, us, rfl, hx, rfl, hus⟩ := words_name hts
    obtain ⟨e, us, rfl, he, -, hus⟩ := words_cons hus
    obtain ⟨us, c, rfl, hc, hvalue⟩ := value_words hform.2 (hcalls.same rfl rfl) hus
    exact accepted_assign hx he hvalue hc
  | addAssign x v =>
    obtain ⟨x, us, rfl, hx, rfl, hus⟩ := words_name hts
    obtain ⟨p, us, rfl, hp, -, hus⟩ := words_cons hus
    obtain ⟨e, us, rfl, he, -, hus⟩ := words_cons hus
    obtain ⟨us, c, rfl, hc, hvalue⟩ := value_words hform.2 (hcalls.same rfl rfl) hus
    exact accepted_addAssign hx hp he hvalue hc
  | call f arguments =>
    obtain ⟨us, c, rfl, hus, hc⟩ := words_concat hts
    have hread := call_words _ hform hcalls us hus
    obtain ⟨g, o, cs, trees, rfl, hg, ho, heq⟩ := hread.head
    rw [heq] at hread ⊢
    exact accepted_callStatement hg ho hread.accepted hc
  | _ => cases hform

theorem parameters_words {parameters : List Parameter} (hts : ts.map Token.word = parameterWords parameters) :
    ts = [] ∧ parameters = [] ∨ Parameters ts parameters := by
  fun_induction parameterWords parameters generalizing ts with
  | case1 => exact .inl ⟨List.map_eq_nil_iff.1 hts, rfl⟩
  | case2 p =>
    obtain ⟨x, us, rfl, hx, hname, hus⟩ := words_name hts
    obtain ⟨type, us, rfl, htype, htypeName, hus⟩ := words_name hus
    obtain rfl := List.map_eq_nil_iff.1 hus
    obtain rfl : p = ⟨x.name, type.name⟩ := by rw [← hname, ← htypeName]
    exact .inr (.one hx htype)
  | case3 p q rest ih =>
    obtain ⟨x, us, rfl, hx, hname, hus⟩ := words_name hts
    obtain ⟨type, vs, rfl, htype, htypeName, hvs⟩ := words_name hus
    obtain ⟨comma, ws, rfl, hcomma, -, hws⟩ := words_cons hvs
    have hmore := (ih hws).resolve_left fun h => List.cons_ne_nil q rest h.2
    obtain rfl : p = ⟨x.name, type.name⟩ := by rw [← hname, ← htypeName]
    exact .inr (.more hx htype hcomma hmore)

theorem returnType_words {shown : Bool} {returns : Name} (hts : ts.map Token.word = returnWords shown returns) :
    ReturnType ts returns := by
  unfold returnWords at hts
  split_ifs at hts with hleft
  · obtain rfl := List.map_eq_nil_iff.1 hts
    obtain ⟨rfl, -⟩ := hleft
    exact .absent
  · obtain ⟨type, us, rfl, htype, rfl, hus⟩ := words_name hts
    obtain rfl := List.map_eq_nil_iff.1 hus
    exact .given htype

theorem body_words {body : List Tree} {levels : Nat} (hforms : ∀ t ∈ body, t.IsPlain .printable)
    (hcalls : ∀ t ∈ body, CallsKnown functions t) (hts : ts.map Token.word = body.flatMap Tree.plainWords)
    (hlevels : (body.map Tree.plainLevels).foldr max 0 ≤ levels) : Row (PlainAccepted functions levels) ts body := by
  induction body generalizing ts with
  | nil =>
    obtain rfl := List.map_eq_nil_iff.1 hts
    exact .nil
  | cons t rest ih =>
    obtain ⟨hform, hforms⟩ := List.forall_mem_cons.1 hforms
    obtain ⟨hknown, hcalls⟩ := List.forall_mem_cons.1 hcalls
    obtain ⟨hfirst, hlater⟩ := max_le_iff.1 hlevels
    obtain ⟨us, vs, rfl, hus, hvs⟩ := words_append hts
    exact .cons ((plainAccepted_words hform hknown hus).mono hfirst) (ih hforms hcalls hvs hlater)

theorem statementAccepted_words {shown : Name → Bool} (hform : t.IsStatement .printable)
    (hrules : StatementRules functions t) (hts : ts.map Token.word = t.statementWords shown) :
    StatementAccepted functions t.statementLevels ts t ∧ 0 < ts.length := by
  rcases hform.define_or_plain shown with ⟨f, parameters, returns, body, rfl⟩ | ⟨hplain, hdefine, hwords, hlevels⟩
  · obtain ⟨-, -, hbody⟩ := hform
    obtain ⟨w, us, rfl, hw, -, hus⟩ := words_cons hts
    obtain ⟨n, us, rfl, hn, rfl, hus⟩ := words_name hus
    obtain ⟨o, us, rfl, ho, -, hus⟩ := words_cons hus
    obtain ⟨ps, us, rfl, hps, hus⟩ := words_append hus
    obtain ⟨c, us, rfl, hc, -, hus⟩ := words_cons hus
    obtain ⟨rs, us, rfl, hrs, hus⟩ := words_append hus
    obtain ⟨b, us, rfl, hb, -, hus⟩ := words_cons hus
    obtain ⟨us, e, rfl, hus, he⟩ := words_concat hus
    have hrow := body_words hbody (CallsKnown.define_iff.1 hrules.calls) hus le_rfl
    refine ⟨?_, Nat.succ_pos _⟩
    exact accepted_define hw hn ho (parameters_words hps) hc (returnType_words hrs) hb hrow he
      (hrules.definition _ _ _ _ rfl)
  · rw [hwords] at hts
    have hread := plainAccepted_words hplain hrules.calls hts
    rw [hlevels]
    refine ⟨hread.statement hdefine, ?_⟩
    obtain ⟨x, us, rfl, -⟩ := hread.head
    exact Nat.succ_pos _

theorem programAccepted_words {shown : Name → Bool} {trees : List Tree} {levels : Nat}
    (hforms : ∀ t ∈ trees, t.IsStatement .printable) (hrules : ProgramRules functions trees)
    (hts : ts.map Token.word = programWords shown trees) (hlevels : programLevels trees ≤ levels) :
    ProgramAccepted levels functions ts trees := by
  induction trees generalizing functions ts with
  | nil =>
    obtain rfl := List.map_eq_nil_iff.1 hts
    exact .nil
  | cons t rest ih =>
    obtain ⟨hform, hforms⟩ := List.forall_mem_cons.1 hforms
    obtain ⟨hfirst, hlater⟩ := max_le_iff.1 hlevels
    obtain ⟨us, vs, rfl, hus, hvs⟩ := words_append hts
    obtain ⟨hread, hpos⟩ := statementAccepted_words hform hrules.1 hus
    refine .cons (fun depth rest passed finished => ?_) hpos (ih hforms hrules.2 hvs hlater)
    exact (hread depth rest passed finished).mono hfirst.trans

end Parse

/-- **Printing and reading.** A program whose names and numbers can be written, and which keeps the rules of names, types
and calls, is given back by every text of its words with blanks between them, at every depth that its phrases do not
exceed; and then the table holds `println` and the functions of the program in their order. -/
theorem program_of_printed {trees : List Tree} (hforms : ∀ t ∈ trees, t.IsStatement .printable)
    (hrules : ProgramRules .initial trees) {depth : Nat} (hdepth : programLevels trees ≤ depth) (shown : Name → Bool)
    {source : String} (hsource : Spaced (programWords shown trees) source.toList) :
    ∃ tokens s, tokenize source = .ok tokens ∧
      Parse.program depth ⟨.ofTokens tokens, .initial, [], none⟩ = .ok (.program trees) s ∧
      s.functions.entries =
        (⟨"println", TypeWord.void, [⟨"value", TypeWord.int⟩]⟩ : Name × Signature) ::
          trees.filterMap Tree.definition? := by
  obtain ⟨tokens, htokens, hwords⟩ := tokenize_spaced hsource (lexes_programWords hforms hrules shown)
  have haccepted := Parse.programAccepted_words hforms hrules hwords hdepth
  have hrun := (Parse.statements_accepted haccepted depth [] tokens [] [] haccepted.length_le).ok le_rfl
  refine ⟨tokens, Parse.allRead ⟨.ofTokens tokens, .initial, [], none⟩ trees, htokens, ?_, ?_⟩
  · rw [Parse.program, Step.bind_of_ok (Parse.ahead_apply _)]
    exact Step.bind_of_ok hrun _
  · exact FunctionTable.entries_afterAll _ _

/-- a function, and a call of it as an operand that stands by itself -/
def printedTrees : List Tree :=
  [.define "f" [⟨"x", TypeWord.int⟩] TypeWord.int
    [.ret (.binary .mul (.binary .add (.name "x") (.number 1)) (.name "x"))],
   .assign "y" (.callOperand (.call "f" [.number 2]))]

def printedText : String :=
  " fun f ( x int ) int \x7b return ( x + 1 ) * x ; \x7d y = ( f ( 2 ) ) ;"

/-- the words of the sample give it back -/
theorem program_of_printedText : programLevels printedTrees = 8 ∧ ∃ tokens s, tokenize printedText = .ok tokens ∧
    Parse.program 8 ⟨.ofTokens tokens, .initial, [], none⟩ = .ok (.program printedTrees) s ∧
      s.functions.entries = (⟨"println", TypeWord.void, [⟨"value", TypeWord.int⟩]⟩ : Name × Signature) ::
        printedTrees.filterMap Tree.definition? := by
  have hlevels : programLevels printedTrees = 8 := by decide
  have hf : Atoms.printable.name "f" := ⟨"f", rfl, by decide +kernel⟩
  have hx : Atoms.printable.name "x" := ⟨"x", rfl, by decide +kernel⟩
  have hy : Atoms.printable.name "y" := ⟨"y", rfl, by decide +kernel⟩
  have hone : Atoms.printable.number 1 := ⟨by decide, by decide⟩
  have htwo : Atoms.printable.number 2 := ⟨by decide, by decide⟩
  have hforms : ∀ t ∈ printedTrees, t.IsStatement .printable := by
    simp [printedTrees, Tree.IsStatement, Tree.IsPlain, Tree.IsValue, Tree.IsIdent, Tree.IsCall, Tree.IsOperand,
      Tree.AreValues, BinaryOp.IsSign, hf, hx, hy, hone, htwo]
  have hrules : ProgramRules .initial printedTrees := by
    refine ⟨⟨.of_no_calls rfl rfl, ?_⟩, ⟨?_, ?_⟩, trivial⟩
    · rintro _ _ _ _ ⟨⟩
      exact ⟨by decide, by decide, .inl rfl, by decide⟩
    · refine ⟨by decide, ?_⟩
      intro g hg
      obtain rfl := List.mem_singleton.1 hg
      exact ⟨_, rfl, rfl⟩
    · rintro _ _ _ _ ⟨⟩
  have hsource : Spaced (programWords (fun _ => true) printedTrees) printedText.toList := by
    have htext : printedText.toList = (programWords (fun _ => true) printedTrees).flatMap fun w => ' ' :: w.chars := by
      decide +kernel
    rw [htext]
    exact spaced_blanks _
  exact ⟨hlevels, program_of_printed hforms hrules hlevels.le _ hsource⟩

end StackLang
