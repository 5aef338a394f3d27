/-
Only derivable expressions are read.

Whatever a reading step took was a row of tokens that derives the tree it gives, with all functions known and no
overlong number (`Found`). The three readers of expressions call each other with a smaller depth, so the argument is
by induction on the depth (`SoundAt`). The operator loop keeps that its left side is a phrase of a level no operator
ahead exceeds.
-/
import StackLang.Proofs.Source.ExpressionComplete

namespace StackLang.Parse

open Grammar

/-! ## What a step has read -/

/-- all tokens ahead are such as a source text can have -/
def Lexed (s : ParseState) : Prop :=
  ∀ x ∈ s.cursor.ahead, x.Lexed

/-- between the two states stands a row of tokens that derives the tree and keeps the rules of calls and numbers -/
def Found (phrase : List Token → Tree → Prop) (s : ParseState) (t : Tree) (s' : ParseState) : Prop :=
  ∃ ts, Took ts s s' ∧ phrase ts t ∧ CallsKnown s.functions t ∧ ∀ x ∈ ts, x.Short

def ReadsExpressions (step : Parse Tree) : Prop :=
  ∀ s t s', Lexed s → step s = .ok t s' → Found Expression s t s'

/-- a token other than a number is short -/
theorem short_of_kind {x : Token} {kind : TokenKind} (h : x.kind = kind) (hne : kind ≠ .number) : x.Short :=
  fun _ hnumber => absurd (h.symm.trans hnumber) hne

variable {s s' : ParseState} {t : Tree}

/-! ## Calls -/

/-- arguments were read up to a closing parenthesis -/
theorem arguments_sound {argument : Parse Tree} (harg : ReadsExpressions argument) {rounds : List Token}
    {found trees : List Tree} (hs : Lexed s)
    (h : arguments argument found rounds s = .ok trees s') :
    ∃ ts c new, trees = found.reverse ++ new ∧ c.kind = .closeParen ∧ Took (ts ++ [c]) s s' ∧ Arguments ts new ∧
      (∀ t ∈ new, CallsKnown s.functions t) ∧ ∀ x ∈ ts, x.Short := by
  induction rounds generalizing found s with
  | nil => cases h
  | cons round rounds ih =>
    rw [arguments] at h
    obtain ⟨tree, s1, harg1, h⟩ := Step.bind_eq_ok.1 h
    obtain ⟨separator, s2, hadvance, h⟩ := Step.bind_eq_ok.1 h
    obtain ⟨ts, htook, hexpr, hcalls, hshort⟩ := harg s tree s1 hs harg1
    have hsep := advance_eq_ok.1 hadvance
    split_ifs at h with hclose hcomma
    · obtain ⟨rfl, rfl⟩ := Step.pure_eq_ok.1 h
      refine ⟨ts, separator, [tree], by simp, hclose, htook.trans hsep, .one hexpr, ?_, hshort⟩
      simpa using hcalls
    · have htook2 := htook.trans hsep
      obtain ⟨us, c, new, rfl, hc, htook3, hmore, hcalls', hshort'⟩ := ih (htook2.rest hs) h
      refine ⟨ts ++ separator :: us, c, tree :: new, by simp, hc, ?_, .more hexpr hcomma hmore, ?_, ?_⟩
      · simpa using htook2.trans htook3
      · rw [htook2.functions] at hcalls'
        exact List.forall_mem_cons.2 ⟨hcalls, hcalls'⟩
      · refine List.forall_mem_append.2 ⟨hshort, List.forall_mem_cons.2 ⟨?_, hshort'⟩⟩
        exact short_of_kind hcomma (by decide)
    · cases h

/-- a call of a known function was read -/
theorem functionCall_sound {argument : Parse Tree} (harg : ReadsExpressions argument) (hs : Lexed s)
    (h : functionCall argument s = .ok t s') : Found Call s t s' := by
  rw [functionCall] at h
  obtain ⟨f, s1, hf, h⟩ := Step.bind_eq_ok.1 h
  obtain ⟨hfkind, hftook⟩ := expect_eq_ok.1 hf
  rw [Step.bind_of_ok (Step.get_apply _)] at h
  obtain ⟨signature, s2, hcheck, h⟩ := Step.bind_eq_ok.1 h
  obtain ⟨hlookup, rfl⟩ := checkAt_eq_ok.1 hcheck
  obtain ⟨o, s3, ho, h⟩ := Step.bind_eq_ok.1 h
  obtain ⟨hokind, hotook⟩ := expect_eq_ok.1 ho
  obtain ⟨next, s4, hcurrent, h⟩ := Step.bind_eq_ok.1 h
  obtain ⟨hhead, rfl⟩ := current_eq_ok.1 hcurrent
  have hstart : Took [f, o] s s3 := hftook.trans hotook
  have hknown : f.name ∈ s.functions.names := by
    rw [← hftook.functions]
    exact (FunctionTable.mem_of_lookup hlookup).2
  have hfshort := short_of_kind hfkind (by decide)
  have hoshort := short_of_kind hokind (by decide)
  split_ifs at h with hclose
  · obtain ⟨c, s5, hadvance, h⟩ := Step.bind_eq_ok.1 h
    obtain ⟨rfl, rfl⟩ := Step.pure_eq_ok.1 h
    obtain ⟨rfl, hctook⟩ := took_of_advance hhead hadvance
    refine ⟨[f, o, c], hstart.trans hctook, .empty hfkind hokind hclose,
      CallsKnown.call_iff.2 ⟨hknown, by simp⟩, ?_⟩
    simp [hfshort, hoshort, short_of_kind hclose (by decide)]
  · rw [Step.bind_of_ok (ahead_apply _)] at h
    obtain ⟨trees, s5, harguments, h⟩ := Step.bind_eq_ok.1 h
    obtain ⟨rfl, rfl⟩ := Step.pure_eq_ok.1 h
    obtain ⟨ts, c, new, rfl, hc, htook, hargs, hcalls, hshort⟩ :=
      arguments_sound harg (hstart.rest hs) harguments
    rw [hstart.functions] at hcalls
    refine ⟨f :: o :: (ts ++ [c]), hstart.trans htook, .filled hfkind hokind hargs hc,
      CallsKnown.call_iff.2 ⟨hknown, hcalls⟩, ?_⟩
    simp only [List.forall_mem_cons, List.forall_mem_append, List.not_mem_nil, false_imp_iff, implies_true, and_true]
    exact ⟨hfshort, hoshort, hshort, short_of_kind hc (by decide)⟩

/-! ## Operators -/

/-- no operator above the level comes next -/
def Bounded (level : Nat) (s : ParseState) : Prop :=
  ∀ x ∈ s.cursor.ahead.head?, x.kind.precedence ≤ level

/-- the step reads arithmetic above any threshold, to its end -/
def ReadsArithmetic (step : Nat → Parse Tree) : Prop :=
  ∀ threshold s t s', threshold ≤ 3 → Lexed s → step threshold s = .ok t s' →
    Found (Arithmetic (threshold + 1)) s t s' ∧ Bounded threshold s'

theorem arithmetic_of_le {level k : Nat} {ts : List Token} (h : Arithmetic level ts t) (hk : k ≤ level) :
    Arithmetic k ts t := by
  induction level, hk using Nat.le_induction with
  | base => exact h
  | succ level _ ih => exact ih (.lift h)

/-- a round of the loop: it stops, with rounds to spare only where nothing binds above the threshold, or takes an
operator -/
theorem operators_cases {right : Nat → Parse Tree} {threshold : Nat} {left : Tree} {rounds : List Token}
    (h : operators right threshold left rounds s = .ok t s') :
    (s.cursor.ahead.length ≤ rounds.length → Bounded threshold s) ∧ left = t ∧ s = s' ∨
    ∃ op o s1 tree s2 round rest, op.kind.operator? = some o ∧ threshold < op.kind.precedence ∧ Took [op] s s1 ∧
      right op.kind.precedence s1 = .ok tree s2 ∧ rounds = round :: rest ∧
      operators right threshold (.binary o left tree) rest s2 = .ok t s' := by
  cases rounds with
  | nil =>
    refine .inl ⟨?_, Step.pure_eq_ok.1 h⟩
    intro hrounds x hx
    have hnone : s.cursor.ahead = [] := List.length_eq_zero_iff.1 (Nat.le_zero.1 hrounds)
    simp [hnone] at hx
  | cons round rest =>
    rw [operators, Step.bind_of_ok (kindAt_zero _)] at h
    cases hahead : s.cursor.ahead with
    | nil =>
      simp only [hahead, List.head?_nil, Option.map_none] at h
      refine .inl ⟨?_, Step.pure_eq_ok.1 h⟩
      intro _ x hx
      simp [hahead] at hx
    | cons op tail =>
      simp only [hahead, List.head?_cons, Option.map_some] at h
      cases ho : op.kind.operator? with
      | none =>
        simp only [ho] at h
        refine .inl ⟨?_, Step.pure_eq_ok.1 h⟩
        intro _ x hx
        obtain rfl : op = x := by simpa [hahead] using hx
        rw [operator?_eq_none_iff.1 ho]
        exact Nat.zero_le _
      | some o =>
        simp only [ho] at h
        split_ifs at h with hle
        · refine .inl ⟨?_, Step.pure_eq_ok.1 h⟩
          intro _ x hx
          obtain rfl : op = x := by simpa [hahead] using hx
          exact hle
        · obtain ⟨op', s1, hadvance, h⟩ := Step.bind_eq_ok.1 h
          obtain ⟨tree, s2, hrun, h⟩ := Step.bind_eq_ok.1 h
          have hop := advance_eq_ok.1 hadvance
          obtain rfl : op = op' := by
            rw [hop.ahead] at hahead
            exact (List.cons.inj hahead).1.symm
          exact .inr ⟨op, o, s1, tree, s2, round, rest, ho, Nat.not_le.1 hle, hop, hrun, rfl, h⟩

/-- the left side is a phrase of a level that the next operator does not exceed; so it is after every round -/
theorem operators_sound {right : Nat → Parse Tree} (hright : ReadsArithmetic right) {threshold level : Nat}
    {rounds ls : List Token} {start : ParseState} {left : Tree} (hlevel : threshold < level) (hs : Lexed s)
    (hrounds : s.cursor.ahead.length ≤ rounds.length) (htook : Took ls start s) (hleft : Arithmetic level ls left)
    (hcalls : CallsKnown start.functions left) (hshort : ∀ x ∈ ls, x.Short) (hnext : Bounded level s)
    (h : operators right threshold left rounds s = .ok t s') :
    Found (Arithmetic (threshold + 1)) start t s' ∧ Bounded threshold s' := by
  induction rounds generalizing level ls left s with
  | nil =>
    rcases operators_cases h with ⟨hbound, rfl, rfl⟩ | ⟨_, _, _, _, _, _, _, _, _, _, _, hnil, _⟩
    · exact ⟨⟨ls, htook, arithmetic_of_le hleft hlevel, hcalls, hshort⟩, hbound hrounds⟩
    · cases hnil
  | cons round rounds ih =>
    rcases operators_cases h with
      ⟨hbound, rfl, rfl⟩ | ⟨op, o, s1, tree, s2, _, _, ho, hlt, hop, hrun, heq, h⟩
    · exact ⟨⟨ls, htook, arithmetic_of_le hleft hlevel, hcalls, hshort⟩, hbound hrounds⟩
    · cases heq
      obtain ⟨⟨rs, hrtook, hr, hrcalls, hrshort⟩, hbound⟩ :=
        hright _ s1 tree s2 (precedence_le _) (hop.rest hs) hrun
      have hopLevel : op.kind.precedence ≤ level := hnext op (by simp [hop.ahead])
      rw [hop.functions, htook.functions] at hrcalls
      have hlen : s2.cursor.ahead.length ≤ rounds.length := by
        have h1 := hop.length
        have h2 := hrtook.length
        simp only [List.length_cons, List.length_nil] at h1 hrounds
        omega
      refine ih hlt (hrtook.rest (hop.rest hs)) hlen (htook.trans (hop.cons hrtook))
        (.binary ho rfl (arithmetic_of_le hleft hopLevel) hr) (CallsKnown.binary_iff.2 ⟨hcalls, hrcalls⟩) ?_ hbound h
      refine List.forall_mem_append.2 ⟨hshort, List.forall_mem_cons.2 ⟨?_, hrshort⟩⟩
      exact short_of_kind rfl (by rintro hnumber; simp [hnumber, TokenKind.operator?] at ho)

/-- a loop whose left side is no lone variable or call gives none -/
theorem operators_isLeaf {right : Nat → Parse Tree} {threshold : Nat} {rounds : List Token} {left : Tree}
    (hleft : left.isLeaf = false) (h : operators right threshold left rounds s = .ok t s') : t.isLeaf = false := by
  induction rounds generalizing left s with
  | nil =>
    obtain ⟨rfl, rfl⟩ := Step.pure_eq_ok.1 h
    exact hleft
  | cons round rounds ih =>
    rcases operators_cases h with ⟨_, rfl, rfl⟩ | ⟨_, _, _, _, _, _, _, _, _, _, _, heq, h⟩
    · exact hleft
    · cases heq
      exact ih rfl h

/-! ## Operands -/

/-- what the readers of one depth read -/
structure SoundAt (depth : Nat) : Prop where
  expression : ReadsExpressions (expression depth)
  arithmetic : ReadsArithmetic (arithmetic depth)
  operand : ∀ s t s', Lexed s → operand depth s = .ok t s' → Found (Arithmetic 4) s t s'

variable {x : Token}

theorem numberLiteral_sound (hs : Lexed s) (hhead : s.cursor.ahead.head? = some x) (hkind : x.kind = .number)
    (h : numberLiteral x s = .ok t s') : Found (Arithmetic 4) s t s' := by
  rw [numberLiteral] at h
  obtain ⟨y, s1, hadvance, h⟩ := Step.bind_eq_ok.1 h
  obtain ⟨rfl, htook⟩ := took_of_advance hhead hadvance
  obtain ⟨digits, hdigits, hvalue⟩ := (hs y (htook.mem (by simp))).integer? hkind
  simp only [hdigits] at h
  split_ifs at hvalue with hlen
  · simp only [hvalue] at h
    obtain ⟨rfl, rfl⟩ := Step.pure_eq_ok.1 h
    refine ⟨[y], htook, .number hkind hdigits, CallsKnown.of_no_calls rfl rfl, ?_⟩
    rintro z hz digits' _ hdigits'
    obtain rfl := List.mem_singleton.1 hz
    obtain rfl := Option.some.inj (hdigits.symm.trans hdigits')
    exact hlen
  · simp only [hvalue] at h
    cases h

theorem callOperand_sound {argument : Parse Tree} (harg : ReadsExpressions argument) (hs : Lexed s)
    (h : callOperand argument s = .ok t s') : Found (Arithmetic 4) s t s' := by
  rw [callOperand] at h
  obtain ⟨name, s1, hcurrent, h⟩ := Step.bind_eq_ok.1 h
  obtain ⟨hhead, rfl⟩ := current_eq_ok.1 hcurrent
  obtain ⟨call, s2, hcall, h⟩ := Step.bind_eq_ok.1 h
  rw [Step.bind_of_ok (Step.get_apply _)] at h
  obtain ⟨signature, s3, hcheck, h⟩ := Step.bind_eq_ok.1 h
  obtain ⟨hlookup, rfl⟩ := checkAt_eq_ok.1 hcheck
  split_ifs at h with hint
  · obtain ⟨rfl, rfl⟩ := Step.pure_eq_ok.1 h
    obtain ⟨ts, htook, hderives, hcalls, hshort⟩ := functionCall_sound harg hs hcall
    refine ⟨ts, htook, .call hderives, ?_, hshort⟩
    obtain ⟨f, o, rest, trees, rfl, _, _, rfl⟩ := hderives.head
    obtain rfl : f = name := by simpa [htook.ahead] using hhead
    rw [htook.functions] at hlookup
    exact CallsKnown.callOperand_iff.2 ⟨⟨signature, (FunctionTable.mem_of_lookup hlookup).1, hint⟩, hcalls⟩
  · cases h

/-- an operand behind a sign -/
theorem signed_sound {depth : Nat} (ih : SoundAt depth) (hs : Lexed s) {sign : Tree → Tree}
    (hhead : s.cursor.ahead.head? = some x) (hkind : x.kind ≠ .number)
    (hderives : ∀ {ts t}, Arithmetic 4 ts t → Arithmetic 4 (x :: ts) (sign t))
    (hcalls : ∀ {functions t}, CallsKnown functions t → CallsKnown functions (sign t))
    (h : (advance >>= fun _ => operand depth >>= fun t => pure (sign t)) s = .ok t s') :
    Found (Arithmetic 4) s t s' := by
  obtain ⟨y, s2, hadvance, h⟩ := Step.bind_eq_ok.1 h
  obtain ⟨rfl, hsign⟩ := took_of_advance hhead hadvance
  obtain ⟨inner, s3, hrun, h⟩ := Step.bind_eq_ok.1 h
  obtain ⟨rfl, rfl⟩ := Step.pure_eq_ok.1 h
  obtain ⟨ts, htook, hinner, hknown, hshort⟩ := ih.operand s2 inner s3 (hsign.rest hs) hrun
  rw [hsign.functions] at hknown
  exact ⟨y :: ts, hsign.cons htook, hderives hinner, hcalls hknown,
    List.forall_mem_cons.2 ⟨short_of_kind rfl hkind, hshort⟩⟩

theorem operand_sound {depth : Nat} (ih : SoundAt depth) (hs : Lexed s) (h : operand (depth + 1) s = .ok t s') :
    Found (Arithmetic 4) s t s' := by
  rw [operand] at h
  obtain ⟨x, s1, hcurrent, h⟩ := Step.bind_eq_ok.1 h
  obtain ⟨hhead, rfl⟩ := current_eq_ok.1 hcurrent
  cases hkind : x.kind with
  | number =>
    simp only [hkind] at h
    exact numberLiteral_sound hs hhead hkind h
  | name =>
    simp only [hkind] at h
    rw [Step.bind_of_ok (kindAt_one _)] at h
    split_ifs at h with hparen
    · exact callOperand_sound ih.expression hs h
    · obtain ⟨y, s2, hadvance, h⟩ := Step.bind_eq_ok.1 h
      obtain ⟨rfl, rfl⟩ := Step.pure_eq_ok.1 h
      obtain ⟨rfl, htook⟩ := took_of_advance hhead hadvance
      refine ⟨[y], htook, .name hkind, CallsKnown.of_no_calls rfl rfl, ?_⟩
      simpa using short_of_kind hkind (by decide)
  | openParen =>
    simp only [hkind] at h
    obtain ⟨o, s2, hadvance, h⟩ := Step.bind_eq_ok.1 h
    obtain ⟨rfl, hopen⟩ := took_of_advance hhead hadvance
    obtain ⟨inner, s3, hrun, h⟩ := Step.bind_eq_ok.1 h
    obtain ⟨c, s4, hexpect, h⟩ := Step.bind_eq_ok.1 h
    obtain ⟨hc, hclose⟩ := expect_eq_ok.1 hexpect
    obtain ⟨rfl, rfl⟩ := Step.pure_eq_ok.1 h
    obtain ⟨⟨ts, htook, hderives, hcalls, hshort⟩, _⟩ :=
      ih.arithmetic 0 s2 inner s3 (Nat.zero_le _) (hopen.rest hs) hrun
    rw [hopen.functions] at hcalls
    refine ⟨o :: (ts ++ [c]), hopen.cons (htook.trans hclose), .group hkind hderives hc, hcalls, ?_⟩
    simp only [List.forall_mem_cons, List.forall_mem_append, List.not_mem_nil, false_imp_iff, implies_true, and_true]
    exact ⟨short_of_kind hkind (by decide), hshort, short_of_kind hc (by decide)⟩
  | plus =>
    simp only [hkind] at h
    exact signed_sound ih hs hhead (by simp [hkind]) (.positive hkind) (fun h => h.same rfl rfl) h
  | minus =>
    simp only [hkind] at h
    exact signed_sound ih hs hhead (by simp [hkind]) (.negative hkind) (fun h => h.same rfl rfl) h
  | _ =>
    simp only [hkind] at h
    cases h

theorem arithmetic_sound {depth threshold : Nat} (ih : SoundAt depth) (hthreshold : threshold ≤ 3) (hs : Lexed s)
    (h : arithmetic (depth + 1) threshold s = .ok t s') :
    Found (Arithmetic (threshold + 1)) s t s' ∧ Bounded threshold s' := by
  rw [arithmetic] at h
  obtain ⟨left, s1, hoperand, h⟩ := Step.bind_eq_ok.1 h
  rw [Step.bind_of_ok (ahead_apply _)] at h
  obtain ⟨ls, htook, hderives, hcalls, hshort⟩ := ih.operand s left s1 hs hoperand
  refine operators_sound ih.arithmetic (Nat.lt_succ_of_le hthreshold) (htook.rest hs) le_rfl htook hderives hcalls
    hshort ?_ h
  exact fun x _ => (precedence_le _).trans (by decide)

/-! ## Whole expressions -/

/-- a lone variable or call without parentheses is one name, or one call -/
theorem arithmetic_leaf {level : Nat} {ts : List Token} {t : Tree} : Arithmetic level ts t → t.isLeaf = true →
    ts.head?.map Token.kind = some .openParen ∨ (∃ x, ts = [x] ∧ x.kind = .name) ∨ ∃ c, Call ts c
  | .binary _ _ _ _, hleaf => by cases hleaf
  | .lift h, hleaf => arithmetic_leaf h hleaf
  | .number _ _, hleaf => by cases hleaf
  | .name hkind, _ => .inr (.inl ⟨_, rfl, hkind⟩)
  | .call h, _ => .inr (.inr ⟨_, h⟩)
  | .group ho _ _, _ => .inl (by simp [ho])
  | .positive _ _, hleaf => by cases hleaf
  | .negative _ _, hleaf => by cases hleaf

/-- arithmetic told by its first two tokens: it is a lone variable or call only in parentheses -/
theorem head_of_startsArithmetic {ts : List Token} (hhead : s.cursor.ahead.head? = some x)
    (hstarts : startsArithmetic x.kind (s.cursor.ahead.tail.head?.map Token.kind) = true) (htook : Took ts s s')
    (hderives : Arithmetic 1 ts t) (hbound : Bounded 0 s') (hleaf : t.isLeaf = true) :
    ts.head?.map Token.kind = some .openParen := by
  rcases arithmetic_leaf hderives hleaf with hparen | ⟨y, rfl, hy⟩ | ⟨c, hcall⟩
  · exact hparen
  · obtain rfl : y = x := by simpa [htook.ahead] using hhead
    simp only [htook.ahead, hy, startsArithmetic, List.cons_append, List.nil_append, List.tail_cons] at hstarts
    cases hnext : s'.cursor.ahead with
    | nil => simp [hnext] at hstarts
    | cons z rest =>
      have hz := hbound z (by simp [hnext])
      simp [hnext, operator?_eq_none_iff.2 (Nat.le_zero.1 hz)] at hstarts
  · obtain ⟨f, o, rest, trees, rfl, hf, ho, _⟩ := hcall.head
    obtain rfl : f = x := by simpa [htook.ahead] using hhead
    simp [htook.ahead, hf, ho, startsArithmetic, TokenKind.operator?] at hstarts

/-- a call in front of an operator, read again as arithmetic, is the first operand -/
theorem isLeaf_of_reread {passed cs rest : List Token} {functions : FunctionTable} {finished : List Tree}
    {declared : Option (List Name)} {f o op : Token} {operator : BinaryOp} {c : Tree} {depth levels : Nat}
    (hf : f.kind = .name) (ho : o.kind = .openParen) (hoperator : op.kind.operator? = some operator)
    (hcall : ∀ rest, Accepts functions levels callAt (f :: o :: cs) rest c)
    (h : arithmetic depth 0 ⟨⟨passed, f :: o :: cs ++ op :: rest⟩, functions, finished, declared⟩ = .ok t s') :
    t.isLeaf = false := by
  rcases depth with _ | _ | depth
  · cases h
  · cases h
  · rw [arithmetic] at h
    obtain ⟨left, s1, hoperand, h⟩ := Step.bind_eq_ok.1 h
    rw [Step.bind_of_ok (ahead_apply _)] at h
    have hs1 : s1.cursor.ahead = op :: rest := by
      rw [operand, List.cons_append, List.cons_append, Step.bind_of_ok current_cons] at hoperand
      simp only [hf] at hoperand
      rw [Step.bind_of_ok (kindAt_one _), if_pos (by simp [ho]), callOperand, Step.bind_of_ok current_cons] at hoperand
      obtain ⟨call, s2, hrun, hoperand⟩ := Step.bind_eq_ok.1 hoperand
      have hs2 : s2.cursor.ahead = op :: rest := by
        rcases hcall (op :: rest) depth passed finished declared with hok | ⟨-, e, hdeep⟩
        · cases hok.symm.trans hrun
          rfl
        · cases hdeep.symm.trans hrun
      rw [Step.bind_of_ok (Step.get_apply _)] at hoperand
      obtain ⟨signature, s3, hcheck, hoperand⟩ := Step.bind_eq_ok.1 hoperand
      obtain ⟨_, rfl⟩ := checkAt_eq_ok.1 hcheck
      split_ifs at hoperand
      · obtain ⟨_, rfl⟩ := Step.pure_eq_ok.1 hoperand
        exact hs2
      · cases hoperand
    rcases operators_cases h with ⟨hbound, _⟩ | ⟨_, _, _, _, _, _, _, _, _, _, _, _, h⟩
    · have hop := hbound le_rfl op (by simp [hs1])
      rw [operator?_eq_none_iff.2 (Nat.le_zero.1 hop)] at hoperator
      cases hoperator
    · exact operators_isLeaf rfl h

/-- a call in front of an operator leads to arithmetic from the call on -/
theorem reread_sound {cs : List Token} {c : Tree} {depth : Nat} (ih : SoundAt depth) (hs : Lexed s) {s1 : ParseState}
    (htook : Took cs s s1) (hcall : Call cs c) (hcalls : CallsKnown s.functions c) (hshort : ∀ x ∈ cs, x.Short)
    (hoperator : ((s1.cursor.ahead.head?.map Token.kind).bind TokenKind.operator?).isSome = true)
    (h : arithmetic depth 0 s = .ok t s') : Found Expression s t s' := by
  obtain ⟨⟨ts, htook', hderives, hcalls', hshort'⟩, _⟩ := ih.arithmetic 0 s t s' (Nat.zero_le _) hs h
  have hfit : Fit cs := fun x hx => ⟨hs x (htook.mem hx), hshort x hx⟩
  obtain ⟨_, haccepts⟩ := call_complete hcall hcalls hfit
  obtain ⟨f, o, cs, trees, rfl, hf, ho, rfl⟩ := hcall.head
  have hleaf : t.isLeaf = false := by
    obtain ⟨⟨passed, tokens⟩, functions, finished, declared⟩ := s
    cases hnext : s1.cursor.ahead with
    | nil => simp [hnext] at hoperator
    | cons op rest =>
      obtain ⟨operator, hop⟩ : ∃ operator, op.kind.operator? = some operator := by
        simpa [hnext, Option.isSome_iff_exists] using hoperator
      obtain rfl : tokens = f :: o :: cs ++ op :: rest := hnext ▸ htook.ahead
      exact isLeaf_of_reread hf ho hop haccepts h
  refine ⟨ts, htook', .arithmetic hderives ?_, hcalls', hshort'⟩
  intro hleaf'
  rw [hleaf] at hleaf'
  cases hleaf'

theorem expression_sound {depth : Nat} (ih : SoundAt depth) (hs : Lexed s)
    (h : expression (depth + 1) s = .ok t s') : Found Expression s t s' := by
  rw [expression] at h
  obtain ⟨x, s1, hcurrent, h⟩ := Step.bind_eq_ok.1 h
  obtain ⟨hhead, rfl⟩ := current_eq_ok.1 hcurrent
  rw [Step.bind_of_ok (kindAt_one _)] at h
  split_ifs at h with hstarts hname
  · obtain ⟨⟨ts, htook, hderives, hcalls, hshort⟩, hbound⟩ := ih.arithmetic 0 s t s' (Nat.zero_le _) hs h
    have hleaf := head_of_startsArithmetic hhead hstarts htook hderives hbound
    exact ⟨ts, htook, .arithmetic hderives hleaf, hcalls, hshort⟩
  · rw [Step.bind_of_ok (kindAt_back _)] at h
    split_ifs at h with hparen
    · obtain ⟨call, s2, hcall, h⟩ := callExpression_eq_ok h
      obtain ⟨cs, htook, hderives, hcalls, hshort⟩ := functionCall_sound ih.expression hs hcall
      split_ifs at h with hoperator
      · have hback : ({ s2 with cursor := s.cursor } : ParseState) = s := by
          rw [htook.functions, htook.finished, htook.declared]
        rw [hback] at h
        exact reread_sound ih hs htook hderives hcalls hshort hoperator h
      · cases h
        exact ⟨cs, htook, .call hderives, hcalls, hshort⟩
    · obtain ⟨y, s2, hadvance, h⟩ := Step.bind_eq_ok.1 h
      obtain ⟨rfl, rfl⟩ := Step.pure_eq_ok.1 h
      obtain ⟨rfl, htook⟩ := took_of_advance hhead hadvance
      refine ⟨[y], htook, .ident hname, CallsKnown.of_no_calls rfl rfl, ?_⟩
      simpa using short_of_kind hname (by decide)
  · cases h

/-- the readers of every depth read expressions, arithmetic and operands only -/
theorem soundAt (depth : Nat) : SoundAt depth := by
  induction depth with
  | zero =>
    constructor
    · intro s t s' _ h
      cases h
    · intro threshold s t s' _ _ h
      cases h
    · intro s t s' _ h
      cases h
  | succ depth ih =>
    constructor
    · intro s t s' hs h
      exact expression_sound ih hs h
    · intro threshold s t s' hthreshold hs h
      exact arithmetic_sound ih hthreshold hs h
    · intro s t s' hs h
      exact operand_sound ih hs h

end StackLang.Parse
