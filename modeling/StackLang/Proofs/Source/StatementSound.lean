/-
Only derivable statements are read.

What was read as a statement of a body is one of the plain forms, and a declaration among them declares a variable
that is new in the body (`block_sound`). What was read as a definition derives one and keeps its rules, and exactly
then it is in the table (`definition_sound`). `Stated` says what a statement leaves behind.
-/
import StackLang.Proofs.Source.ExpressionSound

namespace StackLang

namespace Parse

open Grammar

variable {s s' : ParseState} {t : Tree} {x : Token} {depth : Nat}

/-! ## Plain statements -/

/-- an expression and its semicolon were read after the tokens in front of them -/
theorem valueToSemicolon_sound {front : List Token} {start : ParseState} (hs : Lexed start)
    (hfront : Took front start s) (hfrontShort : ∀ x ∈ front, x.Short) (h : valueToSemicolon depth s = .ok t s') :
    ∃ ts c, c.kind = .semicolon ∧ Took (front ++ (ts ++ [c])) start s' ∧ Expression ts t ∧
      CallsKnown start.functions t ∧ ∀ x ∈ front ++ (ts ++ [c]), x.Short := by
  rw [valueToSemicolon] at h
  obtain ⟨value, s1, hvalue, h⟩ := Step.bind_eq_ok.1 h
  obtain ⟨c, s2, hexpect, h⟩ := Step.bind_eq_ok.1 h
  obtain ⟨rfl, rfl⟩ := Step.pure_eq_ok.1 h
  obtain ⟨hc, hctook⟩ := expect_eq_ok.1 hexpect
  obtain ⟨ts, htook, hderives, hcalls, hshort⟩ := (soundAt depth).expression s value s1 (hfront.rest hs) hvalue
  rw [hfront.functions] at hcalls
  refine ⟨ts, c, hc, hfront.trans (htook.trans hctook), hderives, hcalls, ?_⟩
  have hcshort : ∀ x ∈ [c], x.Short := by simpa using short_of_kind hc (by decide)
  exact List.forall_mem_append.2 ⟨hfrontShort, List.forall_mem_append.2 ⟨hshort, hcshort⟩⟩

/-- the rest of a declaration was read after its first word -/
theorem declaration_sound {l name : Token} {start : ParseState} (hs : Lexed start) (hl : l.kind = .letWord)
    (hltook : Took [l] start s) (h : declaration depth s = .ok (name, t) s') :
    Found Plain start t s' ∧ t.declared? = some name.name ∧ t.isDefinition = false := by
  rw [declaration] at h
  obtain ⟨x, s1, hexpect, h⟩ := Step.bind_eq_ok.1 h
  obtain ⟨hx, hxtook⟩ := expect_eq_ok.1 hexpect
  obtain ⟨type, s2, hexpect, h⟩ := Step.bind_eq_ok.1 h
  obtain ⟨htype, httook⟩ := expect_eq_ok.1 hexpect
  obtain ⟨e, s3, hexpect, h⟩ := Step.bind_eq_ok.1 h
  obtain ⟨he, hetook⟩ := expect_eq_ok.1 hexpect
  obtain ⟨value, s4, hvalue, h⟩ := Step.bind_eq_ok.1 h
  obtain ⟨heq, rfl⟩ := Step.pure_eq_ok.1 h
  obtain ⟨rfl, rfl⟩ := Prod.mk.inj heq
  have hfront : Took [l, x, type, e] start s3 := hltook.trans (hxtook.trans (httook.trans hetook))
  have hfrontShort : ∀ y ∈ [l, x, type, e], y.Short := by
    simp [short_of_kind hl (by decide), short_of_kind hx (by decide), short_of_kind htype (by decide),
      short_of_kind he (by decide)]
  obtain ⟨ts, c, hc, htook, hderives, hcalls, hshort⟩ := valueToSemicolon_sound hs hfront hfrontShort hvalue
  exact ⟨⟨_, htook, .declare hl hx htype he hderives hc, hcalls.same rfl rfl, hshort⟩, rfl, rfl⟩

/-- a statement that is neither a declaration nor a definition was read -/
theorem plainStatement_sound (hs : Lexed s) (hhead : s.cursor.ahead.head? = some x)
    (h : plainStatement depth x s = .ok t s') :
    Found Plain s t s' ∧ t.declared? = none ∧ t.isDefinition = false := by
  rw [plainStatement] at h
  cases hkind : x.kind with
  | returnWord =>
    simp only [hkind] at h
    obtain ⟨r, s1, hadvance, h⟩ := Step.bind_eq_ok.1 h
    obtain ⟨rfl, hr⟩ := took_of_advance hhead hadvance
    obtain ⟨value, s2, hvalue, h⟩ := Step.bind_eq_ok.1 h
    obtain ⟨rfl, rfl⟩ := Step.pure_eq_ok.1 h
    have hrshort : ∀ y ∈ [r], y.Short := by simp [short_of_kind hkind (by decide)]
    obtain ⟨ts, c, hc, htook, hderives, hcalls, hshort⟩ := valueToSemicolon_sound hs hr hrshort hvalue
    exact ⟨⟨_, htook, .ret hkind hderives hc, hcalls.same rfl rfl, hshort⟩, rfl, rfl⟩
  | name =>
    simp only [hkind] at h
    rw [Step.bind_of_ok (kindAt_one _)] at h
    generalize hnext : s.cursor.ahead.tail.head?.map Token.kind = next at h
    rcases next with _ | kind
    · cases h
    cases kind with
    | equals =>
      obtain ⟨x', s1, hadvance, h⟩ := Step.bind_eq_ok.1 h
      obtain ⟨rfl, hx⟩ := took_of_advance hhead hadvance
      obtain ⟨e, s2, hadvance, h⟩ := Step.bind_eq_ok.1 h
      have he := advance_eq_ok.1 hadvance
      have hekind : e.kind = .equals := by simpa [hx.ahead, he.ahead] using hnext
      obtain ⟨value, s3, hvalue, h⟩ := Step.bind_eq_ok.1 h
      obtain ⟨rfl, rfl⟩ := Step.pure_eq_ok.1 h
      have hfrontShort : ∀ y ∈ [x', e], y.Short := by
        simp [short_of_kind hkind (by decide), short_of_kind hekind (by decide)]
      obtain ⟨ts, c, hc, htook, hderives, hcalls, hshort⟩ :=
        valueToSemicolon_sound hs (hx.trans he) hfrontShort hvalue
      exact ⟨⟨_, htook, .assign hkind hekind hderives hc, hcalls.same rfl rfl, hshort⟩, rfl, rfl⟩
    | plus =>
      obtain ⟨x', s1, hadvance, h⟩ := Step.bind_eq_ok.1 h
      obtain ⟨rfl, hx⟩ := took_of_advance hhead hadvance
      obtain ⟨p, s2, hadvance, h⟩ := Step.bind_eq_ok.1 h
      have hp := advance_eq_ok.1 hadvance
      have hpkind : p.kind = .plus := by simpa [hx.ahead, hp.ahead] using hnext
      obtain ⟨e, s3, hexpect, h⟩ := Step.bind_eq_ok.1 h
      obtain ⟨hekind, he⟩ := expect_eq_ok.1 hexpect
      obtain ⟨value, s4, hvalue, h⟩ := Step.bind_eq_ok.1 h
      obtain ⟨rfl, rfl⟩ := Step.pure_eq_ok.1 h
      have hfrontShort : ∀ y ∈ [x', p, e], y.Short := by
        simp [short_of_kind hkind (by decide), short_of_kind hpkind (by decide), short_of_kind hekind (by decide)]
      obtain ⟨ts, c, hc, htook, hderives, hcalls, hshort⟩ :=
        valueToSemicolon_sound hs (hx.trans (hp.trans he)) hfrontShort hvalue
      exact ⟨⟨_, htook, .addAssign hkind hpkind hekind hderives hc, hcalls.same rfl rfl, hshort⟩, rfl, rfl⟩
    | openParen =>
      obtain ⟨call, s1, hcall, h⟩ := Step.bind_eq_ok.1 h
      obtain ⟨c, s2, hexpect, h⟩ := Step.bind_eq_ok.1 h
      obtain ⟨hc, hctook⟩ := expect_eq_ok.1 hexpect
      obtain ⟨rfl, rfl⟩ := Step.pure_eq_ok.1 h
      obtain ⟨ts, htook, hderives, hcalls, hshort⟩ := functionCall_sound (soundAt depth).expression hs hcall
      refine ⟨⟨ts ++ [c], htook.trans hctook, .call hderives hc, hcalls, ?_⟩, ?_⟩
      · refine List.forall_mem_append.2 ⟨hshort, ?_⟩
        simpa using short_of_kind hc (by decide)
      · obtain ⟨f, o, rest, trees, _, _, _, rfl⟩ := hderives.head
        exact ⟨rfl, rfl⟩
    | _ => cases h
  | _ =>
    simp only [hkind] at h
    cases h

/-! ## Bodies -/

/-- a statement other than a definition was read; inside a body it declares nothing old -/
structure FoundPlain (s : ParseState) (t : Tree) (s' : ParseState) : Prop where
  found : Found Plain s t { s' with declared := s.declared }
  plain : t.isDefinition = false
  declared : s'.declared = s.declared.map (t.declared?.toList ++ ·)
  fresh : ∀ names ∈ s.declared, ∀ x ∈ t.declared?, x ∉ names

theorem FoundPlain.ofFound (h : Found Plain s t s') (hnone : t.declared? = none) (ht : t.isDefinition = false) :
    FoundPlain s t s' := by
  obtain ⟨ts, htook, hrest⟩ := h
  have hsame := htook.declared
  exact ⟨⟨ts, htook.redeclared s.declared, hrest⟩, ht, by simp [hsame, hnone], by simp [hnone]⟩

/-- the rest of a declaration was read after its first word -/
theorem newVariable_sound {l : Token} {start : ParseState} (hs : Lexed start) (hl : l.kind = .letWord)
    (hltook : Took [l] start s) (h : newVariable depth s = .ok t s') : FoundPlain start t s' := by
  rw [newVariable] at h
  obtain ⟨⟨name, tree⟩, s1, hdeclaration, h⟩ := Step.bind_eq_ok.1 h
  obtain ⟨_, s2, hdeclare, h⟩ := Step.bind_eq_ok.1 h
  obtain ⟨rfl, rfl⟩ := Step.pure_eq_ok.1 h
  obtain ⟨⟨ts, htook, hrest⟩, hsome, hdefinition⟩ := declaration_sound hs hl hltook hdeclaration
  obtain ⟨hnew, rfl⟩ := declare_eq_ok.1 hdeclare
  have hsame := htook.declared
  refine ⟨⟨ts, htook.redeclared start.declared, hrest⟩, hdefinition, by simp [hsame, hsome], ?_⟩
  intro names hnames y hy
  obtain rfl : name.name = y := Option.some.inj (hsome.symm.trans hy)
  exact hnew names (hsame ▸ hnames)

/-- a statement of a body was read -/
theorem bodyStatement_sound (hs : Lexed s) (h : bodyStatement depth s = .ok t s') : FoundPlain s t s' := by
  rw [bodyStatement] at h
  obtain ⟨x, s1, hcurrent, h⟩ := Step.bind_eq_ok.1 h
  obtain ⟨hhead, rfl⟩ := current_eq_ok.1 hcurrent
  cases hkind : x.kind with
  | funWord =>
    simp only [hkind] at h
    cases h
  | letWord =>
    simp only [hkind] at h
    obtain ⟨l, s1, hadvance, h⟩ := Step.bind_eq_ok.1 h
    obtain ⟨rfl, hltook⟩ := took_of_advance hhead hadvance
    exact newVariable_sound hs hkind hltook h
  | _ =>
    simp only [hkind] at h
    obtain ⟨hfound, hnone, hdefinition⟩ := plainStatement_sound hs hhead h
    exact .ofFound hfound hnone hdefinition

/-- the statements of a body were read up to its closing brace -/
theorem block_sound {names : List Name} {found trees : List Tree} {rounds : List Token} (hs : Lexed s)
    (hnames : s.declared = some names) (h : block depth found rounds s = .ok trees s') :
    ∃ ts e new, trees = found.reverse ++ new ∧ e.kind = .closeBrace ∧
      Took (ts ++ [e]) s { s' with declared := s.declared } ∧ Row Plain ts new ∧
      (∀ t ∈ new, CallsKnown s.functions t) ∧ (∀ x ∈ ts, x.Short) ∧ Fresh names new := by
  induction rounds generalizing names found s with
  | nil => cases h
  | cons round rounds ih =>
    rw [block] at h
    obtain ⟨x, s1, hcurrent, h⟩ := Step.bind_eq_ok.1 h
    obtain ⟨hhead, rfl⟩ := current_eq_ok.1 hcurrent
    split_ifs at h with hclose
    · obtain ⟨e, s1, hadvance, h⟩ := Step.bind_eq_ok.1 h
      obtain ⟨rfl, he⟩ := took_of_advance hhead hadvance
      obtain ⟨rfl, rfl⟩ := Step.pure_eq_ok.1 h
      exact ⟨[], e, [], by simp, hclose, he.redeclared s.declared, .nil, by simp, by simp, trivial⟩
    · obtain ⟨tree, s1, hstatement, h⟩ := Step.bind_eq_ok.1 h
      have hread := bodyStatement_sound hs hstatement
      obtain ⟨ts, htook, hplain, hcalls, hshort⟩ := hread.found
      have hnames' : s1.declared = some (tree.declared?.toList ++ names) := by simp [hread.declared, hnames]
      have hlexed : Lexed s1 := htook.rest hs
      obtain ⟨us, e, new, rfl, he, htook', hrow, hcalls', hshort', hfresh⟩ := ih hlexed hnames' h
      have hcalls'' : ∀ t ∈ new, CallsKnown s.functions t := htook.functions ▸ hcalls'
      refine ⟨ts ++ us, e, tree :: new, by simp, he, ?_, .cons hplain hrow, List.forall_mem_cons.2 ⟨hcalls, hcalls''⟩,
        List.forall_mem_append.2 ⟨hshort, hshort'⟩, hread.fresh names hnames, hfresh⟩
      simpa using htook.trans (htook'.redeclared s.declared)

/-- a body was read to its end, and nothing is declared behind it -/
theorem body_sound {parameters : List Parameter} {trees : List Tree} (hs : Lexed s) (hout : s.declared = none)
    (h : body depth parameters s = .ok trees s') :
    ∃ ts e, e.kind = .closeBrace ∧ Took (ts ++ [e]) s s' ∧ Row Plain ts trees ∧
      (∀ t ∈ trees, CallsKnown s.functions t) ∧ (∀ x ∈ ts, x.Short) ∧ Fresh (parameters.map (·.name)) trees := by
  have hlexed : Lexed { s with declared := some (parameters.map (·.name)) } := hs
  obtain ⟨t, hblock, rfl⟩ := Step.leaving_eq_ok.1 h
  rw [Step.bind_of_ok (Step.modify_apply _ _), Step.bind_of_ok (ahead_apply _)] at hblock
  obtain ⟨ts, e, new, rfl, he, htook, hrow, hcalls, hshort, hfresh⟩ := block_sound hlexed rfl hblock
  have hsame : ({ s with declared := none } : ParseState) = s := by rw [← hout]
  have houtside := htook.redeclared none
  dsimp only at houtside
  rw [hsame] at houtside
  exact ⟨ts, e, he, houtside, hrow, hcalls, hshort, hfresh⟩

/-! ## Definitions -/

/-- parameters of distinct names were read up to the closing parenthesis -/
theorem parametersAfter_sound {found parameters : List Parameter} {rounds : List Token}
    (hfound : (found.map (·.name)).Nodup) (h : parametersAfter found rounds s = .ok parameters s') :
    ∃ ts c new, parameters = found.reverse ++ new ∧ c.kind = .closeParen ∧ Took (ts ++ [c]) s s' ∧ Parameters ts new ∧
      (∀ x ∈ ts, x.Short) ∧ (parameters.map (·.name)).Nodup := by
  induction rounds generalizing found s with
  | nil => cases h
  | cons round rounds ih =>
    rw [parametersAfter] at h
    obtain ⟨x, s1, hexpect, h⟩ := Step.bind_eq_ok.1 h
    obtain ⟨hx, hxtook⟩ := expect_eq_ok.1 hexpect
    obtain ⟨type, s2, hexpect, h⟩ := Step.bind_eq_ok.1 h
    obtain ⟨htype, httook⟩ := expect_eq_ok.1 hexpect
    have hshort : ∀ y ∈ [x, type], y.Short := by
      simp [short_of_kind hx (by decide), short_of_kind htype (by decide)]
    split_ifs at h with hmem
    · cases h
    have hnodup : ((⟨x.name, type.name⟩ :: found : List Parameter).map (·.name)).Nodup :=
      List.nodup_cons.2 ⟨hmem, hfound⟩
    obtain ⟨separator, s3, hadvance, h⟩ := Step.bind_eq_ok.1 h
    have hsep := advance_eq_ok.1 hadvance
    have hfront : Took [x, type, separator] s s3 := hxtook.trans (httook.trans hsep)
    split_ifs at h with hclose hcomma
    · obtain ⟨rfl, rfl⟩ := Step.pure_eq_ok.1 h
      refine ⟨[x, type], separator, [⟨x.name, type.name⟩], by simp, hclose, hfront, .one hx htype, hshort, ?_⟩
      rw [List.map_reverse, List.nodup_reverse]
      exact hnodup
    · obtain ⟨ts, c, new, rfl, hc, htook, hderives, hshort', hnodup'⟩ := ih hnodup h
      refine ⟨x :: type :: separator :: ts, c, ⟨x.name, type.name⟩ :: new, by simp, hc, hfront.trans htook,
        .more hx htype hcomma hderives, ?_, hnodup'⟩
      have hcommaShort := short_of_kind hcomma (by decide)
      exact List.forall_mem_cons.2 ⟨hshort x (by simp), List.forall_mem_cons.2 ⟨hshort type (by simp),
        List.forall_mem_cons.2 ⟨hcommaShort, hshort'⟩⟩⟩
    · cases h

theorem parameters_sound {ps : List Parameter} (h : parameters s = .ok ps s') :
    ∃ ts c, c.kind = .closeParen ∧ Took (ts ++ [c]) s s' ∧ (ts = [] ∧ ps = [] ∨ Parameters ts ps) ∧
      (∀ x ∈ ts, x.Short) ∧ (ps.map (·.name)).Nodup := by
  rw [parameters] at h
  obtain ⟨x, s1, hcurrent, h⟩ := Step.bind_eq_ok.1 h
  obtain ⟨hhead, rfl⟩ := current_eq_ok.1 hcurrent
  split_ifs at h with hclose
  · obtain ⟨c, s1, hadvance, h⟩ := Step.bind_eq_ok.1 h
    obtain ⟨rfl, hc⟩ := took_of_advance hhead hadvance
    obtain ⟨rfl, rfl⟩ := Step.pure_eq_ok.1 h
    exact ⟨[], c, hclose, hc, .inl ⟨rfl, rfl⟩, by simp, by simp⟩
  · rw [Step.bind_of_ok (ahead_apply _)] at h
    obtain ⟨ts, c, new, rfl, hc, htook, hderives, hshort, hnodup⟩ := parametersAfter_sound (by simp) h
    exact ⟨ts, c, hc, htook, .inr hderives, hshort, hnodup⟩

theorem returnType_sound {returns : Name} (h : returnType s = .ok returns s') :
    ∃ ts, Took ts s s' ∧ ReturnType ts returns ∧ ∀ x ∈ ts, x.Short := by
  rw [returnType] at h
  obtain ⟨x, s1, hcurrent, h⟩ := Step.bind_eq_ok.1 h
  obtain ⟨hhead, rfl⟩ := current_eq_ok.1 hcurrent
  cases hkind : x.kind with
  | name =>
    simp only [hkind] at h
    obtain ⟨type, s1, hadvance, h⟩ := Step.bind_eq_ok.1 h
    obtain ⟨rfl, htook⟩ := took_of_advance hhead hadvance
    obtain ⟨rfl, rfl⟩ := Step.pure_eq_ok.1 h
    refine ⟨[type], htook, .given hkind, ?_⟩
    simpa using short_of_kind hkind (by decide)
  | openBrace =>
    simp only [hkind] at h
    obtain ⟨rfl, rfl⟩ := Step.pure_eq_ok.1 h
    exact ⟨[], Took.refl s, .absent, by simp⟩
  | _ =>
    simp only [hkind] at h
    cases h

/-- what a statement leaves behind: its tokens are passed, a definition is entered, and inside a body a variable is
declared -/
structure Stated (ts : List Token) (t : Tree) (s s' : ParseState) : Prop where
  ahead : s.cursor.ahead = ts ++ s'.cursor.ahead
  passed : s'.cursor.passed = ts.reverse ++ s.cursor.passed
  functions : s'.functions = s.functions.after t
  finished : s'.finished = s.finished ++ [t].filter Tree.isDefinition
  declared : s'.declared = s.declared.map (t.declared?.toList ++ ·)

/-- a definition was read after its first word and entered into the table -/
theorem definition_sound {f : Token} {start : ParseState} (hs : Lexed start) (hout : start.declared = none)
    (hf : f.kind = .funWord) (hftook : Took [f] start s) (h : definition depth s = .ok t s') :
    ∃ ts, Stated ts t start s' ∧ Statement ts t ∧ StatementRules start.functions t ∧ ∀ x ∈ ts, x.Short := by
  rw [definition] at h
  obtain ⟨n, s1, hexpect, h⟩ := Step.bind_eq_ok.1 h
  obtain ⟨hn, hntook⟩ := expect_eq_ok.1 hexpect
  obtain ⟨o, s2, hexpect, h⟩ := Step.bind_eq_ok.1 h
  obtain ⟨ho, hotook⟩ := expect_eq_ok.1 hexpect
  obtain ⟨ps, s3, hparameters, h⟩ := Step.bind_eq_ok.1 h
  obtain ⟨pts, c, hc, hptook, hps, hpshort, hpnodup⟩ := parameters_sound hparameters
  obtain ⟨returns, s4, hreturns, h⟩ := Step.bind_eq_ok.1 h
  obtain ⟨rts, hrtook, hr, hrshort⟩ := returnType_sound hreturns
  obtain ⟨b, s5, hexpect, h⟩ := Step.bind_eq_ok.1 h
  obtain ⟨hb, hbtook⟩ := expect_eq_ok.1 hexpect
  obtain ⟨body, s6, hbody, h⟩ := Step.bind_eq_ok.1 h
  have hfront : Took (f :: n :: o :: (pts ++ c :: (rts ++ [b]))) start s5 := by
    simpa using hftook.trans (hntook.trans (hotook.trans (hptook.trans (hrtook.trans hbtook))))
  obtain ⟨bts, e, he, hetook, hrow, hcalls, hbshort, hfresh⟩ :=
    body_sound (hfront.rest hs) (hfront.declared.trans hout) hbody
  rw [hfront.functions] at hcalls
  rw [Step.bind_of_ok (Step.get_apply _)] at h
  obtain ⟨functions, s7, hcheck, h⟩ := Step.bind_eq_ok.1 h
  obtain ⟨hregistered, rfl⟩ := checkAt_eq_ok.1 hcheck
  obtain ⟨hreturnType, hparameterTypes, hnew, rfl⟩ := registered_eq_ok.1 hregistered
  rw [Step.bind_of_ok (Step.modify_apply _ _)] at h
  obtain ⟨rfl, rfl⟩ := Step.pure_eq_ok.1 h
  have htook := hfront.trans hetook
  rw [htook.functions] at hnew
  refine ⟨f :: n :: o :: (pts ++ c :: (rts ++ b :: (bts ++ [e]))), ?_, .define hf hn ho hps hc hr hb hrow he, ?_, ?_⟩
  · constructor
    · simpa using htook.ahead
    · simpa using htook.passed
    · simp [FunctionTable.after, htook.functions]
    · rw [← htook.finished]
      rfl
    · simp [htook.declared, hout]
  · constructor
    · exact CallsKnown.define_iff.2 hcalls
    · rintro name parameters returns body heq
      cases heq
      exact ⟨(fresh_iff_nodup hpnodup _).1 hfresh, hparameterTypes, hreturnType, hnew⟩
  · simp only [List.forall_mem_cons, List.forall_mem_append, List.not_mem_nil, false_imp_iff, implies_true, and_true]
    exact ⟨short_of_kind hf (by decide), short_of_kind hn (by decide), short_of_kind ho (by decide), hpshort,
      short_of_kind hc (by decide), hrshort, short_of_kind hb (by decide), hbshort, short_of_kind he (by decide)⟩

/-! ## Programs -/

/-- a statement that is no definition leaves the table as it is -/
theorem FoundPlain.stated (h : FoundPlain s t s') :
    ∃ ts, Stated ts t s s' ∧ Statement ts t ∧ StatementRules s.functions t ∧ ∀ x ∈ ts, x.Short := by
  have ht := h.plain
  obtain ⟨ts, htook, hplain, hcalls, hshort⟩ := h.found
  refine ⟨ts, ⟨htook.ahead, htook.passed, ?_, ?_, h.declared⟩, .plain hplain, ⟨hcalls, ?_⟩, hshort⟩
  · rw [show s'.functions = s.functions from htook.functions]
    cases t <;> first | rfl | cases ht
  · simp [show s'.finished = s.finished from htook.finished, ht]
  · rintro name parameters returns body rfl
    cases ht

/-- a statement was read -/
theorem statement_sound (hs : Lexed s) (h : statement depth s = .ok t s') :
    ∃ ts, Stated ts t s s' ∧ Statement ts t ∧ StatementRules s.functions t ∧ ∀ x ∈ ts, x.Short := by
  rw [statement] at h
  obtain ⟨x, s1, hcurrent, h⟩ := Step.bind_eq_ok.1 h
  obtain ⟨hhead, rfl⟩ := current_eq_ok.1 hcurrent
  rw [Step.bind_of_ok (Step.get_apply _)] at h
  split_ifs at h with hfun
  · obtain ⟨f, s1, hadvance, h⟩ := Step.bind_eq_ok.1 h
    obtain ⟨rfl, hftook⟩ := took_of_advance hhead hadvance
    exact definition_sound hs (Option.isNone_iff_eq_none.1 hfun.2) hfun.1 hftook h
  · exact (bodyStatement_sound hs h).stated

/-- what reading all tokens ahead as statements leaves behind, outside of all bodies -/
def allRead (s : ParseState) (trees : List Tree) : ParseState :=
  ⟨⟨s.cursor.ahead.reverse ++ s.cursor.passed, []⟩, s.functions.afterAll trees,
    s.finished ++ trees.filter Tree.isDefinition, none⟩

theorem allRead_nil (hout : s.declared = none) (h : s.cursor.ahead = []) : allRead s [] = s := by
  obtain ⟨⟨passed, tokens⟩, functions, finished, declared⟩ := s
  obtain rfl : tokens = [] := h
  obtain rfl : declared = none := hout
  simp [allRead, FunctionTable.afterAll]

theorem Stated.allRead_cons {ts : List Token} {trees : List Tree} (h : Stated ts t s s') :
    allRead s' trees = allRead s (t :: trees) := by
  have hfilter : [t].filter Tree.isDefinition ++ trees.filter Tree.isDefinition =
      (t :: trees).filter Tree.isDefinition := by
    rw [← List.filter_append, List.singleton_append]
  unfold allRead
  rw [h.ahead, h.passed, h.functions, h.finished, ← hfilter]
  simp [FunctionTable.afterAll]

theorem statement_tokens {ts : List Token} (h : Statement ts t) : 0 < ts.length := by
  cases h with
  | plain h => cases h <;> simp
  | define => simp

/-- all tokens ahead were read as statements -/
structure ProgramRead (s : ParseState) (trees : List Tree) (s' : ParseState) : Prop where
  state : s' = allRead s trees
  derives : Grammar.Program s.cursor.ahead trees
  rules : ProgramRules s.functions trees
  short : ∀ x ∈ s.cursor.ahead, x.Short

/-- the definitions read have joined the table -/
theorem ProgramRead.functions {trees : List Tree} (h : ProgramRead s trees s') :
    s'.functions = s.functions.afterAll trees :=
  congrArg ParseState.functions h.state

/-- behind a program reading stands outside of all bodies -/
theorem ProgramRead.outside {trees : List Tree} (h : ProgramRead s trees s') : s'.declared = none :=
  congrArg ParseState.declared h.state

theorem ProgramRead.nil (hout : s.declared = none) (h : s.cursor.ahead = []) : ProgramRead s [] s :=
  ⟨(allRead_nil hout h).symm, h ▸ .nil, trivial, by simp [h]⟩

theorem ProgramRead.cons {ts : List Token} {trees : List Tree} {s1 : ParseState} (hstated : Stated ts t s s1)
    (hderives : Statement ts t) (hrules : StatementRules s.functions t) (hshort : ∀ x ∈ ts, x.Short)
    (h : ProgramRead s1 trees s') : ProgramRead s (t :: trees) s' := by
  constructor
  · rw [h.state, hstated.allRead_cons]
  · rw [hstated.ahead]
    exact .cons hderives h.derives
  · exact ⟨hrules, hstated.functions ▸ h.rules⟩
  · rw [hstated.ahead]
    exact List.forall_mem_append.2 ⟨hshort, h.short⟩

theorem statements_sound {found trees : List Tree} {rounds : List Token} (hs : Lexed s) (hout : s.declared = none)
    (hrounds : s.cursor.ahead.length ≤ rounds.length) (h : statements depth found rounds s = .ok trees s') :
    ∃ new, trees = found.reverse ++ new ∧ ProgramRead s new s' := by
  induction rounds generalizing found s with
  | nil =>
    obtain ⟨rfl, rfl⟩ := Step.pure_eq_ok.1 h
    exact ⟨[], by simp, .nil hout (List.length_eq_zero_iff.1 (Nat.le_zero.1 hrounds))⟩
  | cons round rounds ih =>
    rw [statements, Step.bind_of_ok (exhausted_apply _)] at h
    split_ifs at h with hnone
    · obtain ⟨rfl, rfl⟩ := Step.pure_eq_ok.1 h
      exact ⟨[], by simp, .nil hout (List.isEmpty_iff.1 hnone)⟩
    · obtain ⟨tree, s1, hstatement, h⟩ := Step.bind_eq_ok.1 h
      obtain ⟨ts, hstated, hderives, hrules, hshort⟩ := statement_sound hs hstatement
      have hlexed : Lexed s1 := by
        intro x hx
        apply hs
        rw [hstated.ahead]
        exact List.mem_append_right _ hx
      have hlen : s1.cursor.ahead.length ≤ rounds.length := by
        have hpos := statement_tokens hderives
        simp only [hstated.ahead, List.length_append, List.length_cons] at hrounds
        omega
      have hout' : s1.declared = none := by simp [hstated.declared, hout]
      obtain ⟨new, rfl, hread⟩ := ih hlexed hout' hlen h
      exact ⟨tree :: new, by simp, .cons hstated hderives hrules hshort hread⟩

end Parse

end StackLang
