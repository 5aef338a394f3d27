/-
Every derivable statement is read.

The forms of a statement are told apart by their first two tokens, so a derivation leads along one branch of the
reader; its expressions are read as `expression_complete` says. A definition that keeps its rules is entered into the
table. As for expressions, there is one lemma for each form that counts the levels it takes, and a program takes as many
as its statements do (`ProgramAccepted`).
-/
import StackLang.Proofs.Source.StatementSound

namespace StackLang.Parse

open Grammar

variable {functions : FunctionTable} {levels : Nat} {ts : List Token} {t : Tree}

/-! ## Plain statements -/

/-- an expression that is read, in front of its semicolon -/
theorem valueToSemicolon_accepted {c : Token} (h : ExpressionAccepted functions levels ts t) (hc : c.kind = .semicolon)
    (depth : Nat) (rest passed : List Token) (finished : List Tree) (declared : Option (List Name))
    (hpassed : NotAfterFun passed) :
    YieldsIf (levels ≤ depth) (valueToSemicolon depth) ⟨⟨passed, ts ++ c :: rest⟩, functions, finished, declared⟩ t
      ⟨⟨c :: (ts.reverse ++ passed), rest⟩, functions, finished, declared⟩ := by
  have hends : Ends 0 (c :: rest) := ends_cons (by simp [hc]) (by simp [hc, TokenKind.precedence])
  rw [valueToSemicolon]
  refine (h depth (c :: rest) passed finished declared hends hpassed).bind ?_
  exact YieldsIf.after (expect_cons hc) (YieldsIf.of_ok rfl)

/-- how a plain statement is read: as its first token says, or by the reader of declarations after the word `let` -/
inductive PlainRun (functions : FunctionTable) (levels depth : Nat) (ts : List Token) (t : Tree)
    (rest passed : List Token) (finished : List Tree) (declared : Option (List Name)) : Prop
  | statement {x : Token} {tail : List Token} :
      ts = x :: tail → x.kind = .returnWord ∨ x.kind = .name → t.declared? = none →
      YieldsIf (levels ≤ depth) (plainStatement depth x) ⟨⟨passed, ts ++ rest⟩, functions, finished, declared⟩ t
        ⟨⟨ts.reverse ++ passed, rest⟩, functions, finished, declared⟩ →
      PlainRun functions levels depth ts t rest passed finished declared
  | declaration {x name : Token} {tail : List Token} :
      ts = x :: tail → x.kind = .letWord → t.declared? = some name.name →
      YieldsIf (levels ≤ depth) (declaration depth)
        ⟨⟨x :: passed, tail ++ rest⟩, functions, finished, declared⟩ (name, t)
        ⟨⟨ts.reverse ++ passed, rest⟩, functions, finished, declared⟩ →
      PlainRun functions levels depth ts t rest passed finished declared

/-- a plain statement that is read with these levels, whatever is around it -/
def PlainAccepted (functions : FunctionTable) (levels : Nat) (ts : List Token) (t : Tree) : Prop :=
  ∀ depth rest passed finished declared, PlainRun functions levels depth ts t rest passed finished declared

theorem PlainAccepted.mono {more : Nat} (h : PlainAccepted functions levels ts t) (hle : levels ≤ more) :
    PlainAccepted functions more ts t := by
  intro depth rest passed finished declared
  cases h depth rest passed finished declared with
  | statement hx hkind hnone hrun => exact .statement hx hkind hnone (hrun.mono hle.trans)
  | declaration hx hkind hsome hrun => exact .declaration hx hkind hsome (hrun.mono hle.trans)

theorem accepted_ret {r c : Token} (hr : r.kind = .returnWord) (h : ExpressionAccepted functions levels ts t)
    (hc : c.kind = .semicolon) : PlainAccepted functions levels (r :: (ts ++ [c])) (.ret t) := by
  intro depth rest passed finished declared
  refine .statement rfl (.inl hr) rfl ?_
  have hafter : NotAfterFun (r :: passed) := notAfterFun_cons (by simp [hr])
  have hvalue := valueToSemicolon_accepted h hc depth rest _ finished declared hafter
  rw [plainStatement, show r :: (ts ++ [c]) ++ rest = r :: (ts ++ c :: rest) by simp]
  simp only [hr]
  refine YieldsIf.after advance_cons (hvalue.bind (YieldsIf.of_ok ?_))
  simp

theorem accepted_declare {l x type e c : Token} (hl : l.kind = .letWord) (hx : x.kind = .name)
    (htype : type.kind = .name) (he : e.kind = .equals) (h : ExpressionAccepted functions levels ts t)
    (hc : c.kind = .semicolon) :
    PlainAccepted functions levels (l :: x :: type :: e :: (ts ++ [c])) (.declare x.name type.name t) := by
  intro depth rest passed finished declared
  refine .declaration rfl hl rfl ?_
  have hafter : NotAfterFun (e :: type :: x :: l :: passed) := notAfterFun_cons (by simp [he])
  have hvalue := valueToSemicolon_accepted h hc depth rest _ finished declared hafter
  rw [declaration, show x :: type :: e :: (ts ++ [c]) ++ rest = x :: type :: e :: (ts ++ c :: rest) by simp]
  refine YieldsIf.after (expect_cons hx) (YieldsIf.after (expect_cons htype) (YieldsIf.after (expect_cons he) ?_))
  refine hvalue.bind (YieldsIf.of_ok ?_)
  simp

theorem accepted_assign {x e c : Token} (hx : x.kind = .name) (he : e.kind = .equals)
    (h : ExpressionAccepted functions levels ts t) (hc : c.kind = .semicolon) :
    PlainAccepted functions levels (x :: e :: (ts ++ [c])) (.assign x.name t) := by
  intro depth rest passed finished declared
  refine .statement rfl (.inr hx) rfl ?_
  have hafter : NotAfterFun (e :: x :: passed) := notAfterFun_cons (by simp [he])
  have hvalue := valueToSemicolon_accepted h hc depth rest _ finished declared hafter
  rw [plainStatement, show x :: e :: (ts ++ [c]) ++ rest = x :: e :: (ts ++ c :: rest) by simp]
  simp only [hx]
  refine YieldsIf.after (kindAt_one _) ?_
  simp only [List.tail_cons, List.head?_cons, Option.map_some, he]
  refine YieldsIf.after advance_cons (YieldsIf.after advance_cons (hvalue.bind (YieldsIf.of_ok ?_)))
  simp

theorem accepted_addAssign {x p e c : Token} (hx : x.kind = .name) (hp : p.kind = .plus) (he : e.kind = .equals)
    (h : ExpressionAccepted functions levels ts t) (hc : c.kind = .semicolon) :
    PlainAccepted functions levels (x :: p :: e :: (ts ++ [c])) (.addAssign x.name t) := by
  intro depth rest passed finished declared
  refine .statement rfl (.inr hx) rfl ?_
  have hafter : NotAfterFun (e :: p :: x :: passed) := notAfterFun_cons (by simp [he])
  have hvalue := valueToSemicolon_accepted h hc depth rest _ finished declared hafter
  rw [plainStatement, show x :: p :: e :: (ts ++ [c]) ++ rest = x :: p :: e :: (ts ++ c :: rest) by simp]
  simp only [hx]
  refine YieldsIf.after (kindAt_one _) ?_
  simp only [List.tail_cons, List.head?_cons, Option.map_some, hp]
  refine YieldsIf.after advance_cons (YieldsIf.after advance_cons (YieldsIf.after (expect_cons he) ?_))
  refine hvalue.bind (YieldsIf.of_ok ?_)
  simp

theorem accepted_callStatement {f o c : Token} {cs : List Token} {trees : List Tree} (hf : f.kind = .name)
    (ho : o.kind = .openParen)
    (h : ∀ rest, Accepts functions levels callAt (f :: o :: cs) rest (.call f.name trees)) (hc : c.kind = .semicolon) :
    PlainAccepted functions levels (f :: o :: cs ++ [c]) (.call f.name trees) := by
  intro depth rest passed finished declared
  refine .statement rfl (.inr hf) rfl ?_
  rw [plainStatement, show f :: o :: cs ++ [c] ++ rest = f :: o :: cs ++ c :: rest by simp]
  simp only [hf]
  refine YieldsIf.after (kindAt_one _) ?_
  simp only [List.cons_append, List.tail_cons, List.head?_cons, Option.map_some, ho]
  refine (h (c :: rest) depth passed finished declared).bind (YieldsIf.after (expect_cons hc) (YieldsIf.of_ok ?_))
  simp

theorem plain_complete (h : Plain ts t) (hcalls : CallsKnown functions t) (hts : Fit ts) :
    ∃ levels, PlainAccepted functions levels ts t := by
  cases h with
  | ret hr hv hc =>
    obtain ⟨n, hvalue⟩ := expression_complete hv (hcalls.same rfl rfl) (fit_append.1 (fit_cons.1 hts).2).1
    exact ⟨n, accepted_ret hr hvalue hc⟩
  | declare hl hx htype he hv hc =>
    have hfit := (fit_append.1 (fit_cons.1 (fit_cons.1 (fit_cons.1 (fit_cons.1 hts).2).2).2).2).1
    obtain ⟨n, hvalue⟩ := expression_complete hv (hcalls.same rfl rfl) hfit
    exact ⟨n, accepted_declare hl hx htype he hvalue hc⟩
  | assign hx he hv hc =>
    have hfit := (fit_append.1 (fit_cons.1 (fit_cons.1 hts).2).2).1
    obtain ⟨n, hvalue⟩ := expression_complete hv (hcalls.same rfl rfl) hfit
    exact ⟨n, accepted_assign hx he hvalue hc⟩
  | addAssign hx hp he hv hc =>
    have hfit := (fit_append.1 (fit_cons.1 (fit_cons.1 (fit_cons.1 hts).2).2).2).1
    obtain ⟨n, hvalue⟩ := expression_complete hv (hcalls.same rfl rfl) hfit
    exact ⟨n, accepted_addAssign hx hp he hvalue hc⟩
  | call hcall hc =>
    obtain ⟨n, hread⟩ := call_complete hcall hcalls (fit_append.1 hts).1
    obtain ⟨f, o, cs, trees, rfl, hf, ho, rfl⟩ := hcall.head
    exact ⟨n, accepted_callStatement hf ho hread hc⟩

/-! ## Bodies -/

theorem bodyStatement_accepted (h : PlainAccepted functions levels ts t) {declared : Option (List Name)}
    (hnew : ∀ names ∈ declared, ∀ x ∈ t.declared?, x ∉ names) (depth : Nat) (rest passed : List Token)
    (finished : List Tree) :
    YieldsIf (levels ≤ depth) (bodyStatement depth) ⟨⟨passed, ts ++ rest⟩, functions, finished, declared⟩ t
      ⟨⟨ts.reverse ++ passed, rest⟩, functions, finished, declared.map (t.declared?.toList ++ ·)⟩ := by
  rw [bodyStatement]
  cases h depth rest passed finished declared with
  | statement hx hkind hnone hrun =>
    subst hx
    refine YieldsIf.after current_cons ?_
    have hsame : declared.map (t.declared?.toList ++ ·) = declared := by simp [hnone]
    rw [hsame]
    rcases hkind with hkind | hkind
    · simp only [hkind]
      exact hrun
    · simp only [hkind]
      exact hrun
  | @declaration x name tail hx hkind hsome hrun =>
    subst hx
    refine YieldsIf.after current_cons ?_
    simp only [hkind, hsome]
    refine YieldsIf.after advance_cons (hrun.bind (YieldsIf.after (declare_eq_ok.2 ⟨?_, rfl⟩) (YieldsIf.of_ok rfl)))
    exact fun names hnames => hnew names hnames name.name hsome

theorem PlainAccepted.head (h : PlainAccepted functions levels ts t) :
    ∃ x tail, ts = x :: tail ∧ x.kind ≠ .closeBrace ∧ x.kind ≠ .funWord := by
  cases h 0 [] [] [] none with
  | statement hx hkind => exact ⟨_, _, hx, by rcases hkind with hkind | hkind <;> simp [hkind]⟩
  | declaration hx hkind => exact ⟨_, _, hx, by simp [hkind]⟩

/-- each statement of a row takes a token -/
theorem length_le_of_row {item : List Token → Tree → Prop} (hitem : ∀ ts t, item ts t → 0 < ts.length)
    {trees : List Tree} (h : Row item ts trees) : trees.length ≤ ts.length := by
  induction h with
  | nil => simp
  | cons hfirst _ ih =>
    have hpos := hitem _ _ hfirst
    simp only [List.length_cons, List.length_append]
    omega

theorem block_accepted {trees : List Tree} (h : Row (PlainAccepted functions levels) ts trees) {names : List Name}
    (hfresh : Fresh names trees) {e : Token} (he : e.kind = .closeBrace) (depth : Nat)
    (rest passed rounds : List Token) (found finished : List Tree) (hrounds : trees.length < rounds.length) :
    ∃ left, YieldsIf (levels ≤ depth) (block depth found rounds)
      ⟨⟨passed, ts ++ e :: rest⟩, functions, finished, some names⟩ (found.reverse ++ trees)
      ⟨⟨e :: (ts.reverse ++ passed), rest⟩, functions, finished, left⟩ := by
  induction h generalizing names passed rounds found with
  | nil =>
    cases rounds with
    | nil => simp at hrounds
    | cons round rounds =>
      refine ⟨some names, ?_⟩
      rw [block]
      refine YieldsIf.after current_cons ?_
      rw [if_pos he]
      exact YieldsIf.after advance_cons (YieldsIf.of_ok (by simp))
  | @cons us vs t trees hplain _ ih =>
    cases rounds with
    | nil => simp at hrounds
    | cons round rounds =>
      have hnew : ∀ names' ∈ some names, ∀ x ∈ t.declared?, x ∉ names' := by
        rintro _ ⟨⟩
        exact hfresh.1
      have hrun := bodyStatement_accepted hplain hnew depth (vs ++ e :: rest) passed finished
      obtain ⟨left, hmore⟩ := ih hfresh.2 (us.reverse ++ passed) rounds (t :: found) (by simpa using hrounds)
      refine ⟨left, ?_⟩
      rw [block, show us ++ vs ++ e :: rest = us ++ (vs ++ e :: rest) by simp]
      obtain ⟨x, tail, rfl, hx, -⟩ := hplain.head
      refine YieldsIf.after current_cons ?_
      rw [if_neg hx]
      refine hrun.bind ?_
      simpa using hmore

/-- a body that declares nothing twice is read to its end, and nothing is declared behind it -/
theorem body_accepted {trees : List Tree} (h : Row (PlainAccepted functions levels) ts trees)
    {parameters : List Parameter} (hfresh : Fresh (parameters.map (·.name)) trees) {e : Token}
    (he : e.kind = .closeBrace) (depth : Nat) (rest passed : List Token) (finished : List Tree)
    (declared : Option (List Name)) :
    YieldsIf (levels ≤ depth) (body depth parameters) ⟨⟨passed, ts ++ e :: rest⟩, functions, finished, declared⟩ trees
      ⟨⟨e :: (ts.reverse ++ passed), rest⟩, functions, finished, none⟩ := by
  have hpos : ∀ ts t, PlainAccepted functions levels ts t → 0 < ts.length := by
    intro ts t h
    obtain ⟨x, tail, rfl, -⟩ := h.head
    exact Nat.succ_pos _
  have hrounds : trees.length < (ts ++ e :: rest).length := by
    have hlen := length_le_of_row hpos h
    simp only [List.length_append, List.length_cons]
    omega
  obtain ⟨left, hblock⟩ := block_accepted h hfresh he depth rest passed _ [] finished hrounds
  refine YieldsIf.leaving (t := ⟨⟨e :: (ts.reverse ++ passed), rest⟩, functions, finished, left⟩) _ ?_
  exact YieldsIf.after (Step.modify_apply _ _) (YieldsIf.after (ahead_apply _) hblock)

theorem body_complete {trees : List Tree} (h : Row Plain ts trees) (hcalls : ∀ t ∈ trees, CallsKnown functions t)
    (hts : Fit ts) : ∃ levels, Row (PlainAccepted functions levels) ts trees := by
  have hmono {n m : Nat} (hle : n ≤ m) {us : List Token} {trees : List Tree}
      (h : Row (PlainAccepted functions n) us trees) : Row (PlainAccepted functions m) us trees := by
    induction h with
    | nil => exact .nil
    | cons hfirst _ ih => exact .cons (hfirst.mono hle) ih
  induction h with
  | nil => exact ⟨0, .nil⟩
  | cons hplain _ ih =>
    obtain ⟨hus, hvs⟩ := fit_append.1 hts
    obtain ⟨hfirst, hrest⟩ := List.forall_mem_cons.1 hcalls
    obtain ⟨n, hread⟩ := plain_complete hplain hfirst hus
    obtain ⟨m, hmore⟩ := ih hrest hvs
    exact ⟨max n m, .cons (hread.mono (le_max_left n m)) (hmono (le_max_right n m) hmore)⟩

/-! ## Definitions -/

theorem parametersAfter_complete {ps : List Parameter} (h : Parameters ts ps) {found : List Parameter}
    (hnodup : ((found.reverse ++ ps).map (·.name)).Nodup) {c : Token} (hc : c.kind = .closeParen)
    (rest passed rounds : List Token) (finished : List Tree) (declared : Option (List Name))
    (hrounds : ps.length ≤ rounds.length) :
    parametersAfter found rounds ⟨⟨passed, ts ++ c :: rest⟩, functions, finished, declared⟩ =
      .ok (found.reverse ++ ps) ⟨⟨c :: (ts.reverse ++ passed), rest⟩, functions, finished, declared⟩ := by
  have hnew {p : Parameter} {ps : List Parameter} {found : List Parameter}
      (hnodup : ((found.reverse ++ p :: ps).map (·.name)).Nodup) : p.name ∉ found.map (·.name) := by
    intro hmem
    rw [List.map_append, List.nodup_append] at hnodup
    refine hnodup.2.2 p.name ?_ p.name (by simp) rfl
    rwa [List.map_reverse, List.mem_reverse]
  induction h generalizing found passed rounds with
  | @one x type hx htype =>
    cases rounds with
    | nil => simp at hrounds
    | cons round rounds =>
      rw [parametersAfter, List.cons_append, List.singleton_append, Step.bind_of_ok (expect_cons hx),
        Step.bind_of_ok (expect_cons htype), if_neg (hnew hnodup), Step.bind_of_ok advance_cons,
        if_pos hc]
      simp
  | @more x type comma ts ps hx htype hcomma _ ih =>
    cases rounds with
    | nil => simp at hrounds
    | cons round rounds =>
      have hnodup' : (((⟨x.name, type.name⟩ :: found).reverse ++ ps).map (·.name)).Nodup := by simpa using hnodup
      have hmore := ih hnodup' (comma :: type :: x :: passed) rounds (by simpa using hrounds)
      rw [parametersAfter, List.cons_append, List.cons_append, List.cons_append, Step.bind_of_ok (expect_cons hx),
        Step.bind_of_ok (expect_cons htype), if_neg (hnew hnodup), Step.bind_of_ok advance_cons,
        if_neg (by simp [hcomma]), if_pos hcomma, hmore]
      simp

theorem length_le_of_parameters {ps : List Parameter} (h : Parameters ts ps) :
    ∃ x tail, ts = x :: tail ∧ x.kind = .name ∧ ps.length ≤ ts.length := by
  induction h with
  | one hx _ => exact ⟨_, _, rfl, hx, by simp⟩
  | more hx _ _ _ ih =>
    obtain ⟨_, _, _, _, hlen⟩ := ih
    refine ⟨_, _, rfl, hx, ?_⟩
    simp only [List.length_cons]
    omega

theorem parameters_complete {ps : List Parameter} (h : ts = [] ∧ ps = [] ∨ Parameters ts ps)
    (hnodup : (ps.map (·.name)).Nodup) {c : Token} (hc : c.kind = .closeParen) (rest passed : List Token)
    (finished : List Tree) (declared : Option (List Name)) :
    parameters ⟨⟨passed, ts ++ c :: rest⟩, functions, finished, declared⟩ =
      .ok ps ⟨⟨c :: (ts.reverse ++ passed), rest⟩, functions, finished, declared⟩ := by
  rw [parameters]
  rcases h with ⟨rfl, rfl⟩ | h
  · rw [List.nil_append, Step.bind_of_ok current_cons, if_pos hc]
    rfl
  · obtain ⟨x, tail, rfl, hx, hlen⟩ := length_le_of_parameters h
    have hrounds : ps.length ≤ (x :: tail ++ c :: rest).length := by
      rw [List.length_append]
      exact hlen.trans (Nat.le_add_right _ _)
    have hnodup' : ((([] : List Parameter).reverse ++ ps).map (·.name)).Nodup := hnodup
    rw [List.cons_append, Step.bind_of_ok current_cons, if_neg (by simp [hx]), Step.bind_of_ok (ahead_apply _)]
    exact parametersAfter_complete h hnodup' hc rest passed _ finished declared hrounds

theorem returnType_complete {returns : Name} (h : ReturnType ts returns) {b : Token} (hb : b.kind = .openBrace)
    (rest passed : List Token) (finished : List Tree) (declared : Option (List Name)) :
    returnType ⟨⟨passed, ts ++ b :: rest⟩, functions, finished, declared⟩ =
      .ok returns ⟨⟨ts.reverse ++ passed, b :: rest⟩, functions, finished, declared⟩ := by
  rw [returnType]
  cases h with
  | absent =>
    rw [List.nil_append, Step.bind_of_ok current_cons]
    simp only [hb]
    rfl
  | given htype =>
    rw [List.singleton_append, Step.bind_of_ok current_cons]
    simp only [htype]
    rfl

/-- a definition that keeps its rules is read after its first word, and entered -/
theorem definition_accepted {n o c b e : Token} {ps rs body : List Token} {parameters : List Parameter} {returns : Name}
    {trees : List Tree} (hn : n.kind = .name) (ho : o.kind = .openParen)
    (hps : ps = [] ∧ parameters = [] ∨ Parameters ps parameters) (hc : c.kind = .closeParen)
    (hrs : ReturnType rs returns) (hb : b.kind = .openBrace) (hbody : Row (PlainAccepted functions levels) body trees)
    (he : e.kind = .closeBrace) (hrules : DefinitionRules functions n.name parameters returns trees) (depth : Nat)
    (rest passed : List Token) (finished : List Tree) (declared : Option (List Name)) :
    YieldsIf (levels ≤ depth) (definition depth)
      ⟨⟨passed, n :: o :: (ps ++ c :: (rs ++ b :: (body ++ e :: rest)))⟩, functions, finished, declared⟩
      (.define n.name parameters returns trees)
      ⟨⟨e :: (body.reverse ++ b :: (rs.reverse ++ c :: (ps.reverse ++ o :: n :: passed))), rest⟩,
        functions.after (.define n.name parameters returns trees),
        finished ++ [.define n.name parameters returns trees], none⟩ := by
  have hnodup : (parameters.map (·.name)).Nodup := (List.nodup_append.1 hrules.distinct).1
  have hfresh := (fresh_iff_nodup hnodup trees).2 hrules.distinct
  have hregistered : registered functions n.name ⟨returns, parameters⟩ =
      .ok (functions.after (.define n.name parameters returns trees)) :=
    registered_eq_ok.2 ⟨hrules.returnType, hrules.parameterTypes, hrules.fresh, rfl⟩
  rw [definition]
  refine YieldsIf.after (expect_cons hn) (YieldsIf.after (expect_cons ho) ?_)
  refine YieldsIf.after (parameters_complete hps hnodup hc _ _ finished declared) ?_
  refine YieldsIf.after (returnType_complete hrs hb _ _ finished declared) (YieldsIf.after (expect_cons hb) ?_)
  refine (body_accepted hbody hfresh he depth rest _ finished declared).bind ?_
  refine YieldsIf.after (Step.get_apply _) (YieldsIf.after (checkAt_eq_ok.2 ⟨hregistered, rfl⟩) ?_)
  exact YieldsIf.after (Step.modify_apply _ _) (YieldsIf.of_ok rfl)

/-! ## Programs -/

/-- a statement that is read with these levels outside of bodies, whatever is around it -/
def StatementAccepted (functions : FunctionTable) (levels : Nat) (ts : List Token) (t : Tree) : Prop :=
  ∀ depth rest passed finished,
    YieldsIf (levels ≤ depth) (statement depth) ⟨⟨passed, ts ++ rest⟩, functions, finished, none⟩ t
      ⟨⟨ts.reverse ++ passed, rest⟩, functions.after t, finished ++ [t].filter Tree.isDefinition, none⟩

theorem PlainAccepted.statement (h : PlainAccepted functions levels ts t) (hplain : t.isDefinition = false) :
    StatementAccepted functions levels ts t := by
  intro depth rest passed finished
  have hsame : functions.after t = functions ∧ [t].filter Tree.isDefinition = [] := by
    cases t with
    | define => cases hplain
    | _ => exact ⟨rfl, rfl⟩
  have hrun := bodyStatement_accepted h (by simp : ∀ names ∈ none, _) depth rest passed finished
  obtain ⟨x, tail, rfl, -, hx⟩ := h.head
  rw [hsame.1, hsame.2, List.append_nil, Parse.statement]
  refine YieldsIf.after current_cons (YieldsIf.after (Step.get_apply _) ?_)
  rw [if_neg fun hfun => hx hfun.1]
  exact hrun

theorem accepted_define {f n o c b e : Token} {ps rs body : List Token} {parameters : List Parameter} {returns : Name}
    {trees : List Tree} (hf : f.kind = .funWord) (hn : n.kind = .name) (ho : o.kind = .openParen)
    (hps : ps = [] ∧ parameters = [] ∨ Parameters ps parameters) (hc : c.kind = .closeParen)
    (hrs : ReturnType rs returns) (hb : b.kind = .openBrace) (hbody : Row (PlainAccepted functions levels) body trees)
    (he : e.kind = .closeBrace) (hrules : DefinitionRules functions n.name parameters returns trees) :
    StatementAccepted functions levels (f :: n :: o :: (ps ++ c :: (rs ++ b :: (body ++ [e]))))
      (.define n.name parameters returns trees) := by
  intro depth rest passed finished
  have hrun := definition_accepted hn ho hps hc hrs hb hbody he hrules depth rest (f :: passed) finished none
  have hfilter : [Tree.define n.name parameters returns trees].filter Tree.isDefinition =
      [.define n.name parameters returns trees] := rfl
  rw [statement, show f :: n :: o :: (ps ++ c :: (rs ++ b :: (body ++ [e]))) ++ rest =
    f :: n :: o :: (ps ++ c :: (rs ++ b :: (body ++ e :: rest))) by simp]
  refine YieldsIf.after current_cons (YieldsIf.after (Step.get_apply _) ?_)
  rw [if_pos ⟨hf, rfl⟩, hfilter]
  refine YieldsIf.after advance_cons ?_
  simpa using hrun

theorem statement_complete (h : Statement ts t) (hrules : StatementRules functions t) (hts : Fit ts) :
    ∃ levels, StatementAccepted functions levels ts t := by
  cases h with
  | plain h =>
    have hplain : t.isDefinition = false := by
      cases h with
      | call hcall _ =>
        obtain ⟨_, _, _, _, _, _, _, rfl⟩ := hcall.head
        rfl
      | _ => rfl
    obtain ⟨n, hread⟩ := plain_complete h hrules.calls hts
    exact ⟨n, hread.statement hplain⟩
  | @define f n o c b e ps rs body parameters returns trees hf hn ho hps hc hrs hb hbody he =>
    have hfit : Fit body := by
      intro x hx
      exact hts x (by simp [hx])
    obtain ⟨m, hread⟩ := body_complete hbody (CallsKnown.define_iff.1 hrules.calls) hfit
    exact ⟨m, accepted_define hf hn ho hps hc hrs hb hread he (hrules.definition _ _ _ _ rfl)⟩

/-- statements that are read with these levels one after the other, each with the table that those before it leave -/
inductive ProgramAccepted (levels : Nat) : FunctionTable → List Token → List Tree → Prop
  | nil {functions : FunctionTable} : ProgramAccepted levels functions [] []
  | cons {functions : FunctionTable} {ts rest : List Token} {t : Tree} {trees : List Tree} :
      StatementAccepted functions levels ts t → 0 < ts.length →
      ProgramAccepted levels (functions.after t) rest trees → ProgramAccepted levels functions (ts ++ rest) (t :: trees)

theorem ProgramAccepted.mono {more : Nat} {trees : List Tree} (h : ProgramAccepted levels functions ts trees)
    (hle : levels ≤ more) : ProgramAccepted more functions ts trees := by
  induction h with
  | nil => exact .nil
  | cons hfirst hpos _ ih =>
    exact .cons (fun depth rest passed finished => (hfirst depth rest passed finished).mono hle.trans) hpos ih

theorem ProgramAccepted.length_le {trees : List Tree} (h : ProgramAccepted levels functions ts trees) :
    trees.length ≤ ts.length := by
  induction h with
  | nil => simp
  | cons _ hpos _ ih =>
    simp only [List.length_cons, List.length_append]
    omega

theorem statements_accepted {trees : List Tree} (h : ProgramAccepted levels functions ts trees) (depth : Nat)
    (passed rounds : List Token) (found finished : List Tree) (hrounds : trees.length ≤ rounds.length) :
    YieldsIf (levels ≤ depth) (statements depth found rounds)
      ⟨⟨passed, ts⟩, functions, finished, none⟩ (found.reverse ++ trees)
      (allRead ⟨⟨passed, ts⟩, functions, finished, none⟩ trees) := by
  induction h generalizing passed rounds found finished with
  | nil =>
    rw [allRead_nil rfl rfl, List.append_nil]
    cases rounds with
    | nil => exact YieldsIf.of_ok rfl
    | cons round rounds => exact YieldsIf.of_ok rfl
  | @cons functions us vs t trees hfirst hpos _ ih =>
    cases rounds with
    | nil => simp at hrounds
    | cons round rounds =>
      have hrun := hfirst depth vs passed finished
      have hmore := ih (us.reverse ++ passed) rounds (t :: found) (finished ++ [t].filter Tree.isDefinition)
        (by simpa using hrounds)
      have hstated : Stated us t ⟨⟨passed, us ++ vs⟩, functions, finished, none⟩
          ⟨⟨us.reverse ++ passed, vs⟩, functions.after t, finished ++ [t].filter Tree.isDefinition, none⟩ :=
        ⟨rfl, rfl, rfl, rfl, rfl⟩
      have hne : (us ++ vs).isEmpty = false := by
        cases us with
        | nil => simp at hpos
        | cons x us => rfl
      rw [statements]
      refine YieldsIf.after (exhausted_apply _) ?_
      rw [if_neg (by simp [hne])]
      refine hrun.bind ?_
      rw [hstated.allRead_cons] at hmore
      simpa using hmore

end StackLang.Parse
