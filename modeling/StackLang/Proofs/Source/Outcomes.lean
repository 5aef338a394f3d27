/-
What reading leaves behind, whatever the tokens and whatever the outcome.

Inside a statement no step touches the function table (`Quiet`), and what is read has the forms of the grammar and calls
only functions of the table. A statement that fails leaves the table alone; one that succeeds leaves it with its
definition. The names declared in a body are forgotten behind it in both outcomes (`quiet_body`), so a definition, read
or not, leaves reading outside of all bodies again. After any reading, finished or not, the table is the one that the
statements read so far leave (`statements_outcome`).
-/
import StackLang.Proofs.Source.Forms
import StackLang.Proofs.Source.Places
import StackLang.Proofs.Source.Rules

namespace StackLang

open Step (Ensures)

/-- a token carries a name or a number that trees may carry -/
structure Token.Suits (atoms : Atoms) (x : Token) : Prop where
  name : x.kind = .name → atoms.name x.name
  number : x.kind = .number → ∀ s n, x.text = some s → Text.integer? s = some n → atoms.number n

namespace Parse

/-- what a step finds: the names and numbers of its tokens, the table, the finished definitions, the declared names -/
structure Setting where
  atoms : Atoms
  functions : FunctionTable
  finished : List Tree
  declared : Option (List Name)

/-- all but the tokens is as in the setting -/
structure Setting.Kept (e : Setting) (s : ParseState) : Prop where
  functions : s.functions = e.functions
  finished : s.finished = e.finished
  declared : s.declared = e.declared

/-- the tokens ahead suit too -/
structure Setting.Ready (e : Setting) (s : ParseState) : Prop extends Setting.Kept e s where
  tokens : ∀ x ∈ s.cursor.ahead, x.Suits e.atoms

/-- a step that moves nothing but the cursor in both outcomes; a result is good -/
def Quiet {α : Type} (e : Setting) (x : Parse α) (good : α → Prop) : Prop :=
  ∀ s, e.Ready s → Ensures x s (fun a s' => e.Ready s' ∧ good a) (fun _ s' => e.Kept s')

variable {α β : Type} {e : Setting} {x : Parse α} {good : α → Prop} {next : β → Prop}

/-! ## Quiet moves -/

theorem Quiet.bind {f : α → Parse β} (h : Quiet e x good) (hf : ∀ a, good a → Quiet e (f a) next) :
    Quiet e (x >>= f) next :=
  fun s hs => Ensures.bind (h s hs) fun a t ht => hf a ht.2 t ht.1

theorem Quiet.imp (h : Quiet e x good) {good' : α → Prop} (hgood : ∀ a, good a → good' a) : Quiet e x good' :=
  fun s hs => Ensures.imp (h s hs) (fun a _ ht => ⟨ht.1, hgood a ht.2⟩) (fun _ _ ht => ht)

theorem quiet_pure {a : α} (h : good a) : Quiet e (pure a) good :=
  fun _ hs => ⟨hs, h⟩

theorem quiet_throw (fault : ParseFault) : Quiet e (throw fault) good :=
  fun _ hs => hs.toKept

theorem quiet_get : Quiet e get e.Ready :=
  fun _ hs => ⟨hs, hs⟩

theorem quiet_kindAt (distance : Int) : Quiet e (kindAt distance) (fun _ => True) :=
  fun _ hs => ⟨hs, trivial⟩

theorem quiet_ahead : Quiet e ahead (fun _ => True) :=
  fun _ hs => ⟨hs, trivial⟩

theorem quiet_endOfInput : Quiet e endOfInput good :=
  fun _ hs => hs.toKept

theorem quiet_checkAt (token : Token) {check : Except Violation α} (h : ∀ a, check = .ok a → good a) :
    Quiet e (checkAt token check) good := by
  cases check with
  | ok a => exact quiet_pure (h a rfl)
  | error violation => exact quiet_throw _

theorem quiet_current : Quiet e current (Token.Suits e.atoms) := by
  rintro ⟨⟨passed, tokens⟩, functions, finished, declared⟩ hs
  cases tokens with
  | nil => exact hs.toKept
  | cons x rest => exact ⟨hs, hs.tokens x List.mem_cons_self⟩

theorem quiet_advance : Quiet e advance (fun _ => True) := by
  rintro ⟨⟨passed, tokens⟩, functions, finished, declared⟩ hs
  cases tokens with
  | nil => exact hs.toKept
  | cons x rest =>
    exact ⟨⟨⟨hs.functions, hs.finished, hs.declared⟩, fun y hy => hs.tokens y (List.mem_cons_of_mem x hy)⟩, trivial⟩

/-- a token of the kind `name` that was stepped over carries a name that trees may carry -/
theorem quiet_expectName (wanted : Wanted) : Quiet e (expect .name wanted) (fun x => e.atoms.name x.name) := by
  rintro ⟨⟨passed, tokens⟩, functions, finished, declared⟩ hs
  cases tokens with
  | nil => exact hs.toKept
  | cons x rest =>
    by_cases hkind : x.kind = .name
    · unfold Ensures
      rw [expect_cons hkind]
      exact ⟨⟨⟨hs.functions, hs.finished, hs.declared⟩, fun y hy => hs.tokens y (List.mem_cons_of_mem x hy)⟩,
        (hs.tokens x List.mem_cons_self).name hkind⟩
    · unfold Ensures expect
      rw [Step.bind_of_ok current_cons, if_neg hkind]
      exact hs.toKept

theorem quiet_expect (kind : TokenKind) (wanted : Wanted) : Quiet e (expect kind wanted) (fun _ => True) := by
  refine quiet_current.bind fun x _ => ?_
  split
  · exact quiet_advance
  · exact quiet_throw _

/-! ## Expressions -/

/-- a whole expression that calls only functions of the table -/
def Setting.Value (e : Setting) (t : Tree) : Prop :=
  t.IsValue e.atoms ∧ CallsKnown e.functions t

/-- arithmetic that calls only functions of the table -/
def Setting.Operand (e : Setting) (t : Tree) : Prop :=
  t.IsOperand e.atoms ∧ CallsKnown e.functions t

theorem Setting.Operand.value {t : Tree} (h : e.Operand t) : e.Value t :=
  ⟨.inr (.inr h.1), h.2⟩

theorem quiet_arguments {argument : Parse Tree} (h : Quiet e argument e.Value) (rounds : List Token) {found : List Tree}
    (hfound : ∀ t ∈ found, e.Value t) :
    Quiet e (arguments argument found rounds) (fun trees => ∀ t ∈ trees, e.Value t) := by
  induction rounds generalizing found with
  | nil => exact quiet_endOfInput
  | cons _ rounds ih =>
    refine h.bind fun tree htree => ?_
    have hall : ∀ t ∈ tree :: found, e.Value t := List.forall_mem_cons.2 ⟨htree, hfound⟩
    refine quiet_advance.bind fun separator _ => ?_
    split
    · exact quiet_pure fun t ht => hall t (List.mem_reverse.1 ht)
    · split
      · exact ih hall
      · exact quiet_throw _

/-- a call of the table's functions -/
theorem quiet_functionCall {argument : Parse Tree} (h : Quiet e argument e.Value) :
    Quiet e (functionCall argument) (fun t => t.IsCall e.atoms ∧ CallsKnown e.functions t) := by
  have hcall {f : Name} {arguments : List Tree} (hname : e.atoms.name f) (hknown : f ∈ e.functions.names)
      (harguments : ∀ t ∈ arguments, e.Value t) :
      (Tree.call f arguments).IsCall e.atoms ∧ CallsKnown e.functions (.call f arguments) :=
    ⟨Tree.isCall_iff.2 ⟨hname, fun t ht => (harguments t ht).1⟩,
      CallsKnown.call_iff.2 ⟨hknown, fun t ht => (harguments t ht).2⟩⟩
  refine (quiet_expectName _).bind fun name hname => ?_
  refine quiet_get.bind fun s hs => ?_
  have hlookup : Quiet e (checkAt name (s.functions.lookup name.name)) (fun _ => name.name ∈ e.functions.names) := by
    refine quiet_checkAt name fun signature hsignature => ?_
    rw [hs.functions] at hsignature
    exact (FunctionTable.mem_of_lookup hsignature).2
  refine hlookup.bind fun _ hknown => (quiet_expect _ _).bind fun _ _ => quiet_current.bind fun next _ => ?_
  split
  · exact quiet_advance.bind fun _ _ => quiet_pure (hcall hname hknown (by simp))
  · refine quiet_ahead.bind fun rounds _ => ?_
    refine (quiet_arguments h rounds (by simp)).bind fun trees htrees => ?_
    exact quiet_pure (hcall hname hknown htrees)

/-- the call that is read names the token it starts with -/
theorem functionCall_callee {argument : Parse Tree} {s s' : ParseState} {t : Tree}
    (h : functionCall argument s = .ok t s') :
    ∃ arguments x, s.cursor.ahead.head? = some x ∧ t = .call x.name arguments := by
  obtain ⟨name, s₁, hname, h⟩ := Step.bind_eq_ok.1 h
  have hhead : s.cursor.ahead.head? = some name := by
    rw [(expect_eq_ok.1 hname).2.ahead]
    rfl
  obtain ⟨_, s₂, _, h⟩ := Step.bind_eq_ok.1 h
  obtain ⟨_, s₃, _, h⟩ := Step.bind_eq_ok.1 h
  obtain ⟨_, s₄, _, h⟩ := Step.bind_eq_ok.1 h
  obtain ⟨next, s₅, _, h⟩ := Step.bind_eq_ok.1 h
  split at h
  · obtain ⟨_, s₆, _, h⟩ := Step.bind_eq_ok.1 h
    cases h
    exact ⟨[], name, hhead, rfl⟩
  · obtain ⟨_, s₆, _, h⟩ := Step.bind_eq_ok.1 h
    obtain ⟨trees, s₇, _, h⟩ := Step.bind_eq_ok.1 h
    cases h
    exact ⟨trees, name, hhead, rfl⟩

theorem quiet_callOperand {argument : Parse Tree} (h : Quiet e argument e.Value) :
    Quiet e (callOperand argument) e.Operand := by
  intro s hs
  refine Ensures.intro ?_ ?_
  · intro t s' hread
    obtain ⟨x, s₁, hx, hread⟩ := Step.bind_eq_ok.1 hread
    obtain ⟨hhead, rfl⟩ := current_eq_ok.1 hx
    obtain ⟨call, s₂, hcall, hread⟩ := Step.bind_eq_ok.1 hread
    obtain ⟨hs₂, hform, hknown⟩ := (quiet_functionCall h s hs).of_ok hcall
    obtain ⟨arguments, y, hy, rfl⟩ := functionCall_callee hcall
    obtain rfl : x = y := Option.some.inj (hhead.symm.trans hy)
    obtain ⟨_, s₃, hget, hread⟩ := Step.bind_eq_ok.1 hread
    cases hget
    obtain ⟨signature, s₄, hcheck, hread⟩ := Step.bind_eq_ok.1 hread
    obtain ⟨hlookup, rfl⟩ := checkAt_eq_ok.1 hcheck
    split_ifs at hread with hint
    · cases hread
      rw [hs₂.functions] at hlookup
      exact ⟨hs₂, hform, CallsKnown.callOperand_iff.2 ⟨⟨_, (FunctionTable.mem_of_lookup hlookup).1, hint⟩, hknown⟩⟩
    · cases hread
  · intro fault s' hread
    have hquiet : Quiet e (callOperand argument) (fun _ => True) := by
      refine quiet_current.bind fun x _ => (quiet_functionCall h).bind fun call _ => quiet_get.bind fun s _ => ?_
      refine (quiet_checkAt x fun _ _ => trivial).bind fun signature _ => ?_
      split
      · exact quiet_pure trivial
      · exact quiet_throw _
    exact (hquiet s hs).of_error hread

theorem quiet_numberLiteral {x : Token} (hx : x.Suits e.atoms) (hkind : x.kind = .number) :
    Quiet e (numberLiteral x) e.Operand := by
  refine quiet_advance.bind fun _ _ => ?_
  split
  · exact quiet_throw _
  · rename_i s hs
    split
    · rename_i n hn
      exact quiet_pure ⟨hx.number hkind s n hs hn, .of_no_calls rfl rfl⟩
    · exact quiet_throw _

theorem isSign_of_operator? {kind : TokenKind} {op : BinaryOp} (h : kind.operator? = some op) : op.IsSign := by
  cases kind <;> cases h <;> trivial

theorem quiet_operators {right : Nat → Parse Tree} (hright : ∀ precedence, Quiet e (right precedence) e.Operand)
    (threshold : Nat) (rounds : List Token) {left : Tree} (hleft : e.Operand left) :
    Quiet e (operators right threshold left rounds) e.Operand := by
  induction rounds generalizing left with
  | nil => exact quiet_pure hleft
  | cons _ rounds ih =>
    refine (quiet_kindAt 0).bind fun kind _ => ?_
    split
    · exact quiet_pure hleft
    · split
      · exact quiet_pure hleft
      · rename_i op hop
        split
        · exact quiet_pure hleft
        · refine quiet_advance.bind fun _ _ => (hright _).bind fun tree htree => ?_
          exact ih ⟨⟨isSign_of_operator? hop, hleft.1, htree.1⟩, CallsKnown.binary_iff.2 ⟨hleft.2, htree.2⟩⟩

/-- phrases read with this many levels are quiet and of their form -/
structure QuietAt (e : Setting) (depth : Nat) : Prop where
  expression : Quiet e (expression depth) e.Value
  arithmetic : ∀ threshold, Quiet e (arithmetic depth threshold) e.Operand
  operand : Quiet e (operand depth) e.Operand

theorem quiet_operand {depth : Nat} (ih : QuietAt e depth) : Quiet e (operand (depth + 1)) e.Operand := by
  rw [operand]
  refine quiet_current.bind fun x hx => ?_
  split
  · rename_i hkind
    exact quiet_numberLiteral hx hkind
  · rename_i hkind
    refine (quiet_kindAt 1).bind fun following _ => ?_
    split
    · exact quiet_callOperand ih.expression
    · exact quiet_advance.bind fun _ _ => quiet_pure ⟨hx.name hkind, .of_no_calls rfl rfl⟩
  · refine quiet_advance.bind fun _ _ => (ih.arithmetic 0).bind fun inner hinner => ?_
    exact (quiet_expect _ _).bind fun _ _ => quiet_pure hinner
  · exact quiet_advance.bind fun _ _ => ih.operand.bind fun t ht => quiet_pure ⟨ht.1, ht.2.same rfl rfl⟩
  · exact quiet_advance.bind fun _ _ => ih.operand.bind fun t ht => quiet_pure ⟨ht.1, ht.2.same rfl rfl⟩
  · exact quiet_throw _

theorem quiet_arithmetic {depth : Nat} (ih : QuietAt e depth) (threshold : Nat) :
    Quiet e (arithmetic (depth + 1) threshold) e.Operand := by
  rw [arithmetic]
  refine ih.operand.bind fun left hleft => quiet_ahead.bind fun rounds _ => ?_
  exact quiet_operators ih.arithmetic threshold rounds hleft

theorem quiet_callExpression {depth : Nat} (ih : QuietAt e depth) :
    Quiet e (callExpression (expression depth) (arithmetic depth 0)) e.Value := by
  intro s hs
  have hcall := quiet_functionCall ih.expression s hs
  cases hrun : functionCall (expression depth) s with
  | error fault t =>
    rw [Ensures, callExpression_of_error hrun]
    exact hcall.of_error hrun
  | ok call t =>
    obtain ⟨ht, hform, hknown⟩ := hcall.of_ok hrun
    rw [Ensures, callExpression_of_call hrun]
    split_ifs
    · have hback : e.Ready { t with cursor := s.cursor } := ⟨⟨ht.functions, ht.finished, ht.declared⟩, hs.tokens⟩
      exact ((ih.arithmetic 0).imp fun _ hvalue => hvalue.value) _ hback
    · exact ⟨ht, .inr (.inl hform), hknown⟩

theorem quiet_expression {depth : Nat} (ih : QuietAt e depth) : Quiet e (expression (depth + 1)) e.Value := by
  rw [expression]
  refine quiet_current.bind fun x hx => (quiet_kindAt 1).bind fun following _ => ?_
  split
  · exact (ih.arithmetic 0).imp fun _ ht => ht.value
  · split
    · rename_i hkind
      refine (quiet_kindAt (-1)).bind fun before _ => ?_
      split
      · exact quiet_callExpression ih
      · exact quiet_advance.bind fun _ _ => quiet_pure ⟨.inl (hx.name hkind), .of_no_calls rfl rfl⟩
    · exact quiet_throw _

theorem quietAt (e : Setting) (depth : Nat) : QuietAt e depth := by
  induction depth with
  | zero => exact ⟨quiet_throw _, fun _ => quiet_throw _, quiet_throw _⟩
  | succ depth ih => exact ⟨quiet_expression ih, quiet_arithmetic ih, quiet_operand ih⟩

/-! ## Plain statements -/

variable {depth : Nat}

/-- a statement of a body that calls only functions of the table -/
def Setting.Plain (e : Setting) (t : Tree) : Prop :=
  t.IsPlain e.atoms ∧ CallsKnown e.functions t

theorem quiet_valueToSemicolon : Quiet e (valueToSemicolon depth) e.Value := by
  refine (quietAt e depth).expression.bind fun v hv => ?_
  exact (quiet_expect _ _).bind fun _ _ => quiet_pure hv

theorem quiet_declaration :
    Quiet e (declaration depth) (fun r => e.Plain r.2 ∧ r.2.declared? = some r.1.name ∧ r.2.isDefinition = false) := by
  refine (quiet_expectName _).bind fun name hname => (quiet_expectName _).bind fun type htype => ?_
  refine (quiet_expect _ _).bind fun _ _ => quiet_valueToSemicolon.bind fun v hv => ?_
  exact quiet_pure ⟨⟨⟨hname, htype, hv.1⟩, hv.2.same rfl rfl⟩, rfl, rfl⟩

theorem quiet_plainStatement {x : Token} (hx : x.Suits e.atoms) :
    Quiet e (plainStatement depth x) (fun t => e.Plain t ∧ t.declared? = none ∧ t.isDefinition = false) := by
  unfold plainStatement
  split
  · refine quiet_advance.bind fun _ _ => quiet_valueToSemicolon.bind fun v hv => ?_
    exact quiet_pure ⟨⟨hv.1, hv.2.same rfl rfl⟩, rfl, rfl⟩
  · rename_i hkind
    refine (quiet_kindAt 1).bind fun following _ => ?_
    split
    · refine quiet_advance.bind fun _ _ => quiet_advance.bind fun _ _ => ?_
      refine quiet_valueToSemicolon.bind fun v hv => ?_
      exact quiet_pure ⟨⟨⟨hx.name hkind, hv.1⟩, hv.2.same rfl rfl⟩, rfl, rfl⟩
    · refine quiet_advance.bind fun _ _ => quiet_advance.bind fun _ _ => (quiet_expect _ _).bind fun _ _ => ?_
      refine quiet_valueToSemicolon.bind fun v hv => ?_
      exact quiet_pure ⟨⟨⟨hx.name hkind, hv.1⟩, hv.2.same rfl rfl⟩, rfl, rfl⟩
    · refine (quiet_functionCall (quietAt e depth).expression).bind fun call hcall => ?_
      refine (quiet_expect _ _).bind fun _ _ => quiet_pure ?_
      cases call with
      | call f arguments => exact ⟨hcall, rfl, rfl⟩
      | _ => exact hcall.1.elim
    · exact quiet_throw _
  · exact quiet_throw _

/-- the setting after a statement: a definition joins the table and the finished definitions, and inside a body a
variable joins the declared names -/
def Setting.after (e : Setting) (t : Tree) : Setting :=
  ⟨e.atoms, e.functions.after t, e.finished ++ [t].filter Tree.isDefinition, e.declared.map (t.declared?.toList ++ ·)⟩

theorem Setting.after_plain {t : Tree} (h : t.isDefinition = false) :
    e.after t = { e with declared := e.declared.map (t.declared?.toList ++ ·) } := by
  unfold Setting.after
  cases t with
  | define => cases h
  | _ => simp [FunctionTable.after, Tree.isDefinition]

/-- a statement that declares nothing is read in one setting -/
theorem Setting.after_same {t : Tree} (h : t.isDefinition = false) (hdeclared : t.declared? = none) :
    e.after t = e := by
  rw [Setting.after_plain h, hdeclared]
  simp

/-- a step that reads a statement other than a definition; inside a body it declares nothing old -/
def ReadsPlain (e : Setting) (x : Parse Tree) : Prop :=
  ∀ s, e.Ready s → Ensures x s
    (fun t s' => (e.after t).Ready s' ∧ e.Plain t ∧ t.isDefinition = false ∧
      ∀ names ∈ e.declared, ∀ x ∈ t.declared?, x ∉ names)
    (fun _ s' => e.Kept s')

theorem ReadsPlain.after {x : Parse α} {f : α → Parse Tree} (h : Quiet e x good)
    (hf : ∀ a, good a → ReadsPlain e (f a)) : ReadsPlain e (x >>= f) :=
  fun s hs => Ensures.bind (h s hs) fun a t ht => hf a ht.2 t ht.1

theorem ReadsPlain.of_quiet {x : Parse Tree}
    (h : Quiet e x (fun t => e.Plain t ∧ t.declared? = none ∧ t.isDefinition = false)) : ReadsPlain e x := by
  intro s hs
  refine (h s hs).imp ?_ fun _ _ ht => ht
  rintro t s' ⟨hs', hplain, hnone, hdefinition⟩
  refine ⟨?_, hplain, hdefinition, by simp [hnone]⟩
  rw [Setting.after_same hdefinition hnone]
  exact hs'

/-- a variable joins the declared names of the body, if it is not among them yet -/
theorem declare_outcome (name : Token) {s : ParseState} (hs : e.Ready s) :
    Ensures (declare name) s
      (fun _ s' => Setting.Ready { e with declared := e.declared.map (name.name :: ·) } s' ∧
        ∀ names ∈ e.declared, name.name ∉ names)
      (fun _ s' => e.Kept s') := by
  refine .intro ?_ ?_
  · intro _ s' h
    obtain ⟨hnew, rfl⟩ := declare_eq_ok.1 h
    rw [hs.declared] at hnew
    exact ⟨⟨⟨hs.functions, hs.finished, by simp [hs.declared]⟩, hs.tokens⟩, hnew⟩
  · intro fault s' h
    rw [declare_eq_error h]
    exact hs.toKept

theorem readsPlain_newVariable : ReadsPlain e (newVariable depth) := by
  refine .after quiet_declaration fun r hr => ?_
  obtain ⟨hplain, hname, hdefinition⟩ := hr
  intro s hs
  refine (declare_outcome r.1 hs).bind ?_
  rintro _ s' ⟨hs', hnew⟩
  refine ⟨?_, hplain, hdefinition, ?_⟩
  · rw [Setting.after_plain hdefinition, hname]
    exact hs'
  · intro names hnames x hx
    obtain rfl : r.1.name = x := Option.some.inj (hname.symm.trans hx)
    exact hnew names hnames

/-! ## Bodies -/

theorem readsPlain_bodyStatement : ReadsPlain e (bodyStatement depth) := by
  refine .after quiet_current fun x hx => ?_
  split
  · exact .of_quiet (quiet_throw _)
  · exact .after quiet_advance fun _ _ => readsPlain_newVariable
  · exact .of_quiet (quiet_plainStatement hx)

/-- the setting inside a body with these names declared -/
def Setting.inside (e : Setting) (names : List Name) : Setting :=
  { e with declared := some names }

theorem block_outcome (rounds : List Token) (found : List Tree) (names : List Name) {s : ParseState}
    (hs : (e.inside names).Ready s) :
    Ensures (block depth found rounds) s
      (fun trees s' => (∃ names, (e.inside names).Ready s') ∧
        ∃ more, trees = found.reverse ++ more ∧ (∀ t ∈ more, e.Plain t) ∧ Fresh names more)
      (fun _ s' => ∃ names, (e.inside names).Kept s') := by
  induction rounds generalizing found names s with
  | nil => exact ⟨names, hs.toKept⟩
  | cons _ rounds ih =>
    have hkept {α : Type} {x : Parse α} {s : ParseState} {good : α → ParseState → Prop}
        (h : Ensures x s good fun _ => (e.inside names).Kept) :
        Ensures x s good fun _ s' => ∃ names, (e.inside names).Kept s' :=
      h.imp (fun _ _ ht => ht) fun _ _ ht => ⟨names, ht⟩
    refine (hkept (quiet_current s hs)).bind fun x t ht => ?_
    split
    · refine (hkept (quiet_advance t ht.1)).bind fun _ s' hs' => ?_
      exact ⟨⟨names, hs'.1⟩, [], by simp, by simp, trivial⟩
    · refine (hkept (readsPlain_bodyStatement t ht.1)).bind ?_
      rintro tree s' ⟨hs', hplain, hdefinition, hnew⟩
      rw [Setting.after_plain hdefinition] at hs'
      refine (ih (tree :: found) (tree.declared?.toList ++ names) hs').imp ?_ fun _ _ ht => ht
      rintro trees s'' ⟨hs'', more, rfl, hmore, hfresh⟩
      exact ⟨hs'', tree :: more, by simp, List.forall_mem_cons.2 ⟨hplain, hmore⟩, hnew names rfl, hfresh⟩

/-- **A body is left in both outcomes.** What was declared in it is forgotten, whether it was read to its end or not. -/
theorem quiet_body (he : e.declared = none) (parameters : List Parameter) :
    Quiet e (body depth parameters)
      (fun trees => (∀ t ∈ trees, e.Plain t) ∧ Fresh (parameters.map (·.name)) trees) := by
  intro s hs
  have hinside : (e.inside (parameters.map (·.name))).Ready { s with declared := some (parameters.map (·.name)) } :=
    ⟨⟨hs.functions, hs.finished, rfl⟩, hs.tokens⟩
  have hleft {names : List Name} {t : ParseState} (ht : (e.inside names).Kept t) : e.Kept { t with declared := none } :=
    ⟨ht.functions, ht.finished, he.symm⟩
  refine Ensures.leaving ?_
  refine (block_outcome s.cursor.ahead [] _ hinside).imp ?_ ?_
  · rintro trees t ⟨⟨names, ht⟩, more, rfl, hmore, hfresh⟩
    exact ⟨⟨hleft ht.toKept, ht.tokens⟩, hmore, hfresh⟩
  · rintro _ t ⟨names, ht⟩
    exact hleft ht

/-! ## Definitions -/

theorem quiet_parametersAfter (rounds : List Token) {found : List Parameter} (hnodup : (found.map (·.name)).Nodup)
    (hnames : ∀ p ∈ found, e.atoms.name p.name) :
    Quiet e (parametersAfter found rounds) (fun parameters =>
      (parameters.map (·.name)).Nodup ∧ ∀ p ∈ parameters, e.atoms.name p.name) := by
  induction rounds generalizing found with
  | nil => exact quiet_endOfInput
  | cons _ rounds ih =>
    refine (quiet_expectName _).bind fun name hname => (quiet_expectName _).bind fun type _ => ?_
    split
    · exact quiet_throw _
    · rename_i hfresh
      have hnodup' : ((⟨name.name, type.name⟩ :: found : List Parameter).map (·.name)).Nodup :=
        List.nodup_cons.2 ⟨hfresh, hnodup⟩
      have hnames' : ∀ p ∈ (⟨name.name, type.name⟩ :: found : List Parameter), e.atoms.name p.name :=
        List.forall_mem_cons.2 ⟨hname, hnames⟩
      refine quiet_advance.bind fun separator _ => ?_
      split
      · refine quiet_pure ⟨?_, fun p hp => hnames' p (List.mem_reverse.1 hp)⟩
        rw [List.map_reverse]
        exact List.nodup_reverse.2 hnodup'
      · split
        · exact ih hnodup' hnames'
        · exact quiet_throw _

theorem quiet_parameters :
    Quiet e parameters (fun parameters =>
      (parameters.map (·.name)).Nodup ∧ ∀ p ∈ parameters, e.atoms.name p.name) := by
  refine quiet_current.bind fun next _ => ?_
  split
  · exact quiet_advance.bind fun _ _ => quiet_pure ⟨List.nodup_nil, by simp⟩
  · exact quiet_ahead.bind fun rounds _ => quiet_parametersAfter rounds List.nodup_nil (by simp)

theorem quiet_returnType : Quiet e returnType (fun _ => True) := by
  refine quiet_current.bind fun next _ => ?_
  split
  · exact quiet_advance.bind fun _ _ => quiet_pure trivial
  · exact quiet_pure trivial
  · exact quiet_throw _

/-- a statement of a program that keeps the rules -/
def Setting.Statement (e : Setting) (t : Tree) : Prop :=
  t.IsStatement e.atoms ∧ StatementRules e.functions t

/-- a step that reads one statement: it leaves the table with the statement's definition, or all as it was -/
def ReadsOne (e : Setting) (x : Parse Tree) : Prop :=
  ∀ s, e.Ready s → Ensures x s (fun t s' => (e.after t).Ready s' ∧ e.Statement t) (fun _ s' => e.Kept s')

/-- the statement is the last thing read -/
theorem ReadsOne.after {x : Parse α} {f : α → Parse Tree} (h : Quiet e x good) (hf : ∀ a, good a → ReadsOne e (f a)) :
    ReadsOne e (x >>= f) :=
  fun s hs => Ensures.bind (h s hs) fun a t ht => hf a ht.2 t ht.1

theorem ReadsPlain.readsOne {x : Parse Tree} (h : ReadsPlain e x) : ReadsOne e x := by
  intro s hs
  refine (h s hs).imp ?_ fun _ _ ht => ht
  rintro t s' ⟨hs', ⟨hform, hcalls⟩, hdefinition, -⟩
  refine ⟨hs', hform.isStatement, hcalls, ?_⟩
  rintro name parameters returns body rfl
  cases hdefinition

/-- a definition is entered as the last thing -/
theorem readsOne_definition (he : e.declared = none) : ReadsOne e (definition depth) := by
  refine .after (quiet_expectName _) fun name hname => .after (quiet_expect _ _) fun _ _ => ?_
  refine .after quiet_parameters fun parameters hparameters => .after quiet_returnType fun returns _ => ?_
  obtain ⟨hdistinct, hnames⟩ := hparameters
  refine .after (quiet_expect _ _) fun _ _ => .after (quiet_body he parameters) fun body hbody => ?_
  refine .after quiet_get fun s hs => ?_
  obtain ⟨hbody, hfresh⟩ := hbody
  have hregistered : Quiet e (checkAt name (registered s.functions name.name ⟨returns, parameters⟩)) (fun functions =>
      (returns = TypeWord.int ∨ returns = TypeWord.void) ∧ (∀ p ∈ parameters, p.type = TypeWord.int) ∧
      name.name ∉ e.functions.names ∧
      functions = ⟨e.functions.entries ++ [(name.name, ⟨returns, parameters⟩)]⟩) := by
    refine quiet_checkAt name fun functions h => ?_
    rw [hs.functions] at h
    exact registered_eq_ok.1 h
  refine .after hregistered fun functions hentered => ?_
  obtain ⟨hreturns, htypes, hnew, rfl⟩ := hentered
  intro s' hs'
  refine ⟨⟨⟨rfl, ?_, ?_⟩, hs'.tokens⟩, ⟨hname, hnames, fun t ht => (hbody t ht).1⟩, ?_, ?_⟩
  · exact congrArg (· ++ _) hs'.finished
  · exact (hs'.declared.trans he).trans (by simp [Setting.after, he])
  · exact CallsKnown.define_iff.2 fun t ht => (hbody t ht).2
  · rintro _ _ _ _ ⟨⟩
    exact ⟨(fresh_iff_nodup hdistinct _).1 hfresh, htypes, hreturns, hnew⟩

theorem readsOne_statement : ReadsOne e (statement depth) := by
  refine .after quiet_current fun x _ => .after quiet_get fun s hs => ?_
  split_ifs with hfun
  · have he : e.declared = none := by
      rw [← hs.declared]
      exact Option.isNone_iff_eq_none.1 hfun.2
    exact .after quiet_advance fun _ _ => readsOne_definition he
  · exact readsPlain_bodyStatement.readsOne

/-! ## Programs -/

/-- statements that were read one after the other, from this setting to that state -/
structure Setting.Read (e : Setting) (trees : List Tree) (s : ParseState) : Prop where
  forms : ∀ t ∈ trees, t.IsStatement e.atoms
  rules : ProgramRules e.functions trees
  functions : s.functions = e.functions.afterAll trees
  finished : s.finished = e.finished ++ trees.filter Tree.isDefinition

theorem Setting.Read.nil {s : ParseState} (hs : e.Kept s) : e.Read [] s :=
  ⟨by simp, trivial, hs.functions, by simp [hs.finished]⟩

theorem Setting.Read.cons {s : ParseState} {t : Tree} {rest : List Tree} (ht : e.Statement t)
    (h : (e.after t).Read rest s) : e.Read (t :: rest) s := by
  refine ⟨List.forall_mem_cons.2 ⟨ht.1, h.forms⟩, ⟨ht.2, h.rules⟩, h.functions, ?_⟩
  rw [h.finished, ← List.singleton_append, List.filter_append, ← List.append_assoc]
  rfl

/-- **Reading in either outcome.** The statements read, up to the end or up to the fault, have the forms of the grammar
and keep the rules, and the table left behind is the one they leave. -/
theorem statements_outcome (rounds : List Token) (found : List Tree) (e : Setting) {s : ParseState} (hs : e.Ready s) :
    Ensures (statements depth found rounds) s
      (fun trees s' => ∃ more, trees = found.reverse ++ more ∧ e.Read more s') (fun _ s' => ∃ more, e.Read more s') := by
  induction rounds generalizing found e s with
  | nil => exact ⟨[], by simp, .nil hs.toKept⟩
  | cons _ rounds ih =>
    rw [statements, Ensures, Step.bind_of_ok (exhausted_apply s), ← Ensures]
    split
    · exact ⟨[], by simp, .nil hs.toKept⟩
    · refine Ensures.bind (Ensures.imp (readsOne_statement s hs) (fun _ _ ht => ht) ?_) ?_
      · intro _ s' hs'
        exact ⟨[], .nil hs'⟩
      · rintro t s' ⟨hs', ht⟩
        refine Ensures.imp (ih (t :: found) (e.after t) hs') ?_ ?_
        · rintro trees s'' ⟨more, rfl, hmore⟩
          exact ⟨t :: more, by simp, hmore.cons ht⟩
        · rintro _ s'' ⟨more, hmore⟩
          exact ⟨t :: more, hmore.cons ht⟩

end Parse

end StackLang
