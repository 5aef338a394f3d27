/-
The function table records the finished definitions.

A statement that is read leaves the table with its definition behind all others, and one that fails leaves it alone
(`statement_records`). Statements read in turn (`InTurn`) so leave the entries of their definitions in order, and a whole
program is statements read in turn, up to the end or up to one that fails (`statements_inTurn`).

While a body is read there are declared names, up to its end or its fault, a statement is one of a body
(`statement_inside`), and so a word `fun` is refused. Leaving the body forgets them in both outcomes, so after every
statement that started outside of all bodies, read or not, reading is outside of them (`AtTopLevel`): a word `fun` that
comes next is stepped over, and a definition that keeps the rules is entered.
-/
import StackLang.Proofs.Source.Outcomes
import StackLang.Proofs.Source.StatementComplete

namespace StackLang

open Step (Ensures)

/-- the entries of a first table and then those of the definitions among statements, all under names of their own -/
structure FunctionTable.Records (first : FunctionTable) (trees : List Tree) (functions : FunctionTable) : Prop where
  entries : functions.entries = first.entries ++ trees.filterMap Tree.definition?
  distinct : functions.names.Nodup

namespace Parse

variable {depth : Nat} {s s' s₁ : ParseState} {t : Tree} {trees : List Tree}

/-! ## One call, one statement -/

/-- no condition on names and numbers -/
def anyAtoms : Atoms :=
  ⟨fun _ => True, fun _ => True⟩

/-- the setting of a state, without such a condition -/
def Setting.of (s : ParseState) : Setting :=
  ⟨anyAtoms, s.functions, s.finished, s.declared⟩

theorem ready_of (s : ParseState) : (Setting.of s).Ready s :=
  ⟨⟨rfl, rfl, rfl⟩, fun _ _ => ⟨fun _ => trivial, fun _ _ _ _ _ => trivial⟩⟩

/-- a call that is read is of the function whose name it starts with, which is in the table; only the cursor moves -/
theorem functionCall_calls (h : functionCall (expression depth) s = .ok t s') :
    (∃ x arguments signature, s.cursor.ahead.head? = some x ∧ t = .call x.name arguments ∧
      s.functions.lookup x.name = .ok signature) ∧ (Setting.of s).Kept s' := by
  obtain ⟨hready, -, hknown⟩ := (quiet_functionCall (quietAt (.of s) depth).expression s (ready_of s)).of_ok h
  obtain ⟨arguments, x, hx, rfl⟩ := functionCall_callee h
  obtain ⟨signature, hlookup⟩ := FunctionTable.lookup_of_mem (CallsKnown.call_iff.1 hknown).1
  exact ⟨⟨x, arguments, signature, hx, rfl, hlookup⟩, hready.toKept⟩

/-- a statement leaves its definition in the table, or nothing -/
theorem statement_records (depth : Nat) (s : ParseState) :
    Ensures (statement depth) s (fun t s' => s'.functions = s.functions.after t ∧ StatementRules s.functions t)
      (fun _ s' => s'.functions = s.functions) :=
  (readsOne_statement s (ready_of s)).imp (fun _ _ h => ⟨h.1.functions, h.2.2⟩) fun _ _ h => h.functions

/-- a statement that starts outside of all bodies ends there -/
theorem statement_outside (depth : Nat) (hs : s.declared = none) : (Step.left (statement depth s)).declared = none := by
  refine Ensures.left ((readsOne_statement s (ready_of s)).imp ?_ fun _ s' h => h.declared.trans hs)
  rintro t s' ⟨hready, -⟩
  rw [hready.declared, Setting.after, Setting.of, hs]
  rfl

/-! ## Statements in turn -/

/-- statements read one after the other, each from what the one before it leaves behind -/
inductive InTurn (depth : Nat) : ParseState → List Tree → ParseState → Prop
  | nil {s : ParseState} : InTurn depth s [] s
  | cons {s s₁ s' : ParseState} {t : Tree} {trees : List Tree} :
      statement depth s = .ok t s₁ → InTurn depth s₁ trees s' → InTurn depth s (t :: trees) s'

theorem InTurn.functions (h : InTurn depth s trees s') :
    s'.functions = s.functions.afterAll trees ∧ ProgramRules s.functions trees := by
  induction h with
  | nil => exact ⟨rfl, trivial⟩
  | cons hfirst _ ih =>
    obtain ⟨hafter, hrules⟩ := (statement_records _ _).of_ok hfirst
    rw [hafter] at ih
    exact ⟨ih.1, hrules, ih.2⟩

theorem InTurn.records (h : InTurn depth s trees s') (hnames : s.functions.names.Nodup) :
    s.functions.Records trees s'.functions := by
  obtain ⟨hafter, hrules⟩ := h.functions
  rw [hafter]
  exact ⟨FunctionTable.entries_afterAll _ _, hrules.nodup hnames⟩

theorem InTurn.outside (h : InTurn depth s trees s') (hs : s.declared = none) : s'.declared = none := by
  induction h with
  | nil => exact hs
  | cons hfirst _ ih =>
    have hleft := statement_outside depth hs
    rw [hfirst] at hleft
    exact ih hleft

/-- a program is read statement by statement, up to the end or up to a statement that fails -/
theorem statements_inTurn (depth : Nat) (rounds : List Token) (found : List Tree) (s : ParseState) :
    Ensures (statements depth found rounds) s
      (fun all s' => ∃ trees, all = found.reverse ++ trees ∧ InTurn depth s trees s')
      (fun fault s' => ∃ trees s₁, InTurn depth s trees s₁ ∧ statement depth s₁ = .error fault s') := by
  induction rounds generalizing found s with
  | nil => exact ⟨[], by simp, .nil⟩
  | cons _ rounds ih =>
    rw [statements, Ensures, Step.bind_of_ok (exhausted_apply s), ← Ensures]
    split
    · exact ⟨[], by simp, .nil⟩
    · have hfirst : Ensures (statement depth) s (fun t s₁ => statement depth s = .ok t s₁)
          (fun fault s' => ∃ trees s₁, InTurn depth s trees s₁ ∧ statement depth s₁ = .error fault s') :=
        .intro (fun t s₁ h => h) (fun fault s' h => ⟨[], s, .nil, h⟩)
      refine hfirst.bind fun t s₁ ht => Ensures.imp (ih (t :: found) s₁) ?_ ?_
      · rintro all s' ⟨trees, rfl, hrest⟩
        exact ⟨t :: trees, by simp, .cons ht hrest⟩
      · rintro fault s' ⟨trees, s₂, hrest, hfails⟩
        exact ⟨t :: trees, s₂, .cons ht hrest, hfails⟩

/-! ## Inside and outside of function bodies -/

/-- inside a body a statement is one of the body -/
theorem statement_inside (hs : s.declared ≠ none) : statement depth s = bodyStatement depth s := by
  cases hcurrent : current s with
  | error fault t => rw [statement, bodyStatement, Step.bind_of_error hcurrent, Step.bind_of_error hcurrent]
  | ok x t =>
    obtain ⟨-, rfl⟩ := current_eq_ok.1 hcurrent
    rw [statement, Step.bind_of_ok hcurrent, Step.bind_of_ok (Step.get_apply _), if_neg (by simp [hs])]

/-- a definition in a body is refused where it starts -/
theorem bodyStatement_fun {f : Token} {rest : List Token} (hahead : s.cursor.ahead = f :: rest)
    (hf : f.kind = .funWord) :
    bodyStatement depth s = .error (.semantic .nestedDefinition (some f.position)) s := by
  have hcurrent : current s = .ok f s := current_eq_ok.2 ⟨by rw [hahead]; rfl, rfl⟩
  rw [bodyStatement, Step.bind_of_ok hcurrent]
  simp only [hf]
  rfl

/-- the statements of a body, run from where its parameters are declared -/
def bodyRun (depth : Nat) (parameters : List Parameter) (s : ParseState) :
    EStateM.Result ParseFault ParseState (List Tree) :=
  block depth [] s.cursor.ahead { s with declared := some (parameters.map (·.name)) }

/-- at the end or the fault of its statements reading is still inside the body -/
theorem bodyRun_declared (depth : Nat) (parameters : List Parameter) (s : ParseState) :
    (Step.left (bodyRun depth parameters s)).declared ≠ none := by
  have hready : ((Setting.of s).inside (parameters.map (·.name))).Ready
      { s with declared := some (parameters.map (·.name)) } :=
    ⟨⟨rfl, rfl, rfl⟩, (ready_of s).tokens⟩
  have hinside : Ensures (block depth [] s.cursor.ahead) { s with declared := some (parameters.map (·.name)) }
      (fun _ t => t.declared ≠ none) (fun _ t => t.declared ≠ none) := by
    refine (block_outcome s.cursor.ahead [] _ hready).imp ?_ ?_
    · rintro _ t ⟨⟨names, ht⟩, -⟩
      simp [ht.declared, Setting.inside]
    · rintro _ t ⟨names, ht⟩
      simp [ht.declared, Setting.inside]
  exact hinside.left

/-- leaving the body is what forgets the names -/
theorem left_body (depth : Nat) (parameters : List Parameter) (s : ParseState) :
    Step.left (body depth parameters s) = { Step.left (bodyRun depth parameters s) with declared := none } :=
  Step.left_leaving _ _ s

/-- outside of all function bodies: the word `fun` is stepped over, and what derives a statement that keeps the rules,
a definition or not, is read as one -/
structure AtTopLevel (depth : Nat) (s : ParseState) : Prop where
  outside : s.declared = none
  stepsOver : ∀ f rest, s.cursor.ahead = f :: rest → f.kind = .funWord →
    (Step.left (statement depth s)).cursor.tokens = s.cursor.tokens ∧
      s.cursor.position < (Step.left (statement depth s)).cursor.position
  accepts : ∀ ts rest t, s.cursor.ahead = ts ++ rest → Grammar.Statement ts t → StatementRules s.functions t → Fit ts →
    Yields (statement depth) s t ⟨⟨ts.reverse ++ s.cursor.passed, rest⟩, s.functions.after t,
      s.finished ++ [t].filter Tree.isDefinition, none⟩

/-- behind the word `fun` a definition is read -/
theorem statement_fun {f : Token} {passed rest : List Token} {functions : FunctionTable} {finished : List Tree}
    (hf : f.kind = .funWord) :
    statement depth ⟨⟨passed, f :: rest⟩, functions, finished, none⟩ =
      definition depth ⟨⟨f :: passed, rest⟩, functions, finished, none⟩ := by
  rw [statement, Step.bind_of_ok current_cons, Step.bind_of_ok (Step.get_apply _), if_pos ⟨hf, rfl⟩,
    Step.bind_of_ok advance_cons]

theorem atTopLevel (depth : Nat) (hs : s.declared = none) : AtTopLevel depth s := by
  obtain ⟨⟨passed, ahead⟩, functions, finished, declared⟩ := s
  obtain rfl : declared = none := hs
  refine ⟨rfl, ?_, ?_⟩
  · rintro f rest ⟨⟩ hf
    have hoccupied : Cursor.tokens ⟨passed, f :: rest⟩ ≠ [] := by simp [Cursor.tokens]
    have hstart : Stretch.Holds ⟨_, passed.length + 1, hoccupied⟩ ⟨⟨f :: passed, rest⟩, functions, finished, none⟩ :=
      ⟨by simp [Cursor.tokens], by simp [Cursor.position]⟩
    have hplaced : PlacedPhrase ⟨_, passed.length + 1, hoccupied⟩ (definition depth) := placed_definition
    have hleft := Ensures.left (Ensures.imp (hplaced _ hstart) (fun _ _ h => h.1) (fun _ _ h => h.1))
    rw [statement_fun hf]
    exact ⟨hleft.row, hleft.origin⟩
  · rintro ts rest t ⟨⟩ hderives hrules hfit
    obtain ⟨levels, haccepted⟩ := statement_complete hderives hrules hfit
    exact (haccepted depth rest passed finished).yields

/-- **The table records exactly the finished definitions.** From any table of distinct names and any tokens, a program is
read as statements in turn, up to the end or up to a statement that fails; in both cases the table is the first one and
then the entries of the definitions among these statements, in order, and its names are distinct. A statement that fails
leaves the table alone. Every statement that starts outside of function bodies, read or not, leaves reading outside of
them, and so does a program; though while a body is read, up to its end or its fault, reading is inside of one, where
statements are those of a body and a word `fun` is refused. -/
theorem program_records_definitions (depth : Nat) (tokens : List Token) {first : FunctionTable}
    (hfirst : first.names.Nodup) :
    Ensures (program depth) ⟨.ofTokens tokens, first, [], none⟩
      (fun t s => ∃ trees, t = .program trees ∧ InTurn depth ⟨.ofTokens tokens, first, [], none⟩ trees s ∧
        first.Records trees s.functions ∧ AtTopLevel depth s)
      (fun fault s => ∃ trees s₁, InTurn depth ⟨.ofTokens tokens, first, [], none⟩ trees s₁ ∧
        statement depth s₁ = .error fault s ∧ first.Records trees s.functions ∧ AtTopLevel depth s) ∧
    (∀ s fault s', statement depth s = .error fault s' → s'.functions = s.functions) ∧
    (∀ s, s.declared = none → AtTopLevel depth (Step.left (statement depth s))) ∧
    (∀ parameters s, (Step.left (bodyRun depth parameters s)).declared ≠ none ∧
      Step.left (body depth parameters s) = { Step.left (bodyRun depth parameters s) with declared := none }) ∧
    ∀ s, s.declared ≠ none → statement depth s = bodyStatement depth s ∧
      ∀ f rest, s.cursor.ahead = f :: rest → f.kind = .funWord →
        statement depth s = .error (.semantic .nestedDefinition (some f.position)) s := by
  refine ⟨?_, fun s _ _ => (statement_records depth s).of_error,
    fun s hs => atTopLevel depth (statement_outside depth hs),
    fun parameters s => ⟨bodyRun_declared depth parameters s, left_body depth parameters s⟩, ?_⟩
  · have hread := statements_inTurn depth tokens [] ⟨.ofTokens tokens, first, [], none⟩
    rw [program, Ensures, Step.bind_of_ok (ahead_apply _), ← Ensures]
    refine Ensures.bind (Ensures.imp hread (fun _ _ h => h) ?_) ?_
    · rintro fault s ⟨trees, s₁, hturn, hfails⟩
      have hleft := statement_outside depth (hturn.outside rfl)
      rw [hfails] at hleft
      refine ⟨trees, s₁, hturn, hfails, ?_, atTopLevel depth hleft⟩
      rw [(statement_records depth s₁).of_error hfails]
      exact hturn.records hfirst
    · rintro _ s ⟨_, rfl, hturn⟩
      exact ⟨_, rfl, hturn, hturn.records hfirst, atTopLevel depth (hturn.outside rfl)⟩
  · intro s hs
    refine ⟨statement_inside hs, fun f rest hahead hf => ?_⟩
    rw [statement_inside hs, bodyStatement_fun hahead hf]

/-- a finished definition, and behind it one inside the body of another -/
def nestedTokens : List Token :=
  [⟨.funWord, none, ⟨1, 1⟩⟩, ⟨.name, some "f", ⟨1, 5⟩⟩, ⟨.openParen, none, ⟨1, 6⟩⟩, ⟨.closeParen, none, ⟨1, 7⟩⟩,
   ⟨.openBrace, none, ⟨1, 8⟩⟩, ⟨.closeBrace, none, ⟨1, 9⟩⟩, ⟨.funWord, none, ⟨2, 1⟩⟩, ⟨.name, some "g", ⟨2, 5⟩⟩,
   ⟨.openParen, none, ⟨2, 6⟩⟩, ⟨.closeParen, none, ⟨2, 7⟩⟩, ⟨.openBrace, none, ⟨2, 8⟩⟩, ⟨.funWord, none, ⟨2, 9⟩⟩]

/-- the outer definition fails at the inner one, inside its body; only the finished one is recorded, and the inner one
would be read next -/
theorem nestedTokens_recorded : FunctionTable.initial.names.Nodup ∧
    ∃ trees s₁ s, program 9 ⟨.ofTokens nestedTokens, .initial, [], none⟩ =
        .error (.semantic .nestedDefinition (some ⟨2, 9⟩)) s ∧
      statement 9 s₁ = .error (.semantic .nestedDefinition (some ⟨2, 9⟩)) s ∧ s.functions = s₁.functions ∧
      FunctionTable.initial.Records trees s.functions ∧ s.functions.names = ["println", "f"] ∧ AtTopLevel 9 s := by
  have hnames : FunctionTable.initial.names.Nodup := by decide
  have htable : (Step.left (program 9 ⟨.ofTokens nestedTokens, .initial, [], none⟩)).functions.names =
      ["println", "f"] := by decide +kernel
  have houtcome : (Step.outcome (program 9 ⟨.ofTokens nestedTokens, .initial, [], none⟩)).map (fun _ => ()) =
      .error (.semantic .nestedDefinition (some ⟨2, 9⟩)) := by decide +kernel
  -- from here on only these two facts about the tokens matter, and nothing should run them again
  generalize nestedTokens = tokens at htable houtcome ⊢
  obtain ⟨hprogram, hfails, -⟩ := program_records_definitions 9 tokens hnames
  cases hrun : program 9 ⟨.ofTokens tokens, .initial, [], none⟩ with
  | ok t s =>
    rw [hrun] at houtcome
    cases houtcome
  | error fault s =>
    obtain ⟨trees, s₁, -, hlast, hrecords, htop⟩ := hprogram.of_error hrun
    rw [hrun] at htable houtcome
    obtain rfl := Except.error.inj houtcome
    exact ⟨hnames, trees, s₁, s, rfl, hlast, hfails _ _ _ hlast, hrecords, htable, htop⟩

end Parse

end StackLang
