/-
Histories of a session.

A session is used by reading tokens, lowering programs and running sources, in any order; each of these may fail and
leaves the session as far as it got. The table only grows, and only by definitions that keep the rules, so what reading
made sure of a program holds for the rest of the history (`Known`). Lowering such a program later, whatever happened in
between, fails for nothing that reading excludes (`lowered_late_in_history`).
-/
import StackLang.Proofs.Lowering.DecidedPrograms
import StackLang.Proofs.Session.Incremental
import StackLang.Proofs.Source.Outcomes

namespace StackLang

open Step (Ensures)

/-- faults of lowering that reading excludes -/
def Fault.isEarly : Fault → Bool
  | .lower fault => fault.isEarly
  | .scan _ | .parse _ | .write _ => false

/-- a table grown by statements that keep the rules -/
def FunctionTable.GrowsTo (F G : FunctionTable) : Prop :=
  ∃ more, ProgramRules F more ∧ G = F.afterAll more

namespace Session

/-! ## Actions -/

/-- what a session is used for -/
inductive Action where
  | parse (tokens : List Token)
  /-- lower statements, whether they were read in this session or not -/
  | lower (statements : List Tree)
  | run (source : String)

/-- a session in use, and the programs read in it so far -/
structure History where
  session : Session
  programs : List (List Tree)

/-- the history after an action; a program joins it if it was read, whatever comes of it -/
def History.after (h : History) : Action → History
  | .parse tokens =>
    ⟨Step.left (parse tokens h.session), h.programs ++ (Step.outcome (parse tokens h.session)).toOption.toList⟩
  | .lower statements => ⟨Step.left (Session.lower statements h.session), h.programs⟩
  | .run source =>
    ⟨Step.left (Session.run source h.session), h.programs ++ (Step.outcome (read source h.session)).toOption.toList⟩

def History.afterAll (h : History) (actions : List Action) : History :=
  actions.foldl History.after h

theorem History.afterAll_cons (h : History) (action : Action) (actions : List Action) :
    h.afterAll (action :: actions) = (h.after action).afterAll actions := rfl

/-! ## Single steps -/

/-- programs that lowering can count on with this table -/
def Readable (functions : FunctionTable) (trees : List Tree) : Prop :=
  ∀ t ∈ trees, Lower.StatementRead False functions t

/-- a step that reads: the table grows in both outcomes, and what is read can be counted on -/
def ReadsOn (x : SessionM (List Tree)) (s : Session) : Prop :=
  Ensures x s (fun trees s' => s.functions.GrowsTo s'.functions ∧ Readable s'.functions trees)
    (fun fault s' => fault.isEarly = false ∧ s.functions.GrowsTo s'.functions)

/-- without a source text nothing is asked of tokens -/
theorem suits_read (x : Token) : x.Suits (.read False) :=
  ⟨fun _ => trivial, fun _ _ _ _ _ hlexed => hlexed.elim⟩

theorem readsOn_parse (tokens : List Token) (s : Session) : ReadsOn (parse tokens) s := by
  have hready : Parse.Setting.Ready ⟨.read False, s.functions, [], none⟩ ⟨.ofTokens tokens, s.functions, [], none⟩ :=
    ⟨⟨rfl, rfl, rfl⟩, fun x _ => suits_read x⟩
  have hread : Ensures (Parse.statements nestingLimit [] tokens) ⟨.ofTokens tokens, s.functions, [], none⟩ _ _ :=
    Parse.statements_outcome tokens [] _ hready
  unfold ReadsOn Ensures parse parseWithin parseWith
  cases hrun : Parse.statements nestingLimit [] tokens ⟨.ofTokens tokens, s.functions, [], none⟩ with
  | ok trees left =>
    obtain ⟨more, hall, hmore⟩ := hread.of_ok hrun
    rw [List.reverse_nil, List.nil_append] at hall
    subst hall
    refine ⟨⟨trees, hmore.rules, hmore.functions⟩, ?_⟩
    have hreadable := Lower.statementRead_of_rules hmore.forms hmore.rules
    rw [← hmore.functions] at hreadable
    exact hreadable
  | error fault left =>
    obtain ⟨more, hmore⟩ := hread.of_error hrun
    exact ⟨rfl, more, hmore.rules, hmore.functions⟩

theorem readsOn_read (source : String) (s : Session) : ReadsOn (read source) s := by
  unfold ReadsOn read
  cases htokens : tokenize source with
  | ok tokens =>
    unfold Ensures
    rw [Step.bind_of_ok (tokens_eq_ok.2 ⟨htokens, rfl⟩)]
    exact readsOn_parse tokens s
  | error bad =>
    have hfails : Session.tokens source s = .error (.scan bad) s := by rw [Session.tokens, htokens]
    unfold Ensures
    rw [Step.bind_of_error hfails]
    exact ⟨rfl, [], trivial, rfl⟩

theorem functions_lower (statements : List Tree) (s : Session) :
    (Step.left (Session.lower statements s)).functions = s.functions := by
  cases hlower : Session.lower statements s with
  | ok u s' =>
    obtain ⟨target, -, rfl⟩ := lower_eq_ok.1 hlower
    rfl
  | error fault s' =>
    obtain ⟨found, target, -, -, rfl⟩ := lower_eq_error.1 hlower
    rfl

theorem functions_write (s : Session) : (Step.left (write s)).functions = s.functions := by
  unfold write
  cases hrun : Module.toBytes s.target with
  | ok bytes target => simp [hrun, Step.left]
  | error fault target => simp [hrun, Step.left]

/-- a run changes the table by reading only -/
theorem functions_run (source : String) (s : Session) :
    (Step.left (Session.run source s)).functions = (Step.left (read source s)).functions := by
  rw [run_eq]
  cases hread : read source s with
  | error fault s' =>
    rw [Step.bind_of_error hread]
    rfl
  | ok trees s' =>
    rw [Step.bind_of_ok hread]
    have hsame := functions_lower trees s'
    cases hlower : Session.lower trees s' with
    | error fault t =>
      rw [Step.bind_of_error hlower]
      rw [hlower] at hsame
      exact hsame
    | ok u t =>
      rw [Step.bind_of_ok hlower, functions_write]
      rw [hlower] at hsame
      exact hsame

/-- lowering what was read fails for nothing that reading excludes -/
theorem ensures_lower {s : Session} {trees : List Tree} (htyped : s.functions.Typed)
    (hreadable : Readable s.functions trees) :
    Ensures (Session.lower trees) s (fun _ _ => True) (fun fault _ => fault.isEarly = false) := by
  have hdecides : Lower.Decides False (Lower.definitions s.functions nestingLimit trees) s.target _ _ :=
    Lower.decides_definitions htyped hreadable s.target
  unfold Ensures
  cases hlower : Session.lower trees s with
  | ok u s' => trivial
  | error fault s' =>
    obtain ⟨found, target, hrun, rfl, rfl⟩ := lower_eq_error.1 hlower
    have hlate := (Ensures.of_error hdecides hrun).1
    cases found with
    | tooDeep => rfl
    | _ => exact hlate

theorem ensures_write (s : Session) : Ensures write s (fun _ _ => True) (fun fault _ => fault.isEarly = false) := by
  unfold Ensures write
  cases hrun : Module.toBytes s.target with
  | ok bytes target => simp [hrun]
  | error fault target => simp [hrun, Fault.isEarly]

/-! ## Whole histories -/

/-- the table is typed, and all programs read so far can be counted on -/
structure Known (functions : FunctionTable) (programs : List (List Tree)) : Prop where
  typed : functions.Typed
  readable : ∀ trees ∈ programs, Readable functions trees

theorem Known.grow {F G : FunctionTable} {programs : List (List Tree)} (h : Known F programs) (hgrows : F.GrowsTo G) :
    Known G programs := by
  obtain ⟨more, hrules, rfl⟩ := hgrows
  exact ⟨h.typed.afterAll hrules, fun trees htrees t ht => (h.readable trees htrees t ht).afterAll more⟩

theorem Known.read {x : SessionM (List Tree)} {s : Session} {programs : List (List Tree)} (h : Known s.functions programs)
    (hx : ReadsOn x s) :
    Known (Step.left (x s)).functions (programs ++ (Step.outcome (x s)).toOption.toList) := by
  cases hrun : x s with
  | error fault s' =>
    have hgrown := h.grow (Ensures.of_error hx hrun).2
    simpa [Step.outcome, Step.left, Except.toOption] using hgrown
  | ok trees s' =>
    obtain ⟨hgrows, hreadable⟩ := Ensures.of_ok hx hrun
    have hgrown := h.grow hgrows
    refine ⟨hgrown.typed, fun found hfound => ?_⟩
    rcases List.mem_append.1 hfound with hold | hnew
    · exact hgrown.readable found hold
    · have heq : found = trees := by simpa [Step.outcome, Except.toOption] using hnew
      exact heq ▸ hreadable

/-- a run fails in lowering for nothing that reading excludes -/
theorem Known.ensures_run {s : Session} {programs : List (List Tree)} (h : Known s.functions programs) (source : String) :
    Ensures (Session.run source) s (fun _ _ => True) (fun fault _ => fault.isEarly = false) := by
  have hread : Ensures (Session.read source) s
      (fun trees s' => s.functions.GrowsTo s'.functions ∧ Readable s'.functions trees)
      (fun fault _ => fault.isEarly = false) :=
    Ensures.imp (readsOn_read source s) (fun _ _ hx => hx) (fun _ _ hx => hx.1)
  rw [run_eq]
  refine hread.bind fun trees t ht => ?_
  exact (ensures_lower (h.grow ht.1).typed ht.2).bind fun _ u _ => ensures_write u

theorem known_after {h : History} (hknown : Known h.session.functions h.programs) (action : Action) :
    Known (h.after action).session.functions (h.after action).programs := by
  cases action with
  | parse tokens => exact hknown.read (readsOn_parse tokens h.session)
  | lower statements =>
    have hsame : (h.after (.lower statements)).session.functions = h.session.functions :=
      functions_lower statements h.session
    rw [hsame]
    exact hknown
  | run source =>
    have hsame : (h.after (.run source)).session.functions = (Step.left (Session.read source h.session)).functions :=
      functions_run source h.session
    rw [hsame]
    exact hknown.read (readsOn_read source h.session)

theorem known_afterAll {h : History} (hknown : Known h.session.functions h.programs) (actions : List Action) :
    Known (h.afterAll actions).session.functions (h.afterAll actions).programs := by
  induction actions generalizing h with
  | nil => exact hknown
  | cons action rest ih =>
    rw [History.afterAll_cons]
    exact ih (known_after hknown action)

/-- **Lowering repeats no check.** Whatever a session that starts with the first table was used for, whether it failed or
not: lowering a program that was read in it fails for nothing that reading excludes, and neither does the lowering in a
run of a further source. -/
theorem lowered_late_in_history (target : Module) (actions : List Action) :
    let h := History.afterAll ⟨⟨.initial, target⟩, []⟩ actions
    (∀ trees ∈ h.programs, ∀ fault s, Session.lower trees h.session = .error fault s → fault.isEarly = false) ∧
      ∀ source fault s, Session.run source h.session = .error fault s → fault.isEarly = false := by
  intro h
  have hknown : Known h.session.functions h.programs :=
    known_afterAll ⟨FunctionTable.typed_initial, by simp⟩ actions
  constructor
  · intro trees htrees fault s hlower
    exact (ensures_lower hknown.typed (hknown.readable trees htrees)).of_error hlower
  · intro source fault s hrun
    exact (hknown.ensures_run source).of_error hrun

/-- a program that reads a variable which nothing declares -/
def undeclaredTrees : List Tree :=
  [.define "f" [] TypeWord.int [.ret (.ident "x")]]

/-- the program is read but not lowered, and its function is not read a second time -/
def failingActions : List Action :=
  [.run "fun f()int\x7breturn x;\x7d", .run "fun f()\x7b\x7d"]

theorem failingActions_late :
    let h := History.afterAll ⟨⟨.initial, .empty "Main" "base/Object"⟩, []⟩ failingActions
    h.programs = [undeclaredTrees] ∧
      ∃ fault s, Session.lower undeclaredTrees h.session = .error fault s ∧ fault.isEarly = false := by
  intro h
  have hprograms : h.programs = [undeclaredTrees] := by decide +kernel
  have hfails : Step.outcome (Session.lower undeclaredTrees h.session) =
      .error (.lower (.semantic (.undeclaredVariable "x"))) := by decide +kernel
  refine ⟨hprograms, ?_⟩
  cases hlower : Session.lower undeclaredTrees h.session with
  | ok u s =>
    rw [hlower] at hfails
    cases hfails
  | error fault s =>
    have hmem : undeclaredTrees ∈ h.programs := by simp [hprograms]
    exact ⟨fault, s, rfl, (lowered_late_in_history _ failingActions).1 undeclaredTrees hmem fault s hlower⟩

end Session

end StackLang
