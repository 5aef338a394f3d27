/-
Sources one after the other in a session.

A text in two parts is read as the statements of the first part and then, from the table that these leave, those of the
second (`Session.Reads.append_iff`). Lowering the first part does not depend on what joins the table after it, and
methods are added in order. So compiling the whole text gives what a session gives that reads and lowers one part after
the other, or reads both and then lowers both (`compile_append_eq_ok_iff`).
-/
import StackLang.Proofs.Lowering.Compiled
import StackLang.Proofs.Lowering.Tables
import StackLang.Proofs.Source.Continued
import StackLang.Proofs.Source.Separated

namespace StackLang

namespace Session

/-! ## Runs of two sources -/

def read (source : String) : SessionM (List Tree) := do
  parse (← tokens source)

/-- two sources, the first one lowered before the second one is read -/
def runInTurn (first second : String) : SessionM Bytes := do
  lower (← read first)
  lower (← read second)
  write

/-- two sources, both read before the first one is lowered -/
def runReadFirst (first second : String) : SessionM Bytes := do
  let trees ← read first
  let more ← read second
  lower trees
  lower more
  write

/-! ## What a source is read as -/

/-- a source is read as statements from one table, and leaves another -/
def Reads (source : String) (functions : FunctionTable) (trees : List Tree) (functions' : FunctionTable) : Prop :=
  ∃ tokens left, tokenize source = .ok tokens ∧
    Parse.statements nestingLimit [] tokens ⟨.ofTokens tokens, functions, [], none⟩ = .ok trees left ∧
    functions' = left.functions

variable {source first second : String} {F F₁ F₂ : FunctionTable} {trees more all : List Tree} {s s' : Session}

theorem read_eq_ok :
    read source s = .ok trees s' ↔ ∃ functions, Reads source s.functions trees functions ∧ s' = ⟨functions, s.target⟩ := by
  unfold read
  rw [Step.bind_eq_ok]
  constructor
  · rintro ⟨tokens, _, htokens, hparse⟩
    obtain ⟨htokenize, rfl⟩ := tokens_eq_ok.1 htokens
    obtain ⟨left, hstatements, rfl⟩ := parse_eq_ok.1 hparse
    exact ⟨left.functions, ⟨tokens, left, htokenize, hstatements, rfl⟩, rfl⟩
  · rintro ⟨_, ⟨tokens, left, htokenize, hstatements, rfl⟩, rfl⟩
    exact ⟨tokens, s, tokens_eq_ok.2 ⟨htokenize, rfl⟩, parse_eq_ok.2 ⟨left, hstatements, rfl⟩⟩

namespace Reads

theorem unique (h : Reads source F trees F₁) (h' : Reads source F more F₂) : trees = more ∧ F₁ = F₂ := by
  obtain ⟨tokens, left, htokens, hstatements, rfl⟩ := h
  obtain ⟨tokens', left', htokens', hstatements', rfl⟩ := h'
  cases htokens.symm.trans htokens'
  cases hstatements.symm.trans hstatements'
  exact ⟨rfl, rfl⟩

/-- what is read keeps the rules, and its definitions join the table -/
theorem programRead (h : Reads source F trees F₁) :
    ProgramRules F trees ∧ (∀ t ∈ trees, t.Proper) ∧ F₁ = F.afterAll trees := by
  obtain ⟨tokens, left, htokens, hstatements, rfl⟩ := h
  have hread := Parse.programRead_of_tokenize htokens hstatements
  exact ⟨hread.rules, hread.derives.proper (lexed_of_tokenize htokens), hread.functions⟩

/-- a text in two parts is read part by part -/
theorem append_iff (h : Reads first F trees F₁) :
    Reads (first ++ "\n" ++ second) F all F₂ ↔ ∃ more, Reads second F₁ more F₂ ∧ all = trees ++ more := by
  obtain ⟨tokens, left, htokens, hstatements, rfl⟩ := h
  rcases tokenize_append htokens second with ⟨ts, ts', hsecond, hwhole, hlike⟩ | ⟨bad, bad', hsecond, hwhole⟩
  · have hagrees := Parse.statements_append hstatements (Parse.programRead_of_tokenize htokens hstatements) hlike
    cases hrun : Parse.statements nestingLimit [] ts ⟨.ofTokens ts, left.functions, [], none⟩ with
    | ok more left₂ =>
      rw [hrun] at hagrees
      obtain ⟨_, t, hall, rfl, hbeside⟩ := hagrees.2 (.inl rfl)
      have hpart : Reads second left.functions more left₂.functions := ⟨ts, left₂, hsecond, hrun, rfl⟩
      have hboth : Reads (first ++ "\n" ++ second) F (trees ++ more) left₂.functions :=
        ⟨tokens ++ ts', t, hwhole, hall, hbeside.functions⟩
      constructor
      · intro h
        obtain ⟨rfl, rfl⟩ := h.unique hboth
        exact ⟨more, hpart, rfl⟩
      · rintro ⟨_, h, rfl⟩
        obtain ⟨rfl, rfl⟩ := h.unique hpart
        exact hboth
    | error fault left₂ =>
      rw [hrun] at hagrees
      obtain ⟨_, _, hall, -⟩ := hagrees rfl
      refine iff_of_false ?_ ?_
      · rintro ⟨_, _, htokens', hstatements', -⟩
        cases hwhole.symm.trans htokens'
        cases hall.symm.trans hstatements'
      · rintro ⟨_, ⟨_, _, htokens', hstatements', -⟩, -⟩
        cases hsecond.symm.trans htokens'
        cases hrun.symm.trans hstatements'
  · refine iff_of_false ?_ ?_
    · rintro ⟨_, _, htokens', -⟩
      cases hwhole.symm.trans htokens'
    · rintro ⟨_, ⟨_, _, htokens', -⟩, -⟩
      cases hsecond.symm.trans htokens'

/-- lowering what was read first does not depend on what is read after it -/
theorem definitions_eq (h : Reads first F trees F₁) (h' : Reads second F₁ more F₂) (depth : Nat) :
    Lower.definitions F₂ depth trees = Lower.definitions F₁ depth trees := by
  obtain ⟨hrules, hproper, rfl⟩ := h.programRead
  obtain ⟨-, -, rfl⟩ := h'.programRead
  exact Lower.definitions_sameOn hproper fun t ht => hrules.sameOn more ht

end Reads

/-! ## What the runs come to -/

/-- after a first source, read as `trees`: the second is read from the table that the first leaves, the first is lowered
with that table, the second behind it with its own, and the whole is written -/
def Joined (options : Options) (trees : List Tree) (F₁ : FunctionTable) (second : String) (bytes : Bytes) : Prop :=
  ∃ more F₂ target₁ target₂ target, Reads second F₁ more F₂ ∧
    Lower.definitions F₁ nestingLimit trees (.empty options.className options.superName) = .ok () target₁ ∧
    Lower.definitions F₂ nestingLimit more target₁ = .ok () target₂ ∧ Module.toBytes target₂ = .ok bytes target

variable {options : Options} {bytes : Bytes}

theorem run_eq (source : String) : run source = (do lower (← read source); write) := by
  simp [runWithin, read]

theorem compile_eq_ok_iff_joined (h : Reads first .initial trees F₁) :
    compile options (first ++ "\n" ++ second) = .ok bytes ↔ Joined options trees F₁ second bytes := by
  rw [compile, Step.outcome_eq_ok, run_eq]
  simp only [Step.bind_eq_ok, read_eq_ok, lower_eq_ok, write_eq_ok]
  constructor
  · rintro ⟨_, all, _, ⟨F₂, hread, rfl⟩, _, _, ⟨target₂, hlower, rfl⟩, target, hwrite, -⟩
    obtain ⟨more, hmore, rfl⟩ := h.append_iff.1 hread
    rw [Lower.definitions_append, h.definitions_eq hmore] at hlower
    obtain ⟨_, target₁, hfirst, hsecond⟩ := Step.bind_eq_ok.1 hlower
    exact ⟨more, F₂, target₁, target₂, target, hmore, hfirst, hsecond, hwrite⟩
  · rintro ⟨more, F₂, target₁, target₂, target, hmore, hfirst, hsecond, hwrite⟩
    have hlower : Lower.definitions F₂ nestingLimit (trees ++ more) (.empty options.className options.superName) =
        .ok () target₂ := by
      rw [Lower.definitions_append, h.definitions_eq hmore]
      exact Step.bind_eq_ok.2 ⟨_, target₁, hfirst, hsecond⟩
    exact ⟨_, trees ++ more, _, ⟨F₂, h.append_iff.2 ⟨more, hmore, rfl⟩, rfl⟩, (), _, ⟨target₂, hlower, rfl⟩, target, hwrite,
      rfl⟩

theorem runInTurn_eq_ok_iff_joined (h : Reads first .initial trees F₁) :
    Step.outcome (runInTurn first second (.fresh options)) = .ok bytes ↔ Joined options trees F₁ second bytes := by
  rw [Step.outcome_eq_ok]
  simp only [runInTurn, Step.bind_eq_ok, read_eq_ok, lower_eq_ok, write_eq_ok]
  constructor
  · rintro ⟨_, _, _, ⟨_, hread, rfl⟩, _, _, ⟨target₁, hfirst, rfl⟩, more, _, ⟨F₂, hmore, rfl⟩, _, _,
      ⟨target₂, hsecond, rfl⟩, target, hwrite, -⟩
    obtain ⟨rfl, rfl⟩ := h.unique hread
    exact ⟨more, F₂, target₁, target₂, target, hmore, hfirst, hsecond, hwrite⟩
  · rintro ⟨more, F₂, target₁, target₂, target, hmore, hfirst, hsecond, hwrite⟩
    exact ⟨_, trees, _, ⟨F₁, h, rfl⟩, (), _, ⟨target₁, hfirst, rfl⟩, more, _, ⟨F₂, hmore, rfl⟩, (), _,
      ⟨target₂, hsecond, rfl⟩, target, hwrite, rfl⟩

theorem runReadFirst_eq_ok_iff_joined (h : Reads first .initial trees F₁) :
    Step.outcome (runReadFirst first second (.fresh options)) = .ok bytes ↔ Joined options trees F₁ second bytes := by
  rw [Step.outcome_eq_ok]
  simp only [runReadFirst, Step.bind_eq_ok, read_eq_ok, lower_eq_ok, write_eq_ok]
  constructor
  · rintro ⟨_, _, _, ⟨_, hread, rfl⟩, more, _, ⟨F₂, hmore, rfl⟩, _, _, ⟨target₁, hfirst, rfl⟩, _, _,
      ⟨target₂, hsecond, rfl⟩, target, hwrite, -⟩
    obtain ⟨rfl, rfl⟩ := h.unique hread
    rw [h.definitions_eq hmore] at hfirst
    exact ⟨more, F₂, target₁, target₂, target, hmore, hfirst, hsecond, hwrite⟩
  · rintro ⟨more, F₂, target₁, target₂, target, hmore, hfirst, hsecond, hwrite⟩
    rw [← h.definitions_eq hmore] at hfirst
    exact ⟨_, trees, _, ⟨F₁, h, rfl⟩, more, _, ⟨F₂, hmore, rfl⟩, (), _, ⟨target₁, hfirst, rfl⟩, (), _,
      ⟨target₂, hsecond, rfl⟩, target, hwrite, rfl⟩

end Session

/-- **Incremental compilation.** Where the first of two sources is read in a fresh session, their text with a line feed
between them compiles to some bytes if and only if one session writes these bytes after the two sources, each lowered
before the next is read; and if and only if it does so with both read before they are lowered. -/
theorem compile_append_eq_ok_iff {options : Options} {first : String} {trees : List Tree} {session : Session}
    (h : Session.read first (.fresh options) = .ok trees session) (second : String) (bytes : Bytes) :
    (compile options (first ++ "\n" ++ second) = .ok bytes ↔
      Step.outcome (Session.runInTurn first second (.fresh options)) = .ok bytes) ∧
    (compile options (first ++ "\n" ++ second) = .ok bytes ↔
      Step.outcome (Session.runReadFirst first second (.fresh options)) = .ok bytes) := by
  obtain ⟨F₁, hreads, -⟩ := Session.read_eq_ok.1 h
  have hwhole : compile options (first ++ "\n" ++ second) = .ok bytes ↔ Session.Joined options trees F₁ second bytes :=
    Session.compile_eq_ok_iff_joined hreads
  exact ⟨hwhole.trans (Session.runInTurn_eq_ok_iff_joined hreads).symm,
    hwhole.trans (Session.runReadFirst_eq_ok_iff_joined hreads).symm⟩

/-- a definition, and in a second text a call of it -/
def definingText : String :=
  "fun f()\x7b\x7d"

def callingText : String :=
  "fun g()\x7bf();\x7d"

theorem definingText_callingText : ∃ bytes,
    compile .default (definingText ++ "\n" ++ callingText) = .ok bytes ∧
    Step.outcome (Session.runInTurn definingText callingText (.fresh .default)) = .ok bytes ∧
    Step.outcome (Session.runReadFirst definingText callingText (.fresh .default)) = .ok bytes := by
  have hread : (Step.outcome (Session.read definingText (.fresh .default))).toOption =
      some [.define "f" [] TypeWord.void []] := by decide +kernel
  obtain ⟨session, hsession⟩ := Step.outcome_eq_ok.1 (Step.eq_ok_of_toOption hread)
  have hcompiles : (compile .default (definingText ++ "\n" ++ callingText)).toOption.isSome = true := by decide +kernel
  obtain ⟨bytes, hbytes⟩ := Option.isSome_iff_exists.1 hcompiles
  have hwhole := Step.eq_ok_of_toOption hbytes
  obtain ⟨hinTurn, hreadFirst⟩ := compile_append_eq_ok_iff hsession callingText bytes
  exact ⟨bytes, hwhole, hinTurn.1 hwhole, hreadFirst.1 hwhole⟩

end StackLang
