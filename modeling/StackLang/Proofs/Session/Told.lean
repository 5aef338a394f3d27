/-
How a compilation ends, and what a refused source tells.

A source passes through the stages of splitting, reading and building (`compile_of_scan`, `compile_of_parse`,
`compile_of_read`). Each stage tells its faults in its own way (`Fault.Told`): splitting at the earliest character that
offends, reading at a token, unless phrases nest too deeply, building at no place. Faults without a wording do not
occur: number tokens of a text carry digits, and what was read has a call wherever one is lowered. So every compilation
gives bytes or a told fault (`compile_located`).
-/
import StackLang.Proofs.Session.History
import StackLang.Proofs.Source.Places
import StackLang.Proofs.Source.Recorded
import StackLang.Proofs.Source.Refused

namespace StackLang

namespace Session

/-! ## Stages -/

/-- lower statements into a module of its own and write it -/
def build (options : Options) (functions : FunctionTable) (trees : List Tree) : Except Fault Bytes :=
  Step.outcome ((do lower trees; write) ⟨functions, .empty options.className options.superName⟩)

variable {options : Options} {functions : FunctionTable} {trees : List Tree} {target : Module}

theorem build_of_lower {found : LowerFault}
    (h : Lower.definitions functions nestingLimit trees (.empty options.className options.superName) =
      .error found target) : build options functions trees = .error (.lower (toldLowerFault found)) := by
  have hlower : lower trees ⟨functions, .empty options.className options.superName⟩ = .error _ _ :=
    lower_eq_error.2 ⟨found, target, h, rfl, rfl⟩
  rw [build, Step.bind_of_error hlower]
  rfl

theorem build_of_definitions
    (h : Lower.definitions functions nestingLimit trees (.empty options.className options.superName) =
      .ok () target) :
    build options functions trees = (Step.outcome (Module.toBytes target)).mapError .write := by
  have hlower : lower trees ⟨functions, .empty options.className options.superName⟩ = .ok () ⟨functions, target⟩ :=
    lower_eq_ok.2 ⟨target, h, rfl⟩
  rw [build, Step.bind_of_ok hlower, write]
  cases hwrite : Module.toBytes target with
  | ok bytes target' => rfl
  | error fault target' => rfl

end Session

section

variable {options : Options} {source : String} {tokens : List Token} {trees : List Tree} {left : ParseState}

theorem compile_of_scan {bad : BadCharacter} (h : tokenize source = .error bad) :
    compile options source = .error (.scan bad) := by
  have htokens : Session.tokens source (.fresh options) = .error (.scan bad) (.fresh options) := by
    rw [Session.tokens, h]
  rw [compile, Session.run, Session.runWithin, Step.bind_of_error htokens]
  rfl

theorem compile_of_parse {fault : ParseFault} (htokens : tokenize source = .ok tokens)
    (hread : Parse.statements nestingLimit [] tokens ⟨.ofTokens tokens, .initial, [], none⟩ = .error fault left) :
    compile options source = .error (.parse (Session.toldParseFault fault)) := by
  have hparse : Session.parse tokens (.fresh options) =
      .error (.parse (Session.toldParseFault fault)) { Session.fresh options with functions := left.functions } := by
    simp [Session.parseWithin, Session.parseWith, Session.fresh, hread]
  rw [compile, Session.run, Session.runWithin, Step.bind_of_ok (Session.tokens_eq_ok.2 ⟨htokens, rfl⟩),
    Step.bind_of_error hparse]
  rfl

theorem compile_of_read (htokens : tokenize source = .ok tokens)
    (hread : Parse.statements nestingLimit [] tokens ⟨.ofTokens tokens, .initial, [], none⟩ = .ok trees left) :
    compile options source = Session.build options left.functions trees := by
  have hparse : Session.parse tokens (.fresh options) = .ok trees _ := Session.parse_eq_ok.2 ⟨left, hread, rfl⟩
  rw [compile, Session.run, Session.runWithin, Step.bind_of_ok (Session.tokens_eq_ok.2 ⟨htokens, rfl⟩),
    Step.bind_of_ok hparse]
  rfl

end

/-! ## What the stages tell -/

/-- what a refused source tells, by the stage that refused it -/
inductive Fault.Told (source : String) : Fault → Diagnostic → Prop
  /-- the earliest character that offends; its line by the line feeds before it, its column from the last of them -/
  | scan {before : List Char} {c : Char} : IsFirstOffence source.toList before c →
      Told source (.scan ⟨c, .behind before⟩)
        ⟨.lexical, "unrecognized character " ++ Text.quoted c.toString, some (1 + before.count '\n'),
          some (1 + (before.reverse.takeWhile (· ≠ '\n')).length)⟩
  /-- a token of the source -/
  | parse {tokens : List Token} {x : Token} {fault : ParseFault} {stage : Stage} {message : String} :
      tokenize source = .ok tokens → x ∈ tokens → stage = .syntactic ∨ stage = .semantic →
      Told source (.parse fault) ⟨stage, message, some x.position.line, some x.position.column⟩
  /-- phrases nested too deeply -/
  | nesting : Told source (.parse (.syntactic .nestedTooDeeply none))
      ⟨.syntactic, "program is nested too deeply to parse", none, none⟩
  | lower {fault : LowerFault} {stage : Stage} {message : String} : stage = .semantic ∨ stage = .encoding →
      Told source (.lower fault) ⟨stage, message, none, none⟩
  | write {fault : WriteFault} {message : String} : Told source (.write fault) ⟨.encoding, message, none, none⟩

theorem Fault.Told.stage {source : String} {fault : Fault} {d : Diagnostic} (h : fault.Told source d) :
    d.stage ≠ .internal := by
  cases h with
  | scan => exact Stage.noConfusion
  | parse _ _ hstage => rcases hstage with rfl | rfl <;> exact Stage.noConfusion
  | nesting => exact Stage.noConfusion
  | lower hstage => rcases hstage with rfl | rfl <;> exact Stage.noConfusion
  | write => exact Stage.noConfusion

/-- a fault has a wording, told in the way of its stage -/
def Fault.IsTold (source : String) (fault : Fault) : Prop :=
  ∃ d, fault.diagnostic? = some d ∧ fault.Told source d

theorem scan_isTold {source : String} {bad : BadCharacter} (h : tokenize source = .error bad) :
    (Fault.scan bad).IsTold source := by
  obtain ⟨before, c, hfirst, rfl⟩ := tokenize_eq_error_iff.1 h
  exact ⟨_, rfl, .scan hfirst⟩

theorem parse_isTold {source : String} {tokens : List Token} {functions : FunctionTable} {fault : ParseFault}
    {left : ParseState} (htokens : tokenize source = .ok tokens)
    (hread : Parse.statements nestingLimit [] tokens ⟨.ofTokens tokens, functions, [], none⟩ = .error fault left) :
    (Fault.parse (Session.toldParseFault fault)).IsTold source := by
  have hoccupied : tokens ≠ [] := by
    rintro rfl
    cases hread
  have hplaced : Parse.PlacedPhrase ⟨tokens, 0, hoccupied⟩ (Parse.statements nestingLimit [] tokens) :=
    Parse.placed_statements tokens []
  obtain ⟨-, htold⟩ := (hplaced ⟨.ofTokens tokens, functions, [], none⟩ ⟨rfl, Nat.zero_le _⟩).of_error hread
  cases htold with
  | endOfInput hlast => exact ⟨_, rfl, .parse htokens (List.mem_of_getLast? hlast) (.inl rfl)⟩
  | expected hx => exact ⟨_, rfl, .parse htokens hx (.inl rfl)⟩
  | unknownStatement hx => exact ⟨_, rfl, .parse htokens hx (.inl rfl)⟩
  | semantic hx => exact ⟨_, rfl, .parse htokens hx (.inr rfl)⟩
  | numberWithoutText hx hkind htext =>
    -- a number of a text carries its digits
    obtain ⟨s, hs, -⟩ := (lexed_of_tokenize htokens _ hx).number_text hkind
    rw [htext] at hs
    cases hs
  | tooDeep => exact ⟨_, rfl, .nesting⟩

theorem lower_isTold (source : String) {found : LowerFault} (h : (Session.toldLowerFault found).isEarly = false) :
    (Fault.lower (Session.toldLowerFault found)).IsTold source := by
  cases found with
  | semantic violation => exact ⟨_, rfl, .lower (.inl rfl)⟩
  | encoding fault => exact ⟨_, rfl, .lower (.inr rfl)⟩
  | tooDeep => exact ⟨_, rfl, .lower (.inl rfl)⟩
  | notCall form => cases h

theorem build_isTold {options : Options} {functions : FunctionTable} {trees : List Tree} {fault : Fault}
    (h : Session.build options functions trees = .error fault) (hlate : fault.isEarly = false) (source : String) :
    fault.IsTold source := by
  cases hlower : Lower.definitions functions nestingLimit trees (.empty options.className options.superName) with
  | error found target =>
    cases (Session.build_of_lower hlower).symm.trans h
    exact lower_isTold source hlate
  | ok u target =>
    rw [Session.build_of_definitions hlower] at h
    cases hwrite : Step.outcome (Module.toBytes target) with
    | ok bytes =>
      rw [hwrite] at h
      cases h
    | error found =>
      rw [hwrite] at h
      cases h
      exact ⟨_, rfl, .write⟩

/-- a compilation fails in lowering for nothing that reading excludes -/
theorem not_isEarly_of_compile {options : Options} {source : String} {fault : Fault}
    (h : compile options source = .error fault) : fault.isEarly = false := by
  have hknown : Session.Known (Session.fresh options).functions [] := ⟨FunctionTable.typed_initial, by simp⟩
  cases hrun : Session.run source (.fresh options) with
  | ok bytes s =>
    rw [compile, hrun] at h
    cases h
  | error found s =>
    rw [compile, hrun] at h
    cases h
    exact (hknown.ensures_run source).of_error hrun

/-- a compilation that fails tells why and where -/
theorem isTold_of_compile {options : Options} {source : String} {fault : Fault}
    (h : compile options source = .error fault) : fault.IsTold source := by
  cases htokens : tokenize source with
  | error bad =>
    cases (compile_of_scan htokens).symm.trans h
    exact scan_isTold htokens
  | ok tokens =>
    cases hread : Parse.statements nestingLimit [] tokens ⟨.ofTokens tokens, .initial, [], none⟩ with
    | error found left =>
      cases (compile_of_parse htokens hread).symm.trans h
      exact parse_isTold htokens hread
    | ok trees left =>
      exact build_isTold ((compile_of_read htokens hread).symm.trans h) (not_isEarly_of_compile h) source

/-! ## Every compilation -/

/-- what was called when a call was read is still known behind it -/
theorem functionCall_known {depth : Nat} {s s' : ParseState} {call : Tree}
    (h : Parse.functionCall (Parse.expression depth) s = .ok call s') :
    ∃ name arguments signature, call = .call name arguments ∧ s'.functions.lookup name = .ok signature := by
  obtain ⟨⟨x, arguments, signature, -, rfl, hlookup⟩, hkept⟩ := Parse.functionCall_calls h
  exact ⟨x.name, arguments, signature, rfl, by rwa [hkept.functions]⟩

theorem operator?_of_precedence {kind : TokenKind} (h : 0 < kind.precedence) : ∃ op, kind.operator? = some op := by
  cases kind <;> first | exact ⟨_, rfl⟩ | cases h

theorem Module.addMethodRef_lt {name descriptor : String} {m m' : Module} {index : Nat}
    (h : addMethodRef name descriptor m = .ok index m') : index < 0x10000 := by
  cases hwritten : m.written with
  | some bytes =>
    rw [addMethodRef, Step.bind_of_error (checkOpen_of_written hwritten)] at h
    cases h
  | none =>
    obtain ⟨p, hadd, -⟩ := addMethodRef_eq_ok hwritten h
    exact (Pool.reference?_addMethodRef hadd).2.1

/-- **Every compilation ends in bytes or in a told fault.** Its stage is one of the four that users see, and its place is
the character, the token or no place at all, as the stage has it. On the way every sign that binds is an operator, behind
every call the cursor can go back to its start and the callee is still known, and the number of every method reference
fits in two bytes. -/
theorem compile_located (options : Options) (source : String) :
    ((∃ bytes, compile options source = .ok bytes) ∨
      ∃ fault d, compile options source = .error fault ∧ fault.diagnostic? = some d ∧ fault.Told source d ∧
        d.stage ≠ .internal) ∧
    (∀ kind : TokenKind, 0 < kind.precedence → ∃ op, kind.operator? = some op) ∧
    (∀ depth s call s', Parse.functionCall (Parse.expression depth) s = .ok call s' →
      (∃ distance, s'.cursor.restore s.cursor.position = .ok (distance, s.cursor)) ∧
      ∃ name arguments signature, call = .call name arguments ∧ s'.functions.lookup name = .ok signature) ∧
    ∀ name descriptor m index m', Module.addMethodRef name descriptor m = .ok index m' → index < 0x10000 := by
  refine ⟨?_, ?_, ?_, ?_⟩
  · cases hcompile : compile options source with
    | ok bytes => exact .inl ⟨bytes, rfl⟩
    | error fault =>
      obtain ⟨d, hd, htold⟩ := isTold_of_compile hcompile
      exact .inr ⟨fault, d, rfl, hd, htold, htold.stage⟩
  · intro kind hkind
    exact operator?_of_precedence hkind
  · intro depth s call s' hcall
    exact ⟨⟨_, Parse.functionCall_restores hcall⟩, functionCall_known hcall⟩
  · intro name descriptor m index m' hadd
    exact Module.addMethodRef_lt hadd

/-- a call read as a call and then, because of the sign behind it, once more as an operand -/
def rereadText : String :=
  "fun f()\x7b\x7d
return f()+1;"

/-- a call of the built-in function by itself -/
def printingState : ParseState :=
  ⟨.ofTokens [⟨.name, some "println", .start⟩, ⟨.openParen, none, .start⟩, ⟨.closeParen, none, .start⟩], .initial, [],
    none⟩

theorem rereadText_located :
    (∃ fault d, compile .default rereadText = .error fault ∧ fault.diagnostic? = some d ∧ fault.Told rereadText d ∧
      d.stage = .semantic ∧ d.line = some 2 ∧ d.column = some 8) ∧
    (∃ op, TokenKind.power.operator? = some op) ∧
    (∃ s', Parse.functionCall (Parse.expression 0) printingState = .ok (.call "println" []) s' ∧
      ∃ distance, s'.cursor.restore 0 = .ok (distance, printingState.cursor)) ∧
    ∃ index m', Module.addMethodRef "f" "()V" (.empty "Main" "base/Object") = .ok index m' ∧ index < 0x10000 := by
  obtain ⟨hends, hoperators, hcalls, hreferences⟩ := compile_located .default rereadText
  have hfails : compile .default rereadText =
      .error (.parse (.semantic (.callNotInt "f" TypeWord.void) (some ⟨2, 8⟩))) := by decide +kernel
  refine ⟨?_, hoperators .power (by decide), ?_, ?_⟩
  · rcases hends with ⟨bytes, hbytes⟩ | ⟨fault, d, hfault, hd, htold, -⟩
    · cases hfails.symm.trans hbytes
    · cases hfails.symm.trans hfault
      refine ⟨_, d, hfails, hd, htold, ?_⟩
      cases hd
      exact ⟨rfl, rfl, rfl⟩
  · have hcall : Parse.functionCall (Parse.expression 0) printingState = .ok (.call "println" []) _ := rfl
    exact ⟨_, hcall, (hcalls 0 printingState _ _ hcall).1⟩
  · have hadd : Module.addMethodRef "f" "()V" (.empty "Main" "base/Object") = .ok 6 _ := rfl
    exact ⟨6, _, hadd, hreferences _ _ _ _ _ hadd⟩

end StackLang
