/-
What a compiled source is.

Lowering a definition adds one method whose code is code of its body; lowering a program adds one method for each
definition, in order (`program_lowered`). So when a source compiles, its statements were read, they are definitions
that keep the rules, and the module read back from the bytes has their methods (`Compiled`); the code of these methods
is what lowering gave, piece by piece (`Assembly`).
-/
import StackLang.Proofs.Lowering.Emitted
import StackLang.Proofs.Lowering.Pieces
import StackLang.Proofs.Source.Language
import StackLang.Session

namespace StackLang

namespace Lower

variable {m m' : Module} {functions : FunctionTable}

/-! ## Statements -/

theorem statement_emitted {frame : Frame} {depth : Nat} {t : Tree} {code : Code} {locals : Locals} (hproper : t.Proper)
    (hopen : m.written = none) (h : statement frame depth t m = .ok (code, locals) m') :
    Gives m m' (fun link => Emitted.Statement link frame.locals t code locals) frame.functions := by
  have hvalues := (expressions_emitted frame depth).2
  cases t with
  | declare x type t =>
    obtain ⟨v, inner, last, _, hvalue, hdeclare, hstore, rfl⟩ := statement_declare_eq_ok.1 h
    exact (hvalues t m m' inner _ hproper hopen hvalue).map fun _ _ hemitted => .declare hemitted hdeclare hstore
  | assign x t =>
    obtain ⟨v, inner, last, hfind, _, hvalue, hstore, rfl, rfl⟩ := statement_assign_eq_ok.1 h
    exact (hvalues t m m' inner _ hproper hopen hvalue).map fun _ _ hemitted => .assign hfind hemitted hstore
  | addAssign x t =>
    obtain ⟨v, inner, old, last, hfind, _, hvalue, hload, hstore, rfl, rfl⟩ := statement_addAssign_eq_ok.1 h
    exact (hvalues t m m' inner _ hproper hopen hvalue).map fun _ _ hemitted => .addAssign hfind hemitted hload hstore
  | ret t =>
    obtain ⟨inner, type, hvalue, rfl, rfl⟩ := statement_ret_eq_ok.1 h
    exact (hvalues t m m' inner type hproper hopen hvalue).map fun _ _ hemitted => .ret hemitted
  | call f arguments =>
    obtain ⟨s, hcall, rfl⟩ := statement_call_eq_ok.1 h
    have hgives := call_emitted hvalues (Tree.properAll_iff.1 hproper.2) hopen hcall
    exact hgives.map fun _ _ hemitted => .call hemitted
  | _ => cases h

/-- the pieces of a body one after the other -/
theorem body_emitted {depth : Nat} {trees : List Tree} {locals locals' : Locals} {pieces : List Code}
    (hproper : ∀ t ∈ trees, t.Proper) (hopen : m.written = none)
    (h : bodyPieces functions depth locals trees m = .ok (pieces, locals') m') :
    Gives m m' (fun link => Emitted.Statements link locals trees pieces locals') functions := by
  induction trees generalizing locals pieces m with
  | nil =>
    obtain ⟨heq, rfl⟩ := Step.pure_eq_ok.1 h
    obtain ⟨rfl, rfl⟩ := Prod.mk.inj heq
    exact .of_pure hopen fun _ => .nil
  | cons t rest ih =>
    obtain ⟨first, locals₁, m₁, more, hfirst, hrest, rfl⟩ := bodyPieces_cons_eq_ok.1 h
    obtain ⟨ht, hproper⟩ := List.forall_mem_cons.1 hproper
    have hgives := statement_emitted ht hopen hfirst
    have hmore := ih hproper hgives.1.opened hrest
    exact (hgives.and hmore).map fun _ _ hemitted => .cons hemitted.1 hemitted.2

/-! ## Definitions -/

/-- one method for each definition was added to an open module -/
structure Lowered (functions : FunctionTable) (m m' : Module) (trees : List Tree) (parts : List (List Code))
    (images : List MethodImage) : Prop where
  opened : m'.written = none
  name : m'.name = m.name
  superName : m'.superName = m.superName
  grows : Pool.Grows m.pool m'.pool
  methods : ∃ new, m'.methods = m.methods ++ new ∧ List.Forall₂ Image.Depicts images new
  emitted : ∀ pool, Pool.Grows m'.pool pool → Emitted.Program ⟨pool, m.name, functions⟩ trees parts images

theorem definition_lowered {depth : Nat} {name returns : Name} {parameters : List Parameter} {statements : List Tree}
    {pieces : List Code} (hproper : (Tree.define name parameters returns statements).Proper) (hopen : m.written = none)
    (h : definitionPieces functions depth name parameters returns statements m = .ok pieces m') :
    ∃ image, Lowered functions m m' [.define name parameters returns statements] [pieces] [image] := by
  obtain ⟨locals, locals', m₁, descriptor, method, hlocals, hbody, _, hdescriptor, hadd⟩ := definitionPieces_eq_ok.1 h
  have hgives := body_emitted (Tree.properAll_iff.1 hproper.2) hopen hbody
  obtain ⟨a, ha, rfl⟩ := Module.addMethod_eq_ok hgives.1.opened hadd
  refine ⟨⟨name.display, descriptor, 0, locals'.count, Code.encode pieces.flatten⟩, hgives.1.opened, hgives.1.name,
    hgives.1.superName, hgives.1.grows, ⟨[_], by rw [hgives.1.methods], .cons ⟨rfl, rfl, rfl, a, ha, rfl⟩ .nil⟩, ?_⟩
  intro pool hpool
  exact .cons (.mk hlocals (hgives.2 pool hpool) hdescriptor) .nil

theorem Lowered.append {m₁ m₂ m₃ : Module} {first rest : List Tree} {parts parts' : List (List Code)}
    {images images' : List MethodImage} (h : Lowered functions m₁ m₂ first parts images)
    (h' : Lowered functions m₂ m₃ rest parts' images') :
    Lowered functions m₁ m₃ (first ++ rest) (parts ++ parts') (images ++ images') := by
  obtain ⟨new, hnew, hdepicts⟩ := h.methods
  obtain ⟨new', hnew', hdepicts'⟩ := h'.methods
  refine ⟨h'.opened, h'.name.trans h.name, h'.superName.trans h.superName, h.grows.trans h'.grows,
    ⟨new ++ new', by rw [hnew', hnew, List.append_assoc], List.rel_append hdepicts hdepicts'⟩, ?_⟩
  intro pool hpool
  have hrest := h'.emitted pool hpool
  rw [h.name] at hrest
  exact (h.emitted pool (h'.grows.trans hpool)).append hrest

/-- a program that is lowered consists of definitions, each with its method -/
theorem program_lowered {depth : Nat} {trees : List Tree} {parts : List (List Code)} (hproper : ∀ t ∈ trees, t.Proper)
    (hopen : m.written = none) (h : programPieces functions depth trees m = .ok parts m') :
    ∃ images, Lowered functions m m' trees parts images := by
  induction trees generalizing m parts with
  | nil =>
    obtain ⟨rfl, rfl⟩ := Step.pure_eq_ok.1 h
    exact ⟨[], hopen, rfl, rfl, Pool.Grows.refl _, ⟨[], by simp, .nil⟩, fun _ _ => .nil⟩
  | cons t rest ih =>
    obtain ⟨ht, hrest⟩ := List.forall_mem_cons.1 hproper
    obtain ⟨name, parameters, returns, statements, pieces, m₁, more, rfl, hfirst, hmore, rfl⟩ :=
      programPieces_cons_eq_ok.1 h
    obtain ⟨image, hlowered⟩ := definition_lowered ht hopen hfirst
    obtain ⟨images, hlowered'⟩ := ih hrest hlowered.opened hmore
    exact ⟨image :: images, hlowered.append hlowered'⟩

end Lower

/-! ## Sources -/

/-- what the indices in the code of a program's module are resolved against -/
abbrev Image.linkage (image : Image) (trees : List Tree) : Linkage :=
  ⟨image.constants, image.thisName, FunctionTable.initial.afterAll trees⟩

/-- a compiled source: its statements as they were read, and the module read back from its bytes -/
structure Compiled (options : Options) (source : String) (bytes : Bytes) (trees : List Tree) (image : Image) :
    Prop where
  read : ∃ tokens s, tokenize source = .ok tokens ∧
    Parse.statements nestingLimit [] tokens ⟨.ofTokens tokens, .initial, [], none⟩ = .ok trees s
  rules : ProgramRules .initial trees
  proper : ∀ t ∈ trees, t.Proper
  decoded : Image.ofBytes bytes = .ok image
  owner : image.thisName = options.className
  methods : List.Forall₂ (Emitted.Definition (image.linkage trees)) trees image.methods

/-- the table that reading leaves is the one that the code was lowered with -/
theorem Compiled.reading {options : Options} {source : String} {bytes : Bytes} {trees : List Tree} {image : Image}
    (h : Compiled options source bytes trees image) :
    ∃ tokens s, tokenize source = .ok tokens ∧
      Parse.statements nestingLimit [] tokens ⟨.ofTokens tokens, .initial, [], none⟩ = .ok trees s ∧
      s.functions = FunctionTable.initial.afterAll trees := by
  obtain ⟨tokens, s, htokens, hread⟩ := h.read
  exact ⟨tokens, s, htokens, hread, (Parse.programRead_of_tokenize htokens hread).functions⟩

/-- how the module of a compiled source came about: what lowering gave, piece by piece, and what was written -/
structure Assembly (options : Options) (bytes : Bytes) (trees : List Tree) (parts : List (List Code)) (target : Module)
    (image : Image) : Prop where
  lowered : Lower.programPieces (FunctionTable.initial.afterAll trees) nestingLimit trees
    (.empty options.className options.superName) = .ok parts target
  opened : target.written = none
  name : target.name = options.className
  superName : target.superName = options.superName
  depicts : List.Forall₂ Image.Depicts image.methods target.methods
  written : target.encode target.pool = .ok bytes image.constants
  methods : Emitted.Program (image.linkage trees) trees parts image.methods

theorem Session.tokens_eq_ok {source : String} {tokens : List Token} {s s' : Session} :
    Session.tokens source s = .ok tokens s' ↔ tokenize source = .ok tokens ∧ s = s' := by
  unfold Session.tokens
  cases tokenize source with
  | ok tokens' => simp
  | error bad => simp

theorem Session.parse_eq_ok {tokens : List Token} {trees : List Tree} {s s' : Session} :
    parse tokens s = .ok trees s' ↔
      ∃ left, Parse.statements nestingLimit [] tokens ⟨.ofTokens tokens, s.functions, [], none⟩ = .ok trees left ∧
        s' = { s with functions := left.functions } := by
  unfold parse parseWithin parseWith
  cases Parse.statements nestingLimit [] tokens ⟨.ofTokens tokens, s.functions, [], none⟩ with
  | ok trees' left => simp [and_assoc, eq_comm]
  | error fault left => simp

theorem Session.lower_eq_ok {trees : List Tree} {s s' : Session} {u : Unit} :
    lower trees s = .ok u s' ↔
      ∃ target, Lower.definitions s.functions nestingLimit trees s.target = .ok () target ∧
        s' = { s with target := target } := by
  unfold lower lowerWithin
  cases hrun : Lower.definitions s.functions nestingLimit trees s.target with
  | ok u target => simp [hrun, eq_comm]
  | error fault target => simp [hrun]

theorem Session.lower_eq_error {trees : List Tree} {s s' : Session} {fault : Fault} :
    lower trees s = .error fault s' ↔
      ∃ found target, Lower.definitions s.functions nestingLimit trees s.target = .error found target ∧
        fault = .lower (toldLowerFault found) ∧ s' = { s with target := target } := by
  unfold lower lowerWithin
  cases hrun : Lower.definitions s.functions nestingLimit trees s.target with
  | ok u target => simp [hrun]
  | error found target => simp [hrun, and_assoc, eq_comm]

theorem Session.write_eq_ok {bytes : Bytes} {s s' : Session} :
    write s = .ok bytes s' ↔
      ∃ target, Module.toBytes s.target = .ok bytes target ∧ s' = { s with target := target } := by
  unfold write
  cases hrun : Module.toBytes s.target with
  | ok bytes' target => simp [hrun, and_assoc, eq_comm]
  | error fault target => simp [hrun]

/-- a source that compiles was read, lowered and written, and its bytes are read back -/
theorem assembled_of_ok {options : Options} {source : String} {bytes : Bytes}
    (h : compile options source = .ok bytes) :
    ∃ trees parts target image, Compiled options source bytes trees image ∧
      Assembly options bytes trees parts target image := by
  obtain ⟨s, h⟩ := Step.outcome_eq_ok.1 h
  rw [Session.run, Session.runWithin] at h
  obtain ⟨tokens, s₁, htokens, h⟩ := Step.bind_eq_ok.1 h
  obtain ⟨trees, s₂, hparse, h⟩ := Step.bind_eq_ok.1 h
  obtain ⟨_, s₃, hlower, h⟩ := Step.bind_eq_ok.1 h
  obtain ⟨htokenize, rfl⟩ := Session.tokens_eq_ok.1 htokens
  obtain ⟨left, hstatements, rfl⟩ := Session.parse_eq_ok.1 hparse
  obtain ⟨target, hdefinitions, rfl⟩ := Session.lower_eq_ok.1 hlower
  obtain ⟨target', hwrite, -⟩ := Session.write_eq_ok.1 h
  have hread := Parse.programRead_of_tokenize htokenize hstatements
  have hproper := hread.derives.proper (lexed_of_tokenize htokenize)
  dsimp only at hdefinitions hwrite
  rw [hread.functions] at hdefinitions
  obtain ⟨parts, hparts⟩ := Lower.definitions_eq_ok.1 hdefinitions
  obtain ⟨images, hlowered⟩ := Lower.program_lowered hproper rfl hparts
  obtain ⟨new, hmethods, hdepicts⟩ := hlowered.methods
  have hall : List.Forall₂ Image.Depicts images target.methods := by
    rw [hmethods]
    exact hdepicts
  obtain ⟨pool, hencode, rfl⟩ := Image.toBytes_eq_ok hlowered.opened hwrite
  obtain ⟨flags, _, hgrows, hdecoded⟩ := Image.ofBytes_of_encode hall hencode
  have hemitted := hlowered.emitted pool hgrows
  rw [← hlowered.name] at hemitted
  refine ⟨trees, parts, target, _, ⟨⟨tokens, left, htokenize, hstatements⟩, hread.rules, hproper, hdecoded,
    hlowered.name, hemitted.definitions⟩, ?_⟩
  exact ⟨hparts, hlowered.opened, hlowered.name, hlowered.superName, hall, hencode, hemitted⟩

theorem compiled_of_ok {options : Options} {source : String} {bytes : Bytes} (h : compile options source = .ok bytes) :
    ∃ trees image, Compiled options source bytes trees image := by
  obtain ⟨trees, _, _, image, hcompiled, _⟩ := assembled_of_ok h
  exact ⟨trees, image, hcompiled⟩

end StackLang
