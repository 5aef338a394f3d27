/-
Programs decide by their limits.

A statement decides by the rules of its parts and leaves the scope with the variable it declares, a body by its
statements in order, a definition by its body, its size and its locals, and a program by its definitions
(`Lower.decides_definitions`). What reading makes sure of is stated for each of them (`Lower.DefinitionRead`).
-/
import StackLang.Proofs.Lowering.DecidedExpressions

namespace StackLang

open Step (Ensures)

namespace Lower

variable {lexed : Prop} {functions : FunctionTable} {scope : List Name} {depth : Nat} {m : Module} {t : Tree} {x : Name}

/-! ## Statements -/

variable {v : Tree} {type : Name}

/-- a statement of a body that declares nothing twice decides by its rules -/
def StatementDecides (lexed : Prop) (functions : FunctionTable) (scope : List Name) (depth : Nat) (m : Module)
    (t : Tree) : Prop :=
  Decides lexed (statement ⟨functions, .ofScope scope⟩ depth t) m (t.Fits functions scope m)
    (fun r m' => Lowers scope m t r.1 m' ∧ r.2 = .ofScope (scope ++ t.declared?.toList))

theorem ofScope_self (scope : List Name) : Locals.ofScope scope = .ofScope (scope ++ []) := by
  rw [List.append_nil]

theorem decides_ret (ih : DecidesAt lexed functions scope depth) (hform : v.IsValue (.read lexed))
    (hcalls : CallsKnown functions v) (m : Module) : StatementDecides lexed functions scope depth m (.ret v) := by
  have hiff : v.Fits functions scope m ∧ v.GivesValue functions ↔ (Tree.ret v).Fits functions scope m :=
    ⟨fun h => ⟨Tree.allAllowed_ret.2 ⟨h.2, h.1.allowed⟩, h.1.room⟩, fun h =>
      ⟨⟨(Tree.allAllowed_ret.1 h.allowed).2, h.room⟩, (Tree.allAllowed_ret.1 h.allowed).1⟩⟩
  unfold StatementDecides
  rw [statement]
  refine ((ih.value v m hform hcalls).congr hiff).map fun r m' _ hr => ⟨⟨?_, hr.1.gains⟩, ofScope_self scope⟩
  rw [size_append, hr.1.size]
  rfl

theorem decides_declare (ih : DecidesAt lexed functions scope depth) (hform : v.IsValue (.read lexed))
    (hcalls : CallsKnown functions v) (hnew : x ∉ scope) (m : Module) :
    StatementDecides lexed functions scope depth m (.declare x type v) := by
  have hiff : (Tree.declare x type v).Fits functions scope m ↔
      type = TypeWord.int ∧ (v.Fits functions scope m ∧ v.GivesValue functions) ∧ scope.length ≤ 255 := by
    constructor
    · rintro ⟨hallowed, hroom⟩
      obtain ⟨⟨hint, hslot, hvalue⟩, hv⟩ := Tree.allAllowed_declare.1 hallowed
      exact ⟨hint, ⟨⟨hv, hroom⟩, hvalue⟩, hslot⟩
    · rintro ⟨hint, ⟨hv, hvalue⟩, hslot⟩
      exact ⟨Tree.allAllowed_declare.2 ⟨⟨hint, hslot, hvalue⟩, hv.allowed⟩, hv.room⟩
  have htype : Decides lexed (check (TypeWord.requireValue type)) m (type = TypeWord.int) (fun _ m' => m' = m) := by
    unfold TypeWord.requireValue
    split_ifs with hint
    · exact ⟨hint, rfl⟩
    · exact decides_violate rfl fun _ => hint
  have hfresh : (Locals.ofScope scope).contains x = false := by simp [Locals.contains, Locals.find?_ofScope, hnew]
  unfold StatementDecides
  rw [statement, declaration]
  refine htype.bind (fun h => (hiff.1 h).1) ?_
  rintro _ _ rfl rfl
  rw [if_neg (by rw [hfresh]; exact Bool.false_ne_true)]
  refine (ih.value v _ hform hcalls).bind (fun h => (hiff.1 h).2.1) ?_
  rintro ⟨code, actual⟩ m' hv ⟨hcode, rfl⟩
  dsimp only at hcode ⊢
  rw [if_neg (by rw [compatible_int]; exact Bool.false_ne_true)]
  refine Decides.after (check_eq_ok.2 ⟨Locals.declare_ofScope hnew, rfl⟩) ?_
  have hslot : scope.length ≤ 255 ↔ (Tree.declare x TypeWord.int v).Fits functions scope _ :=
    ⟨fun h => hiff.2 ⟨rfl, hv, h⟩, fun h => (hiff.1 h).2.2⟩
  refine ((decides_store _).congr hslot).map ?_
  rintro stored m'' _ ⟨hstored, rfl⟩
  refine ⟨⟨?_, hcode.gains⟩, rfl⟩
  rw [size_append, hcode.size, hstored]
  rfl

/-- what storing a value in a variable asks for -/
theorem fits_stored (hallowed : t.AllAllowed functions scope ↔
      ((x ∈ scope ∧ scope.idxOf x ≤ 255) ∧ v.GivesValue functions) ∧ v.AllAllowed functions scope)
    (hsame : t.calls = v.calls) :
    t.Fits functions scope m ↔
      x ∈ scope ∧ (v.Fits functions scope m ∧ v.GivesValue functions) ∧ scope.idxOf x ≤ 255 := by
  constructor
  · rintro ⟨hkept, hroom⟩
    obtain ⟨⟨⟨hx, hslot⟩, hvalue⟩, hv⟩ := hallowed.1 hkept
    exact ⟨hx, ⟨⟨hv, hsame ▸ hroom⟩, hvalue⟩, hslot⟩
  · rintro ⟨hx, ⟨hv, hvalue⟩, hslot⟩
    exact ⟨hallowed.2 ⟨⟨⟨hx, hslot⟩, hvalue⟩, hv.allowed⟩, hsame.symm ▸ hv.room⟩

theorem decides_assign (ih : DecidesAt lexed functions scope depth) (hform : v.IsValue (.read lexed))
    (hcalls : CallsKnown functions v) (m : Module) : StatementDecides lexed functions scope depth m (.assign x v) := by
  have hiff : (Tree.assign x v).Fits functions scope m ↔
      x ∈ scope ∧ (v.Fits functions scope m ∧ v.GivesValue functions) ∧ scope.idxOf x ≤ 255 :=
    fits_stored Tree.allAllowed_assign rfl
  have hassignment : Decides lexed (assignment ⟨functions, .ofScope scope⟩ depth x v) m
      ((Tree.assign x v).Fits functions scope m) (Lowers scope m (.assign x v)) := by
    rw [assignment]
    refine (decides_get x).bind (fun h => (hiff.1 h).1) ?_
    rintro _ _ hx ⟨rfl, rfl⟩
    refine (ih.value v _ hform hcalls).bind (fun h => (hiff.1 h).2.1) ?_
    rintro ⟨code, actual⟩ m' hv ⟨hcode, rfl⟩
    dsimp only at hcode ⊢
    rw [if_neg (by rw [compatible_int]; exact Bool.false_ne_true)]
    have hslot : scope.idxOf x ≤ 255 ↔ (Tree.assign x v).Fits functions scope _ :=
      ⟨fun h => hiff.2 ⟨hx, hv, h⟩, fun h => (hiff.1 h).2.2⟩
    refine ((decides_store _).congr hslot).map ?_
    rintro stored m'' _ ⟨hstored, rfl⟩
    refine ⟨?_, hcode.gains⟩
    rw [size_append, hcode.size, hstored]
    rfl
  unfold StatementDecides
  rw [statement]
  exact hassignment.map fun code m' _ hcode => ⟨hcode, ofScope_self scope⟩

theorem decides_addAssign (ih : DecidesAt lexed functions scope depth) (hform : v.IsValue (.read lexed))
    (hcalls : CallsKnown functions v) (m : Module) :
    StatementDecides lexed functions scope depth m (.addAssign x v) := by
  have hiff : (Tree.addAssign x v).Fits functions scope m ↔
      x ∈ scope ∧ (v.Fits functions scope m ∧ v.GivesValue functions) ∧ scope.idxOf x ≤ 255 :=
    fits_stored Tree.allAllowed_addAssign rfl
  have haddition : Decides lexed (addition ⟨functions, .ofScope scope⟩ depth x v) m
      ((Tree.addAssign x v).Fits functions scope m) (Lowers scope m (.addAssign x v)) := by
    rw [addition]
    refine (decides_get x).bind (fun h => (hiff.1 h).1) ?_
    rintro _ _ hx ⟨rfl, rfl⟩
    refine (ih.value v _ hform hcalls).bind (fun h => (hiff.1 h).2.1) ?_
    rintro ⟨code, actual⟩ m' hv ⟨hcode, rfl⟩
    dsimp only at hcode ⊢
    rw [if_neg (by rw [compatible_int]; exact Bool.false_ne_true)]
    have hslot : scope.idxOf x ≤ 255 ↔ (Tree.addAssign x v).Fits functions scope _ :=
      ⟨fun h => hiff.2 ⟨hx, hv, h⟩, fun h => (hiff.1 h).2.2⟩
    refine ((decides_load _).congr hslot).bind id ?_
    rintro loaded _ _ ⟨hloaded, rfl⟩
    refine ((decides_store _).congr hslot).map ?_
    rintro stored _ _ ⟨hstored, rfl⟩
    refine ⟨?_, hcode.gains⟩
    rw [size_append, size_append, size_append, hcode.size, hloaded, hstored]
    rfl
  unfold StatementDecides
  rw [statement]
  exact haddition.map fun code m' _ hcode => ⟨hcode, ofScope_self scope⟩

theorem decides_statement (htyped : functions.Typed) (hform : t.IsPlain (.read lexed)) (hcalls : CallsKnown functions t)
    (hnew : ∀ y ∈ t.declared?, y ∉ scope) (m : Module) : StatementDecides lexed functions scope depth m t := by
  have ih := decidesAt lexed htyped scope depth
  cases t with
  | ret v => exact decides_ret ih hform (hcalls.same rfl rfl) m
  | declare y type v => exact decides_declare ih hform.2.2 (hcalls.same rfl rfl) (hnew y rfl) m
  | assign y v => exact decides_assign ih hform.2 (hcalls.same rfl rfl) m
  | addAssign y v => exact decides_addAssign ih hform.2 (hcalls.same rfl rfl) m
  | call f arguments =>
    unfold StatementDecides
    rw [statement]
    exact (decides_call ih htyped hform hcalls m).map fun r m' _ hr => ⟨hr.1, ofScope_self scope⟩
  | _ => cases hform

/-! ## Bodies -/

theorem filterMap_declared (t : Tree) (rest : List Tree) :
    (t :: rest).filterMap Tree.declared? = t.declared?.toList ++ rest.filterMap Tree.declared? := by
  cases h : t.declared? with
  | none => rw [List.filterMap_cons_none h]; rfl
  | some y => rw [List.filterMap_cons_some h]; rfl

/-- the statements of a body keep their rules, and the module has room for the calls -/
structure BodyFits (functions : FunctionTable) (scope : List Name) (m : Module) (body : List Tree) : Prop where
  allowed : BodyAllowed functions scope body
  room : m.HasRoom (Tree.callsOfAll body).length

theorem bodyFits_cons {rest : List Tree} {m' : Module} (h : m.Gains t.calls.length m') (ht : t.Fits functions scope m) :
    BodyFits functions (scope ++ t.declared?.toList) m' rest ↔ BodyFits functions scope m (t :: rest) := by
  have hroom := h.hasRoom_iff ht.room (n := (Tree.callsOfAll rest).length)
  rw [← List.length_append] at hroom
  exact ⟨fun hrest => ⟨⟨ht.allowed, hrest.allowed⟩, hroom.1 hrest.room⟩,
    fun hall => ⟨hall.allowed.2, hroom.2 hall.room⟩⟩

theorem fits_of_bodyFits {rest : List Tree} (h : BodyFits functions scope m (t :: rest)) : t.Fits functions scope m := by
  have hroom := h.room
  rw [Tree.callsOfAll, List.length_append] at hroom
  exact ⟨h.allowed.1, hroom.mono (Nat.le_add_right _ _)⟩

/-- the statements of a body decide one after the other -/
theorem decides_bodyPieces (htyped : functions.Typed) {body : List Tree} (hforms : ∀ t ∈ body, t.IsPlain (.read lexed))
    (hcalls : ∀ t ∈ body, CallsKnown functions t) (hdistinct : (scope ++ body.filterMap Tree.declared?).Nodup)
    (m : Module) :
    Decides lexed (bodyPieces functions depth (.ofScope scope) body) m (BodyFits functions scope m body)
      (fun r m' => Code.size r.1.flatten = bodySize scope body ∧
        r.2 = .ofScope (scope ++ body.filterMap Tree.declared?) ∧ m.Gains (Tree.callsOfAll body).length m') := by
  induction body generalizing scope m with
  | nil => exact decides_pure ⟨trivial, m.hasRoom_zero⟩ ⟨rfl, ofScope_self scope, .refl m⟩
  | cons t rest ih =>
    obtain ⟨hform, hforms⟩ := List.forall_mem_cons.1 hforms
    obtain ⟨hknown, hcalls⟩ := List.forall_mem_cons.1 hcalls
    rw [filterMap_declared, ← List.append_assoc] at hdistinct ⊢
    have hnew : ∀ y ∈ t.declared?, y ∉ scope := fun y hy hmem =>
      (List.nodup_append.1 (List.nodup_append.1 hdistinct).1).2.2 y hmem y (Option.mem_toList.2 hy) rfl
    rw [bodyPieces]
    refine (decides_statement htyped hform hknown hnew m).bind fits_of_bodyFits ?_
    rintro ⟨code, locals⟩ m' hfits ⟨hcode, rfl⟩
    dsimp only at hcode ⊢
    refine ((ih hforms hcalls hdistinct m').congr (bodyFits_cons hcode.gains hfits)).map ?_
    rintro ⟨pieces, locals⟩ m'' _ ⟨hsize, rfl, hgains⟩
    refine ⟨?_, rfl, ?_⟩
    · rw [List.flatten_cons, size_append, hcode.size, hsize]
      rfl
    · rw [Tree.callsOfAll, List.length_append]
      exact hcode.gains.trans hgains

/-! ## Definitions -/

/-- parameters have the first slots -/
theorem parameterLocals_ofScope {parameters : List Parameter} (htypes : ∀ p ∈ parameters, p.type = TypeWord.int)
    (hdistinct : (parameters.map (·.name)).Nodup) :
    parameterLocals parameters = .ok (.ofScope (parameters.map (·.name))) := by
  have hfold : ∀ (parameters : List Parameter) (scope : List Name), (∀ p ∈ parameters, p.type = TypeWord.int) →
      (scope ++ parameters.map (·.name)).Nodup →
      parameters.foldlM (fun l p => return (← l.declare p.name p.type).2) (Locals.ofScope scope) =
        (.ok (.ofScope (scope ++ parameters.map (·.name))) : Except Violation Locals) := by
    intro parameters
    induction parameters with
    | nil =>
      intro scope _ _
      rw [List.map_nil, List.append_nil]
      rfl
    | cons p rest ih =>
      intro scope htypes hdistinct
      obtain ⟨hp, hrest⟩ := List.forall_mem_cons.1 htypes
      rw [List.map_cons, List.append_cons] at hdistinct ⊢
      have hnew : p.name ∉ scope := fun hmem =>
        (List.nodup_append.1 (List.nodup_append.1 hdistinct).1).2.2 p.name hmem p.name (List.mem_singleton.2 rfl) rfl
      rw [List.foldlM_cons, hp, Locals.declare_ofScope hnew]
      exact ih _ hrest hdistinct
  exact hfold parameters [] htypes hdistinct

/-- code has an attribute if its locals can be counted in two bytes -/
theorem attribute_cases (code : Bytes) (locals : Nat) :
    (locals ≤ 65535 ∧ ∃ body, Attribute.code code locals = .ok body) ∨
      ¬ locals ≤ 65535 ∧ ∃ fault, Attribute.code code locals = .error fault := by
  by_cases hlocals : locals ≤ 65535
  · have hfits : twoBytes "max locals" (locals : Int) = .ok _ := if_pos ⟨by omega, by omega⟩
    refine .inl ⟨hlocals, ?_⟩
    rw [Attribute.code, hfits]
    exact ⟨_, rfl⟩
  · have hfits : twoBytes "max locals" (locals : Int) = .error _ := if_neg (by omega)
    refine .inr ⟨hlocals, ?_⟩
    rw [Attribute.code, hfits]
    exact ⟨_, rfl⟩

/-- an open module takes a method whose locals can be counted in two bytes -/
theorem decides_addMethod (name descriptor : String) (code : Bytes) (locals : Nat) :
    Decides lexed (onModule (Module.addMethod name descriptor code locals)) m (m.written = none ∧ locals ≤ 65535)
      (fun _ m' => m.Gains 0 m') := by
  unfold Decides Ensures onModule Step.mapFault
  cases hwritten : m.written with
  | some bytes =>
    rw [Module.addMethod, Step.bind_of_error (Module.checkOpen_of_written hwritten)]
    refine ⟨rfl, fun _ h => ?_⟩
    cases h.1
  | none =>
    rw [Module.addMethod, Step.bind_of_ok (Module.checkOpen_of_open hwritten)]
    rcases attribute_cases code locals with ⟨hlocals, body, hbody⟩ | ⟨hlocals, fault, hbody⟩
    · rw [hbody]
      exact ⟨⟨rfl, hlocals⟩, rfl, rfl⟩
    · rw [hbody]
      exact ⟨rfl, fun _ h => absurd h.2 hlocals⟩

/-- a definition keeps its rules, and the module is open and has room for the calls -/
structure DefinitionFits (functions : FunctionTable) (m : Module) (parameters : List Parameter) (body : List Tree) :
    Prop where
  allowed : DefinitionAllowed functions parameters body
  room : m.HasRoom (Tree.callsOfAll body).length
  opened : m.written = none

/-- what reading makes sure of a definition -/
structure DefinitionRead (lexed : Prop) (functions : FunctionTable) (parameters : List Parameter) (returns : Name)
    (body : List Tree) : Prop where
  forms : ∀ t ∈ body, t.IsPlain (.read lexed)
  calls : ∀ t ∈ body, CallsKnown functions t
  distinct : (parameters.map (·.name) ++ body.filterMap Tree.declared?).Nodup
  typed : Signature.Typed ⟨returns, parameters⟩

theorem decides_definitionPieces (htyped : functions.Typed) {name returns : Name} {parameters : List Parameter}
    {body : List Tree} (h : DefinitionRead lexed functions parameters returns body) (m : Module) :
    Decides lexed (definitionPieces functions depth name parameters returns body) m
      (DefinitionFits functions m parameters body) (fun _ m' => m.Gains (Tree.callsOfAll body).length m') := by
  have hlocals := parameterLocals_ofScope h.typed.parameters (List.nodup_append.1 h.distinct).1
  rw [definitionPieces]
  refine Decides.after (check_eq_ok.2 ⟨hlocals, rfl⟩) ?_
  have hbody (hfits : DefinitionFits functions m parameters body) :
      BodyFits functions (parameters.map (·.name)) m body := ⟨hfits.allowed.statements, hfits.room⟩
  refine (decides_bodyPieces htyped h.forms h.calls h.distinct m).bind hbody ?_
  rintro ⟨pieces, locals⟩ m' hfits ⟨hsize, rfl, hgains⟩
  dsimp only at hsize ⊢
  refine decides_guard rfl ?_ fun hsmall => ?_
  · intro hlarge hall
    have hle := hall.allowed.size
    rw [← hsize] at hle
    exact absurd hle (Nat.not_le.2 hlarge)
  obtain ⟨descriptor, hdescriptor⟩ := h.typed.descriptor
  refine Decides.after (check_eq_ok.2 ⟨hdescriptor, rfl⟩) ?_
  have hiff : (m'.written = none ∧ (Locals.ofScope (parameters.map (·.name) ++ body.filterMap Tree.declared?)).count ≤
      65535) ↔ DefinitionFits functions m parameters body := by
    rw [Locals.count_ofScope, List.length_append, List.length_map, hgains.written]
    constructor
    · rintro ⟨hopen, hcount⟩
      exact ⟨⟨hfits.allowed, hsize ▸ Nat.not_lt.1 hsmall, hcount⟩, hfits.room, hopen⟩
    · intro hall
      exact ⟨hall.opened, hall.allowed.locals⟩
  refine ((decides_addMethod _ _ _ _).congr hiff).map fun _ m'' _ hadd => ?_
  exact hgains.trans hadd

/-! ## Programs -/

/-- what reading makes sure of a statement of a program -/
def StatementRead (lexed : Prop) (functions : FunctionTable) (t : Tree) : Prop :=
  ∀ name parameters returns body, t = .define name parameters returns body →
    DefinitionRead lexed functions parameters returns body

/-- what reading makes sure of stays while the table grows -/
theorem StatementRead.afterAll {F : FunctionTable} (h : StatementRead lexed F t) (more : List Tree) :
    StatementRead lexed (F.afterAll more) t := by
  intro name parameters returns body ht
  obtain ⟨hforms, hcalls, hdistinct, htyped⟩ := h name parameters returns body ht
  exact ⟨hforms, fun u hu => (hcalls u hu).afterAll more, hdistinct, htyped⟩

/-- statements that keep the rules, with the table that they leave -/
theorem statementRead_of_rules {F : FunctionTable} {trees : List Tree} (hforms : ∀ t ∈ trees, t.IsStatement (.read lexed))
    (hrules : ProgramRules F trees) : ∀ t ∈ trees, StatementRead lexed (F.afterAll trees) t := by
  induction trees generalizing F with
  | nil => simp
  | cons t rest ih =>
    obtain ⟨hform, hforms⟩ := List.forall_mem_cons.1 hforms
    have hfirst : StatementRead lexed F t := by
      rintro name parameters returns body rfl
      have hdefinition := hrules.1.definition name parameters returns body rfl
      exact ⟨hform.2.2, CallsKnown.define_iff.1 hrules.1.calls, hdefinition.distinct, hdefinition.parameterTypes,
        hdefinition.returnType⟩
    exact List.forall_mem_cons.2 ⟨hfirst.afterAll (t :: rest), ih hforms hrules.2⟩

/-- the statements of a program are definitions that keep their rules, and the module has room for all the calls -/
structure ProgramFits (functions : FunctionTable) (m : Module) (trees : List Tree) : Prop where
  definitions : ∀ t ∈ trees, ∃ name parameters returns body,
    t = .define name parameters returns body ∧ DefinitionAllowed functions parameters body
  room : m.HasRoom (Tree.callsOfAll trees).length
  opened : trees ≠ [] → m.written = none

/-- the definitions of a program decide one after the other -/
theorem decides_programPieces (htyped : functions.Typed) {trees : List Tree}
    (h : ∀ t ∈ trees, StatementRead lexed functions t) (m : Module) :
    Decides lexed (programPieces functions depth trees) m (ProgramFits functions m trees) (fun _ _ => True) := by
  induction trees generalizing m with
  | nil => exact decides_pure ⟨by simp, m.hasRoom_zero, fun hne => absurd rfl hne⟩ trivial
  | cons t rest ih =>
    obtain ⟨ht, hrest⟩ := List.forall_mem_cons.1 h
    by_cases hdefinition : t.isDefinition = true
    · cases t with
      | define name parameters returns body =>
        rw [programPieces]
        have hlength : (Tree.callsOfAll (.define name parameters returns body :: rest)).length =
            (Tree.callsOfAll body).length + (Tree.callsOfAll rest).length := by
          rw [Tree.callsOfAll, List.length_append]
          rfl
        have hfirst (hfits : ProgramFits functions m (.define name parameters returns body :: rest)) :
            DefinitionFits functions m parameters body := by
          obtain ⟨_, _, _, _, ⟨⟩, hallowed⟩ := hfits.definitions _ List.mem_cons_self
          exact ⟨hallowed, hfits.room.mono (by omega), hfits.opened (List.cons_ne_nil _ _)⟩
        refine (decides_definitionPieces htyped (ht _ _ _ _ rfl) m).bind hfirst ?_
        intro pieces m' hfits hgains
        have hiff : ProgramFits functions m' rest ↔
            ProgramFits functions m (.define name parameters returns body :: rest) := by
          constructor
          · intro hall
            refine ⟨List.forall_mem_cons.2 ⟨⟨_, _, _, _, rfl, hfits.allowed⟩, hall.definitions⟩, ?_, fun _ => hfits.opened⟩
            rw [hlength]
            exact (hgains.hasRoom_iff hfits.room).1 hall.room
          · intro hall
            have hroom := hall.room
            rw [hlength] at hroom
            exact ⟨(List.forall_mem_cons.1 hall.definitions).2, (hgains.hasRoom_iff hfits.room).2 hroom,
              fun _ => hgains.written.trans hfits.opened⟩
        exact ((ih hrest m').congr hiff).map fun _ _ _ _ => trivial
      | _ => cases hdefinition
    · have hviolates : programPieces functions depth (t :: rest) = violate (.outsideFunction t.form) := by
        cases t with
        | define => exact absurd rfl hdefinition
        | _ => rfl
      rw [hviolates]
      refine decides_violate rfl fun _ hfits => hdefinition ?_
      obtain ⟨_, _, _, _, rfl, _⟩ := hfits.definitions t List.mem_cons_self
      rfl

/-- **Lowering decides by its limits.** Lowering statements that were read succeeds only if they keep the rules; it fails
for nothing that reading excludes and, where the rules are kept, only for nesting too deeply. -/
theorem decides_definitions (htyped : functions.Typed) {trees : List Tree}
    (h : ∀ t ∈ trees, StatementRead lexed functions t) (m : Module) :
    Decides lexed (definitions functions depth trees) m (ProgramFits functions m trees) (fun _ _ => True) := by
  rw [definitions_eq_pieces, map_eq_pure_bind]
  exact (decides_programPieces htyped h m).map fun _ _ _ _ => trivial

end Lower

end StackLang
