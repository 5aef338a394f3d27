/-
What lowering a definition leaves behind.

A call takes one method reference, and a reference six pool entries. So what is lowered adds six entries for each of its
calls and touches nothing else of the module (`Lower.References`). Where lowering stops, it has added whole references so
far, unless the pool filled up in the middle of one, and nothing to a written module (`Module.StoppedAt`). A definition
adds its method when all else is done (`definition_footprint`).
-/
import StackLang.Proofs.Lowering.Slots
import StackLang.Proofs.Lowering.Succeeds
import StackLang.Proofs.Target.Entries
import StackLang.Session

namespace StackLang

open Step (Ensures)

/-! ## Calls of a tree -/

namespace Tree

mutual

/-- the number of calls that are lowered with a tree. What stands in the place of a call is lowered as one, with its
arguments only if it has the form of a call. Definitions and programs are no parts of a body. -/
def callCount : Tree → Nat
  | .number _ | .name _ | .ident _ | .define .. | .program _ => 0
  | .positive t | .negative t | .ret t | .declare _ _ t | .assign _ t | .addAssign _ t => t.callCount
  | .binary _ l r => l.callCount + r.callCount
  | .callOperand (.call _ arguments) => callCountOfAll arguments + 1
  | .callOperand _ => 1
  | .call _ arguments => callCountOfAll arguments + 1

def callCountOfAll : List Tree → Nat
  | [] => 0
  | t :: rest => t.callCount + callCountOfAll rest

end

theorem callCountOfAll_eq (trees : List Tree) : callCountOfAll trees = (trees.map callCount).sum := by
  induction trees with
  | nil => rfl
  | cons t rest ih => rw [callCountOfAll, ih, List.map_cons, List.sum_cons]

end Tree

/-! ## Modules with more entries -/

namespace Module

variable {m m' : Module} {entries more : List Constant} {fault : LowerFault}

def withEntries (m : Module) (entries : List Constant) : Module :=
  { m with pool := m.pool.append entries }

@[simp]
theorem withEntries_nil (m : Module) : m.withEntries [] = m := by
  simp [withEntries]

theorem withEntries_append (m : Module) (entries more : List Constant) :
    m.withEntries (entries ++ more) = (m.withEntries entries).withEntries more := by
  simp [withEntries, Pool.append_append]

/-- where a fault stopped what adds references: nothing but entries came to the module, those of whole references unless
the pool is full, and none if the module was written before -/
def StoppedAt (m : Module) (fault : LowerFault) (m' : Module) : Prop :=
  ∃ entries, m' = m.withEntries entries ∧ (fault ≠ .encoding .poolFull → 6 ∣ entries.length) ∧
    (m.isSealed = true → entries = [])

theorem StoppedAt.refl (m : Module) (fault : LowerFault) : m.StoppedAt fault m :=
  ⟨[], m.withEntries_nil.symm, fun _ => Nat.dvd_zero 6, fun _ => rfl⟩

/-- a stop behind whole references -/
theorem StoppedAt.behind (h : (m.withEntries entries).StoppedAt fault m') (hwhole : 6 ∣ entries.length)
    (hsealed : m.isSealed = true → entries = []) : m.StoppedAt fault m' := by
  obtain ⟨more, rfl, hfault, hmore⟩ := h
  refine ⟨entries ++ more, (m.withEntries_append entries more).symm, ?_, ?_⟩
  · intro hne
    rw [List.length_append]
    exact Nat.dvd_add hwhole (hfault hne)
  · intro hm
    rw [hsealed hm, hmore hm, List.append_nil]

end Module

/-! ## One reference -/

/-- a pool step that adds entries, and fails only if there is no more room -/
def Pool.Fills {α : Type} (step : PoolM α) : Prop :=
  ∀ p, Ensures step p (fun _ q => ∃ entries, q = p.append entries)
    (fun fault q => fault = .poolFull ∧ ∃ entries, q = p.append entries)

namespace Pool.Fills

theorem add (c : Constant) : Fills (add c) := by
  intro p
  refine .intro ?_ ?_
  · intro n q h
    obtain ⟨-, -, rfl⟩ := add_eq_ok.1 h
    exact ⟨_, rfl⟩
  · intro fault q h
    unfold Pool.add at h
    split at h
    · cases h
    · cases h
      exact ⟨rfl, [], p.append_nil.symm⟩

theorem bind {α β : Type} {x : PoolM α} {f : α → PoolM β} (hx : Fills x) (hf : ∀ a, Fills (f a)) : Fills (x >>= f) := by
  intro p
  refine (hx p).bind ?_
  rintro a q ⟨entries, rfl⟩
  refine (hf a _).imp ?_ ?_
  · rintro _ q ⟨more, rfl⟩
    exact ⟨_, append_append p entries more⟩
  · rintro fault q ⟨hfault, more, rfl⟩
    exact ⟨hfault, _, append_append p entries more⟩

theorem addMethodRef (owner name descriptor : String) : Fills (addMethodRef owner name descriptor) := by
  have hmember : Fills (addNameAndType name descriptor) := (add _).bind fun _ => (add _).bind fun _ => add _
  have howner : Fills (addClass owner) := (add _).bind fun _ => add _
  exact hmember.bind fun _ => howner.bind fun _ => add _

end Pool.Fills

namespace Lower

variable {α β : Type} {count count' : Nat} {frame : Frame} {functions : FunctionTable}

/-- a step that works on the module by adding references alone, so many of them if it succeeds -/
def References (count : Nat) (x : Lower α) : Prop :=
  ∀ m : Module, Ensures x m
    (fun _ m' => ∃ entries, m' = m.withEntries entries ∧ entries.length = 6 * count ∧
      (m.isSealed = true → entries = []))
    m.StoppedAt

namespace References

theorem pure (a : α) : References 0 (pure a) :=
  fun m => ⟨[], m.withEntries_nil.symm, rfl, fun _ => rfl⟩

theorem throw (fault : LowerFault) : References count (throw fault : Lower α) :=
  fun m => .refl m fault

theorem check (e : Except Violation α) : References 0 (check e) := by
  cases e with
  | ok a => exact pure a
  | error violation => exact throw _

theorem bind {x : Lower α} {f : α → Lower β} (hx : References count x) (hf : ∀ a, References count' (f a)) :
    References (count + count') (x >>= f) := by
  intro m
  refine (hx m).bind ?_
  rintro a _ ⟨entries, rfl, hlength, hsealed⟩
  refine (hf a _).imp ?_ ?_
  · rintro b _ ⟨more, rfl, hmore, hnone⟩
    refine ⟨entries ++ more, (m.withEntries_append entries more).symm, ?_, ?_⟩
    · rw [List.length_append, hlength, hmore, Nat.mul_add]
    · intro hm
      rw [hsealed hm, hnone hm, List.append_nil]
  · intro fault m' h
    exact h.behind (hlength ▸ Nat.dvd_mul_right 6 count) hsealed

/-- behind a step that adds no references -/
theorem after {x : Lower α} {f : α → Lower β} (hx : References 0 x) (hf : ∀ a, References count (f a)) :
    References count (x >>= f) := by
  have h := hx.bind hf
  rw [Nat.zero_add] at h
  exact h

/-- in front of a step that adds no references -/
theorem before {x : Lower α} {f : α → Lower β} (hx : References count x) (hf : ∀ a, References 0 (f a)) :
    References count (x >>= f) :=
  hx.bind hf

/-- a check in front of a step -/
theorem guard {c : Prop} [Decidable c] (violation : Violation) {step : Lower α} (h : ¬ c → References count step) :
    References count (if c then (do violate violation; step) else step) := by
  split
  · intro m
    exact .refl m _
  · exact h ‹_›

/-- a reference takes six entries if the module is open and there is room -/
theorem reference (name descriptor : String) : References 1 (onModule (Module.addMethodRef name descriptor)) := by
  intro m
  refine .mapFault ?_
  unfold Ensures Module.addMethodRef
  cases hwritten : m.written with
  | some bytes =>
    rw [Step.bind_of_error (Module.checkOpen_of_written hwritten)]
    exact .refl m _
  | none =>
    have hopen : m.isSealed ≠ true := by simp [Module.isSealed, hwritten]
    rw [Step.bind_of_ok (Module.checkOpen_of_open hwritten), Step.bind_of_ok (Step.get_apply m), Module.onPool]
    cases hadd : Pool.addMethodRef m.name name descriptor m.pool with
    | ok n p =>
      obtain ⟨-, -, rfl⟩ := Pool.addMethodRef_eq_ok.1 hadd
      exact ⟨_, rfl, rfl, fun hsealed => absurd hsealed hopen⟩
    | error fault p =>
      obtain ⟨rfl, entries, rfl⟩ := (Pool.Fills.addMethodRef m.name name descriptor m.pool).of_error hadd
      exact ⟨entries, rfl, fun hfault => absurd rfl hfault, fun hsealed => absurd hsealed hopen⟩

end References

/-! ## Expressions -/

theorem references_hasCall (depth : Nat) (t : Tree) : References 0 (hasCall depth t) := by
  induction depth generalizing t with
  | zero => exact .throw _
  | succ depth ih =>
    cases t with
    | callOperand t => exact .pure true
    | positive t => exact ih t
    | negative t => exact ih t
    | binary op l r =>
      refine (ih l).after fun found => ?_
      split
      · exact .pure true
      · exact ih r
    | _ => exact .pure false

section

variable {value : α → Lower (Code × Name)} {calls : α → Nat}

theorem references_argumentCodes (h : ∀ a, References (calls a) (value a)) (f : Name)
    (arguments : List (α × Parameter)) :
    References (arguments.map fun a => calls a.1).sum (argumentCodes value f arguments) := by
  induction arguments with
  | nil => exact .pure _
  | cons a rest ih =>
    rw [argumentCodes, List.map_cons, List.sum_cons]
    refine (h a.1).bind fun r => ?_
    dsimp only
    split
    · exact ih.before fun _ => .pure _
    · exact .throw _

/-- the references of the arguments, and one for the call itself -/
theorem references_call (h : ∀ a, References (calls a) (value a)) (f : Name) (arguments : List α) :
    References ((arguments.map calls).sum + 1) (call frame value f arguments) := by
  refine .after (.check _) fun signature => .guard _ fun harity => ?_
  -- as many arguments as parameters: none is lost when they are paired
  have hpaired : ((arguments.zip signature.parameters).map fun a => calls a.1) = arguments.map calls := by
    have hfirst := List.map_fst_zip (not_not.1 harity).le
    rw [← hfirst, List.map_map, hfirst]
    rfl
  rw [← hpaired]
  refine (references_argumentCodes h f _).bind fun code => .after (.check _) fun descriptor => ?_
  exact (References.reference _ _).before fun _ => .pure _

end

theorem references_intFunction (t : Tree) : References 0 (intFunction frame t) := by
  unfold intFunction
  split
  · exact .throw _
  · refine .after (.check _) fun signature => ?_
    split
    · exact .pure _
    · exact .throw _

theorem references_operandCall {value : Tree → Lower (Code × Name)} (h : ∀ t, References t.callCount (value t))
    (t : Tree) : References (Tree.callOperand t).callCount (operandCall frame value t) := by
  refine .after (references_intFunction t) fun f => ?_
  cases t with
  | call g arguments =>
    rw [Tree.callCount, Tree.callCountOfAll_eq]
    exact (references_call h f arguments).before fun _ => .pure _
  | define name parameters returns body =>
    let refuse (_ : Parameter) : Lower (Code × Name) := violate (.unsupportedExpression "FunctionArgument")
    have hrefuse (p : Parameter) : References 0 (refuse p) := .throw _
    have hcall : References ((parameters.map fun _ => 0).sum + 1) (call frame refuse f parameters) :=
      references_call hrefuse f parameters
    rw [List.map_const', List.sum_replicate, smul_zero] at hcall
    exact hcall.before fun _ => .pure _
  | _ => exact .throw _

/-- the two sorts of expressions at a depth -/
structure ReferencesAt (frame : Frame) (depth : Nat) : Prop where
  value : ∀ t, References t.callCount (value frame depth t)
  arithmetic : ∀ t, References t.callCount (arithmetic frame depth t)

theorem references_value {depth : Nat} (ih : ReferencesAt frame depth) (t : Tree) :
    References t.callCount (value frame (depth + 1) t) := by
  have hother (hident : ∀ x, t ≠ .ident x) (hcall : ∀ f arguments, t ≠ .call f arguments) :
      References t.callCount (value frame (depth + 1) t) := by
    rw [value]
    · split
      · exact (ih.arithmetic t).before fun _ => .pure _
      · exact .throw _
    · exact hident
    · exact hcall
  cases t with
  | ident x => exact .after (.check _) fun _ => .after (.check _) fun _ => .pure _
  | call f arguments =>
    rw [value, Tree.callCount, Tree.callCountOfAll_eq]
    refine (references_call ih.value f arguments).before fun r => ?_
    dsimp only
    split
    · exact .throw _
    · exact .pure _
  | _ => exact hother (by simp) (by simp)

theorem callCount_of_negatedLiteral? {t : Tree} {code : Code} (h : negatedLiteral? t = some code) :
    t.callCount = 0 := by
  cases t with
  | number n => rfl
  | _ => cases h

theorem references_arithmetic {depth : Nat} (ih : ReferencesAt frame depth) (t : Tree) :
    References t.callCount (arithmetic frame (depth + 1) t) := by
  cases t with
  | number n => exact .check _
  | name x =>
    refine .after (.check _) fun v => ?_
    split
    · exact .check _
    · exact .throw _
  | callOperand t => exact references_operandCall ih.value t
  | positive t => exact ih.arithmetic t
  | negative t =>
    rw [arithmetic, Tree.callCount]
    split
    · rename_i code hliteral
      rw [callCount_of_negatedLiteral? hliteral]
      exact .pure _
    · exact (ih.arithmetic t).before fun _ => .pure _
  | binary op l r =>
    rw [Tree.callCount]
    by_cases hop : op = .pow
    · subst hop
      cases r with
      | number n =>
        rw [arithmetic]
        refine .after (references_hasCall depth l) fun found => ?_
        split
        · exact .throw _
        · exact (ih.arithmetic l).before fun _ => .check _
      | _ => exact .throw _
    · rw [arithmetic]
      · split
        · exact .throw _
        · exact (ih.arithmetic l).bind fun _ => (ih.arithmetic r).before fun _ => .pure _
      · exact hop
  | _ => exact .throw _

/-- at any depth, an expression adds a reference for each of its calls -/
theorem referencesAt (frame : Frame) (depth : Nat) : ReferencesAt frame depth := by
  induction depth with
  | zero => exact ⟨fun t => .throw _, fun t => .throw _⟩
  | succ depth ih => exact ⟨references_value ih, references_arithmetic ih⟩

/-! ## Statements -/

theorem references_declaration (depth : Nat) (x type : Name) (t : Tree) :
    References t.callCount (declaration frame depth x type t) := by
  refine .after (.check _) fun _ => .guard _ fun _ => ?_
  refine ((referencesAt frame depth).value t).before fun r => .guard _ fun _ => ?_
  exact .after (.check _) fun _ => .after (.check _) fun _ => .pure _

theorem references_assignment (depth : Nat) (x : Name) (t : Tree) :
    References t.callCount (assignment frame depth x t) := by
  refine .after (.check _) fun v => ((referencesAt frame depth).value t).before fun r => .guard _ fun _ => ?_
  exact .after (.check _) fun _ => .pure _

theorem references_addition (depth : Nat) (x : Name) (t : Tree) :
    References t.callCount (addition frame depth x t) := by
  refine .after (.check _) fun v => ((referencesAt frame depth).value t).before fun r => .guard _ fun _ => ?_
  exact .after (.check _) fun _ => .after (.check _) fun _ => .pure _

theorem references_statement (depth : Nat) (t : Tree) : References t.callCount (statement frame depth t) := by
  have hvalue := (referencesAt frame depth).value
  cases t with
  | declare x type t => exact references_declaration depth x type t
  | assign x t => exact (references_assignment depth x t).before fun _ => .pure _
  | addAssign x t => exact (references_addition depth x t).before fun _ => .pure _
  | ret t => exact (hvalue t).before fun _ => .pure _
  | call f arguments =>
    rw [Tree.callCount, Tree.callCountOfAll_eq]
    exact (references_call hvalue f arguments).before fun _ => .pure _
  | _ => exact .throw _

theorem references_body (depth : Nat) (locals : Locals) (found : List Code) (trees : List Tree) :
    References (Tree.callCountOfAll trees) (body functions depth locals found trees) := by
  induction trees generalizing locals found with
  | nil => exact .pure _
  | cons t rest ih => exact (references_statement depth t).bind fun r => ih r.2 (r.1 :: found)

/-- a statement takes a slot exactly if it declares a variable -/
theorem count_of_statement {depth : Nat} {t : Tree} {m m' : Module} {code : Code} {locals : Locals}
    (h : statement frame depth t m = .ok (code, locals) m') :
    locals.count = frame.locals.count + if t.declared?.isSome then 1 else 0 := by
  cases t with
  | declare x type t =>
    obtain ⟨v, inner, last, -, -, hdeclare, -⟩ := statement_declare_eq_ok.1 h
    exact Locals.count_declare hdeclare
  | assign x t =>
    obtain ⟨v, inner, last, -, -, -, -, -, rfl⟩ := statement_assign_eq_ok.1 h
    rfl
  | addAssign x t =>
    obtain ⟨v, inner, old, last, -, -, -, -, -, -, rfl⟩ := statement_addAssign_eq_ok.1 h
    rfl
  | ret t =>
    obtain ⟨inner, type, -, -, rfl⟩ := statement_ret_eq_ok.1 h
    rfl
  | call f arguments =>
    obtain ⟨s, -, rfl⟩ := statement_call_eq_ok.1 h
    rfl
  | _ => cases h

theorem count_of_body {depth : Nat} {trees : List Tree} {found : List Code} {locals locals' : Locals} {m m' : Module}
    {code : Code} (h : body functions depth locals found trees m = .ok (code, locals') m') :
    locals'.count = locals.count + trees.countP (·.declared?.isSome) := by
  induction trees generalizing locals found m with
  | nil =>
    cases h
    rfl
  | cons t rest ih =>
    obtain ⟨⟨piece, locals₁⟩, m₁, hfirst, hrest⟩ := Step.bind_eq_ok.1 h
    have hcount : locals₁.count = locals.count + if t.declared?.isSome then 1 else 0 := count_of_statement hfirst
    rw [ih hrest, hcount, List.countP_cons]
    omega

/-! ## Definitions -/

theorem ensures_check (e : Except Violation α) (m : Module) :
    Ensures (check e) m (fun a m' => e = .ok a ∧ m' = m) m.StoppedAt := by
  cases e with
  | ok a => exact ⟨rfl, rfl⟩
  | error violation => exact .refl m _

/-- a method is added behind the others, or the module stays as it is -/
theorem ensures_addMethod (name descriptor : String) (code : Bytes) (maxLocals : Int) (m : Module) :
    Ensures (onModule (Module.addMethod name descriptor code maxLocals)) m
      (fun _ m' => ∃ held, Attribute.code code maxLocals = .ok held ∧
        m' = { m with methods := m.methods ++ [⟨name, descriptor, 0, [held]⟩] })
      m.StoppedAt := by
  refine .mapFault ?_
  unfold Ensures Module.addMethod
  rcases Option.eq_none_or_eq_some m.written with hopen | ⟨bytes, hwritten⟩
  · rw [Step.bind_of_ok (Module.checkOpen_of_open hopen)]
    cases Attribute.code code maxLocals with
    | ok held => exact ⟨held, rfl, rfl⟩
    | error fault => exact .refl m _
  · rw [Step.bind_of_error (Module.checkOpen_of_written hwritten)]
    exact .refl m _

/-- a definition lowered in a session leaves the functions, and the module as it leaves it by itself -/
theorem left_lower_define (session : Session) (name : Name) (parameters : List Parameter) (returns : Name)
    (statements : List Tree) :
    Step.left (Session.lower [.define name parameters returns statements] session) =
      ⟨session.functions,
        Step.left (definition session.functions nestingLimit name parameters returns statements session.target)⟩ := by
  obtain ⟨functions, target⟩ := session
  unfold Session.lower Session.lowerWithin
  dsimp only
  cases hrun : definition functions nestingLimit name parameters returns statements target with
  | ok code target =>
    rw [definitions, Step.bind_of_ok hrun]
    rfl
  | error fault target =>
    rw [definitions, Step.bind_of_error hrun]
    rfl

/-- Lowering a definition adds exactly one method, with its code and with slots for its parameters and declared
variables, and six pool entries for each call of its body. If it fails there is no new method, only the entries of whole
references unless the pool is full, and nothing new in a module that is already written. A session keeps its table of
functions. -/
theorem definition_footprint (functions : FunctionTable) (depth : Nat) (name : Name) (parameters : List Parameter)
    (returns : Name) (statements : List Tree) (m : Module) :
    Ensures (definition functions depth name parameters returns statements) m
      (fun code m' => ∃ descriptor held entries,
        Signature.descriptor ⟨returns, parameters⟩ = .ok descriptor ∧
        Attribute.code (Code.encode code) ((parameters.length + statements.countP (·.declared?.isSome) : Nat) : Int) =
          .ok held ∧
        code.size ≤ 65535 ∧ entries.length = 6 * Tree.callCountOfAll statements ∧
        m' = { m with
          pool := m.pool.append entries, methods := m.methods ++ [⟨name.display, descriptor, 0, [held]⟩] })
      (fun fault m' => ∃ entries, m' = { m with pool := m.pool.append entries } ∧
        (fault ≠ .encoding .poolFull → 6 ∣ entries.length) ∧ (m.isSealed = true → entries = [])) ∧
    ∀ session : Session,
      Step.left (Session.lower [.define name parameters returns statements] session) =
        ⟨session.functions,
          Step.left (definition session.functions nestingLimit name parameters returns statements session.target)⟩ := by
  constructor
  · refine (ensures_check (parameterLocals parameters) m).bind ?_
    rintro locals m ⟨hlocals, rfl⟩
    have hbody : Ensures (body functions depth locals [] statements) m
        (fun r m' => (∃ entries, m' = m.withEntries entries ∧
            entries.length = 6 * Tree.callCountOfAll statements ∧ (m.isSealed = true → entries = [])) ∧
          r.2.count = parameters.length + statements.countP (·.declared?.isSome))
        m.StoppedAt := by
      refine .intro ?_ fun fault m' h => (references_body depth locals [] statements m).of_error h
      intro r m' h
      refine ⟨(references_body depth locals [] statements m).of_ok h, ?_⟩
      rw [count_of_body h, (parameterLocals_numbered hlocals).2]
    refine hbody.bind ?_
    rintro ⟨code, locals'⟩ _ ⟨⟨entries, rfl, hlength, hsealed⟩, hcount⟩
    -- a fault from here on finds whole references
    have hstop (fault : LowerFault) (m' : Module) (h : (m.withEntries entries).StoppedAt fault m') :
        m.StoppedAt fault m' := h.behind (hlength ▸ Nat.dvd_mul_right 6 _) hsealed
    dsimp only
    split
    · exact hstop _ _ (.refl _ _)
    · rename_i hsize
      refine ((ensures_check (Signature.descriptor ⟨returns, parameters⟩) _).imp (fun _ _ h => h) hstop).bind ?_
      rintro descriptor _ ⟨hdescriptor, rfl⟩
      have hmethod := ensures_addMethod name.display descriptor (Code.encode code) locals'.count (m.withEntries entries)
      refine (hmethod.imp (fun _ _ h => h) hstop).bind ?_
      rintro _ _ ⟨held, hattribute, rfl⟩
      have hcount : locals'.count = parameters.length + statements.countP (·.declared?.isSome) := hcount
      rw [hcount] at hattribute
      exact ⟨descriptor, held, entries, hdescriptor, hattribute, Nat.le_of_not_lt hsize, hlength, rfl⟩
  · intro session
    exact left_lower_define session name parameters returns statements

end Lower

end StackLang
