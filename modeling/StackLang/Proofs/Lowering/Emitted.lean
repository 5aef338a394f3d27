/-
The code of trees, as a relation.

`Emitted.Value link locals t code` says that `code` is code for the expression `t`: what stands in it, given the slots
of the variables and what the pool indices of its calls lead to. The relation says nothing about how code is found;
lowering gives only such code, against every pool grown from the one it leaves (`value_emitted`,
`program_lowered`), because an entry keeps its number and a call refers to an entry that is there.
-/
import StackLang.Proofs.Lowering.Succeeds
import StackLang.Proofs.Source.Shape
import StackLang.Proofs.Target.Written

namespace StackLang

/-- what the indices in a code are resolved against -/
structure Linkage where
  pool : Pool
  owner : String
  functions : FunctionTable

/-- an index that leads to a known function of the module, under its own descriptor -/
structure Linkage.CallsTo (link : Linkage) (f : Name) (s : Signature) (index : UInt16) : Prop where
  known : link.functions.find? f = some s
  reference : ∃ descriptor, s.descriptor = .ok descriptor ∧
    link.pool.reference? index.toNat = some ⟨link.owner, f.display, descriptor⟩

/-- whether arithmetic calls no function -/
def Tree.callFree : Tree → Bool
  | .callOperand _ => false
  | .positive t | .negative t => t.callFree
  | .binary _ l r => l.callFree && r.callFree
  | _ => true

namespace Emitted

mutual

inductive Value (link : Linkage) (locals : Locals) : Tree → Code → Prop
  | ident {x : Name} {v : Variable} {code : Code} :
      locals.find? x = some v → Lower.load v.slot = .ok code → Value link locals (.ident x) code
  | call {f : Name} {arguments : List Tree} {s : Signature} {code : Code} :
      Call link locals f arguments s code → s.returns = TypeWord.int → Value link locals (.call f arguments) code
  | arithmetic {t : Tree} {code : Code} : Arithmetic link locals t code → Value link locals t code

/-- code of arithmetic: operands before their operator, powers unrolled -/
inductive Arithmetic (link : Linkage) (locals : Locals) : Tree → Code → Prop
  | number {n : Int} {code : Code} : Lower.push n = .ok code → Arithmetic link locals (.number n) code
  | name {x : Name} {v : Variable} {code : Code} :
      locals.find? x = some v → Lower.load v.slot = .ok code → Arithmetic link locals (.name x) code
  | call {f : Name} {arguments : List Tree} {s : Signature} {code : Code} :
      Call link locals f arguments s code → s.returns = TypeWord.int →
      Arithmetic link locals (.callOperand (.call f arguments)) code
  | positive {t : Tree} {code : Code} : Arithmetic link locals t code → Arithmetic link locals (.positive t) code
  | negated {n : Int} {code : Code} : Lower.push (-n) = .ok code → Arithmetic link locals (.negative (.number n)) code
  | negative {t : Tree} {code : Code} :
      Arithmetic link locals t code → Arithmetic link locals (.negative t) (code ++ [.ineg])
  | power {base : Tree} {n : Int} {code unrolled : Code} :
      base.callFree = true → 0 ≤ n → Arithmetic link locals base code → Lower.unroll code n = .ok unrolled →
      Arithmetic link locals (.binary .pow base (.number n)) unrolled
  | binary {op : BinaryOp} {i : Instr} {l r : Tree} {left right : Code} :
      Lower.binaryInstr? op = some i → Arithmetic link locals l left → Arithmetic link locals r right →
      Arithmetic link locals (.binary op l r) (left ++ right ++ [i])

/-- code of a call: its arguments from left to right, then the call -/
inductive Call (link : Linkage) (locals : Locals) : Name → List Tree → Signature → Code → Prop
  | mk {f : Name} {arguments : List Tree} {s : Signature} {code : Code} {index : UInt16} :
      link.CallsTo f s index → arguments.length = s.arity → Arguments link locals arguments code →
      Call link locals f arguments s (code ++ [.invokevirtual index])

inductive Arguments (link : Linkage) (locals : Locals) : List Tree → Code → Prop
  | nil : Arguments link locals [] []
  | cons {t : Tree} {rest : List Tree} {first code : Code} :
      Value link locals t first → Arguments link locals rest code → Arguments link locals (t :: rest) (first ++ code)

end

/-- code of a statement, and the variables after it -/
inductive Statement (link : Linkage) : Locals → Tree → Code → Locals → Prop
  | declare {locals locals' : Locals} {x type : Name} {t : Tree} {v : Variable} {code last : Code} :
      Value link locals t code → locals.declare x type = .ok (v, locals') → Lower.store v.slot = .ok last →
      Statement link locals (.declare x type t) (code ++ last) locals'
  | assign {locals : Locals} {x : Name} {t : Tree} {v : Variable} {code last : Code} :
      locals.find? x = some v → Value link locals t code → Lower.store v.slot = .ok last →
      Statement link locals (.assign x t) (code ++ last) locals
  | addAssign {locals : Locals} {x : Name} {t : Tree} {v : Variable} {code old last : Code} :
      locals.find? x = some v → Value link locals t code → Lower.load v.slot = .ok old →
      Lower.store v.slot = .ok last → Statement link locals (.addAssign x t) (code ++ old ++ [.iadd] ++ last) locals
  | ret {locals : Locals} {t : Tree} {code : Code} :
      Value link locals t code → Statement link locals (.ret t) (code ++ [.ireturn]) locals
  | call {locals : Locals} {f : Name} {arguments : List Tree} {s : Signature} {code : Code} :
      Call link locals f arguments s code → Statement link locals (.call f arguments) code locals

inductive Body (link : Linkage) : Locals → List Tree → Code → Locals → Prop
  | nil {locals : Locals} : Body link locals [] [] locals
  | cons {locals₁ locals₂ locals₃ : Locals} {t : Tree} {rest : List Tree} {first code : Code} :
      Statement link locals₁ t first locals₂ → Body link locals₂ rest code locals₃ →
      Body link locals₁ (t :: rest) (first ++ code) locals₃

/-- code of the statements of a body, piece by piece -/
inductive Statements (link : Linkage) : Locals → List Tree → List Code → Locals → Prop
  | nil {locals : Locals} : Statements link locals [] [] locals
  | cons {locals₁ locals₂ locals₃ : Locals} {t : Tree} {rest : List Tree} {code : Code} {pieces : List Code} :
      Statement link locals₁ t code locals₂ → Statements link locals₂ rest pieces locals₃ →
      Statements link locals₁ (t :: rest) (code :: pieces) locals₃

/-- the pieces of a body make up its code -/
theorem Statements.body {link : Linkage} {locals locals' : Locals} {trees : List Tree} {pieces : List Code}
    (h : Statements link locals trees pieces locals') : Body link locals trees pieces.flatten locals' := by
  induction h with
  | nil => exact .nil
  | cons hfirst _ ih => exact .cons hfirst ih

inductive Definition (link : Linkage) : Tree → MethodImage → Prop
  | mk {name returns : Name} {parameters : List Parameter} {statements : List Tree} {locals locals' : Locals}
      {code : Code} {descriptor : String} :
      Lower.parameterLocals parameters = .ok locals → Body link locals statements code locals' →
      Signature.descriptor ⟨returns, parameters⟩ = .ok descriptor →
      Definition link (.define name parameters returns statements)
        ⟨name.display, descriptor, 0, locals'.count, Code.encode code⟩

/-- the method of a definition, its code piece by piece -/
inductive Assembled (link : Linkage) : Tree → List Code → MethodImage → Prop
  | mk {name returns : Name} {parameters : List Parameter} {statements : List Tree} {locals locals' : Locals}
      {pieces : List Code} {descriptor : String} :
      Lower.parameterLocals parameters = .ok locals → Statements link locals statements pieces locals' →
      Signature.descriptor ⟨returns, parameters⟩ = .ok descriptor →
      Assembled link (.define name parameters returns statements) pieces
        ⟨name.display, descriptor, 0, locals'.count, Code.encode pieces.flatten⟩

theorem Assembled.definition {link : Linkage} {t : Tree} {pieces : List Code} {method : MethodImage}
    (h : Assembled link t pieces method) : Definition link t method := by
  cases h with
  | mk hlocals hstatements hdescriptor => exact .mk hlocals hstatements.body hdescriptor

inductive Program (link : Linkage) : List Tree → List (List Code) → List MethodImage → Prop
  | nil : Program link [] [] []
  | cons {t : Tree} {trees : List Tree} {pieces : List Code} {parts : List (List Code)} {method : MethodImage}
      {methods : List MethodImage} :
      Assembled link t pieces method → Program link trees parts methods →
      Program link (t :: trees) (pieces :: parts) (method :: methods)

namespace Program

variable {link : Linkage} {trees : List Tree} {parts : List (List Code)} {methods : List MethodImage}

theorem definitions (h : Program link trees parts methods) : List.Forall₂ (Definition link) trees methods := by
  induction h with
  | nil => exact .nil
  | cons hfirst _ ih => exact .cons hfirst.definition ih

/-- definitions, pieces and methods with one number belong together -/
theorem get (h : Program link trees parts methods) {i : Nat} {method : MethodImage} (hi : methods[i]? = some method) :
    ∃ t pieces, trees[i]? = some t ∧ parts[i]? = some pieces ∧ Assembled link t pieces method := by
  induction h generalizing i with
  | nil => cases hi
  | @cons t _ pieces _ _ _ hfirst _ ih =>
    cases i with
    | zero =>
      cases hi
      exact ⟨t, pieces, rfl, rfl, hfirst⟩
    | succ i => exact ih hi

theorem append {trees' : List Tree} {parts' : List (List Code)} {methods' : List MethodImage}
    (h : Program link trees parts methods) (h' : Program link trees' parts' methods') :
    Program link (trees ++ trees') (parts ++ parts') (methods ++ methods') := by
  induction h with
  | nil => exact h'
  | cons hfirst _ ih => exact .cons hfirst ih

end Program

end Emitted

/-! ## What lowering does to the module -/

/-- an open module to whose pool entries were added -/
structure Module.Extends (m m' : Module) : Prop where
  opened : m'.written = none
  name : m'.name = m.name
  superName : m'.superName = m.superName
  flags : m'.flags = m.flags
  methods : m'.methods = m.methods
  grows : Pool.Grows m.pool m'.pool

namespace Module.Extends

theorem refl {m : Module} (h : m.written = none) : Extends m m :=
  ⟨h, rfl, rfl, rfl, rfl, Pool.Grows.refl _⟩

theorem trans {m₁ m₂ m₃ : Module} (h : Extends m₁ m₂) (h' : Extends m₂ m₃) : Extends m₁ m₃ :=
  ⟨h'.opened, h'.name.trans h.name, h'.superName.trans h.superName, h'.flags.trans h.flags,
    h'.methods.trans h.methods, h.grows.trans h'.grows⟩

end Module.Extends

namespace Lower

variable {m m' : Module} {frame : Frame}

/-- a step gives code with a property, whatever the pool will grow to, and adds to the pool only -/
def Gives (m m' : Module) (emitted : Linkage → Prop) (functions : FunctionTable) : Prop :=
  m.Extends m' ∧ ∀ pool, Pool.Grows m'.pool pool → emitted ⟨pool, m.name, functions⟩

theorem Gives.of_pure {emitted : Linkage → Prop} {functions : FunctionTable} (hopen : m.written = none)
    (h : ∀ link, emitted link) : Gives m m emitted functions :=
  ⟨.refl hopen, fun _ _ => h _⟩

theorem Gives.map {emitted emitted' : Linkage → Prop} {functions : FunctionTable} (h : Gives m m' emitted functions)
    (hmap : ∀ link, link.functions = functions → emitted link → emitted' link) : Gives m m' emitted' functions :=
  ⟨h.1, fun pool hpool => hmap _ rfl (h.2 pool hpool)⟩

/-- one step after the other: what the first gave is still there after the second -/
theorem Gives.and {m₁ m₂ m₃ : Module} {first second : Linkage → Prop} {functions : FunctionTable}
    (h : Gives m₁ m₂ first functions) (h' : Gives m₂ m₃ second functions) :
    Gives m₁ m₃ (fun link => first link ∧ second link) functions := by
  refine ⟨h.1.trans h'.1, fun pool hpool => ⟨h.2 pool (h'.1.grows.trans hpool), ?_⟩⟩
  rw [← h.1.name]
  exact h'.2 pool hpool

/-! ## Calls -/

/-- values lowered by `value` have code related to them -/
def ValuesEmitted (frame : Frame) (value : Tree → Lower (Code × Name)) : Prop :=
  ∀ (t : Tree) (m m' : Module) (code : Code) (type : Name), t.Proper → m.written = none →
    value t m = .ok (code, type) m' → Gives m m' (fun link => Emitted.Value link frame.locals t code) frame.functions

theorem argumentCodes_emitted {value : Tree → Lower (Code × Name)} (hvalue : ValuesEmitted frame value) {f : Name}
    {arguments : List Tree} {parameters : List Parameter} {code : Code} (hlen : arguments.length = parameters.length)
    (hproper : ∀ t ∈ arguments, t.Proper) (hopen : m.written = none)
    (h : argumentCodes value f (arguments.zip parameters) m = .ok code m') :
    Gives m m' (fun link => Emitted.Arguments link frame.locals arguments code) frame.functions := by
  induction arguments generalizing parameters code m with
  | nil =>
    obtain ⟨rfl, rfl⟩ := Step.pure_eq_ok.1 h
    exact .of_pure hopen fun _ => .nil
  | cons t rest ih =>
    cases parameters with
    | nil => cases hlen
    | cons p parameters =>
      obtain ⟨first, type, m₁, more, hfirst, _, hrest, rfl⟩ := argumentCodes_cons_eq_ok.1 h
      obtain ⟨ht, hproper⟩ := List.forall_mem_cons.1 hproper
      have hgives := hvalue t m m₁ first type ht hopen hfirst
      have hmore := ih (Nat.succ.inj hlen) hproper hgives.1.opened hrest
      exact (hgives.and hmore).map fun link _ h => .cons h.1 h.2

/-- a call refers to its function through an entry of its own -/
theorem call_emitted {value : Tree → Lower (Code × Name)} (hvalue : ValuesEmitted frame value) {f : Name}
    {arguments : List Tree} {code : Code} {s : Signature} (hproper : ∀ t ∈ arguments, t.Proper)
    (hopen : m.written = none) (h : call frame value f arguments m = .ok (code, s) m') :
    Gives m m' (fun link => Emitted.Call link frame.locals f arguments s code) frame.functions := by
  obtain ⟨hfind, hlen, argumentCode, m₁, descriptor, index, harguments, hdescriptor, hreference, rfl⟩ := call_eq_ok.1 h
  have hgives := argumentCodes_emitted hvalue hlen hproper hopen harguments
  obtain ⟨pool, hadd, rfl⟩ := Module.addMethodRef_eq_ok hgives.1.opened hreference
  obtain ⟨hgrows, hlt, hleads⟩ := Pool.reference?_addMethodRef hadd
  refine ⟨hgives.1.trans ⟨hgives.1.opened, rfl, rfl, rfl, rfl, hgrows⟩, fun q hq => ?_⟩
  refine .mk ⟨hfind, descriptor, hdescriptor, ?_⟩ hlen (hgives.2 q (hgrows.trans hq))
  have hindex : (UInt16.ofNat index).toNat = index := by
    rw [UInt16.toNat_ofNat']
    exact Nat.mod_eq_of_lt hlt
  rw [hindex]
  dsimp only
  rw [← hgives.1.name]
  exact Pool.reference?_of_grows hq hleads

/-! ## Expressions -/

/-- the search for calls changes nothing, and finds none only where there is none -/
theorem hasCall_eq_ok {depth : Nat} {t : Tree} {found : Bool} (h : hasCall depth t m = .ok found m') :
    m = m' ∧ (found = false → t.callFree = true) := by
  induction depth generalizing t found m m' with
  | zero => cases h
  | succ depth ih =>
    cases t with
    | callOperand t =>
      obtain ⟨rfl, rfl⟩ := Step.pure_eq_ok.1 h
      exact ⟨rfl, fun hnone => absurd hnone (by decide)⟩
    | positive t =>
      rw [hasCall] at h
      obtain ⟨hm, hfree⟩ := ih h
      exact ⟨hm, hfree⟩
    | negative t =>
      rw [hasCall] at h
      obtain ⟨hm, hfree⟩ := ih h
      exact ⟨hm, hfree⟩
    | binary op l r =>
      rw [hasCall] at h
      obtain ⟨left, m₁, hleft, h⟩ := Step.bind_eq_ok.1 h
      obtain ⟨rfl, hl⟩ := ih hleft
      split_ifs at h with hfound
      · obtain ⟨rfl, rfl⟩ := Step.pure_eq_ok.1 h
        exact ⟨rfl, fun hnone => absurd hnone (by decide)⟩
      · obtain ⟨rfl, hr⟩ := ih h
        refine ⟨rfl, fun hnone => ?_⟩
        simp [Tree.callFree, hl (by simpa using hfound), hr hnone]
    | _ =>
      obtain ⟨rfl, rfl⟩ := Step.pure_eq_ok.1 h
      exact ⟨rfl, fun _ => rfl⟩

/-- a function with a descriptor that does not return nothing returns an integer -/
theorem returns_int {s : Signature} {descriptor : String} (h : s.descriptor = .ok descriptor)
    (hvoid : s.returns ≠ TypeWord.void) : s.returns = TypeWord.int := by
  obtain ⟨parameters, _, h⟩ := Step.check_bind_eq_ok.1 h
  obtain ⟨letter, hletter, _⟩ := Step.check_bind_eq_ok.1 h
  unfold TypeWord.letter at hletter
  split_ifs at hletter with hint
  exact hint

/-- arithmetic of one depth has code related to it -/
def ArithmeticEmitted (frame : Frame) (depth : Nat) : Prop :=
  ∀ (t : Tree) (m m' : Module) (code : Code), t.Proper → m.written = none → arithmetic frame depth t m = .ok code m' →
    Gives m m' (fun link => Emitted.Arithmetic link frame.locals t code) frame.functions

theorem operandCall_emitted {value : Tree → Lower (Code × Name)} (hvalue : ValuesEmitted frame value) {t : Tree}
    {code : Code} (hproper : t.Proper) (hcall : ∃ f arguments, t = .call f arguments) (hopen : m.written = none)
    (h : operandCall frame value t m = .ok code m') :
    Gives m m' (fun link => Emitted.Arithmetic link frame.locals (.callOperand t) code) frame.functions := by
  obtain ⟨f, arguments, rfl⟩ := hcall
  obtain ⟨s, hint, hcall⟩ := operandCall_eq_ok.1 h
  have hgives := call_emitted hvalue (Tree.properAll_iff.1 hproper.2) hopen hcall
  exact hgives.map fun _ _ hemitted => .call hemitted hint

/-- a power with a literal exponent is unrolled from the code of its base -/
theorem power_emitted {depth : Nat} (harithmetic : ArithmeticEmitted frame depth) {base exponent : Tree} {code : Code}
    (hproper : base.Proper ∧ exponent.Proper) (hopen : m.written = none)
    (h : arithmetic frame (depth + 1) (.binary .pow base exponent) m = .ok code m') :
    Gives m m' (fun link => Emitted.Arithmetic link frame.locals (.binary .pow base exponent) code)
      frame.functions := by
  obtain ⟨n, inner, m₁, rfl, hsearch, hinner, hunroll⟩ := arithmetic_power_eq_ok.1 h
  obtain ⟨rfl, hfree⟩ := hasCall_eq_ok hsearch
  have hgives := harithmetic base m m' inner hproper.1 hopen hinner
  exact hgives.map fun _ _ hemitted => .power (hfree rfl) hproper.2 hemitted hunroll

/-- an operator with an instruction comes after its operands -/
theorem binary_emitted {depth : Nat} (harithmetic : ArithmeticEmitted frame depth) {op : BinaryOp} (hop : op ≠ .pow)
    {l r : Tree} {code : Code} (hproper : l.Proper ∧ r.Proper) (hopen : m.written = none)
    (h : arithmetic frame (depth + 1) (.binary op l r) m = .ok code m') :
    Gives m m' (fun link => Emitted.Arithmetic link frame.locals (.binary op l r) code) frame.functions := by
  obtain ⟨i, left, right, m₁, hinstr, hleft, hright, rfl⟩ := (arithmetic_binary_eq_ok hop).1 h
  have hl := harithmetic l m m₁ left hproper.1 hopen hleft
  have hr := harithmetic r m₁ m' right hproper.2 hl.1.opened hright
  exact (hl.and hr).map fun _ _ hemitted => .binary hinstr hemitted.1 hemitted.2

theorem arithmetic_emitted {depth : Nat} (harithmetic : ArithmeticEmitted frame depth)
    (hvalue : ValuesEmitted frame (value frame depth)) : ArithmeticEmitted frame (depth + 1) := by
  intro t m m' code hproper hopen h
  cases t with
  | number n =>
    obtain ⟨hpush, rfl⟩ := check_eq_ok.1 h
    exact .of_pure hopen fun _ => .number hpush
  | name x =>
    obtain ⟨v, hfind, _, hload, rfl⟩ := arithmetic_name_eq_ok.1 h
    exact .of_pure hopen fun _ => .name hfind hload
  | callOperand t =>
    rw [arithmetic] at h
    exact operandCall_emitted hvalue hproper.2 hproper.1 hopen h
  | positive t =>
    rw [arithmetic] at h
    exact (harithmetic t m m' code hproper hopen h).map fun _ _ hemitted => .positive hemitted
  | negative t =>
    rcases arithmetic_negative_eq_ok.1 h with ⟨hliteral, rfl⟩ | ⟨_, inner, hinner, rfl⟩
    · obtain ⟨n, rfl, hpush⟩ := negatedLiteral?_eq_some hliteral
      exact .of_pure hopen fun _ => .negated hpush
    · exact (harithmetic t m m' inner hproper hopen hinner).map fun _ _ hemitted => .negative hemitted
  | binary op l r =>
    by_cases hop : op = .pow
    · subst hop
      exact power_emitted harithmetic hproper hopen h
    · exact binary_emitted harithmetic hop hproper hopen h
  | _ => cases h

/-- a call whose result is a value -/
theorem valueCall_emitted {depth : Nat} (hvalue : ValuesEmitted frame (value frame depth)) {f type : Name}
    {arguments : List Tree} {code : Code} (hproper : (Tree.call f arguments).Proper) (hopen : m.written = none)
    (h : value frame (depth + 1) (.call f arguments) m = .ok (code, type) m') :
    Gives m m' (fun link => Emitted.Value link frame.locals (.call f arguments) code) frame.functions := by
  obtain ⟨s, hcall, hvoid, _⟩ := value_call_eq_ok.1 h
  have hgives := call_emitted hvalue (Tree.properAll_iff.1 hproper.2) hopen hcall
  refine hgives.map fun _ _ hemitted => .call hemitted ?_
  cases hemitted with
  | mk hto _ _ =>
    obtain ⟨descriptor, hdescriptor, _⟩ := hto.reference
    exact returns_int hdescriptor hvoid

theorem value_emitted {depth : Nat} (harithmetic : ArithmeticEmitted frame depth)
    (hvalue : ValuesEmitted frame (value frame depth)) : ValuesEmitted frame (value frame (depth + 1)) := by
  intro t m m' code type hproper hopen h
  -- all forms but variables and calls are arithmetic or no expressions
  have hother (hident : ∀ x, t ≠ .ident x) (hcall : ∀ f arguments, t ≠ .call f arguments) :
      Gives m m' (fun link => Emitted.Value link frame.locals t code) frame.functions := by
    obtain ⟨_, hinner, _⟩ := (value_other_eq_ok hident hcall).1 h
    exact (harithmetic t m m' code hproper hopen hinner).map fun _ _ hemitted => .arithmetic hemitted
  cases t with
  | ident x =>
    obtain ⟨v, hfind, _, hload, rfl⟩ := value_ident_eq_ok.1 h
    exact .of_pure hopen fun _ => .ident hfind hload
  | call f arguments => exact valueCall_emitted hvalue hproper hopen h
  | _ => exact hother (by simp) (by simp)

/-- whatever its depth, lowering gives code of the tree -/
theorem expressions_emitted (frame : Frame) (depth : Nat) :
    ArithmeticEmitted frame depth ∧ ValuesEmitted frame (value frame depth) := by
  induction depth with
  | zero =>
    constructor
    · intro t m m' code _ _ h
      cases h
    · intro t m m' code type _ _ h
      cases h
  | succ depth ih => exact ⟨arithmetic_emitted ih.1 ih.2, value_emitted ih.1 ih.2⟩

end Lower

end StackLang
