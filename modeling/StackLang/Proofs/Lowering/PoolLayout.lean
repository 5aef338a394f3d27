/-
The constant pool of a compiled module, entry by entry.

While a program is lowered only calls add to the pool, six entries each, in the order in which the calls end; and the
call with number `k` refers to entry `6 * k` (`Lower.Refers`). The code of a power's base is repeated or dropped, but
holds no calls. Writing adds the names. So the whole pool is known from the program (`pool_layout`).
-/
import StackLang.Proofs.Lowering.Calls
import StackLang.Proofs.Lowering.Compiled
import StackLang.Proofs.Target.Decoding
import StackLang.Proofs.Target.Interned

namespace StackLang

/-- the name and the descriptor under which a function is called -/
def FunctionTable.reference? (functions : FunctionTable) (f : Name) : Option (String × String) :=
  (functions.find? f).bind fun s => s.descriptor.toOption.map fun descriptor => (f.display, descriptor)

/-- the name and the descriptor of the method of a definition -/
def Tree.method? : Tree → Option (String × String)
  | .define f parameters returns _ =>
    (Signature.descriptor ⟨returns, parameters⟩).toOption.map fun descriptor => (f.display, descriptor)
  | _ => none

/-- the entries of a call of a function, by the number of the call, which counts from 1 -/
def callEntries (owner : String) : (String × String) × Nat → List Constant
  | ((name, descriptor), k) =>
    [.utf8 name, .utf8 descriptor, .nameAndType (6 * k - 5) (6 * k - 4), .utf8 owner, .classRef (6 * k - 2),
      .methodRef (6 * k - 1) (6 * k - 3)]

/-- the entries of a method: its name, its descriptor and the name of its only attribute -/
def methodEntries : String × String → List Constant
  | (name, descriptor) => [.utf8 name, .utf8 descriptor, .utf8 codeName]

/-- the pool of a module: first its calls, then its two names, then its methods -/
def poolEntries (name superName : String) (callees methods : List (String × String)) : List Constant :=
  (callees.zipIdx 1).flatMap (callEntries name) ++ [.utf8 name, .utf8 superName] ++ methods.flatMap methodEntries

theorem length_callEntries (owner : String) (calls : List ((String × String) × Nat)) :
    (calls.flatMap (callEntries owner)).length = 6 * calls.length := by
  induction calls with
  | nil => rfl
  | cons call calls ih =>
    rw [List.flatMap_cons, List.length_append, ih, List.length_cons]
    simp only [callEntries, List.length_cons, List.length_nil]
    omega

/-- behind six entries for each call before it, a reference has the entries of the next call -/
theorem Pool.referenceEntries_eq {n j : Nat} (h : n = 6 * j) (owner name descriptor : String) :
    referenceEntries n owner name descriptor = callEntries owner ((name, descriptor), j + 1) := by
  subst h
  simp only [referenceEntries, callEntries, List.cons.injEq, Constant.nameAndType.injEq, Constant.classRef.injEq,
    Constant.methodRef.injEq, true_and, and_true]
  omega

namespace Lower

variable {m m' m₁ : Module} {frame : Frame} {functions : FunctionTable} {calls calls' : List Name} {code code' : Code}

/-- a step adds to the pool the entries of its calls and nothing else, and its code calls these entries in order -/
structure Refers (functions : FunctionTable) (m m' : Module) (calls : List Name) (code : Code) : Prop where
  opened : m'.written = none
  name : m'.name = m.name
  adds : ∀ j, m.pool.size = 6 * j → ∃ callees, calls.mapM functions.reference? = some callees ∧
    m'.pool = m.pool.append ((callees.zipIdx (j + 1)).flatMap (callEntries m.name)) ∧
    code.callIndices.map UInt16.toNat = (callees.zipIdx (j + 1)).map (6 * ·.2)

namespace Refers

theorem nothing (hopen : m.written = none) (hcode : code.callIndices = []) : Refers functions m m [] code := by
  refine ⟨hopen, rfl, fun j _ => ⟨[], rfl, ?_, ?_⟩⟩
  · simp
  · rw [hcode]
    rfl

theorem append (h : Refers functions m m₁ calls code) (h' : Refers functions m₁ m' calls' code') :
    Refers functions m m' (calls ++ calls') (code ++ code') := by
  refine ⟨h'.opened, h'.name.trans h.name, fun j hj => ?_⟩
  obtain ⟨callees, hcallees, hpool, hindices⟩ := h.adds j hj
  have hj' : m₁.pool.size = 6 * (j + callees.length) := by
    rw [hpool, Pool.size_append, length_callEntries, List.length_zipIdx, hj]
    omega
  obtain ⟨callees', hcallees', hpool', hindices'⟩ := h'.adds _ hj'
  have hnumbers : j + callees.length + 1 = j + 1 + callees.length := by omega
  rw [hnumbers] at hpool' hindices'
  refine ⟨callees ++ callees', ?_, ?_, ?_⟩
  · rw [List.mapM_append, hcallees, hcallees']
    rfl
  · rw [hpool', hpool, h.name, Pool.append_append, List.zipIdx_append, List.flatMap_append]
  · rw [Code.callIndices_append, List.map_append, hindices, hindices', List.zipIdx_append, List.map_append]

/-- instructions that call nothing may follow -/
theorem append_none {last : Code} (h : Refers functions m m' calls code) (hlast : Code.callIndices last = []) :
    Refers functions m m' calls (code ++ last) := by
  have hboth := h.append (Refers.nothing h.opened hlast)
  rwa [List.append_nil] at hboth

/-- the code of a step without calls may be replaced by other code without calls -/
theorem of_nil (h : Refers functions m m' [] code) (hcode : code.callIndices = [] → code'.callIndices = []) :
    Refers functions m m' [] code' := by
  refine ⟨h.opened, h.name, fun j hj => ?_⟩
  obtain ⟨callees, hcallees, hpool, hindices⟩ := h.adds j hj
  cases hcallees
  refine ⟨[], rfl, hpool, ?_⟩
  rw [hcode (List.map_eq_nil_iff.1 hindices)]
  rfl

/-- a reference to a known function is a call by itself -/
theorem reference (hopen : m.written = none) {f : Name} {s : Signature} {descriptor : String} {index : Nat}
    (hfind : functions.find? f = some s) (hdescriptor : s.descriptor = .ok descriptor)
    (hadd : Module.addMethodRef f.display descriptor m = .ok index m') :
    Refers functions m m' [f] [.invokevirtual (UInt16.ofNat index)] := by
  obtain ⟨p, hpool, rfl⟩ := Module.addMethodRef_eq_ok hopen hadd
  obtain ⟨hroom, rfl, rfl⟩ := Pool.addMethodRef_eq_ok.1 hpool
  refine ⟨hopen, rfl, fun j hj => ⟨[(f.display, descriptor)], ?_, ?_, ?_⟩⟩
  · simp [FunctionTable.reference?, hfind, hdescriptor, Except.toOption]
  · rw [Pool.referenceEntries_eq hj]
    simp
  · have hlt : m.pool.size + 6 < 0x10000 := by
      unfold Pool.capacity at hroom
      omega
    have hindex : (UInt16.ofNat (m.pool.size + 6)).toNat = m.pool.size + 6 := Nat.mod_eq_of_lt hlt
    simp only [Code.callIndices, List.filterMap_cons, Instr.callIndex?, List.filterMap_nil, List.map_cons, List.map_nil,
      hindex, List.zipIdx_cons, List.zipIdx_nil]
    rw [hj, Nat.mul_add]

end Refers

/-! ## Expressions -/

/-- values lowered by `value` add the references that they call -/
def ValuesRefer (frame : Frame) (value : Tree → Lower (Code × Name)) : Prop :=
  ∀ (t : Tree) (m m' : Module) (code : Code) (type : Name), t.Proper → m.written = none →
    value t m = .ok (code, type) m' → Refers frame.functions m m' t.calls code

theorem argumentCodes_refer {value : Tree → Lower (Code × Name)} (hvalue : ValuesRefer frame value) {f : Name}
    {arguments : List Tree} {parameters : List Parameter} (hlen : arguments.length = parameters.length)
    (hproper : ∀ t ∈ arguments, t.Proper) (hopen : m.written = none)
    (h : argumentCodes value f (arguments.zip parameters) m = .ok code m') :
    Refers frame.functions m m' (Tree.callsOfAll arguments) code := by
  induction arguments generalizing parameters code m with
  | nil =>
    obtain ⟨rfl, rfl⟩ := Step.pure_eq_ok.1 h
    exact .nothing hopen rfl
  | cons t rest ih =>
    cases parameters with
    | nil => cases hlen
    | cons p parameters =>
      obtain ⟨first, type, m₁, more, hfirst, _, hrest, rfl⟩ := argumentCodes_cons_eq_ok.1 h
      obtain ⟨ht, hproper⟩ := List.forall_mem_cons.1 hproper
      have hrefers := hvalue t m m₁ first type ht hopen hfirst
      exact hrefers.append (ih (Nat.succ.inj hlen) hproper hrefers.opened hrest)

/-- a call refers to its function after its arguments -/
theorem call_refers {value : Tree → Lower (Code × Name)} (hvalue : ValuesRefer frame value) {f : Name}
    {arguments : List Tree} {s : Signature} (hproper : ∀ t ∈ arguments, t.Proper) (hopen : m.written = none)
    (h : call frame value f arguments m = .ok (code, s) m') :
    Refers frame.functions m m' (Tree.call f arguments).calls code := by
  obtain ⟨hfind, hlen, argumentCode, m₁, descriptor, index, harguments, hdescriptor, hadd, rfl⟩ := call_eq_ok.1 h
  have hrefers := argumentCodes_refer hvalue hlen hproper hopen harguments
  exact hrefers.append (.reference hrefers.opened hfind hdescriptor hadd)

/-- arithmetic of one depth adds the references that it calls -/
def ArithmeticRefers (frame : Frame) (depth : Nat) : Prop :=
  ∀ (t : Tree) (m m' : Module) (code : Code), t.Proper → m.written = none → arithmetic frame depth t m = .ok code m' →
    Refers frame.functions m m' t.calls code

/-- the base of a power adds nothing, and neither does the power -/
theorem power_refers {depth : Nat} (harithmetic : ArithmeticRefers frame depth) {base exponent : Tree}
    (hproper : base.Proper ∧ exponent.Proper) (hopen : m.written = none)
    (h : arithmetic frame (depth + 1) (.binary .pow base exponent) m = .ok code m') :
    Refers frame.functions m m' (Tree.binary .pow base exponent).calls code := by
  obtain ⟨n, inner, m₁, rfl, hsearch, hinner, hunroll⟩ := arithmetic_power_eq_ok.1 h
  obtain ⟨rfl, hfree⟩ := hasCall_eq_ok hsearch
  have hrefers := harithmetic base m m' inner hproper.1 hopen hinner
  have hemitted := (expressions_emitted frame depth).1 base m m' inner hproper.1 hopen hinner
  have hcalls := (hemitted.2 m'.pool (Pool.Grows.refl _)).calls_of_callFree (hfree rfl)
  rw [Tree.calls, Tree.calls, hcalls]
  rw [hcalls] at hrefers
  exact hrefers.of_nil (unroll_callIndices hunroll)

theorem arithmetic_refers {depth : Nat} (harithmetic : ArithmeticRefers frame depth)
    (hvalue : ValuesRefer frame (value frame depth)) : ArithmeticRefers frame (depth + 1) := by
  intro t m m' code hproper hopen h
  cases t with
  | number n =>
    obtain ⟨hpush, rfl⟩ := check_eq_ok.1 h
    exact .nothing hopen (push_callIndices hpush)
  | name x =>
    obtain ⟨v, _, _, hload, rfl⟩ := arithmetic_name_eq_ok.1 h
    exact .nothing hopen (load_callIndices hload)
  | callOperand t =>
    rw [arithmetic] at h
    obtain ⟨⟨f, arguments, rfl⟩, hproper⟩ := hproper
    obtain ⟨s, _, hcall⟩ := operandCall_eq_ok.1 h
    exact call_refers hvalue (Tree.properAll_iff.1 hproper.2) hopen hcall
  | positive t =>
    rw [arithmetic] at h
    exact harithmetic t m m' code hproper hopen h
  | negative t =>
    rcases arithmetic_negative_eq_ok.1 h with ⟨hliteral, rfl⟩ | ⟨_, inner, hinner, rfl⟩
    · obtain ⟨n, rfl, hpush⟩ := negatedLiteral?_eq_some hliteral
      exact .nothing hopen (push_callIndices hpush)
    · exact (harithmetic t m m' inner hproper hopen hinner).append_none rfl
  | binary op l r =>
    by_cases hop : op = .pow
    · subst hop
      exact power_refers harithmetic hproper hopen h
    · obtain ⟨i, left, right, m₁, hinstr, hleft, hright, rfl⟩ := (arithmetic_binary_eq_ok hop).1 h
      have hl := harithmetic l m m₁ left hproper.1 hopen hleft
      have hr := harithmetic r m₁ m' right hproper.2 hl.opened hright
      exact (hl.append hr).append_none (Code.callIndices_singleton (binaryInstr?_callIndex hinstr))
  | _ => cases h

theorem value_refers {depth : Nat} (harithmetic : ArithmeticRefers frame depth)
    (hvalue : ValuesRefer frame (value frame depth)) : ValuesRefer frame (value frame (depth + 1)) := by
  intro t m m' code type hproper hopen h
  have hother (hident : ∀ x, t ≠ .ident x) (hcall : ∀ f arguments, t ≠ .call f arguments) :
      Refers frame.functions m m' t.calls code := by
    obtain ⟨_, hinner, _⟩ := (value_other_eq_ok hident hcall).1 h
    exact harithmetic t m m' code hproper hopen hinner
  cases t with
  | ident x =>
    obtain ⟨v, _, _, hload, rfl⟩ := value_ident_eq_ok.1 h
    exact .nothing hopen (load_callIndices hload)
  | call f arguments =>
    obtain ⟨s, hcall, _⟩ := value_call_eq_ok.1 h
    exact call_refers hvalue (Tree.properAll_iff.1 hproper.2) hopen hcall
  | _ => exact hother (by simp) (by simp)

/-- whatever its depth, an expression adds the references that it calls -/
theorem expressions_refer (frame : Frame) (depth : Nat) :
    ArithmeticRefers frame depth ∧ ValuesRefer frame (value frame depth) := by
  induction depth with
  | zero =>
    constructor
    · intro t m m' code _ _ h
      cases h
    · intro t m m' code type _ _ h
      cases h
  | succ depth ih => exact ⟨arithmetic_refers ih.1 ih.2, value_refers ih.1 ih.2⟩

/-! ## Statements and definitions -/

theorem statement_refers {depth : Nat} {t : Tree} {locals : Locals} (hproper : t.Proper) (hopen : m.written = none)
    (h : statement frame depth t m = .ok (code, locals) m') : Refers frame.functions m m' t.calls code := by
  have hvalues := (expressions_refer frame depth).2
  cases t with
  | declare x type t =>
    obtain ⟨v, inner, last, _, hvalue, _, hstore, rfl⟩ := statement_declare_eq_ok.1 h
    exact (hvalues t m m' inner _ hproper hopen hvalue).append_none (store_callIndices hstore)
  | assign x t =>
    obtain ⟨v, inner, last, _, _, hvalue, hstore, rfl, _⟩ := statement_assign_eq_ok.1 h
    exact (hvalues t m m' inner _ hproper hopen hvalue).append_none (store_callIndices hstore)
  | addAssign x t =>
    obtain ⟨v, inner, old, last, _, _, hvalue, hload, hstore, rfl, _⟩ := statement_addAssign_eq_ok.1 h
    have hrefers := (hvalues t m m' inner _ hproper hopen hvalue).append_none (load_callIndices hload)
    exact (hrefers.append_none rfl).append_none (store_callIndices hstore)
  | ret t =>
    obtain ⟨inner, type, hvalue, rfl, _⟩ := statement_ret_eq_ok.1 h
    exact (hvalues t m m' inner type hproper hopen hvalue).append_none rfl
  | call f arguments =>
    obtain ⟨s, hcall, _⟩ := statement_call_eq_ok.1 h
    exact call_refers hvalues (Tree.properAll_iff.1 hproper.2) hopen hcall
  | _ => cases h

theorem body_refers {depth : Nat} {trees : List Tree} {locals locals' : Locals} {pieces : List Code}
    (hproper : ∀ t ∈ trees, t.Proper) (hopen : m.written = none)
    (h : bodyPieces functions depth locals trees m = .ok (pieces, locals') m') :
    Refers functions m m' (Tree.callsOfAll trees) pieces.flatten := by
  induction trees generalizing locals pieces m with
  | nil =>
    obtain ⟨heq, rfl⟩ := Step.pure_eq_ok.1 h
    obtain ⟨rfl, rfl⟩ := Prod.mk.inj heq
    exact .nothing hopen rfl
  | cons t rest ih =>
    obtain ⟨first, locals₁, m₁, more, hfirst, hrest, rfl⟩ := bodyPieces_cons_eq_ok.1 h
    obtain ⟨ht, hproper⟩ := List.forall_mem_cons.1 hproper
    have hrefers := statement_refers ht hopen hfirst
    exact hrefers.append (ih hproper hrefers.opened hrest)

/-- a method that is added leaves the pool alone -/
theorem definition_refers {depth : Nat} {name returns : Name} {parameters : List Parameter} {statements : List Tree}
    {pieces : List Code} (hproper : (Tree.define name parameters returns statements).Proper) (hopen : m.written = none)
    (h : definitionPieces functions depth name parameters returns statements m = .ok pieces m') :
    Refers functions m m' (Tree.callsOfAll statements) pieces.flatten := by
  obtain ⟨_, _, m₁, _, _, _, hbody, _, _, hadd⟩ := definitionPieces_eq_ok.1 h
  have hrefers := body_refers (Tree.properAll_iff.1 hproper.2) hopen hbody
  obtain ⟨_, _, rfl⟩ := Module.addMethod_eq_ok hrefers.opened hadd
  exact ⟨hrefers.opened, hrefers.name, hrefers.adds⟩

/-- a program adds the references of its calls, in the order in which they end -/
theorem program_refers {depth : Nat} {trees : List Tree} {parts : List (List Code)} (hproper : ∀ t ∈ trees, t.Proper)
    (hopen : m.written = none) (h : programPieces functions depth trees m = .ok parts m') :
    Refers functions m m' (Tree.callsOfAll trees) (parts.map List.flatten).flatten := by
  induction trees generalizing m parts with
  | nil =>
    obtain ⟨rfl, rfl⟩ := Step.pure_eq_ok.1 h
    exact .nothing hopen rfl
  | cons t rest ih =>
    obtain ⟨ht, hrest⟩ := List.forall_mem_cons.1 hproper
    obtain ⟨name, parameters, returns, statements, pieces, m₁, more, rfl, hfirst, hmore, rfl⟩ :=
      programPieces_cons_eq_ok.1 h
    have hrefers := definition_refers ht hopen hfirst
    exact hrefers.append (ih hrest hrefers.opened hmore)

end Lower

/-! ## Modules -/

namespace Emitted

variable {link : Linkage} {trees : List Tree} {parts : List (List Code)} {methods : List MethodImage}

/-- the methods are those of the definitions, in order -/
theorem Program.mapM_method? (h : Program link trees parts methods) :
    trees.mapM Tree.method? = some (methods.map fun m => (m.name, m.descriptor)) := by
  induction h with
  | nil => rfl
  | cons hfirst _ ih =>
    cases hfirst with
    | mk _ _ hdescriptor =>
      rw [List.mapM_cons, ih, Tree.method?, hdescriptor]
      rfl

theorem Program.mapM_decode? (h : Program link trees parts methods) :
    methods.mapM (fun m => Code.decode? m.code) = some (parts.map List.flatten) := by
  induction h with
  | nil => rfl
  | cons hfirst _ ih =>
    cases hfirst with
    | mk _ _ _ =>
      rw [List.mapM_cons, ih, Code.decode?_encode]
      rfl

end Emitted

theorem entries_of_depicts {images : List MethodImage} {methods : List Method}
    (h : List.Forall₂ Image.Depicts images methods) :
    methods.flatMap Method.entries = (images.map fun m => (m.name, m.descriptor)).flatMap methodEntries := by
  induction h with
  | nil => rfl
  | cons hfirst _ ih =>
    obtain ⟨a, ha, hattributes⟩ := hfirst.code
    obtain ⟨_, _, _, rfl⟩ := Image.code_eq_ok ha
    rw [List.flatMap_cons, List.map_cons, List.flatMap_cons, ih, Method.entries, hattributes, ← hfirst.name,
      ← hfirst.descriptor]
    rfl

/-- the pool of a compiled source, and what its calls refer to -/
theorem Assembly.pool {options : Options} {source : String} {bytes : Bytes} {trees : List Tree}
    {parts : List (List Code)} {target : Module} {image : Image}
    (hassembly : Assembly options bytes trees parts target image)
    (hcompiled : Compiled options source bytes trees image) :
    ∃ callees, (Tree.callsOfAll trees).mapM (FunctionTable.initial.afterAll trees).reference? = some callees ∧
      image.constants = Pool.empty.append (poolEntries options.className options.superName callees
        (image.methods.map fun m => (m.name, m.descriptor))) ∧
      (Code.callIndices (parts.map List.flatten).flatten).map UInt16.toNat =
        (List.range' 1 callees.length).map (6 * ·) := by
  have hrefers := Lower.program_refers hcompiled.proper rfl hassembly.lowered
  obtain ⟨callees, hcallees, hpool, hindices⟩ := hrefers.adds 0 rfl
  refine ⟨callees, hcallees, ?_, ?_⟩
  · rw [Module.encode_adds hassembly.written, Module.entries, hpool, entries_of_depicts hassembly.depicts, hassembly.name,
      hassembly.superName, Pool.append_append]
    simp [Module.empty, poolEntries]
  · rw [hindices, ← List.zipIdx_map_snd 1 callees, List.map_map]
    rfl

/-- **The pool of a compiled module.** Of a source that compiles, the pool holds six entries for each call of the
program, in the order in which the calls end, then the two names of the module, then three entries for each
definition, in order. The methods are the definitions in order, their code decodes, and the calls in it, taken in
order, refer to the entries 6, 12, 18 and so on, one for each call of the program. -/
theorem pool_layout (options : Options) (source : String) (bytes : Bytes) (h : compile options source = .ok bytes) :
    ∃ tokens trees s image callees codes, tokenize source = .ok tokens ∧
      Parse.statements nestingLimit [] tokens ⟨.ofTokens tokens, .initial, [], none⟩ = .ok trees s ∧
      Image.ofBytes bytes = .ok image ∧
      (Tree.callsOfAll trees).mapM s.functions.reference? = some callees ∧
      trees.mapM Tree.method? = some (image.methods.map fun m => (m.name, m.descriptor)) ∧
      image.constants.entries.toList = poolEntries options.className options.superName callees
        (image.methods.map fun m => (m.name, m.descriptor)) ∧
      image.methods.mapM (fun m => Code.decode? m.code) = some codes ∧
      (Code.callIndices codes.flatten).map UInt16.toNat = (List.range' 1 callees.length).map (6 * ·) := by
  obtain ⟨trees, parts, target, image, hcompiled, hassembly⟩ := assembled_of_ok h
  obtain ⟨tokens, s, htokens, hread, hfunctions⟩ := hcompiled.reading
  obtain ⟨callees, hcallees, hpool, hindices⟩ := hassembly.pool hcompiled
  refine ⟨tokens, trees, s, image, callees, parts.map List.flatten, htokens, hread, hcompiled.decoded, ?_,
    hassembly.methods.mapM_method?, ?_, hassembly.methods.mapM_decode?, hindices⟩
  · rw [hfunctions]
    exact hcallees
  · rw [hpool]
    simp [Pool.append, Pool.empty]

/-- nested calls, and a power that drops its base -/
def nestedText : String :=
  "fun f(a int) int \x7breturn a**0;\x7d fun g() \x7bprintln(f(f(3)));\x7d"

/-- the pool of `nestedText` holds its calls, its names and its two methods -/
theorem nestedText_pool : ∃ bytes image callees codes, compile .default nestedText = .ok bytes ∧
    Image.ofBytes bytes = .ok image ∧
    image.constants.entries.toList = poolEntries "Main" "base/Object" callees [("f", "(I)I"), ("g", "()V")] ∧
    image.methods.mapM (fun m => Code.decode? m.code) = some codes ∧
    (Code.callIndices codes.flatten).map UInt16.toNat = (List.range' 1 callees.length).map (6 * ·) := by
  have hmethods : ((compile .default nestedText).toOption.bind fun bytes =>
      (Image.ofBytes bytes).toOption.map fun image => image.methods.map fun m => (m.name, m.descriptor)) =
        some [("f", "(I)I"), ("g", "()V")] := by decide +kernel
  obtain ⟨bytes, hbytes, hmethods⟩ := Option.bind_eq_some_iff.1 hmethods
  have hcompile := Step.eq_ok_of_toOption hbytes
  obtain ⟨_, _, _, image, callees, codes, _, _, hdecoded, _, _, hpool, hcodes, hindices⟩ :=
    pool_layout .default nestedText bytes hcompile
  rw [hdecoded] at hmethods
  have hnames : (image.methods.map fun m => (m.name, m.descriptor)) = [("f", "(I)I"), ("g", "()V")] :=
    Option.some.inj hmethods
  rw [hnames] at hpool
  exact ⟨bytes, image, callees, codes, hcompile, hdecoded, hpool, hcodes, hindices⟩

end StackLang
