/-
Compiled code passes the verifier.

The code of an expression passes on any stack and leaves one operand more there (`Emitted.Value.pushes`), provided the
slots of all variables are filled. Each statement keeps that: it fills the slot of the variable it declares, after its
value. What stays on the stack after a statement is the result of a call that nobody takes (`Tree.leavesResult`).

`code_verified`: every method of a compiled source passes, statement by statement, with the operands and locals that
its definition asks for.
-/
import StackLang.Proofs.Lowering.Compiled
import StackLang.Proofs.Lowering.Slots
import StackLang.Proofs.Target.Decoding
import StackLang.Proofs.Target.Verifier

namespace StackLang

open Verifier

/-- whether a statement is a call whose result stays on the stack -/
def Tree.leavesResult (functions : FunctionTable) : Tree → Bool
  | .call f _ => (functions.find? f).any fun s => s.returns = TypeWord.int
  | _ => false

/-! ## Choice of instructions -/

namespace Lower

variable {pool : Pool} {maxLocals slot : Nat} {filled : List Nat} {code : Code}

theorem push_pushes {n : Int} (h : push n = .ok code) : Pushes pool maxLocals filled code 1 := by
  unfold push at h
  split_ifs at h
  cases h
  exact Pushes.nil.then_instr rfl rfl rfl

theorem load_pushes (h : load slot = .ok code) (hfilled : slot ∈ filled) (hlt : slot < maxLocals) :
    Pushes pool maxLocals filled code 1 := by
  intro depth
  unfold load at h
  split_ifs at h with hshort hlong
  · cases h
    have hbyte : slot ≤ 255 := by omega
    simp [run, step, slotsFit, Instr.effect?, Instr.loaded?, Instr.stored?, hfilled, hlt, hbyte]
  · cases h
    have hbyte : slot ≤ 255 := by omega
    have hslot : (UInt8.ofNat slot).toNat = slot := Nat.mod_eq_of_lt hlong
    simp [run, step, slotsFit, Instr.effect?, Instr.loaded?, Instr.stored?, hslot, hfilled, hlt, hbyte]

/-- a store takes an operand and fills its slot -/
theorem run_store (h : store slot = .ok code) (hlt : slot < maxLocals) (depth : Nat) :
    run pool maxLocals ⟨depth + 1, filled⟩ code = some ⟨depth, slot :: filled⟩ := by
  unfold store at h
  split_ifs at h with hshort hlong
  · cases h
    have hbyte : slot ≤ 255 := by omega
    simp [run, step, slotsFit, Instr.effect?, Instr.loaded?, Instr.stored?, hlt, hbyte]
  · cases h
    have hbyte : slot ≤ 255 := by omega
    have hslot : (UInt8.ofNat slot).toNat = slot := Nat.mod_eq_of_lt hlong
    simp [run, step, slotsFit, Instr.effect?, Instr.loaded?, Instr.stored?, hslot, hlt, hbyte]

theorem copies_push {base : Code} (h : Pushes pool maxLocals filled base 1) (n : Nat) :
    Pushes pool maxLocals filled (base ++ (List.replicate n (base ++ [Instr.imul])).flatten) 1 := by
  induction n with
  | zero => simpa using h
  | succ n ih =>
    rw [List.replicate_succ', List.flatten_concat, ← List.append_assoc, ← List.append_assoc]
    exact (ih.append h).then_instr rfl rfl rfl

/-- however often the base of a power is repeated, one operand is left -/
theorem unroll_pushes {base : Code} (h : Pushes pool maxLocals filled base 1) {n : Int}
    (hunroll : unroll base n = .ok code) : Pushes pool maxLocals filled code 1 := by
  unfold unroll at hunroll
  split_ifs at hunroll
  · exact push_pushes hunroll
  · cases hunroll
    exact copies_push h _

theorem binaryInstr?_effect {op : BinaryOp} {i : Instr} (h : binaryInstr? op = some i) :
    i.effect? pool = some (2, 1) ∧ i.loaded? = none ∧ i.stored? = none := by
  cases op <;> cases h <;> exact ⟨rfl, rfl, rfl⟩

end Lower

/-- a call takes its arguments, and leaves a result if its function returns an integer -/
theorem Linkage.CallsTo.effect {link : Linkage} {f : Name} {s : Signature} {index : UInt16}
    (h : link.CallsTo f s index) :
    (Instr.invokevirtual index).effect? link.pool = some (s.arity, if s.returns = TypeWord.int then 1 else 0) := by
  obtain ⟨descriptor, hdescriptor, hreference⟩ := h.reference
  simp [Instr.effect?, hreference, descriptorShape?_descriptor hdescriptor]

/-! ## Expressions -/

/-- variables that code may read: each has a slot of its own, among the locals and filled -/
structure Locals.Ready (locals : Locals) (maxLocals : Nat) (filled : List Nat) : Prop where
  numbered : locals.Numbered
  fits : locals.count ≤ maxLocals
  filled : ∀ slot < locals.count, slot ∈ filled

namespace Emitted

variable {link : Linkage} {locals locals' : Locals} {maxLocals : Nat} {filled : List Nat}

theorem load_pushes (hready : locals.Ready maxLocals filled) {x : Name} {v : Variable} (hx : locals.find? x = some v)
    {code : Code} (hload : Lower.load v.slot = .ok code) : Pushes link.pool maxLocals filled code 1 := by
  have hlt := hready.numbered.slot_lt hx
  exact Lower.load_pushes hload (hready.filled v.slot hlt) (hlt.trans_le hready.fits)

mutual

/-- an expression leaves one operand -/
theorem Value.pushes (hready : locals.Ready maxLocals filled) {t : Tree} {code : Code} :
    Value link locals t code → Pushes link.pool maxLocals filled code 1
  | .ident hx hload => load_pushes hready hx hload
  | .call h hint => by simpa [hint] using h.pushes hready
  | .arithmetic h => h.pushes hready

theorem Arithmetic.pushes (hready : locals.Ready maxLocals filled) {t : Tree} {code : Code} :
    Arithmetic link locals t code → Pushes link.pool maxLocals filled code 1
  | .number hpush => Lower.push_pushes hpush
  | .name hx hload => load_pushes hready hx hload
  | .call h hint => by simpa [hint] using h.pushes hready
  | .positive h => h.pushes hready
  | .negated hpush => Lower.push_pushes hpush
  | .negative h => (h.pushes hready).then_instr rfl rfl rfl
  | .power _ _ h hunroll => Lower.unroll_pushes (h.pushes hready) hunroll
  | .binary hinstr hl hr => by
    obtain ⟨heffect, hload, hstore⟩ := Lower.binaryInstr?_effect hinstr
    exact ((hl.pushes hready).append (hr.pushes hready)).then_instr heffect hload hstore

theorem Call.pushes (hready : locals.Ready maxLocals filled) {f : Name} {arguments : List Tree} {s : Signature}
    {code : Code} : Call link locals f arguments s code →
      Pushes link.pool maxLocals filled code (if s.returns = TypeWord.int then 1 else 0)
  | .mk hto hlen h => (h.pushes hready).then_instr (hlen ▸ hto.effect) rfl rfl

/-- arguments leave one operand each -/
theorem Arguments.pushes (hready : locals.Ready maxLocals filled) {trees : List Tree} {code : Code} :
    Arguments link locals trees code → Pushes link.pool maxLocals filled code trees.length
  | .nil => .nil
  | .cons h h' => by
    rw [List.length_cons, Nat.add_comm]
    exact (h.pushes hready).append (h'.pushes hready)

end

/-! ## Statements -/

/-- a declaration takes one slot, and no other statement takes any -/
theorem Statement.count {t : Tree} {code : Code} (h : Statement link locals t code locals') :
    locals'.count = locals.count + if t.declared?.isSome then 1 else 0 := by
  cases h with
  | declare _ hdeclare _ => exact Locals.count_declare hdeclare
  | _ => rfl

/-- a value that goes into a slot -/
theorem run_store_of_pushes {code last : Code} {slot : Nat} (h : Pushes link.pool maxLocals filled code 1)
    (hstore : Lower.store slot = .ok last) (hlt : slot < maxLocals) (depth : Nat) :
    run link.pool maxLocals ⟨depth, filled⟩ (code ++ last) = some ⟨depth, slot :: filled⟩ := by
  rw [run_append_of (h depth)]
  exact Lower.run_store hstore hlt depth

theorem ready_cons (h : locals.Ready maxLocals filled) (slot : Nat) : locals.Ready maxLocals (slot :: filled) :=
  ⟨h.numbered, h.fits, fun other hother => List.mem_cons_of_mem _ (h.filled other hother)⟩

/-- a declared variable may be read when its slot is filled -/
theorem ready_declare (h : locals.Ready maxLocals filled) {x type : Name} {v : Variable}
    (hdeclare : locals.declare x type = .ok (v, locals')) (hfits : locals'.count ≤ maxLocals) :
    locals'.Ready maxLocals (v.slot :: filled) := by
  have hcount := Locals.count_declare hdeclare
  obtain ⟨_, rfl, _⟩ := Locals.declare_eq_ok hdeclare
  refine ⟨h.numbered.declare hdeclare, hfits, fun slot hslot => ?_⟩
  by_cases hnew : slot = locals.count
  · exact hnew ▸ List.mem_cons_self
  · exact List.mem_cons_of_mem _ (h.filled slot (by omega))

/-- a statement passes; only the result of a call stays on the stack, and all variables after it may be read -/
theorem Statement.passes {t : Tree} {code : Code} (h : Statement link locals t code locals')
    (hready : locals.Ready maxLocals filled) (hfits : locals'.count ≤ maxLocals) (depth : Nat) :
    ∃ filled', locals'.Ready maxLocals filled' ∧ run link.pool maxLocals ⟨depth, filled⟩ code =
      some ⟨depth + if t.leavesResult link.functions then 1 else 0, filled'⟩ := by
  cases h with
  | @declare _ x type t v code last hvalue hdeclare hstore =>
    have hslot : v.slot < maxLocals := by
      have hcount := Locals.count_declare hdeclare
      obtain ⟨_, rfl, _⟩ := Locals.declare_eq_ok hdeclare
      show locals.count < maxLocals
      omega
    exact ⟨_, ready_declare hready hdeclare hfits, run_store_of_pushes (hvalue.pushes hready) hstore hslot depth⟩
  | @assign x t v code last hx hvalue hstore =>
    have hslot := (hready.numbered.slot_lt hx).trans_le hready.fits
    exact ⟨_, ready_cons hready v.slot, run_store_of_pushes (hvalue.pushes hready) hstore hslot depth⟩
  | @addAssign x t v code old last hx hvalue hload hstore =>
    have hslot := (hready.numbered.slot_lt hx).trans_le hready.fits
    have hsum : Pushes link.pool maxLocals filled (code ++ old ++ [.iadd]) 1 :=
      ((hvalue.pushes hready).append (load_pushes hready hx hload)).then_instr rfl rfl rfl
    exact ⟨_, ready_cons hready v.slot, run_store_of_pushes hsum hstore hslot depth⟩
  | ret hvalue => exact ⟨filled, hready, ((hvalue.pushes hready).then_instr rfl rfl rfl) depth⟩
  | @call f arguments s code hcall =>
    refine ⟨filled, hready, (hcall.pushes hready depth).trans ?_⟩
    cases hcall with
    | mk hto _ _ => simp [Tree.leavesResult, hto.known]

theorem Statements.count {trees : List Tree} {pieces : List Code} (h : Statements link locals trees pieces locals') :
    locals'.count = locals.count + trees.countP (·.declared?.isSome) := by
  induction h with
  | nil => rfl
  | cons hfirst _ ih =>
    rw [ih, hfirst.count, List.countP_cons]
    omega

theorem Statements.length {trees : List Tree} {pieces : List Code} (h : Statements link locals trees pieces locals') :
    pieces.length = trees.length := by
  induction h with
  | nil => rfl
  | cons _ _ ih => rw [List.length_cons, List.length_cons, ih]

/-- the first statements of a body pass, however many they are -/
theorem Statements.passes {trees : List Tree} {pieces : List Code} (h : Statements link locals trees pieces locals')
    (hready : locals.Ready maxLocals filled) (hfits : locals'.count ≤ maxLocals) (depth k : Nat) :
    ∃ filled', run link.pool maxLocals ⟨depth, filled⟩ (pieces.take k).flatten =
      some ⟨depth + (trees.take k).countP (Tree.leavesResult link.functions), filled'⟩ := by
  induction h generalizing filled depth k with
  | nil => exact ⟨filled, by simp [run]⟩
  | @cons _ locals₂ _ t rest code pieces hfirst hrest ih =>
    cases k with
    | zero => exact ⟨filled, by simp [run]⟩
    | succ k =>
      have hcount := hrest.count
      obtain ⟨filled₁, hready₁, hrun⟩ := hfirst.passes hready (by omega) depth
      obtain ⟨filled', hrest⟩ := ih hready₁ hfits _ k
      refine ⟨filled', ?_⟩
      rw [List.take_succ_cons, List.take_succ_cons, List.flatten_cons, run_append_of hrun, hrest, List.countP_cons,
        Nat.add_assoc, Nat.add_comm (List.countP _ _)]

end Emitted

/-! ## Methods -/

/-- a method whose code, taken apart by the statements of a body, passes the verifier: the stack never runs short, and
after any number of statements it holds one operand for each call among them whose result nobody takes; every slot read
is a parameter's or was written before; the locals are the parameters and the declared variables, and all slots are
among them -/
structure MethodImage.Verified (method : MethodImage) (pool : Pool) (functions : FunctionTable)
    (parameters : List Parameter) (body : List Tree) (pieces : List Code) : Prop where
  decoded : Code.decode? method.code = some pieces.flatten
  length : pieces.length = body.length
  maxLocals : method.maxLocals = parameters.length + body.countP (·.declared?.isSome)
  passes : ∀ k ≤ body.length, ∃ filled,
    Verifier.run pool method.maxLocals (.start parameters.length) (pieces.take k).flatten =
      some ⟨(body.take k).countP (Tree.leavesResult functions), filled⟩

theorem Emitted.Assembled.verified {link : Linkage} {t : Tree} {pieces : List Code} {method : MethodImage}
    (h : Assembled link t pieces method) :
    ∃ name parameters returns body, t = .define name parameters returns body ∧
      method.Verified link.pool link.functions parameters body pieces := by
  cases h with
  | @mk name returns parameters body locals locals' _ descriptor hlocals hstatements _ =>
    obtain ⟨hnumbered, hparameters⟩ := Lower.parameterLocals_numbered hlocals
    have hcount := hstatements.count
    have hready : locals.Ready locals'.count (List.range parameters.length) := by
      refine ⟨hnumbered, by omega, fun slot hslot => ?_⟩
      rwa [List.mem_range, ← hparameters]
    refine ⟨name, parameters, returns, body, rfl, Code.decode?_encode _, hstatements.length, ?_, fun k _ => ?_⟩
    · rw [hcount, hparameters]
    · obtain ⟨filled, hrun⟩ := hstatements.passes hready le_rfl 0 k
      exact ⟨filled, by rw [State.start, hrun, Nat.zero_add]⟩

/-- **Compiled code is verified.** A source that compiles was read and lowered, and its module has one method for each
definition, whose code, statement by statement, passes the verifier. -/
theorem code_verified (options : Options) (source : String) (bytes : Bytes) (h : compile options source = .ok bytes) :
    ∃ tokens trees s parts target image, tokenize source = .ok tokens ∧
      Parse.statements nestingLimit [] tokens ⟨.ofTokens tokens, .initial, [], none⟩ = .ok trees s ∧
      Lower.programPieces s.functions nestingLimit trees (.empty options.className options.superName) =
        .ok parts target ∧
      Image.ofBytes bytes = .ok image ∧ image.methods.length = trees.length ∧
      ∀ (i : Nat) (method : MethodImage), image.methods[i]? = some method →
        ∃ name parameters returns body pieces, trees[i]? = some (.define name parameters returns body) ∧
          parts[i]? = some pieces ∧ method.Verified image.constants s.functions parameters body pieces := by
  obtain ⟨trees, parts, target, image, hcompiled, hassembly⟩ := assembled_of_ok h
  obtain ⟨tokens, s, htokens, hread, hfunctions⟩ := hcompiled.reading
  have hlength : image.methods.length = trees.length := hcompiled.methods.length_eq.symm
  refine ⟨tokens, trees, s, parts, target, image, htokens, hread, ?_, hcompiled.decoded, hlength, ?_⟩
  · rw [hfunctions]
    exact hassembly.lowered
  · intro i method hi
    obtain ⟨t, pieces, ht, hpieces, hassembled⟩ := hassembly.methods.get hi
    obtain ⟨name, parameters, returns, body, rfl, hverified⟩ := hassembled.verified
    rw [hfunctions]
    exact ⟨name, parameters, returns, body, pieces, ht, hpieces, hverified⟩

/-- a repeated base, nested calls, variables of both kinds, and calls whose results nobody takes -/
def droppedText : String :=
  "fun f(a int) int \x7blet b int=(a+1)**3;b+=a;return b;\x7d fun g() \x7bf(f(2));let c int=f(1);f(c);\x7d"

/-- both methods of `droppedText` pass; the second leaves the results of two calls on the stack -/
theorem droppedText_verified : ∃ bytes image, compile .default droppedText = .ok bytes ∧
    Image.ofBytes bytes = .ok image ∧ image.methods.map (·.maxLocals) = [2, 1] ∧
    ∀ (i : Nat) (method : MethodImage), image.methods[i]? = some method →
      ∃ functions parameters body pieces, method.Verified image.constants functions parameters body pieces := by
  have hlocals : ((compile .default droppedText).toOption.bind fun bytes =>
      (Image.ofBytes bytes).toOption.map fun image => image.methods.map (·.maxLocals)) = some [2, 1] := by
    decide +kernel
  obtain ⟨bytes, hbytes, hlocals⟩ := Option.bind_eq_some_iff.1 hlocals
  have hcompile := Step.eq_ok_of_toOption hbytes
  obtain ⟨_, _, s, _, _, image, _, _, _, hdecoded, _, hverified⟩ := code_verified .default droppedText bytes hcompile
  rw [hdecoded] at hlocals
  refine ⟨bytes, image, hcompile, hdecoded, Option.some.inj hlocals, ?_⟩
  intro i method hi
  obtain ⟨_, parameters, _, body, pieces, _, _, hmethod⟩ := hverified i method hi
  exact ⟨s.functions, parameters, body, pieces, hmethod⟩

end StackLang
