/-
Expressions decide by their limits.

An expression with the forms of the grammar, which calls only functions of a typed table, is lowered exactly if its
parts keep their rules and the module has room for its calls; its code then has the size counted from the tree. The
induction is on the levels that lowering may still nest (`Lower.DecidesAt`), with one lemma for each form.
-/
import StackLang.Proofs.Lowering.Decides

namespace StackLang

open Step (Ensures)

/-! ## Expressions -/

/-- the names and numbers of trees that were read; those of a source text are not negative -/
def Atoms.read (lexed : Prop) : Atoms :=
  ⟨fun _ => True, fun n => lexed → 0 ≤ n⟩

/-- all parts keep their rules, and the module has room for the calls -/
structure Tree.Fits (functions : FunctionTable) (scope : List Name) (m : Module) (t : Tree) : Prop where
  allowed : t.AllAllowed functions scope
  room : m.HasRoom t.calls.length

/-- the same of arguments, which are values -/
structure Tree.FitAll (functions : FunctionTable) (scope : List Name) (m : Module) (arguments : List Tree) : Prop where
  allowed : ∀ u ∈ partsOfAll arguments, u.Allowed functions scope
  values : ∀ a ∈ arguments, a.GivesValue functions
  room : m.HasRoom (callsOfAll arguments).length

namespace Lower

variable {lexed : Prop} {functions : FunctionTable} {scope : List Name} {depth : Nat} {m : Module} {t : Tree}

/-- the code has the size counted from the tree, and the calls of the tree came to the pool -/
structure Lowers (scope : List Name) (m : Module) (t : Tree) (code : Code) (m' : Module) : Prop where
  size : code.size = t.codeSize scope
  gains : m.Gains t.calls.length m'

/-- expressions lowered with this many levels decide by their rules -/
structure DecidesAt (lexed : Prop) (functions : FunctionTable) (scope : List Name) (depth : Nat) : Prop where
  value : ∀ t m, t.IsValue (.read lexed) → CallsKnown functions t →
    Decides lexed (value ⟨functions, .ofScope scope⟩ depth t) m
      (t.Fits functions scope m ∧ t.GivesValue functions)
      (fun r m' => Lowers scope m t r.1 m' ∧ r.2 = TypeWord.int)
  arithmetic : ∀ t m, t.IsOperand (.read lexed) → CallsKnown functions t →
    Decides lexed (arithmetic ⟨functions, .ofScope scope⟩ depth t) m (t.Fits functions scope m) (Lowers scope m t)

theorem decides_get (x : Name) :
    Decides lexed (check ((Locals.ofScope scope).get x)) m (x ∈ scope)
      (fun v m' => v = ⟨scope.idxOf x, TypeWord.int⟩ ∧ m' = m) := by
  refine decides_check ?_ ?_
  · intro v hv
    rw [get_eq_ok, Locals.find?_ofScope] at hv
    split_ifs at hv with hx
    · cases hv
      exact ⟨hx, rfl, rfl⟩
  · intro violation hviolation
    unfold Locals.get at hviolation
    rw [Locals.find?_ofScope] at hviolation
    split_ifs at hviolation with hx
    · cases hviolation
      exact ⟨rfl, fun _ => hx⟩

/-! ### Calls -/

/-- a reference takes six entries of an open module -/
theorem decides_addMethodRef (name descriptor : String) :
    Decides lexed (onModule (Module.addMethodRef name descriptor)) m (m.HasRoom 1) (fun _ m' => m.Gains 1 m') := by
  refine Ensures.intro ?_ ?_
  · intro n m' hadd
    have hadd := Step.mapFault_eq_ok.1 hadd
    cases hwritten : m.written with
    | some bytes =>
      rw [Module.addMethodRef, Step.bind_of_error (Module.checkOpen_of_written hwritten)] at hadd
      cases hadd
    | none =>
      obtain ⟨q, hpool, rfl⟩ := Module.addMethodRef_eq_ok hwritten hadd
      obtain ⟨hroom, _, rfl⟩ := Pool.addMethodRef_eq_ok.1 hpool
      exact ⟨.inr ⟨hwritten, by omega⟩, rfl, by simp [Pool.referenceEntries]⟩
  · intro fault m' hadd
    refine ⟨?_, ?_⟩
    · unfold onModule Step.mapFault at hadd
      split at hadd
      · cases hadd
      · cases hadd
        rfl
    · rintro _ (hzero | ⟨hopen, hroom⟩)
      · cases hzero
      · exfalso
        have hpool : Pool.addMethodRef m.name name descriptor m.pool = .ok (m.pool.size + 6) _ :=
          Pool.addMethodRef_eq_ok.2 ⟨by omega, rfl, rfl⟩
        rw [onModule, Step.mapFault, Module.addMethodRef, Step.bind_of_ok (Module.checkOpen_of_open hopen),
          Step.bind_of_ok (Step.get_apply m), Module.onPool, hpool] at hadd
        cases hadd

theorem compatible_int : TypeWord.compatible TypeWord.int TypeWord.int = true := by
  decide

/-- arguments behind the first fit in the module that the first one leaves -/
theorem fitAll_cons {a : Tree} {rest : List Tree} {m' : Module} (h : m.Gains a.calls.length m')
    (hroom : m.HasRoom a.calls.length) :
    Tree.FitAll functions scope m (a :: rest) ↔
      (a.AllAllowed functions scope ∧ a.GivesValue functions) ∧ Tree.FitAll functions scope m' rest := by
  constructor
  · rintro ⟨hallowed, hvalues, hboth⟩
    simp only [Tree.partsOfAll, List.forall_mem_append, Tree.callsOfAll, List.length_append] at hallowed hboth
    obtain ⟨hvalue, hvalues⟩ := List.forall_mem_cons.1 hvalues
    exact ⟨⟨hallowed.1, hvalue⟩, hallowed.2, hvalues, (h.hasRoom_iff hroom).2 hboth⟩
  · rintro ⟨⟨hfirst, hvalue⟩, hallowed, hvalues, hrest⟩
    refine ⟨?_, List.forall_mem_cons.2 ⟨hvalue, hvalues⟩, ?_⟩
    · exact List.forall_mem_append.2 ⟨hfirst, hallowed⟩
    · rw [Tree.callsOfAll, List.length_append]
      exact (h.hasRoom_iff hroom).1 hrest

theorem fits_of_fitAll {a : Tree} {rest : List Tree} (h : Tree.FitAll functions scope m (a :: rest)) :
    a.Fits functions scope m ∧ a.GivesValue functions := by
  obtain ⟨hallowed, hvalues, hroom⟩ := h
  simp only [Tree.partsOfAll, List.forall_mem_append, Tree.callsOfAll, List.length_append] at hallowed hroom
  exact ⟨⟨hallowed.1, hroom.mono (Nat.le_add_right _ _)⟩, (List.forall_mem_cons.1 hvalues).1⟩

/-- arguments decide one after the other -/
theorem decides_argumentCodes (ih : DecidesAt lexed functions scope depth) (f : Name) {arguments : List Tree}
    {parameters : List Parameter} (harity : arguments.length = parameters.length)
    (htypes : ∀ p ∈ parameters, p.type = TypeWord.int) (hforms : ∀ a ∈ arguments, a.IsValue (.read lexed))
    (hcalls : ∀ a ∈ arguments, CallsKnown functions a) (m : Module) :
    Decides lexed (argumentCodes (value ⟨functions, .ofScope scope⟩ depth) f (arguments.zip parameters)) m
      (Tree.FitAll functions scope m arguments)
      (fun code m' => code.size = Tree.codeSizeOfAll scope arguments ∧ m.Gains (Tree.callsOfAll arguments).length m') := by
  induction arguments generalizing parameters m with
  | nil => exact decides_pure ⟨by simp [Tree.partsOfAll], by simp, m.hasRoom_zero⟩ ⟨rfl, .refl m⟩
  | cons a rest ihrest =>
    cases parameters with
    | nil => cases harity
    | cons p parameters =>
      obtain ⟨hp, htypes⟩ := List.forall_mem_cons.1 htypes
      obtain ⟨hform, hforms⟩ := List.forall_mem_cons.1 hforms
      obtain ⟨hknown, hcalls⟩ := List.forall_mem_cons.1 hcalls
      rw [List.zip_cons_cons, argumentCodes]
      refine (ih.value a m hform hknown).bind fits_of_fitAll ?_
      rintro ⟨code, type⟩ m' ⟨hfits, hvalue⟩ ⟨⟨hsize, hgains⟩, rfl⟩
      dsimp only at hsize ⊢
      rw [hp, if_pos compatible_int]
      have hrest := ihrest (Nat.succ.inj harity) htypes hforms hcalls m'
      have hiff : Tree.FitAll functions scope m' rest ↔ Tree.FitAll functions scope m (a :: rest) := by
        rw [fitAll_cons hgains hfits.room]
        exact (and_iff_right ⟨hfits.allowed, hvalue⟩).symm
      refine (hrest.congr hiff).map fun more m'' _ hmore => ⟨?_, ?_⟩
      · rw [size_append, hsize, hmore.1]
        rfl
      · rw [Tree.callsOfAll, List.length_append]
        exact hgains.trans hmore.2

theorem fits_call {f : Name} {arguments : List Tree} {s : Signature} (hfind : functions.find? f = some s) :
    (Tree.call f arguments).Fits functions scope m ↔ arguments.length = s.arity ∧
      Tree.FitAll functions scope m arguments ∧ m.HasRoom ((Tree.callsOfAll arguments).length + 1) := by
  have harity : (functions.find? f).map (·.arity) = some arguments.length ↔ arguments.length = s.arity := by
    rw [hfind]
    exact ⟨fun h => (Option.some.inj h).symm, fun h => congrArg some h.symm⟩
  constructor
  · rintro ⟨hallowed, hroom⟩
    obtain ⟨hcall, hparts⟩ := Tree.allAllowed_call.1 hallowed
    rw [Tree.calls, List.length_append] at hroom
    exact ⟨harity.1 hcall.1, ⟨hparts, hcall.2, hroom.mono (Nat.le_add_right _ _)⟩, hroom⟩
  · rintro ⟨hlength, ⟨hparts, hvalues, _⟩, hroom⟩
    refine ⟨Tree.allAllowed_call.2 ⟨⟨harity.2 hlength, hvalues⟩, hparts⟩, ?_⟩
    rw [Tree.calls, List.length_append]
    exact hroom

/-- a call of a known function decides by the number of its arguments, by them, and by the room for one more call -/
theorem decides_call (ih : DecidesAt lexed functions scope depth) (htyped : functions.Typed) {f : Name}
    {arguments : List Tree} (hform : (Tree.call f arguments).IsCall (.read lexed))
    (hcalls : CallsKnown functions (.call f arguments)) (m : Module) :
    Decides lexed (call ⟨functions, .ofScope scope⟩ (value ⟨functions, .ofScope scope⟩ depth) f arguments) m
      ((Tree.call f arguments).Fits functions scope m)
      (fun r m' => Lowers scope m (.call f arguments) r.1 m' ∧ functions.find? f = some r.2) := by
  obtain ⟨_, hforms⟩ := Tree.isCall_iff.1 hform
  obtain ⟨hknown, hcalls⟩ := CallsKnown.call_iff.1 hcalls
  obtain ⟨s, hlookup⟩ := FunctionTable.lookup_of_mem hknown
  have hfind := (FunctionTable.mem_of_lookup hlookup).1
  have hs := htyped f s hfind
  rw [call]
  refine Decides.after (check_eq_ok.2 ⟨hlookup, rfl⟩) ?_
  have hparts : (Tree.call f arguments).Fits functions scope m ↔ arguments.length = s.arity ∧
      Tree.FitAll functions scope m arguments ∧ m.HasRoom ((Tree.callsOfAll arguments).length + 1) := fits_call hfind
  refine decides_guard rfl (fun hne hfits => hne (hparts.1 hfits).1) fun harity => ?_
  have harity : arguments.length = s.arity := not_not.1 harity
  refine (decides_argumentCodes ih f harity hs.parameters hforms hcalls m).bind (fun h => (hparts.1 h).2.1) ?_
  intro code m' hfits hcode
  obtain ⟨descriptor, hdescriptor⟩ := hs.descriptor
  refine Decides.after (check_eq_ok.2 ⟨hdescriptor, rfl⟩) ?_
  have hroom : m'.HasRoom 1 ↔ (Tree.call f arguments).Fits functions scope m := by
    rw [hparts, hcode.2.hasRoom_iff hfits.room]
    exact ⟨fun h => ⟨harity, hfits, h⟩, fun h => h.2.2⟩
  refine ((decides_addMethodRef f.display descriptor).congr hroom).map fun index m'' _ hgains => ⟨⟨?_, ?_⟩, hfind⟩
  · rw [size_append, hcode.1]
    rfl
  · rw [Tree.calls, List.length_append]
    exact hcode.2.trans hgains

/-! ### Arithmetic -/

/-- the search for calls finds what there is -/
theorem hasCall_cases (depth : Nat) (t : Tree) (m : Module) :
    hasCall depth t m = .ok (!t.callFree) m ∨ hasCall depth t m = .error .tooDeep m := by
  induction depth generalizing t with
  | zero => exact .inr rfl
  | succ depth ih =>
    cases t with
    | positive t | negative t => exact ih t
    | binary op l r =>
      rw [hasCall]
      rcases ih l with hl | hl
      · rw [Step.bind_of_ok hl]
        cases hfree : l.callFree with
        | false => exact .inl (by simp [Tree.callFree, hfree])
        | true =>
          rw [Tree.callFree, hfree, Bool.true_and]
          exact ih r
      · exact .inr (Step.bind_of_error hl _)
    | _ => exact .inl rfl

variable {x : Name}

/-- a tree without calls always has the room it needs -/
theorem fits_iff_of_no_calls (h : t.calls = []) : t.Fits functions scope m ↔ t.AllAllowed functions scope :=
  ⟨fun hfits => hfits.allowed, fun hallowed => ⟨hallowed, by rw [h]; exact m.hasRoom_zero⟩⟩

theorem decides_number {n : Int} (hn : lexed → 0 ≤ n) :
    Decides lexed (check (push n)) m ((Tree.number n).Fits functions scope m) (Lowers scope m (.number n)) := by
  rw [fits_iff_of_no_calls rfl, Tree.allAllowed_number]
  refine (decides_push hn).imp ?_
  rintro code m' _ ⟨hsize, rfl⟩
  exact ⟨hsize, .refl _⟩

theorem decides_name : Decides lexed (arithmetic ⟨functions, .ofScope scope⟩ (depth + 1) (.name x)) m
    ((Tree.name x).Fits functions scope m) (Lowers scope m (.name x)) := by
  rw [fits_iff_of_no_calls rfl, Tree.allAllowed_name, arithmetic]
  refine (decides_get x).bind And.left ?_
  rintro v _ hx ⟨rfl, rfl⟩
  rw [if_pos rfl]
  refine ((decides_load _).congr (and_iff_right hx).symm).imp ?_
  rintro code m' _ ⟨hsize, rfl⟩
  exact ⟨hsize, .refl _⟩

theorem decides_callOperand (ih : DecidesAt lexed functions scope depth) (htyped : functions.Typed)
    (hform : t.IsCall (.read lexed)) (hcalls : CallsKnown functions (.callOperand t)) (m : Module) :
    Decides lexed (operandCall ⟨functions, .ofScope scope⟩ (value ⟨functions, .ofScope scope⟩ depth) t) m
      ((Tree.callOperand t).Fits functions scope m) (Lowers scope m (.callOperand t)) := by
  cases t with
  | call f arguments =>
    obtain ⟨⟨s, hfind, hint⟩, hknown⟩ := CallsKnown.callOperand_iff.1 hcalls
    have hiff : (Tree.call f arguments).Fits functions scope m ↔
        (Tree.callOperand (.call f arguments)).Fits functions scope m :=
      ⟨fun h => ⟨Tree.allAllowed_callOperand.2 h.allowed, h.room⟩,
        fun h => ⟨Tree.allAllowed_callOperand.1 h.allowed, h.room⟩⟩
    rw [operandCall_call]
    refine Decides.after (check_eq_ok.2 ⟨lookup_eq_ok.2 hfind, rfl⟩) ?_
    rw [if_pos hint]
    exact ((decides_call ih htyped hform hknown m).congr hiff).map fun r m' _ hr => ⟨hr.1.size, hr.1.gains⟩
  | _ => cases hform

theorem isNegatable_eq (t : Tree) : t.isNegatable = (negatedLiteral? t).isSome := by
  cases t with
  | number n =>
    by_cases hn : -1 ≤ -n ∧ -n ≤ 5
    · have hpush : push (-n) = .ok _ := dif_pos hn
      rw [negatedLiteral?, hpush]
      exact decide_eq_true (by omega)
    · have hpush : push (-n) = .error _ := dif_neg hn
      rw [negatedLiteral?, hpush]
      exact decide_eq_false (by omega)
  | _ => rfl

theorem decides_negative (ih : DecidesAt lexed functions scope depth) (hform : t.IsOperand (.read lexed))
    (hcalls : CallsKnown functions t) (m : Module) :
    Decides lexed (arithmetic ⟨functions, .ofScope scope⟩ (depth + 1) (.negative t)) m
      ((Tree.negative t).Fits functions scope m) (Lowers scope m (.negative t)) := by
  have hiff : t.Fits functions scope m ↔ (Tree.negative t).Fits functions scope m :=
    ⟨fun h => ⟨Tree.allAllowed_negative.2 h.allowed, h.room⟩, fun h => ⟨Tree.allAllowed_negative.1 h.allowed, h.room⟩⟩
  have hnegatable := isNegatable_eq t
  rw [arithmetic]
  cases hliteral : negatedLiteral? t with
  | some code =>
    obtain ⟨n, rfl, hpush⟩ := negatedLiteral?_eq_some hliteral
    unfold push at hpush
    split at hpush
    · rename_i hrange
      cases hpush
      refine decides_pure (hiff.1 ?_) ⟨?_, .refl m⟩
      · rw [fits_iff_of_no_calls rfl, Tree.allAllowed_number]
        omega
      · rw [Tree.codeSize, hnegatable, hliteral]
        rfl
    · cases hpush
  | none =>
    refine ((ih.arithmetic t m hform hcalls).congr hiff).map fun code m' _ hcode => ⟨?_, hcode.gains⟩
    rw [size_append, hcode.size, Tree.codeSize, hnegatable, hliteral]
    rfl

theorem decides_power (ih : DecidesAt lexed functions scope depth) {base : Tree} {n : Int}
    (hform : base.IsOperand (.read lexed)) (hcalls : CallsKnown functions base) (m : Module) :
    Decides lexed (arithmetic ⟨functions, .ofScope scope⟩ (depth + 1) (.binary .pow base (.number n))) m
      ((Tree.binary .pow base (.number n)).Fits functions scope m) (Lowers scope m (.binary .pow base (.number n))) := by
  have hlength : (Tree.binary .pow base (.number n)).calls.length = base.calls.length := by simp [Tree.calls]
  rw [arithmetic]
  rcases hasCall_cases depth base m with hfound | hdeep
  · refine Decides.after hfound ?_
    cases hfree : base.callFree with
    | false =>
      refine decides_violate rfl fun _ hfits => ?_
      have hbase := (Tree.allAllowed_power.1 hfits.allowed).1.1
      rw [hfree] at hbase
      cases hbase
    | true =>
      have hbase : (Tree.binary .pow base (.number n)).Fits functions scope m → base.Fits functions scope m :=
        fun h => ⟨(Tree.allAllowed_power.1 h.allowed).2, hlength ▸ h.room⟩
      refine (ih.arithmetic base m hform hcalls).bind hbase fun code m' hfits hcode => ?_
      have hiff : (1 ≤ n → n * code.size ≤ 65535) ↔ (Tree.binary .pow base (.number n)).Fits functions scope m := by
        rw [hcode.size]
        exact ⟨fun h => ⟨Tree.allAllowed_power.2 ⟨⟨hfree, h⟩, hfits.allowed⟩, hlength.symm ▸ hfits.room⟩,
          fun h => (Tree.allAllowed_power.1 h.allowed).1.2⟩
      refine ((decides_unroll code n).congr hiff).imp ?_
      rintro unrolled m'' _ ⟨hsize, rfl⟩
      refine ⟨?_, hlength.symm ▸ hcode.gains⟩
      rw [hsize, hcode.size]
      rfl
  · unfold Decides Ensures
    rw [Step.bind_of_error hdeep]
    exact ⟨rfl, fun _ _ => rfl⟩

theorem decides_binary (ih : DecidesAt lexed functions scope depth) {op : BinaryOp} {instr : Instr} {l r : Tree}
    (hop : binaryInstr? op = some instr) (hl : l.IsOperand (.read lexed)) (hr : r.IsOperand (.read lexed))
    (hcalls : CallsKnown functions (.binary op l r)) (m : Module) :
    Decides lexed (do
        let left ← arithmetic ⟨functions, .ofScope scope⟩ depth l
        let right ← arithmetic ⟨functions, .ofScope scope⟩ depth r
        return left ++ right ++ [instr]) m
      ((Tree.binary op l r).Fits functions scope m) (Lowers scope m (.binary op l r)) := by
  obtain ⟨hlcalls, hrcalls⟩ := CallsKnown.binary_iff.1 hcalls
  have hpow : op ≠ .pow := by
    rintro rfl
    cases hop
  have hlength : (Tree.binary op l r).calls.length = l.calls.length + r.calls.length := by simp [Tree.calls]
  have hfirst : (Tree.binary op l r).Fits functions scope m → l.Fits functions scope m := fun h =>
    ⟨((Tree.allAllowed_binary hpow).1 h.allowed).1, h.room.mono (by omega)⟩
  refine (ih.arithmetic l m hl hlcalls).bind hfirst fun left m' hlfits hleft => ?_
  have hiff : r.Fits functions scope m' ↔ (Tree.binary op l r).Fits functions scope m := by
    constructor
    · rintro ⟨hallowed, hroom⟩
      refine ⟨(Tree.allAllowed_binary hpow).2 ⟨hlfits.allowed, hallowed⟩, ?_⟩
      rw [hlength]
      exact (hleft.gains.hasRoom_iff hlfits.room).1 hroom
    · rintro ⟨hallowed, hroom⟩
      rw [hlength] at hroom
      exact ⟨((Tree.allAllowed_binary hpow).1 hallowed).2, (hleft.gains.hasRoom_iff hlfits.room).2 hroom⟩
  refine ((ih.arithmetic r m' hr hrcalls).congr hiff).map fun right m'' _ hright => ⟨?_, ?_⟩
  · have hinstr : Code.size [instr] = 1 := by
      cases op <;> cases hop <;> rfl
    rw [size_append, size_append, hleft.size, hright.size, hinstr]
    cases op with
    | pow => cases hpow rfl
    | _ => rfl
  · rw [hlength]
    exact hleft.gains.trans hright.gains

/-- arithmetic one level up decides by the rules of its form -/
theorem decides_arithmetic (ih : DecidesAt lexed functions scope depth) (htyped : functions.Typed)
    (hform : t.IsOperand (.read lexed)) (hcalls : CallsKnown functions t) (m : Module) :
    Decides lexed (arithmetic ⟨functions, .ofScope scope⟩ (depth + 1) t) m (t.Fits functions scope m)
      (Lowers scope m t) := by
  cases t with
  | number n =>
    rw [arithmetic]
    exact decides_number hform
  | name x => exact decides_name
  | callOperand t =>
    rw [arithmetic]
    exact decides_callOperand ih htyped hform hcalls m
  | positive t =>
    have hiff : t.Fits functions scope m ↔ (Tree.positive t).Fits functions scope m :=
      ⟨fun h => ⟨Tree.allAllowed_positive.2 h.allowed, h.room⟩,
        fun h => ⟨Tree.allAllowed_positive.1 h.allowed, h.room⟩⟩
    rw [arithmetic]
    exact ((ih.arithmetic t m hform (hcalls.same rfl rfl)).congr hiff).imp fun _ _ _ h => ⟨h.size, h.gains⟩
  | negative t => exact decides_negative (t := t) ih hform (hcalls.same rfl rfl) m
  | binary op l r =>
    obtain ⟨hsign, hl, hr⟩ := hform
    cases op with
    | pow =>
      by_cases hliteral : ∃ n, r = .number n
      · obtain ⟨n, rfl⟩ := hliteral
        exact decides_power ih hl (CallsKnown.binary_iff.1 hcalls).1 m
      · rw [arithmetic]
        · exact decides_violate rfl fun _ hfits => hliteral (Tree.exponent_of_allAllowed hfits.allowed)
        · intro n hn
          exact hliteral ⟨n, hn⟩
    | other word => cases hsign
    | _ =>
      rw [arithmetic]
      · exact decides_binary ih rfl hl hr hcalls m
      · intro h
        cases h
  | _ => cases hform

/-! ### Whole expressions -/

theorem decides_value (ih : DecidesAt lexed functions scope depth) (htyped : functions.Typed)
    (hform : t.IsValue (.read lexed)) (hcalls : CallsKnown functions t) (m : Module) :
    Decides lexed (value ⟨functions, .ofScope scope⟩ (depth + 1) t) m
      (t.Fits functions scope m ∧ t.GivesValue functions)
      (fun r m' => Lowers scope m t r.1 m' ∧ r.2 = TypeWord.int) := by
  rcases hform with hident | hcall | hoperand
  · cases t with
    | ident x =>
      have hiff : (x ∈ scope ∧ scope.idxOf x ≤ 255) ↔
          (Tree.ident x).Fits functions scope m ∧ (Tree.ident x).GivesValue functions := by
        rw [fits_iff_of_no_calls rfl, Tree.allAllowed_ident]
        exact (and_iff_left trivial).symm
      rw [value]
      refine (decides_get x).bind (fun h => (hiff.2 h).1) ?_
      rintro v _ hx ⟨rfl, rfl⟩
      refine ((decides_load _).congr ((and_iff_right hx).symm.trans hiff)).map ?_
      rintro code m' _ ⟨hsize, rfl⟩
      exact ⟨⟨hsize, .refl _⟩, rfl⟩
    | _ => cases hident
  · cases t with
    | call f arguments =>
      rw [value]
      refine (decides_call ih htyped hcall hcalls m).bind And.left ?_
      rintro ⟨code, s⟩ m' hfits ⟨hcode, hfind⟩
      dsimp only at hcode hfind ⊢
      have hvalue : (Tree.call f arguments).GivesValue functions ↔ s.returns ≠ TypeWord.void := by
        rw [Tree.GivesValue, hfind]
        simp
      split_ifs with hvoid
      · exact decides_violate rfl fun _ h => hvalue.1 h.2 hvoid
      · refine decides_pure ⟨hfits, hvalue.2 hvoid⟩ ⟨hcode, ?_⟩
        exact (htyped f s hfind).returns.resolve_right hvoid
    | _ => cases hcall
  · have hiff : t.Fits functions scope m ↔ t.Fits functions scope m ∧ t.GivesValue functions := by
      refine (and_iff_left ?_).symm
      cases t with
      | call => cases hoperand
      | _ => trivial
    have hlower : value ⟨functions, .ofScope scope⟩ (depth + 1) t = (do
        return (← arithmetic ⟨functions, .ofScope scope⟩ depth t, TypeWord.int)) := by
      cases t with
      | ident | call => cases hoperand
      | _ => rw [value, if_pos hoperand.isArithmetic] <;> (intros; contradiction)
    rw [hlower]
    exact ((ih.arithmetic t m hoperand hcalls).congr hiff).map fun code m' _ hcode => ⟨hcode, rfl⟩

theorem decidesAt (lexed : Prop) (htyped : functions.Typed) (scope : List Name) (depth : Nat) :
    DecidesAt lexed functions scope depth := by
  induction depth with
  | zero => exact ⟨fun _ _ _ _ => decides_tooDeep, fun _ _ _ _ => decides_tooDeep⟩
  | succ depth ih =>
    exact ⟨fun _ m hform hcalls => decides_value ih htyped hform hcalls m,
      fun _ m hform hcalls => decides_arithmetic ih htyped hform hcalls m⟩

end Lower

end StackLang
