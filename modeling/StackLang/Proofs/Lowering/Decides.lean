/-
Steps of lowering that decide by rules.

A step decides by rules if it succeeds only where they are kept and fails there only for nesting too deeply, and if no
failure is of a kind that reading excludes (`Lower.Decides`). A step after a step decides by the rules of both. The
steps at the bottom, which push, load, store and unroll, decide by bounds on numbers and slots. What the rules speak of
beside the tree is said here too: typed tables, room in a module, and scopes.
-/
import StackLang.Proofs.Lowering.Limits
import StackLang.Proofs.Lowering.Pieces
import StackLang.Proofs.Lowering.Tables
import StackLang.Proofs.Source.Forms
import StackLang.Proofs.Target.Entries

namespace StackLang

open Step (Ensures)

/-! ## Faults -/

/-- violations that reading excludes -/
def Violation.isEarly : Violation → Bool
  | .redeclaredVariable _ | .nestedDefinition | .undefinedFunction _ | .callNotInt .. | .variableNotInt ..
  | .cannotInitialize .. | .cannotReassign .. | .cannotAdd .. | .argumentMismatch .. | .noDescriptor _
  | .unsupportedStatement _ | .unsupportedExpression _ | .unsupportedOperand _ | .unsupportedOperator _ => true
  | _ => false

/-- faults that reading excludes -/
def LowerFault.isEarly : LowerFault → Bool
  | .semantic violation => violation.isEarly
  | .notCall _ => true
  | .encoding _ | .tooDeep => false

/-! ## Typed tables -/

/-- a function takes integers and returns an integer or nothing -/
structure Signature.Typed (s : Signature) : Prop where
  parameters : ∀ p ∈ s.parameters, p.type = TypeWord.int
  returns : s.returns = TypeWord.int ∨ s.returns = TypeWord.void

theorem Signature.Typed.descriptor {s : Signature} (h : s.Typed) : ∃ d, s.descriptor = .ok d := by
  have hletters : ∃ letters, s.parameters.mapM (fun p => TypeWord.letter p.type) = Except.ok letters := by
    obtain ⟨returns, parameters⟩ := s
    have htypes := h.parameters
    clear h
    induction parameters with
    | nil => exact ⟨[], rfl⟩
    | cons p rest ih =>
      obtain ⟨hp, hrest⟩ := List.forall_mem_cons.1 htypes
      obtain ⟨letters, hletters⟩ := ih hrest
      refine ⟨'I' :: letters, ?_⟩
      rw [List.mapM_cons, hletters, hp]
      rfl
  obtain ⟨letters, hletters⟩ := hletters
  unfold Signature.descriptor
  rw [hletters]
  rcases h.returns with hr | hr
  · rw [hr]
    exact ⟨_, rfl⟩
  · rw [hr]
    exact ⟨_, rfl⟩

def FunctionTable.Typed (functions : FunctionTable) : Prop :=
  ∀ f s, functions.find? f = some s → s.Typed

theorem FunctionTable.typed_initial : FunctionTable.initial.Typed := by
  intro f s hfind
  obtain ⟨_, _, hentries, -⟩ := List.lookup_eq_some_iff.1 hfind
  have hmem : (f, s) ∈ FunctionTable.initial.entries := by simp [hentries]
  obtain ⟨rfl, rfl⟩ := Prod.mk.inj (List.mem_singleton.1 hmem)
  exact ⟨by simp, .inr rfl⟩

theorem FunctionTable.find?_after {F : FunctionTable} {t : Tree} {f : Name} {s : Signature}
    (h : (F.after t).find? f = some s) : F.find? f = some s ∨ t.definition? = some (f, s) := by
  unfold find? at h ⊢
  rw [entries_after, List.lookup_append] at h
  cases hfind : F.entries.lookup f with
  | some s' =>
    rw [hfind] at h
    exact .inl h
  | none =>
    rw [hfind, Option.none_or] at h
    obtain ⟨_, _, hentries, -⟩ := List.lookup_eq_some_iff.1 h
    exact .inr (Option.mem_toList.1 (by simp [hentries]))

/-- programs that keep the rules keep the table typed -/
theorem FunctionTable.Typed.afterAll {F : FunctionTable} (hF : F.Typed) {trees : List Tree} (h : ProgramRules F trees) :
    (F.afterAll trees).Typed := by
  induction trees generalizing F with
  | nil => exact hF
  | cons t rest ih =>
    refine ih (fun f s hfind => ?_) h.2
    rcases FunctionTable.find?_after hfind with hold | hnew
    · exact hF f s hold
    · cases t with
      | define name parameters returns body =>
        have hdefinition := h.1.definition name parameters returns body rfl
        cases hnew
        exact ⟨hdefinition.parameterTypes, hdefinition.returnType⟩
      | _ => cases hnew

/-- calls stay known while the table grows -/
theorem CallsKnown.afterAll {F : FunctionTable} {t : Tree} (h : CallsKnown F t) (trees : List Tree) :
    CallsKnown (F.afterAll trees) t := by
  constructor
  · intro f hf
    rw [FunctionTable.names_afterAll]
    exact List.mem_append_left _ (h.known f hf)
  · intro f hf
    obtain ⟨s, hfind, hint⟩ := h.operands f hf
    have hlookup := Lower.lookup_eq_ok.2 hfind
    rw [← FunctionTable.lookup_afterAll (FunctionTable.mem_of_lookup hlookup).2 trees] at hlookup
    exact ⟨s, (FunctionTable.mem_of_lookup hlookup).1, hint⟩

/-! ## Room in a module -/

namespace Module

/-- a module takes this many more calls -/
def HasRoom (m : Module) (calls : Nat) : Prop :=
  calls = 0 ∨ m.written = none ∧ m.pool.size + 6 * calls ≤ Pool.capacity

/-- the references of this many calls came to the pool -/
structure Gains (m : Module) (calls : Nat) (m' : Module) : Prop where
  written : m'.written = m.written
  size : m'.pool.size = m.pool.size + 6 * calls

variable {m m' m'' : Module} {k n : Nat}

theorem Gains.refl (m : Module) : m.Gains 0 m :=
  ⟨rfl, rfl⟩

theorem Gains.trans (h : m.Gains k m') (h' : m'.Gains n m'') : m.Gains (k + n) m'' := by
  refine ⟨h'.written.trans h.written, ?_⟩
  have h₁ := h.size
  have h₂ := h'.size
  omega

theorem hasRoom_zero (m : Module) : m.HasRoom 0 :=
  .inl rfl

theorem HasRoom.mono (h : m.HasRoom n) (hk : k ≤ n) : m.HasRoom k := by
  rcases h with rfl | ⟨hopen, hroom⟩
  · exact .inl (by omega)
  · exact .inr ⟨hopen, by omega⟩

/-- room for more calls after some -/
theorem Gains.hasRoom_iff (h : m.Gains k m') (hk : m.HasRoom k) : m'.HasRoom n ↔ m.HasRoom (k + n) := by
  have hsize := h.size
  unfold HasRoom at hk ⊢
  rw [h.written]
  constructor
  · rintro (rfl | ⟨hopen, hroom⟩)
    · simpa using hk
    · exact .inr ⟨hopen, by omega⟩
  · rintro (hzero | ⟨hopen, hroom⟩)
    · exact .inl (by omega)
    · exact .inr ⟨hopen, by omega⟩

end Module

namespace Lower

/-! ## Steps that decide -/

variable {α β : Type} {lexed : Prop} {x : Lower α} {m : Module} {rules : Prop} {good : α → Module → Prop}
  {next : β → Module → Prop}

/-- a step that succeeds only if the rules are kept, and then with `good`; it fails for nothing that reading excludes
and, where the rules are kept, only for nesting too deeply. What is not counted on without a source text (`lexed`) is
that numbers are not negative. -/
def Decides (lexed : Prop) (x : Lower α) (m : Module) (rules : Prop) (good : α → Module → Prop) : Prop :=
  Ensures x m (fun a m' => rules ∧ good a m')
    (fun fault _ => fault.isEarly = false ∧ (lexed → rules → fault = .tooDeep))

/-- a step after a step decides by the rules of the whole, which the rules of the first step are part of -/
theorem Decides.bind {f : α → Lower β} {first : Prop} (h : Decides lexed x m first good) (hfirst : rules → first)
    (hf : ∀ a m', first → good a m' → Decides lexed (f a) m' rules next) : Decides lexed (x >>= f) m rules next := by
  have hx : Ensures x m (fun a m' => first ∧ good a m')
      (fun fault _ => fault.isEarly = false ∧ (lexed → rules → fault = .tooDeep)) :=
    Ensures.imp h (fun _ _ ha => ha) fun _ _ hfault => ⟨hfault.1, fun hlexed hrules => hfault.2 hlexed (hfirst hrules)⟩
  exact Ensures.bind hx fun a m' ha => hf a m' ha.1 ha.2

theorem Decides.congr {rules' : Prop} (h : Decides lexed x m rules good) (hiff : rules ↔ rules') :
    Decides lexed x m rules' good := by
  rw [← hiff]
  exact h

theorem Decides.imp {good' : α → Module → Prop} (h : Decides lexed x m rules good)
    (hgood : ∀ a m', rules → good a m' → good' a m') : Decides lexed x m rules good' :=
  Ensures.imp h (fun a m' ha => ⟨ha.1, hgood a m' ha.1 ha.2⟩) fun _ _ hfault => hfault

theorem decides_pure {a : α} (hrules : rules) (hgood : good a m) : Decides lexed (pure a) m rules good :=
  ⟨hrules, hgood⟩

theorem decides_tooDeep : Decides lexed (throw .tooDeep) m rules good :=
  ⟨rfl, fun _ _ => rfl⟩

theorem decides_violate {violation : Violation} (hlate : violation.isEarly = false) (hrules : lexed → ¬ rules) :
    Decides lexed (violate violation) m rules good :=
  ⟨hlate, fun hlexed hkept => absurd hkept (hrules hlexed)⟩

/-- a step after a step that always succeeds -/
theorem Decides.after {f : α → Lower β} {a : α} {m' : Module} (hx : x m = .ok a m')
    (h : Decides lexed (f a) m' rules next) : Decides lexed (x >>= f) m rules next := by
  unfold Decides Ensures
  rw [Step.bind_of_ok hx]
  exact h

/-- the result of a step is passed on -/
theorem Decides.map {f : α → β} (h : Decides lexed x m rules good) (hf : ∀ a m', rules → good a m' → next (f a) m') :
    Decides lexed (do return f (← x)) m rules next :=
  h.bind id fun a m' hrules hgood => decides_pure hrules (hf a m' hrules hgood)

/-- a check that fails exactly if the rules are broken -/
theorem decides_check {check : Except Violation α} (hok : ∀ a, check = .ok a → rules ∧ good a m)
    (herror : ∀ violation, check = .error violation → violation.isEarly = false ∧ (lexed → ¬ rules)) :
    Decides lexed (Lower.check check) m rules good := by
  cases check with
  | ok a => exact hok a rfl
  | error violation => exact decides_violate (herror violation rfl).1 (herror violation rfl).2

theorem decides_guard {c : Prop} [Decidable c] {violation : Violation} (hlate : violation.isEarly = false)
    (hrules : c → ¬ rules) (h : ¬ c → Decides lexed x m rules good) :
    Decides lexed (if c then (do violate violation; x) else x) m rules good := by
  split_ifs with hc
  · exact ⟨hlate, fun _ hkept => absurd hkept (hrules hc)⟩
  · exact h hc

/-! ## Sizes of code -/

theorem size_append (c d : Code) : Code.size (c ++ d) = c.size + d.size := by
  simp [Code.size, Code.encode]

theorem size_repeat (c : Code) (n : Nat) : Code.size (List.replicate n c).flatten = n * c.size := by
  induction n with
  | zero => simp [Code.size, Code.encode]
  | succ n ih => rw [List.replicate_succ, List.flatten_cons, size_append, ih, Nat.succ_mul, Nat.add_comm]

theorem decides_push {n : Int} (hn : lexed → 0 ≤ n) :
    Decides lexed (check (push n)) m (n ≤ 5) (fun code m' => code.size = 1 ∧ m' = m) := by
  unfold push
  split
  · rename_i hrange
    exact ⟨hrange.2, rfl, rfl⟩
  · rename_i hrange
    refine decides_violate rfl fun hlexed hsmall => hrange ?_
    have := hn hlexed
    omega

theorem decides_load (slot : Nat) :
    Decides lexed (check (load slot)) m (slot ≤ 255) (fun code m' => code.size = slotSize slot ∧ m' = m) := by
  unfold load
  split_ifs with hshort hlong
  · exact ⟨by omega, by simp [slotSize, hshort, Code.size, Code.encode, Instr.encode, Instr.operands], rfl⟩
  · exact ⟨by omega, by simp [slotSize, hshort, Code.size, Code.encode, Instr.encode, Instr.operands], rfl⟩
  · exact decides_violate rfl fun _ hreach => hlong (by omega)

theorem decides_store (slot : Nat) :
    Decides lexed (check (store slot)) m (slot ≤ 255) (fun code m' => code.size = slotSize slot ∧ m' = m) := by
  unfold store
  split_ifs with hshort hlong
  · exact ⟨by omega, by simp [slotSize, hshort, Code.size, Code.encode, Instr.encode, Instr.operands], rfl⟩
  · exact ⟨by omega, by simp [slotSize, hshort, Code.size, Code.encode, Instr.encode, Instr.operands], rfl⟩
  · exact decides_violate rfl fun _ hreach => hlong (by omega)

theorem decides_unroll (code : Code) (n : Int) :
    Decides lexed (check (unroll code n)) m (1 ≤ n → n * code.size ≤ 65535)
      (fun unrolled m' => unrolled.size = Tree.powerSize code.size (.number n) ∧ m' = m) := by
  unfold unroll
  split_ifs with hzero hlarge
  · exact ⟨by omega, by simp [Tree.powerSize, hzero]; rfl, rfl⟩
  · refine decides_violate rfl fun _ hfits => ?_
    rw [mul_comm] at hlarge
    by_cases hn : 1 ≤ n
    · have := hfits hn
      unfold maxCodeSize at hlarge
      omega
    · have hneg : n * code.size ≤ 0 := mul_nonpos_of_nonpos_of_nonneg (by omega) (by omega)
      omega
  · refine ⟨?_, ?_, rfl⟩
    · intro _
      rw [mul_comm]
      unfold maxCodeSize at hlarge
      omega
    · rw [size_append, size_repeat, size_append]
      simp only [Tree.powerSize, if_neg hzero]
      rfl

end Lower

/-! ## Variables in scope -/

namespace Locals

/-- the variables of a function, all of them integers, in the order of their slots -/
def ofScope (scope : List Name) : Locals :=
  ⟨scope.mapIdx fun slot x => (x, ⟨slot, TypeWord.int⟩)⟩

variable {scope : List Name} {x : Name}

theorem ofScope_append (scope : List Name) (x : Name) :
    ofScope (scope ++ [x]) = ⟨(ofScope scope).entries ++ [(x, ⟨scope.length, TypeWord.int⟩)]⟩ := by
  simp [ofScope]

theorem count_ofScope (scope : List Name) : (ofScope scope).count = scope.length := by
  simp [ofScope, count]

/-- a variable is found under its place in the scope -/
theorem find?_ofScope (scope : List Name) (x : Name) :
    (ofScope scope).find? x = if x ∈ scope then some ⟨scope.idxOf x, TypeWord.int⟩ else none := by
  induction scope using List.reverseRecOn with
  | nil => rfl
  | append_singleton scope y ih =>
    unfold find? at ih ⊢
    rw [ofScope_append, List.lookup_append, ih]
    by_cases hx : x ∈ scope
    · simp [hx, List.idxOf_append]
    · by_cases hxy : x = y
      · subst hxy
        simp [hx, List.idxOf_append]
      · simp [hx, hxy, List.lookup_cons, beq_eq_false_iff_ne.2 hxy]

theorem declare_ofScope (h : x ∉ scope) :
    (ofScope scope).declare x TypeWord.int = .ok (⟨scope.length, TypeWord.int⟩, ofScope (scope ++ [x])) := by
  have hnew : (ofScope scope).contains x = false := by simp [contains, find?_ofScope, h]
  unfold declare
  rw [hnew, ofScope_append, count_ofScope]
  rfl

end Locals

end StackLang
