/-
The rules of names and types that a program has to keep.

`Tree.calls` lists the functions that a tree calls, in the order in which the calls end: operands and arguments from
left to right, arguments before their call. A statement may call only functions of the table it meets, and as operands
only such that return an integer (`CallsKnown`). A definition moreover has distinct variables, known types and a new
name (`StatementRules`), and joins the table for the statements after it (`ProgramRules`).
-/
import Mathlib.Tactic
import StackLang.Proofs.Steps
import StackLang.Source.Statement

namespace StackLang

namespace Tree

mutual

/-- the functions that a tree calls, in the order in which the calls end -/
def calls : Tree → List Name
  | .number _ | .name _ | .ident _ => []
  | .positive t | .negative t | .callOperand t | .ret t | .declare _ _ t | .assign _ t | .addAssign _ t => t.calls
  | .binary _ l r => l.calls ++ r.calls
  | .call f arguments => callsOfAll arguments ++ [f]
  | .define _ _ _ body => callsOfAll body
  | .program statements => callsOfAll statements

def callsOfAll : List Tree → List Name
  | [] => []
  | t :: rest => t.calls ++ callsOfAll rest

end

def callee? : Tree → Option Name
  | .call f _ => some f
  | _ => none

mutual

/-- the functions that a tree calls as operands of arithmetic -/
def operandCalls : Tree → List Name
  | .number _ | .name _ | .ident _ => []
  | .callOperand t => t.callee?.toList ++ t.operandCalls
  | .positive t | .negative t | .ret t | .declare _ _ t | .assign _ t | .addAssign _ t => t.operandCalls
  | .binary _ l r => l.operandCalls ++ r.operandCalls
  | .call _ arguments => operandCallsOfAll arguments
  | .define _ _ _ body => operandCallsOfAll body
  | .program statements => operandCallsOfAll statements

def operandCallsOfAll : List Tree → List Name
  | [] => []
  | t :: rest => t.operandCalls ++ operandCallsOfAll rest

end

def declared? : Tree → Option Name
  | .declare x _ _ => some x
  | _ => none

end Tree

/-- every function called is in the table, and every one called as an operand returns an integer -/
structure CallsKnown (functions : FunctionTable) (t : Tree) : Prop where
  known : ∀ f ∈ t.calls, f ∈ functions.names
  operands : ∀ f ∈ t.operandCalls, ∃ s, functions.find? f = some s ∧ s.returns = TypeWord.int

/-- the table after a statement: a definition joins it -/
def FunctionTable.after (functions : FunctionTable) : Tree → FunctionTable
  | .define name parameters returns _ => ⟨functions.entries ++ [(name, ⟨returns, parameters⟩)]⟩
  | _ => functions

def FunctionTable.afterAll (functions : FunctionTable) (trees : List Tree) : FunctionTable :=
  trees.foldl FunctionTable.after functions

/-- what a definition has to keep beside the rules of its body -/
structure DefinitionRules (functions : FunctionTable) (name : Name) (parameters : List Parameter) (returns : Name)
    (body : List Tree) : Prop where
  /-- parameters and declared variables all have names of their own -/
  distinct : (parameters.map (·.name) ++ body.filterMap Tree.declared?).Nodup
  parameterTypes : ∀ p ∈ parameters, p.type = TypeWord.int
  returnType : returns = TypeWord.int ∨ returns = TypeWord.void
  fresh : name ∉ functions.names

/-- the rules for a statement outside of functions, by the table it meets -/
structure StatementRules (functions : FunctionTable) (t : Tree) : Prop where
  calls : CallsKnown functions t
  definition : ∀ name parameters returns body, t = .define name parameters returns body →
    DefinitionRules functions name parameters returns body

/-- the rules for a program: each statement meets the table that those before it leave -/
def ProgramRules (functions : FunctionTable) : List Tree → Prop
  | [] => True
  | t :: rest => StatementRules functions t ∧ ProgramRules (functions.after t) rest

/-- a name of the table has a signature -/
theorem FunctionTable.lookup_of_mem {functions : FunctionTable} {f : Name} (h : f ∈ functions.names) :
    ∃ s, functions.lookup f = .ok s := by
  cases hs : functions.find? f with
  | none => exact absurd h ((find?_eq_none_iff _ _).1 hs)
  | some s => exact ⟨s, by simp [lookup, hs]⟩

theorem FunctionTable.mem_of_lookup {functions : FunctionTable} {f : Name} {s : Signature}
    (h : functions.lookup f = .ok s) : functions.find? f = some s ∧ f ∈ functions.names := by
  unfold lookup at h
  cases hs : functions.find? f with
  | none => simp [hs] at h
  | some s' =>
    rw [hs] at h
    cases h
    refine ⟨rfl, ?_⟩
    by_contra hmem
    simp [(find?_eq_none_iff _ _).2 hmem] at hs

/-! ## Calls of the parts of a tree -/

theorem Tree.mem_callsOfAll {f : Name} {trees : List Tree} : f ∈ callsOfAll trees ↔ ∃ t ∈ trees, f ∈ t.calls := by
  induction trees with
  | nil => simp [callsOfAll]
  | cons t rest ih => simp [callsOfAll, ih]

theorem Tree.mem_operandCallsOfAll {f : Name} {trees : List Tree} :
    f ∈ operandCallsOfAll trees ↔ ∃ t ∈ trees, f ∈ t.operandCalls := by
  induction trees with
  | nil => simp [operandCallsOfAll]
  | cons t rest ih => simp [operandCallsOfAll, ih]

namespace CallsKnown

variable {functions : FunctionTable}

theorem of_no_calls {t : Tree} (hc : t.calls = []) (ho : t.operandCalls = []) : CallsKnown functions t :=
  ⟨by simp [hc], by simp [ho]⟩

/-- a form around one tree makes no calls of its own -/
theorem same {t u : Tree} (h : CallsKnown functions u) (hc : t.calls = u.calls)
    (ho : t.operandCalls = u.operandCalls) : CallsKnown functions t :=
  ⟨hc ▸ h.known, ho ▸ h.operands⟩

theorem binary_iff {o : BinaryOp} {l r : Tree} :
    CallsKnown functions (.binary o l r) ↔ CallsKnown functions l ∧ CallsKnown functions r := by
  constructor
  · rintro ⟨hk, ho⟩
    simp only [Tree.calls, Tree.operandCalls, List.mem_append] at hk ho
    exact ⟨⟨fun f hf => hk f (.inl hf), fun f hf => ho f (.inl hf)⟩,
      ⟨fun f hf => hk f (.inr hf), fun f hf => ho f (.inr hf)⟩⟩
  · rintro ⟨hl, hr⟩
    constructor <;> intro f hf
    · rcases List.mem_append.1 hf with hf | hf
      · exact hl.known f hf
      · exact hr.known f hf
    · rcases List.mem_append.1 hf with hf | hf
      · exact hl.operands f hf
      · exact hr.operands f hf

theorem call_iff {f : Name} {arguments : List Tree} :
    CallsKnown functions (.call f arguments) ↔
      f ∈ functions.names ∧ ∀ a ∈ arguments, CallsKnown functions a := by
  constructor
  · rintro ⟨hk, ho⟩
    simp only [Tree.calls, Tree.operandCalls, List.mem_append, List.mem_singleton, Tree.mem_callsOfAll,
      Tree.mem_operandCallsOfAll] at hk ho
    exact ⟨hk f (.inr rfl), fun a ha => ⟨fun g hg => hk g (.inl ⟨a, ha, hg⟩), fun g hg => ho g ⟨a, ha, hg⟩⟩⟩
  · rintro ⟨hf, ha⟩
    constructor <;> intro g hg
    · simp only [Tree.calls, List.mem_append, List.mem_singleton, Tree.mem_callsOfAll] at hg
      rcases hg with ⟨a, hmem, hg⟩ | rfl
      · exact (ha a hmem).known g hg
      · exact hf
    · obtain ⟨a, hmem, hg⟩ := Tree.mem_operandCallsOfAll.1 hg
      exact (ha a hmem).operands g hg

theorem of_callOperand {t : Tree} (h : CallsKnown functions (.callOperand t)) : CallsKnown functions t :=
  ⟨h.known, fun f hf => h.operands f (List.mem_append_right _ hf)⟩

theorem callOperand_iff {f : Name} {arguments : List Tree} :
    CallsKnown functions (.callOperand (.call f arguments)) ↔
      (∃ s, functions.find? f = some s ∧ s.returns = TypeWord.int) ∧ CallsKnown functions (.call f arguments) := by
  constructor
  · intro h
    exact ⟨h.operands f (by simp [Tree.operandCalls, Tree.callee?]), h.of_callOperand⟩
  · rintro ⟨hint, hcall⟩
    refine ⟨hcall.known, ?_⟩
    intro g hg
    rcases List.mem_append.1 hg with hg | hg
    · obtain rfl : g = f := by simpa [Tree.callee?] using hg
      exact hint
    · exact hcall.operands g hg

theorem define_iff {name returns : Name} {parameters : List Parameter} {body : List Tree} :
    CallsKnown functions (.define name parameters returns body) ↔ ∀ t ∈ body, CallsKnown functions t := by
  constructor
  · rintro ⟨hk, ho⟩ t ht
    exact ⟨fun f hf => hk f (Tree.mem_callsOfAll.2 ⟨t, ht, hf⟩),
      fun f hf => ho f (Tree.mem_operandCallsOfAll.2 ⟨t, ht, hf⟩)⟩
  · intro h
    constructor <;> intro f hf
    · obtain ⟨t, ht, hf⟩ := Tree.mem_callsOfAll.1 hf
      exact (h t ht).known f hf
    · obtain ⟨t, ht, hf⟩ := Tree.mem_operandCallsOfAll.1 hf
      exact (h t ht).operands f hf

end CallsKnown

/-! ## Variables of a body -/

/-- no statement declares a variable that is declared before it -/
def Fresh (declared : List Name) : List Tree → Prop
  | [] => True
  | t :: rest => (∀ x ∈ t.declared?, x ∉ declared) ∧ Fresh (t.declared?.toList ++ declared) rest

theorem fresh_iff_nodup {declared : List Name} (hd : declared.Nodup) (body : List Tree) :
    Fresh declared body ↔ (declared ++ body.filterMap Tree.declared?).Nodup := by
  induction body generalizing declared with
  | nil => simpa [Fresh] using hd
  | cons t rest ih =>
    cases ht : t.declared? with
    | none =>
      simp only [Fresh, ht, Option.toList_none, List.nil_append, List.filterMap_cons_none ht]
      simpa using ih hd
    | some x =>
      simp only [Fresh, ht, Option.toList_some, List.cons_append, List.nil_append, List.filterMap_cons_some ht]
      have hperm : (declared ++ x :: rest.filterMap Tree.declared?).Perm
          (x :: declared ++ rest.filterMap Tree.declared?) := List.perm_middle
      rw [hperm.nodup_iff]
      constructor
      · rintro ⟨hx, hrest⟩
        exact (ih (List.nodup_cons.2 ⟨hx x rfl, hd⟩)).1 hrest
      · intro h
        have hx : x ∉ declared := fun hmem => (List.nodup_cons.1 h).1 (List.mem_append_left _ hmem)
        refine ⟨?_, (ih (List.nodup_cons.2 ⟨hx, hd⟩)).2 h⟩
        intro y hy
        obtain rfl := Option.some.inj hy
        exact hx

/-! ## Entering a definition -/

theorem TypeWord.requireValue_eq_ok {t t' : Name} : requireValue t = .ok t' ↔ t = int ∧ t = t' := by
  unfold requireValue
  split_ifs with h <;> simp [h]

theorem TypeWord.requireReturn_eq_ok {t t' : Name} : requireReturn t = .ok t' ↔ (t = int ∨ t = void) ∧ t = t' := by
  unfold requireReturn
  split_ifs with h <;> simp [h]

theorem forM_requireValue_eq_ok {parameters : List Parameter} {u : Unit} :
    parameters.forM (fun p => discard (TypeWord.requireValue p.type)) = .ok u ↔
      ∀ p ∈ parameters, p.type = TypeWord.int := by
  induction parameters with
  | nil => simp [pure, Except.pure]
  | cons p rest ih =>
    rw [List.forM, Step.check_bind_eq_ok, List.forall_mem_cons, ← ih]
    constructor
    · rintro ⟨_, hp, hrest⟩
      refine ⟨?_, hrest⟩
      obtain ⟨_, hvalue, _⟩ := Step.check_bind_eq_ok.1 hp
      exact (TypeWord.requireValue_eq_ok.1 hvalue).1
    · rintro ⟨hp, hrest⟩
      refine ⟨⟨⟩, ?_, hrest⟩
      exact Step.check_bind_eq_ok.2 ⟨_, TypeWord.requireValue_eq_ok.2 ⟨hp, rfl⟩, rfl⟩

/-- a definition enters the table exactly if its types are known and its name is new -/
theorem Parse.registered_eq_ok {functions functions' : FunctionTable} {name : Name} {s : Signature} :
    registered functions name s = .ok functions' ↔
      (s.returns = TypeWord.int ∨ s.returns = TypeWord.void) ∧ (∀ p ∈ s.parameters, p.type = TypeWord.int) ∧
      name ∉ functions.names ∧ functions' = ⟨functions.entries ++ [(name, s)]⟩ := by
  unfold registered
  rw [Step.check_bind_eq_ok]
  constructor
  · rintro ⟨_, hreturns, h⟩
    obtain ⟨_, hparameters, h⟩ := Step.check_bind_eq_ok.1 h
    exact ⟨(TypeWord.requireReturn_eq_ok.1 hreturns).1, forM_requireValue_eq_ok.1 hparameters,
      (FunctionTable.define_eq_ok_iff _ _ _ _).1 h⟩
  · rintro ⟨hreturns, hparameters, h⟩
    refine ⟨_, TypeWord.requireReturn_eq_ok.2 ⟨hreturns, rfl⟩, ?_⟩
    exact Step.check_bind_eq_ok.2
      ⟨⟨⟩, forM_requireValue_eq_ok.2 hparameters, (FunctionTable.define_eq_ok_iff _ _ _ _).2 h⟩

/-! ## Tables of programs -/

def Tree.isDefinition : Tree → Bool
  | .define .. => true
  | _ => false

/-- what a definition enters into the table -/
def Tree.definition? : Tree → Option (Name × Signature)
  | .define f parameters returns _ => some (f, ⟨returns, parameters⟩)
  | _ => none

theorem FunctionTable.entries_after (functions : FunctionTable) (t : Tree) :
    (functions.after t).entries = functions.entries ++ t.definition?.toList := by
  cases t <;> simp [after, Tree.definition?]

theorem FunctionTable.entries_afterAll (functions : FunctionTable) (trees : List Tree) :
    (functions.afterAll trees).entries = functions.entries ++ trees.filterMap Tree.definition? := by
  induction trees generalizing functions with
  | nil => simp [afterAll]
  | cons t rest ih =>
    rw [show functions.afterAll (t :: rest) = (functions.after t).afterAll rest from rfl, ih, entries_after]
    cases ht : t.definition? with
    | none => simp [List.filterMap_cons_none ht]
    | some e => simp [List.filterMap_cons_some ht]

theorem FunctionTable.names_afterAll (functions : FunctionTable) (trees : List Tree) :
    (functions.afterAll trees).names = functions.names ++ (trees.filterMap Tree.definition?).map (·.1) := by
  simp [names, entries_afterAll]

/-- each statement keeps the rules against the table that those before it leave -/
theorem ProgramRules.statement {functions : FunctionTable} {trees : List Tree} (h : ProgramRules functions trees)
    {i : Nat} {t : Tree} (ht : trees[i]? = some t) : StatementRules (functions.afterAll (trees.take i)) t := by
  induction trees generalizing functions i with
  | nil => cases ht
  | cons u rest ih =>
    cases i with
    | zero =>
      cases ht
      exact h.1
    | succ i => exact ih h.2 ht

/-- a program keeps the names of its table apart -/
theorem ProgramRules.nodup {functions : FunctionTable} {trees : List Tree} (h : ProgramRules functions trees)
    (hnames : functions.names.Nodup) : (functions.afterAll trees).names.Nodup := by
  induction trees generalizing functions with
  | nil => exact hnames
  | cons t rest ih =>
    refine ih h.2 ?_
    cases t with
    | define name parameters returns body =>
      have hfresh := (h.1.definition name parameters returns body rfl).fresh
      have hnew : (functions.after (.define name parameters returns body)).names = functions.names ++ [name] := by
        simp [FunctionTable.after, FunctionTable.names]
      rw [hnew, List.nodup_append]
      refine ⟨hnames, List.nodup_singleton _, ?_⟩
      rintro a ha b hb rfl
      exact hfresh (List.mem_singleton.1 hb ▸ ha)
    | _ => exact hnames

/-- in a table of distinct names an entry is found under its name -/
theorem FunctionTable.find?_of_mem {functions : FunctionTable} (hnames : functions.names.Nodup) {f : Name}
    {s : Signature} (h : (f, s) ∈ functions.entries) : functions.find? f = some s := by
  obtain ⟨entries⟩ := functions
  simp only [find?, names] at hnames h ⊢
  induction entries with
  | nil => cases h
  | cons e rest ih =>
    obtain ⟨key, s'⟩ := e
    obtain ⟨hkey, hrest⟩ := List.nodup_cons.1 hnames
    rcases List.mem_cons.1 h with heq | hmem
    · cases heq
      simp
    · have hne : f ≠ key := by
        rintro rfl
        exact hkey (List.mem_map.2 ⟨_, hmem, rfl⟩)
      rw [List.lookup_cons, beq_eq_false_iff_ne.2 hne]
      exact ih hrest hmem

end StackLang
