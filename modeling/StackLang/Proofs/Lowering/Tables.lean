/-
What lowering reads of the function table.

Lowering a tree looks up the functions that it calls and no others, so in two tables that have the same signatures for
these it is the same step (`definitions_sameOn`). A program calls functions that are in the table when their calls are
read, and what joins the table later does not hide them (`ProgramRules.sameOn`).
-/
import StackLang.Proofs.Lowering.Succeeds
import StackLang.Proofs.Source.Shape

namespace StackLang

/-! ## Tables that grow -/

namespace FunctionTable

variable {F G : FunctionTable}

/-- two tables with the same signatures for some functions -/
def SameOn (F G : FunctionTable) (names : List Name) : Prop :=
  ∀ f ∈ names, F.lookup f = G.lookup f

theorem SameOn.mono {names more : List Name} (h : SameOn F G more) (hsub : ∀ f ∈ names, f ∈ more) : SameOn F G names :=
  fun f hf => h f (hsub f hf)

/-- a function of the table is found where it was in every table grown from it -/
theorem lookup_afterAll {f : Name} (hf : f ∈ F.names) (trees : List Tree) : (F.afterAll trees).lookup f = F.lookup f := by
  obtain ⟨s, hs⟩ := lookup_of_mem hf
  obtain ⟨hfind, -⟩ := mem_of_lookup hs
  have hgrown : (F.afterAll trees).find? f = some s := by
    unfold find? at hfind ⊢
    rw [entries_afterAll, List.lookup_append, hfind, Option.some_or]
  rw [lookup, hgrown, hs]

end FunctionTable

/-- a program calls only functions of the table that it leaves behind -/
theorem ProgramRules.calls_mem {functions : FunctionTable} {trees : List Tree} (h : ProgramRules functions trees)
    {t : Tree} (ht : t ∈ trees) {f : Name} (hf : f ∈ t.calls) : f ∈ (functions.afterAll trees).names := by
  induction trees generalizing functions with
  | nil => cases ht
  | cons u rest ih =>
    rcases List.mem_cons.1 ht with rfl | hrest
    · rw [FunctionTable.names_afterAll]
      exact List.mem_append_left _ (h.1.calls.known f hf)
    · exact ih h.2 hrest

/-- what joins the table after a program does not change what the program calls -/
theorem ProgramRules.sameOn {functions : FunctionTable} {trees : List Tree} (h : ProgramRules functions trees)
    (more : List Tree) {t : Tree} (ht : t ∈ trees) :
    ((functions.afterAll trees).afterAll more).SameOn (functions.afterAll trees) t.calls :=
  fun _ hf => FunctionTable.lookup_afterAll (h.calls_mem ht hf) more

namespace Lower

variable {α : Type} {F G : FunctionTable} {locals : Locals} {depth : Nat} {f : Name} {t : Tree} {trees : List Tree}

open FunctionTable (SameOn)

/-! ## Expressions -/

theorem argumentCodes_congr {value value' : α → Lower (Code × Name)} {arguments : List (α × Parameter)}
    (h : ∀ a ∈ arguments, value a.1 = value' a.1) : argumentCodes value f arguments = argumentCodes value' f arguments := by
  induction arguments with
  | nil => rfl
  | cons a rest ih =>
    rw [argumentCodes, argumentCodes, h a List.mem_cons_self, ih fun b hb => h b (List.mem_cons_of_mem _ hb)]

theorem call_congr {value value' : α → Lower (Code × Name)} {arguments : List α} (hf : F.lookup f = G.lookup f)
    (h : ∀ a ∈ arguments, value a = value' a) :
    call ⟨F, locals⟩ value f arguments = call ⟨G, locals⟩ value' f arguments := by
  have hcodes (s : Signature) : argumentCodes value f (arguments.zip s.parameters) =
      argumentCodes value' f (arguments.zip s.parameters) :=
    argumentCodes_congr fun a ha => h a.1 (List.of_mem_zip ha).1
  simp only [call, hf, hcodes]

/-- a call whose arguments are lowered in the same way by both tables -/
theorem call_sameOn {value value' : Tree → Lower (Code × Name)} {arguments : List Tree}
    (hvalue : ∀ t, t.Proper → SameOn F G t.calls → value t = value' t) (hproper : (Tree.call f arguments).Proper)
    (h : SameOn F G (Tree.call f arguments).calls) :
    call ⟨F, locals⟩ value f arguments = call ⟨G, locals⟩ value' f arguments := by
  refine call_congr (h f (by simp [Tree.calls])) fun a ha => ?_
  refine hvalue a (Tree.properAll_iff.1 hproper.2 a ha) (h.mono fun g hg => ?_)
  exact List.mem_append_left _ (Tree.mem_callsOfAll.2 ⟨a, ha, hg⟩)

/-- the function that an operand calls is the one that was looked up -/
theorem operandCall_call (frame : Frame) (value : Tree → Lower (Code × Name)) (f : Name) (arguments : List Tree) :
    operandCall frame value (.call f arguments) = (do
      let signature ← check (frame.functions.lookup f)
      if signature.returns = TypeWord.int then
        return (← call frame value f arguments).1
      else
        violate (.callNotInt f signature.returns)) := by
  simp only [operandCall, intFunction, Tree.name?, bind_assoc]
  refine bind_congr fun s => ?_
  split_ifs
  · rw [pure_bind]
  · rfl

theorem operandCall_sameOn {value value' : Tree → Lower (Code × Name)}
    (hvalue : ∀ t, t.Proper → SameOn F G t.calls → value t = value' t) (hproper : (Tree.callOperand t).Proper)
    (h : SameOn F G t.calls) : operandCall ⟨F, locals⟩ value t = operandCall ⟨G, locals⟩ value' t := by
  obtain ⟨⟨f, arguments, rfl⟩, hproper⟩ := hproper
  have hlookup : F.lookup f = G.lookup f := h f (by simp [Tree.calls])
  rw [operandCall_call, operandCall_call, hlookup, call_sameOn hvalue hproper h]

theorem value_succ_sameOn
    (hvalue : ∀ t, t.Proper → SameOn F G t.calls → value ⟨F, locals⟩ depth t = value ⟨G, locals⟩ depth t)
    (harithmetic : ∀ t, t.Proper → SameOn F G t.calls → arithmetic ⟨F, locals⟩ depth t = arithmetic ⟨G, locals⟩ depth t)
    (hproper : t.Proper) (h : SameOn F G t.calls) :
    value ⟨F, locals⟩ (depth + 1) t = value ⟨G, locals⟩ (depth + 1) t := by
  cases t with
  | ident x => rw [value, value]
  | call f arguments =>
    rw [value, value, call_sameOn hvalue hproper h]
  | _ => simp only [value, harithmetic _ hproper h]

theorem arithmetic_succ_sameOn
    (hvalue : ∀ t, t.Proper → SameOn F G t.calls → value ⟨F, locals⟩ depth t = value ⟨G, locals⟩ depth t)
    (harithmetic : ∀ t, t.Proper → SameOn F G t.calls → arithmetic ⟨F, locals⟩ depth t = arithmetic ⟨G, locals⟩ depth t)
    (hproper : t.Proper) (h : SameOn F G t.calls) :
    arithmetic ⟨F, locals⟩ (depth + 1) t = arithmetic ⟨G, locals⟩ (depth + 1) t := by
  cases t with
  | callOperand t => rw [arithmetic, arithmetic, operandCall_sameOn hvalue hproper h]
  | positive t => rw [arithmetic, arithmetic, harithmetic t hproper h]
  | negative t =>
    rw [arithmetic, arithmetic, harithmetic t hproper h]
  | binary op l r =>
    have hl : arithmetic ⟨F, locals⟩ depth l = arithmetic ⟨G, locals⟩ depth l :=
      harithmetic l hproper.1 (h.mono fun _ => List.mem_append_left _)
    have hr : arithmetic ⟨F, locals⟩ depth r = arithmetic ⟨G, locals⟩ depth r :=
      harithmetic r hproper.2 (h.mono fun _ => List.mem_append_right _)
    cases op <;> simp only [arithmetic, hl, hr]
  | _ => simp only [arithmetic]

/-- an expression is lowered in the same way by two tables that have the same signatures for its calls -/
theorem value_sameOn (F G : FunctionTable) (locals : Locals) (depth : Nat) :
    (∀ t, t.Proper → SameOn F G t.calls → value ⟨F, locals⟩ depth t = value ⟨G, locals⟩ depth t) ∧
      ∀ t, t.Proper → SameOn F G t.calls → arithmetic ⟨F, locals⟩ depth t = arithmetic ⟨G, locals⟩ depth t := by
  induction depth with
  | zero => exact ⟨fun t _ _ => by rw [value, value], fun t _ _ => by rw [arithmetic, arithmetic]⟩
  | succ depth ih =>
    exact ⟨fun t hproper h => value_succ_sameOn ih.1 ih.2 hproper h,
      fun t hproper h => arithmetic_succ_sameOn ih.1 ih.2 hproper h⟩

/-! ## Definitions -/

theorem statement_sameOn (hproper : t.Proper) (h : SameOn F G t.calls) :
    statement ⟨F, locals⟩ depth t = statement ⟨G, locals⟩ depth t := by
  have hvalue := (value_sameOn F G locals depth).1
  cases t with
  | declare x type v => simp only [statement, declaration, hvalue v hproper h]
  | assign x v => simp only [statement, assignment, hvalue v hproper h]
  | addAssign x v => simp only [statement, addition, hvalue v hproper h]
  | ret v => simp only [statement, hvalue v hproper h]
  | call f arguments => simp only [statement, call_sameOn hvalue hproper h]
  | _ => rfl

theorem body_sameOn (hproper : ∀ t ∈ trees, t.Proper) (h : ∀ t ∈ trees, SameOn F G t.calls) (found : List Code) :
    body F depth locals found trees = body G depth locals found trees := by
  induction trees generalizing locals found with
  | nil => rfl
  | cons t rest ih =>
    rw [List.forall_mem_cons] at hproper h
    simp only [body, statement_sameOn hproper.1 h.1, ih hproper.2 h.2]

theorem definition_sameOn {returns : Name} {parameters : List Parameter} (hproper : ∀ t ∈ trees, t.Proper)
    (h : ∀ t ∈ trees, SameOn F G t.calls) :
    definition F depth f parameters returns trees = definition G depth f parameters returns trees := by
  simp only [definition, body_sameOn hproper h]

/-- definitions are lowered in the same way by two tables that have the same signatures for their calls -/
theorem definitions_sameOn (hproper : ∀ t ∈ trees, t.Proper) (h : ∀ t ∈ trees, SameOn F G t.calls) :
    definitions F depth trees = definitions G depth trees := by
  induction trees with
  | nil => rfl
  | cons t rest ih =>
    rw [List.forall_mem_cons] at hproper h
    cases t with
    | define name parameters returns statements =>
      have hbody : ∀ t ∈ statements, SameOn F G t.calls :=
        fun t ht => h.1.mono fun f hf => Tree.mem_callsOfAll.2 ⟨t, ht, hf⟩
      rw [definitions, definitions, definition_sameOn (Tree.properAll_iff.1 hproper.1.2) hbody, ih hproper.2 h.2]
    | _ => rfl

/-- definitions one after the other -/
theorem definitions_append (functions : FunctionTable) (first second : List Tree) :
    definitions functions depth (first ++ second) =
      definitions functions depth first >>= fun _ => definitions functions depth second := by
  induction first with
  | nil => rw [List.nil_append, definitions, pure_bind]
  | cons t rest ih =>
    cases t with
    | define name parameters returns statements => rw [List.cons_append, definitions, definitions, ih, bind_assoc]
    | _ => rfl

end Lower

end StackLang
