/-
The calls in code, in order.

Code of a tree calls the functions that the tree calls, one instruction for each call and in the order in which the
calls end (`Emitted.Body.callsInOrder`). That a power repeats the code of its base does not disturb this, because the
base of a power is free of calls.
-/
import StackLang.Proofs.Lowering.Emitted

namespace StackLang

def Instr.callIndex? : Instr → Option UInt16
  | .invokevirtual index => some index
  | _ => none

/-- the pool entries that a code calls, in order -/
def Code.callIndices (code : Code) : List UInt16 :=
  code.filterMap Instr.callIndex?

namespace Code

@[simp]
theorem callIndices_nil : callIndices [] = [] :=
  rfl

@[simp]
theorem callIndices_append (code code' : Code) : callIndices (code ++ code') = code.callIndices ++ code'.callIndices :=
  List.filterMap_append

theorem callIndices_singleton {i : Instr} (h : i.callIndex? = none) : callIndices [i] = [] := by
  simp [callIndices, h]

theorem mem_callIndices {code : Code} {index : UInt16} : index ∈ code.callIndices ↔ .invokevirtual index ∈ code := by
  unfold callIndices
  rw [List.mem_filterMap]
  constructor
  · rintro ⟨i, hi, hindex⟩
    cases i with
    | invokevirtual index' =>
      cases hindex
      exact hi
    | _ => cases hindex
  · intro h
    exact ⟨_, h, rfl⟩

end Code

/-! ## Code without calls -/

namespace Lower

variable {code : Code} {slot : Nat}

theorem push_callIndices {n : Int} (h : push n = .ok code) : code.callIndices = [] := by
  unfold push at h
  split_ifs at h
  cases h
  rfl

theorem load_callIndices (h : load slot = .ok code) : code.callIndices = [] := by
  unfold load at h
  split_ifs at h <;> cases h <;> rfl

theorem store_callIndices (h : store slot = .ok code) : code.callIndices = [] := by
  unfold store at h
  split_ifs at h <;> cases h <;> rfl

theorem binaryInstr?_callIndex {op : BinaryOp} {i : Instr} (h : binaryInstr? op = some i) : i.callIndex? = none := by
  cases op <;> cases h <;> rfl

/-- a power of a base without calls has none -/
theorem unroll_callIndices {base : Code} {n : Int} (h : unroll base n = .ok code) (hbase : base.callIndices = []) :
    code.callIndices = [] := by
  have hcopies (k : Nat) : Code.callIndices (List.replicate k (base ++ [Instr.imul])).flatten = [] := by
    induction k with
    | zero => rfl
    | succ k ih =>
      rw [List.replicate_succ, List.flatten_cons, Code.callIndices_append, ih, Code.callIndices_append, hbase]
      rfl
  unfold unroll at h
  split_ifs at h
  · exact push_callIndices h
  · cases h
    rw [Code.callIndices_append, hbase, hcopies]
    rfl

end Lower

/-! ## Code of trees -/

namespace Emitted

variable {link : Linkage} {locals locals' : Locals}

/-- arithmetic that holds no call calls nothing -/
theorem Arithmetic.calls_of_callFree {t : Tree} {code : Code} (h : Arithmetic link locals t code)
    (hfree : t.callFree = true) : t.calls = [] := by
  cases h with
  | number => rfl
  | name => rfl
  | call => cases hfree
  | positive h => exact h.calls_of_callFree hfree
  | negated => rfl
  | negative h => exact h.calls_of_callFree hfree
  | power _ _ h _ => simp [Tree.calls, h.calls_of_callFree (Bool.and_eq_true_iff.1 hfree).1]
  | binary _ hl hr =>
    obtain ⟨hleft, hright⟩ := Bool.and_eq_true_iff.1 hfree
    simp [Tree.calls, hl.calls_of_callFree hleft, hr.calls_of_callFree hright]

/-- the calls of a code lead to these functions, one call for each and in this order -/
def CallsInOrder (link : Linkage) (functions : List Name) (code : Code) : Prop :=
  List.Forall₂ (fun f index => ∃ s, link.CallsTo f s index) functions code.callIndices

namespace CallsInOrder

variable {fs gs : List Name} {code code' last : Code}

theorem none (h : code.callIndices = []) : CallsInOrder link [] code := by
  unfold CallsInOrder
  rw [h]
  exact .nil

theorem append (h : CallsInOrder link fs code) (h' : CallsInOrder link gs code') :
    CallsInOrder link (fs ++ gs) (code ++ code') := by
  unfold CallsInOrder
  rw [Code.callIndices_append]
  exact List.rel_append h h'

/-- instructions that call nothing may follow -/
theorem append_none (h : CallsInOrder link fs code) (hlast : Code.callIndices last = []) :
    CallsInOrder link fs (code ++ last) := by
  have hboth := h.append (CallsInOrder.none hlast)
  rwa [List.append_nil] at hboth

theorem callIndices_eq_nil (h : CallsInOrder link [] code) : code.callIndices = [] :=
  List.forall₂_nil_left_iff.1 h

/-- every call leads to one of the functions -/
theorem of_mem (h : CallsInOrder link fs code) {index : UInt16} (hi : .invokevirtual index ∈ code) :
    ∃ f ∈ fs, ∃ s, link.CallsTo f s index := by
  obtain ⟨hlen, hall⟩ := List.forall₂_iff_get.1 h
  obtain ⟨k, hk, rfl⟩ := List.mem_iff_getElem.1 (Code.mem_callIndices.2 hi)
  exact ⟨fs[k], List.getElem_mem _, hall k (hlen ▸ hk) hk⟩

end CallsInOrder

mutual

theorem Value.callsInOrder {t : Tree} {code : Code} : Value link locals t code → CallsInOrder link t.calls code
  | .ident _ hload => .none (Lower.load_callIndices hload)
  | .call h _ => h.callsInOrder
  | .arithmetic h => h.callsInOrder

theorem Arithmetic.callsInOrder {t : Tree} {code : Code} :
    Arithmetic link locals t code → CallsInOrder link t.calls code
  | .number hpush => .none (Lower.push_callIndices hpush)
  | .name _ hload => .none (Lower.load_callIndices hload)
  | .call h _ => h.callsInOrder
  | .positive h => h.callsInOrder
  | .negated hpush => .none (Lower.push_callIndices hpush)
  | .negative h => h.callsInOrder.append_none rfl
  | .power hfree _ h hunroll => by
    have hcalls := h.callsInOrder
    rw [h.calls_of_callFree hfree] at hcalls
    rw [Tree.calls, Tree.calls, h.calls_of_callFree hfree]
    exact .none (Lower.unroll_callIndices hunroll hcalls.callIndices_eq_nil)
  | .binary hinstr hl hr =>
    (hl.callsInOrder.append hr.callsInOrder).append_none (Code.callIndices_singleton (Lower.binaryInstr?_callIndex hinstr))

theorem Call.callsInOrder {f : Name} {arguments : List Tree} {s : Signature} {code : Code} :
    Call link locals f arguments s code → CallsInOrder link (Tree.call f arguments).calls code
  | .mk hto _ h => h.callsInOrder.append (.cons ⟨s, hto⟩ .nil)

theorem Arguments.callsInOrder {trees : List Tree} {code : Code} :
    Arguments link locals trees code → CallsInOrder link (Tree.callsOfAll trees) code
  | .nil => .none rfl
  | .cons h h' => h.callsInOrder.append h'.callsInOrder

end

theorem Statement.callsInOrder {t : Tree} {code : Code} (h : Statement link locals t code locals') :
    CallsInOrder link t.calls code := by
  cases h with
  | declare h _ hstore => exact h.callsInOrder.append_none (Lower.store_callIndices hstore)
  | assign _ h hstore => exact h.callsInOrder.append_none (Lower.store_callIndices hstore)
  | addAssign _ h hload hstore =>
    have hloaded := h.callsInOrder.append_none (Lower.load_callIndices hload)
    exact (hloaded.append_none rfl).append_none (Lower.store_callIndices hstore)
  | ret h => exact h.callsInOrder.append_none rfl
  | call h => exact h.callsInOrder

/-- the code of a body calls what its statements call -/
theorem Body.callsInOrder {trees : List Tree} {code : Code} (h : Body link locals trees code locals') :
    CallsInOrder link (Tree.callsOfAll trees) code := by
  induction h with
  | nil => exact .none rfl
  | cons hfirst _ ih => exact hfirst.callsInOrder.append ih

end Emitted

end StackLang
