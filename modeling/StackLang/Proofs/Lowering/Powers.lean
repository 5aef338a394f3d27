/-
How far powers are unrolled.

Arithmetic has code that is never empty (`arithmetic_ne_nil`). So each copy of a base takes at least a byte, and the
bound on the bytes of all copies bounds the exponent too, whatever the base is: a power inside of it is bounded by its
own copies in turn. Where the search finds no call, nothing in the base calls or adds to the pool
(`arithmetic_of_callFree`), and its copies do not either (`powers_unroll_within_bounds`).
-/
import StackLang.Proofs.Lowering.Calls
import StackLang.Proofs.Lowering.Decides

namespace StackLang

/-- so many copies of a code, with a multiplication behind each copy but the first -/
def Code.copies (base : Code) (n : Nat) : Code :=
  ((List.replicate n base).mapIdx fun i copy => if i = 0 then copy else copy ++ [.imul]).flatten

example : Code.copies [.iloadShort 0] 3 = [.iloadShort 0, .iloadShort 0, .imul, .iloadShort 0, .imul] := by decide

namespace Code

theorem copies_succ (base : Code) (n : Nat) :
    base.copies (n + 1) = base ++ (List.replicate n (base ++ [Instr.imul])).flatten := by
  have hrest : (List.replicate n base).mapIdx (fun i copy => if i + 1 = 0 then copy else copy ++ [Instr.imul]) =
      List.replicate n (base ++ [Instr.imul]) := by
    apply List.ext_getElem
    · simp
    · intro i hi hi'
      simp
  rw [copies, List.replicate_succ, List.mapIdx_cons, List.flatten_cons, hrest, if_pos rfl]

theorem size_copies (base : Code) (n : Nat) : (base.copies n).size = n * base.size + (n - 1) := by
  cases n with
  | zero => simp [copies, size, encode]
  | succ n =>
    have hcopy : Code.size (base ++ [Instr.imul]) = base.size + 1 := Lower.size_append base [Instr.imul]
    rw [copies_succ, Lower.size_append, Lower.size_repeat, hcopy, Nat.add_sub_cancel, Nat.succ_mul, Nat.mul_succ]
    omega

theorem size_pos {code : Code} (h : code ≠ []) : 0 < code.size := by
  obtain ⟨i, rest, rfl⟩ := List.exists_cons_of_ne_nil h
  simp [size, encode, Instr.encode]

end Code

namespace Lower

variable {frame : Frame} {depth : Nat} {m m' : Module} {code base : Code}

/-! ## Code is there -/

theorem push_ne_nil {n : Int} (h : push n = .ok code) : code ≠ [] := by
  unfold push at h
  split_ifs at h
  cases h
  exact List.cons_ne_nil _ _

theorem load_ne_nil {slot : Nat} (h : load slot = .ok code) : code ≠ [] := by
  unfold load at h
  split_ifs at h <;> cases h <;> exact List.cons_ne_nil _ _

/-- a call ends with its instruction, whatever stands in the place of the call -/
theorem operandCall_ne_nil {value : Tree → Lower (Code × Name)} {t : Tree}
    (h : operandCall frame value t m = .ok code m') : code ≠ [] := by
  obtain ⟨f, m₁, -, h⟩ := Step.bind_eq_ok.1 h
  cases t with
  | call | define =>
    obtain ⟨⟨code', s⟩, m₂, hcall, hcode⟩ := Step.bind_eq_ok.1 h
    obtain ⟨rfl, -⟩ := Step.pure_eq_ok.1 hcode
    obtain ⟨-, -, argumentCode, _, _, index, -, -, -, rfl⟩ := call_eq_ok.1 hcall
    exact List.append_ne_nil_of_right_ne_nil _ (List.cons_ne_nil _ _)
  | _ => cases h

theorem unroll_ne_nil {n : Int} (h : unroll base n = .ok code) (hbase : base ≠ []) : code ≠ [] := by
  unfold unroll at h
  split_ifs at h
  · exact push_ne_nil h
  · cases h
    exact List.append_ne_nil_of_left_ne_nil hbase _

/-- arithmetic pushes a value, so there is code that pushes it -/
theorem arithmetic_ne_nil {t : Tree} (h : arithmetic frame depth t m = .ok code m') : code ≠ [] := by
  induction depth generalizing t m m' code with
  | zero => cases h
  | succ depth ih =>
    cases t with
    | number n => exact push_ne_nil (check_eq_ok.1 h).1
    | name x =>
      obtain ⟨v, -, -, hload, -⟩ := arithmetic_name_eq_ok.1 h
      exact load_ne_nil hload
    | callOperand t => exact operandCall_ne_nil h
    | positive t => exact ih h
    | negative t =>
      rcases arithmetic_negative_eq_ok.1 h with ⟨hliteral, -⟩ | ⟨-, inner, -, rfl⟩
      · obtain ⟨n, -, hpush⟩ := negatedLiteral?_eq_some hliteral
        exact push_ne_nil hpush
      · exact List.append_ne_nil_of_right_ne_nil _ (List.cons_ne_nil _ _)
    | binary op l r =>
      by_cases hop : op = .pow
      · subst hop
        obtain ⟨n, inner, m₁, -, -, hinner, hunroll⟩ := arithmetic_power_eq_ok.1 h
        exact unroll_ne_nil hunroll (ih hinner)
      · obtain ⟨i, left, right, m₁, -, -, -, rfl⟩ := (arithmetic_binary_eq_ok hop).1 h
        exact List.append_ne_nil_of_right_ne_nil _ (List.cons_ne_nil _ _)
    | _ => cases h

/-! ## Code without calls -/

/-- where the search finds no call, code calls nothing and the module stays as it is. Calls in places where the search
does not look, as operands that are no operands of arithmetic, have no code. -/
theorem arithmetic_of_callFree {t : Tree} (h : arithmetic frame depth t m = .ok code m') (hfree : t.callFree = true) :
    m' = m ∧ code.callIndices = [] := by
  induction depth generalizing t m m' code with
  | zero => cases h
  | succ depth ih =>
    cases t with
    | number n =>
      obtain ⟨hpush, rfl⟩ := check_eq_ok.1 h
      exact ⟨rfl, push_callIndices hpush⟩
    | name x =>
      obtain ⟨v, -, -, hload, rfl⟩ := arithmetic_name_eq_ok.1 h
      exact ⟨rfl, load_callIndices hload⟩
    | callOperand t => cases hfree
    | positive t => exact ih h hfree
    | negative t =>
      rcases arithmetic_negative_eq_ok.1 h with ⟨hliteral, rfl⟩ | ⟨-, inner, hinner, rfl⟩
      · obtain ⟨n, -, hpush⟩ := negatedLiteral?_eq_some hliteral
        exact ⟨rfl, push_callIndices hpush⟩
      · obtain ⟨rfl, hnone⟩ := ih hinner hfree
        refine ⟨rfl, ?_⟩
        rw [Code.callIndices_append, hnone]
        rfl
    | binary op l r =>
      obtain ⟨hl, hr⟩ := Bool.and_eq_true_iff.1 hfree
      by_cases hop : op = .pow
      · subst hop
        obtain ⟨n, inner, m₁, -, hsearch, hinner, hunroll⟩ := arithmetic_power_eq_ok.1 h
        obtain ⟨rfl, -⟩ := hasCall_eq_ok hsearch
        obtain ⟨rfl, hcalls⟩ := ih hinner hl
        exact ⟨rfl, unroll_callIndices hunroll hcalls⟩
      · obtain ⟨i, left, right, m₁, hinstr, hleft, hright, rfl⟩ := (arithmetic_binary_eq_ok hop).1 h
        obtain ⟨rfl, hnoneLeft⟩ := ih hleft hl
        obtain ⟨rfl, hnoneRight⟩ := ih hright hr
        have hnoneLast := Code.callIndices_singleton (binaryInstr?_callIndex hinstr)
        refine ⟨rfl, ?_⟩
        rw [Code.callIndices_append, Code.callIndices_append, hnoneLeft, hnoneRight, hnoneLast]
        rfl
    | _ => cases h

/-! ## Powers -/

/-- the copies are made exactly if together they keep to the bound; the multiplications are not counted -/
theorem unroll_natural_eq_ok {n : Nat} :
    unroll base n = .ok code ↔ n * base.size ≤ 65535 ∧ code = if n = 0 then [.iconst 2] else base.copies n := by
  cases n with
  | zero =>
    have hone : unroll base (0 : Nat) = .ok [.iconst 2] := rfl
    rw [hone, if_pos rfl, Nat.zero_mul, Except.ok.injEq, eq_comm]
    exact (and_iff_right (Nat.zero_le _)).symm
  | succ n =>
    have hguard : (base.size : Int) * ((n + 1 : Nat) : Int) > maxCodeSize ↔ ¬ (n + 1) * base.size ≤ 65535 := by
      rw [← Nat.cast_mul, gt_iff_lt, Nat.cast_lt, Nat.mul_comm, Nat.not_le]
      rfl
    have hcount : (((n + 1 : Nat) : Int) - 1).toNat = n := by omega
    rw [unroll, if_neg (by omega), if_neg n.succ_ne_zero, Code.copies_succ, hcount]
    by_cases hfits : (n + 1) * base.size ≤ 65535
    · rw [if_neg (by rw [hguard]; exact not_not.2 hfits)]
      simp [hfits, eq_comm]
    · rw [if_pos (hguard.2 hfits)]
      simp [hfits]

/-- the code of a power, given the code of its base -/
structure Unrolled (base : Code) (n : Nat) (code : Code) : Prop where
  zeroth : n = 0 → code = [.iconst 2]
  copied : 0 < n → code = base.copies n
  size : 0 < n → code.size = n * base.size + (n - 1)
  guarded : n * base.size ≤ 65535
  exponent : n ≤ 65535
  bounded : code.size ≤ 131069
  callFree : ∀ index, .invokevirtual index ∉ code

theorem unrolled_of_unroll {n : Nat} (h : unroll base n = .ok code) (hbase : base ≠ [])
    (hcalls : base.callIndices = []) : Unrolled base n code := by
  obtain ⟨hguard, hcode⟩ := unroll_natural_eq_ok.1 h
  -- no copy is empty, so there are no more copies than bytes in them
  have hexponent : n ≤ 65535 := (Nat.le_mul_of_pos_right n (Code.size_pos hbase)).trans hguard
  have hcopied (hn : 0 < n) : code = base.copies n := by rw [hcode, if_neg hn.ne']
  have hzeroth (hn : n = 0) : code = [.iconst 2] := by rw [hcode, if_pos hn]
  have hsize (hn : 0 < n) : code.size = n * base.size + (n - 1) := by rw [hcopied hn, Code.size_copies]
  refine ⟨hzeroth, hcopied, hsize, hguard, hexponent, ?_, ?_⟩
  · rcases Nat.eq_zero_or_pos n with hn | hn
    · rw [hzeroth hn]
      decide
    · rw [hsize hn]
      omega
  · intro index hindex
    have hnone := unroll_callIndices h hcalls
    rw [← Code.mem_callIndices, hnone] at hindex
    cases hindex

theorem Unrolled.unroll {n : Nat} (h : Unrolled base n code) : unroll base n = .ok code := by
  refine unroll_natural_eq_ok.2 ⟨h.guarded, ?_⟩
  split_ifs with hn
  · exact h.zeroth hn
  · exact h.copied (Nat.pos_of_ne_zero hn)

/-- **The guard bounds the unrolling.** Arithmetic that is lowered has code. A power with a literal exponent that is not
negative is lowered exactly if its base is, without calls and within the guard on all copies; it becomes the copies, or
a one. However deeply powers nest in the base, this bounds the exponent and the size too, nothing is called, and the
module stays as it is. -/
theorem powers_unroll_within_bounds (frame : Frame) (depth : Nat) (m m' : Module) (code : Code) :
    (∀ t, arithmetic frame depth t m = .ok code m' → code ≠ []) ∧
      ∀ (base : Tree) (n : Nat),
        arithmetic frame (depth + 1) (.binary .pow base (.number n)) m = .ok code m' ↔
          m' = m ∧ hasCall depth base m = .ok false m ∧
            ∃ inner, arithmetic frame depth base m = .ok inner m ∧ Unrolled inner n code := by
  refine ⟨fun t h => arithmetic_ne_nil h, fun base n => ?_⟩
  rw [arithmetic_power_eq_ok]
  constructor
  · rintro ⟨_, inner, m₁, hn, hsearch, hinner, hunroll⟩
    cases hn
    obtain ⟨rfl, hfree⟩ := hasCall_eq_ok hsearch
    obtain ⟨rfl, hcalls⟩ := arithmetic_of_callFree hinner (hfree rfl)
    exact ⟨rfl, hsearch, inner, hinner, unrolled_of_unroll hunroll (arithmetic_ne_nil hinner) hcalls⟩
  · rintro ⟨rfl, hsearch, inner, hinner, hunrolled⟩
    exact ⟨n, inner, m', rfl, hsearch, hinner, hunrolled.unroll⟩

def singleVariable : Frame :=
  ⟨.initial, ⟨[("x", ⟨0, TypeWord.int⟩)]⟩⟩

/-- the cube of a square -/
theorem nested_power_unrolled :
    let square : Tree := .binary .pow (.name "x") (.number 2)
    let m : Module := .empty "Main" "base/Object"
    ∃ code, arithmetic singleVariable 3 (.binary .pow square (.number 3)) m = .ok code m ∧ code ≠ [] ∧
      ∃ inner, arithmetic singleVariable 2 square m = .ok inner m ∧ Unrolled inner 3 code := by
  intro square m
  have hlowered : arithmetic singleVariable 3 (.binary .pow square (.number 3)) m = .ok
      [.iloadShort 0, .iloadShort 0, .imul, .iloadShort 0, .iloadShort 0, .imul, .imul, .iloadShort 0, .iloadShort 0,
        .imul, .imul] m := rfl
  have hcode := (powers_unroll_within_bounds singleVariable 3 m m _).1 _ hlowered
  obtain ⟨-, -, hinner⟩ := ((powers_unroll_within_bounds singleVariable 2 m m _).2 square 3).1 hlowered
  exact ⟨_, hlowered, hcode, hinner⟩

end Lower

end StackLang
