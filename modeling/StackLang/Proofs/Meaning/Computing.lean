/-
What code does on the machine, compared with an evaluation.

`Follows image s r next`: when an evaluation gave a result, the machine comes from `s` to the state that goes with the
result, and when it was trapped, the machine halts in the same trap; in both cases the same was printed. `Computes`
says this of code that stands in front of any other code: pieces of code one behind the other compute what their
evaluations compute one after the other (`Computes.seq`). Each instruction computes what it stands for, and an
unrolled power computes the power, provided its base prints nothing (`unroll_computes`).
-/
import StackLang.Lowering.Value
import StackLang.Proofs.Meaning.Machine

namespace StackLang

namespace Machine

variable {image : Image} {callers : List Activation} {top : Activation} {α β : Type}

/-! ## Following an evaluation -/

/-- from a state, the machine comes to the same end as an evaluation -/
def Follows (image : Image) (s : State) (evaluated : EStateM.Result Trap (List Int32) α)
    (next : α → List Int32 → State) : Prop :=
  match evaluated with
  | .ok a printed => Reaches image s (next a printed)
  | .error trap printed => trap ≠ .stuck ∧ Reaches image s (.halted (.trapped trap) printed)

theorem Follows.after {s s' : State} {r : EStateM.Result Trap (List Int32) α} {next : α → List Int32 → State}
    (h : Reaches image s s') (h' : Follows image s' r next) : Follows image s r next := by
  cases r with
  | ok a printed => exact h.trans h'
  | error trap printed => exact ⟨h'.1, h.trans h'.2⟩

theorem Follows.bind {s : State} {x : Run α} {f : α → Run β} {printed : List Int32} {mid : α → List Int32 → State}
    {next : β → List Int32 → State} (h : Follows image s (x printed) mid)
    (h' : ∀ a printed', x printed = .ok a printed' → Follows image (mid a printed') (f a printed') next) :
    Follows image s ((x >>= f) printed) next := by
  cases hx : x printed with
  | ok a printed' =>
    rw [hx] at h
    rw [Step.bind_of_ok hx]
    exact .after h (h' a printed' hx)
  | error trap printed' =>
    rw [hx] at h
    rw [Step.bind_of_error hx]
    exact h

/-- code that does what an evaluation does, and then goes on with the code behind it -/
def Computes (image : Image) (callers : List Activation) (code : Code) (top : Activation) (x : Run α)
    (after : α → Activation) : Prop :=
  ∀ printed, Follows image (.running (top.before code) callers printed) (x printed)
    fun a printed => .running (after a) callers printed

/-- code in front of code that does what comes after an evaluation -/
theorem Computes.follows {code code' : Code} {x : Run α} {f : α → Run β} {next : β → List Int32 → State}
    {printed : List Int32} (mid : α → Activation)
    (h : Computes image callers code (top.before code') x fun a => (mid a).before code')
    (h' : ∀ a printed', (∃ p p', x p = .ok a p') →
      Follows image (.running ((mid a).before code') callers printed') (f a printed') next) :
    Follows image (.running (top.before (code ++ code')) callers printed) ((x >>= f) printed) next := by
  have hcode : top.before (code ++ code') = (top.before code').before code := by
    simp [Activation.before, List.append_assoc]
  rw [hcode]
  refine (h printed).bind ?_
  intro a printed' hx
  exact h' a printed' ⟨printed, printed', hx⟩

/-- one piece of code behind the other -/
theorem Computes.seq {code code' : Code} {x : Run α} {f : α → Run β} {after : β → Activation} (mid : α → Activation)
    (h : Computes image callers code (top.before code') x fun a => (mid a).before code')
    (h' : ∀ a, (∃ p p', x p = .ok a p') → Computes image callers code' (mid a) (f a) after) :
    Computes image callers (code ++ code') top (x >>= f) after :=
  fun _ => h.follows mid fun a printed' hx => h' a hx printed'

/-- nothing more is to be done for what follows -/
theorem Computes.finish {code : Code} {x : Run α} {f : α → Run β} {mid : α → Activation} {after : β → Activation}
    (h : Computes image callers code top x mid)
    (h' : ∀ a, (∃ p p', x p = .ok a p') → ∃ b, f a = pure b ∧ mid a = after b) :
    Computes image callers code top (x >>= f) after := by
  intro printed
  refine (h printed).bind ?_
  intro a printed' hx
  obtain ⟨b, hf, hmid⟩ := h' a ⟨printed, printed', hx⟩
  rw [hf, hmid]
  exact Reaches.refl _

/-- one step of the machine is enough -/
theorem Computes.of_step {i : Instr} {a : α} {after : α → Activation}
    (h : ∀ printed, perform image i top callers printed = .running (after a) callers printed) :
    Computes image callers [i] top (Pure.pure a) after := by
  intro printed
  have hstep : step image (.running (top.before [i]) callers printed) = .running (after a) callers printed := h printed
  exact ⟨1, hstep⟩

/-! ## Instructions -/

theorem push_computes {n : Int} {code : Code} (h : Lower.push n = .ok code) :
    Computes image callers code top (Pure.pure (Int32.ofInt n)) top.push := by
  unfold Lower.push at h
  split_ifs at h with hsmall
  cases h
  refine .of_step fun printed => ?_
  have hvalue : (((n + 1).toNat : Int) - 1) = n := by omega
  change State.running (top.push (Int32.ofInt (((n + 1).toNat : Int) - 1))) callers printed = _
  rw [hvalue]

theorem load_computes {slot : Nat} {code : Code} (h : Lower.load slot = .ok code) {v : Int32}
    (hv : top.locals slot = some v) : Computes image callers code top (Pure.pure v) top.push := by
  have hload (printed : List Int32) : load slot top callers printed = .running (top.push v) callers printed := by
    rw [load, hv]
  unfold Lower.load at h
  split_ifs at h with hshort hbyte
  · cases h
    exact .of_step hload
  · cases h
    have hslot : (UInt8.ofNat slot).toNat = slot := by simpa using hbyte
    rw [← hslot] at hload
    exact .of_step hload

theorem store_computes {slot : Nat} {code : Code} (h : Lower.store slot = .ok code) (top : Activation) (v : Int32) :
    Computes image callers code (top.push v) (Pure.pure v) (top.store slot) := by
  unfold Lower.store at h
  split_ifs at h with hshort hbyte
  · cases h
    exact .of_step fun printed => rfl
  · cases h
    have hslot : (UInt8.ofNat slot).toNat = slot := by simpa using hbyte
    have hstore (printed : List Int32) : perform image (.istore (UInt8.ofNat slot)) (top.push v) callers printed =
        .running (top.store (UInt8.ofNat slot).toNat v) callers printed := rfl
    rw [hslot] at hstore
    exact .of_step hstore

theorem negate_computes (top : Activation) (v : Int32) :
    Computes image callers [.ineg] (top.push v) (Pure.pure (-v)) top.push :=
  .of_step fun _ => rfl

theorem divide_computes (top : Activation) (a b : Int32) :
    Computes image callers [.idiv] ((top.push a).push b) (BinaryOp.div.apply a b) top.push := by
  rw [BinaryOp.apply]
  by_cases hb : b = 0
  · rw [if_pos hb]
    intro printed
    have hdivide : divide a b top callers printed = .halted (.trapped .divisionByZero) printed := by
      rw [divide, if_pos hb]
    exact ⟨by decide, 1, hdivide⟩
  · rw [if_neg hb]
    refine .of_step fun printed => ?_
    have hdivide : divide a b top callers printed = .running (top.push (a / b)) callers printed := by
      rw [divide, if_neg hb]
    exact hdivide

theorem binary_computes {op : BinaryOp} {i : Instr} (h : Lower.binaryInstr? op = some i) (top : Activation)
    (a b : Int32) : Computes image callers [i] ((top.push a).push b) (op.apply a b) top.push := by
  cases op with
  | add => cases h; exact .of_step fun _ => rfl
  | sub => cases h; exact .of_step fun _ => rfl
  | mul => cases h; exact .of_step fun _ => rfl
  | div => cases h; exact divide_computes top a b
  | pow => cases h
  | other word => cases h

end Machine

/-! ## Powers -/

/-- an evaluation that prints nothing, and comes to the same value whatever was printed -/
def Run.Quiet {α : Type} (x : Run α) : Prop :=
  ∀ p a p', x p = .ok a p' → ∀ q, x q = .ok a q

namespace Run.Quiet

variable {α β : Type}

theorem pure (a : α) : Quiet (Pure.pure a) := by
  intro p b p' h q
  cases h
  rfl

theorem throw (trap : Trap) : Quiet (MonadExcept.throw trap : Run α) := by
  intro p b p' h
  cases h

theorem bind {x : Run α} {f : α → Run β} (hx : Quiet x) (hf : ∀ a, Quiet (f a)) : Quiet (x >>= f) := by
  intro p b p' h q
  obtain ⟨a, p₁, ha, hb⟩ := Step.bind_eq_ok.1 h
  rw [Step.bind_of_ok (hx p a p₁ ha q)]
  exact hf a p₁ b p' hb q

theorem required (v : Option Int32) : Quiet (StackLang.required v) := by
  cases v with
  | some v => exact pure v
  | none => exact throw _

theorem apply (op : BinaryOp) (a b : Int32) : Quiet (op.apply a b) := by
  cases op with
  | div =>
    rw [BinaryOp.apply]
    split_ifs
    · exact throw _
    · exact pure _
  | add => exact pure _
  | sub => exact pure _
  | mul => exact pure _
  | pow => exact throw _
  | other word => exact throw _

end Run.Quiet

namespace Machine

variable {image : Image} {callers : List Activation} {top : Activation}

/-- code that pushes a value, repeated with a multiplication after it each time -/
theorem repeat_computes {code : Code} {v : Int32}
    (hcode : ∀ top', top'.locals = top.locals → Computes image callers code top' (pure v) top'.push) (k : Nat)
    (acc : Int32) :
    Computes image callers (List.replicate k (code ++ [Instr.imul])).flatten (top.push acc) (pure (acc * v ^ k))
      top.push := by
  induction k generalizing acc with
  | zero =>
    intro printed
    rw [Int32.pow_zero, Int32.mul_one]
    exact Reaches.refl _
  | succ k ih =>
    rw [List.replicate_succ, List.flatten_cons]
    -- once more, in front of whatever is left to repeat
    have honce (rest : Code) : Computes image callers (code ++ [Instr.imul]) ((top.push acc).before rest)
        (pure v >>= BinaryOp.mul.apply acc) fun acc => (top.push acc).before rest := by
      refine .seq ((top.push acc).before rest).push (hcode _ rfl) ?_
      intro v _
      have hmul : Lower.binaryInstr? .mul = some .imul := rfl
      exact binary_computes hmul (top.before rest) acc v
    have hall := Computes.seq top.push (honce _) fun acc' _ => ih acc'
    have hpow : acc * v ^ (k + 1) = acc * v * v ^ k := by
      rw [Int32.pow_succ, Int32.mul_comm (v ^ k), Int32.mul_assoc]
    rw [hpow]
    exact hall

/-- an unrolled power has the value of the power -/
theorem unroll_computes {code unrolled : Code} {n : Int} (hn : 0 ≤ n) (h : Lower.unroll code n = .ok unrolled)
    {x : Run Int32} (hquiet : x.Quiet)
    (hcode : ∀ top', top'.locals = top.locals → Computes image callers code top' x top'.push) :
    Computes image callers unrolled top (if n = 0 then pure 1 else do return (← x) ^ n.toNat) top.push := by
  unfold Lower.unroll at h
  split_ifs at h with hzero hsize
  · rw [if_pos hzero]
    exact push_computes h
  · rw [if_neg hzero]
    cases h
    refine .seq top.push (hcode _ rfl) ?_
    rintro v ⟨p, p', hv⟩
    -- the base has its value again each time it is repeated
    have hagain : ∀ top', top'.locals = top.locals → Computes image callers code top' (pure v) top'.push := by
      intro top' hlocals printed
      have hrun := hcode top' hlocals printed
      rw [hquiet p v p' hv printed] at hrun
      exact hrun
    have hpow : v ^ n.toNat = v * v ^ (n - 1).toNat := by
      have hsucc : n.toNat = (n - 1).toNat + 1 := by omega
      rw [hsucc, Int32.pow_succ, Int32.mul_comm]
    rw [hpow]
    exact repeat_computes hagain _ v

end Machine

end StackLang
