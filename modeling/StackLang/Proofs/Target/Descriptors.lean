/-
What a descriptor tells.

A descriptor lists one letter for each parameter and one for the result. `descriptorShape?` reads from it how many
operands a call takes and whether it leaves one; of the descriptor of a signature it reads the signature's arity and
whether an integer is returned.
-/
import Mathlib.Tactic
import StackLang.Proofs.Steps
import StackLang.Signature

namespace StackLang

/-- the number of parameters in a descriptor, and whether it ends in the letter of integers -/
def descriptorShape? (descriptor : String) : Option (Nat × Bool) :=
  match descriptor.toList with
  | '(' :: rest =>
    let letters := rest.takeWhile (· ≠ ')')
    match rest.drop letters.length with
    | [')', 'I'] => some (letters.length, true)
    | [')', 'V'] => some (letters.length, false)
    | _ => none
  | _ => none

theorem TypeWord.letter_ne {t : Name} {c : Char} (h : TypeWord.letter t = .ok c) : c ≠ ')' := by
  unfold TypeWord.letter at h
  split_ifs at h <;> cases h <;> decide

/-- the letters of parameters, one for each -/
theorem letters_of_mapM {parameters : List Parameter} {letters : List Char}
    (h : parameters.mapM (fun p => TypeWord.letter p.type) = .ok letters) :
    letters.length = parameters.length ∧ ∀ c ∈ letters, c ≠ ')' := by
  induction parameters generalizing letters with
  | nil =>
    cases h
    simp
  | cons p rest ih =>
    rw [List.mapM_cons] at h
    obtain ⟨c, hc, h⟩ := Step.check_bind_eq_ok.1 h
    obtain ⟨cs, hcs, h⟩ := Step.check_bind_eq_ok.1 h
    cases h
    obtain ⟨hlen, hall⟩ := ih hcs
    exact ⟨by rw [List.length_cons, List.length_cons, hlen],
      List.forall_mem_cons.2 ⟨TypeWord.letter_ne hc, hall⟩⟩

/-- a descriptor tells the arity of its signature and whether an integer is returned -/
theorem descriptorShape?_descriptor {s : Signature} {descriptor : String} (h : s.descriptor = .ok descriptor) :
    descriptorShape? descriptor = some (s.arity, decide (s.returns = TypeWord.int)) := by
  obtain ⟨letters, hletters, h⟩ := Step.check_bind_eq_ok.1 h
  obtain ⟨r, hr, h⟩ := Step.check_bind_eq_ok.1 h
  cases h
  obtain ⟨hlen, hall⟩ := letters_of_mapM hletters
  have htake (r : Char) : (letters ++ [')', r]).takeWhile (· ≠ ')') = letters := by
    rw [List.takeWhile_append_of_pos (by simpa using hall)]
    simp
  rw [Signature.arity, ← hlen]
  unfold TypeWord.letter at hr
  split_ifs at hr with hint hvoid
  · cases hr
    rw [decide_eq_true hint]
    simp only [descriptorShape?, String.toList_ofList, List.cons_append, htake, List.drop_left]
  · cases hr
    rw [decide_eq_false hint]
    simp only [descriptorShape?, String.toList_ofList, List.cons_append, htake, List.drop_left]

end StackLang
