/-
Variables and their slots.

Variables have the slots 0, 1, 2 and so on in the order of their declaration (`Locals.Numbered`), parameters first; so
each has a slot to itself, below the number of variables.
-/
import Mathlib.Tactic
import StackLang.Lowering.Function
import StackLang.Proofs.Steps

namespace StackLang

namespace Locals

variable {locals locals' : Locals} {x : Name} {v : Variable}

theorem entry_of_find? (h : locals.find? x = some v) : ∃ i : Nat, locals.entries[i]? = some (x, v) := by
  obtain ⟨before, after, hentries, _⟩ := List.lookup_eq_some_iff.1 h
  exact List.mem_iff_getElem?.1 (hentries ▸ by simp)

/-- a declared variable is found, and so are those before it -/
theorem find?_declare {type : Name} (h : locals.declare x type = .ok (v, locals')) (y : Name) :
    locals'.find? y = if y = x then some v else locals.find? y := by
  obtain ⟨hfresh, _, hentries⟩ := declare_eq_ok h
  unfold find? at hfresh ⊢
  rw [hentries, List.lookup_append]
  by_cases hy : y = x
  · rw [if_pos hy, hy, hfresh]
    simp
  · rw [if_neg hy]
    simp [List.lookup_cons, beq_eq_false_iff_ne.2 hy]

/-- variables have slots in order -/
def Numbered (locals : Locals) : Prop :=
  ∀ (i : Nat) (x : Name) (v : Variable), locals.entries[i]? = some (x, v) → v.slot = i

theorem Numbered.slot_lt (h : locals.Numbered) (hx : locals.find? x = some v) : v.slot < locals.count := by
  obtain ⟨i, hi⟩ := entry_of_find? hx
  rw [h i x v hi]
  exact (List.getElem?_eq_some_iff.1 hi).1

/-- a variable has its slot to itself -/
theorem Numbered.eq_of_slot (h : locals.Numbered) {y : Name} {u : Variable} (hx : locals.find? x = some v)
    (hy : locals.find? y = some u) (hslot : u.slot = v.slot) : y = x := by
  obtain ⟨i, hi⟩ := entry_of_find? hx
  obtain ⟨j, hj⟩ := entry_of_find? hy
  have hij : j = i := (h j y u hj).symm.trans (hslot.trans (h i x v hi))
  rw [hij, hi] at hj
  exact (Prod.mk.inj (Option.some.inj hj)).1.symm

/-- a declared variable has the next slot -/
theorem Numbered.declare (h : locals.Numbered) {type : Name} (hx : locals.declare x type = .ok (v, locals')) :
    locals'.Numbered := by
  obtain ⟨_, rfl, hentries⟩ := declare_eq_ok hx
  intro i y u hi
  rw [hentries] at hi
  rcases Nat.lt_or_ge i locals.entries.length with hlt | hge
  · rw [List.getElem?_append_left hlt] at hi
    exact h i y u hi
  · rw [List.getElem?_append_right hge] at hi
    obtain ⟨hzero, hentry⟩ := List.getElem?_eq_some_iff.1 hi
    have hi' : i = locals.count := by
      simp only [List.length_singleton] at hzero
      unfold count
      omega
    simp only [List.getElem_singleton] at hentry
    rw [hi', ← (Prod.mk.inj hentry).2]

end Locals

theorem Lower.declareAll_numbered {parameters : List Parameter} {locals locals' : Locals} (hnumbered : locals.Numbered)
    (h : parameters.foldlM (fun l p => return (← l.declare p.name p.type).2) locals =
      (.ok locals' : Except Violation Locals)) :
    locals'.Numbered ∧ locals'.count = locals.count + parameters.length := by
  induction parameters generalizing locals with
  | nil =>
    cases h
    exact ⟨hnumbered, rfl⟩
  | cons p rest ih =>
    rw [List.foldlM_cons] at h
    obtain ⟨next, hnext, h⟩ := Step.check_bind_eq_ok.1 h
    obtain ⟨⟨w, locals₁⟩, hdeclare, heq⟩ := Step.check_bind_eq_ok.1 hnext
    cases heq
    obtain ⟨hnumbered', hcount⟩ := ih (hnumbered.declare hdeclare) h
    refine ⟨hnumbered', ?_⟩
    rw [hcount, Locals.count_declare hdeclare, List.length_cons]
    omega

/-- parameters have the first slots -/
theorem Lower.parameterLocals_numbered {parameters : List Parameter} {locals : Locals}
    (h : parameterLocals parameters = .ok locals) : locals.Numbered ∧ locals.count = parameters.length := by
  have hempty : Locals.empty.Numbered := by
    intro i x v hi
    cases hi
  obtain ⟨hnumbered, hcount⟩ := declareAll_numbered hempty h
  exact ⟨hnumbered, hcount.trans (Nat.zero_add _)⟩

end StackLang
