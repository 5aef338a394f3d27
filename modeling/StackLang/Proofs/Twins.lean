/-
Two steps side by side.

Two checks agree (`Agree`) if both pass, with related results, or both fail with the same fault. Two steps are twins
(`Twins`) if they so agree from related states and leave related states behind. Twins are put together as steps are: one
after the other, along a list, around a check. A step that is its own twin does not depend on what related states differ
in.

A step is another one up to a sort of faults (`UpTo`) if from every state it ends as the other does, in result and
state, or is lost to a fault of that sort. A step with fewer means is so related to one with more.
-/
import Mathlib.Tactic
import StackLang.Proofs.Steps

namespace StackLang.Step

variable {ε δ σ τ α β γ κ : Type}

/-! ## Checks -/

/-- both checks pass with related results, or both fail with one fault -/
def Agree (Q : α → β → Prop) (e : Except ε α) (e' : Except ε β) : Prop :=
  (∃ a b, e = .ok a ∧ e' = .ok b ∧ Q a b) ∨ ∃ fault, e = .error fault ∧ e' = .error fault

namespace Agree

variable {Q : α → β → Prop} {P : γ → κ → Prop} {e : Except ε α} {e' : Except ε β}

theorem same (e : Except ε α) : Agree Eq e e := by
  cases e with
  | ok a => exact .inl ⟨a, a, rfl, rfl, rfl⟩
  | error fault => exact .inr ⟨fault, rfl, rfl⟩

theorem imp {Q' : α → β → Prop} (h : Agree Q e e') (hQ : ∀ a b, Q a b → Q' a b) : Agree Q' e e' := by
  rcases h with ⟨a, b, ha, hb, hab⟩ | hfails
  · exact .inl ⟨a, b, ha, hb, hQ a b hab⟩
  · exact .inr hfails

theorem bind {f : α → Except ε γ} {g : β → Except ε κ} (h : Agree Q e e') (hf : ∀ a b, Q a b → Agree P (f a) (g b)) :
    Agree P (e >>= f) (e' >>= g) := by
  rcases h with ⟨a, b, rfl, rfl, hab⟩ | ⟨fault, rfl, rfl⟩
  · exact hf a b hab
  · exact .inr ⟨fault, rfl, rfl⟩

/-- the same other wording on both sides -/
theorem mapError (w : ε → δ) (h : Agree Q e e') : Agree Q (e.mapError w) (e'.mapError w) := by
  rcases h with ⟨a, b, rfl, rfl, hab⟩ | ⟨fault, rfl, rfl⟩
  · exact .inl ⟨a, b, rfl, rfl, hab⟩
  · exact .inr ⟨w fault, rfl, rfl⟩

/-- checks along related lists -/
theorem mapM {T : α → β → Prop} {f : α → Except ε γ} {g : β → Except ε κ} {as : List α} {bs : List β}
    (h : List.Forall₂ T as bs) (hf : ∀ a b, T a b → Agree P (f a) (g b)) :
    Agree (List.Forall₂ P) (as.mapM f) (bs.mapM g) := by
  induction h with
  | nil => exact .inl ⟨[], [], rfl, rfl, .nil⟩
  | cons hab _ ih =>
    rw [List.mapM_cons, List.mapM_cons]
    refine (hf _ _ hab).bind fun c d hcd => ih.bind fun cs ds hcds => ?_
    exact .inl ⟨_, _, rfl, rfl, .cons hcd hcds⟩

end Agree

/-! ## Steps -/

/-- from related states both steps succeed with related results, or both fail with one fault; related states are left -/
def Twins (R : σ → τ → Prop) (Q : α → β → Prop) (x : Step ε σ α) (y : Step ε τ β) : Prop :=
  ∀ s t, R s t →
    (∃ a b s' t', x s = .ok a s' ∧ y t = .ok b t' ∧ Q a b ∧ R s' t') ∨
    ∃ fault s' t', x s = .error fault s' ∧ y t = .error fault t' ∧ R s' t'

namespace Twins

variable {R : σ → τ → Prop} {Q : α → β → Prop} {P : γ → κ → Prop} {x : Step ε σ α} {y : Step ε τ β}

theorem pure {a : α} {b : β} (h : Q a b) : Twins R Q (pure a : Step ε σ α) (pure b : Step ε τ β) :=
  fun s t hst => .inl ⟨a, b, s, t, rfl, rfl, h, hst⟩

theorem throw (fault : ε) : Twins R Q (throw fault : Step ε σ α) (throw fault : Step ε τ β) :=
  fun s t hst => .inr ⟨fault, s, t, rfl, rfl, hst⟩

theorem get : Twins R R (get : Step ε σ σ) (get : Step ε τ τ) :=
  fun s t hst => .inl ⟨s, t, s, t, rfl, rfl, hst, hst⟩

theorem bind {f : α → Step ε σ γ} {g : β → Step ε τ κ} (hx : Twins R Q x y) (hf : ∀ a b, Q a b → Twins R P (f a) (g b)) :
    Twins R P (x >>= f) (y >>= g) := by
  intro s t hst
  rcases hx s t hst with ⟨a, b, s', t', hxs, hyt, hab, hst'⟩ | ⟨fault, s', t', hxs, hyt, hst'⟩
  · rw [bind_of_ok hxs, bind_of_ok hyt]
    exact hf a b hab s' t' hst'
  · exact .inr ⟨fault, s', t', bind_of_error hxs f, bind_of_error hyt g, hst'⟩

/-- behind steps with the same result -/
theorem bind_same {x : Step ε σ α} {y : Step ε τ α} {f : α → Step ε σ γ} {g : α → Step ε τ κ} (hx : Twins R Eq x y)
    (hf : ∀ a, Twins R P (f a) (g a)) : Twins R P (x >>= f) (y >>= g) := by
  refine hx.bind fun a b hab => ?_
  subst hab
  exact hf a

/-- checks that agree -/
theorem lift {e : Except ε α} {e' : Except ε β} (h : Agree Q e e') :
    Twins R Q (liftM e : Step ε σ α) (liftM e' : Step ε τ β) := by
  intro s t hst
  rcases h with ⟨a, b, rfl, rfl, hab⟩ | ⟨fault, rfl, rfl⟩
  · exact .inl ⟨a, b, s, t, rfl, rfl, hab, hst⟩
  · exact .inr ⟨fault, s, t, rfl, rfl, hst⟩

theorem mapM {f : α → Step ε σ γ} {g : α → Step ε τ γ} (hf : ∀ a, Twins R Eq (f a) (g a)) (as : List α) :
    Twins R Eq (as.mapM f) (as.mapM g) := by
  induction as with
  | nil => exact pure rfl
  | cons a as ih =>
    rw [List.mapM_cons, List.mapM_cons]
    exact (hf a).bind_same fun _ => ih.bind_same fun _ => pure rfl

theorem mapFault (w : ε → δ) (h : Twins R Q x y) : Twins R Q (mapFault w x) (mapFault w y) := by
  intro s t hst
  unfold Step.mapFault
  rcases h s t hst with ⟨a, b, s', t', hxs, hyt, hab, hst'⟩ | ⟨fault, s', t', hxs, hyt, hst'⟩
  · rw [hxs, hyt]
    exact .inl ⟨a, b, s', t', rfl, rfl, hab, hst'⟩
  · rw [hxs, hyt]
    exact .inr ⟨w fault, s', t', rfl, rfl, hst'⟩

end Twins

/-! ## Steps up to a sort of faults -/

/-- from every state the first step ends as the second does, unless it fails with a fault of the sort -/
def UpTo (lost : ε → Prop) (x y : Step ε σ α) : Prop :=
  ∀ s, x s = y s ∨ ∃ fault s', lost fault ∧ x s = .error fault s'

namespace UpTo

variable {lost : ε → Prop} {x y : Step ε σ α}

theorem refl (x : Step ε σ α) : UpTo lost x x :=
  fun _ => .inl rfl

theorem throw (fault : ε) (y : Step ε σ α) : UpTo (· = fault) (throw fault) y :=
  fun s => .inr ⟨fault, s, rfl, rfl⟩

theorem bind {f g : α → Step ε σ β} (h : UpTo lost x y) (hf : ∀ a, UpTo lost (f a) (g a)) :
    UpTo lost (x >>= f) (y >>= g) := by
  intro s
  rcases h s with heq | ⟨fault, s', hlost, hx⟩
  · cases hy : y s with
    | ok a t =>
      rw [bind_of_ok (heq.trans hy), bind_of_ok hy]
      exact hf a t
    | error fault t =>
      left
      rw [bind_of_error (heq.trans hy), bind_of_error hy]
  · exact .inr ⟨fault, s', hlost, bind_of_error hx f⟩

/-- behind the same step -/
theorem behind (x : Step ε σ α) {f g : α → Step ε σ β} (hf : ∀ a, UpTo lost (f a) (g a)) :
    UpTo lost (x >>= f) (x >>= g) :=
  (refl x).bind hf

/-- in front of the same step -/
theorem before (h : UpTo lost x y) (f : α → Step ε σ β) : UpTo lost (x >>= f) (y >>= f) :=
  h.bind fun a => refl (f a)

theorem leaving (change : σ → σ) (h : UpTo lost x y) : UpTo lost (leaving change x) (leaving change y) := by
  intro s
  unfold Step.leaving
  rcases h s with heq | ⟨fault, s', hlost, hx⟩
  · rw [heq]
    exact .inl rfl
  · rw [hx]
    exact .inr ⟨fault, change s', hlost, rfl⟩

/-- up to a single fault: the step ends as the other does, or with the fault -/
theorem ends {fault : ε} (h : UpTo (· = fault) x y) (s : σ) : x s = y s ∨ ∃ s', x s = .error fault s' := by
  rcases h s with heq | ⟨_, s', rfl, hx⟩
  · exact .inl heq
  · exact .inr ⟨s', hx⟩

theorem eq {fault : ε} (h : UpTo (· = fault) x y) {s : σ} (hkept : ∀ s', x s ≠ .error fault s') : y s = x s := by
  rcases h.ends s with heq | ⟨s', hx⟩
  · exact heq.symm
  · exact absurd hx (hkept s')

end UpTo

end StackLang.Step
