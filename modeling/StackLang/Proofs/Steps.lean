/-
How steps succeed and fail.

A step that binds another succeeds exactly when both parts do, the second from the state the first left behind; it
fails as the first part fails. With these facts a successful run is taken apart from the front, one `obtain` for each
bound step, and nothing has to unfold the monad. `Ensures` says what holds after a step in both of its outcomes.
-/
import StackLang.Step

namespace StackLang.Step

variable {ε δ σ α β : Type}

/-! ## Success -/

theorem bind_eq_ok {x : Step ε σ α} {f : α → Step ε σ β} {s s' : σ} {b : β} :
    (x >>= f) s = .ok b s' ↔ ∃ a t, x s = .ok a t ∧ f a t = .ok b s' := by
  change EStateM.bind x f s = _ ↔ _
  unfold EStateM.bind
  cases x s with
  | ok a t =>
    constructor
    · intro h
      exact ⟨a, t, rfl, h⟩
    · rintro ⟨a', t', hx, h⟩
      cases hx
      exact h
  | error fault t => simp

theorem bind_of_ok {x : Step ε σ α} {s t : σ} {a : α} (h : x s = .ok a t) (f : α → Step ε σ β) :
    (x >>= f) s = f a t := by
  change EStateM.bind x f s = _
  unfold EStateM.bind
  rw [h]

theorem bind_of_error {x : Step ε σ α} {s t : σ} {fault : ε} (h : x s = .error fault t) (f : α → Step ε σ β) :
    (x >>= f) s = .error fault t := by
  change EStateM.bind x f s = _
  unfold EStateM.bind
  rw [h]

theorem bind_eq_error {x : Step ε σ α} {f : α → Step ε σ β} {s s' : σ} {fault : ε} :
    (x >>= f) s = .error fault s' ↔ x s = .error fault s' ∨ ∃ a t, x s = .ok a t ∧ f a t = .error fault s' := by
  cases hx : x s with
  | ok a t =>
    rw [bind_of_ok hx]
    constructor
    · intro h
      exact .inr ⟨a, t, rfl, h⟩
    · rintro (h | ⟨a', t', ⟨⟩, h⟩)
      · cases h
      · exact h
  | error fault' t => simp [bind_of_error hx]

/-- in front of another step only what a step does from the state matters -/
theorem bind_eq_of_eq {x y : Step ε σ α} {s : σ} (h : x s = y s) (f : α → Step ε σ β) : (x >>= f) s = (y >>= f) s := by
  change EStateM.bind x f s = EStateM.bind y f s
  unfold EStateM.bind
  rw [h]

/-- behind a step only what the next one does from the state left matters -/
theorem bind_congr_of_ok {x : Step ε σ α} {f g : α → Step ε σ β} {s : σ} (h : ∀ a t, x s = .ok a t → f a t = g a t) :
    (x >>= f) s = (x >>= g) s := by
  cases hx : x s with
  | ok a t =>
    rw [bind_of_ok hx, bind_of_ok hx]
    exact h a t hx
  | error fault t => rw [bind_of_error hx, bind_of_error hx]

@[simp] theorem pure_apply (a : α) (s : σ) : (pure a : Step ε σ α) s = .ok a s := rfl

@[simp] theorem throw_apply (fault : ε) (s : σ) : (throw fault : Step ε σ α) s = .error fault s := rfl

@[simp] theorem get_apply (s : σ) : (get : Step ε σ σ) s = .ok s s := rfl

@[simp] theorem set_apply (s t : σ) : (set t : Step ε σ PUnit) s = .ok ⟨⟩ t := rfl

@[simp] theorem modify_apply (f : σ → σ) (s : σ) : (modify f : Step ε σ PUnit) s = .ok ⟨⟩ (f s) := rfl

theorem pure_eq_ok {a b : α} {s s' : σ} : (pure a : Step ε σ α) s = .ok b s' ↔ a = b ∧ s = s' := by
  simp

/-! ## Checks without state -/

@[simp] theorem lift_ok (a : α) (s : σ) : (liftM (.ok a : Except ε α) : Step ε σ α) s = .ok a s := rfl

@[simp] theorem lift_error (fault : ε) (s : σ) :
    (liftM (.error fault : Except ε α) : Step ε σ α) s = .error fault s := rfl

theorem lift_eq_ok {e : Except ε α} {s s' : σ} {a : α} :
    (liftM e : Step ε σ α) s = .ok a s' ↔ e = .ok a ∧ s = s' := by
  cases e with
  | ok b => simp
  | error fault => simp

theorem check_bind_eq_ok {x : Except ε α} {f : α → Except ε β} {b : β} :
    (x >>= f) = .ok b ↔ ∃ a, x = .ok a ∧ f a = .ok b := by
  change Except.bind x f = _ ↔ _
  cases x with
  | ok a => simp [Except.bind]
  | error fault => simp [Except.bind]

theorem eq_ok_of_toOption {e : Except ε α} {a : α} (h : e.toOption = some a) : e = .ok a := by
  cases e with
  | ok b =>
    cases h
    rfl
  | error fault => cases h

/-! ## Other wordings -/

theorem mapFault_eq_ok {f : ε → δ} {x : Step ε σ α} {s s' : σ} {a : α} :
    mapFault f x s = .ok a s' ↔ x s = .ok a s' := by
  unfold mapFault
  cases x s with
  | ok b t => simp
  | error fault t => simp

theorem mapFault_of_error {f : ε → δ} {x : Step ε σ α} {s t : σ} {fault : ε} (h : x s = .error fault t) :
    mapFault f x s = .error (f fault) t := by
  unfold mapFault
  rw [h]

theorem mapFault_bind (f : ε → δ) (x : Step ε σ α) (g : α → Step ε σ β) :
    mapFault f (x >>= g) = mapFault f x >>= fun a => mapFault f (g a) := by
  funext s
  cases hx : x s with
  | ok a t =>
    rw [bind_of_ok (mapFault_eq_ok.2 hx), mapFault, bind_of_ok hx]
    rfl
  | error fault t => rw [bind_of_error (mapFault_of_error hx), mapFault_of_error (bind_of_error hx g)]

theorem mapFault_map (f : ε → δ) (g : α → β) (x : Step ε σ α) : mapFault f (g <$> x) = g <$> mapFault f x := by
  rw [map_eq_pure_bind, map_eq_pure_bind, mapFault_bind]
  rfl

/-! ## Steps that are left by a change -/

theorem leaving_eq_ok {change : σ → σ} {x : Step ε σ α} {s s' : σ} {a : α} :
    leaving change x s = .ok a s' ↔ ∃ t, x s = .ok a t ∧ s' = change t := by
  unfold leaving
  cases x s with
  | ok b t =>
    constructor
    · intro h
      cases h
      exact ⟨t, rfl, rfl⟩
    · rintro ⟨t, ⟨⟩, rfl⟩
      rfl
  | error fault t => simp

theorem leaving_of_error {change : σ → σ} {x : Step ε σ α} {s t : σ} {fault : ε} (h : x s = .error fault t) :
    leaving change x s = .error fault (change t) := by
  unfold leaving
  rw [h]

/-! ## Outcomes alone -/

theorem outcome_eq_ok {r : EStateM.Result ε σ α} {a : α} : outcome r = .ok a ↔ ∃ s, r = .ok a s := by
  cases r with
  | ok b t => simp [outcome]
  | error fault t => simp [outcome]

/-! ## Both outcomes -/

/-- the state that a step leaves behind, whether it succeeds or fails -/
def left : EStateM.Result ε σ α → σ
  | .ok _ s => s
  | .error _ s => s

theorem eq_ok_iff {r : EStateM.Result ε σ α} {a : α} {s : σ} : r = .ok a s ↔ outcome r = .ok a ∧ left r = s := by
  cases r with
  | ok b t => simp [outcome, left]
  | error fault t => simp [outcome]

theorem left_leaving (change : σ → σ) (x : Step ε σ α) (s : σ) : left (leaving change x s) = change (left (x s)) := by
  unfold leaving
  cases x s with
  | ok a t => rfl
  | error fault t => rfl

/-- a step from `s` succeeds with `good`, or fails with `bad` -/
def Ensures (x : Step ε σ α) (s : σ) (good : α → σ → Prop) (bad : ε → σ → Prop) : Prop :=
  match x s with
  | .ok a t => good a t
  | .error fault t => bad fault t

section

variable {x : Step ε σ α} {s : σ} {good : α → σ → Prop} {bad : ε → σ → Prop}

theorem Ensures.intro (hgood : ∀ a t, x s = .ok a t → good a t) (hbad : ∀ fault t, x s = .error fault t → bad fault t) :
    Ensures x s good bad := by
  unfold Ensures
  split
  · exact hgood _ _ ‹_›
  · exact hbad _ _ ‹_›

theorem Ensures.of_ok (h : Ensures x s good bad) {a : α} {t : σ} (hx : x s = .ok a t) : good a t := by
  unfold Ensures at h
  rw [hx] at h
  exact h

theorem Ensures.of_error (h : Ensures x s good bad) {fault : ε} {t : σ} (hx : x s = .error fault t) : bad fault t := by
  unfold Ensures at h
  rw [hx] at h
  exact h

theorem Ensures.imp (h : Ensures x s good bad) {good' : α → σ → Prop} {bad' : ε → σ → Prop}
    (hgood : ∀ a t, good a t → good' a t) (hbad : ∀ fault t, bad fault t → bad' fault t) : Ensures x s good' bad' :=
  .intro (fun a t hx => hgood a t (h.of_ok hx)) (fun fault t hx => hbad fault t (h.of_error hx))

/-- a step after a step starts from what the first one ensured -/
theorem Ensures.bind {f : α → Step ε σ β} {next : β → σ → Prop} (h : Ensures x s good bad)
    (hf : ∀ a t, good a t → Ensures (f a) t next bad) : Ensures (x >>= f) s next bad := by
  cases hx : x s with
  | ok a t =>
    unfold Ensures
    rw [bind_of_ok hx]
    exact hf a t (h.of_ok hx)
  | error fault t =>
    unfold Ensures
    rw [bind_of_error hx]
    exact h.of_error hx

/-- a step in other words for its faults -/
theorem Ensures.mapFault {f : ε → δ} {bad : δ → σ → Prop} (h : Ensures x s good fun fault => bad (f fault)) :
    Ensures (mapFault f x) s good bad := by
  cases hx : x s with
  | ok a t =>
    unfold Ensures
    rw [mapFault_eq_ok.2 hx]
    exact h.of_ok hx
  | error fault t =>
    unfold Ensures
    rw [mapFault_of_error hx]
    exact h.of_error hx

/-- a step that is left by a change ensures what the step does of the changed state -/
theorem Ensures.leaving {change : σ → σ}
    (h : Ensures x s (fun a t => good a (change t)) fun fault t => bad fault (change t)) :
    Ensures (leaving change x) s good bad := by
  cases hx : x s with
  | ok a t =>
    unfold Ensures
    rw [leaving_eq_ok.2 ⟨t, hx, rfl⟩]
    exact h.of_ok hx
  | error fault t =>
    unfold Ensures
    rw [leaving_of_error hx]
    exact h.of_error hx

/-- what holds after both outcomes holds of the state left behind -/
theorem Ensures.left {rule : σ → Prop} (h : Ensures x s (fun _ => rule) (fun _ => rule)) : rule (Step.left (x s)) := by
  cases hx : x s with
  | ok a t => exact h.of_ok hx
  | error fault t => exact h.of_error hx

end

end StackLang.Step
