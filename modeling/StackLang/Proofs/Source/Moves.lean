/-
What the moves of reading do to the state.

`Took ts s s'` says that between two states exactly the tokens `ts` were stepped over and nothing else changed: the
moves succeed exactly when such a step is there (`advance_eq_ok`, `expect_eq_ok`). `Yields x s a s'` says that a
reading step gives the result `a` unless phrases nest beyond its limit, and `YieldsIf enough x s a s'` that they do not
if `enough` holds. All are closed under doing one step after the other, so what a phrase does is put together from what
its parts do.
-/
import Mathlib.Tactic
import StackLang.Proofs.Steps
import StackLang.Source.Parse

namespace StackLang

/-! ## Tokens stepped over -/

/-- the second state stands behind the tokens `ts` that were ahead in the first -/
structure Took (ts : List Token) (s s' : ParseState) : Prop where
  ahead : s.cursor.ahead = ts ++ s'.cursor.ahead
  passed : s'.cursor.passed = ts.reverse ++ s.cursor.passed
  functions : s'.functions = s.functions
  finished : s'.finished = s.finished
  declared : s'.declared = s.declared

namespace Took

variable {ts us : List Token} {s s' s'' : ParseState} {x : Token}

theorem refl (s : ParseState) : Took [] s s :=
  ⟨rfl, rfl, rfl, rfl, rfl⟩

theorem trans (h : Took ts s s') (h' : Took us s' s'') : Took (ts ++ us) s s'' := by
  constructor
  · rw [h.ahead, h'.ahead, List.append_assoc]
  · rw [h'.passed, h.passed, List.reverse_append, List.append_assoc]
  · rw [h'.functions, h.functions]
  · rw [h'.finished, h.finished]
  · rw [h'.declared, h.declared]

theorem cons (h : Took [x] s s') (h' : Took us s' s'') : Took (x :: us) s s'' :=
  h.trans h'

/-- which names are declared makes no difference to the tokens -/
theorem redeclared (h : Took ts s s') (declared : Option (List Name)) :
    Took ts { s with declared := declared } { s' with declared := declared } :=
  ⟨h.ahead, h.passed, h.functions, h.finished, rfl⟩

theorem mem (h : Took ts s s') (hx : x ∈ ts) : x ∈ s.cursor.ahead := by
  rw [h.ahead]
  exact List.mem_append_left _ hx

/-- what holds of all tokens ahead still holds after some of them -/
theorem rest {P : Token → Prop} (h : Took ts s s') (hs : ∀ x ∈ s.cursor.ahead, P x) : ∀ x ∈ s'.cursor.ahead, P x := by
  intro x hx
  apply hs
  rw [h.ahead]
  exact List.mem_append_right _ hx

theorem length (h : Took ts s s') : s.cursor.ahead.length = ts.length + s'.cursor.ahead.length := by
  rw [h.ahead, List.length_append]

end Took

namespace Parse

variable {α β : Type} {s s' : ParseState} {x : Token}

/-! ## When the moves succeed -/

theorem current_eq_ok : current s = .ok x s' ↔ s.cursor.ahead.head? = some x ∧ s = s' := by
  obtain ⟨⟨passed, tokens⟩, functions, finished, declared⟩ := s
  unfold current
  rw [Step.bind_of_ok (Step.get_apply _), Step.lift_eq_ok]
  cases tokens with
  | nil => simp [Cursor.peek, Cursor.get?]
  | cons y rest => simp [Cursor.peek, Cursor.get?]

theorem advance_eq_ok : advance s = .ok x s' ↔ Took [x] s s' := by
  obtain ⟨⟨passed, tokens⟩, functions, finished, declared⟩ := s
  cases tokens with
  | nil =>
    constructor
    · intro h
      cases h
    · intro h
      cases h.ahead
  | cons y rest =>
    constructor
    · intro h
      cases h
      exact ⟨rfl, rfl, rfl, rfl, rfl⟩
    · intro h
      obtain ⟨⟨passed', ahead'⟩, functions', finished', declared'⟩ := s'
      obtain ⟨hahead, hpassed, hfunctions, hfinished, hdeclared⟩ := h
      obtain ⟨rfl, rfl⟩ : y = x ∧ rest = ahead' := by simpa using hahead
      obtain rfl : passed' = y :: passed := hpassed
      obtain rfl : functions' = functions := hfunctions
      obtain rfl : finished' = finished := hfinished
      obtain rfl : declared' = declared := hdeclared
      rfl

/-- stepping over the token that was looked at -/
theorem took_of_advance {y : Token} (hhead : s.cursor.ahead.head? = some x) (h : advance s = .ok y s') :
    y = x ∧ Took [x] s s' := by
  have htook := advance_eq_ok.1 h
  rw [htook.ahead] at hhead
  obtain rfl := Option.some.inj hhead
  exact ⟨rfl, htook⟩

theorem expect_eq_ok {kind : TokenKind} {wanted : Wanted} :
    expect kind wanted s = .ok x s' ↔ x.kind = kind ∧ Took [x] s s' := by
  unfold expect
  rw [Step.bind_eq_ok]
  constructor
  · rintro ⟨y, t, hcurrent, h⟩
    obtain ⟨hhead, rfl⟩ := current_eq_ok.1 hcurrent
    split_ifs at h with hkind
    · obtain ⟨rfl, htook⟩ := took_of_advance hhead h
      exact ⟨hkind, htook⟩
    · cases h
  · rintro ⟨hkind, htook⟩
    refine ⟨x, s, current_eq_ok.2 ⟨?_, rfl⟩, ?_⟩
    · rw [htook.ahead]
      rfl
    · rw [if_pos hkind]
      exact advance_eq_ok.2 htook

theorem checkAt_eq_ok {e : Except Violation α} {a : α} : checkAt x e s = .ok a s' ↔ e = .ok a ∧ s = s' := by
  cases e with
  | ok b => simp [checkAt]
  | error violation => simp [checkAt, violate]

/-! ## Looking ahead -/

@[simp] theorem kindAt_zero (s : ParseState) : kindAt 0 s = .ok (s.cursor.ahead.head?.map Token.kind) s := by
  obtain ⟨⟨passed, tokens⟩, functions, finished, declared⟩ := s
  cases tokens <;> rfl

@[simp] theorem kindAt_one (s : ParseState) : kindAt 1 s = .ok (s.cursor.ahead.tail.head?.map Token.kind) s := by
  obtain ⟨⟨passed, tokens⟩, functions, finished, declared⟩ := s
  rcases tokens with _ | ⟨x, _ | ⟨y, rest⟩⟩ <;> rfl

@[simp] theorem kindAt_back (s : ParseState) : kindAt (-1) s = .ok (s.cursor.passed.head?.map Token.kind) s := by
  obtain ⟨⟨passed, tokens⟩, functions, finished, declared⟩ := s
  cases passed <;> rfl

@[simp] theorem ahead_apply (s : ParseState) : ahead s = .ok s.cursor.ahead s := rfl

@[simp] theorem exhausted_apply (s : ParseState) : exhausted s = .ok s.cursor.ahead.isEmpty s := rfl

/-- the cursor does not stand right after the word that starts a definition -/
def NotAfterFun (passed : List Token) : Prop :=
  passed.head?.map Token.kind ≠ some .funWord

theorem notAfterFun_cons {passed : List Token} (h : x.kind ≠ .funWord) : NotAfterFun (x :: passed) :=
  fun h' => h (Option.some.inj h')

/-! ## Moves along a row that is there -/

variable {passed rest : List Token} {functions : FunctionTable} {finished : List Tree} {declared : Option (List Name)}

@[simp] theorem current_cons :
    current ⟨⟨passed, x :: rest⟩, functions, finished, declared⟩ =
      .ok x ⟨⟨passed, x :: rest⟩, functions, finished, declared⟩ := rfl

@[simp] theorem advance_cons :
    advance ⟨⟨passed, x :: rest⟩, functions, finished, declared⟩ =
      .ok x ⟨⟨x :: passed, rest⟩, functions, finished, declared⟩ := rfl

theorem expect_cons {kind : TokenKind} {wanted : Wanted} (h : x.kind = kind) :
    expect kind wanted ⟨⟨passed, x :: rest⟩, functions, finished, declared⟩ =
      .ok x ⟨⟨x :: passed, rest⟩, functions, finished, declared⟩ :=
  expect_eq_ok.2 ⟨h, rfl, rfl, rfl, rfl, rfl⟩

/-! ## Results up to the nesting limit -/

/-- the step gives this result, unless phrases nest too deeply -/
def Yields (step : Parse α) (s : ParseState) (a : α) (s' : ParseState) : Prop :=
  step s = .ok a s' ∨ ∃ t, step s = .error .tooDeep t

namespace Yields

variable {step : Parse α} {next : α → Parse β} {a : α} {b : β} {t : ParseState}

theorem of_ok (h : step s = .ok a s') : Yields step s a s' :=
  .inl h

theorem bind (h : Yields step s a t) (h' : Yields (next a) t b s') : Yields (step >>= next) s b s' := by
  rcases h with hok | ⟨e, hdeep⟩
  · unfold Yields
    rw [Step.bind_of_ok hok]
    exact h'
  · exact .inr ⟨e, Step.bind_of_error hdeep _⟩

/-- a step that cannot nest in front of another one -/
theorem after (h : step s = .ok a t) (h' : Yields (next a) t b s') : Yields (step >>= next) s b s' :=
  (of_ok h).bind h'

/-- where nothing nests too deeply the result is there -/
theorem ok (h : Yields step s a s') (hdeep : ∀ e, step s ≠ .error .tooDeep e) : step s = .ok a s' := by
  rcases h with hok | ⟨e, he⟩
  · exact hok
  · exact absurd he (hdeep e)

end Yields

/-- the step gives this result; only where levels are not enough it may nest too deeply instead -/
def YieldsIf (enough : Prop) (step : Parse α) (s : ParseState) (a : α) (s' : ParseState) : Prop :=
  step s = .ok a s' ∨ ¬ enough ∧ ∃ t, step s = .error .tooDeep t

namespace YieldsIf

variable {enough more : Prop} {step : Parse α} {next : α → Parse β} {a : α} {b : β} {t : ParseState}

theorem of_ok (h : step s = .ok a s') : YieldsIf enough step s a s' :=
  .inl h

theorem bind (h : YieldsIf enough step s a t) (h' : YieldsIf enough (next a) t b s') :
    YieldsIf enough (step >>= next) s b s' := by
  rcases h with hok | ⟨hfew, e, hdeep⟩
  · unfold YieldsIf
    rw [Step.bind_of_ok hok]
    exact h'
  · exact .inr ⟨hfew, e, Step.bind_of_error hdeep _⟩

/-- a step that cannot nest in front of another one -/
theorem after (h : step s = .ok a t) (h' : YieldsIf enough (next a) t b s') : YieldsIf enough (step >>= next) s b s' :=
  (of_ok h).bind h'

/-- a step that is left by a change -/
theorem leaving (change : ParseState → ParseState) (h : YieldsIf enough step s a t) :
    YieldsIf enough (Step.leaving change step) s a (change t) := by
  rcases h with hok | ⟨hfew, e, hdeep⟩
  · exact .inl (Step.leaving_eq_ok.2 ⟨t, hok, rfl⟩)
  · exact .inr ⟨hfew, change e, Step.leaving_of_error hdeep⟩

theorem tooDeep (h : ¬ enough) : YieldsIf enough (throw .tooDeep) s a s' :=
  .inr ⟨h, s, rfl⟩

theorem mono (h : YieldsIf enough step s a s') (hmore : more → enough) : YieldsIf more step s a s' :=
  h.imp_right fun hdeep => ⟨fun hm => hdeep.1 (hmore hm), hdeep.2⟩

/-- a phrase one level further in -/
theorem inside {n d : Nat} (h : YieldsIf (n ≤ d) step s a s') : YieldsIf (n + 1 ≤ d + 1) step s a s' :=
  h.mono Nat.le_of_succ_le_succ

theorem yields (h : YieldsIf enough step s a s') : Yields step s a s' :=
  h.imp_right And.right

/-- where levels are enough the result is there -/
theorem ok (h : YieldsIf enough step s a s') (he : enough) : step s = .ok a s' :=
  h.resolve_right fun hdeep => hdeep.1 he

end YieldsIf

end Parse

end StackLang
