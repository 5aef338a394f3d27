/-
A cursor over a row of tokens.

The row is held in two parts: the tokens passed, latest first, and the tokens ahead. So a cursor always stands between
two tokens or at an end, looking and stepping cost nothing, and going back puts tokens back in front.
-/
import StackLang.Source.Fault

namespace StackLang

/-- a place in a row of tokens -/
structure Cursor where
  /-- tokens before the cursor, latest first -/
  passed : List Token
  /-- tokens from the cursor on -/
  ahead : List Token
deriving DecidableEq, Repr

namespace Cursor

def ofTokens (tokens : List Token) : Cursor :=
  ⟨[], tokens⟩

def tokens (c : Cursor) : List Token :=
  c.passed.reverse ++ c.ahead

def position (c : Cursor) : Nat :=
  c.passed.length

def size (c : Cursor) : Nat :=
  c.passed.length + c.ahead.length

def exhausted (c : Cursor) : Bool :=
  c.ahead.isEmpty

def last? (c : Cursor) : Option Token :=
  c.ahead.getLast?.or c.passed.head?

/-- the token at a distance from the cursor: 0 is the next token, −1 the one just passed -/
def get? (c : Cursor) : Int → Option Token
  | .ofNat n => c.ahead[n]?
  | .negSucc n => c.passed[n]?

def kind? (c : Cursor) (distance : Int) : Option TokenKind :=
  (c.get? distance).map (·.kind)

/-- the fault of a look beyond the row: behind the end it is told at the last token -/
def missing (c : Cursor) (distance : Int) : ParseFault :=
  if distance < 0 then .syntactic (.noTokenBefore c.position) none
  else .syntactic .endOfInput (c.last?.map (·.position))

/-- the token at a distance, which has to be there -/
def peek (c : Cursor) (distance : Int) : Except ParseFault Token :=
  match c.get? distance with
  | some t => .ok t
  | none => .error (c.missing distance)

def advance (c : Cursor) : Except ParseFault (Token × Cursor) :=
  match c.ahead with
  | t :: rest => .ok (t, ⟨t :: c.passed, rest⟩)
  | [] => .error (c.missing 0)

/-- go back over some tokens, at most to the front -/
def back (c : Cursor) : Nat → Cursor
  | 0 => c
  | n + 1 =>
    match c.passed with
    | [] => c
    | t :: passed => back ⟨passed, t :: c.ahead⟩ n

/-- go back over a number of tokens that have been passed -/
def unread (c : Cursor) (count : Int) : Except ParseFault Cursor :=
  if count < 0 then .error (.syntactic (.badUnread count) none)
  else if (c.position : Int) < count then .error (.syntactic (.unreadTooFar count c.position) none)
  else .ok (c.back count.toNat)

/-- go back to an earlier position; also gives the number of tokens gone over -/
def restore (c : Cursor) (checkpoint : Nat) : Except ParseFault (Nat × Cursor) :=
  if c.position < checkpoint then .error (.syntactic (.checkpointAhead checkpoint c.position) none)
  else .ok (c.position - checkpoint, c.back (c.position - checkpoint))

/-! ## What the moves do to row and position -/

@[simp] theorem tokens_ofTokens (tokens : List Token) : (ofTokens tokens).tokens = tokens := rfl

@[simp] theorem position_ofTokens (tokens : List Token) : (ofTokens tokens).position = 0 := rfl

theorem length_tokens (c : Cursor) : c.tokens.length = c.size := by
  simp [tokens, size]

theorem position_le (c : Cursor) : c.position ≤ c.tokens.length := by
  simp [tokens, position]

/-- looking is indexing into the whole row -/
theorem get?_eq (c : Cursor) (n : Nat) : c.get? n = c.tokens[c.position + n]? := by
  simp only [get?, tokens, position]
  rw [List.getElem?_append_right (by simp)]
  simp

theorem advance_eq {c c' : Cursor} {t : Token} (h : c.advance = .ok (t, c')) :
    c'.tokens = c.tokens ∧ c'.position = c.position + 1 ∧ c.ahead = t :: c'.ahead := by
  obtain ⟨passed, ahead⟩ := c
  cases ahead with
  | nil => cases h
  | cons u rest =>
    cases h
    simp [tokens, position]

theorem tokens_back (c : Cursor) (n : Nat) : (c.back n).tokens = c.tokens := by
  induction n generalizing c with
  | zero => rfl
  | succ n ih =>
    obtain ⟨passed, ahead⟩ := c
    cases passed with
    | nil => rfl
    | cons t passed =>
      rw [back, ih]
      simp [tokens]

theorem position_back (c : Cursor) (n : Nat) : (c.back n).position = c.position - n := by
  induction n generalizing c with
  | zero => rfl
  | succ n ih =>
    obtain ⟨passed, ahead⟩ := c
    cases passed with
    | nil => simp [back, position]
    | cons t passed =>
      rw [back, ih]
      simp only [position, List.length_cons]
      omega

end Cursor

end StackLang
