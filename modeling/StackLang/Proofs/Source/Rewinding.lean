/-
Moves of a cursor, in any order.

A cursor looks around, moves on and goes back, by a count or to a checkpoint, and a move that leads outside the row is
refused. Every move does what the row and the position tell, and leaves the row in both outcomes (`perform_told`), so a
whole run leaves it too (`tokens_afterAll`). And since a cursor is its row and its position, going back to a checkpoint
gives the very cursor it was taken from, whatever happened in between (`cursor_rewinds_exactly`).
-/
import StackLang.Proofs.Source.Places

namespace StackLang.Cursor

open Step (Ensures)

/-! ## Moves -/

/-- what a cursor is used for -/
inductive Move where
  | current
  | peek (distance : Int)
  | kind (distance : Int)
  | advance
  | unread (count : Int)
  | checkpoint
  /-- go back to a checkpoint, or to what is taken for one -/
  | restore (mark : Nat)
deriving DecidableEq, Repr

inductive Answer where
  | token (token : Token)
  | kind (kind : Option TokenKind)
  | done
  | checkpoint (position : Nat)
  /-- the number of tokens gone back over -/
  | distance (count : Nat)
deriving DecidableEq, Repr

def Move.perform : Move → Step ParseFault Cursor Answer
  | .current => do return .token (← (← get).peek 0)
  | .peek distance => do return .token (← (← get).peek distance)
  | .kind distance => do return .kind ((← get).kind? distance)
  | .advance => do
    let (token, c) ← (← get).advance
    set c
    return .token token
  | .unread count => do
    set (← (← get).unread count)
    return .done
  | .checkpoint => do return .checkpoint (← get).position
  | .restore mark => do
    let (distance, c) ← (← get).restore mark
    set c
    return .distance distance

/-- the cursor after a move, whether it was refused or not -/
def after (c : Cursor) (move : Move) : Cursor :=
  Step.left (move.perform c)

/-- the cursor after moves, some of which may have been refused -/
def afterAll (c : Cursor) (moves : List Move) : Cursor :=
  moves.foldl after c

/-! ## Moves by position -/

/-- the token of a row at a distance from a position -/
def tokenAt (row : List Token) (position : Nat) (distance : Int) : Except ParseFault Token :=
  if position + distance < 0 then .error (.syntactic (.noTokenBefore position) none)
  else
    match row[(position + distance).toNat]? with
    | some t => .ok t
    | none => .error (.syntactic .endOfInput (row.getLast?.map (·.position)))

/-- what a move answers and the position it leads to, or why it is refused, by the row and the position alone -/
def Move.told (row : List Token) (position : Nat) : Move → Except ParseFault (Answer × Nat)
  | .current => return (.token (← tokenAt row position 0), position)
  | .peek distance => return (.token (← tokenAt row position distance), position)
  | .kind distance => return (.kind ((tokenAt row position distance).toOption.map (·.kind)), position)
  | .advance => return (.token (← tokenAt row position 0), position + 1)
  | .unread count =>
    if count < 0 then .error (.syntactic (.badUnread count) none)
    else if position < count then .error (.syntactic (.unreadTooFar count position) none)
    else .ok (.done, position - count.toNat)
  | .checkpoint => .ok (.checkpoint position, position)
  | .restore mark =>
    if position < mark then .error (.syntactic (.checkpointAhead mark position) none)
    else .ok (.distance (position - mark), mark)

variable {c c' : Cursor}

theorem get?_eq_ite (c : Cursor) (distance : Int) :
    c.get? distance =
      if c.position + distance < 0 then none else c.tokens[(c.position + distance).toNat]? := by
  cases distance with
  | ofNat n =>
    change c.get? (n : Int) = if (c.position : Int) + (n : Int) < 0 then none else _
    rw [if_neg (by omega), c.get?_eq n]
    rfl
  | negSucc n =>
    change c.passed[n]? = _
    by_cases hn : n < c.passed.length
    · have hindex : ((c.position : Int) + Int.negSucc n).toNat = c.passed.length - 1 - n := by
        unfold position
        omega
      rw [if_neg (by unfold position; omega), hindex, tokens, List.getElem?_append_left (by simp; omega),
        List.getElem?_reverse (by omega)]
      congr 1
      omega
    · rw [if_pos (by unfold position; omega), List.getElem?_eq_none (by omega)]

/-- looking is looking up in the row, also for what is told of a look beyond it -/
theorem peek_eq_tokenAt (c : Cursor) (distance : Int) : c.peek distance = tokenAt c.tokens c.position distance := by
  unfold peek tokenAt missing
  rw [get?_eq_ite, last?_eq]
  by_cases hbefore : (c.position : Int) + distance < 0
  · have hdistance : distance < 0 := by omega
    simp only [hbefore, hdistance, if_true]
  · simp only [hbefore, if_false]
    cases hfound : c.tokens[((c.position : Int) + distance).toNat]? with
    | some t => rfl
    | none =>
      -- the place is behind the row, so it is no place before the cursor
      have hbehind := List.getElem?_eq_none_iff.1 hfound
      have hposition := c.position_le
      have hdistance : ¬ distance < 0 := by omega
      simp only [hdistance, if_false]

theorem kind?_eq_tokenAt (c : Cursor) (distance : Int) :
    c.kind? distance = (tokenAt c.tokens c.position distance).toOption.map (·.kind) := by
  rw [← peek_eq_tokenAt, kind?, peek]
  cases c.get? distance with
  | some t => rfl
  | none => rfl

/-! ## Single moves -/

/-- a step that does as told: it answers and leads there in the same row, or it is refused and leaves the cursor -/
def Obeys (c : Cursor) (told : Except ParseFault (Answer × Nat)) (step : Step ParseFault Cursor Answer) : Prop :=
  Ensures step c (fun answer c' => c'.tokens = c.tokens ∧ told = .ok (answer, c'.position))
    (fun fault c' => c' = c ∧ told = .error fault)

/-- a step that starts with a question to the cursor -/
theorem obeys_ask {α : Type} {told : Except ParseFault (Answer × Nat)} {ask : Cursor → Except ParseFault α}
    {f : α → Step ParseFault Cursor Answer} (hok : ∀ a, ask c = .ok a → Obeys c told (f a))
    (herror : ∀ fault, ask c = .error fault → told = .error fault) :
    Obeys c told (get >>= fun c => liftM (ask c) >>= f) := by
  unfold Obeys Ensures
  rw [Step.bind_of_ok (Step.get_apply c)]
  cases hask : ask c with
  | ok a => exact hok a hask
  | error fault => exact ⟨rfl, herror fault hask⟩

/-- a look answers with the token at its place, or is refused -/
theorem obeys_peek (c : Cursor) (distance : Int) :
    Obeys c (do return (.token (← tokenAt c.tokens c.position distance), c.position))
      (do return .token (← (← get).peek distance)) := by
  rw [← peek_eq_tokenAt]
  refine obeys_ask ?_ ?_
  · intro t ht
    rw [ht]
    exact ⟨rfl, rfl⟩
  · intro fault hfault
    rw [hfault]
    rfl

/-- an advance succeeds with the token that a look finds, and is refused as the look is -/
theorem advance_eq_peek (c : Cursor) :
    (∀ t c', c.advance = .ok (t, c') → c.peek 0 = .ok t) ∧
      ∀ fault, c.advance = .error fault → c.peek 0 = .error fault := by
  obtain ⟨passed, ahead⟩ := c
  cases ahead with
  | nil =>
    constructor
    · intro t c' h
      cases h
    · intro fault h
      cases h
      rfl
  | cons u rest =>
    constructor
    · intro t c' h
      cases h
      rfl
    · intro fault h
      cases h

/-- a move does what the row and the position tell -/
theorem perform_told (c : Cursor) (move : Move) : Obeys c (move.told c.tokens c.position) move.perform := by
  cases move with
  | current => exact obeys_peek c 0
  | peek distance => exact obeys_peek c distance
  | kind distance =>
    rw [Move.told, ← kind?_eq_tokenAt]
    exact ⟨rfl, rfl⟩
  | advance =>
    rw [Move.told, ← peek_eq_tokenAt]
    refine obeys_ask ?_ ?_
    · rintro ⟨t, c'⟩ h
      obtain ⟨hrow, hposition, -⟩ := advance_eq h
      refine ⟨hrow, ?_⟩
      rw [(advance_eq_peek c).1 t c' h, hposition]
      rfl
    · intro fault h
      rw [(advance_eq_peek c).2 fault h]
      rfl
  | unread count =>
    rw [Move.told]
    refine obeys_ask ?_ ?_
    · intro c' h
      unfold unread at h
      split_ifs at h with hnegative hfar
      cases h
      refine ⟨tokens_back c _, ?_⟩
      rw [if_neg hnegative, if_neg hfar, position_back]
    · intro fault h
      unfold unread at h
      split_ifs at h with hnegative hfar
      · cases h
        rw [if_pos hnegative]
      · cases h
        rw [if_neg hnegative, if_pos hfar]
  | checkpoint => exact ⟨rfl, rfl⟩
  | restore mark =>
    rw [Move.told]
    refine obeys_ask ?_ ?_
    · rintro ⟨distance, c'⟩ h
      unfold restore at h
      split_ifs at h with hahead
      cases h
      refine ⟨tokens_back c _, ?_⟩
      rw [if_neg hahead, position_back, Nat.sub_sub_self (Nat.le_of_not_lt hahead)]
    · intro fault h
      unfold restore at h
      split_ifs at h with hahead
      cases h
      rw [if_pos hahead]

/-- a move that is told to lead to the place of another cursor of the row leads to that cursor -/
theorem perform_of_told {move : Move} {answer : Answer} (hrow : c'.tokens = c.tokens)
    (htold : move.told c'.tokens c'.position = .ok (answer, c.position)) : move.perform c' = .ok answer c := by
  have hobeys := perform_told c' move
  rw [htold] at hobeys
  cases hrun : move.perform c' with
  | ok found d =>
    obtain ⟨hsame, hfound⟩ := hobeys.of_ok hrun
    obtain ⟨rfl, hposition⟩ := Prod.mk.inj (Except.ok.inj hfound)
    rw [eq_of_row (hsame.trans hrow) hposition.symm]
  | error fault d => cases (hobeys.of_error hrun).2

/-- a move that is told to be refused is, and leaves the cursor -/
theorem perform_of_refused {move : Move} {fault : ParseFault}
    (htold : move.told c.tokens c.position = .error fault) : move.perform c = .error fault c := by
  have hobeys := perform_told c move
  rw [htold] at hobeys
  cases hrun : move.perform c with
  | ok found d => cases (hobeys.of_ok hrun).2
  | error found d =>
    obtain ⟨rfl, hfound⟩ := hobeys.of_error hrun
    cases hfound
    rfl

/-! ## Runs -/

theorem tokens_after (c : Cursor) (move : Move) : (c.after move).tokens = c.tokens := by
  refine Ensures.left ((perform_told c move).imp (fun _ _ h => h.1) ?_)
  rintro fault c' ⟨rfl, -⟩
  rfl

theorem tokens_afterAll (c : Cursor) (moves : List Move) : (c.afterAll moves).tokens = c.tokens := by
  induction moves generalizing c with
  | nil => rfl
  | cons move rest ih =>
    change ((c.after move).afterAll rest).tokens = c.tokens
    rw [ih, tokens_after]

/-- from behind a checkpoint of its row, and only from there, a cursor goes back; it becomes the one that the checkpoint
was taken from -/
theorem perform_restore (hrow : c'.tokens = c.tokens) :
    (Move.restore c.position).perform c' =
      if c.position ≤ c'.position then .ok (.distance (c'.position - c.position)) c
      else .error (.syntactic (.checkpointAhead c.position c'.position) none) c' := by
  split_ifs with hposition
  · apply perform_of_told hrow
    rw [Move.told, if_neg (Nat.not_lt.2 hposition)]
  · apply perform_of_refused
    rw [Move.told, if_pos (Nat.lt_of_not_le hposition)]

/-- each advance that succeeds leads one token on -/
theorem position_of_advances {n : Nat} {answers : List Answer}
    (h : (List.replicate n Move.advance).mapM Move.perform c = .ok answers c') :
    c'.tokens = c.tokens ∧ c'.position = c.position + n := by
  induction n generalizing c answers with
  | zero =>
    cases h
    exact ⟨rfl, rfl⟩
  | succ n ih =>
    rw [List.replicate_succ, List.mapM_cons] at h
    obtain ⟨answer, c₁, hfirst, h⟩ := Step.bind_eq_ok.1 h
    obtain ⟨others, c₂, hrest, h⟩ := Step.bind_eq_ok.1 h
    obtain ⟨-, rfl⟩ := Step.pure_eq_ok.1 h
    obtain ⟨hrow, htold⟩ := (perform_told c .advance).of_ok hfirst
    obtain ⟨hrow', hposition⟩ := ih hrest
    have hfirst : c₁.position = c.position + 1 := by
      rw [Move.told] at htold
      obtain ⟨t, -, htold⟩ := Step.check_bind_eq_ok.1 htold
      exact (Prod.mk.inj (Except.ok.inj htold)).2.symm
    exact ⟨hrow'.trans hrow, by omega⟩

/-- tokens that were passed can be unread, all at once -/
theorem perform_unread {n : Nat} (hrow : c'.tokens = c.tokens) (hposition : c'.position = c.position + n) :
    (Move.unread n).perform c' = .ok .done c := by
  apply perform_of_told hrow
  have hback : c'.position - n = c.position := by omega
  rw [Move.told, if_neg (by omega), if_neg (by omega), Int.toNat_natCast, hback]

/-- **A cursor stays in its row and goes back exactly.** After any moves, refused or not, the position is in the row.
Every further move does what the row and this position tell; if it is refused, the cursor stays. A checkpoint taken here
is restored after any further moves if and only if the position is not in front of it. This tells the distance and gives
the cursor from here, so that all that follows is as it would have been here. Tokens stepped over from here can be
unread at once, which leads back here as well. -/
theorem cursor_rewinds_exactly (tokens : List Token) (moves : List Move) :
    let c := (ofTokens tokens).afterAll moves
    c.position ≤ tokens.length ∧
      (∀ move : Move, Ensures move.perform c
        (fun answer c' => move.told tokens c.position = .ok (answer, c'.position))
        (fun fault c' => move.told tokens c.position = .error fault ∧ c' = c)) ∧
      Move.checkpoint.perform c = .ok (.checkpoint c.position) c ∧
      (∀ more : List Move,
        let c' := c.afterAll more
        (Move.restore c.position).perform c' =
          if c.position ≤ c'.position then .ok (.distance (c'.position - c.position)) c
          else .error (.syntactic (.checkpointAhead c.position c'.position) none) c') ∧
      ∀ (n : Nat) (answers : List Answer) (c' : Cursor),
        (List.replicate n Move.advance).mapM Move.perform c = .ok answers c' →
          (Move.unread n).perform c' = .ok .done c := by
  intro c
  have hrow : c.tokens = tokens := tokens_afterAll (ofTokens tokens) moves
  refine ⟨?_, ?_, rfl, ?_, ?_⟩
  · rw [← hrow]
    exact c.position_le
  · intro move
    rw [← hrow]
    exact (perform_told c move).imp (fun _ _ h => h.2) (fun _ _ h => ⟨h.2, h.1⟩)
  · intro more
    exact perform_restore (tokens_afterAll c more)
  · intro n answers c' h
    obtain ⟨hsame, hposition⟩ := position_of_advances h
    exact perform_unread hsame hposition

/-- a call without arguments -/
def callTokens : List Token :=
  [⟨.name, "f", ⟨1, 1⟩⟩, ⟨.openParen, none, ⟨1, 2⟩⟩, ⟨.closeParen, none, ⟨1, 3⟩⟩]

/-- moves on and back, some of them refused, between two checkpoints and their return -/
theorem callTokens_rewound :
    let c := (ofTokens callTokens).afterAll [.unread 1, .advance, .peek (-2)]
    let c' := c.afterAll [.advance, .checkpoint, .unread 2, .restore 2, .advance, .advance, .advance, .advance]
    c.position = 1 ∧ c'.position = 3 ∧ (Move.restore 1).perform c' = .ok (.distance 2) c ∧
      (Move.unread 2).perform c' = .ok .done c := by
  intro c c'
  obtain ⟨-, -, -, hrestore, hunread⟩ := cursor_rewinds_exactly callTokens [.unread 1, .advance, .peek (-2)]
  have hadvanced : (List.replicate 2 Move.advance).mapM Move.perform c =
      .ok [.token ⟨.openParen, none, ⟨1, 2⟩⟩, .token ⟨.closeParen, none, ⟨1, 3⟩⟩] c' := rfl
  exact ⟨rfl, rfl, hrestore _, hunread 2 _ c' hadvanced⟩

end StackLang.Cursor
