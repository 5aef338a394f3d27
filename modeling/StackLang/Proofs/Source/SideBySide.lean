/-
Two readings side by side.

Reading does not depend on where tokens stand in the text, nor on what follows a finished statement. Two states are
side by side (`Beside rest`) if the tokens ahead of the second are like those ahead of the first with the tokens `rest`
behind them. A step runs in parallel on such states (`Parallel rest looks takes`): if it succeeds on the first, having
taken at least `takes` tokens and with at least `looks` tokens still ahead, it succeeds on the second with the same
result; and with nothing behind, faults correspond too. A call looks at no token behind its end, an expression at one
(`functionCall_parallel`, `expression_parallel`).
-/
import StackLang.Proofs.Source.Places

namespace StackLang

/-! ## Tokens and faults -/

/-- tokens of one kind with the same text, wherever they stand -/
structure Token.Like (x y : Token) : Prop where
  kind : x.kind = y.kind
  text : x.text = y.text

namespace Token.Like

variable {x y : Token}

theorem refl (x : Token) : x.Like x :=
  ⟨rfl, rfl⟩

theorem name (h : x.Like y) : x.name = y.name :=
  congrArg Name.mk h.text

theorem describe (h : x.Like y) : x.describe = y.describe := by
  unfold Token.describe
  rw [h.kind, h.text]

theorem expected (h : x.Like y) (wanted : Wanted) :
    (GrammarFault.expected wanted x).message = (GrammarFault.expected wanted y).message :=
  congrArg (fun found => "expected " ++ wanted.words ++ ", found " ++ found) h.describe

theorem unknownStatement (h : x.Like y) :
    (GrammarFault.unknownStatement x).message = (GrammarFault.unknownStatement y).message :=
  congrArg (fun found => "could not identify statement starting with " ++ found) h.describe

end Token.Like

/-- faults with the same wording, wherever they are told -/
inductive ParseFault.Alike : ParseFault → ParseFault → Prop
  | syntactic {fault fault' : GrammarFault} {place place' : Option Position} :
      fault.message = fault'.message → Alike (.syntactic fault place) (.syntactic fault' place')
  | semantic {violation : Violation} {place place' : Option Position} :
      Alike (.semantic violation place) (.semantic violation place')
  | numberWithoutText : Alike .numberWithoutText .numberWithoutText
  | tooDeep : Alike .tooDeep .tooDeep

/-! ## States -/

namespace ParseState

/-- the number of tokens ahead -/
def left (s : ParseState) : Nat :=
  s.cursor.ahead.length

def extend (s : ParseState) (rest : List Token) : ParseState :=
  ⟨⟨s.cursor.passed, s.cursor.ahead ++ rest⟩, s.functions, s.finished, s.declared⟩

end ParseState

/-- the tokens ahead of the second state are like those ahead of the first and some tokens behind them -/
structure Beside (rest : List Token) (s t : ParseState) : Prop where
  ahead : List.Forall₂ Token.Like (s.cursor.ahead ++ rest) t.cursor.ahead
  notAfterFun : Parse.NotAfterFun s.cursor.passed ↔ Parse.NotAfterFun t.cursor.passed
  functions : s.functions = t.functions
  declared : s.declared = t.declared

namespace Beside

variable {rest : List Token} {s t : ParseState}

theorem extend (rest : List Token) (s : ParseState) : Beside rest s (s.extend rest) :=
  ⟨List.forall₂_same.2 fun x _ => .refl x, Iff.rfl, rfl, rfl⟩

theorem redeclared (h : Beside rest s t) {declared : Option (List Name)} :
    Beside rest { s with declared := declared } { t with declared := declared } :=
  ⟨h.ahead, h.notAfterFun, h.functions, rfl⟩

theorem left (h : Beside rest s t) : t.left = s.left + rest.length := by
  unfold ParseState.left
  rw [← h.ahead.length_eq, List.length_append]

/-- a token ahead of the first state has its like ahead of the second -/
theorem cons (h : Beside rest s t) {x : Token} {xs : List Token} (hs : s.cursor.ahead = x :: xs) :
    ∃ y ys, t.cursor.ahead = y :: ys ∧ x.Like y ∧ List.Forall₂ Token.Like (xs ++ rest) ys := by
  have hahead := h.ahead
  rw [hs, List.cons_append, List.forall₂_cons_left_iff] at hahead
  obtain ⟨y, ys, hlike, hrest, hys⟩ := hahead
  exact ⟨y, ys, hys, hlike, hrest⟩

/-- with nothing ahead of the first state and nothing behind, nothing is ahead of the second -/
theorem nil (h : Beside [] s t) (hs : s.cursor.ahead = []) : t.cursor.ahead = [] := by
  have hahead := h.ahead
  rw [hs] at hahead
  exact List.forall₂_nil_left_iff.1 hahead

theorem ne_nil (h : Beside rest s t) (hs : s.cursor.ahead ≠ []) : t.cursor.ahead ≠ [] := by
  obtain ⟨x, xs, hcons⟩ := List.exists_cons_of_ne_nil hs
  obtain ⟨y, ys, hcons', _⟩ := h.cons hcons
  rw [hcons']
  exact List.cons_ne_nil y ys

/-- a place that the first state has ahead, or any place if nothing is behind, has the same kind of token -/
theorem kind (h : Beside rest s t) {n : Nat} (hn : rest = [] ∨ n + 1 ≤ s.left) :
    s.cursor.kind? n = t.cursor.kind? n := by
  have hkinds : (s.cursor.ahead ++ rest).map Token.kind = t.cursor.ahead.map Token.kind := by
    rw [← List.forall₂_eq_eq_eq, List.forall₂_map_left_iff, List.forall₂_map_right_iff]
    exact h.ahead.imp fun _ _ hlike => hlike.kind
  have hfirst : s.cursor.ahead[n]? = (s.cursor.ahead ++ rest)[n]? := by
    rcases hn with rfl | hn
    · rw [List.append_nil]
    · rw [List.getElem?_append_left hn]
  calc s.cursor.kind? n = (s.cursor.ahead ++ rest)[n]?.map Token.kind := congrArg _ hfirst
    _ = t.cursor.ahead[n]?.map Token.kind := by rw [← List.getElem?_map, hkinds, List.getElem?_map]

end Beside

namespace Parse

/-! ## Results -/

variable {α β : Type} {rest : List Token} {looks takes : Nat} {s t : ParseState} {Q : α → α → Prop} {R : β → β → Prop}

/-- what a step did from the first state corresponds to what it did from the second -/
def Agrees (rest : List Token) (looks takes : Nat) (Q : α → α → Prop) (s : ParseState)
    (r r' : EStateM.Result ParseFault ParseState α) : Prop :=
  match r with
  | .ok a s' => s'.left + takes ≤ s.left ∧
      (rest = [] ∨ looks ≤ s'.left → ∃ b t', r' = .ok b t' ∧ Q a b ∧ Beside rest s' t')
  | .error e _ => rest = [] → ∃ e' t', r' = .error e' t' ∧ e.Alike e'

/-- a step from states side by side -/
def Parallel (rest : List Token) (looks takes : Nat) (Q : α → α → Prop) (x y : Parse α) : Prop :=
  ∀ s t, Beside rest s t → Agrees rest looks takes Q s (x s) (y t)

theorem Agrees.of_ok {a b : α} {s' t' : ParseState} {r' : EStateM.Result ParseFault ParseState α}
    (hr' : r' = .ok b t') (hQ : Q a b) (hbeside : Beside rest s' t') (htakes : s'.left + takes ≤ s.left) :
    Agrees rest looks takes Q s (.ok a s') r' :=
  ⟨htakes, fun _ => ⟨b, t', hr', hQ, hbeside⟩⟩

theorem Agrees.mono {looks' takes' : Nat} {r r' : EStateM.Result ParseFault ParseState α}
    (h : Agrees rest looks takes Q s r r') (hlooks : looks ≤ looks') (htakes : takes' ≤ takes) :
    Agrees rest looks' takes' Q s r r' := by
  cases r with
  | ok a s' =>
    refine ⟨by have := h.1; omega, fun hleft => h.2 ?_⟩
    rcases hleft with hrest | hleft
    · exact .inl hrest
    · exact .inr (hlooks.trans hleft)
  | error e s' => exact h

theorem Agrees.imp {Q' : α → α → Prop} {r r' : EStateM.Result ParseFault ParseState α}
    (h : Agrees rest looks takes Q s r r') (hQ : ∀ a b, Q a b → Q' a b) : Agrees rest looks takes Q' s r r' := by
  cases r with
  | ok a s' =>
    refine ⟨h.1, fun hleft => ?_⟩
    obtain ⟨b, t', hr', hab, hbeside⟩ := h.2 hleft
    exact ⟨b, t', hr', hQ a b hab, hbeside⟩
  | error e s' => exact h

/-- one step after the other. What the second step takes makes up for what the first one looks at. -/
theorem Agrees.bind {n k m l : Nat} {x y : Parse α} {f g : α → Parse β} (hx : Agrees rest n k Q s (x s) (y t))
    (htotal : ∀ a, ∃ b, Q a b)
    (hf : ∀ a b s' t', s'.left + k ≤ s.left → Q a b → Beside rest s' t' → Agrees rest m (l - k) R s' (f a s') (g b t'))
    (hn : n ≤ m + (l - k)) : Agrees rest m l R s ((x >>= f) s) ((y >>= g) t) := by
  cases hxs : x s with
  | error e s' =>
    rw [Step.bind_of_error hxs]
    rw [hxs] at hx
    intro hrest
    obtain ⟨e', t', hyt, halike⟩ := hx hrest
    exact ⟨e', t', Step.bind_of_error hyt g, halike⟩
  | ok a s' =>
    rw [Step.bind_of_ok hxs]
    rw [hxs] at hx
    obtain ⟨htaken, hagrees⟩ := hx
    obtain ⟨b₀, hb₀⟩ := htotal a
    -- how many tokens the second step takes does not depend on the other side
    have hlength := hf a b₀ s' _ htaken hb₀ (Beside.extend rest s')
    by_cases hreach : rest = [] ∨ n ≤ s'.left
    · obtain ⟨b, t', hyt, hQ, hbeside⟩ := hagrees hreach
      rw [Step.bind_of_ok hyt]
      have hrest := hf a b s' t' htaken hQ hbeside
      cases hfs : f a s' with
      | error e s'' =>
        rw [hfs] at hrest
        exact hrest
      | ok c s'' =>
        rw [hfs] at hrest
        exact ⟨by have := hrest.1; omega, hrest.2⟩
    · cases hfs : f a s' with
      | error e s'' =>
        intro hrest
        exact absurd (.inl hrest) hreach
      | ok c s'' =>
        rw [hfs] at hlength
        have htaken' := hlength.1
        refine ⟨by omega, fun hleft => absurd ?_ hreach⟩
        rcases hleft with hrest | hleft
        · exact .inl hrest
        · exact .inr (by omega)

namespace Parallel

theorem mono {looks' takes' : Nat} {x y : Parse α} (h : Parallel rest looks takes Q x y) (hlooks : looks ≤ looks')
    (htakes : takes' ≤ takes) : Parallel rest looks' takes' Q x y :=
  fun s t hst => (h s t hst).mono hlooks htakes

theorem bind {n k m l : Nat} {x y : Parse α} {f g : α → Parse β} (hx : Parallel rest n k Q x y)
    (htotal : ∀ a, ∃ b, Q a b) (hf : ∀ a b, Q a b → Parallel rest m (l - k) R (f a) (g b))
    (hn : n ≤ m + (l - k)) : Parallel rest m l R (x >>= f) (y >>= g) :=
  fun s t hst => (hx s t hst).bind htotal (fun a b s' t' _ hQ hst' => hf a b hQ s' t' hst') hn

/-- behind a step with the same result on both sides -/
theorem bind_same {n k m l : Nat} {x y : Parse α} {f g : α → Parse β} (hx : Parallel rest n k Eq x y)
    (hf : ∀ a, Parallel rest m (l - k) R (f a) (g a)) (hn : n ≤ m + (l - k)) :
    Parallel rest m l R (x >>= f) (y >>= g) :=
  hx.bind (fun a => ⟨a, rfl⟩) (by rintro a _ rfl; exact hf a) hn

/-- behind a step that gives a token -/
theorem bind_like {n k m l : Nat} {x y : Parse Token} {f g : Token → Parse β} (hx : Parallel rest n k Token.Like x y)
    (hf : ∀ a b, a.Like b → Parallel rest m (l - k) R (f a) (g b)) (hn : n ≤ m + (l - k)) :
    Parallel rest m l R (x >>= f) (y >>= g) :=
  hx.bind (fun a => ⟨a, .refl a⟩) hf hn

theorem pure {a b : α} (h : Q a b) : Parallel rest looks 0 Q (pure a) (pure b) :=
  fun _ _ hst => .of_ok rfl h hst le_rfl

/-- faults correspond, and take whatever is asked for -/
theorem throw {e e' : ParseFault} (h : e.Alike e') : Parallel rest looks takes Q (throw e) (throw e') :=
  fun _ t _ _ => ⟨e', t, rfl, h⟩

section

variable {declared : Option (List Name)}

/-- the same names come to be declared on both sides -/
theorem redeclare : Parallel rest 0 0 Eq (modify fun s => { s with declared := declared })
    (modify fun s => { s with declared := declared }) :=
  fun _ _ hst => .of_ok rfl rfl hst.redeclared le_rfl

/-- steps that are left with the same names declared -/
theorem leaving {x y : Parse α} (h : Parallel rest looks takes Q x y) :
    Parallel rest looks takes Q (Step.leaving (fun s => { s with declared := declared }) x)
      (Step.leaving (fun s => { s with declared := declared }) y) := by
  intro s t hst
  have hagrees := h s t hst
  cases hs : x s with
  | error e s' =>
    rw [hs] at hagrees
    rw [Step.leaving_of_error hs]
    intro hrest
    obtain ⟨e', t', ht, halike⟩ := hagrees hrest
    exact ⟨e', _, Step.leaving_of_error ht, halike⟩
  | ok a s' =>
    rw [hs] at hagrees
    rw [Step.leaving_eq_ok.2 ⟨s', hs, rfl⟩]
    refine ⟨hagrees.1, fun hleft => ?_⟩
    obtain ⟨b, t', ht, hQ, hst'⟩ := hagrees.2 hleft
    exact ⟨b, _, Step.leaving_eq_ok.2 ⟨t', ht, rfl⟩, hQ, hst'.redeclared⟩

end

end Parallel

/-! ## Moves -/

theorem refuse_parallel {fault fault' : GrammarFault} (h : fault.message = fault'.message) (x y : Token) :
    Parallel rest looks takes Q (refuse fault x) (refuse fault' y) :=
  .throw (.syntactic h)

theorem expected_parallel (wanted : Wanted) {x y : Token} (h : x.Like y) :
    Parallel rest looks takes Q (expected wanted x) (expected wanted y) :=
  refuse_parallel (h.expected wanted) x y

theorem violate_parallel (violation : Violation) (x y : Token) :
    Parallel rest looks takes Q (violate violation x) (violate violation y) :=
  .throw .semantic

theorem checkAt_parallel (e : Except Violation α) (x y : Token) :
    Parallel rest 0 0 Eq (checkAt x e) (checkAt y e) := by
  cases e with
  | ok a => exact .pure rfl
  | error violation => exact violate_parallel violation x y

theorem current_parallel : Parallel rest 0 0 Token.Like current current := by
  intro s t hst
  obtain ⟨⟨passed, tokens⟩, functions, finished, declared⟩ := s
  cases tokens with
  | nil =>
    rintro rfl
    obtain ⟨⟨passed', tokens'⟩, functions', finished', declared'⟩ := t
    obtain rfl : tokens' = [] := hst.nil rfl
    exact ⟨_, _, rfl, .syntactic rfl⟩
  | cons x xs =>
    obtain ⟨y, ys, hahead, hlike, _⟩ := hst.cons rfl
    have hcurrent : current t = .ok y t := current_eq_ok.2 ⟨by rw [hahead]; rfl, rfl⟩
    exact .of_ok hcurrent hlike hst le_rfl

theorem advance_parallel : Parallel rest 0 1 Token.Like advance advance := by
  intro s t hst
  obtain ⟨⟨passed, tokens⟩, functions, finished, declared⟩ := s
  obtain ⟨⟨passed', tokens'⟩, functions', finished', declared'⟩ := t
  cases tokens with
  | nil =>
    rintro rfl
    obtain rfl : tokens' = [] := hst.nil rfl
    exact ⟨_, _, rfl, .syntactic rfl⟩
  | cons x xs =>
    obtain ⟨y, ys, hahead, hlike, hrest⟩ := hst.cons rfl
    obtain rfl : tokens' = y :: ys := hahead
    refine .of_ok rfl hlike ⟨hrest, ?_, hst.functions, hst.declared⟩ le_rfl
    simp [NotAfterFun, hlike.kind]

theorem expect_parallel (kind : TokenKind) (wanted : Wanted) :
    Parallel rest 0 1 Token.Like (expect kind wanted) (expect kind wanted) := by
  refine current_parallel.bind_like (fun x y hxy => ?_) (by decide)
  by_cases hkind : x.kind = kind
  · rw [if_pos hkind, if_pos (hxy.kind ▸ hkind)]
    exact advance_parallel
  · rw [if_neg hkind, if_neg (hxy.kind ▸ hkind)]
    exact expected_parallel wanted hxy

theorem kindAt_parallel (n : Nat) : Parallel rest (n + 1) 0 Eq (kindAt n) (kindAt n) :=
  fun _ _ hst => ⟨le_rfl, fun hleft => ⟨_, _, rfl, hst.kind hleft, hst⟩⟩

theorem kindAt_back_parallel :
    Parallel rest 0 0 (fun a b => a ≠ some .funWord ↔ b ≠ some .funWord) (kindAt (-1)) (kindAt (-1)) := by
  intro s t hst
  rw [kindAt_back, kindAt_back]
  exact .of_ok rfl hst.notAfterFun hst le_rfl

/-- as many rounds as tokens ahead on both sides -/
def Rounds (rest rounds rounds' : List Token) : Prop :=
  rounds'.length = rounds.length + rest.length

theorem ahead_parallel : Parallel rest 0 0 (Rounds rest) ahead ahead :=
  fun _ _ hst => .of_ok rfl hst.left hst le_rfl

theorem Rounds.cons {x : Token} {rounds rounds' : List Token} (h : Rounds rest (x :: rounds) rounds') :
    ∃ y more, rounds' = y :: more ∧ Rounds rest rounds more := by
  unfold Rounds at h
  rcases rounds' with _ | ⟨y, more⟩
  · simp only [List.length_cons, List.length_nil] at h
    omega
  · refine ⟨y, more, rfl, ?_⟩
    simp only [List.length_cons] at h
    unfold Rounds
    omega

/-- a loop without rounds left on the first side has none left on the second, unless there is more behind -/
theorem endOfInput_rounds {loop : List Token → Parse α} (hloop : loop [] = endOfInput) {rounds' : List Token}
    (h : Rounds rest [] rounds') : Parallel rest looks takes Q endOfInput (loop rounds') := by
  intro s t hst hrest
  obtain rfl := hrest
  obtain rfl : rounds' = [] := List.length_eq_zero_iff.1 h
  rw [hloop]
  exact ⟨_, _, rfl, .syntactic rfl⟩

theorem rounds_total (rest rounds : List Token) : ∃ rounds', Rounds rest rounds rounds' :=
  ⟨rounds ++ rest, List.length_append⟩

theorem get_parallel : Parallel rest 0 0 (Beside rest) get get :=
  fun _ _ hst => .of_ok rfl hst hst le_rfl

/-- behind a look at the state, of which only the function table and the declared names count -/
theorem Parallel.bind_get {f g : ParseState → Parse β} {m l : Nat}
    (hf : ∀ a b, a.functions = b.functions → a.declared = b.declared → Parallel rest m l R (f a) (g b)) :
    Parallel rest m l R (get >>= f) (get >>= g) :=
  get_parallel.bind (fun a => ⟨_, .extend rest a⟩) (fun a b hab => hf a b hab.functions hab.declared) (by omega)

/-- behind a look at the tokens ahead, of which only the number counts -/
theorem Parallel.bind_ahead {f g : List Token → Parse β} {m l : Nat}
    (hf : ∀ a b, Rounds rest a b → Parallel rest m l R (f a) (g b)) :
    Parallel rest m l R (ahead >>= f) (ahead >>= g) :=
  ahead_parallel.bind (rounds_total rest) hf (by omega)

/-! ## Calls -/

theorem arguments_parallel {argument argument' : Parse Tree} (h : Parallel rest 1 1 Eq argument argument')
    (found : List Tree) {rounds rounds' : List Token} (hrounds : Rounds rest rounds rounds') :
    Parallel rest 0 2 Eq (arguments argument found rounds) (arguments argument' found rounds') := by
  induction rounds generalizing found rounds' with
  | nil => exact endOfInput_rounds rfl hrounds
  | cons _ rounds ih =>
    obtain ⟨_, more, rfl, hmore⟩ := hrounds.cons
    -- the separator behind an argument makes up for the look behind its end
    refine h.bind_same (fun tree => ?_) (by decide)
    refine advance_parallel.bind_like (fun x y hxy => ?_) (by decide)
    rw [← hxy.kind]
    split_ifs
    · exact .pure rfl
    · exact (ih (tree :: found) hmore).mono le_rfl (by decide)
    · exact expected_parallel _ hxy

theorem functionCall_parallel {argument argument' : Parse Tree} (h : Parallel rest 1 1 Eq argument argument') :
    Parallel rest 0 2 Eq (functionCall argument) (functionCall argument') := by
  refine (expect_parallel _ _).bind_like (fun name name' hname => ?_) (by decide)
  refine .bind_get fun a b hfunctions _ => ?_
  rw [hname.name, hfunctions]
  refine (checkAt_parallel _ _ _).bind_same (fun _ => ?_) (by decide)
  refine (expect_parallel _ _).bind_like (fun _ _ _ => ?_) (by decide)
  refine current_parallel.bind_like (fun next next' hnext => ?_) (by decide)
  rw [← hnext.kind]
  split_ifs
  · exact advance_parallel.bind_like (fun _ _ _ => .pure rfl) (by decide)
  · refine .bind_ahead fun rounds rounds' hrounds => ?_
    exact (arguments_parallel h [] hrounds).bind_same (fun _ => .pure rfl) (by decide)

theorem callOperand_parallel {argument argument' : Parse Tree} (h : Parallel rest 1 1 Eq argument argument') :
    Parallel rest 0 2 Eq (callOperand argument) (callOperand argument') := by
  refine current_parallel.bind_like (fun name name' hname => ?_) (by decide)
  refine (functionCall_parallel h).bind_same (fun call => ?_) (by decide)
  refine .bind_get fun a b hfunctions _ => ?_
  rw [hname.name, hfunctions]
  refine (checkAt_parallel _ _ _).bind_same (fun signature => ?_) (by decide)
  split_ifs
  · exact .pure rfl
  · exact violate_parallel _ _ _

/-! ## Expressions -/

theorem numberLiteral_parallel {x y : Token} (h : x.Like y) :
    Parallel rest 0 1 Eq (numberLiteral x) (numberLiteral y) := by
  refine advance_parallel.bind_like (fun _ _ _ => ?_) (by decide)
  rw [← h.text]
  cases x.text with
  | none => exact .throw .numberWithoutText
  | some text =>
    dsimp only
    cases Text.integer? text with
    | none => exact violate_parallel _ _ _
    | some n => exact .pure rfl

/-- with nothing ahead no operator is read -/
theorem operators_exhausted {right : Nat → Parse Tree} {threshold : Nat} {left : Tree} {rounds : List Token}
    (hs : s.cursor.ahead = []) : operators right threshold left rounds s = .ok left s := by
  cases rounds with
  | nil => rfl
  | cons _ rounds => rw [operators, Step.bind_of_ok (kindAt_zero s), hs]; rfl

theorem operators_agrees_exhausted {right right' : Nat → Parse Tree} {threshold : Nat} {left : Tree}
    {rounds rounds' : List Token} (hst : Beside rest s t) (hs : s.cursor.ahead = []) :
    Agrees rest 1 0 Eq s (operators right threshold left rounds s) (operators right' threshold left rounds' t) := by
  rw [operators_exhausted hs]
  refine ⟨le_rfl, fun hleft => ?_⟩
  rcases hleft with rfl | hleft
  · exact ⟨left, t, operators_exhausted (hst.nil hs), rfl, hst⟩
  · simp [ParseState.left, hs] at hleft

/-- operators with as many rounds as there are tokens ahead -/
theorem operators_agrees {right right' : Nat → Parse Tree} (h : ∀ p, Parallel rest 1 1 Eq (right p) (right' p))
    (threshold : Nat) (left : Tree) {rounds rounds' : List Token} (hst : Beside rest s t)
    (hs : s.left ≤ rounds.length) (ht : t.left ≤ rounds'.length) :
    Agrees rest 1 0 Eq s (operators right threshold left rounds s) (operators right' threshold left rounds' t) := by
  have hleft := hst.left
  induction rounds generalizing left s t rounds' with
  | nil => exact operators_agrees_exhausted hst (List.length_eq_zero_iff.1 (Nat.le_zero.1 hs))
  | cons _ rounds ih =>
    cases rounds' with
    | nil =>
      rw [List.length_nil] at ht
      exact operators_agrees_exhausted hst (List.length_eq_zero_iff.1 (show s.left = 0 by omega))
    | cons _ rounds' =>
      rw [List.length_cons] at hs ht
      refine (kindAt_parallel 0 s t hst).bind (fun a => ⟨a, rfl⟩) ?_ (by decide)
      rintro kind? _ s₁ t₁ hlen₁ rfl hst₁
      have hleft₁ := hst₁.left
      cases kind? with
      | none => exact Parallel.pure rfl s₁ t₁ hst₁
      | some kind =>
        dsimp only
        cases kind.operator? with
        | none => exact Parallel.pure rfl s₁ t₁ hst₁
        | some op =>
          dsimp only
          split_ifs
          · exact Parallel.pure rfl s₁ t₁ hst₁
          · refine (advance_parallel s₁ t₁ hst₁).bind (fun a => ⟨a, .refl a⟩) ?_ (by decide)
            intro _ _ s₂ t₂ hlen₂ _ hst₂
            refine (h kind.precedence s₂ t₂ hst₂).bind (fun a => ⟨a, rfl⟩) ?_ (by decide)
            rintro tree _ s₃ t₃ hlen₃ rfl hst₃
            have hleft₃ := hst₃.left
            exact ih _ hst₃ (by omega) (by omega) hleft₃

variable {depth : Nat}

theorem callExpression_parallel {again again' : Parse Tree}
    (he : Parallel rest 1 1 Eq (expression depth) (expression depth)) (hagain : Parallel rest 1 1 Eq again again') :
    Parallel rest 1 1 Eq (callExpression (expression depth) again) (callExpression (expression depth) again') := by
  intro s t hst
  have hagrees := functionCall_parallel he s t hst
  cases hs : functionCall (expression depth) s with
  | error e s' =>
    rw [hs] at hagrees
    rw [callExpression_of_error hs]
    intro hrest
    obtain ⟨e', t', ht, halike⟩ := hagrees hrest
    exact ⟨e', t', callExpression_of_error ht, halike⟩
  | ok tree s' =>
    rw [hs] at hagrees
    obtain ⟨hlen, hok⟩ := hagrees
    obtain ⟨_, t', ht, rfl, hst'⟩ := hok (.inr (Nat.zero_le _))
    rw [callExpression_of_call hs, callExpression_of_call ht]
    by_cases hreach : rest = [] ∨ 1 ≤ s'.left
    · have hkind : s'.cursor.ahead.head?.map Token.kind = t'.cursor.ahead.head?.map Token.kind := by
        rw [List.head?_eq_getElem?, List.head?_eq_getElem?]
        exact hst'.kind hreach
      rw [hkind]
      split_ifs
      · -- both go back to where they were side by side; the rest of the state is as the calls left it, alike on both
        exact hagain _ _ ⟨hst.ahead, hst.notAfterFun, hst'.functions, hst'.declared⟩
      · exact .of_ok rfl rfl hst' (by omega)
    · -- the call was the last of the first row: what follows it on the second does not count
      have hempty : s'.cursor.ahead = [] := by
        rw [← List.length_eq_zero_iff]
        exact Nat.lt_one_iff.1 (Nat.lt_of_not_le fun h => hreach (.inr h))
      rw [hempty]
      exact ⟨by omega, fun h => absurd h hreach⟩

theorem expression_succ_parallel (he : Parallel rest 1 1 Eq (expression depth) (expression depth))
    (ha : Parallel rest 1 1 Eq (arithmetic depth 0) (arithmetic depth 0)) :
    Parallel rest 1 1 Eq (expression (depth + 1)) (expression (depth + 1)) := by
  rw [expression]
  refine current_parallel.bind_like (fun x y hxy => ?_) (by decide)
  refine (kindAt_parallel 1).bind_same (fun following => ?_) (by decide)
  rw [← hxy.kind]
  split_ifs
  · exact ha
  · refine kindAt_back_parallel.bind (fun a => ⟨a, Iff.rfl⟩) (fun before before' hbefore => ?_) (by decide)
    by_cases hcall : following = some .openParen ∧ before ≠ some .funWord
    · rw [if_pos hcall, if_pos (by rwa [← hbefore])]
      exact callExpression_parallel he ha
    · rw [if_neg hcall, if_neg (by rwa [← hbefore])]
      refine advance_parallel.bind_like (fun _ _ _ => ?_) (by decide)
      exact .pure (by rw [hxy.name])
  · exact expected_parallel _ hxy

theorem arithmetic_succ_parallel (ho : Parallel rest 1 1 Eq (operand depth) (operand depth))
    (ha : ∀ p, Parallel rest 1 1 Eq (arithmetic depth p) (arithmetic depth p)) (threshold : Nat) :
    Parallel rest 1 1 Eq (arithmetic (depth + 1) threshold) (arithmetic (depth + 1) threshold) := by
  rw [arithmetic]
  intro s t hst
  refine (ho s t hst).bind (fun a => ⟨a, rfl⟩) ?_ (by decide)
  rintro left _ s' t' _ rfl hst'
  rw [Step.bind_of_ok (ahead_apply s'), Step.bind_of_ok (ahead_apply t')]
  exact operators_agrees ha threshold left hst' le_rfl le_rfl

theorem operand_succ_parallel (he : Parallel rest 1 1 Eq (expression depth) (expression depth))
    (ha : Parallel rest 1 1 Eq (arithmetic depth 0) (arithmetic depth 0))
    (ho : Parallel rest 1 1 Eq (operand depth) (operand depth)) :
    Parallel rest 1 1 Eq (operand (depth + 1)) (operand (depth + 1)) := by
  rw [operand]
  refine current_parallel.bind_like (fun x y hxy => ?_) (by decide)
  rw [← hxy.kind]
  cases x.kind
  case number => exact (numberLiteral_parallel hxy).mono (by decide) le_rfl
  case name =>
    refine (kindAt_parallel 1).bind_same (fun following => ?_) (by decide)
    split_ifs
    · exact (callOperand_parallel he).mono (by decide) (by decide)
    · refine advance_parallel.bind_like (fun _ _ _ => ?_) (by decide)
      exact .pure (by rw [hxy.name])
  case openParen =>
    refine advance_parallel.bind_like (fun _ _ _ => ?_) (by decide)
    refine ha.bind_same (fun inner => ?_) (by decide)
    exact (expect_parallel _ _).bind_like (fun _ _ _ => .pure rfl) (by decide)
  case plus | minus =>
    refine advance_parallel.bind_like (fun _ _ _ => ?_) (by decide)
    exact ho.bind_same (fun _ => .pure rfl) (by decide)
  all_goals exact expected_parallel _ hxy

/-- expressions look at one token behind their end -/
theorem expression_parallel (rest : List Token) (depth : Nat) :
    Parallel rest 1 1 Eq (expression depth) (expression depth) ∧
      (∀ p, Parallel rest 1 1 Eq (arithmetic depth p) (arithmetic depth p)) ∧
      Parallel rest 1 1 Eq (operand depth) (operand depth) := by
  induction depth with
  | zero =>
    rw [expression, operand]
    refine ⟨.throw .tooDeep, fun p => ?_, .throw .tooDeep⟩
    rw [arithmetic]
    exact .throw .tooDeep
  | succ depth ih =>
    obtain ⟨he, ha, ho⟩ := ih
    exact ⟨expression_succ_parallel he (ha 0), arithmetic_succ_parallel ho ha, operand_succ_parallel he (ha 0) ho⟩

end Parse

end StackLang
