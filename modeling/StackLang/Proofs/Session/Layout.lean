/-
The layout of a source does not count.

Two texts with the same words, wherever these stand, are read as the same statements or refused with the same wording
(`reading_alike`), and nothing after reading sees a place. So they compile to the same bytes or fail in the same words
(`compile_ignores_layout`). That there are such texts for every choice of blanks is `tokenize_joined`.
-/
import StackLang.Proofs.Session.Told
import StackLang.Proofs.Source.Respelled

namespace StackLang

/-- diagnostics that differ in their places at most -/
structure Diagnostic.SameWording (d d' : Diagnostic) : Prop where
  stage : d.stage = d'.stage
  message : d.message = d'.message

/-- faults alike are told in the same words -/
theorem ParseFault.Alike.sameWording {fault fault' : ParseFault} (h : fault.Alike fault') {d d' : Diagnostic}
    (hd : (Session.toldParseFault fault).diagnostic? = some d)
    (hd' : (Session.toldParseFault fault').diagnostic? = some d') : d.SameWording d' := by
  cases h with
  | syntactic hmessage =>
    cases hd
    cases hd'
    exact ⟨rfl, hmessage⟩
  | semantic =>
    cases hd
    cases hd'
    exact ⟨rfl, rfl⟩
  | numberWithoutText => cases hd
  | tooDeep =>
    cases hd
    cases hd'
    exact ⟨rfl, rfl⟩

theorem like_of_words {tokens tokens' : List Token} (h : tokens.map Token.word = tokens'.map Token.word) :
    List.Forall₂ Token.Like tokens tokens' := by
  rw [← List.forall₂_eq_eq_eq, List.forall₂_map_left_iff, List.forall₂_map_right_iff] at h
  refine h.imp fun x y hxy => ?_
  obtain ⟨hkind, htext⟩ := Word.mk.inj hxy
  exact ⟨hkind, htext⟩

/-- like rows are read as the same statements with the same table behind them, or refused alike -/
theorem reading_alike {tokens tokens' : List Token} (h : List.Forall₂ Token.Like tokens tokens') (depth : Nat)
    (functions : FunctionTable) :
    (∃ trees s s', Parse.statements depth [] tokens ⟨.ofTokens tokens, functions, [], none⟩ = .ok trees s ∧
      Parse.statements depth [] tokens' ⟨.ofTokens tokens', functions, [], none⟩ = .ok trees s' ∧
      s.functions = s'.functions) ∨
    ∃ fault fault' s s', Parse.statements depth [] tokens ⟨.ofTokens tokens, functions, [], none⟩ = .error fault s ∧
      Parse.statements depth [] tokens' ⟨.ofTokens tokens', functions, [], none⟩ = .error fault' s' ∧
      fault.Alike fault' := by
  have hbeside : Beside [] ⟨.ofTokens tokens, functions, [], none⟩ ⟨.ofTokens tokens', functions, [], none⟩ :=
    ⟨by rw [List.append_nil]; exact h, Iff.rfl, rfl, rfl⟩
  have hagrees : Parse.Agrees [] 0 0 _ _ (Parse.statements depth [] tokens ⟨.ofTokens tokens, functions, [], none⟩)
      (Parse.statements depth [] tokens' ⟨.ofTokens tokens', functions, [], none⟩) :=
    Parse.statements_agrees hbeside le_rfl le_rfl
  cases hread : Parse.statements depth [] tokens ⟨.ofTokens tokens, functions, [], none⟩ with
  | ok trees s =>
    rw [hread] at hagrees
    obtain ⟨_, s', hread', ⟨_, rfl, rfl⟩, hbehind⟩ := hagrees.2 (.inl rfl)
    exact .inl ⟨_, s, s', rfl, hread', hbehind.functions⟩
  | error fault s =>
    rw [hread] at hagrees
    obtain ⟨fault', s', hread', halike⟩ := hagrees rfl
    exact .inr ⟨fault, fault', s, s', rfl, hread', halike⟩

/-- **Layout does not count.** Texts with the same words compile to the same bytes or fail with the same stage and
message; and the words of a text, written with any blanks between them, have the same words. -/
theorem compile_ignores_layout :
    (∀ options source source' tokens tokens', tokenize source = .ok tokens → tokenize source' = .ok tokens' →
      tokens.map Token.word = tokens'.map Token.word →
      (∃ bytes, compile options source = .ok bytes ∧ compile options source' = .ok bytes) ∨
      ∃ fault fault' d d', compile options source = .error fault ∧ compile options source' = .error fault' ∧
        fault.diagnostic? = some d ∧ fault'.diagnostic? = some d' ∧ d.SameWording d') ∧
    ∀ source tokens (gap : Nat → String), tokenize source = .ok tokens → (∀ i, IsGap (gap i)) →
      ∃ again, tokenize (Word.joined gap (tokens.map Token.word)) = .ok again ∧
        again.map Token.word = tokens.map Token.word := by
  refine ⟨?_, fun source tokens gap htokens hgap => tokenize_joined htokens hgap⟩
  intro options source source' tokens tokens' htokens htokens' hwords
  rcases reading_alike (like_of_words hwords) nestingLimit .initial with
    ⟨trees, s, s', hread, hread', hfunctions⟩ | ⟨found, found', s, s', hread, hread', halike⟩
  · have hcompile : compile options source = Session.build options s.functions trees := compile_of_read htokens hread
    have hcompile' : compile options source' = Session.build options s.functions trees := by
      rw [hfunctions]
      exact compile_of_read htokens' hread'
    cases hbuild : Session.build options s.functions trees with
    | ok bytes => exact .inl ⟨bytes, hcompile.trans hbuild, hcompile'.trans hbuild⟩
    | error fault =>
      obtain ⟨d, hd, -⟩ := isTold_of_compile (hcompile.trans hbuild)
      exact .inr ⟨fault, fault, d, d, hcompile.trans hbuild, hcompile'.trans hbuild, hd, hd, rfl, rfl⟩
  · obtain ⟨d, hd, -⟩ := parse_isTold htokens hread
    obtain ⟨d', hd', -⟩ := parse_isTold htokens' hread'
    exact .inr ⟨_, _, d, d', compile_of_parse htokens hread, compile_of_parse htokens' hread', hd, hd',
      halike.sameWording hd hd'⟩

/-- a definition written without a blank more than it needs -/
def denseText : String :=
  "fun f()int\x7breturn 1;\x7d"

/-- the same words, each on a line of its own, compile to the same bytes -/
theorem denseText_spread : ∃ tokens bytes, tokenize denseText = .ok tokens ∧ compile .default denseText = .ok bytes ∧
    compile .default (Word.joined (fun _ => "\n\t") (tokens.map Token.word)) = .ok bytes := by
  have hsplit : (tokenize denseText).toOption.isSome = true := by decide +kernel
  have hcompiles : (compile .default denseText).toOption.isSome = true := by decide +kernel
  obtain ⟨tokens, htokens⟩ := Option.isSome_iff_exists.1 hsplit
  obtain ⟨bytes, hbytes⟩ := Option.isSome_iff_exists.1 hcompiles
  have htokens := Step.eq_ok_of_toOption htokens
  have hbytes := Step.eq_ok_of_toOption hbytes
  have hgap : IsGap "\n\t" := by
    refine ⟨by decide, fun c hc => ?_⟩
    have hchar : c = '\n' ∨ c = '\t' := by simpa using hc
    rcases hchar with rfl | rfl
    · decide +kernel
    · decide +kernel
  obtain ⟨hlayout, hjoined⟩ := compile_ignores_layout
  obtain ⟨again, hagain, hwords⟩ := hjoined denseText tokens (fun _ => "\n\t") htokens fun _ => hgap
  rcases hlayout .default denseText _ tokens again htokens hagain hwords.symm with
    ⟨bytes', hsame, hspread⟩ | ⟨fault, _, _, _, hfails, _⟩
  · cases hbytes.symm.trans hsame
    exact ⟨tokens, bytes, htokens, hbytes, hspread⟩
  · cases hbytes.symm.trans hfails

end StackLang
