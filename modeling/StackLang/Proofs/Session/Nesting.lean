/-
The limit on nesting.

A session gives reading and lowering `nestingLimit` levels: it is the run (`Session.runWithin`) at that limit. A greater
limit changes nothing where the smaller one was enough: the same result or fault comes out of reading and lowering, and
the same cursor, table and module are left behind. So a limit does no more than turn the outcome of a source into one of
two faults (`nesting_limit_transparent`).
-/
import StackLang.Proofs.Lowering.Nesting
import StackLang.Proofs.Source.Nesting
import StackLang.Session

namespace StackLang

open Step (UpTo)

/-- the two faults that a limit brings about -/
inductive Fault.Nested : Fault → Prop
  | parse : Nested (.parse (.syntactic .nestedTooDeeply none))
  | lower : Nested (.lower (.semantic .nestedTooDeeply))

theorem Fault.Nested.diagnostic? {fault : Fault} (h : fault.Nested) :
    fault.diagnostic? = some ⟨.syntactic, "program is nested too deeply to parse", none, none⟩ ∨
      fault.diagnostic? = some ⟨.semantic, "expression is nested too deeply to generate", none, none⟩ := by
  cases h with
  | parse => exact .inl rfl
  | lower => exact .inr rfl

namespace Session

variable {limit more : Nat}

theorem parseWithin_upTo (h : limit ≤ more) (tokens : List Token) :
    UpTo Fault.Nested (parseWithin limit tokens) (parseWithin more tokens) := by
  intro s
  unfold parseWithin parseWith
  rcases (Parse.statements_within h tokens []).ends ⟨.ofTokens tokens, s.functions, [], none⟩ with heq | ⟨left, hdeep⟩
  · rw [heq]
    exact .inl rfl
  · rw [hdeep]
    exact .inr ⟨_, _, .parse, rfl⟩

theorem lowerWithin_upTo (h : limit ≤ more) (trees : List Tree) :
    UpTo Fault.Nested (lowerWithin limit trees) (lowerWithin more trees) := by
  rintro ⟨functions, target⟩
  unfold lowerWithin
  dsimp only
  rcases (Lower.definitions_within h trees).ends target with heq | ⟨left, hdeep⟩
  · rw [heq]
    exact .inl rfl
  · rw [hdeep]
    exact .inr ⟨_, _, .lower, rfl⟩

theorem runWithin_upTo (h : limit ≤ more) (source : String) :
    UpTo Fault.Nested (runWithin limit source) (runWithin more source) := by
  refine UpTo.behind _ fun tokens => (parseWithin_upTo h tokens).bind fun trees => ?_
  exact (lowerWithin_upTo h trees).before _

end Session

/-- **The limit is transparent.** Reading from any state, and lowering any statements with any table into any module, end
with a greater limit as they end with a smaller one that they did not exceed, in result or fault and in the state left
behind. So a source in any session has the same outcome at both limits, or at the smaller one it is told to be nested too
deeply. The limit of a session is one of these limits. -/
theorem nesting_limit_transparent {limit more : Nat} (h : limit ≤ more) :
    Session.run = Session.runWithin nestingLimit ∧
    (∀ s : ParseState, (∀ left, Parse.program limit s ≠ .error .tooDeep left) →
      Parse.program more s = Parse.program limit s) ∧
    (∀ (functions : FunctionTable) (trees : List Tree) (target : Module),
      (∀ left, Lower.definitions functions limit trees target ≠ .error .tooDeep left) →
      Lower.definitions functions more trees target = Lower.definitions functions limit trees target) ∧
    ∀ (session : Session) (source : String),
      Session.runWithin limit source session = Session.runWithin more source session ∨
      ∃ fault left, Session.runWithin limit source session = .error fault left ∧
        (fault.diagnostic? = some ⟨.syntactic, "program is nested too deeply to parse", none, none⟩ ∨
          fault.diagnostic? = some ⟨.semantic, "expression is nested too deeply to generate", none, none⟩) := by
  refine ⟨rfl, fun s hkept => ?_, fun functions trees target hkept => ?_, fun session source => ?_⟩
  · exact (Parse.program_within h).eq hkept
  · exact (Lower.definitions_within h trees).eq hkept
  · rcases Session.runWithin_upTo h source session with heq | ⟨fault, left, hnested, hrun⟩
    · exact .inl heq
    · exact .inr ⟨fault, left, hrun, hnested.diagnostic?⟩

/-- a number in parentheses: reading it takes five levels -/
def groupedTokens : List Token :=
  [⟨.returnWord, none, ⟨1, 1⟩⟩, ⟨.openParen, none, ⟨1, 8⟩⟩, ⟨.number, some "1", ⟨1, 9⟩⟩, ⟨.closeParen, none, ⟨1, 10⟩⟩,
   ⟨.semicolon, none, ⟨1, 11⟩⟩]

/-- with four levels the number is out of reach; with five it is read, and so it is at the limit of a session -/
theorem groupedTokens_within : 5 ≤ nestingLimit ∧
    (∃ left, Parse.program 4 ⟨.ofTokens groupedTokens, .initial, [], none⟩ = .error .tooDeep left) ∧
    Parse.program nestingLimit ⟨.ofTokens groupedTokens, .initial, [], none⟩ =
      .ok (.program [.ret (.number 1)]) ⟨⟨groupedTokens.reverse, []⟩, .initial, [], none⟩ := by
  have hlimit : 5 ≤ nestingLimit := by decide
  have hfive : Parse.program 5 ⟨.ofTokens groupedTokens, .initial, [], none⟩ =
      .ok (.program [.ret (.number 1)]) ⟨⟨groupedTokens.reverse, []⟩, .initial, [], none⟩ := rfl
  refine ⟨hlimit, ⟨_, rfl⟩, ?_⟩
  rw [← hfive]
  refine (nesting_limit_transparent hlimit).2.1 _ fun left hdeep => ?_
  cases hfive.symm.trans hdeep

end StackLang
