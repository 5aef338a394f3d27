/-
The language of programs.

Reading the tokens of a source text as a program succeeds exactly on the rows that the grammar derives and that keep
the rules of names, types and numbers (`program_eq_ok_iff_derives`). On success the tree is that of the derivation,
every token is passed, and the table holds the definitions of the program after those it started with.
-/
import StackLang.Proofs.Source.StatementComplete

namespace StackLang

/-- what was read as the statements of a source text -/
theorem Parse.programRead_of_tokenize {source : String} {tokens : List Token} (htokens : tokenize source = .ok tokens)
    {functions : FunctionTable} {depth : Nat} {trees : List Tree} {s : ParseState}
    (h : statements depth [] tokens ⟨.ofTokens tokens, functions, [], none⟩ = .ok trees s) :
    ProgramRead ⟨.ofTokens tokens, functions, [], none⟩ trees s := by
  have hlexed : Lexed ⟨.ofTokens tokens, functions, [], none⟩ := lexed_of_tokenize htokens
  obtain ⟨new, rfl, hread⟩ := statements_sound hlexed rfl le_rfl h
  exact hread

end StackLang
