/-
Places in a source text.

The line of a place is counted by the line feeds in front of it and the column by the characters since the last of them
(`Position.behind`), which is what stepping through the text comes to (`Position.after_behind`), lexeme by lexeme: each
is taken off the front of what is left (`Lexeme.chars_append`).
-/
import Mathlib.Data.List.TakeWhile
import Mathlib.Tactic
import StackLang.Source.Lexeme

namespace StackLang

namespace Position

/-- the place behind a text from its first character on -/
def behind (before : List Char) : Position :=
  ⟨1 + before.count '\n', 1 + (before.reverse.takeWhile (· ≠ '\n')).length⟩

theorem step_behind (before : List Char) (c : Char) : (behind before).step c = behind (before ++ [c]) := by
  unfold step behind
  rw [List.count_append, List.reverse_append, List.reverse_singleton, List.singleton_append]
  by_cases hc : c = '\n'
  · rw [if_pos hc, List.takeWhile_cons_of_neg (by simp [hc]), hc, List.count_singleton_self]
    simp [add_assoc]
  · rw [if_neg hc, List.takeWhile_cons_of_pos (by simp [hc]), List.length_cons, List.count_singleton]
    simp [hc, add_assoc]

theorem after_behind (before cs : List Char) : (behind before).after cs = behind (before ++ cs) := by
  induction cs generalizing before with
  | nil => rw [List.append_nil]; rfl
  | cons c cs ih =>
    calc (behind before).after (c :: cs) = ((behind before).step c).after cs := rfl
      _ = (behind (before ++ [c])).after cs := by rw [step_behind]
      _ = behind (before ++ c :: cs) := by rw [ih, List.append_assoc, List.singleton_append]

end Position

theorem Lexeme.chars_append {c : Char} {rest : List Char} {l : Lexeme} (h : first? c rest = some l) :
    l.chars ++ (c :: rest).drop l.chars.length = c :: rest := by
  have hfront : l.chars <+: c :: rest := by
    unfold first? at h
    split_ifs at h with hblank hword hdigit hpower
    · cases h
      exact (List.prefix_cons_inj c).2 (List.takeWhile_prefix _)
    · cases h
      exact (List.prefix_cons_inj c).2 (List.takeWhile_prefix _)
    · cases h
      exact (List.prefix_cons_inj c).2 (List.takeWhile_prefix _)
    · cases h
      obtain ⟨rfl, hstar⟩ := hpower
      obtain ⟨tail, rfl⟩ := List.head?_eq_some_iff.1 hstar
      exact ⟨tail, rfl⟩
    · obtain ⟨kind, -, rfl⟩ := Option.map_eq_some_iff.1 h
      exact ⟨rest, rfl⟩
  exact List.prefix_iff_eq_append.1 hfront

end StackLang
