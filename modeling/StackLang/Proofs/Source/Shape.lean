/-
The shape of trees that come from source texts.

A tree built by hand may hold any form anywhere. In a tree derived from the tokens of a source text an operand that is
a call holds a call, functions have names with text, and numbers are not negative (`Tree.Proper`). What uses trees of
programs needs no more of the grammar than this.
-/
import StackLang.Proofs.Source.Grammar

namespace StackLang

namespace Tree

mutual

/-- calls stand where they may stand, functions have text for a name, numbers are not negative -/
def Proper : Tree → Prop
  | .number n => 0 ≤ n
  | .name _ | .ident _ => True
  | .positive t | .negative t | .ret t | .declare _ _ t | .assign _ t | .addAssign _ t => t.Proper
  | .binary _ l r => l.Proper ∧ r.Proper
  | .callOperand t => (∃ f arguments, t = .call f arguments) ∧ t.Proper
  | .call f arguments => f.text.isSome = true ∧ ProperAll arguments
  | .define f _ _ body => f.text.isSome = true ∧ ProperAll body
  | .program statements => ProperAll statements

def ProperAll : List Tree → Prop
  | [] => True
  | t :: rest => t.Proper ∧ ProperAll rest

end

theorem properAll_iff {trees : List Tree} : ProperAll trees ↔ ∀ t ∈ trees, t.Proper := by
  induction trees with
  | nil => simp [ProperAll]
  | cons t rest ih => simp [ProperAll, ih]

end Tree

namespace Grammar

def AllLexed (ts : List Token) : Prop :=
  ∀ x ∈ ts, x.Lexed

theorem allLexed_append {ts us : List Token} : AllLexed (ts ++ us) ↔ AllLexed ts ∧ AllLexed us :=
  List.forall_mem_append

theorem allLexed_cons {x : Token} {ts : List Token} : AllLexed (x :: ts) ↔ x.Lexed ∧ AllLexed ts :=
  List.forall_mem_cons

theorem text_isSome {x : Token} (h : x.Lexed) (hkind : x.kind = .name) : x.name.text.isSome = true := by
  obtain ⟨s, hs⟩ := h.name_text hkind
  simp [Token.name, hs]

mutual

theorem Arithmetic.proper {level : Nat} {ts : List Token} {t : Tree} : Arithmetic level ts t → AllLexed ts → t.Proper
  | .binary _ _ hl hr, hts =>
    ⟨hl.proper (allLexed_append.1 hts).1, hr.proper (allLexed_cons.1 (allLexed_append.1 hts).2).2⟩
  | .lift h, hts => h.proper hts
  | .number _ _, _ => Int.natCast_nonneg _
  | .name _, _ => trivial
  | .call h, hts => by
    refine ⟨?_, h.proper hts⟩
    obtain ⟨f, _, _, trees, _, _, _, rfl⟩ := h.head
    exact ⟨f.name, trees, rfl⟩
  | .group _ h _, hts => h.proper (allLexed_append.1 (allLexed_cons.1 hts).2).1
  | .positive _ h, hts => h.proper (allLexed_cons.1 hts).2
  | .negative _ h, hts => h.proper (allLexed_cons.1 hts).2

theorem Call.proper {ts : List Token} {t : Tree} : Call ts t → AllLexed ts → t.Proper
  | .empty hf _ _, hts => ⟨text_isSome (allLexed_cons.1 hts).1 hf, trivial⟩
  | .filled hf _ h _, hts => by
    obtain ⟨hx, hrest⟩ := allLexed_cons.1 hts
    exact ⟨text_isSome hx hf, h.proper (allLexed_append.1 (allLexed_cons.1 hrest).2).1⟩

theorem Arguments.proper {ts : List Token} {trees : List Tree} : Arguments ts trees → AllLexed ts → Tree.ProperAll trees
  | .one h, hts => ⟨h.proper hts, trivial⟩
  | .more h _ h', hts => by
    obtain ⟨hfirst, hrest⟩ := allLexed_append.1 hts
    exact ⟨h.proper hfirst, h'.proper (allLexed_cons.1 hrest).2⟩

theorem Expression.proper {ts : List Token} {t : Tree} : Expression ts t → AllLexed ts → t.Proper
  | .ident _, _ => trivial
  | .call h, hts => h.proper hts
  | .arithmetic h _, hts => h.proper hts

end

theorem Plain.proper {ts : List Token} {t : Tree} (h : Plain ts t) (hts : AllLexed ts) : t.Proper := by
  have hmid {us vs ws : List Token} (h : AllLexed (us ++ (vs ++ ws))) : AllLexed vs :=
    (allLexed_append.1 (allLexed_append.1 h).2).1
  cases h with
  | @ret r _ _ _ _ h _ => exact h.proper (@hmid [r] _ _ hts)
  | @declare l x type e _ _ _ _ _ _ _ h _ => exact h.proper (@hmid [l, x, type, e] _ _ hts)
  | @assign x e _ _ _ _ _ h _ => exact h.proper (@hmid [x, e] _ _ hts)
  | @addAssign x p e _ _ _ _ _ _ h _ => exact h.proper (@hmid [x, p, e] _ _ hts)
  | call h _ => exact h.proper (allLexed_append.1 hts).1

theorem Row.proper {item : List Token → Tree → Prop} (hitem : ∀ ts t, item ts t → AllLexed ts → t.Proper)
    {ts : List Token} {trees : List Tree} (h : Row item ts trees) (hts : AllLexed ts) : Tree.ProperAll trees := by
  induction h with
  | nil => trivial
  | cons hfirst _ ih =>
    obtain ⟨hx, hrest⟩ := allLexed_append.1 hts
    exact ⟨hitem _ _ hfirst hx, ih hrest⟩

theorem Statement.proper {ts : List Token} {t : Tree} (h : Statement ts t) (hts : AllLexed ts) : t.Proper := by
  cases h with
  | plain h => exact h.proper hts
  | define _ hn _ _ _ _ _ hbody _ =>
    refine ⟨text_isSome (hts _ (by simp)) hn, ?_⟩
    exact hbody.proper (fun _ _ => Plain.proper) (fun x hx => hts x (by simp [hx]))

/-- the statements of a program are of the shape that source texts have -/
theorem Program.proper {ts : List Token} {trees : List Tree} (h : Program ts trees) (hts : AllLexed ts) :
    ∀ t ∈ trees, t.Proper :=
  Tree.properAll_iff.1 (Row.proper (fun _ _ => Statement.proper) h hts)

end Grammar

end StackLang
