/-
The variables of a function while its body is lowered.

Slots are given in order of declaration from 0 and never given again, parameters first, so the number of variables is
the number of locals.
-/
import StackLang.Violation

namespace StackLang

structure Variable where
  slot : Nat
  type : Name
deriving DecidableEq, Repr

/-- variables by name, in order of declaration -/
structure Locals where
  entries : List (Name × Variable)
deriving DecidableEq, Repr

namespace Locals

def empty : Locals := ⟨[]⟩

/-- the number of slots in use -/
def count (l : Locals) : Nat :=
  l.entries.length

def find? (l : Locals) (name : Name) : Option Variable :=
  l.entries.lookup name

def contains (l : Locals) (name : Name) : Bool :=
  (l.find? name).isSome

def get (l : Locals) (name : Name) : Except Violation Variable :=
  match l.find? name with
  | some v => .ok v
  | none => .error (.undeclaredVariable name)

/-- give the next slot to a new variable -/
def declare (l : Locals) (name type : Name) : Except Violation (Variable × Locals) :=
  if l.contains name then .error (.redeclaredVariable name)
  else
    let v : Variable := ⟨l.count, type⟩
    .ok (v, ⟨l.entries ++ [(name, v)]⟩)

/-- a declaration takes the next slot -/
theorem declare_eq_ok {l l' : Locals} {name type : Name} {v : Variable} (h : l.declare name type = .ok (v, l')) :
    l.find? name = none ∧ v = ⟨l.count, type⟩ ∧ l'.entries = l.entries ++ [(name, v)] := by
  unfold declare contains at h
  cases hf : l.find? name with
  | none =>
    simp only [hf, Option.isSome_none, Bool.false_eq_true, if_false, Except.ok.injEq, Prod.mk.injEq] at h
    obtain ⟨rfl, rfl⟩ := h
    exact ⟨rfl, rfl, rfl⟩
  | some w => simp [hf] at h

theorem count_declare {l l' : Locals} {name type : Name} {v : Variable} (h : l.declare name type = .ok (v, l')) :
    l'.count = l.count + 1 := by
  obtain ⟨_, _, h⟩ := declare_eq_ok h
  simp [count, h]

end Locals

end StackLang
