/-
The functions known at a point of a source text, in order of definition.

A table starts with the built-in `println` and only grows; a name is defined once.
-/
import StackLang.Signature

namespace StackLang

/-- named signatures in order of definition -/
structure FunctionTable where
  entries : List (Name × Signature)
deriving DecidableEq, Repr

namespace FunctionTable

/-- the table before any definition: the built-in `println` takes an integer and returns nothing -/
def initial : FunctionTable :=
  ⟨[("println", ⟨TypeWord.void, [⟨"value", TypeWord.int⟩]⟩)]⟩

def find? (t : FunctionTable) (name : Name) : Option Signature :=
  t.entries.lookup name

def contains (t : FunctionTable) (name : Name) : Bool :=
  (t.find? name).isSome

def names (t : FunctionTable) : List Name :=
  t.entries.map (·.1)

def size (t : FunctionTable) : Nat :=
  t.entries.length

/-- the signature of a function that has been defined -/
def lookup (t : FunctionTable) (name : Name) : Except Violation Signature :=
  match t.find? name with
  | some s => .ok s
  | none => .error (.undefinedFunction name)

/-- add a function under a fresh name -/
def define (t : FunctionTable) (name : Name) (s : Signature) : Except Violation FunctionTable :=
  if t.contains name then .error (.functionExists name) else .ok ⟨t.entries ++ [(name, s)]⟩

/-! ## What a definition does to the table -/

theorem find?_eq_none_iff (t : FunctionTable) (name : Name) : t.find? name = none ↔ name ∉ t.names := by
  obtain ⟨entries⟩ := t
  simp only [find?, names]
  induction entries with
  | nil => simp
  | cons e entries ih =>
    obtain ⟨key, s⟩ := e
    by_cases h : name = key
    · simp [h]
    · simp only [List.lookup_cons, beq_eq_false_iff_ne.2 h, List.map_cons, List.mem_cons, h, false_or]
      exact ih

/-- a definition adds its name at the end, and only if it is new -/
theorem define_eq_ok_iff (t t' : FunctionTable) (name : Name) (s : Signature) :
    t.define name s = .ok t' ↔ name ∉ t.names ∧ t' = ⟨t.entries ++ [(name, s)]⟩ := by
  rw [← find?_eq_none_iff]
  unfold define contains
  cases t.find? name with
  | none => simp [eq_comm]
  | some _ => simp

end FunctionTable

end StackLang
