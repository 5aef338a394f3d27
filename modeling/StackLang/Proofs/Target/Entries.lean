/-
Exactly which entries are added to a pool.

A method reference takes six entries and is the last of them (`Pool.addMethodRef_eq_ok`). Writing a module adds the
names of the module and then, for each method, its name, its descriptor and the names of its attributes
(`Module.entries`).
-/
import StackLang.Proofs.Target.Written

namespace StackLang

namespace Pool

def append (p : Pool) (cs : List Constant) : Pool :=
  ⟨p.entries ++ cs.toArray⟩

variable {p p' : Pool} {n : Nat}

@[simp]
theorem append_nil (p : Pool) : p.append [] = p := by
  simp [append]

theorem append_append (p : Pool) (cs ds : List Constant) : (p.append cs).append ds = p.append (cs ++ ds) := by
  simp [append, Array.append_assoc]

@[simp]
theorem size_append (p : Pool) (cs : List Constant) : (p.append cs).size = p.size + cs.length := by
  simp [append, size]

theorem add_eq_ok {c : Constant} :
    add c p = .ok n p' ↔ p.size < capacity ∧ n = p.size + 1 ∧ p' = p.append [c] := by
  rw [add_eq_ok_iff]
  simp [append]

/-- the entries of a method reference in a pool of `n` entries -/
def referenceEntries (n : Nat) (owner name descriptor : String) : List Constant :=
  [.utf8 name, .utf8 descriptor, .nameAndType (n + 1 : Nat) (n + 2 : Nat), .utf8 owner, .classRef (n + 4 : Nat),
    .methodRef (n + 5 : Nat) (n + 3 : Nat)]

/-- a method reference takes six entries, and is the last of them -/
theorem addMethodRef_eq_ok {owner name descriptor : String} :
    addMethodRef owner name descriptor p = .ok n p' ↔
      p.size + 6 ≤ capacity ∧ n = p.size + 6 ∧ p' = p.append (referenceEntries p.size owner name descriptor) := by
  simp only [addMethodRef, addNameAndType, addClass, addUtf8, Step.bind_eq_ok, add_eq_ok]
  constructor
  · rintro ⟨_, _, ⟨_, _, ⟨_, rfl, rfl⟩, _, _, ⟨_, rfl, rfl⟩, _, rfl, rfl⟩, _, _, ⟨_, _, ⟨_, rfl, rfl⟩, _, rfl, rfl⟩, hroom,
      rfl, rfl⟩
    simp only [append_append, size_append, List.length_append, List.length_singleton] at hroom ⊢
    exact ⟨by omega, trivial, rfl⟩
  · rintro ⟨hroom, rfl, rfl⟩
    refine ⟨_, _, ⟨_, _, ⟨by omega, rfl, rfl⟩, _, _, ⟨?_, rfl, rfl⟩, ?_, rfl, rfl⟩, _, _,
      ⟨_, _, ⟨?_, rfl, rfl⟩, ?_, rfl, rfl⟩, ?_, ?_, ?_⟩ <;>
      simp only [append_append, size_append, List.length_append, List.length_singleton]
    any_goals omega
    rfl

end Pool

/-- the entries of a method: its name, its descriptor, and the names of its attributes -/
def Method.entries (m : Method) : List Constant :=
  .utf8 m.name :: .utf8 m.descriptor :: m.attributes.map fun a => .utf8 a.name

/-- the entries of a module: its two names, and the entries of its methods -/
def Module.entries (m : Module) : List Constant :=
  .utf8 m.name :: .utf8 m.superName :: m.methods.flatMap Method.entries

end StackLang
