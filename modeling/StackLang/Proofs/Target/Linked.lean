/-
Pools whose entries refer only to entries before them.

In such a pool (`Pool.Linked`) every entry finds what it refers to, of the kind it needs, among the entries with smaller
numbers. Texts may always be added, and so may the entries of a method reference. Every entry of a linked pool can be
described, and every method reference leads to a callee.
-/
import StackLang.Proofs.Target.Entries

namespace StackLang

/-- an entry refers to entries of the pool that are of the kinds it needs -/
def Constant.ResolvedIn (p : Pool) : Constant → Prop
  | .utf8 _ => True
  | .classRef name => ∃ s, p.text name = .ok s
  | .nameAndType name descriptor => (∃ s, p.text name = .ok s) ∧ ∃ s, p.text descriptor = .ok s
  | .methodRef owner member =>
    (∃ name, p.get? owner = some (.classRef name)) ∧
      ∃ name descriptor, p.get? member = some (.nameAndType name descriptor)
  | .number _ => False

theorem Constant.resolvedIn_of_grows {p q : Pool} (h : Pool.Grows p q) {c : Constant} (hc : c.ResolvedIn p) :
    c.ResolvedIn q := by
  cases c with
  | utf8 s => trivial
  | classRef name =>
    obtain ⟨s, hs⟩ := hc
    exact ⟨s, Pool.text_of_grows h hs⟩
  | nameAndType name descriptor =>
    obtain ⟨⟨s, hs⟩, d, hd⟩ := hc
    exact ⟨⟨s, Pool.text_of_grows h hs⟩, d, Pool.text_of_grows h hd⟩
  | methodRef owner member =>
    obtain ⟨⟨n, hn⟩, n', d, hd⟩ := hc
    exact ⟨⟨n, Pool.get?_of_grows h hn⟩, n', d, Pool.get?_of_grows h hd⟩
  | number value => exact hc

namespace Pool

variable {p : Pool}

theorem grows_append (p : Pool) (cs : List Constant) : Grows p (p.append cs) := by
  unfold Grows append
  rw [Array.toList_append]
  exact List.prefix_append _ _

/-- the entries added come after those that were there -/
theorem get?_append_right {cs : List Constant} {i : Nat} {c : Constant} (h : cs[i]? = some c) :
    (p.append cs).get? ((p.size + 1 + i : Nat) : Int) = some c := by
  have hpos : (1 : Int) ≤ (p.size + 1 + i : Nat) := by omega
  have hplace : (((p.size + 1 + i : Nat) : Int) - 1).toNat = p.entries.toList.length + i := by
    rw [Array.length_toList]
    unfold size
    omega
  unfold get? append
  rw [if_pos hpos, hplace, ← Array.getElem?_toList, Array.toList_append, List.getElem?_append_right (by omega),
    Nat.add_sub_cancel_left]
  exact h

theorem text_append_right {cs : List Constant} {i : Nat} {s : String} (h : cs[i]? = some (.utf8 s)) :
    (p.append cs).text ((p.size + 1 + i : Nat) : Int) = .ok s :=
  text_eq_ok.2 (get?_append_right h)

/-- every entry refers to entries before it, which are of the kinds it needs -/
inductive Linked : Pool → Prop
  | empty : Linked .empty
  | add {p : Pool} {c : Constant} : Linked p → c.ResolvedIn p → Linked (p.append [c])

namespace Linked

/-- so every entry is resolved in the whole pool -/
theorem resolved (h : Linked p) : ∀ c ∈ p.entries.toList, c.ResolvedIn p := by
  induction h with
  | empty => simp [Pool.empty]
  | @add p c _ hc ih =>
    intro d hd
    have hgrows := grows_append p [c]
    unfold append at hd
    rw [Array.toList_append] at hd
    rcases List.mem_append.1 hd with hold | hnew
    · exact Constant.resolvedIn_of_grows hgrows (ih d hold)
    · rw [List.mem_singleton.1 hnew]
      exact Constant.resolvedIn_of_grows hgrows hc

theorem append_texts (h : Linked p) {cs : List Constant} (hcs : ∀ c ∈ cs, ∃ s, c = .utf8 s) : Linked (p.append cs) := by
  induction cs generalizing p with
  | nil =>
    rw [append_nil]
    exact h
  | cons c cs ih =>
    obtain ⟨⟨s, rfl⟩, hrest⟩ := List.forall_mem_cons.1 hcs
    have hfirst : Linked (p.append [.utf8 s]) := h.add trivial
    rw [← List.singleton_append, ← append_append]
    exact ih hfirst hrest

/-- the entries of a method reference refer to each other -/
theorem append_reference (h : Linked p) (owner name descriptor : String) :
    Linked (p.append (referenceEntries p.size owner name descriptor)) := by
  have htexts : Linked (p.append [.utf8 name, .utf8 descriptor]) := h.append_texts (by simp)
  have hmember := htexts.add (c := .nameAndType (p.size + 1 : Nat) (p.size + 2 : Nat))
    ⟨⟨name, text_append_right (i := 0) rfl⟩, descriptor, text_append_right (i := 1) rfl⟩
  rw [append_append] at hmember
  have howner := hmember.add (c := .utf8 owner) trivial
  rw [append_append] at howner
  have hclass := howner.add (c := .classRef (p.size + 4 : Nat)) ⟨owner, text_append_right (i := 3) rfl⟩
  rw [append_append] at hclass
  have hreference := hclass.add (c := .methodRef (p.size + 5 : Nat) (p.size + 3 : Nat))
    ⟨⟨_, get?_append_right (i := 4) rfl⟩, _, _, get?_append_right (i := 2) rfl⟩
  rw [append_append] at hreference
  exact hreference

end Linked

/-- an entry whose references are resolved can be described -/
theorem describe_of_resolved {c : Constant} (h : c.ResolvedIn p) : ∃ s, p.describe c = .ok s := by
  cases c with
  | utf8 s => exact ⟨_, rfl⟩
  | classRef name =>
    obtain ⟨s, hs⟩ := h
    exact ⟨_, by rw [describe, hs]; rfl⟩
  | nameAndType name descriptor =>
    obtain ⟨⟨s, hs⟩, d, hd⟩ := h
    exact ⟨_, by rw [describe, hs, hd]; rfl⟩
  | methodRef owner member => exact ⟨_, rfl⟩
  | number value => exact h.elim

/-- what a reference leads to has a name -/
theorem callee_of_reference? {index : Int} {r : MethodReference} (h : p.reference? index = some r) :
    p.callee index = .ok r.name := by
  obtain ⟨owner, member, _, name, descriptor, hindex, _, hmember, _, hname, _⟩ := reference?_eq_some.1 h
  have hentry {i : Int} {c : Constant} (hc : p.get? i = some c) : p.entry i = .ok c := by
    unfold entry
    rw [hc]
  simp only [callee, hentry hindex, hentry hmember, hname, bind, Except.bind]

end Pool

end StackLang
