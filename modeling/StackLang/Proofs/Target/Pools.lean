/-
What the constant pool keeps.

`Pool.Grows p q`: the entries of `p` are the first entries of `q`. An entry found under a number is found under the
same number in every pool grown from it (`get?_of_grows`), and so is what a method reference leads to through several
entries (`reference?_of_grows`). The number that a new method reference gets leads to its owner, name and descriptor
(`reference?_addMethodRef`).
-/
import Mathlib.Tactic
import StackLang.Proofs.Steps
import StackLang.Target.Listing

namespace StackLang

/-- what a method reference leads to -/
structure MethodReference where
  owner : String
  name : String
  descriptor : String
deriving DecidableEq, Repr

namespace Pool

/-! ## Growth -/

/-- `q` has the entries of `p` in front -/
def Grows (p q : Pool) : Prop :=
  p.entries.toList <+: q.entries.toList

theorem Grows.refl (p : Pool) : Grows p p :=
  List.prefix_refl _

theorem Grows.trans {p q r : Pool} (h1 : Grows p q) (h2 : Grows q r) : Grows p r :=
  List.IsPrefix.trans h1 h2

theorem grows_push (p : Pool) (c : Constant) : Grows p ⟨p.entries.push c⟩ := by
  unfold Grows
  rw [Array.toList_push]
  exact List.prefix_append _ _

/-- an entry keeps its number -/
theorem get?_of_grows {p q : Pool} (h : Grows p q) {index : Int} {c : Constant} (hc : p.get? index = some c) :
    q.get? index = some c := by
  obtain ⟨more, hq⟩ := h
  unfold get? at hc ⊢
  split at hc
  · rename_i hpos
    rw [if_pos hpos]
    rw [← Array.getElem?_toList] at hc ⊢
    obtain ⟨hlt, _⟩ := List.getElem?_eq_some_iff.1 hc
    rw [← hq, List.getElem?_append_left hlt]
    exact hc
  · cases hc

/-- the newest entry has the number of entries for its number -/
theorem get?_push_size (p : Pool) (c : Constant) : get? ⟨p.entries.push c⟩ ((p.size + 1 : Nat) : Int) = some c := by
  rw [get?_push, if_pos rfl]

/-- entries are found under the numbers from 1 on -/
theorem index_le {p : Pool} {index : Int} {c : Constant} (h : p.get? index = some c) : 1 ≤ index ∧ index ≤ p.size := by
  unfold get? at h
  split at h
  · obtain ⟨hlt, _⟩ := Array.getElem?_eq_some_iff.1 h
    unfold size
    omega
  · cases h

/-! ## Texts -/

theorem text_eq_ok {p : Pool} {index : Int} {s : String} : p.text index = .ok s ↔ p.get? index = some (.utf8 s) := by
  unfold text entry
  cases p.get? index with
  | none => simp [bind, Except.bind]
  | some c => cases c <;> simp [bind, Except.bind]

theorem text_of_grows {p q : Pool} (h : Grows p q) {index : Int} {s : String} (hs : p.text index = .ok s) :
    q.text index = .ok s :=
  text_eq_ok.2 (get?_of_grows h (text_eq_ok.1 hs))

/-! ## Adding -/

theorem addUtf8_eq_ok {text : String} {p p' : Pool} {n : Nat} :
    addUtf8 text p = .ok n p' ↔ p.size < capacity ∧ n = p.size + 1 ∧ p' = ⟨p.entries.push (.utf8 text)⟩ :=
  add_eq_ok_iff _ p p' n

/-- the text added last is found under the number it was given -/
theorem text_addUtf8 {text : String} {p p' : Pool} {n : Nat} (h : addUtf8 text p = .ok n p') :
    p'.text n = .ok text := by
  obtain ⟨_, rfl, rfl⟩ := addUtf8_eq_ok.1 h
  exact text_eq_ok.2 (get?_push_size p _)

theorem grows_addUtf8 {text : String} {p p' : Pool} {n : Nat} (h : addUtf8 text p = .ok n p') : Grows p p' := by
  obtain ⟨_, _, rfl⟩ := addUtf8_eq_ok.1 h
  exact grows_push p _

/-- the number of a text fits in two bytes -/
theorem addUtf8_lt {text : String} {p p' : Pool} {n : Nat} (h : addUtf8 text p = .ok n p') : n < 0x10000 := by
  obtain ⟨hroom, rfl, _⟩ := addUtf8_eq_ok.1 h
  unfold capacity at hroom
  omega

theorem grows_add {c : Constant} {p p' : Pool} {n : Nat} (h : add c p = .ok n p') : Grows p p' := by
  obtain ⟨_, _, rfl⟩ := (add_eq_ok_iff c p p' n).1 h
  exact grows_push p c

theorem get?_add {c : Constant} {p p' : Pool} {n : Nat} (h : add c p = .ok n p') : p'.get? n = some c := by
  obtain ⟨_, rfl, rfl⟩ := (add_eq_ok_iff c p p' n).1 h
  exact get?_push_size p c

/-! ## Method references -/

/-- the method that an entry refers to: its owner, its name and its descriptor -/
def reference? (p : Pool) (index : Int) : Option MethodReference :=
  match p.get? index with
  | some (.methodRef owner member) =>
    match p.get? owner, p.get? member with
    | some (.classRef ownerName), some (.nameAndType name descriptor) =>
      match p.text ownerName, p.text name, p.text descriptor with
      | .ok owner, .ok name, .ok descriptor => some ⟨owner, name, descriptor⟩
      | _, _, _ => none
    | _, _ => none
  | _ => none

theorem reference?_eq_some {p : Pool} {index : Int} {r : MethodReference} :
    p.reference? index = some r ↔ ∃ owner member ownerName name descriptor,
      p.get? index = some (.methodRef owner member) ∧ p.get? owner = some (.classRef ownerName) ∧
      p.get? member = some (.nameAndType name descriptor) ∧ p.text ownerName = .ok r.owner ∧
      p.text name = .ok r.name ∧ p.text descriptor = .ok r.descriptor := by
  constructor
  · intro h
    unfold reference? at h
    split at h
    · rename_i owner member hindex
      split at h
      · rename_i ownerName name descriptor howner hmember
        split at h
        · rename_i o n d ho hn hd
          cases h
          exact ⟨owner, member, ownerName, name, descriptor, hindex, howner, hmember, ho, hn, hd⟩
        · cases h
      · cases h
    · cases h
  · rintro ⟨owner, member, ownerName, name, descriptor, hindex, howner, hmember, ho, hn, hd⟩
    simp only [reference?, hindex, howner, hmember, ho, hn, hd]

/-- a reference leads to the same method in every pool grown from this one -/
theorem reference?_of_grows {p q : Pool} (h : Grows p q) {index : Int} {r : MethodReference}
    (hr : p.reference? index = some r) : q.reference? index = some r := by
  obtain ⟨owner, member, ownerName, name, descriptor, hindex, howner, hmember, ho, hn, hd⟩ := reference?_eq_some.1 hr
  exact reference?_eq_some.2 ⟨owner, member, ownerName, name, descriptor, get?_of_grows h hindex,
    get?_of_grows h howner, get?_of_grows h hmember, text_of_grows h ho, text_of_grows h hn, text_of_grows h hd⟩

theorem addNameAndType_eq_ok {name descriptor : String} {p p' : Pool} {n : Nat}
    (h : addNameAndType name descriptor p = .ok n p') :
    Grows p p' ∧ ∃ i j : Nat, p'.get? n = some (.nameAndType i j) ∧ p'.text i = .ok name ∧
      p'.text j = .ok descriptor := by
  obtain ⟨i, p₁, hname, h⟩ := Step.bind_eq_ok.1 h
  obtain ⟨j, p₂, hdescriptor, h⟩ := Step.bind_eq_ok.1 h
  have h₁ := grows_addUtf8 hname
  have h₂ := grows_addUtf8 hdescriptor
  have h₃ := grows_add h
  exact ⟨(h₁.trans h₂).trans h₃, i, j, get?_add h, text_of_grows (h₂.trans h₃) (text_addUtf8 hname),
    text_of_grows h₃ (text_addUtf8 hdescriptor)⟩

theorem addClass_eq_ok {name : String} {p p' : Pool} {n : Nat} (h : addClass name p = .ok n p') :
    Grows p p' ∧ ∃ i : Nat, p'.get? n = some (.classRef i) ∧ p'.text i = .ok name := by
  obtain ⟨i, p₁, hname, h⟩ := Step.bind_eq_ok.1 h
  have h₂ := grows_add h
  exact ⟨(grows_addUtf8 hname).trans h₂, i, get?_add h, text_of_grows h₂ (text_addUtf8 hname)⟩

/-- the number of a new method reference fits in two bytes and leads to its method -/
theorem reference?_addMethodRef {owner name descriptor : String} {p p' : Pool} {n : Nat}
    (h : addMethodRef owner name descriptor p = .ok n p') :
    Grows p p' ∧ n < 0x10000 ∧ p'.reference? n = some ⟨owner, name, descriptor⟩ := by
  obtain ⟨member, p₁, hmember, h⟩ := Step.bind_eq_ok.1 h
  obtain ⟨class_, p₂, hclass, h⟩ := Step.bind_eq_ok.1 h
  obtain ⟨h₁, i, j, hnt, hi, hj⟩ := addNameAndType_eq_ok hmember
  obtain ⟨h₂, k, hcl, hk⟩ := addClass_eq_ok hclass
  have h₃ := grows_add h
  have h₂₃ := h₂.trans h₃
  obtain ⟨hroom, hn, _⟩ := (add_eq_ok_iff _ _ _ _).1 h
  refine ⟨h₁.trans h₂₃, ?_, reference?_eq_some.2 ⟨class_, member, k, i, j, get?_add h, get?_of_grows h₃ hcl,
    get?_of_grows h₂₃ hnt, text_of_grows h₃ hk, text_of_grows h₂₃ hi, text_of_grows h₂₃ hj⟩⟩
  unfold capacity at hroom
  omega

end Pool

end StackLang
