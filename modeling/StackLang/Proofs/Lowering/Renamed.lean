/-
Modules that differ in their names.

Two modules under construction are renamed copies of each other (`Module.Renamed`) if they have the same methods, and
pools that differ only in texts that hold their own name or super name. Adding a reference or a method keeps them so and
gives the same number, hence every lowering does (`Lower.Adds.twins`). Writing them succeeds or fails in both cases alike
as long as the names fit in the byte form (`Module.toBytes_renamed`).
-/
import StackLang.Proofs.Lowering.Edits
import StackLang.Proofs.Target.Entries
import StackLang.Proofs.Twins
import StackLang.Session

namespace StackLang

open Step (Agree Twins)

/-- names that fit in the byte form -/
structure Options.Fit (o : Options) : Prop where
  className : (Bytes.ofText o.className).length ≤ 0xFFFF
  superName : (Bytes.ofText o.superName).length ≤ 0xFFFF

variable {o o' : Options}

/-! ## Pools -/

/-- the same entry, or the own name or super name of each side -/
inductive Constant.Renamed (o o' : Options) : Constant → Constant → Prop
  | same (c : Constant) : Renamed o o' c c
  | className : Renamed o o' (.utf8 o.className) (.utf8 o'.className)
  | superName : Renamed o o' (.utf8 o.superName) (.utf8 o'.superName)

namespace Pool

def Renamed (o o' : Options) (p p' : Pool) : Prop :=
  List.Forall₂ (Constant.Renamed o o') p.entries.toList p'.entries.toList

variable {p p' : Pool}

theorem Renamed.size (h : Renamed o o' p p') : p.size = p'.size := by
  simpa [Pool.size] using h.length_eq

theorem twins_add {c c' : Constant} (h : c.Renamed o o' c') : Twins (Renamed o o') Eq (add c) (add c') := by
  intro p p' hp
  unfold add
  rw [← hp.size]
  split
  · refine .inl ⟨_, _, _, _, rfl, rfl, rfl, ?_⟩
    unfold Renamed
    rw [Array.toList_push, Array.toList_push]
    exact List.rel_append hp (.cons h .nil)
  · exact .inr ⟨_, _, _, rfl, rfl, hp⟩

theorem twins_addUtf8 (text : String) : Twins (Renamed o o') Eq (addUtf8 text) (addUtf8 text) :=
  twins_add (.same _)

/-- a reference with the own name of each side for its owner -/
theorem twins_addMethodRef (name descriptor : String) :
    Twins (Renamed o o') Eq (addMethodRef o.className name descriptor) (addMethodRef o'.className name descriptor) := by
  have hmember : Twins (Renamed o o') Eq (addNameAndType name descriptor) (addNameAndType name descriptor) :=
    (twins_addUtf8 name).bind_same fun _ => (twins_addUtf8 descriptor).bind_same fun _ => twins_add (.same _)
  have howner : Twins (Renamed o o') Eq (addClass o.className) (addClass o'.className) :=
    (twins_add .className).bind_same fun _ => twins_add (.same _)
  exact hmember.bind_same fun _ => howner.bind_same fun _ => twins_add (.same _)

/-- a text that fits has a byte form -/
theorem encode_utf8 {s : String} (h : (Bytes.ofText s).length ≤ 0xFFFF) : ∃ bytes, (Constant.utf8 s).encode = .ok bytes := by
  have hlength : twoBytes "utf8 length" (Bytes.ofText s).length = .ok (.two (Bytes.ofText s).length) :=
    if_pos ⟨by omega, by omega⟩
  exact ⟨_, Step.check_bind_eq_ok.2 ⟨_, hlength, rfl⟩⟩

theorem encode_constant_renamed (ho : o.Fit) (ho' : o'.Fit) {c c' : Constant} (h : c.Renamed o o' c') :
    Agree (fun _ _ => True) c.encode c'.encode := by
  cases h with
  | same c => exact (Agree.same _).imp fun _ _ _ => trivial
  | className =>
    obtain ⟨bytes, hbytes⟩ := encode_utf8 ho.className
    obtain ⟨bytes', hbytes'⟩ := encode_utf8 ho'.className
    exact .inl ⟨bytes, bytes', hbytes, hbytes', trivial⟩
  | superName =>
    obtain ⟨bytes, hbytes⟩ := encode_utf8 ho.superName
    obtain ⟨bytes', hbytes'⟩ := encode_utf8 ho'.superName
    exact .inl ⟨bytes, bytes', hbytes, hbytes', trivial⟩

theorem encode_renamed (ho : o.Fit) (ho' : o'.Fit) (h : Renamed o o' p p') :
    Agree (fun _ _ => True) p.encode p'.encode := by
  have hentries : List.Forall₂ (Constant.Renamed o o') p.entries.toList p'.entries.toList := h
  refine (Agree.mapM hentries fun _ _ => encode_constant_renamed ho ho').bind fun _ _ _ => ?_
  exact .inl ⟨_, _, rfl, rfl, trivial⟩

end Pool

/-! ## Methods -/

theorem Attribute.twins_link (a : Attribute) : Twins (Pool.Renamed o o') Eq a.link a.link := by
  refine (Pool.twins_addUtf8 a.name).bind_same fun _ => (Twins.lift (.same _)).bind_same fun _ => ?_
  exact (Twins.lift (.same _)).bind_same fun _ => .pure rfl

theorem Method.twins_link (m : Method) : Twins (Pool.Renamed o o') Eq m.link m.link := by
  refine (Twins.lift (.same _)).bind_same fun _ => ?_
  refine (Pool.twins_addUtf8 m.name).bind_same fun _ => (Twins.lift (.same _)).bind_same fun _ => ?_
  refine (Pool.twins_addUtf8 m.descriptor).bind_same fun _ => (Twins.lift (.same _)).bind_same fun _ => ?_
  refine (Twins.lift (.same _)).bind_same fun _ => ?_
  exact (Twins.mapM Attribute.twins_link m.attributes).bind_same fun _ => .pure rfl

/-! ## Modules -/

/-- open modules with the names of each side and the same methods, their pools renamed -/
structure Module.Renamed (o o' : Options) (m m' : Module) : Prop where
  className : m.name = o.className ∧ m'.name = o'.className
  superName : m.superName = o.superName ∧ m'.superName = o'.superName
  flags : m.flags = m'.flags
  pool : Pool.Renamed o o' m.pool m'.pool
  methods : m.methods = m'.methods
  opened : m.written = none ∧ m'.written = none

namespace Module

variable {m m' : Module}

theorem renamed_empty (o o' : Options) :
    Renamed o o' (.empty o.className o.superName) (.empty o'.className o'.superName) :=
  ⟨⟨rfl, rfl⟩, ⟨rfl, rfl⟩, rfl, .nil, rfl, rfl, rfl⟩

theorem twins_addMethodRef (name descriptor : String) :
    Twins (Renamed o o') Eq (addMethodRef name descriptor) (addMethodRef name descriptor) := by
  intro m m' h
  unfold addMethodRef
  rw [Step.bind_of_ok (checkOpen_of_open h.opened.1), Step.bind_of_ok (checkOpen_of_open h.opened.2),
    Step.bind_of_ok (Step.get_apply m), Step.bind_of_ok (Step.get_apply m'), h.className.1, h.className.2, onPool, onPool]
  rcases Pool.twins_addMethodRef name descriptor m.pool m'.pool h.pool with
    ⟨_, _, p, p', hadd, hadd', rfl, hp⟩ | ⟨fault, p, p', hadd, hadd', hp⟩
  · rw [hadd, hadd']
    exact .inl ⟨_, _, _, _, rfl, rfl, rfl, h.className, h.superName, h.flags, hp, h.methods, h.opened⟩
  · rw [hadd, hadd']
    exact .inr ⟨_, _, _, rfl, rfl, h.className, h.superName, h.flags, hp, h.methods, h.opened⟩

theorem twins_addMethod (name descriptor : String) (code : Bytes) (maxLocals : Int) :
    Twins (Renamed o o') Eq (addMethod name descriptor code maxLocals) (addMethod name descriptor code maxLocals) := by
  intro m m' h
  unfold addMethod
  rw [Step.bind_of_ok (checkOpen_of_open h.opened.1), Step.bind_of_ok (checkOpen_of_open h.opened.2)]
  refine (Twins.lift (.same _)).bind_same (fun body => ?_) m m' h
  intro n n' hn
  refine .inl ⟨_, _, _, _, rfl, rfl, rfl, hn.className, hn.superName, hn.flags, hn.pool, ?_, hn.opened⟩
  exact congrArg (· ++ _) hn.methods

/-- writing works on the pool in both modules alike -/
theorem twins_encode (ho : o.Fit) (ho' : o'.Fit) (h : Renamed o o' m m') :
    Twins (Pool.Renamed o o') (fun _ _ => True) m.encode m'.encode := by
  unfold encode
  rw [h.className.1, h.className.2, h.superName.1, h.superName.2, h.flags, h.methods]
  refine (Pool.twins_add .className).bind_same fun _ => (Pool.twins_add .superName).bind_same fun _ => ?_
  refine (Twins.mapM Method.twins_link m'.methods).bind_same fun _ => (Twins.lift (.same _)).bind_same fun _ => ?_
  refine (Twins.lift (.same _)).bind_same fun _ => (Twins.lift (.same _)).bind_same fun _ => ?_
  refine (Twins.lift (.same _)).bind_same fun _ => (Twins.lift (.same _)).bind_same fun _ => ?_
  refine (Twins.lift (.same _)).bind_same fun _ => (Twins.lift (.same _)).bind_same fun _ => ?_
  refine Twins.get.bind fun p p' hp => ?_
  rw [hp.size]
  refine (Twins.lift (.same _)).bind_same fun _ => (Twins.lift (Pool.encode_renamed ho ho' hp)).bind fun _ _ _ => ?_
  exact .pure trivial

theorem toBytes_renamed (ho : o.Fit) (ho' : o'.Fit) (h : Renamed o o' m m') :
    Agree (fun _ _ => True) (Step.outcome (m.toBytes)) (Step.outcome (m'.toBytes)) := by
  unfold toBytes
  rw [h.opened.1, h.opened.2]
  rcases twins_encode ho ho' h m.pool m'.pool h.pool with
    ⟨bytes, bytes', p, p', hencode, hencode', -⟩ | ⟨fault, p, p', hencode, hencode', -⟩
  · rw [hencode, hencode']
    exact .inl ⟨bytes, bytes', rfl, rfl, trivial⟩
  · rw [hencode, hencode']
    exact .inr ⟨fault, rfl, rfl⟩

end Module

/-- what only adds references and methods gives the same in both modules, and leaves them renamed -/
theorem Lower.Adds.twins {methods : Prop} {α : Type} {x : Lower α} (h : Lower.Adds methods x) :
    Twins (Module.Renamed o o') Eq x x := by
  induction h with
  | pure a => exact .pure rfl
  | throw fault => exact .throw fault
  | reference name descriptor => exact (Module.twins_addMethodRef name descriptor).mapFault _
  | method name descriptor code maxLocals => exact (Module.twins_addMethod name descriptor code maxLocals).mapFault _
  | bind _ _ ihx ihf => exact ihx.bind_same ihf

end StackLang
