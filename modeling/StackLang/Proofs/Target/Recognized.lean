/-
Reading accepts the bytes of the format and no others.

The byte form of each part of a module is told as a relation: of an attribute (`Attribute.Form`), of a method
(`MethodImage.Form`) and of the whole (`Image.Form`), each put together from the forms of its parts. Names are written
as numbers of texts in the pool, and the pool is written as `Pool.encode` writes it.

`Image.Recognizes step form`: the step takes exactly the bytes of the form, and succeeds on nothing else. The reader of
each part recognizes its form, so bytes are read back as a module exactly if they are laid out as its form says
(`reads_exactly_form`).
-/
import StackLang.Proofs.Target.Reading

namespace StackLang

/-! ## Bytes -/

namespace Bytes

variable {bytes : Bytes}

theorem length_one_iff {n : Nat} : bytes.length = 1 ∧ n = ofBE bytes ↔ n < 0x100 ∧ bytes = [UInt8.ofNat n] := by
  constructor
  · rintro ⟨hlength, rfl⟩
    obtain ⟨a, rfl⟩ := List.length_eq_one_iff.1 hlength
    have ha := a.toNat_lt
    simp only [ofBE, List.foldl_cons, List.foldl_nil, List.cons.injEq, and_true, ← UInt8.toNat_inj, UInt8.toNat_ofNat']
    omega
  · rintro ⟨hn, rfl⟩
    simp only [ofBE, List.foldl_cons, List.foldl_nil, UInt8.toNat_ofNat', List.length_singleton, true_and]
    omega

theorem length_two_iff {n : Nat} : bytes.length = 2 ∧ n = ofBE bytes ↔ n < 0x10000 ∧ bytes = two n := by
  constructor
  · rintro ⟨hlength, rfl⟩
    obtain ⟨a, b, rfl⟩ := List.length_eq_two.1 hlength
    have ha := a.toNat_lt
    have hb := b.toNat_lt
    simp only [ofBE, two, List.foldl_cons, List.foldl_nil, List.cons.injEq, and_true, ← UInt8.toNat_inj,
      UInt8.toNat_ofNat']
    omega
  · rintro ⟨hn, rfl⟩
    exact ⟨rfl, (ofBE_two hn).symm⟩

theorem length_four_iff {n : Nat} : bytes.length = 4 ∧ n = ofBE bytes ↔ n < 0x100000000 ∧ bytes = four n := by
  constructor
  · rintro ⟨hlength, rfl⟩
    obtain ⟨a, b, c, d, rfl⟩ : ∃ a b c d, bytes = [a, b, c, d] := by
      match bytes, hlength with
      | [a, b, c, d], _ => exact ⟨a, b, c, d, rfl⟩
    have ha := a.toNat_lt
    have hb := b.toNat_lt
    have hc := c.toNat_lt
    have hd := d.toNat_lt
    simp only [ofBE, four, List.foldl_cons, List.foldl_nil, List.cons.injEq, and_true, ← UInt8.toNat_inj,
      UInt8.toNat_ofNat']
    omega
  · rintro ⟨hn, rfl⟩
    exact ⟨rfl, (ofBE_four hn).symm⟩

/-- a text has no other bytes than its own -/
theorem toText?_eq_some {text : String} : toText? bytes = some text ↔ bytes = ofText text := by
  constructor
  · intro h
    unfold toText? String.fromUTF8? at h
    split at h
    · cases h
      rfl
    · cases h
  · rintro rfl
    exact toText?_ofText text

end Bytes

/-! ## Forms -/

/-- the bytes of an attribute: the number of its name in the pool, the length of its data, and the data -/
inductive Attribute.Form (constants : Pool) : Bytes → Attribute → Prop
  | mk {index : Nat} {a : Attribute} : index < 0x10000 → constants.get? index = some (.utf8 a.name) →
      a.data.length < 0x100000000 → (a.name = codeName → 8 ≤ a.data.length) →
      Form constants (.two index ++ (.four a.data.length ++ a.data)) a

/-- a method with the number of locals and the code of the last code attribute, or as it is if there is none -/
def MethodImage.withCode (m : MethodImage) (attributes : List Attribute) : MethodImage :=
  match (attributes.filter fun a => a.name = codeName).getLast? with
  | some a => { m with maxLocals := Bytes.ofBE ((a.data.drop 2).take 2), code := a.data.drop 8 }
  | none => m

/-- the bytes of a method: its flags, the numbers of its names in the pool, and its attributes behind their number -/
inductive MethodImage.Form (constants : Pool) : Bytes → MethodImage → Prop
  | mk {flags nameIndex descriptorIndex : Nat} {name descriptor : String} {attributes : List Attribute}
      {parts : List Bytes} : flags < 0x10000 →
      nameIndex < 0x10000 → constants.get? nameIndex = some (.utf8 name) →
      descriptorIndex < 0x10000 → constants.get? descriptorIndex = some (.utf8 descriptor) →
      attributes.length < 0x10000 → List.Forall₂ (Attribute.Form constants) parts attributes →
      Form constants
        (.two flags ++ (.two nameIndex ++ (.two descriptorIndex ++ (.two attributes.length ++ parts.flatten))))
        (MethodImage.withCode ⟨name, descriptor, flags, 0, []⟩ attributes)

/-- the bytes of a module behind its pool: flags and the numbers of its names; no interfaces and no fields; the methods
behind their number; and a last number that says nothing -/
inductive Image.BodyForm : Bytes → Image → Prop
  | mk {d : Image} {thisIndex superIndex last : Nat} {methods : List Bytes} : d.flags < 0x10000 →
      thisIndex < 0x10000 → d.constants.get? thisIndex = some (.utf8 d.thisName) →
      superIndex < 0x10000 → d.constants.get? superIndex = some (.utf8 d.superName) →
      d.methods.length < 0x10000 → List.Forall₂ (MethodImage.Form d.constants) methods d.methods → last < 0x10000 →
      BodyForm (.two d.flags ++ (.two thisIndex ++ (.two superIndex ++ (.two 0 ++ (.two 0 ++
        (.two d.methods.length ++ (methods.flatten ++ .two last))))))) d

/-- the bytes of a module: the header, the pool behind the number of its entries plus one, and the rest -/
inductive Image.Form : Bytes → Image → Prop
  | mk {d : Image} {constants rest : Bytes} : d.constants.size + 1 < 0x10000 → d.constants.encode = .ok constants →
      BodyForm rest d → Form (Module.header ++ (.two (d.constants.size + 1) ++ (constants ++ rest))) d

namespace Image

/-! ## Steps that recognize a form -/

/-- the step takes exactly the bytes of the form, and succeeds on nothing else -/
structure Recognizes {α : Type} (step : ReadM α) (form : Bytes → α → Prop) : Prop where
  reads : ∀ {bytes a}, form bytes a → Reads step bytes a
  only : ∀ {input left a}, step input = .ok a left → ∃ bytes, form bytes a ∧ input.rest = bytes ++ left.rest

namespace Recognizes

variable {α β : Type} {step : ReadM α} {form form' : Bytes → α → Prop}

theorem congr (h : Recognizes step form) (hform : ∀ bytes a, form bytes a ↔ form' bytes a) : Recognizes step form' := by
  have heq : form = form' := funext fun bytes => funext fun a => propext (hform bytes a)
  rw [← heq]
  exact h

/-- a run that starts with the step took bytes of its form first -/
theorem first {f : α → ReadM β} {input left : Input} {b : β} (h : Recognizes step form)
    (hrun : (step >>= f) input = .ok b left) :
    ∃ a bytes next, form bytes a ∧ input.rest = bytes ++ next.rest ∧ f a next = .ok b left := by
  obtain ⟨a, next, hstep, hrest⟩ := Step.bind_eq_ok.1 hrun
  obtain ⟨bytes, hform, hinput⟩ := h.only hstep
  exact ⟨a, bytes, next, hform, hinput, hrest⟩

end Recognizes

theorem recognizes_take (n : Nat) : Recognizes (take n) (fun bytes a => bytes.length = n ∧ a = bytes) := by
  refine ⟨?_, ?_⟩
  · rintro _ bytes ⟨rfl, rfl⟩
    exact reads_take bytes
  · intro input left a h
    unfold take at h
    dsimp only at h
    split at h
    · rename_i hlength
      cases h
      exact ⟨_, ⟨hlength, rfl⟩, (List.take_append_drop n input.rest).symm⟩
    · cases h

theorem recognizes_takeNat (n : Nat) :
    Recognizes (takeNat n) (fun bytes value => bytes.length = n ∧ value = Bytes.ofBE bytes) := by
  refine ⟨?_, ?_⟩
  · rintro bytes _ ⟨rfl, rfl⟩
    exact reads_takeNat bytes
  · intro input left value h
    obtain ⟨bytes, _, next, ⟨hlength, rfl⟩, hinput, h⟩ := (recognizes_take n).first h
    cases h
    exact ⟨bytes, ⟨hlength, rfl⟩, hinput⟩

theorem recognizes_one : Recognizes (takeNat 1) (fun bytes n => n < 0x100 ∧ bytes = [UInt8.ofNat n]) :=
  (recognizes_takeNat 1).congr fun _ _ => Bytes.length_one_iff

theorem recognizes_two : Recognizes (takeNat 2) (fun bytes n => n < 0x10000 ∧ bytes = .two n) :=
  (recognizes_takeNat 2).congr fun _ _ => Bytes.length_two_iff

theorem recognizes_four : Recognizes (takeNat 4) (fun bytes n => n < 0x100000000 ∧ bytes = .four n) :=
  (recognizes_takeNat 4).congr fun _ _ => Bytes.length_four_iff

theorem recognizes_name (constants : Pool) : Recognizes (name constants)
    (fun bytes s => ∃ n < 0x10000, constants.get? (n : Nat) = some (.utf8 s) ∧ bytes = .two n) := by
  refine ⟨?_, ?_⟩
  · rintro _ s ⟨n, hn, hs, rfl⟩
    exact reads_name hn (Pool.text_eq_ok.2 hs)
  · intro input left s h
    obtain ⟨n, _, next, ⟨hn, rfl⟩, hinput, h⟩ := recognizes_two.first h
    obtain ⟨hs, rfl⟩ := Step.lift_eq_ok.1 h
    exact ⟨.two n, ⟨n, hn, Pool.text_eq_ok.1 hs, rfl⟩, hinput⟩

/-- a counted row -/
theorem recognizes_repeated {α : Type} {step : ReadM α} {form : Bytes → α → Prop} (h : Recognizes step form) (n : Nat)
    (found : List α) : Recognizes (repeated step found n)
      (fun bytes all => ∃ parts items, items.length = n ∧ List.Forall₂ form parts items ∧
        bytes = parts.flatten ∧ all = found.reverse ++ items) := by
  refine ⟨?_, ?_⟩
  · rintro _ _ ⟨parts, items, rfl, hform, rfl, rfl⟩
    exact reads_repeated (hform.imp fun _ _ => h.reads) found
  · intro input left all hrun
    induction n generalizing found input with
    | zero =>
      cases hrun
      exact ⟨[], ⟨[], [], rfl, .nil, rfl, by simp⟩, rfl⟩
    | succ n ih =>
      obtain ⟨a, bytes, next, ha, hinput, hrun⟩ := h.first hrun
      obtain ⟨_, ⟨parts, items, rfl, hform, rfl, rfl⟩, hnext⟩ := ih (a :: found) hrun
      refine ⟨_, ⟨bytes :: parts, a :: items, rfl, .cons ha hform, rfl, by simp⟩, ?_⟩
      rw [hinput, hnext, List.flatten_cons, List.append_assoc]

/-! ## Constants -/

theorem recognizes_constant : Recognizes constant (fun bytes c => c.Form bytes) := by
  refine ⟨reads_constant, ?_⟩
  intro input left c h
  obtain ⟨tag, _, next, ⟨_, rfl⟩, hinput, h⟩ := recognizes_one.first h
  -- the tag says which fields follow
  split at h
  · obtain ⟨n, _, next', ⟨hn, rfl⟩, hnext, h⟩ := recognizes_two.first h
    obtain ⟨payload, _, next'', ⟨rfl, rfl⟩, hnext', h⟩ := (recognizes_take n).first h
    cases htext : Bytes.toText? payload with
    | some text =>
      rw [htext] at h
      cases h
      obtain rfl := Bytes.toText?_eq_some.1 htext
      exact ⟨_, .utf8 hn, by rw [hinput, hnext, hnext']; simp⟩
    | none =>
      rw [htext] at h
      cases h
  · obtain ⟨n, _, next', ⟨hn, rfl⟩, hnext, h⟩ := recognizes_two.first h
    cases h
    exact ⟨_, .classRef hn, by rw [hinput, hnext]; simp⟩
  · obtain ⟨n, _, next', ⟨hn, rfl⟩, hnext, h⟩ := recognizes_two.first h
    obtain ⟨d, _, next'', ⟨hd, rfl⟩, hnext', h⟩ := recognizes_two.first h
    cases h
    exact ⟨_, .nameAndType hn hd, by rw [hinput, hnext, hnext']; simp⟩
  · obtain ⟨o, _, next', ⟨ho, rfl⟩, hnext, h⟩ := recognizes_two.first h
    obtain ⟨m, _, next'', ⟨hm, rfl⟩, hnext', h⟩ := recognizes_two.first h
    cases h
    exact ⟨_, .methodRef ho hm, by rw [hinput, hnext, hnext']; simp⟩
  · cases h

/-- a pool is written as the forms of its entries one after the other -/
theorem encode_pool_eq_ok {entries : List Constant} {bytes : Bytes} : Pool.encode ⟨entries.toArray⟩ = .ok bytes ↔
    ∃ parts, List.Forall₂ (fun bytes c => Constant.Form c bytes) parts entries ∧ bytes = parts.flatten := by
  constructor
  · intro h
    obtain ⟨parts, hparts, h⟩ := Step.check_bind_eq_ok.1 h
    cases h
    exact ⟨parts, ((mapM_eq_ok.1 hparts).imp fun _ _ => Constant.encode_eq_ok.1).flip, rfl⟩
  · rintro ⟨parts, hparts, rfl⟩
    have hencode : entries.mapM Constant.encode = .ok parts :=
      mapM_eq_ok.2 (hparts.flip.imp fun _ _ => Constant.encode_eq_ok.2)
    exact Step.check_bind_eq_ok.2 ⟨parts, hencode, rfl⟩

theorem recognizes_pool (n : Nat) : Recognizes (repeated constant [] n)
    (fun bytes entries => entries.length = n ∧ Pool.encode ⟨entries.toArray⟩ = .ok bytes) := by
  refine (recognizes_repeated recognizes_constant n []).congr ?_
  intro bytes entries
  rw [encode_pool_eq_ok]
  constructor
  · rintro ⟨parts, _, hlength, hform, rfl, rfl⟩
    exact ⟨hlength, parts, hform, rfl⟩
  · rintro ⟨hlength, parts, hform, rfl⟩
    exact ⟨parts, entries, hlength, hform, rfl, rfl⟩

/-! ## Methods -/

theorem withCode_singleton {a : Attribute} (h : a.name = codeName) (m : MethodImage) : m.withCode [a] =
    { m with maxLocals := Bytes.ofBE ((a.data.drop 2).take 2), code := a.data.drop 8 } := by
  simp [MethodImage.withCode, h]

/-- a later code attribute replaces an earlier one -/
theorem withCode_cons (m : MethodImage) (a : Attribute) (attributes : List Attribute) :
    m.withCode (a :: attributes) = (m.withCode [a]).withCode attributes := by
  unfold MethodImage.withCode
  by_cases ha : a.name = codeName
  · cases hlast : (attributes.filter fun a => a.name = codeName).getLast? with
    | some b => simp [ha, List.getLast?_cons, hlast]
    | none => simp [ha, List.getLast?_cons, hlast]
  · simp [ha]

/-- one attribute, and then the others -/
theorem attributes_succ (constants : Pool) (m : MethodImage) (n : Nat) :
    attributes constants m (n + 1) = (do
      let label ← name constants
      let length ← takeNat 4
      let payload ← take length
      if label = codeName ∧ payload.length < 8 then throw (.codeTruncated m.name)
      else attributes constants (m.withCode [⟨label, payload⟩]) n) := by
  rw [attributes]
  refine bind_congr fun label => bind_congr fun length => bind_congr fun payload => ?_
  by_cases hlabel : label = codeName
  · by_cases hshort : payload.length < 8
    · simp [codeOf?, hlabel, hshort]
    · simp [codeOf?, hlabel, hshort, withCode_singleton]
  · simp [hlabel, MethodImage.withCode]

theorem recognizes_attributes (constants : Pool) (m : MethodImage) (n : Nat) : Recognizes (attributes constants m n)
    (fun bytes m' => ∃ parts as, as.length = n ∧ List.Forall₂ (Attribute.Form constants) parts as ∧
      bytes = parts.flatten ∧ m' = m.withCode as) := by
  refine ⟨?_, ?_⟩
  · rintro _ _ ⟨parts, as, rfl, hparts, rfl, rfl⟩
    induction hparts generalizing m with
    | nil => exact .pure m
    | @cons bytes a parts as ha _ ih =>
      obtain ⟨hindex, hname, hlength, hcode⟩ := ha
      have hlong : ¬ (a.name = codeName ∧ a.data.length < 8) := fun hshort => absurd (hcode hshort.1) (by omega)
      rw [List.length_cons, attributes_succ, List.flatten_cons, withCode_cons, List.append_assoc, List.append_assoc]
      refine (reads_name hindex (Pool.text_eq_ok.2 hname)).bind ?_
      refine (reads_four hlength).bind ?_
      refine (reads_take a.data).bind ?_
      rw [if_neg hlong]
      exact ih _
  · intro input left m' h
    induction n generalizing m input with
    | zero =>
      cases h
      exact ⟨[], ⟨[], [], rfl, .nil, rfl, rfl⟩, rfl⟩
    | succ n ih =>
      rw [attributes_succ] at h
      obtain ⟨label, _, next₁, ⟨index, hindex, hlabel, rfl⟩, hinput, h⟩ := (recognizes_name constants).first h
      obtain ⟨length, _, next₂, ⟨hlength, rfl⟩, hnext₁, h⟩ := recognizes_four.first h
      obtain ⟨payload, _, next₃, ⟨rfl, rfl⟩, hnext₂, h⟩ := (recognizes_take length).first h
      by_cases hshort : label = codeName ∧ payload.length < 8
      · rw [if_pos hshort] at h
        cases h
      · rw [if_neg hshort] at h
        obtain ⟨_, ⟨parts, as, rfl, hparts, rfl, rfl⟩, hnext₃⟩ := ih _ h
        have hcode : label = codeName → 8 ≤ payload.length := fun hl => not_lt.1 fun hlt => hshort ⟨hl, hlt⟩
        have ha : Attribute.Form constants _ ⟨label, payload⟩ := .mk hindex hlabel hlength hcode
        refine ⟨_, ⟨_ :: parts, _ :: as, rfl, .cons ha hparts, rfl, (withCode_cons m _ as).symm⟩, ?_⟩
        simp only [hinput, hnext₁, hnext₂, hnext₃, List.flatten_cons, List.append_assoc]

theorem recognizes_method (constants : Pool) : Recognizes (method constants) (MethodImage.Form constants) := by
  refine ⟨?_, ?_⟩
  · rintro _ _ ⟨hflags, hname, hnameText, hdescriptor, hdescriptorText, hcount, hparts⟩
    refine (reads_two hflags).bind ?_
    refine (reads_name hname (Pool.text_eq_ok.2 hnameText)).bind ?_
    refine (reads_name hdescriptor (Pool.text_eq_ok.2 hdescriptorText)).bind ?_
    refine (reads_two hcount).bind ?_
    exact (recognizes_attributes constants _ _).reads ⟨_, _, rfl, hparts, rfl, rfl⟩
  · intro input left m h
    obtain ⟨flags, _, next₁, ⟨hflags, rfl⟩, hinput, h⟩ := recognizes_two.first h
    obtain ⟨name, _, next₂, ⟨n, hn, hname, rfl⟩, hnext₁, h⟩ := (recognizes_name constants).first h
    obtain ⟨descriptor, _, next₃, ⟨d, hd, hdescriptor, rfl⟩, hnext₂, h⟩ := (recognizes_name constants).first h
    obtain ⟨count, _, next₄, ⟨hcount, rfl⟩, hnext₃, h⟩ := recognizes_two.first h
    obtain ⟨_, ⟨parts, as, rfl, hparts, rfl, rfl⟩, hnext₄⟩ := (recognizes_attributes constants _ _).only h
    refine ⟨_, .mk hflags hn hname hd hdescriptor hcount hparts, ?_⟩
    simp only [hinput, hnext₁, hnext₂, hnext₃, hnext₄, List.append_assoc]

/-! ## Modules -/

/-- the first fields of a module: its header and its pool -/
def front : ReadM Pool := do
  let header ← take 8
  if header ≠ Module.header then throw .badHeader
  let count ← takeNat 2
  let constants ← repeated constant [] (count - 1)
  return ⟨constants.toArray⟩

/-- the fields behind the pool -/
def body (pool : Pool) : ReadM Image := do
  let flags ← takeNat 2
  let thisName ← name pool
  let superName ← name pool
  nothingElse
  let methodCount ← takeNat 2
  let methods ← repeated (method pool) [] methodCount
  let _ ← takeNat 2
  return ⟨pool, flags, thisName, superName, methods⟩

/-- the fields of a module, whatever follows them -/
def fields : ReadM Image := do
  let pool ← front
  body pool

/-- nothing may follow -/
def ending : ReadM Unit := do
  let input ← get
  if input.rest ≠ [] then throw (.trailing input.rest.length)

theorem ending_bind {α : Type} (f : Unit → ReadM α) : ending >>= f =
    (do
      let input ← get
      if input.rest ≠ [] then do
        throw (.trailing input.rest.length)
        f ()
      else f ()) := by
  unfold ending
  rw [bind_assoc]
  refine bind_congr fun input => ?_
  split <;> rfl

/-- a module is read as its fields with nothing behind them -/
theorem readAll_eq : readAll = (do let d ← fields; ending; return d) := by
  unfold readAll fields front body
  simp only [ending_bind]
  rw [bind_assoc, bind_assoc]
  refine bind_congr fun header => ?_
  split
  · rfl
  · simp only [bind_assoc, pure_bind]

theorem ofBytes_of_fields {data : Bytes} {d : Image} {left : Input} (h : fields ⟨data, 0⟩ = .ok d left) :
    ofBytes data = if left.rest = [] then .ok d else .error (.trailing left.rest.length) := by
  rw [ofBytes, readAll_eq, Step.bind_of_ok h, ending_bind, Step.bind_of_ok (Step.get_apply _)]
  by_cases hleft : left.rest = []
  · rw [if_pos hleft, if_neg (not_not.2 hleft)]
    rfl
  · rw [if_neg hleft, if_pos hleft]
    rfl

theorem ofBytes_of_error {data : Bytes} {fault : ImageFault} {left : Input}
    (h : fields ⟨data, 0⟩ = .error fault left) : ofBytes data = .error fault := by
  rw [ofBytes, readAll_eq, Step.bind_of_error h]
  rfl

theorem ofBytes_eq_ok {data : Bytes} {d : Image} :
    ofBytes data = .ok d ↔ ∃ left, fields ⟨data, 0⟩ = .ok d left ∧ left.rest = [] := by
  cases h : fields ⟨data, 0⟩ with
  | ok d' left =>
    rw [ofBytes_of_fields h]
    by_cases hleft : left.rest = []
    · simp [hleft]
    · simp [hleft]
  | error fault left =>
    rw [ofBytes_of_error h]
    simp

/-- what is not refused for what follows is refused in a field -/
theorem fields_of_refused {data : Bytes} {fault : ImageFault} (h : ofBytes data = .error fault)
    (hfault : ∀ count, fault ≠ .trailing count) : ∃ left, fields ⟨data, 0⟩ = .error fault left := by
  cases hfields : fields ⟨data, 0⟩ with
  | ok d left =>
    rw [ofBytes_of_fields hfields] at h
    split at h
    · cases h
    · cases h
      exact absurd rfl (hfault _)
  | error fault' left =>
    rw [ofBytes_of_error hfields] at h
    cases h
    exact ⟨left, rfl⟩

theorem recognizes_nothingElse : Recognizes nothingElse (fun bytes _ => bytes = .two 0 ++ .two 0) := by
  refine ⟨?_, ?_⟩
  · rintro _ _ rfl
    refine (reads_two (by decide)).bind ?_
    exact (reads_two (by decide)).last (.pure _)
  · intro input left _ h
    obtain ⟨interfaces, _, next₁, ⟨_, rfl⟩, hinput, h⟩ := recognizes_two.first h
    by_cases hinterfaces : interfaces ≠ 0
    · rw [if_pos hinterfaces] at h
      cases h
    · rw [if_neg hinterfaces] at h
      obtain ⟨members, _, next₂, ⟨_, rfl⟩, hnext₁, h⟩ := recognizes_two.first h
      by_cases hmembers : members ≠ 0
      · rw [if_pos hmembers] at h
        cases h
      · rw [if_neg hmembers] at h
        cases h
        rw [not_not.1 hinterfaces] at hinput
        rw [not_not.1 hmembers] at hnext₁
        exact ⟨_, rfl, by rw [hinput, hnext₁, List.append_assoc]⟩

theorem recognizes_front : Recognizes front
    (fun bytes pool => ∃ count constants, count < 0x10000 ∧ pool.size = count - 1 ∧ pool.encode = .ok constants ∧
      bytes = Module.header ++ (.two count ++ constants)) := by
  refine ⟨?_, ?_⟩
  · rintro _ pool ⟨count, constants, hcount, hsize, hconstants, rfl⟩
    have hheader : Reads (take 8) Module.header Module.header := reads_take Module.header
    refine hheader.bind ?_
    rw [if_neg (not_not.2 rfl)]
    refine (reads_two hcount).bind ?_
    rw [← hsize]
    exact (reads_pool hconstants).last (.pure pool)
  · intro input left pool h
    obtain ⟨header, _, next₁, ⟨_, rfl⟩, hinput, h⟩ := (recognizes_take 8).first h
    by_cases hheader : header ≠ Module.header
    · rw [if_pos hheader] at h
      cases h
    · rw [if_neg hheader] at h
      obtain ⟨count, _, next₂, ⟨hcount, rfl⟩, hnext₁, h⟩ := recognizes_two.first h
      obtain ⟨entries, constants, next₃, ⟨hsize, hconstants⟩, hnext₂, h⟩ := (recognizes_pool _).first h
      cases h
      refine ⟨_, ⟨count, constants, hcount, hsize, hconstants, rfl⟩, ?_⟩
      simp only [hinput, not_not.1 hheader, hnext₁, hnext₂, List.append_assoc]

theorem recognizes_body (pool : Pool) :
    Recognizes (body pool) (fun bytes d => d.constants = pool ∧ BodyForm bytes d) := by
  refine ⟨?_, ?_⟩
  · rintro _ d ⟨rfl, hflags, hthis, hthisText, hsuper, hsuperText, hcount, hmethods, hlast⟩
    refine (reads_two hflags).bind ?_
    refine (reads_name hthis (Pool.text_eq_ok.2 hthisText)).bind ?_
    refine (reads_name hsuper (Pool.text_eq_ok.2 hsuperText)).bind ?_
    rw [← List.append_assoc (Bytes.two 0)]
    refine (recognizes_nothingElse.reads (a := ()) rfl).bind ?_
    refine (reads_two hcount).bind ?_
    refine (reads_repeated (hmethods.imp fun _ _ => (recognizes_method _).reads) []).bind ?_
    exact (reads_two hlast).last (.pure _)
  · intro input left d h
    obtain ⟨flags, _, next₁, ⟨hflags, rfl⟩, hinput, h⟩ := recognizes_two.first h
    obtain ⟨thisName, _, next₂, ⟨this, hthis, hthisText, rfl⟩, hnext₁, h⟩ := (recognizes_name pool).first h
    obtain ⟨superName, _, next₃, ⟨super, hsuper, hsuperText, rfl⟩, hnext₂, h⟩ := (recognizes_name pool).first h
    obtain ⟨_, _, next₄, rfl, hnext₃, h⟩ := recognizes_nothingElse.first h
    obtain ⟨count, _, next₅, ⟨hcount, rfl⟩, hnext₄, h⟩ := recognizes_two.first h
    obtain ⟨methods, _, next₆, ⟨parts, _, rfl, hparts, rfl, rfl⟩, hnext₅, h⟩ :=
      (recognizes_repeated (recognizes_method pool) count []).first h
    obtain ⟨last, _, next₇, ⟨hlast, rfl⟩, hnext₆, h⟩ := recognizes_two.first h
    cases h
    refine ⟨_, ⟨rfl, .mk hflags hthis hthisText hsuper hsuperText hcount hparts hlast⟩, ?_⟩
    simp only [hinput, hnext₁, hnext₂, hnext₃, hnext₄, hnext₅, hnext₆, List.append_assoc]

theorem recognizes_fields : Recognizes fields Image.Form := by
  refine ⟨?_, ?_⟩
  · rintro _ d ⟨hsize, hconstants, hrest⟩
    have hfront := recognizes_front.reads ⟨_, _, hsize, (Nat.add_sub_cancel _ 1).symm, hconstants, rfl⟩
    have hall := hfront.bind ((recognizes_body d.constants).reads ⟨rfl, hrest⟩)
    rw [List.append_assoc, List.append_assoc] at hall
    exact hall
  · intro input left d h
    obtain ⟨pool, _, next, ⟨count, constants, hcount, hsize, hconstants, rfl⟩, hinput, h⟩ := recognizes_front.first h
    obtain ⟨rest, ⟨rfl, hrest⟩, hnext⟩ := (recognizes_body pool).only h
    -- the count is not zero: the name of the module was found in the pool
    have hpos : 0 < d.constants.size := by
      obtain ⟨_, _, hthis⟩ := hrest
      have hindex := Pool.index_le hthis
      omega
    obtain rfl : count = d.constants.size + 1 := by omega
    refine ⟨_, .mk hcount hconstants hrest, ?_⟩
    simp only [hinput, hnext, List.append_assoc]

theorem ofBytes_of_form {data : Bytes} {d : Image} (h : d.Form data) : ofBytes data = .ok d := by
  have hfields := recognizes_fields.reads h [] 0
  rw [List.append_nil] at hfields
  exact ofBytes_eq_ok.2 ⟨_, hfields, rfl⟩

theorem form_of_ofBytes {data : Bytes} {d : Image} (h : ofBytes data = .ok d) : d.Form data := by
  obtain ⟨left, hfields, hleft⟩ := ofBytes_eq_ok.1 h
  obtain ⟨bytes, hbytes, hdata⟩ := recognizes_fields.only hfields
  rw [hleft, List.append_nil] at hdata
  rw [show data = bytes from hdata]
  exact hbytes

/-- **What reading accepts.** Bytes are read back as a module exactly if they are laid out as its form says. Then the
bytes between the count and the flags are those that writing the pool gives. -/
theorem reads_exactly_form (data : Bytes) (d : Image) :
    (ofBytes data = .ok d ↔ d.Form data) ∧
      (ofBytes data = .ok d → ∃ constants rest, d.constants.encode = .ok constants ∧
        data = Module.header ++ (.two (d.constants.size + 1) ++ (constants ++ rest))) := by
  refine ⟨⟨form_of_ofBytes, ofBytes_of_form⟩, ?_⟩
  intro h
  obtain ⟨_, hconstants⟩ := form_of_ofBytes h
  exact ⟨_, _, hconstants, rfl⟩

end Image

end StackLang
