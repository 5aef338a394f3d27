/-
Reading back what was written, piece by piece.

An entry of the pool has one byte form (`Constant.Form`), which is what writing it gives (`Constant.encode_eq_ok`).

`Image.Reads step bytes a`: in front of anything and at any offset, the step takes exactly these bytes and gives `a`.
Readers compose (`Reads.bind`), so the reader of each part of a module is matched with the writer of that part: fields
of two and four bytes, constants, whole pools, names, and methods with one code attribute.
-/
import StackLang.Proofs.Target.Pools

namespace StackLang

/-! ## Byte forms -/

/-- checks along a list pass if each of them does -/
theorem mapM_eq_ok {α β ε : Type} {f : α → Except ε β} {as : List α} {bs : List β} :
    as.mapM f = .ok bs ↔ List.Forall₂ (fun a b => f a = .ok b) as bs := by
  induction as generalizing bs with
  | nil => simp [pure, Except.pure, eq_comm]
  | cons a as ih =>
    rw [List.mapM_cons, Step.check_bind_eq_ok, List.forall₂_cons_left_iff]
    constructor
    · rintro ⟨b, hb, h⟩
      obtain ⟨rest, hrest, heq⟩ := Step.check_bind_eq_ok.1 h
      cases heq
      exact ⟨b, rest, hb, ih.1 hrest, rfl⟩
    · rintro ⟨b, rest, hb, hrest, rfl⟩
      exact ⟨b, hb, Step.check_bind_eq_ok.2 ⟨rest, ih.2 hrest, rfl⟩⟩

theorem twoBytes_eq_ok {field : String} {value : Int} {bytes : Bytes} (h : twoBytes field value = .ok bytes) :
    ∃ n : Nat, value = n ∧ n < 0x10000 ∧ bytes = .two n := by
  unfold twoBytes at h
  split at h
  · rename_i hv
    cases h
    exact ⟨value.toNat, by omega, by omega, rfl⟩
  · cases h

theorem fourBytes_eq_ok {field : String} {value : Int} {bytes : Bytes} (h : fourBytes field value = .ok bytes) :
    ∃ n : Nat, value = n ∧ n < 0x100000000 ∧ bytes = .four n := by
  unfold fourBytes at h
  split at h
  · rename_i hv
    cases h
    exact ⟨value.toNat, by omega, by omega, rfl⟩
  · cases h

theorem twoBytes_of_lt (field : String) {n : Nat} (h : n < 0x10000) : twoBytes field n = .ok (.two n) :=
  if_pos ⟨by omega, by omega⟩

/-- the byte form of an entry: a tag, and then a text behind its length, or the numbers of other entries -/
inductive Constant.Form : Constant → Bytes → Prop
  | utf8 {text : String} : (Bytes.ofText text).length < 0x10000 →
      Form (.utf8 text) (0x01 :: (Bytes.two (Bytes.ofText text).length ++ Bytes.ofText text))
  | classRef {name : Nat} : name < 0x10000 → Form (.classRef name) (0x07 :: Bytes.two name)
  | nameAndType {name descriptor : Nat} : name < 0x10000 → descriptor < 0x10000 →
      Form (.nameAndType name descriptor) (0x0C :: (Bytes.two name ++ Bytes.two descriptor))
  | methodRef {owner member : Nat} : owner < 0x10000 → member < 0x10000 →
      Form (.methodRef owner member) (0x0A :: (Bytes.two owner ++ Bytes.two member))

/-- an entry is written in its byte form -/
theorem Constant.encode_eq_ok {c : Constant} {bytes : Bytes} : c.encode = .ok bytes ↔ c.Form bytes := by
  constructor
  · intro h
    cases c with
    | utf8 text =>
      obtain ⟨length, hlength, h⟩ := Step.check_bind_eq_ok.1 h
      cases h
      obtain ⟨n, hn, hlt, rfl⟩ := twoBytes_eq_ok hlength
      obtain rfl : n = (Bytes.ofText text).length := by omega
      exact .utf8 hlt
    | classRef name =>
      obtain ⟨index, hindex, h⟩ := Step.check_bind_eq_ok.1 h
      cases h
      obtain ⟨n, rfl, hlt, rfl⟩ := twoBytes_eq_ok hindex
      exact .classRef hlt
    | nameAndType name descriptor =>
      obtain ⟨first, hfirst, h⟩ := Step.check_bind_eq_ok.1 h
      obtain ⟨second, hsecond, h⟩ := Step.check_bind_eq_ok.1 h
      cases h
      obtain ⟨n, rfl, hn, rfl⟩ := twoBytes_eq_ok hfirst
      obtain ⟨d, rfl, hd, rfl⟩ := twoBytes_eq_ok hsecond
      exact .nameAndType hn hd
    | methodRef owner member =>
      obtain ⟨first, hfirst, h⟩ := Step.check_bind_eq_ok.1 h
      obtain ⟨second, hsecond, h⟩ := Step.check_bind_eq_ok.1 h
      cases h
      obtain ⟨o, rfl, ho, rfl⟩ := twoBytes_eq_ok hfirst
      obtain ⟨m, rfl, hm, rfl⟩ := twoBytes_eq_ok hsecond
      exact .methodRef ho hm
    | number value => cases h
  · intro h
    cases h with
    | utf8 hlt => exact Step.check_bind_eq_ok.2 ⟨_, twoBytes_of_lt _ hlt, rfl⟩
    | classRef hlt => exact Step.check_bind_eq_ok.2 ⟨_, twoBytes_of_lt _ hlt, rfl⟩
    | nameAndType hn hd =>
      exact Step.check_bind_eq_ok.2 ⟨_, twoBytes_of_lt _ hn, Step.check_bind_eq_ok.2 ⟨_, twoBytes_of_lt _ hd, rfl⟩⟩
    | methodRef ho hm =>
      exact Step.check_bind_eq_ok.2 ⟨_, twoBytes_of_lt _ ho, Step.check_bind_eq_ok.2 ⟨_, twoBytes_of_lt _ hm, rfl⟩⟩

namespace Image

/-- the step takes exactly these bytes, whatever follows and wherever they stand, and gives this result -/
def Reads {α : Type} (step : ReadM α) (bytes : Bytes) (a : α) : Prop :=
  ∀ (rest : Bytes) (offset : Nat), step ⟨bytes ++ rest, offset⟩ = .ok a ⟨rest, offset + bytes.length⟩

namespace Reads

variable {α β : Type}

theorem pure (a : α) : Reads (Pure.pure a : ReadM α) [] a := by
  intro rest offset
  simp

/-- the next step starts behind what was read -/
theorem step {x : ReadM α} {bytes : Bytes} {a : α} (hx : Reads x bytes a) (f : α → ReadM β) (rest : Bytes)
    (offset : Nat) : (x >>= f) ⟨bytes ++ rest, offset⟩ = f a ⟨rest, offset + bytes.length⟩ :=
  Step.bind_of_ok (hx rest offset) f

theorem bind {x : ReadM α} {f : α → ReadM β} {bytes more : Bytes} {a : α} {b : β} (hx : Reads x bytes a)
    (hf : Reads (f a) more b) : Reads (x >>= f) (bytes ++ more) b := by
  intro rest offset
  rw [List.append_assoc, hx.step, hf]
  simp [Nat.add_assoc]

/-- what follows a reader may take no further bytes -/
theorem last {x : ReadM α} {f : α → ReadM β} {bytes : Bytes} {a : α} {b : β} (hx : Reads x bytes a)
    (hf : Reads (f a) [] b) : Reads (x >>= f) bytes b := by
  rw [← List.append_nil bytes]
  exact hx.bind hf

/-- a check that passes takes no bytes -/
theorem lift {e : Except ImageFault α} {a : α} (h : e = .ok a) : Reads (liftM e : ReadM α) [] a := by
  intro rest offset
  simp [h]

end Reads

/-! ## Fields -/

theorem reads_take (bytes : Bytes) : Reads (take bytes.length) bytes bytes := by
  intro rest offset
  simp [take]

theorem reads_takeNat (bytes : Bytes) : Reads (takeNat bytes.length) bytes (Bytes.ofBE bytes) :=
  (reads_take bytes).last (.pure _)

theorem reads_two {n : Nat} (h : n < 0x10000) : Reads (takeNat 2) (.two n) n := by
  have hr := reads_takeNat (.two n)
  rwa [Bytes.ofBE_two h] at hr

theorem reads_four {n : Nat} (h : n < 0x100000000) : Reads (takeNat 4) (.four n) n := by
  have hr := reads_takeNat (.four n)
  rwa [Bytes.ofBE_four h] at hr

/-! ## Rows -/

/-- a counted row is read item by item -/
theorem reads_repeated {α : Type} {step : ReadM α} {parts : List Bytes} {items : List α}
    (h : List.Forall₂ (fun bytes a => Reads step bytes a) parts items) (found : List α) :
    Reads (repeated step found items.length) parts.flatten (found.reverse ++ items) := by
  induction h generalizing found with
  | nil =>
    rw [List.append_nil]
    exact Reads.pure _
  | @cons bytes a parts items hstep _ ih =>
    have hrest := ih (a :: found)
    rw [List.reverse_cons, List.append_assoc] at hrest
    exact hstep.bind hrest

/-! ## Constants and pools -/

theorem reads_constant {c : Constant} {bytes : Bytes} (h : c.Form bytes) : Reads constant bytes c := by
  cases h with
  | @utf8 text hlt =>
    refine (reads_takeNat [0x01]).bind ?_
    refine (reads_two hlt).bind ?_
    refine (reads_take (Bytes.ofText text)).last ?_
    rw [Bytes.toText?_ofText]
    exact .pure _
  | classRef hlt =>
    refine (reads_takeNat [0x07]).bind ?_
    exact (reads_two hlt).last (.pure _)
  | nameAndType hn hd =>
    refine (reads_takeNat [0x0C]).bind ?_
    refine (reads_two hn).bind ?_
    exact (reads_two hd).last (.pure _)
  | methodRef ho hm =>
    refine (reads_takeNat [0x0A]).bind ?_
    refine (reads_two ho).bind ?_
    exact (reads_two hm).last (.pure _)

theorem reads_pool {p : Pool} {bytes : Bytes} (h : p.encode = .ok bytes) :
    Reads (repeated constant [] p.size) bytes p.entries.toList := by
  obtain ⟨parts, hparts, h⟩ := Step.check_bind_eq_ok.1 h
  cases h
  have hrow : List.Forall₂ (fun bytes c => Reads constant bytes c) parts p.entries.toList :=
    (mapM_eq_ok.1 hparts).flip.imp fun _ _ hc => reads_constant (Constant.encode_eq_ok.1 hc)
  exact reads_repeated hrow []

/-- a name is read through the pool -/
theorem reads_name {constants : Pool} {n : Nat} {s : String} (hlt : n < 0x10000) (h : constants.text n = .ok s) :
    Reads (name constants) (.two n) s :=
  (reads_two hlt).last (.lift h)

end Image

end StackLang
