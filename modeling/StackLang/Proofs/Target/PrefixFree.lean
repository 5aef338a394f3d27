/-
No module is the beginning of another, and reading ends in one of three ways.

A reading step is `Local` if it does not look behind the bytes it takes: with more bytes behind its input it ends in the
same way, unless it fails for want of bytes. Local steps one after the other are local, and so is the reading of all
fields of a module. So a module is read in front of anything, and what is behind it is then refused; and the reading of a
module that is cut off fails for want of bytes.

The one fault without a wording is for bytes that are no text. Only the text of a pool entry can have it
(`spoiled_of_constants`), and all of its bytes have been taken then.
-/
import StackLang.Proofs.Target.Recognized

namespace StackLang

open Step (Ensures)

def Input.extend (input : Input) (more : Bytes) : Input :=
  ⟨input.rest ++ more, input.offset⟩

def ImageFault.IsTruncated (fault : ImageFault) : Prop :=
  ∃ wanted offset, fault = .truncated wanted offset

/-- only bytes that are no text lack a wording -/
theorem ImageFault.message?_eq_none {fault : ImageFault} : fault.message? = none ↔ fault = .notUtf8 := by
  cases fault <;> simp [ImageFault.message?]

namespace Image

/-- the next `n` bytes are exactly `n`, or they are not there and none is taken -/
theorem take_exact (n : Nat) (input : Input) :
    (∃ bytes rest, bytes.length = n ∧ input.rest = bytes ++ rest ∧
      take n input = .ok bytes ⟨rest, input.offset + n⟩) ∨
    input.rest.length < n ∧ take n input = .error (.truncated n input.offset) input := by
  by_cases hn : n ≤ input.rest.length
  · refine .inl ⟨input.rest.take n, input.rest.drop n, List.length_take_of_le hn, ?_, ?_⟩
    · rw [List.take_append_drop]
    · simp [take, hn]
  · exact .inr ⟨by omega, by simp [take, hn]⟩

/-! ## Steps that do not look behind what they take -/

/-- with more bytes behind the input the step ends in the same way, unless it fails for want of bytes; any other fault
is one of those given -/
def Local {α : Type} (faults : ImageFault → Prop) (step : ReadM α) : Prop :=
  ∀ input more, Ensures step input
    (fun a left => step (input.extend more) = .ok a (left.extend more))
    (fun fault left => fault.IsTruncated ∨ faults fault ∧ step (input.extend more) = .error fault (left.extend more))

namespace Local

variable {α β : Type} {faults faults' : ImageFault → Prop}

theorem imp {x : ReadM α} (h : Local faults x) (hfaults : ∀ fault, faults fault → faults' fault) : Local faults' x :=
  fun input more => (h input more).imp (fun _ _ hgood => hgood)
    (fun fault _ hbad => hbad.imp_right fun hbad => ⟨hfaults fault hbad.1, hbad.2⟩)

theorem pure (a : α) : Local faults (Pure.pure a : ReadM α) :=
  fun _ _ => rfl

theorem throw {fault : ImageFault} (h : faults fault) : Local faults (throw fault : ReadM α) :=
  fun _ _ => .inr ⟨h, rfl⟩

theorem lift {e : Except ImageFault α} (h : ∀ fault, e = .error fault → faults fault) :
    Local faults (liftM e : ReadM α) := by
  cases e with
  | ok a => exact fun _ _ => rfl
  | error fault => exact fun _ _ => .inr ⟨h fault rfl, rfl⟩

theorem bind {x : ReadM α} {f : α → ReadM β} (hx : Local faults x) (hf : ∀ a, Local faults (f a)) :
    Local faults (x >>= f) := by
  intro input more
  have hfirst : Ensures x input (fun a left => x (input.extend more) = .ok a (left.extend more))
      (fun fault left => fault.IsTruncated ∨
        faults fault ∧ (x >>= f) (input.extend more) = .error fault (left.extend more)) :=
    (hx input more).imp (fun _ _ h => h) (fun _ _ h => h.imp_right fun h => ⟨h.1, Step.bind_of_error h.2 f⟩)
  refine hfirst.bind fun a left hleft => ?_
  rw [Step.bind_of_ok hleft]
  exact hf a left more

theorem ite {c : Prop} [Decidable c] {x y : ReadM α} (hx : Local faults x) (hy : Local faults y) :
    Local faults (if c then x else y) := by
  split
  · exact hx
  · exact hy

/-- behind a check -/
theorem guard {c : Prop} [Decidable c] {fault : ImageFault} {f : PUnit → ReadM α} (hfault : faults fault)
    (hf : Local faults (f ⟨⟩)) : Local faults (if c then MonadExcept.throw fault >>= f else f ⟨⟩) :=
  ite (bind (throw hfault) fun _ => hf) hf

theorem take (n : Nat) : Local faults (take n) := by
  intro input more
  unfold Ensures
  rcases take_exact n input with ⟨bytes, rest, rfl, hrest, hshort⟩ | ⟨-, hshort⟩
  · rw [hshort, Input.extend, hrest, List.append_assoc]
    exact reads_take bytes (rest ++ more) input.offset
  · rw [hshort]
    exact .inl ⟨n, input.offset, rfl⟩

theorem takeNat (n : Nat) : Local faults (takeNat n) :=
  (take n).bind fun _ => pure _

theorem repeated {step : ReadM α} (h : Local faults step) (found : List α) (n : Nat) :
    Local faults (repeated step found n) := by
  induction n generalizing found with
  | zero => exact pure _
  | succ n ih => exact h.bind fun a => ih (a :: found)

end Local

/-! ## The readers -/

def IsWorded (fault : ImageFault) : Prop :=
  fault ≠ .notUtf8

theorem local_constant : Local (fun _ => True) constant := by
  refine (Local.takeNat 1).bind fun tag => ?_
  split
  · refine (Local.takeNat 2).bind fun length => (Local.take length).bind fun payload => ?_
    cases Bytes.toText? payload with
    | some text => exact .pure _
    | none => exact .throw trivial
  · exact (Local.takeNat 2).bind fun _ => .pure _
  · exact (Local.takeNat 2).bind fun _ => (Local.takeNat 2).bind fun _ => .pure _
  · exact (Local.takeNat 2).bind fun _ => (Local.takeNat 2).bind fun _ => .pure _
  · exact .throw trivial

theorem isWorded_of_text {p : Pool} {index : Int} {fault : ImageFault} (h : p.text index = .error fault) :
    IsWorded fault := by
  unfold Pool.text Pool.entry at h
  rintro rfl
  cases hentry : p.get? index with
  | none => simp [hentry, bind, Except.bind] at h
  | some c => cases c <;> simp [hentry, bind, Except.bind] at h

theorem local_name (constants : Pool) : Local IsWorded (name constants) :=
  (Local.takeNat 2).bind fun _ => .lift fun _ => isWorded_of_text

theorem local_attributes (constants : Pool) (m : MethodImage) (n : Nat) :
    Local IsWorded (attributes constants m n) := by
  induction n generalizing m with
  | zero => exact .pure m
  | succ n ih =>
    rw [attributes_succ]
    refine (local_name constants).bind fun label => (Local.takeNat 4).bind fun length => ?_
    exact (Local.take length).bind fun payload => .ite (.throw (by simp [IsWorded])) (ih _)

theorem local_method (constants : Pool) : Local IsWorded (method constants) := by
  refine (Local.takeNat 2).bind fun flags => (local_name constants).bind fun name => ?_
  refine (local_name constants).bind fun descriptor => (Local.takeNat 2).bind fun count => ?_
  exact local_attributes constants _ count

theorem local_nothingElse : Local IsWorded nothingElse := by
  refine (Local.takeNat 2).bind fun interfaces => .guard (by simp [IsWorded]) ?_
  exact (Local.takeNat 2).bind fun members => .ite (.throw (by simp [IsWorded])) (.pure _)

theorem local_front : Local (fun _ => True) front := by
  refine (Local.take 8).bind fun header => .guard trivial ?_
  exact (Local.takeNat 2).bind fun count => (local_constant.repeated [] _).bind fun _ => .pure _

theorem local_body (pool : Pool) : Local IsWorded (body pool) := by
  refine (Local.takeNat 2).bind fun flags => (local_name pool).bind fun thisName => ?_
  refine (local_name pool).bind fun superName => local_nothingElse.bind fun _ => ?_
  refine (Local.takeNat 2).bind fun count => ((local_method pool).repeated [] count).bind fun methods => ?_
  exact (Local.takeNat 2).bind fun _ => .pure _

theorem local_fields : Local (fun _ => True) fields :=
  local_front.bind fun pool => (local_body pool).imp fun _ _ => trivial

/-! ## Bytes that are no text -/

theorem Local.spares {α : Type} {step : ReadM α} (h : Local IsWorded step) (input left : Input) :
    step input ≠ .error .notUtf8 left := by
  intro hstep
  rcases (h input []).of_error hstep with ⟨_, _, htruncated⟩ | ⟨hworded, -⟩
  · cases htruncated
  · exact hworded rfl

/-- if a step has no such fault, the bytes it takes stand in front of those that have -/
theorem Recognizes.spared {α β : Type} {step : ReadM α} {form : Bytes → α → Prop} {f : α → ReadM β} {input left : Input}
    (h : Recognizes step form) (hstep : Local IsWorded step) (hrun : (step >>= f) input = .error .notUtf8 left) :
    ∃ a bytes next, form bytes a ∧ input.rest = bytes ++ next.rest ∧ f a next = .error .notUtf8 left := by
  rcases Step.bind_eq_error.1 hrun with hrun | ⟨a, next, hok, hrun⟩
  · exact absurd hrun (hstep.spares input left)
  · obtain ⟨bytes, hform, hinput⟩ := h.only hok
    exact ⟨a, bytes, next, hform, hinput, hrun⟩

/-- an entry with the tag and the length of a text, complete, but with bytes that are no text -/
def IsSpoiled (bytes : Bytes) : Prop :=
  ∃ payload : Bytes, payload.length < 0x10000 ∧ (∀ text, Bytes.ofText text ≠ payload) ∧
    bytes = 0x01 :: (Bytes.two payload.length ++ payload)

theorem spoiled_of_constant {input left : Input} (h : constant input = .error .notUtf8 left) :
    ∃ bytes rest, IsSpoiled bytes ∧ input.rest = bytes ++ rest := by
  obtain ⟨tag, _, next, ⟨_, rfl⟩, hinput, h⟩ := recognizes_one.spared (.takeNat 1) h
  split at h
  · obtain ⟨n, _, next', ⟨hn, rfl⟩, hnext, h⟩ := recognizes_two.spared (.takeNat 2) h
    obtain ⟨payload, _, next'', ⟨rfl, rfl⟩, hnext', h⟩ := (recognizes_take n).spared (.take n) h
    cases htext : Bytes.toText? payload with
    | some text =>
      rw [htext] at h
      cases h
    | none =>
      refine ⟨_, next''.rest, ⟨payload, hn, ?_, rfl⟩, by rw [hinput, hnext, hnext']; simp⟩
      rintro text rfl
      rw [Bytes.toText?_ofText] at htext
      cases htext
  · exact absurd h (Local.spares ((Local.takeNat 2).bind fun _ => .pure _) _ _)
  · exact absurd h (Local.spares ((Local.takeNat 2).bind fun _ => (Local.takeNat 2).bind fun _ => .pure _) _ _)
  · exact absurd h (Local.spares ((Local.takeNat 2).bind fun _ => (Local.takeNat 2).bind fun _ => .pure _) _ _)
  · cases h

/-- in front of anything the step fails on these bytes because they are no text -/
def Spoils {α : Type} (step : ReadM α) (bytes : Bytes) : Prop :=
  ∀ (rest : Bytes) (offset : Nat), ∃ left, step ⟨bytes ++ rest, offset⟩ = .error .notUtf8 left

theorem Spoils.bind {α β : Type} {x : ReadM α} {bytes : Bytes} (h : Spoils x bytes) (f : α → ReadM β) :
    Spoils (x >>= f) bytes := by
  intro rest offset
  obtain ⟨left, hleft⟩ := h rest offset
  exact ⟨left, Step.bind_of_error hleft f⟩

theorem Reads.spoils {α β : Type} {x : ReadM α} {f : α → ReadM β} {bytes more : Bytes} {a : α} (hx : Reads x bytes a)
    (hf : Spoils (f a) more) : Spoils (x >>= f) (bytes ++ more) := by
  intro rest offset
  rw [List.append_assoc, hx.step]
  exact hf rest (offset + bytes.length)

theorem spoils_constant {bytes : Bytes} (h : IsSpoiled bytes) : Spoils constant bytes := by
  obtain ⟨payload, hlength, htext, rfl⟩ := h
  have hnone : Bytes.toText? payload = none := by
    cases hsome : Bytes.toText? payload with
    | none => rfl
    | some text => exact absurd (Bytes.toText?_eq_some.1 hsome).symm (htext text)
  refine (reads_takeNat [0x01]).spoils ((reads_two hlength).spoils ?_)
  intro rest offset
  rw [(reads_take payload).step, hnone]
  exact ⟨_, rfl⟩

/-- in a row of entries those before the spoiled one are well formed -/
theorem spoiled_of_constants {n : Nat} {found : List Constant} {input left : Input}
    (h : repeated constant found n input = .error .notUtf8 left) :
    ∃ parts entries bytes rest, entries.length < n ∧ List.Forall₂ (fun bytes c => Constant.Form c bytes) parts entries ∧
      IsSpoiled bytes ∧ input.rest = parts.flatten ++ (bytes ++ rest) := by
  induction n generalizing found input with
  | zero => cases h
  | succ n ih =>
    rcases Step.bind_eq_error.1 h with h | ⟨c, next, hc, h⟩
    · obtain ⟨bytes, rest, hspoiled, hinput⟩ := spoiled_of_constant h
      exact ⟨[], [], bytes, rest, Nat.succ_pos n, .nil, hspoiled, hinput⟩
    · obtain ⟨first, hfirst, hinput⟩ := recognizes_constant.only hc
      obtain ⟨parts, entries, bytes, rest, hlt, hparts, hspoiled, hnext⟩ := ih h
      refine ⟨first :: parts, c :: entries, bytes, rest, Nat.succ_lt_succ hlt, .cons hfirst hparts, hspoiled, ?_⟩
      rw [hinput, hnext, List.flatten_cons, List.append_assoc]

theorem spoils_constants {parts : List Bytes} {entries : List Constant} {bytes : Bytes}
    (hparts : List.Forall₂ (fun bytes c => Constant.Form c bytes) parts entries) (hspoiled : IsSpoiled bytes) {n : Nat}
    (hlt : entries.length < n) (found : List Constant) :
    Spoils (repeated constant found n) (parts.flatten ++ bytes) := by
  induction hparts generalizing n found with
  | nil =>
    obtain ⟨k, rfl⟩ := Nat.exists_eq_add_of_lt hlt
    exact (spoils_constant hspoiled).bind _
  | @cons first c parts entries hfirst _ ih =>
    obtain ⟨k, rfl⟩ : ∃ k, n = k + 1 := ⟨n - 1, by omega⟩
    rw [List.flatten_cons, List.append_assoc]
    exact (recognizes_constant.reads hfirst).spoils (ih (Nat.lt_of_succ_lt_succ hlt) (c :: found))

/-- the header, and a pool that is written up to an entry that is spoiled -/
def HasSpoiledText (data : Bytes) : Prop :=
  ∃ (count : Nat) (pool : Pool) (constants bytes rest : Bytes), count < 0x10000 ∧ pool.size + 1 < count ∧
    pool.encode = .ok constants ∧ IsSpoiled bytes ∧
    data = Module.header ++ (.two count ++ (constants ++ (bytes ++ rest)))

theorem hasSpoiledText_of_fields {input left : Input} (h : fields input = .error .notUtf8 left) :
    HasSpoiledText input.rest := by
  have hfront : front input = .error .notUtf8 left := by
    rcases Step.bind_eq_error.1 h with h | ⟨pool, next, _, h⟩
    · exact h
    · exact absurd h ((local_body pool).spares next left)
  obtain ⟨header, _, next₁, ⟨_, rfl⟩, hinput, h⟩ := (recognizes_take 8).spared (.take 8) hfront
  by_cases hheader : header ≠ Module.header
  · rw [if_pos hheader] at h
    cases h
  · rw [if_neg hheader] at h
    obtain ⟨count, _, next₂, ⟨hcount, rfl⟩, hnext₁, h⟩ := recognizes_two.spared (.takeNat 2) h
    rcases Step.bind_eq_error.1 h with h | ⟨_, _, _, h⟩
    · obtain ⟨parts, entries, bytes, rest, hlt, hparts, hspoiled, hnext₂⟩ := spoiled_of_constants h
      have hencode : Pool.encode ⟨entries.toArray⟩ = .ok parts.flatten := encode_pool_eq_ok.2 ⟨parts, hparts, rfl⟩
      refine ⟨count, ⟨entries.toArray⟩, _, bytes, rest, hcount, ?_, hencode, hspoiled, ?_⟩
      · change entries.toArray.size + 1 < count
        rw [List.size_toArray]
        omega
      · rw [hinput, not_not.1 hheader, hnext₁, hnext₂]
    · cases h

theorem fields_of_hasSpoiledText {data : Bytes} (h : HasSpoiledText data) (offset : Nat) :
    ∃ left, fields ⟨data, offset⟩ = .error .notUtf8 left := by
  obtain ⟨count, ⟨⟨entries⟩⟩, constants, bytes, rest, hcount, hsize, hconstants, hspoiled, rfl⟩ := h
  obtain ⟨parts, hparts, rfl⟩ := encode_pool_eq_ok.1 hconstants
  have hlt : entries.length < count - 1 := by
    change entries.toArray.size + 1 < count at hsize
    rw [List.size_toArray] at hsize
    omega
  have hheader : Reads (take 8) Module.header Module.header := reads_take Module.header
  have hfront : Spoils front (Module.header ++ (.two count ++ (parts.flatten ++ bytes))) := by
    refine hheader.spoils ?_
    rw [if_neg (not_not.2 rfl)]
    exact (reads_two hcount).spoils ((spoils_constants hparts hspoiled hlt []).bind _)
  unfold fields
  simpa only [List.append_assoc] using hfront.bind body rest offset

/-! ## Cut off and followed by more -/

/-- a module that is cut off -/
theorem ofBytes_of_cut {part more : Bytes} {d : Image} (h : ofBytes (part ++ more) = .ok d) (hmore : more ≠ []) :
    ∃ wanted offset, ofBytes part = .error (.truncated wanted offset) := by
  obtain ⟨left, hfields, hleft⟩ := ofBytes_eq_ok.1 h
  -- the run on the part goes as the run on all of it does, until the bytes run out
  have hlocal := local_fields ⟨part, 0⟩ more
  cases hpart : fields ⟨part, 0⟩ with
  | ok d' left' =>
    -- then the fields are complete, and the bytes cut off would be left over
    have hlong := hlocal.of_ok hpart
    rw [show Input.extend ⟨part, 0⟩ more = ⟨part ++ more, 0⟩ from rfl, hfields] at hlong
    cases hlong
    exact absurd (List.append_eq_nil_iff.1 hleft).2 hmore
  | error fault left' =>
    rcases hlocal.of_error hpart with ⟨wanted, offset, rfl⟩ | ⟨-, hlong⟩
    · exact ⟨wanted, offset, ofBytes_of_error hpart⟩
    · rw [show Input.extend ⟨part, 0⟩ more = ⟨part ++ more, 0⟩ from rfl, hfields] at hlong
      cases hlong

/-- a module with more behind it -/
theorem ofBytes_of_more {data more : Bytes} {d : Image} (h : ofBytes data = .ok d) (hmore : more ≠ []) :
    ofBytes (data ++ more) = .error (.trailing more.length) := by
  obtain ⟨left, hfields, hleft⟩ := ofBytes_eq_ok.1 h
  have hlong : fields ⟨data ++ more, 0⟩ = .ok d (left.extend more) := (local_fields ⟨data, 0⟩ more).of_ok hfields
  have hrest : (left.extend more).rest = more := by simp [Input.extend, hleft]
  rw [ofBytes_of_fields hlong, hrest, if_neg hmore]

/-- **Modules end where their bytes end.** If bytes are read back as a module, then every beginning of them is refused
for want of bytes, and with anything behind them they are refused for what is left over. Every read of `n` bytes, of
which all fields are made, gives exactly `n` of them and goes on behind them, or is refused for want of bytes. So all
bytes are read back as a module, or refused with a fault that has a wording, or refused for bytes that are no text. The
last happens exactly if the pool holds an entry, behind others that are well formed, whose text is complete but no
text. -/
theorem modules_prefix_free (data : Bytes) :
    (∀ d, ofBytes data = .ok d →
      (∀ part more, data = part ++ more → more ≠ [] →
        ∃ wanted offset, ofBytes part = .error (.truncated wanted offset)) ∧
      ∀ more, more ≠ [] → ofBytes (data ++ more) = .error (.trailing more.length)) ∧
    (∀ (n : Nat) (input : Input),
      (∃ bytes rest, bytes.length = n ∧ input.rest = bytes ++ rest ∧
        take n input = .ok bytes ⟨rest, input.offset + n⟩) ∨
      input.rest.length < n ∧ take n input = .error (.truncated n input.offset) input) ∧
    ((∃ d, ofBytes data = .ok d) ∨
      (∃ fault message, ofBytes data = .error fault ∧ fault.message? = some message) ∨
      ofBytes data = .error .notUtf8) ∧
    (ofBytes data = .error .notUtf8 ↔ HasSpoiledText data) := by
  refine ⟨?_, take_exact, ?_, ?_⟩
  · intro d h
    refine ⟨?_, fun more hmore => ofBytes_of_more h hmore⟩
    rintro part more rfl hmore
    exact ofBytes_of_cut h hmore
  · cases h : ofBytes data with
    | ok d => exact .inl ⟨d, rfl⟩
    | error fault =>
      cases hmessage : fault.message? with
      | some message => exact .inr (.inl ⟨fault, message, rfl, hmessage⟩)
      | none => exact .inr (.inr (congrArg _ (ImageFault.message?_eq_none.1 hmessage)))
  · constructor
    · intro h
      obtain ⟨left, hfields⟩ := fields_of_refused h (by simp)
      exact hasSpoiledText_of_fields hfields
    · intro h
      obtain ⟨left, hfields⟩ := fields_of_hasSpoiledText h 0
      exact ofBytes_of_error hfields

end Image

end StackLang
