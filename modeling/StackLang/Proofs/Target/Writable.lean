/-
When a module can be written.

A module that was built by its operations alone is `Plain`: it has no flags, and every method has its code as the only
attribute. Of such a module the format asks three things (`Module.Writable`): room in the pool for the two names of the
module and the three of each method; texts of at most 65535 bytes; code whose length, with the eight bytes before it,
is below 2³². All other fields hold numbers that always fit.

`writes_iff_writable`: at every moment before a module is written, writing succeeds exactly if the module is writable,
and otherwise leaves the module as it is.
-/
import StackLang.Proofs.Target.Lifetime

namespace StackLang

open Step (Ensures)

/-! ## Entries with a byte form -/

@[simp] theorem Bytes.length_ofText (text : String) : (Bytes.ofText text).length = text.utf8ByteSize := by
  simp [Bytes.ofText]

/-- the number of an entry fits in two bytes -/
theorem Pool.Valid.index_fits {p : Pool} (h : p.Valid) {index : Int} {c : Constant} (hc : p.get? index = some c) :
    ∃ n : Nat, index = n ∧ n < 0x10000 := by
  have hindex := Pool.index_le hc
  have hsize := h.size
  unfold Pool.capacity at hsize
  exact ⟨index.toNat, by omega, by omega⟩

/-- a text has a byte form if its length fits in two bytes -/
theorem Constant.exists_encode_utf8 {text : String} :
    (∃ bytes, (Constant.utf8 text).encode = .ok bytes) ↔ text.utf8ByteSize ≤ 65535 := by
  constructor
  · rintro ⟨bytes, h⟩
    cases encode_eq_ok.1 h with
    | utf8 hlt =>
      rw [Bytes.length_ofText] at hlt
      omega
  · intro h
    exact ⟨_, encode_eq_ok.2 (.utf8 (by rw [Bytes.length_ofText]; omega))⟩

/-- in a valid pool only a text can be too long for its byte form -/
theorem Constant.exists_encode_of_resolved {p : Pool} (hp : p.Valid) {c : Constant} (hc : c.ResolvedIn p) :
    (∃ bytes, c.encode = .ok bytes) ↔ ∀ text, c = .utf8 text → text.utf8ByteSize ≤ 65535 := by
  cases c with
  | utf8 text =>
    rw [exists_encode_utf8]
    simp
  | classRef name =>
    obtain ⟨s, hs⟩ := hc
    obtain ⟨n, rfl, hn⟩ := hp.index_fits (Pool.text_eq_ok.1 hs)
    simp [encode_eq_ok.2 (.classRef hn)]
  | nameAndType name descriptor =>
    obtain ⟨⟨s, hs⟩, t, ht⟩ := hc
    obtain ⟨n, rfl, hn⟩ := hp.index_fits (Pool.text_eq_ok.1 hs)
    obtain ⟨d, rfl, hd⟩ := hp.index_fits (Pool.text_eq_ok.1 ht)
    simp [encode_eq_ok.2 (.nameAndType hn hd)]
  | methodRef owner member =>
    obtain ⟨⟨i, hi⟩, j, k, hjk⟩ := hc
    obtain ⟨o, rfl, ho⟩ := hp.index_fits hi
    obtain ⟨m, rfl, hm⟩ := hp.index_fits hjk
    simp [encode_eq_ok.2 (.methodRef ho hm)]
  | number value => exact hc.elim

/-- the entries of a valid pool have a byte form if no text is too long -/
theorem Pool.Valid.forall_encode_iff {p : Pool} (h : p.Valid) :
    (∀ c ∈ p.entries.toList, ∃ bytes, c.encode = .ok bytes) ↔
      ∀ text, .utf8 text ∈ p.entries.toList → text.utf8ByteSize ≤ 65535 := by
  have hentry (c : Constant) (hc : c ∈ p.entries.toList) :=
    Constant.exists_encode_of_resolved h (h.linked.resolved c hc)
  constructor
  · intro hall text htext
    exact (hentry _ htext).1 (hall _ htext) text rfl
  · intro htexts c hc
    refine (hentry c hc).2 ?_
    rintro text rfl
    exact htexts text hc

/-! ## Plain methods and modules -/

/-- the code of a method: what stands behind the first eight bytes of its code attribute -/
def Method.code (d : Method) : Bytes :=
  match d.attributes.find? (·.name == codeName) with
  | some a => a.data.drop 8
  | none => []

/-- a method without flags whose only attribute is its code -/
structure Method.Plain (d : Method) : Prop where
  flags : d.flags = 0
  attributes : ∃ front, front.length = 8 ∧ d.attributes = [⟨codeName, front ++ d.code⟩]

/-- the method that is added for some code is plain, and its code is that code -/
theorem Method.plain_of_code {code : Bytes} {maxLocals : Int} {a : Attribute}
    (h : Attribute.code code maxLocals = .ok a) (name descriptor : String) :
    (Method.mk name descriptor 0 [a]).code = code ∧ (Method.mk name descriptor 0 [a]).Plain := by
  obtain ⟨n, _, _, rfl⟩ := Image.code_eq_ok h
  have hcode : (Method.mk name descriptor 0 [⟨codeName, .two 0 ++ .two n ++ .four 0 ++ code⟩]).code = code := by
    simp [Method.code, Bytes.two, Bytes.four]
  exact ⟨hcode, rfl, _, rfl, by rw [hcode]⟩

/-- the numbers of a plain method fit if its code is not too long -/
theorem Method.Plain.fits_iff {d : Method} (h : d.Plain) : d.Fits ↔ d.code.length + 8 < 2 ^ 32 := by
  obtain ⟨front, hfront, hattributes⟩ := h.attributes
  have hlength : (front ++ d.code).length = d.code.length + 8 := by
    rw [List.length_append]
    omega
  constructor
  · intro hfits
    have hdata := hfits.lengths _ (hattributes ▸ List.mem_singleton_self _)
    rw [hlength] at hdata
    exact hdata
  · intro hcode
    refine ⟨by rw [h.flags]; decide, by simp [hattributes], ?_⟩
    rw [hattributes]
    intro a ha
    rw [List.mem_singleton.1 ha, hlength]
    exact hcode

theorem Method.Plain.entries_eq {d : Method} (h : d.Plain) :
    d.entries = [.utf8 d.name, .utf8 d.descriptor, .utf8 codeName] := by
  obtain ⟨front, _, hattributes⟩ := h.attributes
  rw [Method.entries, hattributes]
  rfl

namespace Module

variable {m : Module}

/-- a module without flags, all of whose methods are plain -/
structure Plain (m : Module) : Prop where
  flags : m.flags = 0
  methods : ∀ d ∈ m.methods, d.Plain

/-- the step leaves a plain module behind, whatever its outcome -/
def KeepsPlain {α : Type} (m : Module) (change : ModuleM α) : Prop :=
  Ensures change m (fun _ => Plain) (fun _ => Plain)

theorem keepsPlain_onPool {α : Type} (h : m.Plain) (change : PoolM α) : m.KeepsPlain (onPool change) := by
  unfold KeepsPlain Ensures onPool
  dsimp only
  cases change m.pool with
  | ok a q => exact ⟨h.flags, h.methods⟩
  | error fault q => exact ⟨h.flags, h.methods⟩

theorem keepsPlain_checkOpen (h : m.Plain) : m.KeepsPlain checkOpen := by
  unfold KeepsPlain Ensures
  cases hwritten : m.written with
  | none =>
    rw [checkOpen_of_open hwritten]
    exact h
  | some bytes =>
    rw [checkOpen_of_written hwritten]
    exact h

theorem keepsPlain_addMethod (h : m.Plain) (name descriptor : String) (code : Bytes) (maxLocals : Int) :
    m.KeepsPlain (addMethod name descriptor code maxLocals) := by
  refine (keepsPlain_checkOpen h).bind fun _ m' hm' => ?_
  unfold Ensures
  cases hcode : Attribute.code code maxLocals with
  | ok body =>
    refine ⟨hm'.flags, ?_⟩
    intro d hd
    rcases List.mem_append.1 hd with hold | hnew
    · exact hm'.methods d hold
    · rw [List.mem_singleton.1 hnew]
      exact (Method.plain_of_code hcode name descriptor).2
  | error fault => exact hm'

theorem keepsPlain_addMethodRef (h : m.Plain) (name descriptor : String) :
    m.KeepsPlain (addMethodRef name descriptor) :=
  (keepsPlain_checkOpen h).bind fun _ m' hm' => keepsPlain_onPool hm' (Pool.addMethodRef m'.name name descriptor)

theorem keepsPlain_toBytes (h : m.Plain) : m.KeepsPlain toBytes := by
  unfold KeepsPlain Ensures toBytes
  cases m.written with
  | some bytes => exact h
  | none =>
    cases m.encode m.pool with
    | ok bytes q => exact ⟨h.flags, h.methods⟩
    | error fault q => exact ⟨h.flags, h.methods⟩

/-- one operation -/
theorem plain_run (h : m.Plain) (operation : Operation) : (Step.left (operation.run m)).Plain := by
  -- every operation wraps the result of a step, and leaves behind what the step does
  have hanswer {α : Type} {x : ModuleM α} (hx : m.KeepsPlain x) (wrap : α → Answer) :
      m.KeepsPlain (do return wrap (← x)) :=
    hx.bind fun _ _ hm' => hm'
  apply Ensures.left
  cases operation with
  | addMethod name descriptor code maxLocals => exact hanswer (keepsPlain_addMethod h name descriptor code maxLocals) _
  | addMethodRef name descriptor => exact hanswer (keepsPlain_addMethodRef h name descriptor) _
  | addUtf8 text => exact hanswer (keepsPlain_onPool h _) _
  | addClass name => exact hanswer (keepsPlain_onPool h _) _
  | addNameAndType name descriptor => exact hanswer (keepsPlain_onPool h _) _
  | addReference owner name descriptor => exact hanswer (keepsPlain_onPool h _) _
  | toBytes => exact hanswer (keepsPlain_toBytes h) _

/-- any operations -/
theorem plain_after (h : m.Plain) (operations : List Operation) : (m.after operations).Plain := by
  induction operations generalizing m with
  | nil => exact h
  | cons operation operations ih =>
    rw [after_cons]
    exact ih (plain_run h operation)

theorem plain_empty (name superName : String) : (empty name superName).Plain :=
  ⟨rfl, fun _ hd => absurd hd List.not_mem_nil⟩

/-! ## Writing -/

/-- what the format asks of a plain module -/
structure Writable (m : Module) : Prop where
  room : m.pool.size + 2 + 3 * m.methods.length ≤ 65534
  texts : ∀ text, .utf8 text ∈ m.pool.entries.toList → text.utf8ByteSize ≤ 65535
  name : m.name.utf8ByteSize ≤ 65535
  superName : m.superName.utf8ByteSize ≤ 65535
  methods : ∀ d ∈ m.methods,
    d.name.utf8ByteSize ≤ 65535 ∧ d.descriptor.utf8ByteSize ≤ 65535 ∧ d.code.length + 8 < 2 ^ 32

/-- writing adds two names for the module and three for each method -/
theorem length_entries (h : m.Plain) : m.entries.length = 2 + 3 * m.methods.length := by
  have hthree : m.methods.map (fun d => d.entries.length) = m.methods.map fun _ => 3 := by
    refine List.map_congr_left ?_
    intro d hd
    rw [(h.methods d hd).entries_eq]
    rfl
  rw [entries, List.length_cons, List.length_cons, List.length_flatMap, hthree]
  simp
  omega

/-- the names that writing adds have a byte form if none is too long -/
theorem entries_encode_iff (h : m.Plain) :
    (∀ c ∈ m.entries, ∃ bytes, c.encode = .ok bytes) ↔
      m.name.utf8ByteSize ≤ 65535 ∧ m.superName.utf8ByteSize ≤ 65535 ∧
        ∀ d ∈ m.methods, d.name.utf8ByteSize ≤ 65535 ∧ d.descriptor.utf8ByteSize ≤ 65535 := by
  have hmethod {d : Method} (hd : d ∈ m.methods) : (∀ c ∈ d.entries, ∃ bytes, c.encode = .ok bytes) ↔
      d.name.utf8ByteSize ≤ 65535 ∧ d.descriptor.utf8ByteSize ≤ 65535 := by
    have hcode : codeName.utf8ByteSize ≤ 65535 := by decide
    rw [(h.methods d hd).entries_eq]
    simp only [List.forall_mem_cons, List.not_mem_nil, false_imp_iff, implies_true, and_true,
      Constant.exists_encode_utf8, hcode]
  rw [entries, List.forall_mem_cons, List.forall_mem_cons, Constant.exists_encode_utf8, Constant.exists_encode_utf8,
    List.forall_mem_flatMap]
  refine and_congr_right fun _ => and_congr_right fun _ => ?_
  exact forall₂_congr fun d hd => hmethod hd

/-- all that writing checks, for a plain module with a valid pool -/
theorem fits_iff_writable (hpool : m.pool.Valid) (h : m.Plain) :
    m.pool.size + m.entries.length ≤ Pool.capacity ∧ m.Fits m.pool ↔ m.Writable := by
  rw [length_entries h]
  unfold Pool.capacity
  constructor
  · rintro ⟨hroom, hfits⟩
    obtain ⟨hold, hnew⟩ := List.forall_mem_append.1 hfits.constants
    obtain ⟨hname, hsuper, hmethods⟩ := (entries_encode_iff h).1 hnew
    refine ⟨by omega, hpool.forall_encode_iff.1 hold, hname, hsuper, ?_⟩
    intro d hd
    exact ⟨(hmethods d hd).1, (hmethods d hd).2, (h.methods d hd).fits_iff.1 (hfits.methods d hd)⟩
  · intro hw
    have hroom := hw.room
    have hold := hpool.forall_encode_iff.2 hw.texts
    have hnew := (entries_encode_iff h).2
      ⟨hw.name, hw.superName, fun d hd => ⟨(hw.methods d hd).1, (hw.methods d hd).2.1⟩⟩
    refine ⟨by omega, by rw [h.flags]; decide, by omega, ?_, List.forall_mem_append.2 ⟨hold, hnew⟩⟩
    intro d hd
    exact (h.methods d hd).fits_iff.2 (hw.methods d hd).2.2

/-- **When a module can be written.** Take any operations on a new module, each of which may fail, and let the module
not be written yet. Writing succeeds if and only if the module is writable, and otherwise fails and leaves the
module exactly as it was: its pool, its methods, its flags and names, and open for more. -/
theorem writes_iff_writable (name superName : String) (operations : List Operation)
    (hopen : ((empty name superName).after operations).written = none) :
    let m := (empty name superName).after operations
    ((∃ bytes m', toBytes m = .ok bytes m') ↔ m.Writable) ∧ (¬ m.Writable → ∃ fault, toBytes m = .error fault m) := by
  intro m
  have hvalid : m.pool.Valid := (continues_after (valid_empty name superName) operations).pool.valid
  have hplain : m.Plain := plain_after (plain_empty name superName) operations
  have hwrites := (encode_interns m m.pool).ends hvalid.size
  cases hencode : m.encode m.pool with
  | ok bytes q =>
    obtain ⟨rfl, hsize, hfits, -⟩ := hwrites.of_ok hencode
    rw [Pool.size_append] at hsize
    have hw : m.Writable := (fits_iff_writable hvalid hplain).1 ⟨hsize, hfits⟩
    exact ⟨iff_of_true ⟨_, _, toBytes_of_encoded hopen hencode⟩ hw, fun hnot => absurd hw hnot⟩
  | error fault q =>
    have hnot : ¬ m.Writable := (fits_iff_writable hvalid hplain).not.1 (hwrites.of_error hencode).2
    have hrun := toBytes_of_failed hvalid hopen hencode
    refine ⟨iff_of_false ?_ hnot, fun _ => ⟨fault, hrun⟩⟩
    rintro ⟨bytes, m', hok⟩
    rw [hrun] at hok
    cases hok

/-- each letter of a row takes one byte -/
theorem utf8ByteSize_row (n : Nat) : (String.ofList (List.replicate n 'x')).utf8ByteSize = n := by
  induction n with
  | zero => rfl
  | succ n ih =>
    rw [List.replicate_succ, ← List.singleton_append, String.ofList_append, String.utf8ByteSize_append, ih,
      show (String.ofList ['x']).utf8ByteSize = 1 from rfl, Nat.add_comm]

/-- a module with a method is written; with a text of 65536 bytes in its pool it is not, and an attempt leaves no trace -/
theorem long_text_stops_writing :
    let text := String.ofList (List.replicate 65536 'x')
    let small := (empty "Main" "Object").after [.addMethod "main" "()V" [0x00] 1]
    let large := (empty "Main" "Object").after [.addMethod "main" "()V" [0x00] 1, .addUtf8 text]
    (∃ bytes m', toBytes small = .ok bytes m') ∧ (∃ fault, toBytes large = .error fault large) ∧
      large.after [.toBytes] = large := by
  intro text small large
  have hsmall : small.Writable := ⟨by decide, fun _ htext => (by cases htext), by decide, by decide, by decide⟩
  have hlarge : ¬ large.Writable := by
    intro hw
    have htext := hw.texts text (List.mem_singleton_self _)
    rw [utf8ByteSize_row] at htext
    omega
  obtain ⟨fault, hfails⟩ :=
    (writes_iff_writable "Main" "Object" [.addMethod "main" "()V" [0x00] 1, .addUtf8 text] rfl).2 hlarge
  refine ⟨(writes_iff_writable "Main" "Object" _ rfl).1.2 hsmall, ⟨fault, hfails⟩, ?_⟩
  rw [after_cons, Operation.run, Step.bind_of_error hfails]
  rfl

end Module

end StackLang
