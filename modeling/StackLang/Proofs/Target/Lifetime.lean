/-
Pool numbers over the life of a module.

An operation adds a method, a method reference or an entry of the pool, or writes the module. `Module.after` makes
operations one after the other, whether they succeed or fail; a composite entry that meets a full pool leaves the parts
that still fitted. The invariant `Pool.Valid` says that the pool is not overfull and that entries refer only to entries
before them, of the kinds they need.

`pool_over_lifetime`: the invariant holds at every moment; a number that was given out keeps its entry, and a method
reference its method, through every later operation, a failed writing among them; and once a module is written, its
bytes never change and it takes nothing more.
-/
import StackLang.Proofs.Target.Interned

namespace StackLang

open Step (Ensures)

/-! ## Valid pools -/

/-- an entry refers only to entries with smaller numbers, of the kinds it needs -/
def Constant.RefersBelow (p : Pool) (index : Int) : Constant → Prop
  | .utf8 _ => True
  | .classRef name => name < index ∧ ∃ s, p.get? name = some (.utf8 s)
  | .nameAndType name descriptor =>
    (name < index ∧ ∃ s, p.get? name = some (.utf8 s)) ∧ descriptor < index ∧ ∃ s, p.get? descriptor = some (.utf8 s)
  | .methodRef owner member =>
    (owner < index ∧ ∃ name, p.get? owner = some (.classRef name)) ∧
      member < index ∧ ∃ name descriptor, p.get? member = some (.nameAndType name descriptor)
  | .number _ => False

namespace Pool

variable {p q : Pool}

/-- what is resolved in a pool lies below the numbers that come next -/
theorem refersBelow_of_resolved (h : Grows p q) {c : Constant} (hc : c.ResolvedIn p) {index : Int}
    (hindex : (p.size : Int) < index) : c.RefersBelow q index := by
  have hentry {i : Int} {d : Constant} (hd : p.get? i = some d) : i < index ∧ q.get? i = some d := by
    have hle := (index_le hd).2
    exact ⟨by omega, get?_of_grows h hd⟩
  cases c with
  | utf8 s => trivial
  | classRef name =>
    obtain ⟨s, hs⟩ := hc
    have hname := hentry (text_eq_ok.1 hs)
    exact ⟨hname.1, s, hname.2⟩
  | nameAndType name descriptor =>
    obtain ⟨⟨s, hs⟩, d, hd⟩ := hc
    have hname := hentry (text_eq_ok.1 hs)
    have hdescriptor := hentry (text_eq_ok.1 hd)
    exact ⟨⟨hname.1, s, hname.2⟩, hdescriptor.1, d, hdescriptor.2⟩
  | methodRef owner member =>
    obtain ⟨⟨n, hn⟩, n', d, hd⟩ := hc
    have howner := hentry hn
    have hmember := hentry hd
    exact ⟨⟨howner.1, n, howner.2⟩, hmember.1, n', d, hmember.2⟩
  | number value => exact hc

/-- the entry under a number of a pool with one entry more -/
theorem get?_append_singleton {c d : Constant} {index : Int} (h : (p.append [c]).get? index = some d) :
    p.get? index = some d ∨ index = p.size + 1 ∧ d = c := by
  obtain ⟨hpos, hle⟩ := index_le h
  rw [size_append, List.length_singleton] at hle
  obtain ⟨n, rfl⟩ : ∃ n : Nat, index = (n + 1 : Nat) := ⟨(index - 1).toNat, by omega⟩
  have hpush : p.append [c] = ⟨p.entries.push c⟩ := by simp [append]
  rw [hpush, get?_push] at h
  split at h
  · rename_i hn
    cases h
    exact .inr ⟨by omega, rfl⟩
  · exact .inl h

theorem Linked.refersBelow (h : p.Linked) {index : Int} {c : Constant} (hc : p.get? index = some c) :
    c.RefersBelow p index := by
  -- an entry keeps what it refers to when more entries come
  suffices hgrown : ∀ q, Grows p q → c.RefersBelow q index from hgrown p (Grows.refl p)
  induction h with
  | empty =>
    have hle := index_le hc
    simp only [size, Pool.empty, List.size_toArray, List.length_nil] at hle
    omega
  | @add p d _ hd ih =>
    intro q hq
    have hgrows := (grows_append p [d]).trans hq
    rcases get?_append_singleton hc with hold | ⟨hindex, rfl⟩
    · exact ih hold q hgrows
    · exact refersBelow_of_resolved hgrows hd (by omega)

/-- a pool that is not overfull and whose entries refer to entries before them -/
structure Valid (p : Pool) : Prop where
  size : p.size ≤ capacity
  linked : p.Linked

/-- `q` is valid and has the entries of `p` in front -/
structure Continues (p q : Pool) : Prop where
  valid : q.Valid
  grows : Grows p q

theorem Valid.continues (h : p.Valid) : Continues p p :=
  ⟨h, Grows.refl p⟩

theorem Continues.trans {r : Pool} (h₁ : Continues p q) (h₂ : Continues q r) : Continues p r :=
  ⟨h₂.valid, h₁.grows.trans h₂.grows⟩

/-! ## What adding keeps -/

/-- whatever the outcome, the pool goes on from the pool it was; a result satisfies `good` -/
def Keeps {α : Type} (p : Pool) (change : PoolM α) (good : α → Pool → Prop) : Prop :=
  Ensures change p (fun a q => Continues p q ∧ good a q) (fun _ q => Continues p q)

theorem Keeps.bind {α β : Type} {x : PoolM α} {f : α → PoolM β} {good : α → Pool → Prop} {next : β → Pool → Prop}
    (h : p.Keeps x good) (hf : ∀ a q, Continues p q → good a q → q.Keeps (f a) next) : p.Keeps (x >>= f) next := by
  refine Ensures.bind h ?_
  rintro a q ⟨hq, hgood⟩
  refine Ensures.imp (hf a q hq hgood) ?_ ?_
  · rintro b r ⟨hr, hnext⟩
    exact ⟨hq.trans hr, hnext⟩
  · intro fault r hr
    exact hq.trans hr

/-- a resolved entry takes the next number, or the pool is full and stays -/
theorem keeps_add (h : p.Valid) {c : Constant} (hc : c.ResolvedIn p) :
    p.Keeps (add c) (fun n q => q.get? n = some c) := by
  refine Ensures.intro ?_ ?_
  · intro n q hadd
    have hentry := get?_add hadd
    obtain ⟨hroom, _, rfl⟩ := add_eq_ok.1 hadd
    refine ⟨⟨⟨?_, h.linked.add hc⟩, grows_append p [c]⟩, hentry⟩
    rw [size_append, List.length_singleton]
    exact hroom
  · intro fault q hadd
    unfold add at hadd
    split at hadd
    · cases hadd
    · cases hadd
      exact h.continues

theorem keeps_addUtf8 (h : p.Valid) (text : String) :
    p.Keeps (addUtf8 text) (fun n q => q.text n = .ok text) :=
  Ensures.imp (keeps_add h (c := .utf8 text) trivial) (fun _ _ hq => ⟨hq.1, text_eq_ok.2 hq.2⟩) (fun _ _ hq => hq)

theorem keeps_addClass (h : p.Valid) (name : String) :
    p.Keeps (addClass name) (fun n q => ∃ i, q.get? n = some (.classRef i)) := by
  refine (keeps_addUtf8 h name).bind ?_
  intro i q hq hname
  refine Ensures.imp (keeps_add hq.valid (c := .classRef i) ⟨name, hname⟩) ?_ (fun _ _ hr => hr)
  rintro n r ⟨hr, hentry⟩
  exact ⟨hr, i, hentry⟩

theorem keeps_addNameAndType (h : p.Valid) (name descriptor : String) :
    p.Keeps (addNameAndType name descriptor) (fun n q => ∃ i j, q.get? n = some (.nameAndType i j)) := by
  refine (keeps_addUtf8 h name).bind ?_
  intro i q hq hname
  refine (keeps_addUtf8 hq.valid descriptor).bind ?_
  intro j r hr hdescriptor
  have hresolved : (Constant.nameAndType i j).ResolvedIn r :=
    ⟨⟨name, text_of_grows hr.grows hname⟩, descriptor, hdescriptor⟩
  refine Ensures.imp (keeps_add hr.valid hresolved) ?_ (fun _ _ ht => ht)
  rintro n t ⟨ht, hentry⟩
  exact ⟨ht, i, j, hentry⟩

theorem keeps_addMethodRef (h : p.Valid) (owner name descriptor : String) :
    p.Keeps (addMethodRef owner name descriptor) (fun n q => q.reference? n = some ⟨owner, name, descriptor⟩) := by
  have hkeeps : p.Keeps (addMethodRef owner name descriptor) (fun _ _ => True) := by
    refine (keeps_addNameAndType h name descriptor).bind ?_
    rintro member q hq ⟨i, j, hmember⟩
    refine (keeps_addClass hq.valid owner).bind ?_
    rintro ownerIndex r hr ⟨k, howner⟩
    have hresolved : (Constant.methodRef ownerIndex member).ResolvedIn r :=
      ⟨⟨k, howner⟩, i, j, get?_of_grows hr.grows hmember⟩
    exact Ensures.imp (keeps_add hr.valid hresolved) (fun _ _ ht => ⟨ht.1, trivial⟩) (fun _ _ ht => ht)
  refine Ensures.intro ?_ (fun fault q hfault => hkeeps.of_error hfault)
  intro n q hadd
  exact ⟨(hkeeps.of_ok hadd).1, (reference?_addMethodRef hadd).2.2⟩

end Pool

namespace Module

/-- what writing adds are texts -/
theorem entries_texts (m : Module) : ∀ c ∈ m.entries, ∃ s, c = .utf8 s := by
  intro c hc
  simp only [entries, List.mem_cons, List.mem_flatMap, Method.entries, List.mem_map] at hc
  rcases hc with rfl | rfl | ⟨method, _, rfl | rfl | ⟨a, _, rfl⟩⟩ <;> exact ⟨_, rfl⟩

theorem continues_encode {m : Module} {p q : Pool} {bytes : Bytes} (hp : p.Valid) (h : m.encode p = .ok bytes q) :
    Pool.Continues p q := by
  obtain ⟨rfl, hsize, -⟩ := ((encode_interns m p).ends hp.size).of_ok h
  exact ⟨⟨hsize, hp.linked.append_texts m.entries_texts⟩, Pool.grows_append p m.entries⟩

theorem toBytes_of_written {m : Module} {bytes : Bytes} (h : m.written = some bytes) : toBytes m = .ok bytes m := by
  unfold toBytes
  rw [h]

theorem toBytes_of_encoded {m : Module} {q : Pool} {bytes : Bytes} (hopen : m.written = none)
    (h : m.encode m.pool = .ok bytes q) : toBytes m = .ok bytes { m with pool := q, written := some bytes } := by
  unfold toBytes
  rw [hopen, h]

/-- what a failed attempt added to the pool is dropped again, so the module stays as it was -/
theorem toBytes_of_failed {m : Module} {q : Pool} {fault : WriteFault} (hp : m.pool.Valid) (hopen : m.written = none)
    (h : m.encode m.pool = .error fault q) : toBytes m = .error fault m := by
  have hgrows := (((encode_interns m m.pool).ends hp.size).of_error h).1
  unfold toBytes
  rw [hopen, h]
  dsimp only
  rw [Pool.keep_of_grows hgrows, ← hopen]

/-! ## Operations -/

inductive Operation where
  | addMethod (name descriptor : String) (code : Bytes) (maxLocals : Int)
  | addMethodRef (name descriptor : String)
  /-- the others add entries to the pool directly -/
  | addUtf8 (text : String)
  | addClass (name : String)
  | addNameAndType (name descriptor : String)
  | addReference (owner name descriptor : String)
  | toBytes
deriving DecidableEq, Repr

inductive Answer where
  | method (method : Method)
  | index (index : Nat)
  | bytes (bytes : Bytes)
deriving DecidableEq, Repr

namespace Operation

def run : Operation → ModuleM Answer
  | addMethod name descriptor code maxLocals => return .method (← Module.addMethod name descriptor code maxLocals)
  | addMethodRef name descriptor => return .index (← Module.addMethodRef name descriptor)
  | addUtf8 text => return .index (← onPool (Pool.addUtf8 text))
  | addClass name => return .index (← onPool (Pool.addClass name))
  | addNameAndType name descriptor => return .index (← onPool (Pool.addNameAndType name descriptor))
  | addReference owner name descriptor => return .index (← onPool (Pool.addMethodRef owner name descriptor))
  | toBytes => return .bytes (← Module.toBytes)

/-- the method that an operation on the module `owner` asks a reference for -/
def reference? (owner : String) : Operation → Option MethodReference
  | addMethodRef name descriptor => some ⟨owner, name, descriptor⟩
  | addReference owner name descriptor => some ⟨owner, name, descriptor⟩
  | _ => none

end Operation

/-- the module after operations, made one after the other whether they succeed or fail -/
def after (m : Module) (operations : List Operation) : Module :=
  operations.foldl (fun m operation => Step.left (operation.run m)) m

theorem after_cons (m : Module) (operation : Operation) (operations : List Operation) :
    m.after (operation :: operations) = (Module.after (Step.left (operation.run m)) operations) := rfl

/-! ## What one operation keeps -/

/-- `m'` goes on from `m`: the pool is valid with the old entries in front, the name stays, and so do bytes -/
structure Continues (m m' : Module) : Prop where
  pool : Pool.Continues m.pool m'.pool
  name : m'.name = m.name
  written : ∀ bytes, m.written = some bytes → m'.written = some bytes

theorem Continues.refl {m : Module} (h : m.pool.Valid) : Continues m m :=
  ⟨h.continues, rfl, fun _ hbytes => hbytes⟩

theorem Continues.trans {m m' m'' : Module} (h₁ : Continues m m') (h₂ : Continues m' m'') : Continues m m'' :=
  ⟨h₁.pool.trans h₂.pool, h₂.name.trans h₁.name, fun bytes hbytes => h₂.written bytes (h₁.written bytes hbytes)⟩

/-- whatever the outcome, the module goes on from what it was; a result satisfies `good` -/
def Keeps {α : Type} (m : Module) (change : ModuleM α) (good : α → Module → Prop) : Prop :=
  Ensures change m (fun a m' => Continues m m' ∧ good a m') (fun _ m' => Continues m m')

/-- an answer wraps a result -/
theorem Keeps.answer {α : Type} {m : Module} {x : ModuleM α} {wrap : α → Answer} {good : α → Module → Prop}
    {told : Answer → Module → Prop} (h : m.Keeps x good) (hgood : ∀ a m', good a m' → told (wrap a) m') :
    m.Keeps (do return wrap (← x)) told :=
  Ensures.bind h fun a m' hm' => ⟨hm'.1, hgood a m' hm'.2⟩

theorem keeps_onPool {α : Type} {m : Module} {change : PoolM α} {good : α → Pool → Prop}
    (h : m.pool.Keeps change good) : m.Keeps (onPool change) (fun a m' => good a m'.pool) := by
  unfold Keeps Ensures
  cases hchange : change m.pool with
  | ok a q =>
    have hrun : onPool change m = .ok a { m with pool := q } := by simp [onPool, hchange]
    obtain ⟨hq, hgood⟩ := h.of_ok hchange
    rw [hrun]
    exact ⟨⟨hq, rfl, fun _ hbytes => hbytes⟩, hgood⟩
  | error fault q =>
    have hrun : onPool change m = .error fault { m with pool := q } := by simp [onPool, hchange]
    rw [hrun]
    exact ⟨h.of_error hchange, rfl, fun _ hbytes => hbytes⟩

/-- a written module refuses what must be done before writing -/
theorem keeps_afterCheck {α : Type} {m : Module} (h : m.pool.Valid) {change : ModuleM α} {good : α → Module → Prop}
    (hchange : m.written = none → m.Keeps change good) : m.Keeps (do checkOpen; change) good := by
  unfold Keeps Ensures
  cases hwritten : m.written with
  | none =>
    rw [Step.bind_of_ok (checkOpen_of_open hwritten)]
    exact hchange hwritten
  | some bytes =>
    rw [Step.bind_of_error (checkOpen_of_written hwritten)]
    exact .refl h

theorem keeps_addMethod {m : Module} (h : m.pool.Valid) (name descriptor : String) (code : Bytes) (maxLocals : Int) :
    m.Keeps (addMethod name descriptor code maxLocals) (fun _ _ => True) := by
  refine keeps_afterCheck h fun hopen => ?_
  unfold Keeps Ensures
  cases hcode : Attribute.code code maxLocals with
  | ok body => exact ⟨⟨h.continues, rfl, fun _ hbytes => hbytes⟩, trivial⟩
  | error fault => exact .refl h

theorem keeps_addMethodRef {m : Module} (h : m.pool.Valid) (name descriptor : String) :
    m.Keeps (addMethodRef name descriptor)
      (fun n m' => m'.pool.reference? n = some ⟨m.name, name, descriptor⟩) :=
  keeps_afterCheck h fun _ => keeps_onPool (Pool.keeps_addMethodRef h m.name name descriptor)

/-- a failed writing leaves the module as it was -/
theorem keeps_toBytes {m : Module} (h : m.pool.Valid) : m.Keeps toBytes (fun bytes m' => m'.written = some bytes) := by
  unfold Keeps Ensures
  cases hwritten : m.written with
  | some bytes =>
    rw [toBytes_of_written hwritten]
    exact ⟨.refl h, hwritten⟩
  | none =>
    cases hencode : m.encode m.pool with
    | ok bytes q =>
      rw [toBytes_of_encoded hwritten hencode]
      refine ⟨⟨continues_encode h hencode, rfl, ?_⟩, rfl⟩
      intro earlier hearlier
      rw [hwritten] at hearlier
      cases hearlier
    | error fault q =>
      rw [toBytes_of_failed h hwritten hencode]
      exact .refl h

/-- a number that is given out has an entry, and leads to the method that was asked for -/
def Answered (m : Module) (operation : Operation) : Answer → Module → Prop
  | .index n, m' => (∃ c, m'.pool.get? n = some c) ∧
      ∀ r, operation.reference? m.name = some r → m'.pool.reference? n = some r
  | .method _, _ => True
  | .bytes bytes, m' => m'.written = some bytes

theorem answered_reference {m m' : Module} {operation : Operation} {n : Nat} {r : MethodReference}
    (hasked : operation.reference? m.name = some r) (h : m'.pool.reference? n = some r) :
    Answered m operation (.index n) m' := by
  obtain ⟨owner, member, _, _, _, hentry, _⟩ := Pool.reference?_eq_some.1 h
  refine ⟨⟨_, hentry⟩, ?_⟩
  intro r' hr'
  rw [hasked] at hr'
  cases hr'
  exact h

/-- **One operation.** Whatever its outcome, the module goes on from what it was. -/
theorem keeps_run {m : Module} (h : m.pool.Valid) (operation : Operation) :
    m.Keeps operation.run (Answered m operation) := by
  cases operation with
  | addMethod name descriptor code maxLocals =>
    exact (keeps_addMethod h name descriptor code maxLocals).answer fun _ _ _ => trivial
  | addMethodRef name descriptor =>
    exact (keeps_addMethodRef h name descriptor).answer fun _ _ hr => answered_reference rfl hr
  | addUtf8 text =>
    refine (keeps_onPool (Pool.keeps_addUtf8 h text)).answer fun n m' hn => ⟨⟨_, Pool.text_eq_ok.1 hn⟩, ?_⟩
    intro r hr
    cases hr
  | addClass name =>
    refine (keeps_onPool (Pool.keeps_addClass h name)).answer ?_
    rintro n m' ⟨i, hn⟩
    exact ⟨⟨_, hn⟩, fun r hr => by cases hr⟩
  | addNameAndType name descriptor =>
    refine (keeps_onPool (Pool.keeps_addNameAndType h name descriptor)).answer ?_
    rintro n m' ⟨i, j, hn⟩
    exact ⟨⟨_, hn⟩, fun r hr => by cases hr⟩
  | addReference owner name descriptor =>
    exact (keeps_onPool (Pool.keeps_addMethodRef h owner name descriptor)).answer fun _ _ hr =>
      answered_reference rfl hr
  | toBytes => exact (keeps_toBytes h).answer fun _ _ hbytes => hbytes

/-! ## What a run keeps -/

theorem continues_after {m : Module} (h : m.pool.Valid) (operations : List Operation) :
    Continues m (m.after operations) := by
  induction operations generalizing m with
  | nil => exact .refl h
  | cons operation operations ih =>
    have hstep : Continues m (Step.left (operation.run m)) :=
      Ensures.left (Ensures.imp (keeps_run h operation) (fun _ _ hm => hm.1) (fun _ _ hm => hm))
    rw [after_cons]
    exact hstep.trans (ih hstep.pool.valid)

theorem valid_empty (name superName : String) : (empty name superName).pool.Valid :=
  ⟨Nat.zero_le _, .empty⟩

/-- what a written module refuses, it refuses before anything is done -/
theorem refused_of_written {m : Module} {bytes : Bytes} (h : m.written = some bytes) {α : Type} (change : ModuleM α) :
    (do checkOpen; change : ModuleM α) m = .error (.alreadySerialized m.name) m :=
  Step.bind_of_error (checkOpen_of_written h) _

/-- **The pool over the life of a module.** Take any operations on a new module, each of which may fail. Afterwards the
pool has at most 65534 entries, and every entry refers only to entries with smaller numbers, of the kinds it needs.
If the next operation gives out a number, its entry is still there after any further operations, and a reference still
leads to the method that was asked for. If the next operation writes the module, then after any further operations
writing gives the same bytes, and a method or a reference is refused without a change of the module. -/
theorem pool_over_lifetime (name superName : String) (earlier later : List Operation) :
    let m := (empty name superName).after earlier
    (m.pool.size ≤ 65534 ∧ ∀ index c, m.pool.get? index = some c → c.RefersBelow m.pool index) ∧
      (∀ (operation : Operation) n m', operation.run m = .ok (.index n) m' →
        (∃ c, m'.pool.get? n = some c ∧ (m'.after later).pool.get? n = some c) ∧
        ∀ r, operation.reference? name = some r → (m'.after later).pool.reference? n = some r) ∧
      ∀ bytes m', toBytes m = .ok bytes m' →
        toBytes (m'.after later) = .ok bytes (m'.after later) ∧
        (∀ method descriptor code maxLocals, addMethod method descriptor code maxLocals (m'.after later) =
          .error (.alreadySerialized name) (m'.after later)) ∧
        ∀ method descriptor, addMethodRef method descriptor (m'.after later) =
          .error (.alreadySerialized name) (m'.after later) := by
  intro m
  have hm : Continues (empty name superName) m := continues_after (valid_empty name superName) earlier
  have hname : m.name = name := hm.name
  refine ⟨⟨hm.pool.valid.size, fun index c hc => hm.pool.valid.linked.refersBelow hc⟩, ?_, ?_⟩
  · intro operation n m' hrun
    obtain ⟨hm', ⟨c, hc⟩, hreference⟩ := (keeps_run hm.pool.valid operation).of_ok hrun
    have hgrows := (continues_after hm'.pool.valid later).pool.grows
    refine ⟨⟨c, hc, Pool.get?_of_grows hgrows hc⟩, ?_⟩
    intro r hr
    rw [← hname] at hr
    exact Pool.reference?_of_grows hgrows (hreference r hr)
  · intro bytes m' hwrite
    obtain ⟨hm', hwritten⟩ := (keeps_toBytes hm.pool.valid).of_ok hwrite
    have hlater := continues_after hm'.pool.valid later
    have hbytes := hlater.written bytes hwritten
    have hsame : (m'.after later).name = name := hlater.name.trans (hm'.name.trans hname)
    rw [← hsame]
    exact ⟨toBytes_of_written hbytes, fun _ _ _ _ => refused_of_written hbytes _,
      fun _ _ => refused_of_written hbytes _⟩

/-- a reference given out before the module is written leads to its method afterwards, and no method can follow -/
theorem reference_over_writing :
    ∃ n m₁ bytes m₂, (Operation.addMethodRef "f" "()I").run (empty "Main" "Object") = .ok (.index n) m₁ ∧
      toBytes m₁ = .ok bytes m₂ ∧ m₂ = m₁.after [.toBytes] ∧
      m₂.pool.reference? n = some ⟨"Main", "f", "()I"⟩ ∧
      addMethod "g" "()V" [] 0 m₂ = .error (.alreadySerialized "Main") m₂ := by
  have hgiven : ∃ n m₁, (Operation.addMethodRef "f" "()I").run (empty "Main" "Object") = .ok (.index n) m₁ ∧
      m₁ = (empty "Main" "Object").after [.addMethodRef "f" "()I"] := ⟨_, _, rfl, rfl⟩
  obtain ⟨n, m₁, hgiven, hm₁⟩ := hgiven
  have hwritten : ∃ bytes m₂, toBytes m₁ = .ok bytes m₂ ∧ m₂ = m₁.after [.toBytes] := by
    rw [hm₁]
    exact ⟨_, _, rfl, rfl⟩
  obtain ⟨bytes, m₂, hwritten, hm₂⟩ := hwritten
  have hreference := ((pool_over_lifetime "Main" "Object" [] [.toBytes]).2.1 _ n m₁ hgiven).2 _ rfl
  have hwrite := (pool_over_lifetime "Main" "Object" [.addMethodRef "f" "()I"] []).2.2 bytes m₂
  rw [← hm₁] at hwrite
  refine ⟨n, m₁, bytes, m₂, hgiven, hwritten, hm₂, ?_, (hwrite hwritten).2.1 "g" "()V" [] 0⟩
  rw [hm₂]
  exact hreference

end Module

end StackLang
