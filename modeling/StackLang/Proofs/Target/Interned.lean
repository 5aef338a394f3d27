/-
What writing does to the pool, in both outcomes.

`Pool.Interns p step fits added good`: from the pool `p` the step succeeds exactly if its numbers fit in their fields
and there is room for the entries it adds, and then it has added these; if it fails, the entries of `p` still stand in
front. Such steps are put together one after the other and along lists (`Interns.bind`, `Interns.mapM`), so the
condition for a whole module is gathered from its parts (`Module.encode_interns`). What a failed attempt leaves in the
pool can be cut off again (`Pool.keep_of_grows`).
-/
import StackLang.Proofs.Target.Linked

namespace StackLang

open Step (Ensures)

namespace Pool

/-- the step adds these entries if the numbers fit and there is room; otherwise it fails, the old entries in front -/
structure Interns {α : Type} (p : Pool) (step : PoolM α) (fits : Prop) (added : List Constant) (good : α → Prop) :
    Prop where
  ends : p.size ≤ capacity → Ensures step p
    (fun a q => q = p.append added ∧ q.size ≤ capacity ∧ fits ∧ good a)
    (fun _ q => Grows p q ∧ ¬ (p.size + added.length ≤ capacity ∧ fits))

variable {α β : Type} {p q : Pool} {fits fits' : Prop} {added added' : List Constant} {good : α → Prop}
  {good' : β → Prop}

/-- entries added behind others are cut off again -/
theorem keep_of_grows (h : Grows p q) : q.keep p.size = p := by
  obtain ⟨more, hq⟩ := h
  have hentries : (q.entries.take p.entries.size).toList = p.entries.toList := by
    rw [Array.take_eq_extract, Array.toList_extract, ← hq, ← Array.length_toList]
    simp
  exact congrArg Pool.mk (Array.toList_inj.1 hentries)

namespace Interns

theorem congr {x : PoolM α} (h : p.Interns x fits added good) (hfits : fits ↔ fits') :
    p.Interns x fits' added good := by
  rw [← hfits]
  exact h

theorem pure {a : α} (ha : good a) : p.Interns (Pure.pure a) True [] good := by
  refine ⟨?_⟩
  intro hp
  exact ⟨by simp, hp, trivial, ha⟩

/-- one step after the other -/
theorem bind {x : PoolM α} {f : α → PoolM β} (hx : p.Interns x fits added good)
    (hf : ∀ a, good a → (p.append added).Interns (f a) fits' added' good') :
    p.Interns (x >>= f) (fits ∧ fits') (added ++ added') good' := by
  refine ⟨?_⟩
  intro hp
  -- a failure of the first step is one of both: what does not fit for it alone does not fit for both
  have hfirst : Ensures x p (fun a q => q = p.append added ∧ q.size ≤ capacity ∧ fits ∧ good a)
      (fun _ q => Grows p q ∧ ¬ (p.size + (added ++ added').length ≤ capacity ∧ fits ∧ fits')) := by
    refine (hx.ends hp).imp (fun _ _ h => h) ?_
    rintro _ q ⟨hgrows, hfails⟩
    refine ⟨hgrows, ?_⟩
    rintro ⟨hroom, hfits, -⟩
    rw [List.length_append] at hroom
    exact hfails ⟨by omega, hfits⟩
  refine hfirst.bind ?_
  rintro a q ⟨rfl, hroom, hfits, ha⟩
  refine ((hf a ha).ends hroom).imp ?_ ?_
  · rintro b r ⟨rfl, hroom', hfits', hb⟩
    exact ⟨append_append p added added', hroom', ⟨hfits, hfits'⟩, hb⟩
  · rintro _ r ⟨hgrows, hfails⟩
    refine ⟨(grows_append p added).trans hgrows, ?_⟩
    rintro ⟨hroom', -, hfits'⟩
    rw [size_append, add_assoc, ← List.length_append] at hfails
    exact hfails ⟨hroom', hfits'⟩

/-- behind a step that adds nothing -/
theorem after {x : PoolM α} {f : α → PoolM β} (hx : p.Interns x fits [] good)
    (hf : ∀ a, good a → p.Interns (f a) fits' added' good') : p.Interns (x >>= f) (fits ∧ fits') added' good' := by
  refine hx.bind ?_
  intro a ha
  rw [append_nil]
  exact hf a ha

/-- a result made of another one -/
theorem last {x : PoolM α} {f : α → β} (hx : p.Interns x fits added good) (hf : ∀ a, good a → good' (f a)) :
    p.Interns (x >>= fun a => Pure.pure (f a)) fits added good' := by
  have hboth := hx.bind fun a ha => pure (hf a ha)
  rw [List.append_nil] at hboth
  exact hboth.congr (iff_of_eq (and_true fits))

/-- the same step for all items of a list -/
theorem mapM {f : α → PoolM β} {fits : α → Prop} {added : α → List Constant}
    (h : ∀ a p, Interns p (f a) (fits a) (added a) fun _ => True) (as : List α) :
    p.Interns (as.mapM f) (∀ a ∈ as, fits a) (as.flatMap added) fun _ => True := by
  induction as generalizing p with
  | nil =>
    rw [List.mapM_nil]
    exact (pure trivial).congr (by simp)
  | cons a as ih =>
    rw [List.mapM_cons, List.flatMap_cons]
    refine ((h a p).bind fun b _ => ih.last fun _ _ => trivial).congr ?_
    rw [List.forall_mem_cons]

/-- the pool may be taken not to be overfull -/
theorem of_size {x : PoolM α} (h : p.size ≤ capacity → p.Interns x fits added good) : p.Interns x fits added good :=
  ⟨fun hp => (h hp).ends hp⟩

/-- a step that depends on the pool it finds -/
theorem get {f : Pool → PoolM β} (h : p.Interns (f p) fits added good') :
    p.Interns (MonadState.get >>= f) fits added good' := by
  refine ⟨?_⟩
  intro hp
  unfold Ensures
  rw [Step.bind_of_ok (Step.get_apply p)]
  exact h.ends hp

end Interns

/-- a text is added if there is room, and its number fits in two bytes -/
theorem interns_addUtf8 (text : String) : p.Interns (addUtf8 text) True [.utf8 text] fun n => n ≤ capacity := by
  refine ⟨fun _ => Ensures.intro ?_ ?_⟩
  · intro n q hadd
    obtain ⟨hroom, rfl, rfl⟩ := add_eq_ok.1 hadd
    exact ⟨rfl, by simpa using hroom, trivial, hroom⟩
  · intro fault q hadd
    unfold addUtf8 add at hadd
    split at hadd
    · cases hadd
    · rename_i hfull
      cases hadd
      refine ⟨Grows.refl _, ?_⟩
      rintro ⟨hroom, -⟩
      rw [List.length_singleton] at hroom
      exact hfull hroom

/-- a check leaves the pool alone -/
theorem interns_check {e : Except WriteFault α} (h : (∃ a, e = .ok a) ↔ fits) :
    p.Interns (liftM e) fits [] fun _ => True := by
  refine ⟨?_⟩
  intro hp
  cases e with
  | ok a => exact ⟨by simp, hp, h.1 ⟨a, rfl⟩, trivial⟩
  | error fault =>
    refine ⟨Grows.refl _, ?_⟩
    rintro ⟨-, hfits⟩
    obtain ⟨a, ha⟩ := h.2 hfits
    cases ha

theorem interns_two (field : String) (value : Int) :
    p.Interns (liftM (twoBytes field value)) (0 ≤ value ∧ value ≤ 0xFFFF) [] fun _ => True := by
  refine interns_check ?_
  unfold twoBytes
  split <;> simp_all

theorem interns_length (field : String) (n : Nat) :
    p.Interns (liftM (fourBytes field n)) (n < 0x100000000) [] fun _ => True := by
  refine interns_check ?_
  unfold fourBytes
  split <;> simp <;> omega

namespace Interns

/-- behind a text only what follows has to fit -/
theorem text {text : String} {f : Nat → PoolM β}
    (hf : ∀ n ≤ capacity, (p.append [.utf8 text]).Interns (f n) fits added good') :
    p.Interns (addUtf8 text >>= f) fits (.utf8 text :: added) good' :=
  ((interns_addUtf8 text).bind hf).congr (iff_of_eq (true_and fits))

/-- a number that fits -/
theorem field {field : String} {value : Int} {f : Bytes → PoolM β} (hvalue : 0 ≤ value ∧ value ≤ 0xFFFF)
    (hf : ∀ bytes, p.Interns (f bytes) fits added good') :
    p.Interns (liftM (twoBytes field value) >>= f) fits added good' :=
  ((interns_two field value).after fun bytes _ => hf bytes).congr (and_iff_right hvalue)

/-- the number of an entry always fits -/
theorem index {field : String} {n : Nat} {f : Bytes → PoolM β} (hn : n ≤ capacity)
    (hf : ∀ bytes, p.Interns (f bytes) fits added good') :
    p.Interns (liftM (twoBytes field n) >>= f) fits added good' := by
  unfold capacity at hn
  exact Interns.field (by omega) hf

end Interns

/-- checks along a list all pass if each of them does -/
theorem exists_mapM_iff {ε : Type} {f : α → Except ε β} {as : List α} :
    (∃ bs, as.mapM f = .ok bs) ↔ ∀ a ∈ as, ∃ b, f a = .ok b := by
  induction as with
  | nil => simp [pure, Except.pure]
  | cons a as ih =>
    rw [List.forall_mem_cons, ← ih]
    constructor
    · rintro ⟨bs, h⟩
      obtain ⟨b, rest, hb, hrest, -⟩ := List.forall₂_cons_left_iff.1 (mapM_eq_ok.1 h)
      exact ⟨⟨b, hb⟩, rest, mapM_eq_ok.2 hrest⟩
    · rintro ⟨⟨b, hb⟩, rest, hrest⟩
      exact ⟨b :: rest, mapM_eq_ok.2 (.cons hb (mapM_eq_ok.1 hrest))⟩

/-- a pool has a byte form if each of its entries has one -/
theorem exists_encode_iff :
    (∃ bytes, p.encode = .ok bytes) ↔ ∀ c ∈ p.entries.toList, ∃ bytes, c.encode = .ok bytes := by
  rw [← exists_mapM_iff]
  unfold encode
  constructor
  · rintro ⟨bytes, h⟩
    obtain ⟨parts, hparts, -⟩ := Step.check_bind_eq_ok.1 h
    exact ⟨parts, hparts⟩
  · rintro ⟨parts, hparts⟩
    exact ⟨_, Step.check_bind_eq_ok.2 ⟨parts, hparts, rfl⟩⟩

/-- the pool is written behind the number of its entries, which fits -/
theorem interns_encode (f : Bytes → Bytes → β) :
    p.Interns
      (do
        let pool ← get
        let count ← twoBytes "constant pool count" (pool.size + 1)
        let constants ← pool.encode
        return f count constants)
      (∀ c ∈ p.entries.toList, ∃ bytes, c.encode = .ok bytes) [] fun _ => True := by
  refine .get (.of_size fun hsize => ?_)
  have hcount : 0 ≤ (p.size + 1 : Int) ∧ (p.size + 1 : Int) ≤ 0xFFFF := by
    unfold capacity at hsize
    omega
  refine .field hcount fun _ => ?_
  exact (interns_check exists_encode_iff).last fun _ _ => trivial

end Pool

/-! ## Methods and modules -/

theorem Attribute.link_interns (a : Attribute) (p : Pool) :
    p.Interns a.link (a.data.length < 0x100000000) [.utf8 a.name] fun _ => True := by
  refine .text fun n hn => .index hn fun _ => ?_
  exact (Pool.interns_length _ _).last fun _ _ => trivial

/-- the numbers of a method that are written fit in their fields -/
structure Method.Fits (m : Method) : Prop where
  flags : 0 ≤ m.flags ∧ m.flags ≤ 0xFFFF
  count : m.attributes.length ≤ 0xFFFF
  lengths : ∀ a ∈ m.attributes, a.data.length < 0x100000000

theorem Method.link_interns (m : Method) (p : Pool) : p.Interns m.link m.Fits m.entries fun _ => True := by
  have hparts : p.Interns m.link
      ((0 ≤ m.flags ∧ m.flags ≤ 0xFFFF) ∧ (0 ≤ (m.attributes.length : Int) ∧ (m.attributes.length : Int) ≤ 0xFFFF) ∧
        ∀ a ∈ m.attributes, a.data.length < 0x100000000)
      (.utf8 m.name :: .utf8 m.descriptor :: m.attributes.flatMap fun a => [.utf8 a.name]) fun _ => True := by
    refine (Pool.interns_two _ _).after fun _ _ => ?_
    refine .text fun n hn => .index hn fun _ => ?_
    refine .text fun n hn => .index hn fun _ => ?_
    refine (Pool.interns_two _ _).after fun _ _ => ?_
    exact (Pool.Interns.mapM Attribute.link_interns m.attributes).last fun _ _ => trivial
  rw [← List.map_eq_flatMap] at hparts
  refine hparts.congr ?_
  constructor
  · rintro ⟨hflags, ⟨-, hcount⟩, hlengths⟩
    exact ⟨hflags, by omega, hlengths⟩
  · rintro ⟨hflags, hcount, hlengths⟩
    exact ⟨hflags, by omega, hlengths⟩

namespace Module

/-- the numbers of a module that are written fit in their fields, and the entries it is written with have a byte form -/
structure Fits (m : Module) (p : Pool) : Prop where
  flags : 0 ≤ m.flags ∧ m.flags ≤ 0xFFFF
  count : m.methods.length ≤ 0xFFFF
  methods : ∀ d ∈ m.methods, d.Fits
  constants : ∀ c ∈ p.entries.toList ++ m.entries, ∃ bytes, c.encode = .ok bytes

/-- **Writing a module.** It succeeds exactly if all fits and there is room for the entries it adds, and then it has
added these. If it fails, the entries that were there still stand in front. -/
theorem encode_interns (m : Module) (p : Pool) : p.Interns m.encode (m.Fits p) m.entries fun _ => True := by
  have hparts : p.Interns m.encode
      ((∀ d ∈ m.methods, d.Fits) ∧ (0 ≤ m.flags ∧ m.flags ≤ 0xFFFF) ∧
        (0 ≤ (m.methods.length : Int) ∧ (m.methods.length : Int) ≤ 0xFFFF) ∧
        ∀ c ∈ (p.append m.entries).entries.toList, ∃ bytes, c.encode = .ok bytes)
      (.utf8 m.name :: .utf8 m.superName :: (m.methods.flatMap Method.entries ++ [])) fun _ => True := by
    have hzero : (0 : Int) ≤ 0 ∧ (0 : Int) ≤ 0xFFFF := by decide
    refine .text fun this hthis => .text fun super hsuper => ?_
    refine (Pool.Interns.mapM Method.link_interns m.methods).bind fun _ _ => ?_
    rw [Pool.append_append, Pool.append_append]
    refine (Pool.interns_two _ _).after fun _ _ => ?_
    refine .index hthis fun _ => .index hsuper fun _ => .field hzero fun _ => .field hzero fun _ => ?_
    refine (Pool.interns_two _ _).after fun _ _ => .field hzero fun _ => ?_
    exact Pool.interns_encode _
  rw [List.append_nil] at hparts
  refine hparts.congr ?_
  have hentries : (p.append m.entries).entries.toList = p.entries.toList ++ m.entries := by simp [Pool.append]
  rw [hentries]
  constructor
  · rintro ⟨hmethods, hflags, ⟨-, hcount⟩, hconstants⟩
    exact ⟨hflags, by omega, hmethods, hconstants⟩
  · rintro ⟨hflags, hcount, hmethods, hconstants⟩
    exact ⟨hmethods, hflags, by omega, hconstants⟩

/-- a written module has its entries behind those it had before -/
theorem encode_adds {m : Module} {p q : Pool} {bytes : Bytes} (h : m.encode p = .ok bytes q) :
    q = p.append m.entries := by
  obtain ⟨_, _, hname, _⟩ := Step.bind_eq_ok.1 h
  obtain ⟨hroom, -⟩ := Pool.add_eq_ok.1 hname
  exact (((encode_interns m p).ends hroom.le).of_ok h).1

end Module

end StackLang
