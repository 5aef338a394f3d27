/-
A written module is read back as it was built.

Linking a method adds its names to the pool while its bytes are laid out; the pool is written later, in front of the
methods. So what linking gives has the form of the method against every pool grown from the one it left
(`form_of_link`). A module whose methods have one code attribute each is written in the form of its image, and so read
back with its pool, names, flags and methods (`ofBytes_of_toBytes`). The changes of an open module that lowering makes
are told at the end.
-/
import StackLang.Proofs.Target.Recognized

namespace StackLang.Image

/-! ## Methods -/

/-- the image of a method whose only attribute is its code -/
structure Depicts (i : MethodImage) (m : Method) : Prop where
  name : i.name = m.name
  descriptor : i.descriptor = m.descriptor
  flags : (i.flags : Int) = m.flags
  code : ∃ a, Attribute.code i.code i.maxLocals = .ok a ∧ m.attributes = [a]

/-- what a code attribute holds -/
theorem code_eq_ok {code : Bytes} {maxLocals : Int} {a : Attribute} (h : Attribute.code code maxLocals = .ok a) :
    ∃ n : Nat, maxLocals = n ∧ n < 0x10000 ∧ a = ⟨codeName, .two 0 ++ .two n ++ .four 0 ++ code⟩ := by
  obtain ⟨stack, hstack, h⟩ := Step.check_bind_eq_ok.1 h
  obtain ⟨count, hcount, h⟩ := Step.check_bind_eq_ok.1 h
  obtain ⟨exceptions, hexceptions, h⟩ := Step.check_bind_eq_ok.1 h
  cases h
  cases hstack
  cases hexceptions
  obtain ⟨n, rfl, hlt, rfl⟩ := twoBytes_eq_ok hcount
  exact ⟨n, rfl, hlt, rfl⟩

/-- a code attribute sets number of locals and code -/
theorem withCode_code {code : Bytes} {maxLocals : Nat} {a : Attribute} (h : Attribute.code code maxLocals = .ok a)
    (m : MethodImage) : m.withCode [a] = { m with maxLocals := maxLocals, code := code } := by
  obtain ⟨n, hn, hlt, rfl⟩ := code_eq_ok h
  obtain rfl : maxLocals = n := by omega
  have htwo : ((Bytes.two 0 ++ Bytes.two maxLocals ++ Bytes.four 0 ++ code).drop 2).take 2 = Bytes.two maxLocals := rfl
  rw [withCode_singleton rfl, htwo, Bytes.ofBE_two hlt]
  rfl

/-- the data of a code attribute starts with eight bytes -/
theorem length_code {code : Bytes} {maxLocals : Int} {a : Attribute} (h : Attribute.code code maxLocals = .ok a) :
    8 ≤ a.data.length := by
  obtain ⟨n, _, _, rfl⟩ := code_eq_ok h
  simp only [List.length_append, Bytes.length_two, Bytes.length_four]
  omega

/-- a field of two bytes written in between leaves the pool alone -/
theorem lift_twoBytes {field : String} {value : Int} {bytes : Bytes} {p p' : Pool}
    (h : (liftM (twoBytes field value) : PoolM Bytes) p = .ok bytes p') :
    ∃ n : Nat, value = n ∧ n < 0x10000 ∧ bytes = .two n ∧ p = p' := by
  obtain ⟨hbytes, hp⟩ := Step.lift_eq_ok.1 h
  obtain ⟨n, hn, hlt, hb⟩ := twoBytes_eq_ok hbytes
  exact ⟨n, hn, hlt, hb, hp⟩

/-- a text is added and its number written -/
theorem link_text {text field : String} {p p₁ p₂ : Pool} {n : Nat} {bytes : Bytes}
    (hadd : Pool.addUtf8 text p = .ok n p₁)
    (hwrite : (liftM (twoBytes field n) : PoolM Bytes) p₁ = .ok bytes p₂) :
    p₂.text n = .ok text ∧ Pool.Grows p p₂ ∧ n < 0x10000 ∧ bytes = .two n := by
  obtain ⟨k, hk, _, rfl, rfl⟩ := lift_twoBytes hwrite
  have hk : k = n := by omega
  subst hk
  exact ⟨Pool.text_addUtf8 hadd, Pool.grows_addUtf8 hadd, Pool.addUtf8_lt hadd, rfl⟩

theorem form_of_attribute {a : Attribute} (ha : 8 ≤ a.data.length) {p p' : Pool} {bytes : Bytes}
    (h : a.link p = .ok bytes p') : Pool.Grows p p' ∧ ∀ q, Pool.Grows p' q → a.Form q bytes := by
  obtain ⟨n, p₁, hadd, h⟩ := Step.bind_eq_ok.1 h
  obtain ⟨name, p₂, hname, h⟩ := Step.bind_eq_ok.1 h
  obtain ⟨length, p₃, hlength, h⟩ := Step.bind_eq_ok.1 h
  cases h
  obtain ⟨htext, hgrows, hlt, rfl⟩ := link_text hadd hname
  obtain ⟨hfour, rfl⟩ := Step.lift_eq_ok.1 hlength
  obtain ⟨l, hl, hlong, rfl⟩ := fourBytes_eq_ok hfour
  obtain rfl : l = a.data.length := by omega
  refine ⟨hgrows, ?_⟩
  intro q hq
  rw [List.append_assoc]
  exact .mk hlt (Pool.text_eq_ok.1 (Pool.text_of_grows hq htext)) hlong fun _ => ha

/-- a linked method has its form against the finished pool -/
theorem form_of_link {i : MethodImage} {m : Method} (hm : Depicts i m) {p p' : Pool} {bytes : Bytes}
    (h : m.link p = .ok bytes p') : Pool.Grows p p' ∧ ∀ q, Pool.Grows p' q → i.Form q bytes := by
  obtain ⟨a, ha, hattributes⟩ := hm.code
  obtain ⟨flags, p₁, hflags, h⟩ := Step.bind_eq_ok.1 h
  obtain ⟨name, p₂, hname, h⟩ := Step.bind_eq_ok.1 h
  obtain ⟨nameBytes, p₃, hnameBytes, h⟩ := Step.bind_eq_ok.1 h
  obtain ⟨descriptor, p₄, hdescriptor, h⟩ := Step.bind_eq_ok.1 h
  obtain ⟨descriptorBytes, p₅, hdescriptorBytes, h⟩ := Step.bind_eq_ok.1 h
  obtain ⟨count, p₆, hcount, h⟩ := Step.bind_eq_ok.1 h
  obtain ⟨attributes, p₇, hlinks, h⟩ := Step.bind_eq_ok.1 h
  cases h
  obtain ⟨f, hf, hfl, rfl, rfl⟩ := lift_twoBytes hflags
  obtain ⟨htext, hgrows, hnlt, rfl⟩ := link_text hname hnameBytes
  obtain ⟨htext', hgrows', hdlt, rfl⟩ := link_text hdescriptor hdescriptorBytes
  obtain ⟨c, hc, _, rfl, rfl⟩ := lift_twoBytes hcount
  rw [hattributes, List.mapM_cons, List.mapM_nil] at hlinks
  obtain ⟨link, p₈, hlink, hlinks⟩ := Step.bind_eq_ok.1 hlinks
  cases hlinks
  obtain ⟨hgrows'', hform⟩ := form_of_attribute (length_code ha) hlink
  obtain rfl : i.flags = f := by have := hm.flags; omega
  obtain rfl : c = [a].length := by rw [hattributes] at hc; omega
  refine ⟨(hgrows.trans hgrows').trans hgrows'', ?_⟩
  intro q hq
  have hname := Pool.text_of_grows ((hgrows'.trans hgrows'').trans hq) htext
  have hdescriptor := Pool.text_of_grows (hgrows''.trans hq) htext'
  rw [← hm.name] at hname
  rw [← hm.descriptor] at hdescriptor
  have hmethod := MethodImage.Form.mk hfl hnlt (Pool.text_eq_ok.1 hname) hdlt (Pool.text_eq_ok.1 hdescriptor)
    (by simp) (.cons (hform q hq) .nil)
  rw [withCode_code ha] at hmethod
  simpa only [List.append_assoc] using hmethod

/-- methods linked one after the other -/
theorem forms_of_links {images : List MethodImage} {methods : List Method}
    (hm : List.Forall₂ Depicts images methods) {p p' : Pool} {parts : List Bytes}
    (h : methods.mapM Method.link p = .ok parts p') :
    Pool.Grows p p' ∧ ∀ q, Pool.Grows p' q → List.Forall₂ (MethodImage.Form q) parts images := by
  induction hm generalizing p parts with
  | nil =>
    cases h
    exact ⟨Pool.Grows.refl _, fun _ _ => .nil⟩
  | @cons i m images methods hi _ ih =>
    rw [List.mapM_cons] at h
    obtain ⟨bytes, p₁, hlink, h⟩ := Step.bind_eq_ok.1 h
    obtain ⟨rest, p₂, hrest, h⟩ := Step.bind_eq_ok.1 h
    cases h
    obtain ⟨hgrows, hform⟩ := form_of_link hi hlink
    obtain ⟨hgrows', hforms⟩ := ih hrest
    refine ⟨hgrows.trans hgrows', ?_⟩
    intro q hq
    exact .cons (hform q (hgrows'.trans hq)) (hforms q hq)

/-! ## Modules -/

/-- the bytes of a module are read back as its pool, flags, names and methods -/
theorem ofBytes_of_encode {m : Module} {images : List MethodImage} (hm : List.Forall₂ Depicts images m.methods)
    {p : Pool} {bytes : Bytes} (h : m.encode m.pool = .ok bytes p) :
    ∃ flags : Nat, m.flags = flags ∧ Pool.Grows m.pool p ∧
      ofBytes bytes = .ok ⟨p, flags, m.name, m.superName, images⟩ := by
  obtain ⟨thisIndex, p₁, hthis, h⟩ := Step.bind_eq_ok.1 h
  obtain ⟨superIndex, p₂, hsuper, h⟩ := Step.bind_eq_ok.1 h
  obtain ⟨parts, p₃, hparts, h⟩ := Step.bind_eq_ok.1 h
  obtain ⟨_, p₄, hflags, h⟩ := Step.bind_eq_ok.1 h
  obtain ⟨_, p₅, hthisBytes, h⟩ := Step.bind_eq_ok.1 h
  obtain ⟨_, p₆, hsuperBytes, h⟩ := Step.bind_eq_ok.1 h
  obtain ⟨_, p₇, hinterfaces, h⟩ := Step.bind_eq_ok.1 h
  obtain ⟨_, p₈, hfields, h⟩ := Step.bind_eq_ok.1 h
  obtain ⟨_, p₉, hmethodCount, h⟩ := Step.bind_eq_ok.1 h
  obtain ⟨_, p₁₀, hattributes, h⟩ := Step.bind_eq_ok.1 h
  obtain ⟨pool, p₁₁, hpool, h⟩ := Step.bind_eq_ok.1 h
  obtain ⟨_, p₁₂, hcount, h⟩ := Step.bind_eq_ok.1 h
  obtain ⟨constants, p₁₃, hconstants, h⟩ := Step.bind_eq_ok.1 h
  cases h
  -- only the three bindings in front touch the pool, the fields behind them leave it alone
  obtain ⟨flags, hflagsEq, hflagsLt, rfl, rfl⟩ := lift_twoBytes hflags
  obtain ⟨this, hthisEq, hthisLt, rfl, rfl⟩ := lift_twoBytes hthisBytes
  obtain ⟨super, hsuperEq, hsuperLt, rfl, rfl⟩ := lift_twoBytes hsuperBytes
  obtain ⟨i, hi, _, rfl, rfl⟩ := lift_twoBytes hinterfaces
  obtain ⟨f, hf, _, rfl, rfl⟩ := lift_twoBytes hfields
  obtain ⟨methodCount, hmethodsEq, hmethodsLt, rfl, rfl⟩ := lift_twoBytes hmethodCount
  obtain ⟨a, ha, _, rfl, rfl⟩ := lift_twoBytes hattributes
  cases hpool
  obtain ⟨count, hcountEq, hcountLt, rfl, rfl⟩ := lift_twoBytes hcount
  obtain ⟨hpoolBytes, rfl⟩ := Step.lift_eq_ok.1 hconstants
  obtain ⟨hgrows, hforms⟩ := forms_of_links hm hparts
  have hmethods := hforms _ (Pool.Grows.refl _)
  have hthisText := Pool.text_of_grows ((Pool.grows_addUtf8 hsuper).trans hgrows) (Pool.text_addUtf8 hthis)
  have hsuperText := Pool.text_of_grows hgrows (Pool.text_addUtf8 hsuper)
  obtain rfl : methodCount = images.length := by
    have hlength := hm.length_eq
    omega
  obtain rfl : this = thisIndex := by omega
  obtain rfl : super = superIndex := by omega
  obtain rfl : count = p₃.size + 1 := by omega
  obtain rfl : i = 0 := by omega
  obtain rfl : f = 0 := by omega
  obtain rfl : a = 0 := by omega
  refine ⟨flags, hflagsEq, ((Pool.grows_addUtf8 hthis).trans (Pool.grows_addUtf8 hsuper)).trans hgrows, ?_⟩
  have hbody : BodyForm _ ⟨p₃, flags, m.name, m.superName, images⟩ := .mk hflagsLt hthisLt (Pool.text_eq_ok.1 hthisText)
    hsuperLt (Pool.text_eq_ok.1 hsuperText) hmethodsLt hmethods (Nat.zero_lt_succ _)
  have hread := ofBytes_of_form (.mk hcountLt hpoolBytes hbody)
  simpa only [List.append_assoc] using hread

theorem toBytes_eq_ok {m m' : Module} {bytes : Bytes} (hopen : m.written = none) (h : m.toBytes = .ok bytes m') :
    ∃ p, m.encode m.pool = .ok bytes p ∧ m' = { m with pool := p, written := some bytes } := by
  unfold Module.toBytes at h
  rw [hopen] at h
  cases hencode : m.encode m.pool with
  | ok written p =>
    rw [hencode] at h
    cases h
    exact ⟨p, rfl, rfl⟩
  | error fault p =>
    rw [hencode] at h
    cases h

/-- an open module is read back from the bytes it writes, with the pool it then has -/
theorem ofBytes_of_toBytes {m m' : Module} {images : List MethodImage} {bytes : Bytes} (hopen : m.written = none)
    (hm : List.Forall₂ Depicts images m.methods) (h : m.toBytes = .ok bytes m') :
    ∃ flags : Nat, m.flags = flags ∧ Pool.Grows m.pool m'.pool ∧
      ofBytes bytes = .ok ⟨m'.pool, flags, m.name, m.superName, images⟩ := by
  obtain ⟨p, hencode, rfl⟩ := toBytes_eq_ok hopen h
  exact ofBytes_of_encode hm hencode

end StackLang.Image

/-! ## Changes of modules -/

namespace StackLang.Module

theorem checkOpen_of_open {m : Module} (h : m.written = none) : checkOpen m = .ok () m := by
  have hopen : m.isSealed = false := by simp [isSealed, h]
  rw [checkOpen, Step.bind_of_ok (Step.get_apply m), hopen]
  rfl

theorem checkOpen_of_written {m : Module} {bytes : Bytes} (h : m.written = some bytes) :
    checkOpen m = .error (.alreadySerialized m.name) m := by
  have hsealed : m.isSealed = true := by simp [isSealed, h]
  rw [checkOpen, Step.bind_of_ok (Step.get_apply m), hsealed]
  rfl

/-- a method reference is added to the pool and to nothing else -/
theorem addMethodRef_eq_ok {name descriptor : String} {m m' : Module} {n : Nat} (hopen : m.written = none)
    (h : addMethodRef name descriptor m = .ok n m') :
    ∃ p, Pool.addMethodRef m.name name descriptor m.pool = .ok n p ∧ m' = { m with pool := p } := by
  rw [addMethodRef, Step.bind_of_ok (checkOpen_of_open hopen), Step.bind_of_ok (Step.get_apply m), onPool] at h
  cases hadd : Pool.addMethodRef m.name name descriptor m.pool with
  | ok k p =>
    rw [hadd] at h
    cases h
    exact ⟨p, rfl, rfl⟩
  | error fault p =>
    rw [hadd] at h
    cases h

/-- a method is added behind the others, its code as the only attribute -/
theorem addMethod_eq_ok {name descriptor : String} {code : Bytes} {maxLocals : Int} {m m' : Module} {method : Method}
    (hopen : m.written = none) (h : addMethod name descriptor code maxLocals m = .ok method m') :
    ∃ a, Attribute.code code maxLocals = .ok a ∧
      m' = { m with methods := m.methods ++ [⟨name, descriptor, 0, [a]⟩] } := by
  rw [addMethod, Step.bind_of_ok (checkOpen_of_open hopen)] at h
  obtain ⟨a, m₁, hcode, h⟩ := Step.bind_eq_ok.1 h
  obtain ⟨ha, rfl⟩ := Step.lift_eq_ok.1 hcode
  cases h
  exact ⟨a, ha, rfl⟩

end StackLang.Module
