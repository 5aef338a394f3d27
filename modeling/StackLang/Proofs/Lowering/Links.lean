/-
Calls in a compiled module link, and only backwards.

An instruction that calls a function comes from a call in the source (`Emitted.Definition.calls`), and a source may call
only functions defined before. So every such instruction of a method leads, through the pool, to the built-in
`println` or to a method that comes earlier in the module, under exactly its name and descriptor
(`calls_link_backwards`).
-/
import StackLang.Proofs.Lowering.Calls
import StackLang.Proofs.Lowering.Compiled
import StackLang.Proofs.Target.Decoding

namespace StackLang

/-! ## Where calls come from -/

namespace Lower

def isCall : Instr → Bool
  | .invokevirtual _ => true
  | _ => false

end Lower

namespace Emitted

variable {link : Linkage}

/-- the calls in a code are calls of these functions -/
def CallsOf (link : Linkage) (functions : List Name) (code : Code) : Prop :=
  ∀ i ∈ code, Lower.isCall i = true → ∃ f ∈ functions, ∃ s index, i = .invokevirtual index ∧ link.CallsTo f s index

theorem CallsInOrder.callsOf {functions : List Name} {code : Code} (h : CallsInOrder link functions code) :
    CallsOf link functions code := by
  intro i hi hcall
  cases i with
  | invokevirtual index =>
    obtain ⟨f, hf, s, hto⟩ := h.of_mem hi
    exact ⟨f, hf, s, index, rfl, hto⟩
  | _ => cases hcall

end Emitted

/-- a method has the calls of its definition -/
theorem Emitted.Definition.calls {link : Linkage} {t : Tree} {method : MethodImage} (h : Definition link t method) :
    ∃ code, method.code = Code.encode code ∧ CallsOf link t.calls code := by
  cases h with
  | mk _ hbody _ => exact ⟨_, rfl, hbody.callsInOrder.callsOf⟩

/-- a method has the name and the descriptor of its definition -/
theorem Emitted.Definition.signature {link : Linkage} {t : Tree} {method : MethodImage} (h : Definition link t method)
    {f : Name} {s : Signature} (ht : t.definition? = some (f, s)) :
    method.name = f.display ∧ s.descriptor = .ok method.descriptor := by
  cases h with
  | mk _ _ hdescriptor =>
    cases ht
    exact ⟨rfl, hdescriptor⟩

/-! ## Methods and definitions -/

theorem Name.eq_of_display {a b : Name} (ha : a.text.isSome = true) (hb : b.text.isSome = true)
    (h : a.display = b.display) : a = b := by
  obtain ⟨s, hs⟩ := Option.isSome_iff_exists.1 ha
  obtain ⟨s', hs'⟩ := Option.isSome_iff_exists.1 hb
  obtain ⟨a⟩ := a
  obtain ⟨b⟩ := b
  subst hs hs'
  simpa [Name.display] using h

/-- methods are named after their definitions -/
theorem Emitted.names_eq {link : Linkage} {trees : List Tree} {methods : List MethodImage}
    (h : List.Forall₂ (Definition link) trees methods) :
    methods.map (·.name) = ((trees.filterMap Tree.definition?).map (·.1)).map Name.display := by
  induction h with
  | nil => rfl
  | cons hfirst _ ih =>
    cases hfirst
    rw [List.map_cons, ih]
    rfl

namespace Compiled

variable {options : Options} {source : String} {bytes : Bytes} {trees : List Tree} {image : Image}

/-- the method with a number is that of the definition with the number -/
theorem definition_at (h : Compiled options source bytes trees image) {i : Nat} {method : MethodImage}
    (hi : image.methods[i]? = some method) :
    ∃ t, trees[i]? = some t ∧ Emitted.Definition (image.linkage trees) t method := by
  obtain ⟨hlen, hall⟩ := List.forall₂_iff_get.1 h.methods
  obtain ⟨hlt, rfl⟩ := List.getElem?_eq_some_iff.1 hi
  exact ⟨trees[i], List.getElem?_eq_getElem _, hall i (hlen ▸ hlt) hlt⟩

/-- the definition with a number has the method with the number -/
theorem method_at (h : Compiled options source bytes trees image) {i : Nat} {t : Tree} (hi : trees[i]? = some t) :
    ∃ method, image.methods[i]? = some method ∧ Emitted.Definition (image.linkage trees) t method := by
  obtain ⟨hlen, hall⟩ := List.forall₂_iff_get.1 h.methods
  obtain ⟨hlt, rfl⟩ := List.getElem?_eq_some_iff.1 hi
  exact ⟨image.methods[i], List.getElem?_eq_getElem _, hall i hlt (hlen ▸ hlt)⟩

/-- the names of the table, `println` in front -/
theorem table_names (trees : List Tree) :
    (FunctionTable.initial.afterAll trees).names =
      ("println" : Name) :: (trees.filterMap Tree.definition?).map (·.1) := by
  rw [FunctionTable.names_afterAll]
  rfl

theorem names_nodup (h : Compiled options source bytes trees image) :
    (FunctionTable.initial.afterAll trees).names.Nodup :=
  h.rules.nodup (List.nodup_singleton _)

/-- every function of the table has text for a name -/
theorem names_text (h : Compiled options source bytes trees image) :
    ∀ f ∈ (FunctionTable.initial.afterAll trees).names, f.text.isSome = true := by
  intro f hf
  rw [table_names] at hf
  rcases List.mem_cons.1 hf with rfl | hf
  · rfl
  · obtain ⟨⟨f, s⟩, hmem, rfl⟩ := List.mem_map.1 hf
    obtain ⟨t, ht, hdefinition⟩ := List.mem_filterMap.1 hmem
    have hproper := h.proper t ht
    cases t with
    | define name parameters returns body =>
      cases hdefinition
      exact hproper.1
    | _ => cases hdefinition

/-- no two methods have the same name, and none is `println` -/
theorem methods_nodup (h : Compiled options source bytes trees image) :
    ("println" :: image.methods.map (·.name)).Nodup := by
  have hdisplay : "println" :: image.methods.map (·.name) =
      (FunctionTable.initial.afterAll trees).names.map Name.display := by
    rw [Emitted.names_eq h.methods, table_names]
    rfl
  rw [hdisplay]
  refine h.names_nodup.map_on ?_
  intro a ha b hb hab
  exact Name.eq_of_display (h.names_text a ha) (h.names_text b hb) hab

/-- a function that a definition calls is `println` or that of an earlier definition -/
theorem callee_cases (h : Compiled options source bytes trees image) {i : Nat} {t : Tree} (ht : trees[i]? = some t)
    {f : Name} (hf : f ∈ t.calls) {s : Signature} (hs : (FunctionTable.initial.afterAll trees).find? f = some s) :
    f = "println" ∧ s = ⟨TypeWord.void, [⟨"value", TypeWord.int⟩]⟩ ∨
      ∃ j u, j < i ∧ trees[j]? = some u ∧ u.definition? = some (f, s) := by
  have hfind {f : Name} {s : Signature} := @FunctionTable.find?_of_mem _ h.names_nodup f s
  have hknown := (h.rules.statement ht).calls.known f hf
  rw [table_names] at hknown
  rcases List.mem_cons.1 hknown with rfl | hearlier
  · left
    have hprintln := hfind (by rw [FunctionTable.entries_afterAll]; exact List.mem_append_left _ List.mem_cons_self)
    exact ⟨rfl, (Option.some.inj (hprintln.symm.trans hs)).symm⟩
  · right
    obtain ⟨⟨g, s'⟩, hmem, rfl⟩ := List.mem_map.1 hearlier
    obtain ⟨u, hu, hdefinition⟩ := List.mem_filterMap.1 hmem
    obtain ⟨j, hj⟩ := List.mem_iff_getElem?.1 hu
    rw [List.getElem?_take] at hj
    split_ifs at hj with hlt
    refine ⟨j, u, hlt, hj, ?_⟩
    have hentry := hfind (by
      rw [FunctionTable.entries_afterAll]
      exact List.mem_append_right _ (List.mem_filterMap.2 ⟨u, List.mem_of_getElem? hj, hdefinition⟩))
    rw [hdefinition, Option.some.inj (hentry.symm.trans hs)]

end Compiled

/-- a call of a pool entry, in method number `i`: the entry names this module and, by exact name and descriptor,
`println` or a method with a number below `i`; no method from number `i` on has that name -/
structure Image.CallLinks (image : Image) (i : Nat) (index : UInt16) (callee descriptor : String) : Prop where
  reference : image.constants.reference? index.toNat = some ⟨image.thisName, callee, descriptor⟩
  target : callee = "println" ∧ descriptor = "(I)V" ∨
    ∃ j method, j < i ∧ image.methods[j]? = some method ∧ method.name = callee ∧ method.descriptor = descriptor
  backwards : ∀ k method, i ≤ k → image.methods[k]? = some method → method.name ≠ callee

/-- the calls of a method of a compiled module link -/
theorem Compiled.callLinks (h : Compiled options source bytes trees image) {i : Nat} {t : Tree}
    (ht : trees[i]? = some t) {f : Name} (hf : f ∈ t.calls) {s : Signature} {index : UInt16}
    (hto : (image.linkage trees).CallsTo f s index) :
    ∃ callee descriptor, image.CallLinks i index callee descriptor := by
  obtain ⟨hprintln, hnames⟩ := List.nodup_cons.1 h.methods_nodup
  obtain ⟨descriptor, hdescriptor, hreference⟩ := hto.reference
  rcases h.callee_cases ht hf hto.known with ⟨rfl, rfl⟩ | ⟨j, u, hj, hu, hu'⟩
  · cases hdescriptor
    refine ⟨"println", "(I)V", hreference, .inl ⟨rfl, rfl⟩, ?_⟩
    rintro k target _ hk hname
    exact hprintln (List.mem_map.2 ⟨target, List.mem_of_getElem? hk, hname⟩)
  · obtain ⟨target, htarget, hmethod⟩ := h.method_at hu
    obtain ⟨hname, hdescriptor'⟩ := hmethod.signature hu'
    have hsame : target.descriptor = descriptor := Except.ok.inj (hdescriptor'.symm.trans hdescriptor)
    refine ⟨f.display, descriptor, hreference, .inr ⟨j, target, hj, htarget, hname, hsame⟩, ?_⟩
    -- the name stands at `j` already, and only once
    intro k target' hk htarget' hname'
    have hlt : k < (image.methods.map (·.name)).length := by
      rw [List.length_map]
      exact (List.getElem?_eq_some_iff.1 htarget').1
    refine List.nodup_iff_getElem?_ne_getElem?.1 hnames j k (hj.trans_le hk) hlt ?_
    rw [List.getElem?_map, List.getElem?_map, htarget, htarget', Option.map_some, Option.map_some, hname, hname']

/-- **Calls link backwards.** In the module of a compiled source, methods have names of their own, none of them
`println`, and their code is made of instructions only. Every call in method number `i` refers to this module's
`println` or, by exact name and descriptor, to a method with a number below `i`; so no method calls itself or a later
one. -/
theorem calls_link_backwards (options : Options) (source : String) (bytes : Bytes)
    (h : compile options source = .ok bytes) :
    ∃ image, Image.ofBytes bytes = .ok image ∧ (image.methods.map (·.name)).Nodup ∧
      "println" ∉ image.methods.map (·.name) ∧
      ∀ (i : Nat) (method : MethodImage), image.methods[i]? = some method →
        (codeItems [] 0 method.code).2 = none ∧
        ∀ offset name index, (offset, CodeItem.known name (.invokevirtual index)) ∈ (codeItems [] 0 method.code).1 →
          ∃ callee descriptor, image.CallLinks i index callee descriptor := by
  obtain ⟨trees, image, hcompiled⟩ := compiled_of_ok h
  obtain ⟨hprintln, hnames⟩ := List.nodup_cons.1 hcompiled.methods_nodup
  refine ⟨image, hcompiled.decoded, hnames, hprintln, ?_⟩
  intro i method hi
  obtain ⟨t, ht, hdefinition⟩ := hcompiled.definition_at hi
  obtain ⟨code, hcode, hcalls⟩ := hdefinition.calls
  rw [hcode]
  refine ⟨codeItems_fault code, ?_⟩
  intro offset name index hmem
  obtain ⟨f, hf, s, _, heq, hto⟩ := hcalls _ (mem_of_codeItems hmem) rfl
  cases heq
  exact hcompiled.callLinks ht hf hto

/-- two functions, the second of which calls the first and `println` -/
def linkedText : String :=
  "fun f(a int) int \x7breturn a;\x7d fun g() \x7bprintln(f(3));\x7d"

/-- the module of `linkedText` has both methods, and the calls in `g` link -/
theorem linkedText_links : ∃ bytes image, compile .default linkedText = .ok bytes ∧
    Image.ofBytes bytes = .ok image ∧ image.methods.map (·.name) = ["f", "g"] ∧
    ∀ method, image.methods[1]? = some method →
      ∀ offset name index, (offset, CodeItem.known name (.invokevirtual index)) ∈ (codeItems [] 0 method.code).1 →
        ∃ callee descriptor, image.CallLinks 1 index callee descriptor := by
  have hnames : ((compile .default linkedText).toOption.bind fun bytes =>
      (Image.ofBytes bytes).toOption.map fun image => image.methods.map (·.name)) = some ["f", "g"] := by decide +kernel
  obtain ⟨bytes, hbytes, hnames⟩ := Option.bind_eq_some_iff.1 hnames
  have hcompile := Step.eq_ok_of_toOption hbytes
  obtain ⟨image, hdecoded, _, _, hlinks⟩ := calls_link_backwards .default linkedText bytes hcompile
  rw [hdecoded] at hnames
  exact ⟨bytes, image, hcompile, hdecoded, Option.some.inj hnames, fun method hmethod => (hlinks 1 method hmethod).2⟩

end StackLang
