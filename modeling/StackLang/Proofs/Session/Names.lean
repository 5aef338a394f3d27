/-
The names of a module do not count.

Class name and super name reach nothing but the pool. A source compiled under two pairs of names is lowered side by side
into renamed modules, so both compilations fail with the same fault or both succeed (`compile_renamed`); then the
methods are the same, and the pools have the same layout, in which only the entries that hold the names differ
(`Pool.Apart`): the owners of the calls, and the two names behind the calls.
-/
import StackLang.Proofs.Lowering.PoolLayout
import StackLang.Proofs.Lowering.Renamed
import StackLang.Proofs.Session.Told

namespace StackLang

open Step (Agree Twins)

variable {o o' : Options}

/-! ## Compilations side by side -/

theorem lowered_renamed (o o' : Options) (functions : FunctionTable) (trees : List Tree) :
    Twins (Module.Renamed o o') Eq (Lower.definitions functions nestingLimit trees)
      (Lower.definitions functions nestingLimit trees) :=
  (Lower.adds_definitions True.intro nestingLimit trees).twins

theorem build_renamed (ho : o.Fit) (ho' : o'.Fit) (functions : FunctionTable) (trees : List Tree) :
    Agree (fun _ _ => True) (Session.build o functions trees) (Session.build o' functions trees) := by
  rcases lowered_renamed o o' functions trees _ _ (Module.renamed_empty o o') with
    ⟨_, _, target, target', hlower, hlower', rfl, hrenamed⟩ | ⟨fault, target, target', hlower, hlower', -⟩
  · rw [Session.build_of_definitions hlower, Session.build_of_definitions hlower']
    exact (Module.toBytes_renamed ho ho' hrenamed).mapError _
  · exact .inr ⟨_, Session.build_of_lower hlower, Session.build_of_lower hlower'⟩

/-- splitting and reading do not know the names -/
theorem compile_renamed (ho : o.Fit) (ho' : o'.Fit) (source : String) :
    Agree (fun _ _ => True) (compile o source) (compile o' source) := by
  cases htokens : tokenize source with
  | error bad => exact .inr ⟨_, compile_of_scan htokens, compile_of_scan htokens⟩
  | ok tokens =>
    cases hread : Parse.statements nestingLimit [] tokens ⟨.ofTokens tokens, .initial, [], none⟩ with
    | error fault left => exact .inr ⟨_, compile_of_parse htokens hread, compile_of_parse htokens hread⟩
    | ok trees left =>
      rw [compile_of_read htokens hread, compile_of_read htokens hread]
      exact build_renamed ho ho' left.functions trees

/-! ## Methods -/

/-- a method has one image -/
theorem Image.Depicts.unique {i i' : MethodImage} {m : Method} (h : Depicts i m) (h' : Depicts i' m) : i = i' := by
  obtain ⟨a, ha, hattributes⟩ := h.code
  obtain ⟨a', ha', hattributes'⟩ := h'.code
  obtain ⟨n, hn, hlt, rfl⟩ := Image.code_eq_ok ha
  obtain ⟨n', hn', hlt', rfl⟩ := Image.code_eq_ok ha'
  have hdata := congrArg Attribute.data (List.cons.inj (hattributes.symm.trans hattributes')).1
  obtain ⟨hhead, hcode⟩ := List.append_inj hdata rfl
  have hlocals : Bytes.two n = Bytes.two n' :=
    (List.append_inj (List.append_inj hhead rfl).1 rfl).2
  have hnumber : n = n' := by rw [← Bytes.ofBE_two hlt, ← Bytes.ofBE_two hlt', hlocals]
  have hname : i.name = i'.name := h.name.trans h'.name.symm
  have hdescriptor : i.descriptor = i'.descriptor := h.descriptor.trans h'.descriptor.symm
  have hflags : i.flags = i'.flags := Int.ofNat.inj (h.flags.trans h'.flags.symm)
  have hmaxLocals : i.maxLocals = i'.maxLocals := by omega
  cases i
  cases i'
  exact MethodImage.mk.injEq .. ▸ ⟨hname, hdescriptor, hflags, hmaxLocals, hcode⟩

/-! ## Pools -/

/-- the entry holds the owner of a call: what the call refers to belongs to a class with that name -/
def Pool.IsOwner (p : Pool) (code : Code) (index : Nat) : Prop :=
  ∃ call ∈ code.callIndices, ∃ owner member, p.get? call.toNat = some (.methodRef owner member) ∧
    p.get? owner = some (.classRef index)

/-- pools for the same code under two pairs of names: apart from owners and from the two names behind the entries of the
calls, they are equal -/
structure Pool.Apart (o o' : Options) (code : Code) (p p' : Pool) : Prop where
  size : p.size = p'.size
  owners : ∀ index : Nat, p.IsOwner code index →
    p.get? index = some (.utf8 o.className) ∧ p'.get? index = some (.utf8 o'.className)
  className : p.get? (6 * code.callIndices.length + 1 : Nat) = some (.utf8 o.className) ∧
    p'.get? (6 * code.callIndices.length + 1 : Nat) = some (.utf8 o'.className)
  superName : p.get? (6 * code.callIndices.length + 2 : Nat) = some (.utf8 o.superName) ∧
    p'.get? (6 * code.callIndices.length + 2 : Nat) = some (.utf8 o'.superName)
  others : ∀ index : Nat, ¬ p.IsOwner code index → index ≠ 6 * code.callIndices.length + 1 →
    index ≠ 6 * code.callIndices.length + 2 → p.get? index = p'.get? index

section

variable {name superName name' superName' : String} {callees methods : List (String × String)} {p : Pool} {n j r : Nat}

theorem getElem?_flatMap_callEntries (owner : String) (calls : List ((String × String) × Nat)) (hr : r < 6) :
    (calls.flatMap (callEntries owner))[6 * j + r]? = calls[j]?.bind fun call => (callEntries owner call)[r]? := by
  induction calls generalizing j with
  | nil => rfl
  | cons call calls ih =>
    rw [List.flatMap_cons]
    cases j with
    | zero =>
      rw [Nat.mul_zero, Nat.zero_add, List.getElem?_append_left hr]
      rfl
    | succ j =>
      have hlength : (callEntries owner call).length = 6 := rfl
      rw [List.getElem?_append_right (by omega), hlength, show 6 * (j + 1) + r - 6 = 6 * j + r by omega, ih]
      rfl

theorem length_callEntries_zipIdx (owner : String) (callees : List (String × String)) :
    ((callees.zipIdx 1).flatMap (callEntries owner)).length = 6 * callees.length := by
  rw [length_callEntries, List.length_zipIdx]

/-- the entries of the calls stand first -/
theorem getElem?_poolEntries_call (hj : j < callees.length) (hr : r < 6) :
    (poolEntries name superName callees methods)[6 * j + r]? = (callEntries name (callees.get ⟨j, hj⟩, j + 1))[r]? := by
  have hcalls := length_callEntries_zipIdx name callees
  rw [poolEntries, List.append_assoc, List.getElem?_append_left (by omega), getElem?_flatMap_callEntries _ _ hr,
    List.getElem?_zipIdx, List.getElem?_eq_getElem hj, Nat.add_comm 1 j]
  rfl

/-- the names stand behind the entries of the calls, and the methods behind the names -/
theorem getElem?_poolEntries_behind (n : Nat) :
    (poolEntries name superName callees methods)[6 * callees.length + n]? =
      (Constant.utf8 name :: .utf8 superName :: methods.flatMap methodEntries)[n]? := by
  have hcalls := length_callEntries_zipIdx name callees
  rw [poolEntries, List.append_assoc, List.getElem?_append_right (by omega), hcalls, Nat.add_sub_cancel_left]
  rfl

/-- what is neither an owner nor one of the names does not depend on them -/
theorem getElem?_poolEntries_other (howner : ∀ j < callees.length, n ≠ 6 * j + 3) (hname : n ≠ 6 * callees.length)
    (hsuper : n ≠ 6 * callees.length + 1) :
    (poolEntries name superName callees methods)[n]? = (poolEntries name' superName' callees methods)[n]? := by
  by_cases hn : n < 6 * callees.length
  · have hj : n / 6 < callees.length := by omega
    have hr : n % 6 < 6 := by omega
    have hother : n % 6 ≠ 3 := fun h => howner (n / 6) hj (by omega)
    rw [← Nat.div_add_mod n 6, getElem?_poolEntries_call hj hr, getElem?_poolEntries_call hj hr]
    generalize n % 6 = r at hr hother
    obtain rfl | rfl | rfl | rfl | rfl : r = 0 ∨ r = 1 ∨ r = 2 ∨ r = 4 ∨ r = 5 := by omega
    all_goals rfl
  · obtain ⟨k, rfl⟩ : ∃ k, n = 6 * callees.length + (k + 2) := ⟨n - 6 * callees.length - 2, by omega⟩
    rw [getElem?_poolEntries_behind, getElem?_poolEntries_behind]
    rfl

theorem length_poolEntries_renamed :
    (poolEntries name superName callees methods).length = (poolEntries name' superName' callees methods).length := by
  simp only [poolEntries, List.length_append, length_callEntries_zipIdx, List.length_cons]

theorem Pool.get?_append_empty (entries : List Constant) (n : Nat) :
    (Pool.empty.append entries).get? (n + 1 : Nat) = entries[n]? := by
  have hindex : 1 ≤ ((n + 1 : Nat) : Int) := by omega
  have hplace : (((n + 1 : Nat) : Int) - 1).toNat = n := by omega
  rw [get?, if_pos hindex, hplace]
  simp [append, empty]

/-- the fourth entry of a call holds its owner, the fifth the class of that name, the sixth what the call refers to -/
theorem Pool.get?_poolEntries_call (hp : p = .append .empty (poolEntries name superName callees methods))
    (hj : j < callees.length) :
    p.get? (6 * j + 4 : Nat) = some (.utf8 name) ∧ p.get? (6 * j + 5 : Nat) = some (.classRef (6 * j + 4 : Nat)) ∧
      ∃ member, p.get? (6 * j + 6 : Nat) = some (.methodRef (6 * j + 5 : Nat) member) := by
  have hname : 6 * ((j + 1 : Nat) : Int) - 2 = (6 * j + 4 : Nat) := by omega
  have hclass : 6 * ((j + 1 : Nat) : Int) - 1 = (6 * j + 5 : Nat) := by omega
  refine ⟨?_, ?_, 6 * ((j + 1 : Nat) : Int) - 3, ?_⟩
  · rw [hp, get?_append_empty, getElem?_poolEntries_call hj (by decide)]
    rfl
  · rw [hp, get?_append_empty, getElem?_poolEntries_call hj (by decide), ← hname]
    rfl
  · rw [hp, get?_append_empty, getElem?_poolEntries_call hj (by decide), ← hclass]
    rfl

/-- the owners of the calls are the fourth entries -/
theorem Pool.isOwner_iff {code : Code} {index : Nat}
    (hp : p = .append .empty (poolEntries name superName callees methods))
    (hcalls : code.callIndices.map UInt16.toNat = (List.range' 1 callees.length).map (6 * ·)) :
    p.IsOwner code index ↔ ∃ j < callees.length, index = 6 * j + 4 := by
  have hnumber (j : Nat) : 6 * (1 + 1 * j) = 6 * j + 6 := by omega
  constructor
  · rintro ⟨call, hcall, owner, member, hreference, howner⟩
    have hmem : call.toNat ∈ (List.range' 1 callees.length).map (6 * ·) := hcalls ▸ List.mem_map_of_mem hcall
    obtain ⟨k, hk, hcall⟩ := List.mem_map.1 hmem
    obtain ⟨j, hj, rfl⟩ := List.mem_range'.1 hk
    obtain ⟨-, hclass, _, hmethod⟩ := get?_poolEntries_call hp hj
    rw [← hcall, hnumber, hmethod] at hreference
    cases hreference
    rw [hclass] at howner
    cases howner
    exact ⟨j, hj, rfl⟩
  · rintro ⟨j, hj, rfl⟩
    obtain ⟨-, hclass, member, hmethod⟩ := get?_poolEntries_call hp hj
    have hmem : 6 * (1 + 1 * j) ∈ code.callIndices.map UInt16.toNat :=
      hcalls ▸ List.mem_map_of_mem (List.mem_range'.2 ⟨j, hj, rfl⟩)
    obtain ⟨call, hcall, hj⟩ := List.mem_map.1 hmem
    refine ⟨call, hcall, _, member, ?_, hclass⟩
    rw [hj, hnumber]
    exact hmethod

end

/-- pools of the same layout differ in nothing but the names -/
theorem Pool.apart_poolEntries {callees methods : List (String × String)} {code : Code}
    (hcalls : code.callIndices.map UInt16.toNat = (List.range' 1 callees.length).map (6 * ·)) :
    Pool.Apart o o' code (Pool.empty.append (poolEntries o.className o.superName callees methods))
      (Pool.empty.append (poolEntries o'.className o'.superName callees methods)) := by
  have hcount : code.callIndices.length = callees.length := by
    simpa using congrArg List.length hcalls
  refine ⟨?_, ?_, ?_, ?_, ?_⟩
  · rw [size_append, size_append, length_poolEntries_renamed]
  · intro index howner
    obtain ⟨j, hj, rfl⟩ := (isOwner_iff rfl hcalls).1 howner
    exact ⟨(get?_poolEntries_call rfl hj).1, (get?_poolEntries_call rfl hj).1⟩
  · rw [hcount, get?_append_empty, get?_append_empty]
    exact ⟨getElem?_poolEntries_behind 0, getElem?_poolEntries_behind 0⟩
  · rw [hcount, get?_append_empty, get?_append_empty]
    exact ⟨getElem?_poolEntries_behind 1, getElem?_poolEntries_behind 1⟩
  · intro index howner hname hsuper
    rw [hcount] at hname hsuper
    cases index with
    | zero => rfl
    | succ n =>
      rw [get?_append_empty, get?_append_empty]
      refine getElem?_poolEntries_other ?_ (by omega) (by omega)
      rintro j hj rfl
      exact howner ((isOwner_iff rfl hcalls).2 ⟨j, hj, rfl⟩)

/-! ## Every compilation -/

/-- sources that compile under both pairs of names give the same methods, and pools of the same layout -/
theorem assembled_alike {source : String} {bytes bytes' : Bytes} {trees trees' : List Tree}
    {parts parts' : List (List Code)} {target target' : Module} {image image' : Image}
    (hcompiled : Compiled o source bytes trees image) (hassembly : Assembly o bytes trees parts target image)
    (hcompiled' : Compiled o' source bytes' trees' image') (hassembly' : Assembly o' bytes' trees' parts' target' image') :
    image.methods = image'.methods ∧
      Pool.Apart o o' (parts.map List.flatten).flatten image.constants image'.constants := by
  obtain ⟨tokens, left, htokens, hread⟩ := hcompiled.read
  obtain ⟨tokens', left', htokens', hread'⟩ := hcompiled'.read
  cases htokens.symm.trans htokens'
  cases hread.symm.trans hread'
  have hmethods : image.methods = image'.methods := by
    have hlower := Lower.definitions_eq_ok.2 ⟨parts, hassembly.lowered⟩
    have hlower' := Lower.definitions_eq_ok.2 ⟨parts', hassembly'.lowered⟩
    rcases lowered_renamed o o' (FunctionTable.initial.afterAll trees) trees _ _ (Module.renamed_empty o o') with
      ⟨_, _, m, m', hm, hm', -, hrenamed⟩ | ⟨fault, m, m', hm, -, -⟩
    · cases hlower.symm.trans hm
      cases hlower'.symm.trans hm'
      have hdepicts' := hassembly'.depicts
      rw [← hrenamed.methods] at hdepicts'
      have hunique : Relator.LeftUnique Image.Depicts := fun _ _ _ h h' => h.unique h'
      exact List.left_unique_forall₂' hunique hassembly.depicts hdepicts'
    · cases hlower.symm.trans hm
  obtain ⟨callees, hcallees, hpool, hcalls⟩ := hassembly.pool hcompiled
  obtain ⟨callees', hcallees', hpool', -⟩ := hassembly'.pool hcompiled'
  cases hcallees.symm.trans hcallees'
  refine ⟨hmethods, ?_⟩
  rw [hpool, hpool', ← hmethods]
  exact Pool.apart_poolEntries hcalls

/-- **The names of a module do not count.** Under two pairs of names that fit, a source is refused both times, with the
same fault and the same wording, or compiles both times. Then the modules read back have the same methods, and pools of
the same size, in which entries differ only where they hold the names: each side has its class name as the owner of the
calls in the code and as the name of the module, and its super name behind that. -/
theorem compile_blind_to_names (ho : o.Fit) (ho' : o'.Fit) (source : String) :
    (∃ fault d, compile o source = .error fault ∧ compile o' source = .error fault ∧ fault.diagnostic? = some d) ∨
    ∃ bytes bytes' image image' codes, compile o source = .ok bytes ∧ compile o' source = .ok bytes' ∧
      Image.ofBytes bytes = .ok image ∧ Image.ofBytes bytes' = .ok image' ∧
      image.thisName = o.className ∧ image'.thisName = o'.className ∧ image.methods = image'.methods ∧
      image.methods.mapM (fun m => Code.decode? m.code) = some codes ∧
      Pool.Apart o o' codes.flatten image.constants image'.constants := by
  rcases compile_renamed ho ho' source with ⟨bytes, bytes', hbytes, hbytes', -⟩ | ⟨fault, hfault, hfault'⟩
  · right
    obtain ⟨trees, parts, target, image, hcompiled, hassembly⟩ := assembled_of_ok hbytes
    obtain ⟨trees', parts', target', image', hcompiled', hassembly'⟩ := assembled_of_ok hbytes'
    obtain ⟨hmethods, hapart⟩ := assembled_alike hcompiled hassembly hcompiled' hassembly'
    exact ⟨bytes, bytes', image, image', _, hbytes, hbytes', hcompiled.decoded, hcompiled'.decoded, hcompiled.owner,
      hcompiled'.owner, hmethods, hassembly.methods.mapM_decode?, hapart⟩
  · obtain ⟨d, hd, -⟩ := isTold_of_compile hfault
    exact .inl ⟨fault, d, hfault, hfault', hd⟩

/-- names that functions of the source have too -/
def sharedNames : Options :=
  ⟨"f", "g"⟩

def callText : String :=
  "fun f()\x7b\x7dfun g()\x7bf();\x7d"

theorem callText_renamed : sharedNames.Fit ∧ Options.default.Fit ∧
    ∃ bytes bytes' image image', compile sharedNames callText = .ok bytes ∧ compile .default callText = .ok bytes' ∧
      Image.ofBytes bytes = .ok image ∧ Image.ofBytes bytes' = .ok image' ∧ image.methods = image'.methods ∧
      image.constants.size = image'.constants.size ∧ image.constants.get? 1 = image'.constants.get? 1 ∧
      image.constants.get? 4 = some (.utf8 "f") ∧ image'.constants.get? 4 = some (.utf8 "Main") ∧
      image.constants.get? 8 = some (.utf8 "g") ∧ image'.constants.get? 8 = some (.utf8 "base/Object") := by
  have hshared : sharedNames.Fit := ⟨by decide +kernel, by decide +kernel⟩
  have hdefault : Options.default.Fit := ⟨by decide +kernel, by decide +kernel⟩
  refine ⟨hshared, hdefault, ?_⟩
  have hcall : ((compile sharedNames callText).toOption.bind fun bytes =>
      (Image.ofBytes bytes).toOption.bind fun image =>
        (image.methods.mapM fun m => Code.decode? m.code).map fun codes =>
          (Code.callIndices codes.flatten, image.constants.get? 6, image.constants.get? 5)) =
      some ([6], some (.methodRef 5 3), some (.classRef 4)) := by decide +kernel
  rcases compile_blind_to_names hshared hdefault callText with
    ⟨fault, d, hfault, -⟩ |
    ⟨bytes, bytes', image, image', codes, hcompile, hcompile', hdecoded, hdecoded', -, -, hmethods, hcodes, hapart⟩
  · rw [hfault] at hcall
    cases hcall
  · simp only [hcompile, hdecoded, hcodes, Except.toOption, Option.bind_some, Option.map_some, Option.some.injEq,
      Prod.mk.injEq] at hcall
    obtain ⟨hcalls, hreference, hclass⟩ := hcall
    have howner : image.constants.IsOwner codes.flatten 4 :=
      ⟨6, by rw [hcalls]; exact List.mem_singleton.2 rfl, 5, 3, hreference, hclass⟩
    have hname : ¬ image.constants.IsOwner codes.flatten 1 := by
      rintro ⟨call, hmem, owner, member, hreference', hclass'⟩
      rw [hcalls, List.mem_singleton] at hmem
      subst hmem
      cases hreference.symm.trans hreference'
      cases hclass.symm.trans hclass'
    have hcount : (Code.callIndices codes.flatten).length = 1 := by rw [hcalls]; rfl
    have hsuper := hapart.superName
    have hother := hapart.others 1 hname (by rw [hcount]; decide) (by rw [hcount]; decide)
    rw [hcount] at hsuper
    exact ⟨bytes, bytes', image, image', hcompile, hcompile', hdecoded, hdecoded', hmethods, hapart.size, hother,
      (hapart.owners 4 howner).1, (hapart.owners 4 howner).2, hsuper.1, hsuper.2⟩

end StackLang
