/-
Compiled modules are listed.

The pool of a compiled module is linked, so each of its entries can be described; the code of its methods is cut into
the instructions that lowering gave, and each call leads to the name of the function called. So a compiled module has a
listing, and its lines are known from the code of the program (`compile_is_listed`).
-/
import StackLang.Proofs.Lowering.PoolLayout
import StackLang.Proofs.Target.Linked

namespace StackLang

/-! ## Lines -/

/-- an instruction as listings show it; a call is followed by the name of its function -/
def Instr.listed (i : Instr) (callee : String) : String :=
  match i with
  | .iload slot | .istore slot => s!"{i.mnemonic} {slot}"
  | .invokevirtual index => s!"{i.mnemonic} #{index} // {callee}"
  | _ => i.mnemonic

/-- the lines of a code from an offset on: each instruction at the place where its bytes start. The names of the
functions called are given in order. -/
def Code.listed (offset : Nat) (callees : List String) : Code → List String
  | [] => []
  | i :: code =>
    (Text.hexPadded 4 offset ++ ": " ++ i.listed (callees.headD "")) ::
      Code.listed (offset + i.encode.length) (if i.callIndex?.isSome then callees.tail else callees) code

example : Code.listed 0 ["f"] [.iconst 4, .invokevirtual 6, .istore 9] =
    ["0000: iconst_3", "0001: invokevirtual #6 // f", "0004: istore 9"] := by decide

/-- the lines of a method: a header, and one line for each instruction -/
def MethodImage.listed (m : MethodImage) (code : Code) (callees : List String) : List String :=
  s!"Method {m.name} {m.descriptor} (max_locals={m.maxLocals}, {m.code.length} bytes):" ::
    (code.listed 0 callees).map ("  " ++ ·)

/-- the lines of the entries of a pool, each with its number -/
def constantLines (texts : List String) : List String :=
  (texts.zipIdx 1).map fun (text, i) => s!"  #{i}: {text}"

/-- the line of a byte that announces no instruction -/
def unknownLine (offset : Nat) (b : UInt8) : String :=
  "  " ++ (Text.hexPadded 4 offset ++ ": unknown 0x" ++ Text.hexPadded 2 b.toNat)

theorem Code.length_listed (code : Code) (offset : Nat) (callees : List String) :
    (code.listed offset callees).length = code.length := by
  induction code generalizing offset callees with
  | nil => rfl
  | cons i code ih => rw [Code.listed, List.length_cons, List.length_cons, ih]

namespace Pool

variable {p : Pool}

/-- the line of an instruction shows it behind its offset -/
theorem codeLine_known {i : Instr} (callee : String)
    (h : ∀ index, i.callIndex? = some index → p.callee index.toNat = .ok callee) (offset : Nat) :
    p.codeLine offset (.known i.mnemonic i) = .ok (Text.hexPadded 4 offset ++ ": " ++ i.listed callee) := by
  have htext (s : String) : toString s = s := rfl
  cases i with
  | invokevirtual index => simp [codeLine, Instr.listed, h index rfl, htext, String.append_assoc]
  | iload slot => simp [codeLine, Instr.listed, htext, String.append_assoc]
  | istore slot => simp [codeLine, Instr.listed, htext, String.append_assoc]
  | _ => rfl

/-- the calls of a code lead to functions of these names, in order -/
def Callees (p : Pool) (callees : List String) (code : Code) : Prop :=
  List.Forall₂ (fun callee index => p.callee (index : UInt16).toNat = .ok callee) callees code.callIndices

theorem Callees.cons_none {i : Instr} {code : Code} {callees : List String} (hi : i.callIndex? = none)
    (h : p.Callees callees (i :: code)) : p.Callees callees code := by
  unfold Callees Code.callIndices at h
  rwa [List.filterMap_cons_none hi] at h

theorem Callees.cons_some {i : Instr} {code : Code} {callees : List String} {index : UInt16}
    (hi : i.callIndex? = some index) (h : p.Callees callees (i :: code)) :
    ∃ callee rest, callees = callee :: rest ∧ p.callee index.toNat = .ok callee ∧ p.Callees rest code := by
  unfold Callees Code.callIndices at h
  rw [List.filterMap_cons_some hi] at h
  cases h with
  | @cons callee _ rest _ hcallee hrest => exact ⟨callee, rest, rfl, hcallee, hrest⟩

theorem codeLine_items {code : Code} {callees : List String} (h : p.Callees callees code) (offset : Nat) :
    List.Forall₂ (fun item line => p.codeLine item.1 item.2 = .ok line) (code.items offset)
      (code.listed offset callees) := by
  induction code generalizing callees offset with
  | nil => exact .nil
  | cons i code ih =>
    rw [Code.items, Code.listed]
    cases hi : i.callIndex? with
    | none => exact .cons (codeLine_known _ (by simp [hi]) offset) (ih (h.cons_none hi) _)
    | some index =>
      obtain ⟨callee, rest, rfl, hcallee, hrest⟩ := h.cons_some hi
      exact .cons (codeLine_known _ (by simp [hi, hcallee]) offset) (ih hrest _)

/-- the lines of a code are those of its instructions -/
theorem codeLines_encode {code : Code} {callees : List String} (h : p.Callees callees code) :
    p.codeLines code.encode = .ok (code.listed 0 callees) := by
  rw [codeLines, codeItems_encode, List.reverse_nil, List.nil_append, Step.check_bind_eq_ok]
  exact ⟨code.listed 0 callees, mapM_eq_ok.2 (codeLine_items h 0), rfl⟩

end Pool

/-! ## No unknown bytes -/

theorem mem_toDigits {n : Nat} {c : Char} (h : c ∈ Nat.toDigits 16 n) : ∃ k < 16, c = Nat.digitChar k := by
  induction n using Nat.strong_induction_on with
  | _ n ih =>
    rcases Nat.lt_or_ge n 16 with hlt | hge
    · rw [Nat.toDigits_of_lt_base hlt] at h
      exact ⟨n, hlt, List.mem_singleton.1 h⟩
    · rw [Nat.toDigits_of_base_le (by decide) hge] at h
      rcases List.mem_append.1 h with hrest | hlast
      · exact ih (n / 16) (Nat.div_lt_self (by omega) (by decide)) hrest
      · exact ⟨n % 16, Nat.mod_lt _ (by decide), List.mem_singleton.1 hlast⟩

/-- an offset is written with hexadecimal digits only -/
theorem ne_of_mem_hexPadded {width n : Nat} {c : Char} (h : c ∈ (Text.hexPadded width n).toList) : c ≠ ':' ∧ c ≠ '#' := by
  have hdigit : ∀ k < 16, Nat.digitChar k ≠ ':' ∧ Nat.digitChar k ≠ '#' := by decide
  rw [Text.hexPadded, String.toList_ofList] at h
  rcases List.mem_append.1 h with hzero | hmem
  · rw [List.eq_of_mem_replicate hzero]
    decide
  · obtain ⟨k, hk, rfl⟩ := mem_toDigits hmem
    exact hdigit k hk

/-- two lines with offsets in front go on alike behind them -/
theorem eq_of_hexPadded_append {width n n' : Nat} {rest rest' : List Char}
    (h : (Text.hexPadded width n).toList ++ ':' :: rest = (Text.hexPadded width n').toList ++ ':' :: rest') :
    rest = rest' := by
  have hdrop (n : Nat) (rest : List Char) :
      ((Text.hexPadded width n).toList ++ ':' :: rest).dropWhile (· ≠ ':') = ':' :: rest := by
    rw [List.dropWhile_append_of_pos (by simpa using fun c hc => (ne_of_mem_hexPadded hc).1)]
    simp
  have heq := congrArg (List.dropWhile (· ≠ ':')) h
  rw [hdrop, hdrop] at heq
  exact (List.cons.inj heq).2

theorem unknownLine_toList (offset : Nat) (b : UInt8) : ∃ rest,
    (unknownLine offset b).toList = ' ' :: ' ' :: ((Text.hexPadded 4 offset).toList ++ ':' :: ' ' :: 'u' :: rest) :=
  ⟨_, by simp [unknownLine]; rfl⟩

theorem Instr.listed_toList (i : Instr) (callee : String) : ∃ rest, (i.listed callee).toList = 'i' :: rest := by
  cases i with
  | iconst v =>
    match v with
    | 0 | 1 | 2 | 3 | 4 | 5 | 6 => exact ⟨_, by simp [listed, mnemonic]; rfl⟩
  | _ => exact ⟨_, by simp [listed, mnemonic]; rfl⟩

theorem Instr.line_toList (i : Instr) (callee : String) (offset : Nat) : ∃ rest,
    ("  " ++ (Text.hexPadded 4 offset ++ ": " ++ i.listed callee)).toList =
      ' ' :: ' ' :: ((Text.hexPadded 4 offset).toList ++ ':' :: ' ' :: 'i' :: rest) := by
  obtain ⟨rest, hrest⟩ := i.listed_toList callee
  exact ⟨rest, by simp [hrest]⟩

/-- a line that shows no unknown byte -/
def KnownLine (line : String) : Prop :=
  ∀ offset b, line ≠ unknownLine offset b

theorem knownLine_of_head {line : String} {c : Char} {rest : List Char} (h : line.toList = c :: rest) (hc : c ≠ ' ') :
    KnownLine line := by
  rintro offset b rfl
  obtain ⟨more, hline⟩ := unknownLine_toList offset b
  exact hc (List.cons.inj (h.symm.trans hline)).1

theorem knownLine_constant (text : String) (i : Nat) : KnownLine s!"  #{i}: {text}" := by
  intro offset b heq
  obtain ⟨rest, hline⟩ := unknownLine_toList offset b
  have hchars : ∃ more, (s!"  #{i}: {text}" : String).toList = ' ' :: ' ' :: '#' :: more := ⟨_, by simp; rfl⟩
  obtain ⟨more, hmore⟩ := hchars
  rw [heq, hline] at hmore
  have hplace := (List.cons.inj (List.cons.inj hmore).2).2
  cases hdigits : (Text.hexPadded 4 offset).toList with
  | nil =>
    rw [hdigits] at hplace
    exact absurd (List.cons.inj hplace).1 (by decide)
  | cons c cs =>
    have hc := ne_of_mem_hexPadded (hdigits ▸ List.mem_cons_self : c ∈ (Text.hexPadded 4 offset).toList)
    rw [hdigits] at hplace
    exact hc.2 (List.cons.inj hplace).1

theorem knownLine_listed (code : Code) (offset : Nat) (callees : List String) :
    ∀ line ∈ code.listed offset callees, KnownLine ("  " ++ line) := by
  induction code generalizing offset callees with
  | nil => simp [Code.listed]
  | cons i code ih =>
    rw [Code.listed]
    refine List.forall_mem_cons.2 ⟨?_, ih _ _⟩
    intro offset' b heq
    obtain ⟨rest, hrest⟩ := i.line_toList (callees.headD "") offset
    obtain ⟨more, hmore⟩ := unknownLine_toList offset' b
    rw [heq, hmore] at hrest
    -- behind the offset one line goes on with `u`, the other with `i`
    have hbehind := eq_of_hexPadded_append (List.cons.inj (List.cons.inj hrest).2).2
    exact absurd (List.cons.inj (List.cons.inj hbehind).2).1 (by decide)

theorem knownLine_method (m : MethodImage) (code : Code) (callees : List String) :
    ∀ line ∈ m.listed code callees, KnownLine line := by
  refine List.forall_mem_cons.2 ⟨knownLine_of_head (c := 'M') (by simp; rfl) (by decide), ?_⟩
  intro line hline
  obtain ⟨text, htext, rfl⟩ := List.mem_map.1 hline
  exact knownLine_listed code 0 callees text htext

theorem knownLine_constantLines (texts : List String) : ∀ line ∈ constantLines texts, KnownLine line := by
  intro line hline
  obtain ⟨⟨text, i⟩, _, rfl⟩ := List.mem_map.1 hline
  exact knownLine_constant text i

/-! ## Methods -/

namespace Emitted

variable {link : Linkage} {trees : List Tree} {parts : List (List Code)} {methods : List MethodImage}

/-- calls lead to the names of the functions called -/
theorem CallsInOrder.callees {functions : List Name} {code : Code} (h : CallsInOrder link functions code) :
    link.pool.Callees (functions.map Name.display) code := by
  refine List.forall₂_map_left_iff.2 (List.Forall₂.imp ?_ h)
  rintro f index ⟨s, hto⟩
  obtain ⟨descriptor, _, hreference⟩ := hto.reference
  exact Pool.callee_of_reference? hreference

theorem Assembled.methodLines {t : Tree} {pieces : List Code} {method : MethodImage}
    (h : Assembled link t pieces method) :
    Image.methodLines link.pool method = .ok (method.listed pieces.flatten (t.calls.map Name.display)) := by
  cases h with
  | mk _ hstatements _ =>
    have hlines := Pool.codeLines_encode hstatements.body.callsInOrder.callees
    simp only [Image.methodLines, hlines]
    rfl

/-- every method has its block of lines -/
theorem Program.blocks (h : Program link trees parts methods) : ∃ blocks,
    List.Forall₂ (fun m block => Image.methodLines link.pool m = .ok block) methods blocks ∧
    (∀ line ∈ blocks.flatten, KnownLine line) ∧
    ∀ (i : Nat) (t : Tree) (pieces : List Code) (method : MethodImage), trees[i]? = some t → parts[i]? = some pieces →
      methods[i]? = some method → blocks[i]? = some (method.listed pieces.flatten (t.calls.map Name.display)) := by
  induction h with
  | nil => exact ⟨[], .nil, by simp, fun i t _ _ ht => by cases ht⟩
  | cons hfirst _ ih =>
    obtain ⟨blocks, hblocks, hknown, hat⟩ := ih
    refine ⟨_ :: blocks, .cons hfirst.methodLines hblocks, ?_, fun i t pieces method ht hpieces hmethod => ?_⟩
    · rw [List.flatten_cons]
      exact List.forall_mem_append.2 ⟨knownLine_method _ _ _, hknown⟩
    cases i with
    | zero =>
      cases ht
      cases hpieces
      cases hmethod
      rfl
    | succ i => exact hat i t pieces method ht hpieces hmethod

end Emitted

/-! ## Modules -/

theorem Pool.Linked.append_calls {p : Pool} (h : p.Linked) {j : Nat} (hj : p.size = 6 * j) (owner : String)
    (callees : List (String × String)) :
    (p.append ((callees.zipIdx (j + 1)).flatMap (callEntries owner))).Linked := by
  induction callees generalizing p j with
  | nil => simpa using h
  | cons callee callees ih =>
    obtain ⟨name, descriptor⟩ := callee
    have hfirst := h.append_reference owner name descriptor
    rw [referenceEntries_eq hj] at hfirst
    rw [List.zipIdx_cons, List.flatMap_cons, ← append_append]
    refine ih hfirst ?_
    rw [size_append, hj]
    simp only [callEntries, List.length_cons, List.length_nil]
    omega

/-- the pool of a module is linked -/
theorem linked_poolEntries (name superName : String) (callees methods : List (String × String)) :
    (Pool.empty.append (poolEntries name superName callees methods)).Linked := by
  have hcalls := Pool.Linked.empty.append_calls (j := 0) rfl name callees
  unfold poolEntries
  rw [List.append_assoc, ← Pool.append_append]
  refine hcalls.append_texts ?_
  intro c hc
  rcases List.mem_append.1 hc with hnames | hmethods
  · rcases List.mem_pair.1 hnames with rfl | rfl <;> exact ⟨_, rfl⟩
  · obtain ⟨⟨name, descriptor⟩, _, hentry⟩ := List.mem_flatMap.1 hmethods
    simp only [methodEntries, List.mem_cons, List.not_mem_nil, or_false] at hentry
    rcases hentry with rfl | rfl | rfl <;> exact ⟨_, rfl⟩

/-- all entries of a linked pool are described -/
theorem Pool.Linked.described {p : Pool} (h : p.Linked) :
    ∃ texts, p.entries.toList.mapM p.describe = .ok texts ∧ texts.length = p.size := by
  have hall : ∃ texts, List.Forall₂ (fun c s => p.describe c = .ok s) p.entries.toList texts := by
    have hresolved := h.resolved
    generalize p.entries.toList = cs at hresolved
    induction cs with
    | nil => exact ⟨[], .nil⟩
    | cons c cs ih =>
      obtain ⟨hc, hcs⟩ := List.forall_mem_cons.1 hresolved
      obtain ⟨s, hs⟩ := describe_of_resolved hc
      obtain ⟨texts, htexts⟩ := ih hcs
      exact ⟨s :: texts, .cons hs htexts⟩
  obtain ⟨texts, htexts⟩ := hall
  exact ⟨texts, mapM_eq_ok.2 htexts, htexts.length_eq.symm⟩

/-- the listing of a module: two headers, one line for each entry of the pool, and for each method one header and one
line for each instruction that lowering gave for its definition, at the offset where the instruction starts, with its
name and operand; no line shows an unknown byte -/
structure ModuleListing (image : Image) (trees : List Tree) (parts : List (List Code)) (texts : List String)
    (blocks : List (List String)) (lines : List String) : Prop where
  lines_eq : lines = s!"Module: {image.thisName} extends {image.superName}" ::
    s!"Constant Pool ({image.constants.size} items):" :: constantLines texts ++ blocks.flatten
  described : image.constants.entries.toList.mapM image.constants.describe = .ok texts
  constants_length : (constantLines texts).length = image.constants.size
  blocks_length : blocks.length = image.methods.length
  block : ∀ (i : Nat) (t : Tree) (pieces : List Code) (method : MethodImage), trees[i]? = some t →
    parts[i]? = some pieces → image.methods[i]? = some method →
      blocks[i]? = some (method.listed pieces.flatten (t.calls.map Name.display)) ∧
      (method.listed pieces.flatten (t.calls.map Name.display)).length = pieces.flatten.length + 1
  known : ∀ line ∈ lines, KnownLine line

theorem Emitted.Program.lengths {link : Linkage} {trees : List Tree} {parts : List (List Code)}
    {methods : List MethodImage} (h : Program link trees parts methods) :
    trees.length = methods.length ∧ parts.length = methods.length := by
  induction h with
  | nil => exact ⟨rfl, rfl⟩
  | cons _ _ ih =>
    simp only [List.length_cons]
    omega

/-- **What is compiled is listed.** A source that compiles was read and lowered, its bytes have a listing, and the
lines of the listing are those of the code that lowering gave. -/
theorem compile_is_listed (options : Options) (source : String) (bytes : Bytes)
    (h : compile options source = .ok bytes) :
    ∃ tokens trees s parts target image texts blocks lines, tokenize source = .ok tokens ∧
      Parse.statements nestingLimit [] tokens ⟨.ofTokens tokens, .initial, [], none⟩ = .ok trees s ∧
      Lower.programPieces s.functions nestingLimit trees (.empty options.className options.superName) =
        .ok parts target ∧
      Image.ofBytes bytes = .ok image ∧ trees.length = image.methods.length ∧ parts.length = image.methods.length ∧
      listing bytes = .ok lines ∧ ModuleListing image trees parts texts blocks lines := by
  obtain ⟨trees, parts, target, image, hcompiled, hassembly⟩ := assembled_of_ok h
  obtain ⟨tokens, s, htokens, hread, hfunctions⟩ := hcompiled.reading
  obtain ⟨callees, _, hpool, _⟩ := hassembly.pool hcompiled
  have hlinked : image.constants.Linked := hpool ▸ linked_poolEntries _ _ _ _
  obtain ⟨texts, htexts, hlength⟩ := hlinked.described
  obtain ⟨blocks, hblocks, hknown, hat⟩ := hassembly.methods.blocks
  obtain ⟨htrees, hparts⟩ := hassembly.methods.lengths
  have hmethods : image.methods.mapM (Image.methodLines image.constants) = .ok blocks := mapM_eq_ok.2 hblocks
  have hlines : image.lines = .ok (s!"Module: {image.thisName} extends {image.superName}" ::
      s!"Constant Pool ({image.constants.size} items):" :: constantLines texts ++ blocks.flatten) := by
    rw [Image.lines, htexts]
    simp only [bind, Except.bind, hmethods]
    rfl
  refine ⟨tokens, trees, s, parts, target, image, texts, blocks, _, htokens, hread, ?_, hcompiled.decoded, htrees, hparts,
    ?_, rfl, htexts, ?_, hblocks.length_eq.symm, ?_, ?_⟩
  · rw [hfunctions]
    exact hassembly.lowered
  · rw [listing, hcompiled.decoded]
    exact hlines
  · rw [constantLines, List.length_map, List.length_zipIdx, hlength]
  · intro i t pieces method ht hpieces hmethod
    refine ⟨hat i t pieces method ht hpieces hmethod, ?_⟩
    rw [MethodImage.listed, List.length_cons, List.length_map, Code.length_listed]
  · refine List.forall_mem_cons.2 ⟨knownLine_of_head (c := 'M') (by simp; rfl) (by decide), ?_⟩
    refine List.forall_mem_cons.2 ⟨knownLine_of_head (c := 'C') (by simp; rfl) (by decide), ?_⟩
    exact List.forall_mem_append.2 ⟨knownLine_constantLines texts, hknown⟩

/-- two functions, one of which calls the other and `println` -/
def listedText : String :=
  "fun f(a int) int \x7breturn a+1;\x7d fun g() \x7bprintln(f(3));\x7d"

/-- the module of `listedText` has a listing -/
theorem listedText_is_listed : ∃ bytes image trees parts texts blocks lines, compile .default listedText = .ok bytes ∧
    Image.ofBytes bytes = .ok image ∧
    image.methods.map (fun m => (m.name, m.maxLocals, m.code)) =
      [("f", 1, [0x1A, 0x04, 0x60, 0xAC]), ("g", 0, [0x06, 0xB6, 0, 6, 0xB6, 0, 12])] ∧
    listing bytes = .ok lines ∧ ModuleListing image trees parts texts blocks lines := by
  have hmethods : ((compile .default listedText).toOption.bind fun bytes =>
      (Image.ofBytes bytes).toOption.map fun image => image.methods.map fun m => (m.name, m.maxLocals, m.code)) =
        some [("f", 1, [0x1A, 0x04, 0x60, 0xAC]), ("g", 0, [0x06, 0xB6, 0, 6, 0xB6, 0, 12])] := by decide +kernel
  obtain ⟨bytes, hbytes, hmethods⟩ := Option.bind_eq_some_iff.1 hmethods
  have hcompile := Step.eq_ok_of_toOption hbytes
  obtain ⟨_, trees, _, parts, _, image, texts, blocks, lines, _, _, _, hdecoded, _, _, hlisting, hlisted⟩ :=
    compile_is_listed .default listedText bytes hcompile
  rw [hdecoded] at hmethods
  exact ⟨bytes, image, trees, parts, texts, blocks, lines, hcompile, hdecoded, Option.some.inj hmethods, hlisting,
    hlisted⟩

end StackLang
