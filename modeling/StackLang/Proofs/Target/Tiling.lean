/-
How the lines of a listing cover a code.

What stands at a place of a code is an instruction with its operands, or a byte that announces none
(`CodeItem.Announced`). The rows of a listing show such items one after the other, from the start of the code to its end
(`Pool.Lists`). Listing fails where the walk meets an instruction that is cut short, or a call that leads to no name
(`Pool.Stops`). Every code is of one of these two sorts and none is of both, and code in front of other code only shifts
the rows behind it (`code_lines_tile`).
-/
import StackLang.Proofs.Target.Decoding
import StackLang.Proofs.Target.PrefixFree

namespace StackLang

/-! ## What stands at a place -/

/-- an instruction is built from all of its operand bytes -/
theorem Opcode.encode_build {b : UInt8} {op : Opcode} (h : ofByte? b = some op) {operands : Bytes}
    (hwidth : operands.length = op.width) : (op.build operands).encode = b :: operands := by
  have hbyte {n : Nat} (hn : b.toNat = n) : b = UInt8.ofNat n := by
    rw [← hn, UInt8.ofNat_toNat]
  unfold ofByte? at h
  split at h
  all_goals cases h
  all_goals
    rename_i hn
    rw [hbyte hn]
  -- the two instructions that name a local, the call, and all others, which have no operands
  case h_8 | h_13 =>
    obtain ⟨x, rfl⟩ := List.length_eq_one_iff.1 hwidth
    rfl
  case h_24 =>
    obtain ⟨hlt, htwo⟩ := Bytes.length_two_iff.1 ⟨hwidth, rfl⟩
    have hindex : (UInt16.ofNat (Bytes.ofBE operands)).toNat = Bytes.ofBE operands := Nat.mod_eq_of_lt hlt
    have hoperands : Bytes.two (UInt16.ofNat (Bytes.ofBE operands)).toNat = operands := by
      rw [hindex]
      exact htwo.symm
    exact congrArg (0xB6 :: ·) hoperands
  all_goals
    rw [List.length_eq_zero_iff.1 hwidth]
    rfl

namespace CodeItem

def bytes : CodeItem → Bytes
  | .known _ instr => instr.encode
  | .unknown b => [b]

/-- an item as its first byte announces it: an instruction under its name and with as many operand bytes as it has to
have, or a single byte that announces no instruction -/
def Announced : CodeItem → Prop
  | .known name instr =>
    ∃ op, Opcode.ofByte? instr.opcode = some op ∧ op.name = name ∧ instr.operands.length = op.width
  | .unknown b => Opcode.ofByte? b = none

theorem length_bytes_pos (item : CodeItem) : 0 < item.bytes.length := by
  cases item with
  | known name instr => exact Nat.succ_pos _
  | unknown b => exact Nat.succ_pos _

/-- the instruction that a byte announces, with its operands -/
theorem announced_build {b : UInt8} {op : Opcode} (h : Opcode.ofByte? b = some op) {operands : Bytes}
    (hwidth : operands.length = op.width) :
    (known op.name (op.build operands)).Announced ∧ (known op.name (op.build operands)).bytes = b :: operands := by
  have hbytes := Opcode.encode_build h hwidth
  obtain ⟨hopcode, hoperands⟩ := List.cons.inj hbytes
  refine ⟨⟨op, ?_, rfl, ?_⟩, hbytes⟩
  · rw [hopcode]
    exact h
  · rw [hoperands]
    exact hwidth

end CodeItem

/-- a code that starts with an instruction and ends before the operands of that instruction do -/
def CutShort (code : Bytes) : Prop :=
  ∃ b op rest, code = b :: rest ∧ Opcode.ofByte? b = some op ∧ rest.length < op.width

/-- a code that is not empty starts with an item, or with an instruction that is cut short -/
theorem cutShort_or_exists_item (b : UInt8) (rest : Bytes) :
    CutShort (b :: rest) ∨ ∃ (item : CodeItem) (code : Bytes), item.Announced ∧ b :: rest = item.bytes ++ code := by
  cases hop : Opcode.ofByte? b with
  | none => exact .inr ⟨.unknown b, rest, hop, rfl⟩
  | some op =>
    by_cases hwidth : op.width ≤ rest.length
    · have hlength : (rest.take op.width).length = op.width := by rw [List.length_take, Nat.min_eq_left hwidth]
      obtain ⟨hannounced, hbytes⟩ := CodeItem.announced_build hop hlength
      refine .inr ⟨_, rest.drop op.width, hannounced, ?_⟩
      rw [hbytes, List.cons_append, List.take_append_drop]
    · exact .inl ⟨b, op, rest, rfl, hop, Nat.lt_of_not_le hwidth⟩

/-- a property of codes follows the walk: it holds where the walk ends, and of an item in front of code that has it -/
theorem walk_induction {motive : Bytes → Prop} (nil : motive []) (cutShort : ∀ code, CutShort code → motive code)
    (item : ∀ (item : CodeItem) (code : Bytes), item.Announced → motive code → motive (item.bytes ++ code))
    (code : Bytes) : motive code := by
  induction hlength : code.length using Nat.strong_induction_on generalizing code with
  | _ length ih =>
    cases code with
    | nil => exact nil
    | cons b rest =>
      rcases cutShort_or_exists_item b rest with hcut | ⟨first, code, hfirst, heq⟩
      · exact cutShort _ hcut
      · have hpos := first.length_bytes_pos
        rw [heq] at hlength ⊢
        rw [List.length_append] at hlength
        exact item first code hfirst (ih code.length (by omega) code rfl)

/-! ## Cutting code into items -/

/-- an item in front of any code is the next one that is found -/
theorem codeItems_announced {item : CodeItem} (h : item.Announced) (rest : Bytes) (found : List (Nat × CodeItem))
    (offset : Nat) :
    codeItems found offset (item.bytes ++ rest) =
      codeItems ((offset, item) :: found) (offset + item.bytes.length) rest := by
  cases item with
  | unknown b =>
    have hnone : Opcode.ofByte? b = none := h
    rw [CodeItem.bytes, List.singleton_append, codeItems, hnone]
    rfl
  | known name instr =>
    obtain ⟨op, hop, rfl, -⟩ := h
    rw [Opcode.name_of_opcode hop]
    exact codeItems_cons instr rest found offset

theorem codeItems_cutShort {code : Bytes} (h : CutShort code) :
    ∃ name, ∀ found offset, codeItems found offset code = (found.reverse, some (.instrTruncated name offset)) := by
  obtain ⟨b, op, rest, rfl, hop, hshort⟩ := h
  have hlength : (rest.take op.width).length ≠ op.width := by
    rw [List.length_take]
    omega
  refine ⟨op.name, fun found offset => ?_⟩
  rw [codeItems, hop]
  dsimp only
  rw [if_neg hlength]

/-- the items found before stand in front of those still found -/
theorem codeItems_found (code : Bytes) (found : List (Nat × CodeItem)) (offset : Nat) :
    codeItems found offset code =
      (found.reverse ++ (codeItems [] offset code).1, (codeItems [] offset code).2) := by
  induction code using walk_induction generalizing found offset with
  | nil => simp [codeItems]
  | cutShort code h =>
    obtain ⟨name, hcut⟩ := codeItems_cutShort h
    simp [hcut]
  | item item code h ih =>
    rw [codeItems_announced h, codeItems_announced h, ih, ih [(offset, item)]]
    simp

/-! ## Rows -/

/-- a row of a listing: where what it shows stands, what that is, and how it is shown -/
structure CodeRow where
  offset : Nat
  item : CodeItem
  text : String

namespace CodeRow

/-- the line of a row: its offset in four digits or more, and how the item there is shown -/
def line (row : CodeRow) : String :=
  Text.hexPadded 4 row.offset ++ ": " ++ row.text

/-- the same row behind that many bytes of other code -/
def shift (count : Nat) (row : CodeRow) : CodeRow :=
  { row with offset := count + row.offset }

end CodeRow

namespace Pool

variable {p : Pool} {item : CodeItem} {text : String} {code more : Bytes} {rows rows' : List CodeRow} {offset : Nat}

/-- a pool entry that leads, through a method reference and a name with a descriptor, to a name -/
def LeadsTo (p : Pool) (index : Int) (name : String) : Prop :=
  ∃ owner member nameIndex descriptor, p.get? index = some (.methodRef owner member) ∧
    p.get? member = some (.nameAndType nameIndex descriptor) ∧ p.get? nameIndex = some (.utf8 name)

/-- how an item is shown: an instruction by its name and operand, a call also by the name that its operand leads to,
any other byte by its two digits -/
inductive Shows (p : Pool) : CodeItem → String → Prop
  | unknown (b : UInt8) : Shows p (.unknown b) ("unknown 0x" ++ Text.hexPadded 2 b.toNat)
  | load (name : String) (slot : UInt8) : Shows p (.known name (.iload slot)) s!"{name} {slot}"
  | store (name : String) (slot : UInt8) : Shows p (.known name (.istore slot)) s!"{name} {slot}"
  | call (name : String) {index : UInt16} {callee : String} :
      p.LeadsTo index.toNat callee → Shows p (.known name (.invokevirtual index)) s!"{name} #{index} // {callee}"
  | plain (name : String) {instr : Instr} : instr.operands = [] → Shows p (.known name instr) name

/-- the rows of a code that starts at an offset: its items one after the other, from its first byte to its last -/
inductive Lists (p : Pool) : Nat → Bytes → List CodeRow → Prop
  | done (offset : Nat) : Lists p offset [] []
  | row {offset : Nat} {item : CodeItem} {text : String} {code : Bytes} {rows : List CodeRow} :
      item.Announced → p.Shows item text → Lists p (offset + item.bytes.length) code rows →
      Lists p offset (item.bytes ++ code) (⟨offset, item, text⟩ :: rows)

/-- the walk over a code meets an instruction that is cut short, or a call that leads to no name -/
inductive Stops (p : Pool) : Bytes → Prop
  | cutShort {code : Bytes} : CutShort code → Stops p code
  | astray {index : UInt16} {code : Bytes} :
      (∀ callee, ¬ p.LeadsTo index.toNat callee) → Stops p ((Instr.invokevirtual index).encode ++ code)
  | behind {item : CodeItem} {code : Bytes} : item.Announced → Stops p code → Stops p (item.bytes ++ code)

/-- the rows of one code and then those of the code behind it -/
theorem Lists.append (h : p.Lists offset code rows) (h' : p.Lists (offset + code.length) more rows') :
    p.Lists offset (code ++ more) (rows ++ rows') := by
  induction h with
  | done offset => exact h'
  | row hitem hshows _ ih =>
    rw [List.append_assoc]
    rw [List.length_append, ← Nat.add_assoc] at h'
    exact .row hitem hshows (ih h')

/-- where code starts makes no difference to what its rows show -/
theorem Lists.shift (h : p.Lists offset code rows) (count : Nat) :
    p.Lists (count + offset) code (rows.map (CodeRow.shift count)) := by
  induction h with
  | done offset => exact .done _
  | row hitem hshows _ ih =>
    rw [← Nat.add_assoc] at ih
    exact .row hitem hshows ih

theorem Stops.append (h : p.Lists offset code rows) (hstops : p.Stops more) : p.Stops (code ++ more) := by
  induction h with
  | done offset => exact hstops
  | row hitem _ _ ih =>
    rw [List.append_assoc]
    exact .behind hitem ih

/-! ## Lines -/

theorem entry_eq_ok {index : Int} {c : Constant} : p.entry index = .ok c ↔ p.get? index = some c := by
  unfold entry
  cases p.get? index with
  | none => simp
  | some d => simp

theorem callee_eq_ok {index : Int} {name : String} : p.callee index = .ok name ↔ p.LeadsTo index name := by
  unfold callee
  rw [Step.check_bind_eq_ok]
  constructor
  · intro ⟨c, hc, h⟩
    cases c with
    | methodRef owner member =>
      obtain ⟨d, hd, h⟩ := Step.check_bind_eq_ok.1 h
      cases d with
      | nameAndType nameIndex descriptor =>
        exact ⟨owner, member, nameIndex, descriptor, entry_eq_ok.1 hc, entry_eq_ok.1 hd, text_eq_ok.1 h⟩
      | _ => cases h
    | _ => cases h
  · intro ⟨owner, member, nameIndex, descriptor, hindex, hmember, hname⟩
    refine ⟨_, entry_eq_ok.2 hindex, Step.check_bind_eq_ok.2 ⟨_, entry_eq_ok.2 hmember, ?_⟩⟩
    exact text_eq_ok.2 hname

/-- the line of an item that is shown -/
theorem Shows.codeLine (h : p.Shows item text) (offset : Nat) :
    p.codeLine offset item = .ok (CodeRow.line ⟨offset, item, text⟩) := by
  have htext (s : String) : toString s = s := rfl
  cases h with
  | unknown b =>
    have hmark : ": unknown 0x" = ": " ++ "unknown 0x" := by decide
    rw [Pool.codeLine, CodeRow.line, hmark, String.append_assoc, String.append_assoc, String.append_assoc]
  | load name slot => simp [Pool.codeLine, CodeRow.line, htext, String.append_assoc]
  | store name slot => simp [Pool.codeLine, CodeRow.line, htext, String.append_assoc]
  | call name hcallee => simp [Pool.codeLine, CodeRow.line, htext, String.append_assoc, callee_eq_ok.2 hcallee]
  | plain name hoperands =>
    unfold Pool.codeLine
    dsimp only
    split
    · cases hoperands
    · cases hoperands
    · cases hoperands
    · rfl

/-- an item is shown unless it is a call that leads to no name -/
theorem exists_shows (p : Pool) (item : CodeItem) :
    (∃ text, p.Shows item text) ∨
      ∃ name index, item = .known name (.invokevirtual index) ∧ ∀ callee, ¬ p.LeadsTo index.toNat callee := by
  cases item with
  | unknown b => exact .inl ⟨_, .unknown b⟩
  | known name instr =>
    cases instr with
    | iload slot => exact .inl ⟨_, .load name slot⟩
    | istore slot => exact .inl ⟨_, .store name slot⟩
    | invokevirtual index =>
      by_cases hcallee : ∃ callee, p.LeadsTo index.toNat callee
      · obtain ⟨callee, hcallee⟩ := hcallee
        exact .inl ⟨_, .call name hcallee⟩
      · exact .inr ⟨name, index, rfl, not_exists.1 hcallee⟩
    | _ => exact .inl ⟨_, .plain name rfl⟩

/-- every fault of a call that is looked up has a wording -/
theorem callee_ne_notUtf8 (p : Pool) (index : Int) : p.callee index ≠ .error .notUtf8 := by
  unfold callee entry
  cases p.get? index with
  | none => simp [bind, Except.bind]
  | some c =>
    cases c with
    | methodRef owner member =>
      cases hmember : p.get? member with
      | none => simp [hmember, bind, Except.bind]
      | some d =>
        cases d with
        | nameAndType nameIndex descriptor =>
          intro h
          simp only [hmember, bind, Except.bind] at h
          exact Image.isWorded_of_text h rfl
        | _ => simp [hmember, bind, Except.bind]
    | _ => simp [bind, Except.bind]

/-- the line of a call that leads to no name -/
theorem codeLine_astray {index : UInt16} (h : ∀ callee, ¬ p.LeadsTo index.toNat callee) (offset : Nat) (name : String) :
    ∃ fault, fault ≠ .notUtf8 ∧ p.codeLine offset (.known name (.invokevirtual index)) = .error fault := by
  cases hcallee : p.callee index.toNat with
  | ok callee => exact absurd (callee_eq_ok.1 hcallee) (h callee)
  | error fault =>
    refine ⟨fault, ?_, ?_⟩
    · rintro rfl
      exact p.callee_ne_notUtf8 _ hcallee
    · simp [codeLine, hcallee, bind, Except.bind]

def codeLinesFrom (p : Pool) (offset : Nat) (code : Bytes) : Except ImageFault (List String) := do
  let lines ← (codeItems [] offset code).1.mapM fun i => p.codeLine i.1 i.2
  match (codeItems [] offset code).2 with
  | some fault => .error fault
  | none => return lines

theorem codeLines_eq (p : Pool) (code : Bytes) : p.codeLines code = p.codeLinesFrom 0 code := rfl

/-- the line of an item, then the lines of the code behind it -/
theorem codeLinesFrom_item (h : item.Announced) (offset : Nat) (code : Bytes) :
    p.codeLinesFrom offset (item.bytes ++ code) = do
      let line ← p.codeLine offset item
      let lines ← p.codeLinesFrom (offset + item.bytes.length) code
      return line :: lines := by
  unfold codeLinesFrom
  rw [codeItems_announced h, codeItems_found]
  dsimp only
  rw [List.reverse_singleton, List.singleton_append, List.mapM_cons, bind_assoc]
  refine bind_congr fun line => ?_
  rw [bind_assoc, bind_assoc]
  refine bind_congr fun lines => ?_
  cases (codeItems [] (offset + item.bytes.length) code).2 with
  | none => rfl
  | some fault => rfl

theorem Lists.codeLinesFrom (h : p.Lists offset code rows) :
    p.codeLinesFrom offset code = .ok (rows.map CodeRow.line) := by
  induction h with
  | done offset =>
    rw [Pool.codeLinesFrom, codeItems]
    rfl
  | row hitem hshows _ ih =>
    rw [codeLinesFrom_item hitem, hshows.codeLine, ih]
    rfl

theorem Stops.codeLinesFrom (h : p.Stops code) (offset : Nat) :
    ∃ fault, fault ≠ .notUtf8 ∧ p.codeLinesFrom offset code = .error fault := by
  induction h generalizing offset with
  | cutShort hcut =>
    obtain ⟨name, hitems⟩ := codeItems_cutShort hcut
    refine ⟨.instrTruncated name offset, by simp, ?_⟩
    rw [Pool.codeLinesFrom, hitems]
    rfl
  | @astray index code hcallee =>
    obtain ⟨fault, hfault, hline⟩ := codeLine_astray hcallee offset "invokevirtual"
    have hitem : (CodeItem.known "invokevirtual" (.invokevirtual index)).Announced := ⟨_, rfl, rfl, rfl⟩
    refine ⟨fault, hfault, (codeLinesFrom_item hitem offset code).trans ?_⟩
    rw [hline]
    rfl
  | @behind item code hitem _ ih =>
    obtain ⟨fault, hfault, hlines⟩ := ih (offset + item.bytes.length)
    rw [codeLinesFrom_item hitem, hlines]
    rcases p.exists_shows item with ⟨text, hshows⟩ | ⟨name, index, rfl, hcallee⟩
    · rw [hshows.codeLine]
      exact ⟨fault, hfault, rfl⟩
    · obtain ⟨fault, hfault, hline⟩ := codeLine_astray hcallee offset name
      rw [hline]
      exact ⟨fault, hfault, rfl⟩

/-- every code is listed to its end, unless the walk over it stops -/
theorem lists_or_stops (p : Pool) (code : Bytes) (offset : Nat) :
    (∃ rows, p.Lists offset code rows) ∨ p.Stops code := by
  induction code using walk_induction generalizing offset with
  | nil => exact .inl ⟨[], .done offset⟩
  | cutShort code h => exact .inr (.cutShort h)
  | item item code h ih =>
    rcases p.exists_shows item with ⟨text, hshows⟩ | ⟨name, index, rfl, hcallee⟩
    · rcases ih (offset + item.bytes.length) with ⟨rows, hrows⟩ | hstops
      · exact .inl ⟨_, .row h hshows hrows⟩
      · exact .inr (.behind h hstops)
    · exact .inr (.astray hcallee)

theorem Stops.not_lists (h : p.Stops code) : ¬ p.Lists offset code rows := by
  intro hrows
  obtain ⟨fault, -, hlines⟩ := h.codeLinesFrom offset
  cases hlines.symm.trans hrows.codeLinesFrom

theorem codeLines_eq_ok {lines : List String} :
    p.codeLines code = .ok lines ↔ ∃ rows, p.Lists 0 code rows ∧ lines = rows.map CodeRow.line := by
  rw [codeLines_eq]
  constructor
  · intro h
    rcases p.lists_or_stops code 0 with ⟨rows, hrows⟩ | hstops
    · exact ⟨rows, hrows, Except.ok.inj (h.symm.trans hrows.codeLinesFrom)⟩
    · obtain ⟨fault, -, hlines⟩ := hstops.codeLinesFrom 0
      cases hlines.symm.trans h
  · intro ⟨rows, hrows, hlines⟩
    rw [hlines]
    exact hrows.codeLinesFrom

/-- listing fails exactly where the walk stops, and then with a wording -/
theorem codeLines_fails : (∃ fault, p.codeLines code = .error fault) ↔ p.Stops code := by
  rw [codeLines_eq]
  constructor
  · intro ⟨fault, h⟩
    rcases p.lists_or_stops code 0 with ⟨rows, hrows⟩ | hstops
    · cases h.symm.trans hrows.codeLinesFrom
    · exact hstops
  · intro h
    obtain ⟨fault, -, hlines⟩ := h.codeLinesFrom 0
    exact ⟨fault, hlines⟩

theorem stops_append_iff (h : p.Lists offset code rows) : p.Stops (code ++ more) ↔ p.Stops more := by
  constructor
  · intro hstops
    rcases p.lists_or_stops more (offset + code.length) with ⟨rows', hmore⟩ | hmore
    · exact absurd (h.append hmore) hstops.not_lists
    · exact hmore
  · exact Stops.append h

end Pool

open Pool in
/-- A code is listed exactly if the walk over it, one item after the other from offset 0, gets to its end with every
call led to a name, and the lines are then those of the items met. It fails exactly if the walk stops, always with a
wording. Code behind code that is listed is listed as it is on its own, its rows shifted. -/
theorem code_lines_tile (p : Pool) (code : Bytes) :
    (∀ lines, p.codeLines code = .ok lines ↔ ∃ rows, p.Lists 0 code rows ∧ lines = rows.map CodeRow.line) ∧
    ((∃ fault, p.codeLines code = .error fault) ↔ p.Stops code) ∧
    (∀ fault, p.codeLines code = .error fault → ∃ message, fault.message? = some message) ∧
    ∀ rows, p.Lists 0 code rows → ∀ more,
      (∀ rows', p.Lists 0 more rows' →
        p.codeLines (code ++ more) = .ok ((rows ++ rows'.map (CodeRow.shift code.length)).map CodeRow.line)) ∧
      ((∃ fault, p.codeLines (code ++ more) = .error fault) ↔ ∃ fault, p.codeLines more = .error fault) := by
  refine ⟨fun lines => codeLines_eq_ok, codeLines_fails, ?_, ?_⟩
  · intro fault h
    obtain ⟨fault', hworded, hlines⟩ := (codeLines_fails.1 ⟨fault, h⟩).codeLinesFrom 0
    cases h.symm.trans hlines
    exact Option.ne_none_iff_exists'.1 fun hnone => hworded (ImageFault.message?_eq_none.1 hnone)
  · intro rows hrows more
    constructor
    · intro rows' hmore
      have hshifted : p.Lists (0 + code.length) more (rows'.map (CodeRow.shift code.length)) := by
        rw [Nat.add_comm]
        exact hmore.shift code.length
      exact codeLines_eq_ok.2 ⟨_, hrows.append hshifted, rfl⟩
    · rw [codeLines_fails, codeLines_fails, stops_append_iff hrows]

end StackLang
