/-
The machine does what evaluation does.

Code of an expression, in front of any code, on any stack and under any callers, pushes the value of the expression
(`Emitted.Value.computes`), and the code of a body leaves its method as the body ends (`Emitted.Body.follows`). What
ties the two sides is that each variable has a slot to itself which holds its value (`Locals.Holds`). What calls do is
assumed here of the functions called (`Emulates`).
-/
import StackLang.Proofs.Lowering.Emitted
import StackLang.Proofs.Lowering.Slots
import StackLang.Proofs.Meaning.Computing

namespace StackLang

/-! ## Variables and slots -/

/-- variables have slots in order, and the slots hold their values -/
structure Locals.Holds (locals : Locals) (env : Store Name) (slots : Store Nat) : Prop where
  numbered : locals.Numbered
  value : ∀ (x : Name) (v : Variable), locals.find? x = some v → ∃ w, env x = some w ∧ slots v.slot = some w

namespace Locals

variable {locals locals' : Locals} {env : Store Name} {slots : Store Nat} {x : Name} {v : Variable}

/-- a new value for a variable goes into its slot -/
theorem Holds.set (h : locals.Holds env slots) (hx : locals.find? x = some v) (w : Int32) :
    locals.Holds (env.set x w) (slots.set v.slot w) := by
  refine ⟨h.numbered, fun y u hy => ?_⟩
  by_cases hyx : y = x
  · subst hyx
    rw [Option.some.inj (hy.symm.trans hx)]
    exact ⟨w, Store.set_self _ _ _, Store.set_self _ _ _⟩
  · obtain ⟨w', henv, hslot⟩ := h.value y u hy
    have hne : u.slot ≠ v.slot := fun hslot => hyx (h.numbered.eq_of_slot hx hy hslot)
    exact ⟨w', by rw [Store.set_of_ne _ hyx, henv], by rw [Store.set_of_ne _ hne, hslot]⟩

/-- a declared variable whose value is in the next slot -/
theorem Holds.declare (h : locals.Holds env slots) {type : Name} (hx : locals.declare x type = .ok (v, locals'))
    {w : Int32} (hw : slots locals.count = some w) : locals'.Holds (env.set x w) slots := by
  obtain ⟨_, rfl, _⟩ := declare_eq_ok hx
  refine ⟨h.numbered.declare hx, ?_⟩
  intro y u hy
  rw [find?_declare hx] at hy
  split_ifs at hy with hyx
  · subst hyx
    cases hy
    exact ⟨w, Store.set_self _ _ _, hw⟩
  · obtain ⟨w', henv, hslot⟩ := h.value y u hy
    exact ⟨w', by rw [Store.set_of_ne _ hyx, henv], hslot⟩

/-- the next slot is nobody's, so anything may be put there -/
theorem Holds.set_next (h : locals.Holds env slots) (w : Int32) : locals.Holds env (slots.set locals.count w) := by
  refine ⟨h.numbered, fun y u hy => ?_⟩
  obtain ⟨w', henv, hslot⟩ := h.value y u hy
  exact ⟨w', henv, by rw [Store.set_of_ne _ (h.numbered.slot_lt hy).ne, hslot]⟩

end Locals

/-! ## Calls -/

namespace Machine.Activation

/-- arguments on the stack, the last one on top -/
def pushAll (a : Activation) (vs : List Int32) : Activation :=
  { a with stack := vs.reverse ++ a.stack }

/-- the result of a call on the stack, if it has one -/
def pushResult (a : Activation) (found : Option Int32) : Activation :=
  { a with stack := found.toList ++ a.stack }

theorem pushAll_cons (a : Activation) (v : Int32) (vs : List Int32) : a.pushAll (v :: vs) = (a.push v).pushAll vs := by
  simp [pushAll, push]

end Machine.Activation

/-- the machine does with calls of a function what the function means -/
structure Emulates (image : Image) (link : Linkage) (known : Functions) (f : Name) : Prop where
  call : ∀ {s : Signature} {index : UInt16}, link.CallsTo f s index → ∀ {arguments : List Int32},
    arguments.length = s.arity → ∀ (callers : List Machine.Activation) (top : Machine.Activation),
      Machine.Computes image callers [.invokevirtual index] (top.pushAll arguments) (known f arguments) top.pushResult
  gives : ∀ {s : Signature}, link.functions.find? f = some s → s.returns = TypeWord.int →
    ∀ {arguments : List Int32} {found : Option Int32} {p p' : List Int32},
      known f arguments p = .ok found p' → found.isSome = true

/-! ## Expressions -/

theorem Tree.value_binary {op : BinaryOp} {i : Instr} (h : Lower.binaryInstr? op = some i) (known : Functions)
    (env : Store Name) (l r : Tree) :
    (Tree.binary op l r).value known env =
      l.value known env >>= fun a => r.value known env >>= fun b => op.apply a b := by
  cases op with
  | add => rfl
  | sub => rfl
  | mul => rfl
  | div => rfl
  | pow => cases h
  | other word => cases h

/-- arithmetic without calls prints nothing -/
theorem Emitted.Arithmetic.quiet {link : Linkage} {locals : Locals} {known : Functions} {env : Store Name} {t : Tree}
    {code : Code} : Arithmetic link locals t code → t.callFree = true → Run.Quiet (t.value known env)
  | .number _, _ => .pure _
  | .name _ _, _ => .required _
  | .call _ _, hfree => Bool.noConfusion hfree
  | .positive h, hfree => h.quiet hfree
  | .negated _, _ => .bind (.pure _) fun _ => .pure _
  | .negative h, hfree => .bind (h.quiet hfree) fun _ => .pure _
  | .power hbase _ h _, _ => by
    rw [Tree.value]
    split_ifs
    · exact .pure _
    · exact .bind (h.quiet hbase) fun _ => .pure _
  | .binary hinstr hl hr, hfree => by
    obtain ⟨hleft, hright⟩ := Bool.and_eq_true_iff.1 hfree
    rw [Tree.value_binary hinstr]
    exact .bind (hl.quiet hleft) fun _ => .bind (hr.quiet hright) fun _ => .apply _ _ _

theorem Tree.length_values {known : Functions} {env : Store Name} {trees : List Tree} {vs p p' : List Int32}
    (h : Tree.values known env trees p = .ok vs p') : vs.length = trees.length := by
  induction trees generalizing vs p p' with
  | nil =>
    obtain ⟨rfl, _⟩ := Step.pure_eq_ok.1 h
    rfl
  | cons t rest ih =>
    rw [Tree.values] at h
    obtain ⟨v, p₁, _, h⟩ := Step.bind_eq_ok.1 h
    obtain ⟨ws, p₂, hrest, h⟩ := Step.bind_eq_ok.1 h
    obtain ⟨rfl, _⟩ := Step.pure_eq_ok.1 h
    rw [List.length_cons, List.length_cons, ih hrest]

namespace Emitted

open Machine

variable {image : Image} {link : Linkage} {known : Functions} {locals : Locals} {env : Store Name}
  {callers : List Activation}

/-- a call whose result is an operand or a whole expression -/
theorem Call.required {f : Name} {arguments : List Tree} {s : Signature} {code : Code}
    (h : Call link locals f arguments s code) (hint : s.returns = TypeWord.int) (hf : Emulates image link known f)
    {top : Activation}
    (hcomputes : Computes image callers code top (Tree.values known env arguments >>= known f) top.pushResult) :
    Computes image callers code top ((Tree.call f arguments).value known env) top.push := by
  have hvalue : (Tree.call f arguments).value known env =
      (Tree.values known env arguments >>= known f) >>= StackLang.required := by
    rw [Tree.value, bind_assoc]
  rw [hvalue]
  refine hcomputes.finish ?_
  rintro found ⟨p, p', hfound⟩
  obtain ⟨vs, p₁, _, hcall⟩ := Step.bind_eq_ok.1 hfound
  cases h with
  | mk hto _ _ =>
    obtain ⟨v, rfl⟩ := Option.isSome_iff_exists.1 (hf.gives hto.known hint hcall)
    exact ⟨v, rfl, rfl⟩

mutual

/-- code of an expression pushes its value -/
theorem Value.computes {t : Tree} {code : Code} : Value link locals t code →
    (∀ f ∈ t.calls, Emulates image link known f) → ∀ top : Activation, locals.Holds env top.locals →
      Computes image callers code top (t.value known env) top.push
  | .ident hfind hload, _, top, hholds => by
    obtain ⟨w, henv, hslot⟩ := hholds.value _ _ hfind
    rw [Tree.value, henv]
    exact load_computes hload hslot
  | .call h hint, hcalls, top, hholds =>
    h.required hint (hcalls _ (List.mem_append_right _ (List.mem_singleton.2 rfl))) (h.computes hcalls top hholds)
  | .arithmetic h, hcalls, top, hholds => h.computes hcalls top hholds

theorem Arithmetic.computes {t : Tree} {code : Code} : Arithmetic link locals t code →
    (∀ f ∈ t.calls, Emulates image link known f) → ∀ top : Activation, locals.Holds env top.locals →
      Computes image callers code top (t.value known env) top.push
  | .number hpush, _, _, _ => push_computes hpush
  | .name hfind hload, _, top, hholds => by
    obtain ⟨w, henv, hslot⟩ := hholds.value _ _ hfind
    rw [Tree.value, henv]
    exact load_computes hload hslot
  | .call h hint, hcalls, top, hholds =>
    h.required hint (hcalls _ (List.mem_append_right _ (List.mem_singleton.2 rfl))) (h.computes hcalls top hholds)
  | .positive h, hcalls, top, hholds => h.computes hcalls top hholds
  | @Arithmetic.negated _ _ n _ hpush, _, top, _ => by
    have hvalue : (Tree.negative (.number n)).value known env = pure (Int32.ofInt (-n)) := by
      rw [Int32.ofInt_neg]
      rfl
    rw [hvalue]
    exact push_computes hpush
  | .negative h, hcalls, top, hholds =>
    .seq top.push (h.computes hcalls _ hholds) fun v _ => negate_computes top v
  | .power hfree hn h hunroll, hcalls, top, hholds => by
    have hbase := fun top' (hlocals : top'.locals = top.locals) =>
      h.computes (fun f hf => hcalls f (List.mem_append_left _ hf)) top' (hlocals ▸ hholds)
    rw [Tree.value]
    exact unroll_computes hn hunroll (h.quiet hfree) hbase
  | .binary hinstr hl hr, hcalls, top, hholds => by
    have hleft := hl.computes (fun f hf => hcalls f (List.mem_append_left _ hf))
    have hright := hr.computes (fun f hf => hcalls f (List.mem_append_right _ hf))
    rw [Tree.value_binary hinstr, List.append_assoc]
    refine .seq top.push (hleft _ hholds) fun a _ => ?_
    refine .seq (top.push a).push (hright _ hholds) fun b _ => ?_
    exact binary_computes hinstr top a b

theorem Call.computes {f : Name} {arguments : List Tree} {s : Signature} {code : Code} :
    Call link locals f arguments s code → (∀ g ∈ (Tree.call f arguments).calls, Emulates image link known g) →
      ∀ top : Activation, locals.Holds env top.locals →
        Computes image callers code top (Tree.values known env arguments >>= known f) top.pushResult
  | .mk hto hlen h, hcalls, top, hholds => by
    have harguments := h.computes (fun g hg => hcalls g (List.mem_append_left _ hg))
    refine .seq top.pushAll (harguments _ hholds) ?_
    rintro vs ⟨p, p', hvs⟩
    have hf := hcalls f (List.mem_append_right _ (List.mem_singleton.2 rfl))
    exact hf.call hto ((Tree.length_values hvs).trans hlen) callers top

theorem Arguments.computes {trees : List Tree} {code : Code} : Arguments link locals trees code →
    (∀ f ∈ Tree.callsOfAll trees, Emulates image link known f) → ∀ top : Activation, locals.Holds env top.locals →
      Computes image callers code top (Tree.values known env trees) top.pushAll
  | .nil, _, top, _ => fun _ => Reaches.refl _
  | .cons h hrest, hcalls, top, hholds => by
    have hfirst := h.computes (fun f hf => hcalls f (List.mem_append_left _ hf))
    have hmore := hrest.computes (fun f hf => hcalls f (List.mem_append_right _ hf))
    rw [Tree.values]
    refine .seq top.push (hfirst _ hholds) fun v _ => ?_
    refine (hmore (top.push v) hholds).finish ?_
    rintro vs _
    exact ⟨v :: vs, rfl, (top.pushAll_cons v vs).symm⟩

end

/-! ## Bodies -/

/-- code of a value that goes into a slot -/
theorem Value.stores {t : Tree} {code last : Code} {slot : Nat} (h : Value link locals t code)
    (hstore : Lower.store slot = .ok last) (hcalls : ∀ f ∈ t.calls, Emulates image link known f) (top : Activation)
    (hholds : locals.Holds env top.locals) :
    Computes image callers (code ++ last) top (t.value known env) (top.store slot) := by
  rw [← bind_pure (t.value known env)]
  exact .seq top.push (h.computes hcalls _ hholds) fun v _ => store_computes hstore top v

/-- code of a value that is added to what a slot holds -/
theorem Value.adds {t : Tree} {x : Name} {v : Variable} {code old last : Code} (h : Value link locals t code)
    (hfind : locals.find? x = some v) (hload : Lower.load v.slot = .ok old) (hstore : Lower.store v.slot = .ok last)
    (hcalls : ∀ f ∈ t.calls, Emulates image link known f) (top : Activation) (hholds : locals.Holds env top.locals) :
    Computes image callers (code ++ old ++ [.iadd] ++ last) top
      (t.value known env >>= fun w => required (env x) >>= fun u => pure (u + w)) (top.store v.slot) := by
  obtain ⟨u, henv, hslot⟩ := hholds.value _ _ hfind
  rw [henv, List.append_assoc, List.append_assoc]
  refine .seq top.push (h.computes hcalls _ hholds) fun w _ => ?_
  refine .seq (top.push w).push (load_computes hload hslot) fun u _ => ?_
  have hadd : Lower.binaryInstr? .add = some .iadd := rfl
  have hsum : (pure (u + w) : Run Int32) = BinaryOp.add.apply w u >>= pure := by
    rw [bind_pure, Int32.add_comm]
    rfl
  rw [hsum]
  exact .seq top.push (binary_computes hadd (top.before last) w u) fun sum _ => store_computes hstore top sum

/-- the code of a body leaves its method with what the body returns; the stack may hold results that nobody took -/
theorem Body.follows {locals' : Locals} {trees : List Tree} {code : Code} (h : Body link locals trees code locals')
    (hcalls : ∀ f ∈ Tree.callsOfAll trees, Emulates image link known f) (top : Activation)
    (hholds : locals.Holds env top.locals) (hend : top.code = []) (printed : List Int32) :
    Follows image (.running (top.before code) callers printed) (statements known env trees printed)
      fun found printed => leave top.gives found callers printed := by
  induction h generalizing env top printed with
  | nil =>
    refine ⟨1, ?_⟩
    simp [step, Activation.before, hend]
  | cons hfirst _ ih =>
    have hnow := fun f hf => hcalls f (List.mem_append_left _ hf)
    have hlater := fun f hf => hcalls f (List.mem_append_right _ hf)
    cases hfirst with
    | declare hv hdeclare hstore =>
      rw [statements]
      refine Computes.follows (top.store _) (hv.stores hstore hnow _ hholds) fun w printed' _ => ?_
      refine ih hlater (top.store _ w) ?_ hend printed'
      -- the variable gets the next slot, which held no other variable
      obtain ⟨_, rfl, _⟩ := Locals.declare_eq_ok hdeclare
      exact (hholds.set_next w).declare hdeclare (Store.set_self _ _ _)
    | assign hfind hv hstore =>
      rw [statements]
      refine Computes.follows (top.store _) (hv.stores hstore hnow _ hholds) fun w printed' _ => ?_
      obtain ⟨u, henv, _⟩ := hholds.value _ _ hfind
      rw [henv]
      exact ih hlater (top.store _ w) (hholds.set hfind w) hend printed'
    | @addAssign x t v _ _ _ hfind hv hload hstore =>
      have hassoc (rest : List Tree) : statements known env (.addAssign x t :: rest) =
          (t.value known env >>= fun w => required (env x) >>= fun u => pure (u + w)) >>= fun sum =>
            statements known (env.set x sum) rest := by
        simp only [statements, bind_assoc, pure_bind]
      rw [hassoc]
      refine Computes.follows (top.store _) (hv.adds hfind hload hstore hnow _ hholds) fun w printed' _ => ?_
      exact ih hlater (top.store _ w) (hholds.set hfind w) hend printed'
    | ret hv =>
      -- what stands behind a return is never reached, neither in the body nor in the code
      rw [statements, List.append_assoc]
      exact Computes.follows top.push (hv.computes hnow _ hholds) fun w printed' _ => ⟨1, rfl⟩
    | call hcall =>
      -- a result stays on the stack; the rest of the body works above it
      rw [statements, ← bind_assoc]
      refine Computes.follows top.pushResult (hcall.computes hnow _ hholds) fun found printed' _ => ?_
      exact ih hlater (top.pushResult found) hholds hend printed'

end Emitted

end StackLang
