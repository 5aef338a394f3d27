/-
Compilation preserves meaning.

The functions of a program call only functions defined before them, so by induction over the definitions the machine
does with a call what the called function means (`Compiled.emulates`): the descriptor found through the pool tells how
many arguments to take and whether there is a result, the name leads to the only method of that name, and the method
runs the code of the body. Then the method of any definition, run on its own, ends as the evaluation of the body ends
and prints the same (`compile_preserves_meaning`).
-/
import StackLang.Proofs.Lowering.Links
import StackLang.Proofs.Meaning.Simulation

namespace StackLang

/-! ## Parameters -/

/-- arguments in the first slots are the values of the parameters -/
theorem parameters_hold {parameters : List Parameter} {locals locals' : Locals} {env : Store Name}
    {slots : Store Nat} {arguments : List Int32}
    (h : parameters.foldlM (fun l p => return (← l.declare p.name p.type).2) locals =
      (.ok locals' : Except Violation Locals))
    (hlen : arguments.length = parameters.length) (hslots : ∀ i, slots (locals.count + i) = arguments[i]?)
    (hholds : locals.Holds env slots) :
    locals'.Holds ((parameters.zip arguments).foldl (fun env (p, v) => env.set p.name v) env) slots := by
  induction parameters generalizing locals env arguments with
  | nil =>
    cases h
    exact hholds
  | cons p rest ih =>
    cases arguments with
    | nil => cases hlen
    | cons v arguments =>
      rw [List.foldlM_cons] at h
      obtain ⟨next, hnext, h⟩ := Step.check_bind_eq_ok.1 h
      obtain ⟨⟨w, locals₁⟩, hdeclare, heq⟩ := Step.check_bind_eq_ok.1 hnext
      cases heq
      refine ih h (Nat.succ.inj hlen) ?_ (hholds.declare hdeclare (hslots 0))
      intro i
      rw [Locals.count_declare hdeclare, Nat.add_right_comm, Nat.add_assoc, hslots (i + 1)]
      rfl

/-! ## The functions of a program -/

namespace Functions

/-- definitions of other names leave the meaning of a function alone -/
theorem foldl_define_of_notMem {trees : List Tree} {f : Name} (h : f ∉ (trees.filterMap Tree.definition?).map (·.1))
    (known : Functions) : trees.foldl define known f = known f := by
  induction trees generalizing known with
  | nil => rfl
  | cons t rest ih =>
    rw [List.foldl_cons]
    cases t with
    | define name parameters returns body =>
      obtain ⟨hne, hrest⟩ := not_or.1 (mt List.mem_cons.2 h)
      rw [ih hrest]
      funext arguments
      exact if_neg hne
    | _ => exact ih h _

/-- a function means its body, with calls of the functions defined before it -/
theorem ofProgram_eq {trees : List Tree} (hnodup : ((trees.filterMap Tree.definition?).map (·.1)).Nodup) {j : Nat}
    {f returns : Name} {parameters : List Parameter} {body : List Tree}
    (hj : trees[j]? = some (.define f parameters returns body)) (arguments : List Int32) :
    ofProgram trees f arguments =
      execute (ofProgram (trees.take j)) parameters body arguments >>= handBack returns := by
  obtain ⟨hlt, hget⟩ := List.getElem?_eq_some_iff.1 hj
  have hsplit : trees = trees.take j ++ .define f parameters returns body :: trees.drop (j + 1) := by
    rw [← hget, List.getElem_cons_drop, List.take_append_drop]
  have hlater : f ∉ ((trees.drop (j + 1)).filterMap Tree.definition?).map (·.1) := by
    rw [hsplit, List.filterMap_append, List.map_append] at hnodup
    exact (List.nodup_cons.1 (List.nodup_append.1 hnodup).2.1).1
  have hfold : ofProgram trees =
      (trees.drop (j + 1)).foldl define ((ofProgram (trees.take j)).define (.define f parameters returns body)) := by
    conv_lhs => rw [ofProgram, hsplit, List.foldl_append, List.foldl_cons]
    rfl
  rw [hfold, foldl_define_of_notMem hlater]
  exact if_pos rfl

end Functions

/-- where an integer is to be returned, a caller gets one or nothing at all -/
theorem isSome_of_handBack {returns : Name} (hint : returns = TypeWord.int) {found found' : Option Int32}
    {p p' : List Int32} (h : handBack returns found p = .ok found' p') : found'.isSome = true := by
  unfold handBack at h
  rw [if_pos hint] at h
  cases found with
  | some v =>
    obtain ⟨rfl, _⟩ := Step.pure_eq_ok.1 h
    rfl
  | none => cases h

/-! ## Calls on the machine -/

namespace Machine

variable {image : Image} {callers : List Activation} {top : Activation}

/-- a call takes its arguments off the stack -/
theorem invoke_eq {index : UInt16} {r : MethodReference} {arity : Nat} {gives : Bool} {arguments : List Int32}
    (hreference : image.constants.reference? index.toNat = some r)
    (hshape : descriptorShape? r.descriptor = some (arity, gives)) (hlen : arguments.length = arity)
    (top : Activation) (callers : List Activation) (printed : List Int32) :
    invoke image index (top.pushAll arguments) callers printed = enter image r gives arguments top callers printed := by
  have hlen' : arguments.reverse.length = arity := List.length_reverse.trans hlen
  have hstack : (top.pushAll arguments).stack = arguments.reverse ++ top.stack := rfl
  have henough : ¬ (top.pushAll arguments).stack.length < arity := by
    rw [hstack, List.length_append]
    omega
  unfold invoke
  rw [hreference]
  dsimp only
  rw [hshape]
  dsimp only
  rw [if_neg henough, hstack, List.take_left' hlen', List.drop_left' hlen', List.reverse_reverse]
  rfl

theorem find?_name {methods : List MethodImage} (hnodup : (methods.map (·.name)).Nodup) {method : MethodImage}
    (hmem : method ∈ methods) : methods.find? (·.name = method.name) = some method := by
  induction methods with
  | nil => cases hmem
  | cons first rest ih =>
    obtain ⟨hfirst, hrest⟩ := List.nodup_cons.1 hnodup
    rcases List.mem_cons.1 hmem with rfl | hmem
    · exact List.find?_cons_of_pos (by simp)
    · have hne : first.name ≠ method.name := fun heq => hfirst (List.mem_map.2 ⟨method, hmem, heq.symm⟩)
      rw [List.find?_cons_of_neg (by simpa using hne)]
      exact ih hrest hmem

/-- what a caller gets is what it waits for -/
theorem handBack_follows (returns : Name) (found : Option Int32) (printed : List Int32) :
    Follows image (leave (decide (returns = TypeWord.int)) found (top :: callers) printed)
      (handBack returns found printed) fun found printed => .running (top.pushResult found) callers printed := by
  unfold handBack
  by_cases hint : returns = TypeWord.int
  · rw [decide_eq_true hint, if_pos hint]
    cases found with
    | some v => exact Reaches.refl _
    | none => exact ⟨by decide, Reaches.refl _⟩
  · rw [decide_eq_false hint, if_neg hint]
    exact Reaches.refl _

/-- a method that nobody waits for halts with the outcome of the run it follows -/
theorem Follows.halts {s : State} {r : EStateM.Result Trap (List Int32) (Option Int32)} {gives : Bool}
    (h : Follows image s r fun found printed => leave gives found [] printed) :
    (Outcome.ofRun r).1 ≠ .trapped .stuck ∧ Reaches image s (.halted (Outcome.ofRun r).1 (Outcome.ofRun r).2) := by
  match r with
  | .ok (some v) printed => exact ⟨by simp [Outcome.ofRun], h⟩
  | .ok none printed => exact ⟨by simp [Outcome.ofRun], h⟩
  | .error trap printed => exact ⟨by simpa [Outcome.ofRun] using h.1, h.2⟩

end Machine

/-! ## Methods and definitions -/

open Machine

/-- the method of a definition ends as the body of the definition does, provided the functions it calls are emulated -/
theorem Emitted.Definition.follows {image : Image} {link : Linkage} {known : Functions} {f returns : Name}
    {parameters : List Parameter} {body : List Tree} {method : MethodImage}
    (h : Definition link (.define f parameters returns body) method)
    (hcalls : ∀ g ∈ Tree.callsOfAll body, Emulates image link known g) :
    ∃ code, Code.decode? method.code = some code ∧
      ∀ {arguments : List Int32}, arguments.length = parameters.length → ∀ gives callers printed,
        Follows image (.running (.start code arguments gives) callers printed)
          (execute known parameters body arguments printed) fun found printed => leave gives found callers printed := by
  cases h with
  | @mk _ _ _ _ locals _ code _ hlocals hbody _ =>
    refine ⟨code, Code.decode?_encode code, fun {arguments} hlen gives callers printed => ?_⟩
    have hslots : locals.Holds (parameterValues parameters arguments) fun slot => arguments[slot]? := by
      refine parameters_hold hlocals hlen (fun i => ?_) ⟨?_, ?_⟩
      · rw [show Locals.empty.count = 0 from rfl, Nat.zero_add]
      · intro i x v hi
        cases hi
      · intro x v hx
        cases hx
    have hstart : .start code arguments gives = (Activation.start [] arguments gives).before code := by
      simp [Activation.start, Activation.before]
    rw [hstart]
    exact hbody.follows hcalls (.start [] arguments gives) hslots rfl printed

namespace Compiled

variable {options : Options} {source : String} {bytes : Bytes} {trees : List Tree} {image : Image}

theorem definitions_nodup (h : Compiled options source bytes trees image) (n : Nat) :
    (("println" : Name) :: ((trees.take n).filterMap Tree.definition?).map (·.1)).Nodup := by
  have hall := h.names_nodup
  rw [table_names] at hall
  exact hall.sublist ((((List.take_sublist n trees).filterMap _).map _).cons_cons _)

/-- the machine prints what `println` is called with -/
theorem println_call (h : Compiled options source bytes trees image) (n : Nat) {index : UInt16}
    (hreference : image.constants.reference? index.toNat = some ⟨image.thisName, "println", "(I)V"⟩)
    {arguments : List Int32} (hlen : arguments.length = 1) (callers : List Activation) (top : Activation) :
    Computes image callers [.invokevirtual index] (top.pushAll arguments)
      (Functions.ofProgram (trees.take n) "println" arguments) top.pushResult := by
  obtain ⟨v, rfl⟩ := List.length_eq_one_iff.1 hlen
  have hmeaning : Functions.ofProgram (trees.take n) "println" = Functions.initial "println" :=
    Functions.foldl_define_of_notMem (List.nodup_cons.1 (h.definitions_nodup n)).1 _
  have hshape : descriptorShape? "(I)V" = some (1, false) := by decide
  intro printed
  have henter : enter image ⟨image.thisName, "println", "(I)V"⟩ false [v] top callers printed =
      .running top callers (printed ++ [v]) := by
    simp [enter]
  rw [hmeaning]
  exact ⟨1, (invoke_eq hreference hshape hlen top callers printed).trans henter⟩

/-- a call of a defined function means its body, with calls of the functions defined before it -/
theorem meaning (h : Compiled options source bytes trees image) {j n : Nat} (hj : j < n) {f returns : Name}
    {parameters : List Parameter} {body : List Tree} (hu : trees[j]? = some (.define f parameters returns body))
    (arguments : List Int32) :
    Functions.ofProgram (trees.take n) f arguments =
      execute (Functions.ofProgram (trees.take j)) parameters body arguments >>= handBack returns := by
  have htake : (trees.take n)[j]? = some (.define f parameters returns body) := by
    rw [List.getElem?_take_of_lt hj, hu]
  rw [Functions.ofProgram_eq (List.nodup_cons.1 (h.definitions_nodup n)).2 htake, List.take_take, min_eq_left hj.le]

/-- the machine runs the method of the definition that is called -/
theorem definition_call (h : Compiled options source bytes trees image) {j n : Nat} (hj : j < n) {f returns : Name}
    {parameters : List Parameter} {body : List Tree} (hu : trees[j]? = some (.define f parameters returns body))
    (hcalls : ∀ g ∈ Tree.callsOfAll body,
      Emulates image (image.linkage trees) (Functions.ofProgram (trees.take j)) g)
    {index : UInt16} {descriptor : String} (hdescriptor : Signature.descriptor ⟨returns, parameters⟩ = .ok descriptor)
    (hreference : image.constants.reference? index.toNat = some ⟨image.thisName, f.display, descriptor⟩)
    {arguments : List Int32} (hlen : arguments.length = parameters.length) (callers : List Activation)
    (top : Activation) :
    Computes image callers [.invokevirtual index] (top.pushAll arguments)
      (Functions.ofProgram (trees.take n) f arguments) top.pushResult := by
  obtain ⟨method, hmethod, hdefinition⟩ := h.method_at hu
  obtain ⟨code, hdecode, hfollows⟩ := hdefinition.follows hcalls
  obtain ⟨hprintln, hnames⟩ := List.nodup_cons.1 h.methods_nodup
  have hmem : method ∈ image.methods := List.mem_of_getElem? hmethod
  have hname : method.name = f.display := (hdefinition.signature rfl).1
  have hother : f.display ≠ "println" := fun heq => hprintln (List.mem_map.2 ⟨method, hmem, hname.trans heq⟩)
  have hfind : image.methods.find? (·.name = f.display) = some method := by
    rw [← hname]
    exact find?_name hnames hmem
  intro printed
  have henter (gives : Bool) : enter image ⟨image.thisName, f.display, descriptor⟩ gives arguments top callers printed =
      .running (.start code arguments gives) (top :: callers) printed := by
    simp only [enter, ne_eq, not_true_eq_false, if_false, if_neg hother, hfind, Option.bind_some, hdecode]
  have hinvoke := invoke_eq hreference (descriptorShape?_descriptor hdescriptor) hlen top callers printed
  rw [h.meaning hj hu]
  refine .after ⟨1, hinvoke.trans (henter _)⟩ ?_
  refine (hfollows hlen _ _ _).bind ?_
  intro found printed' _
  exact handBack_follows returns found printed'

/-- a function that a definition calls is emulated, whatever else the program has defined by then -/
theorem emulates (h : Compiled options source bytes trees image) {i n : Nat} (hn : i ≤ n) {t : Tree}
    (ht : trees[i]? = some t) {f : Name} (hf : f ∈ t.calls) :
    Emulates image (image.linkage trees) (Functions.ofProgram (trees.take n)) f := by
  -- on the number of the calling definition: what it calls has a smaller number
  induction i using Nat.strong_induction_on generalizing n t f with
  | _ i ih =>
    constructor
    · intro s index hto arguments hlen callers top
      obtain ⟨descriptor, hdescriptor, hreference⟩ := hto.reference
      rcases h.callee_cases ht hf hto.known with ⟨rfl, rfl⟩ | ⟨j, u, hj, hu, hu'⟩
      · cases hdescriptor
        exact h.println_call n hreference hlen callers top
      · cases u with
        | define name parameters returns body =>
          cases hu'
          have hcalls := fun g hg => ih j hj le_rfl hu (f := g) hg
          exact h.definition_call (hj.trans_le hn) hu hcalls hdescriptor hreference hlen callers top
        | _ => cases hu'
    · intro s hs hint arguments found p p' hfound
      rcases h.callee_cases ht hf hs with ⟨rfl, rfl⟩ | ⟨j, u, hj, hu, hu'⟩
      · exact absurd hint (by decide)
      · cases u with
        | define name parameters returns body =>
          cases hu'
          rw [h.meaning (hj.trans_le hn) hu] at hfound
          obtain ⟨_, _, _, hback⟩ := Step.bind_eq_ok.1 hfound
          exact isSome_of_handBack hint hback
        | _ => cases hu'

end Compiled

/-- **Compilation preserves meaning.** When a source compiles, its module has a method for every function defined in it,
and on any arguments of the function's arity the machine that runs the method comes to an end: with the same outcome as
evaluating the body of the function as it was read, and having printed the same. Neither ever gets stuck. -/
theorem compile_preserves_meaning (options : Options) (source : String) (bytes : Bytes)
    (h : compile options source = .ok bytes) :
    ∃ tokens s trees image, tokenize source = .ok tokens ∧
      Parse.statements nestingLimit [] tokens ⟨.ofTokens tokens, .initial, [], none⟩ = .ok trees s ∧
      Image.ofBytes bytes = .ok image ∧
      ∀ (i : Nat) (f returns : Name) (parameters : List Parameter) (body : List Tree),
        trees[i]? = some (.define f parameters returns body) →
        ∃ method, image.methods[i]? = some method ∧ method.name = f.display ∧
          ∀ arguments : List Int32, arguments.length = parameters.length →
            ∃ outcome printed,
              Outcome.ofRun (execute (.ofProgram trees) parameters body arguments []) = (outcome, printed) ∧
              outcome ≠ .trapped .stuck ∧
              ∃ n, ∀ m, n ≤ m → (step image)^[m] (start method arguments) = .halted outcome printed := by
  obtain ⟨trees, image, hcompiled⟩ := compiled_of_ok h
  obtain ⟨tokens, s, htokens, hread⟩ := hcompiled.read
  refine ⟨tokens, s, trees, image, htokens, hread, hcompiled.decoded, ?_⟩
  intro i f returns parameters body hi
  obtain ⟨method, hmethod, hdefinition⟩ := hcompiled.method_at hi
  have hlast : i ≤ trees.length := (List.getElem?_eq_some_iff.1 hi).1.le
  have hcalls : ∀ g ∈ Tree.callsOfAll body, Emulates image (image.linkage trees) (.ofProgram trees) g := by
    intro g hg
    have hemulates := hcompiled.emulates hlast hi hg
    rwa [List.take_length] at hemulates
  obtain ⟨code, hdecode, hfollows⟩ := hdefinition.follows hcalls
  refine ⟨method, hmethod, (hdefinition.signature rfl).1, fun arguments hlen => ⟨_, _, rfl, ?_⟩⟩
  obtain ⟨hstuck, hreaches⟩ := (hfollows hlen true [] []).halts
  unfold start
  rw [hdecode]
  exact ⟨hstuck, hreaches.settles⟩

/-- two functions: the second takes the result of the first, adds a power and negates the sum -/
def runText : String :=
  "fun half(a int) int \x7bprintln(a); return a / 2;\x7d " ++
  "fun main(a int) int \x7blet b int = half(a); b += a ** 3; return -b;\x7d"

def mainBody : List Tree :=
  [.declare "b" "int" (.call "half" [.ident "a"]), .addAssign "b" (.binary .pow (.name "a") (.number 3)),
   .ret (.negative (.name "b"))]

def runTrees : List Tree :=
  [.define "half" [⟨"a", "int"⟩] "int"
    [.call "println" [.ident "a"], .ret (.binary .div (.name "a") (.number 2))],
   .define "main" [⟨"a", "int"⟩] "int" mainBody]

/-- the machine that runs `main` on 5 prints 5 and returns -127, as evaluation does -/
theorem runText_halts : ∃ bytes image method, compile .default runText = .ok bytes ∧
    Image.ofBytes bytes = .ok image ∧ image.methods[1]? = some method ∧ method.name = "main" ∧
    ∃ n, ∀ m, n ≤ m → (step image)^[m] (start method [5]) = .halted (.returned (-127)) [5] := by
  have hsome : (compile .default runText).toOption.isSome = true := by decide +kernel
  obtain ⟨bytes, hbytes⟩ := Option.isSome_iff_exists.1 hsome
  have hcompile := Step.eq_ok_of_toOption hbytes
  obtain ⟨tokens, s, trees, image, htokens, hread, hdecoded, hruns⟩ :=
    compile_preserves_meaning .default runText bytes hcompile
  have htrees : ((tokenize runText).toOption.bind fun tokens =>
      (Step.outcome (Parse.statements nestingLimit [] tokens ⟨.ofTokens tokens, .initial, [], none⟩)).toOption) =
        some runTrees := by decide +kernel
  rw [htokens] at htrees
  change (Step.outcome (Parse.statements nestingLimit [] tokens _)).toOption = _ at htrees
  rw [hread] at htrees
  obtain rfl : trees = runTrees := Option.some.inj htrees
  obtain ⟨method, hmethod, hname, hall⟩ := hruns 1 "main" "int" [⟨"a", "int"⟩] mainBody rfl
  obtain ⟨outcome, printed, hrun, _, hsettles⟩ := hall [5] rfl
  have hvalue : Outcome.ofRun (execute (.ofProgram runTrees) [⟨"a", "int"⟩] mainBody [5] []) =
      (.returned (-127), [5]) := by decide +kernel
  cases hrun.symm.trans hvalue
  exact ⟨bytes, image, method, hcompile, hdecoded, hmethod, hname, hsettles⟩

end StackLang
