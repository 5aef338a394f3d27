/-
Modules put together by any edits are read back from their bytes.

An edit adds a method, a method reference, or entries of the pool, also half of a composite entry when the pool fills
up. `Build` runs edits on an empty module, whether they succeed or fail, and keeps beside the module the methods it
accepted. The invariant `Build.Sound` says that the module is open and its methods are those, each with its code as
the only attribute.

`image_of_build`: when the module of a build has bytes, they are read back, and the image has the module's pool, names
and flags, and exactly the methods that were given, in order.
-/
import StackLang.Proofs.Target.Written

namespace StackLang

inductive PoolEdit where
  | utf8 (text : String)
  | classRef (name : String)
  | nameAndType (name descriptor : String)
  | methodRef (owner name descriptor : String)
  | constant (c : Constant)
deriving DecidableEq, Repr

/-- make an edit of a pool; gives the number of the entry -/
def PoolEdit.run : PoolEdit → PoolM Nat
  | .utf8 text => Pool.addUtf8 text
  | .classRef name => Pool.addClass name
  | .nameAndType name descriptor => Pool.addNameAndType name descriptor
  | .methodRef owner name descriptor => Pool.addMethodRef owner name descriptor
  | .constant c => Pool.add c

/-- an edit of a module that is not yet written -/
inductive Edit where
  | method (name descriptor : String) (code : Bytes) (maxLocals : Int)
  | methodRef (name descriptor : String)
  | pool (edit : PoolEdit)
deriving DecidableEq, Repr

/-- a method as it is given to a module -/
structure GivenMethod where
  name : String
  descriptor : String
  code : Bytes
  maxLocals : Int
deriving DecidableEq, Repr

def GivenMethod.image (g : GivenMethod) : MethodImage :=
  ⟨g.name, g.descriptor, 0, g.maxLocals.toNat, g.code⟩

namespace Edit

def run : Edit → ModuleM Unit
  | .method name descriptor code maxLocals => do
    let _ ← Module.addMethod name descriptor code maxLocals
  | .methodRef name descriptor => do
    let _ ← Module.addMethodRef name descriptor
  | .pool edit => do
    let _ ← Module.onPool edit.run

def given : Edit → List GivenMethod
  | .method name descriptor code maxLocals => [⟨name, descriptor, code, maxLocals⟩]
  | _ => []

end Edit

/-- a module under construction, and the methods it was given -/
structure Build where
  target : Module
  given : List GivenMethod
deriving DecidableEq, Repr

namespace Build

/-- make one edit; a failed one leaves what it did before its fault, and gives no method -/
def step (b : Build) (e : Edit) : Build :=
  match e.run b.target with
  | .ok _ m => ⟨m, b.given ++ e.given⟩
  | .error _ m => ⟨m, b.given⟩

/-- make edits on an empty module, one after the other -/
def run (name superName : String) (edits : List Edit) : Build :=
  edits.foldl step ⟨.empty name superName, []⟩

/-! ## What edits keep -/

/-- an open module whose methods are the given ones, each with its code as the only attribute -/
structure Sound (name superName : String) (b : Build) : Prop where
  opened : b.target.written = none
  thisName : b.target.name = name
  superName : b.target.superName = superName
  flags : b.target.flags = 0
  methods : List.Forall₂ Image.Depicts (b.given.map GivenMethod.image) b.target.methods
  locals : ∀ g ∈ b.given, (g.maxLocals.toNat : Int) = g.maxLocals

theorem sound_empty (name superName : String) : Sound name superName ⟨.empty name superName, []⟩ :=
  ⟨rfl, rfl, rfl, rfl, .nil, by simp⟩

/-- a change of the pool leaves the rest of the module alone -/
theorem Sound.onPool {name superName : String} {b : Build} (h : Sound name superName b) (p : Pool) :
    Sound name superName ⟨{ b.target with pool := p }, b.given⟩ :=
  ⟨h.opened, h.thisName, h.superName, h.flags, h.methods, h.locals⟩

/-- an accepted method comes last -/
theorem Sound.addMethod {name superName : String} {b : Build} (h : Sound name superName b) {g : GivenMethod}
    {a : Attribute} (ha : Attribute.code g.code g.maxLocals = .ok a) :
    Sound name superName
      ⟨{ b.target with methods := b.target.methods ++ [⟨g.name, g.descriptor, 0, [a]⟩] }, b.given ++ [g]⟩ := by
  obtain ⟨n, hn, _, _⟩ := Image.code_eq_ok ha
  have hlocals : (g.maxLocals.toNat : Int) = g.maxLocals := by omega
  have hnew : Image.Depicts g.image ⟨g.name, g.descriptor, 0, [a]⟩ := by
    refine ⟨rfl, rfl, rfl, a, ?_, rfl⟩
    rw [← hlocals] at ha
    exact ha
  refine ⟨h.opened, h.thisName, h.superName, h.flags, ?_, ?_⟩
  · rw [List.map_append]
    exact List.rel_append h.methods (.cons hnew .nil)
  · intro g' hg'
    rcases List.mem_append.1 hg' with hold | hnew
    · exact h.locals g' hold
    · rw [List.mem_singleton.1 hnew]
      exact hlocals

theorem step_of_ok {b : Build} {e : Edit} {m : Module} (h : e.run b.target = .ok () m) :
    b.step e = ⟨m, b.given ++ e.given⟩ := by
  unfold step
  rw [h]

theorem step_of_error {b : Build} {e : Edit} {m : Module} {fault : WriteFault} (h : e.run b.target = .error fault m) :
    b.step e = ⟨m, b.given⟩ := by
  unfold step
  rw [h]

/-- an edit that runs a change of the pool keeps the invariant, whether the change succeeds or fails -/
theorem Sound.step_onPool {name superName : String} {b : Build} (h : Sound name superName b) {α : Type} {e : Edit}
    {change : PoolM α} (hrun : e.run b.target = (do let _ ← Module.onPool change : ModuleM Unit) b.target)
    (hgiven : e.given = []) : Sound name superName (b.step e) := by
  cases hchange : change b.target.pool with
  | ok a p =>
    have hok : Module.onPool change b.target = .ok a { b.target with pool := p } := by
      simp [Module.onPool, hchange]
    rw [Step.bind_of_ok hok] at hrun
    rw [step_of_ok hrun, hgiven, List.append_nil]
    exact h.onPool p
  | error fault p =>
    have herror : Module.onPool change b.target = .error fault { b.target with pool := p } := by
      simp [Module.onPool, hchange]
    rw [Step.bind_of_error herror] at hrun
    rw [step_of_error hrun]
    exact h.onPool p

theorem step_sound {name superName : String} {b : Build} (h : Sound name superName b) (e : Edit) :
    Sound name superName (b.step e) := by
  cases e with
  | method methodName descriptor code maxLocals =>
    cases ha : Attribute.code code maxLocals with
    | ok a =>
      have hrun : (Edit.method methodName descriptor code maxLocals).run b.target =
          .ok () { b.target with methods := b.target.methods ++ [⟨methodName, descriptor, 0, [a]⟩] } := by
        rw [Edit.run, Module.addMethod, bind_assoc, Step.bind_of_ok (Module.checkOpen_of_open h.opened), ha]
        rfl
      rw [step_of_ok hrun]
      exact h.addMethod (g := ⟨methodName, descriptor, code, maxLocals⟩) ha
    | error fault =>
      have hrun : (Edit.method methodName descriptor code maxLocals).run b.target = .error fault b.target := by
        rw [Edit.run, Module.addMethod, bind_assoc, Step.bind_of_ok (Module.checkOpen_of_open h.opened), ha]
        rfl
      rw [step_of_error hrun]
      exact h
  | methodRef refName descriptor =>
    have hrun : (Edit.methodRef refName descriptor).run b.target =
        (do let _ ← Module.onPool (Pool.addMethodRef b.target.name refName descriptor) : ModuleM Unit) b.target := by
      rw [Edit.run, Module.addMethodRef, bind_assoc, Step.bind_of_ok (Module.checkOpen_of_open h.opened)]
      rfl
    exact h.step_onPool hrun rfl
  | pool edit => exact h.step_onPool rfl rfl

theorem run_sound (name superName : String) (edits : List Edit) : Sound name superName (run name superName edits) := by
  have hfold : ∀ (edits : List Edit) (b : Build), Sound name superName b →
      Sound name superName (edits.foldl step b) := by
    intro edits
    induction edits with
    | nil => exact fun _ h => h
    | cons e edits ih => exact fun b h => ih _ (step_sound h e)
  exact hfold edits _ (sound_empty name superName)

end Build

/-! ## The image of a build -/

theorem map_eq_of_depicts {images : List MethodImage} {methods : List Method}
    (h : List.Forall₂ Image.Depicts images methods) :
    images.map (fun i => (i.name, i.descriptor, (i.flags : Int))) =
      methods.map (fun m => (m.name, m.descriptor, m.flags)) := by
  induction h with
  | nil => rfl
  | cons hi _ ih =>
    rw [List.map_cons, List.map_cons, ih, hi.name, hi.descriptor, hi.flags]

/-- **Decoding undoes encoding.** Whatever edits put a module together, when it has bytes they are read back: the image
has the pool as it was written, the names and flags of the module, and its methods in order and number, each with the
name, descriptor, number of locals and code it was given with. -/
theorem image_of_build (name superName : String) (edits : List Edit) (bytes : Bytes) (m : Module)
    (h : Module.toBytes (Build.run name superName edits).target = .ok bytes m) :
    ∃ image, Image.ofBytes bytes = .ok image ∧ image.constants = m.pool ∧
      image.thisName = name ∧ image.superName = superName ∧ m.name = name ∧ m.superName = superName ∧
      (image.flags : Int) = m.flags ∧
      image.methods.map (fun i => (i.name, i.descriptor, (i.flags : Int))) =
        m.methods.map (fun d => (d.name, d.descriptor, d.flags)) ∧
      image.methods.map (fun i => (i.name, i.descriptor, i.code, (i.maxLocals : Int))) =
        (Build.run name superName edits).given.map (fun g => (g.name, g.descriptor, g.code, g.maxLocals)) := by
  have hsound := Build.run_sound name superName edits
  set b := Build.run name superName edits
  obtain ⟨flags, hflags, _, hread⟩ := Image.ofBytes_of_toBytes hsound.opened hsound.methods h
  obtain ⟨p, _, rfl⟩ := Image.toBytes_eq_ok hsound.opened h
  refine ⟨_, hread, rfl, hsound.thisName, hsound.superName, hsound.thisName, hsound.superName, hflags.symm, ?_, ?_⟩
  · exact map_eq_of_depicts hsound.methods
  · rw [List.map_map]
    refine List.map_congr_left ?_
    intro g hg
    simp [GivenMethod.image, hsound.locals g hg]

/-- edits of all kinds: a reference, an entry added by hand, a method -/
def sampleEdits : List Edit :=
  [.methodRef "println" "(I)V", .pool (.utf8 "ä"), .method "f" "()I" [0x04, 0xAC] 1]

/-- the edits above give a module that is written and read back -/
theorem image_of_sample_build :
    ∃ bytes m image, Module.toBytes (Build.run "Main" "Object" sampleEdits).target = .ok bytes m ∧
      Image.ofBytes bytes = .ok image ∧ image.constants = m.pool ∧ image.thisName = "Main" ∧
      image.methods.map (fun i => (i.name, i.descriptor, i.code, (i.maxLocals : Int))) =
        [("f", "()I", [0x04, 0xAC], 1)] := by
  have hwritten : ∃ bytes m, Module.toBytes (Build.run "Main" "Object" sampleEdits).target = .ok bytes m :=
    ⟨_, _, by rfl⟩
  obtain ⟨bytes, m, hwritten⟩ := hwritten
  obtain ⟨image, hread, hpool, hname, _, _, _, _, _, hmethods⟩ :=
    image_of_build "Main" "Object" sampleEdits bytes m hwritten
  exact ⟨bytes, m, image, hwritten, hread, hpool, hname, hmethods⟩

end StackLang
