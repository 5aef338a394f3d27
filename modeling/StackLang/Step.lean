/-
Steps: computations on a state that leave a state behind whether they succeed or fail.

What a failed step did before its fault stays done. A check without state is a step that leaves the state alone.
-/
namespace StackLang

/-- a computation that gives a result or a fault, and in both cases the state it left behind -/
abbrev Step (ε σ α : Type) := EStateM ε σ α

namespace Step

variable {ε δ σ α : Type}

def check : Except ε α → Step ε σ α
  | .ok a => pure a
  | .error fault => throw fault

instance : MonadLift (Except ε) (EStateM ε σ) where
  monadLift := check

/-- tell the faults of a step in other words -/
def mapFault (f : ε → δ) (step : Step ε σ α) : Step δ σ α := fun s =>
  match step s with
  | .ok a s => .ok a s
  | .error fault s => .error (f fault) s

/-- a step that changes the state when it is left, whether it succeeds or fails -/
def leaving (change : σ → σ) (step : Step ε σ α) : Step ε σ α := fun s =>
  match step s with
  | .ok a s => .ok a (change s)
  | .error fault s => .error fault (change s)

/-- the result of a step alone -/
def outcome : EStateM.Result ε σ α → Except ε α
  | .ok a _ => .ok a
  | .error fault _ => .error fault

end Step

end StackLang
