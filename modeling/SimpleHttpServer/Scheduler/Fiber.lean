import Mathlib.Data.Nat.Notation

/-! A fiber as the scheduler sees it (`Fiber`): its state, the callback it runs,
and where its saved context resumes. The stack and the registers behind the
context are the machine's own affair; what matters to the scheduler is whether
a switch to the fiber starts `MainFunc`, continues a body after a yield, or comes
back behind the last `swapOut` of a finished `MainFunc`. -/
namespace SimpleHttpServer

/-- `Fiber::State`. -/
inductive Fiber.State
  | init
  | hold
  | exec
  | term
  | ready
  | except
  deriving DecidableEq, Repr

/-- What a switch to the fiber resumes. -/
inductive Fiber.Context
  /-- `MainFunc` from its start (`makecontext`). -/
  | entry
  /-- The body, behind the `swapOut` of a yield. -/
  | yielded
  /-- `MainFunc` behind its last `swapOut`: only the assertion "never reach" is left. -/
  | over
  deriving DecidableEq, Repr

/-- `Fiber`, running callbacks named by `κ`; `cb` is `none` for an empty `std::function`. -/
structure Fiber (κ : Type) where
  state : Fiber.State
  cb : Option κ
  ctx : Fiber.Context
  deriving DecidableEq, Repr

namespace Fiber
variable {κ : Type}

/-- The state of a fiber whose `MainFunc` has ended. -/
def State.finished : State → Bool
  | .term | .except => true
  | _ => false

/-- `Fiber::Fiber(cb)`. -/
def new (c : κ) : Fiber κ := ⟨.init, some c, .entry⟩

/-- `Fiber::reset`; refused where its assertion on the state fails. -/
def reset (r : Fiber κ) (cb : Option κ) : Option (Fiber κ) :=
  if r.state.finished || r.state == .init then some ⟨.init, cb, .entry⟩ else none

/-- `Fiber::swapIn` up to the switch: refused where `m_state != EXEC` fails, and
where the switch lands on the "never reach" assertion. -/
def swapIn (r : Fiber κ) : Option (Fiber κ) :=
  if r.state == .exec || r.ctx == .over then none else some {r with state := .exec}

/-- `Fiber::YieldToReady` up to `swapOut`; refused where its assertion fails. -/
def yieldToReady (r : Fiber κ) : Option (Fiber κ) :=
  if r.state == .exec then some {r with state := .ready} else none

/-- `Fiber::YieldToHold` up to `swapOut`: the state stays `EXEC`. -/
def yieldToHold (r : Fiber κ) : Option (Fiber κ) :=
  if r.state == .exec then some r else none

/-- `MainFunc` after the callback has returned. -/
def finish (r : Fiber κ) : Fiber κ := {r with cb := none, state := .term}

/-- `MainFunc` after the callback has thrown: the callback is kept. -/
def fail (r : Fiber κ) : Fiber κ := {r with state := .except}

theorem reset_eq {r r' : Fiber κ} {cb : Option κ} (h : r.reset cb = some r') :
    r' = ⟨.init, cb, .entry⟩ := by
  unfold reset at h
  split at h
  · exact (Option.some.inj h).symm
  · cases h

end Fiber
end SimpleHttpServer
