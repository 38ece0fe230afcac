import SimpleHttpServer.Config.Lexical
import Mathlib.Data.Nat.Basic

/-! A configuration variable (`ConfigVar<T>`), used by one thread.

The listeners of a variable act on the world outside it, `ω`, and may throw; what
they did before they threw stays done. -/
namespace SimpleHttpServer

/-- `on_change_cb`. -/
abbrev Listener (ω T : Type) := T → T → ω → Except Exn Unit × ω

/-- `m_val` and `m_cbs`. -/
structure ConfigVar (ω T : Type) where
  val : T
  cbs : SortedBy (Prod.fst : ℕ × Listener ω T → ℕ)

namespace ConfigVar
variable {ω T : Type}

/-- The loop over `m_cbs`, left at the first listener that throws. -/
def notify (old new : T) : List (ℕ × Listener ω T) → ω → Except Exn Unit × ω
  | [], world => (.ok (), world)
  | cb :: rest, world =>
    match cb.2 old new world with
    | (.ok (), world) => notify old new rest world
    | (.error e, world) => (.error e, world)

/-- `setValue`: nothing happens if the value is the one held already. -/
def setValue [BEq T] (v : ConfigVar ω T) (val : T) (world : ω) :
    Except Exn (ConfigVar ω T) × ω :=
  if v.val == val then (.ok v, world)
  else
    match notify v.val val v.cbs.elems world with
    | (.ok (), world) => (.ok {v with val := val}, world)
    | (.error e, world) => (.error e, world)

/-- `fromString`: the variable behind it, and whether the text was taken. -/
def fromString [BEq T] (fromStr : String → Except Exn T) (v : ConfigVar ω T) (val : String)
    (world : ω) : (ConfigVar ω T × Bool) × ω :=
  match fromStr val with
  | .error _ => ((v, false), world)
  | .ok t =>
    match v.setValue t world with
    | (.ok v', world) => ((v', true), world)
    | (.error _, world) => ((v, false), world)

end ConfigVar
end SimpleHttpServer
