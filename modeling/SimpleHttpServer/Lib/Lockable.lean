import Mathlib.Data.Multiset.AddSub

/-! A lock, one attempt at a time.

A lock is known to its users by two calls: taking it in some mode, which is tried
until it succeeds, and giving it back. What the lock keeps for itself (a word, a
flag, two counts) says less than who is inside. `Keeps` relates the two: the lock's
own state stands for the modes of those inside, through every attempt and every
return, and whoever gets in shares the lock with all that are in. -/
namespace SimpleHttpServer

/-- A lock taken in modes `μ`, with a state `σ` of its own. An attempt says whether it was the
last one; giving back is an error (`none`) where the lock says so. -/
structure Lockable (μ σ : Type*) where
  free : σ
  attempt : μ → σ → Bool × σ
  unlock : σ → Option σ

namespace Lockable
variable {μ σ : Type*}

/-- The state `s` stands for insiders with the modes `H`, as `R s H` says; modes related by
`shares` may be inside together. -/
structure Keeps [DecidableEq μ] (M : Lockable μ σ) (R : σ → Multiset μ → Prop)
    (shares : μ → μ → Prop) : Prop where
  symm : ∀ {m m'}, shares m m' → shares m' m
  free : R M.free 0
  waits : ∀ {s H m}, R s H → (M.attempt m s).1 = false → R (M.attempt m s).2 H
  takes : ∀ {s H m}, R s H → (M.attempt m s).1 = true → R (M.attempt m s).2 (m ::ₘ H)
  shared : ∀ {s H m}, R s H → (M.attempt m s).1 = true → ∀ m' ∈ H, shares m m'
  gives : ∀ {s H m}, R s H → m ∈ H → ∃ s', M.unlock s = some s' ∧ R s' (H.erase m)

end Lockable
end SimpleHttpServer
