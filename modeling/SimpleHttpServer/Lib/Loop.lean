import Mathlib.Data.Nat.Notation
import Mathlib.Tactic.TypeStar

/-! Loops that may stop with a fault.

A turn of a loop faults, leaves the state for the next turn, or ends the loop with
a result. How many turns there are is not said in advance: that a loop never
faults and comes to its end follows, for every state that has an invariant, from
what one turn does to the invariant and to a number (`run_ends`). -/
namespace SimpleHttpServer

/-- Turns on states `σ` that fault with `ε` or end with `ρ`. -/
structure Loop (ε σ ρ : Type*) where
  turn : σ → Except ε (σ ⊕ ρ)

namespace Loop
variable {ε σ ρ : Type*} (L : Loop ε σ ρ)

/-- What so many turns lead to; behind the end there are no more. -/
def run : ℕ → σ → Except ε (σ ⊕ ρ)
  | 0, s => .ok (.inl s)
  | k + 1, s =>
    match L.turn s with
    | .error e => .error e
    | .ok (.inl t) => run k t
    | .ok (.inr r) => .ok (.inr r)

/-- A turn that is no fault: a state with the invariant and less than `n` left to do, or a result
that is as it should be. -/
inductive Turned (Inv : σ → Prop) (left : σ → ℕ) (Post : ρ → Prop) (n : ℕ) :
    Except ε (σ ⊕ ρ) → Prop
  | next {t : σ} (hinv : Inv t) (hless : left t < n) : Turned Inv left Post n (.ok (.inl t))
  | ended {r : ρ} (hpost : Post r) : Turned Inv left Post n (.ok (.inr r))

variable {L} {Inv : σ → Prop} {left : σ → ℕ} {Post : ρ → Prop}

/-- After any number of turns there is less left to do by that number, or the loop has ended. -/
theorem run_turned (turned : ∀ s, Inv s → Turned Inv left Post (left s) (L.turn s)) {s : σ}
    (hs : Inv s) (k : ℕ) :
    (∃ t, L.run k s = .ok (.inl t) ∧ Inv t ∧ left t + k ≤ left s) ∨
      ∃ r, L.run k s = .ok (.inr r) ∧ Post r := by
  induction k generalizing s with
  | zero => exact .inl ⟨s, rfl, hs, Nat.le_refl _⟩
  | succ k ih =>
    have hturn := turned s hs
    unfold run
    generalize L.turn s = outcome at hturn
    cases hturn with
    | next hinv hless =>
      rcases ih hinv with ⟨u, hrun, hu, hleft⟩ | hended
      · exact .inl ⟨u, hrun, hu, by omega⟩
      · exact .inr hended
    | ended hpost => exact .inr ⟨_, rfl, hpost⟩

/-- No number of turns faults. -/
theorem run_ne_error (turned : ∀ s, Inv s → Turned Inv left Post (left s) (L.turn s)) {s : σ}
    (hs : Inv s) (k : ℕ) (e : ε) : L.run k s ≠ .error e := by
  intro herror
  rcases run_turned turned hs k with ⟨t, hrun, -⟩ | ⟨r, hrun, -⟩
  · rw [hrun] at herror
    cases herror
  · rw [hrun] at herror
    cases herror

/-- What a loop leaves for the next turn has the invariant. -/
theorem run_keeps (turned : ∀ s, Inv s → Turned Inv left Post (left s) (L.turn s)) {s t : σ}
    (hs : Inv s) {k : ℕ} (hrun : L.run k s = .ok (.inl t)) : Inv t := by
  rcases run_turned turned hs k with ⟨u, hu, hinv, -⟩ | ⟨r, hr, -⟩
  · rw [hrun] at hu
    cases hu
    exact hinv
  · rw [hrun] at hr
    cases hr

/-- After more turns than there was left to do the loop has ended. -/
theorem run_ends (turned : ∀ s, Inv s → Turned Inv left Post (left s) (L.turn s)) {s : σ}
    (hs : Inv s) {k : ℕ} (hk : left s < k) : ∃ r, L.run k s = .ok (.inr r) ∧ Post r := by
  rcases run_turned turned hs k with ⟨t, -, -, hleft⟩ | hended
  · omega
  · exact hended

end Loop
end SimpleHttpServer
