import Mathlib.Logic.Function.Basic

/-! Locks with one holder, and what the holder has still to do.

`owner` says who holds a lock, and `held` which lock somebody holds; a thread holds one lock of a
kind at a time (`Owns`). What is still to come under a lock is what its holder has left to do
(`due`): taking a lock, working under it and giving it back change it there and nowhere else. -/
namespace SimpleHttpServer.Owners
variable {κ τ β : Type*}

def Owns (owner : κ → Option τ) (held : τ → Option κ) : Prop :=
  ∀ k t, owner k = some t ↔ held t = some k

/-- What the holder of a lock has left to do. -/
def due (owner : κ → Option τ) (work : τ → List β) (k : κ) : List β := (owner k).elim [] work

theorem due_of_some {owner : κ → Option τ} {k : κ} {t : τ} (h : owner k = some t)
    (work : τ → List β) : due owner work k = work t := by
  unfold due
  rw [h]
  rfl

theorem due_of_none {owner : κ → Option τ} {k : κ} (h : owner k = none) (work : τ → List β) :
    due owner work k = [] := by
  unfold due
  rw [h]
  rfl

variable [DecidableEq κ] [DecidableEq τ]

theorem Owns.take {owner : κ → Option τ} {held : τ → Option κ} (h : Owns owner held) {k : κ} {t : τ}
    (hfree : owner k = none) (hnone : held t = none) :
    Owns (Function.update owner k (some t)) (Function.update held t (some k)) := by
  intro j u
  by_cases hj : j = k
  · subst hj
    by_cases hu : u = t
    · subst hu
      simp
    · rw [Function.update_self, Function.update_of_ne hu]
      constructor
      · intro htaken
        exact absurd (Option.some.inj htaken).symm hu
      · intro hheld
        cases hfree.symm.trans ((h j u).mpr hheld)
  · rw [Function.update_of_ne hj]
    by_cases hu : u = t
    · subst hu
      rw [Function.update_self]
      constructor
      · intro howner
        cases hnone.symm.trans ((h j u).mp howner)
      · intro hheld
        exact absurd (Option.some.inj hheld).symm hj
    · rw [Function.update_of_ne hu]
      exact h j u

theorem Owns.give {owner : κ → Option τ} {held : τ → Option κ} (h : Owns owner held) {k : κ} {t : τ}
    (hheld : held t = some k) :
    Owns (Function.update owner k none) (Function.update held t none) := by
  intro j u
  by_cases hj : j = k
  · subst hj
    rw [Function.update_self]
    by_cases hu : u = t
    · subst hu
      simp
    · rw [Function.update_of_ne hu]
      constructor
      · intro hfree
        cases hfree
      · intro hother
        have htwo := ((h j u).mpr hother).symm.trans ((h j t).mpr hheld)
        exact absurd (Option.some.inj htwo) hu
  · rw [Function.update_of_ne hj]
    by_cases hu : u = t
    · subst hu
      rw [Function.update_self]
      constructor
      · intro howner
        have htwo := ((h j u).mp howner).symm.trans hheld
        exact absurd (Option.some.inj htwo) hj
      · intro hfree
        cases hfree
    · rw [Function.update_of_ne hu]
      exact h j u

/-! ### What is still to do -/

theorem due_take {owner : κ → Option τ} {held : τ → Option κ} (h : Owns owner held) {k : κ} {t : τ}
    (hnone : held t = none) (work : τ → List β) (w : List β) (j : κ) :
    due (Function.update owner k (some t)) (Function.update work t w) j =
      if j = k then w else due owner work j := by
  split
  case isTrue hj =>
    subst hj
    rw [due_of_some (Function.update_self ..), Function.update_self]
  case isFalse hj =>
    unfold due
    rw [Function.update_of_ne hj]
    cases howner : owner j with
    | none => rfl
    | some u =>
      have hu : u ≠ t := by
        rintro rfl
        cases hnone.symm.trans ((h j u).mp howner)
      exact Function.update_of_ne hu ..

theorem due_give {owner : κ → Option τ} {held : τ → Option κ} (h : Owns owner held) {k : κ} {t : τ}
    (hheld : held t = some k) (work : τ → List β) (w : List β) (j : κ) :
    due (Function.update owner k none) (Function.update work t w) j =
      if j = k then [] else due owner work j := by
  split
  case isTrue hj =>
    subst hj
    exact due_of_none (Function.update_self ..) _
  case isFalse hj =>
    unfold due
    rw [Function.update_of_ne hj]
    cases howner : owner j with
    | none => rfl
    | some u =>
      have hu : u ≠ t := by
        rintro rfl
        exact hj (Option.some.inj (((h j u).mp howner).symm.trans hheld))
      exact Function.update_of_ne hu ..

/-- Work under a lock. -/
theorem due_work {owner : κ → Option τ} {held : τ → Option κ} (h : Owns owner held) {k : κ} {t : τ}
    (hheld : held t = some k) (work : τ → List β) (w : List β) (j : κ) :
    due owner (Function.update work t w) j = if j = k then w else due owner work j := by
  split
  case isTrue hj =>
    subst hj
    rw [due_of_some ((h j t).mpr hheld), Function.update_self]
  case isFalse hj =>
    unfold due
    cases howner : owner j with
    | none => rfl
    | some u =>
      have hu : u ≠ t := by
        rintro rfl
        exact hj (Option.some.inj (((h j u).mp howner).symm.trans hheld))
      exact Function.update_of_ne hu ..

end SimpleHttpServer.Owners
