import Mathlib.Data.List.Basic

/-! Taking from a queue the first element that passes a test: `find?` answers it and
`eraseP` removes it. Together they split the queue into the element taken and the rest. -/
namespace SimpleHttpServer.Queue
variable {α : Type*} {p : α → Bool}

theorem perm_cons_eraseP {l : List α} {x : α} (h : l.find? p = some x) :
    l.Perm (x :: l.eraseP p) := by
  induction l with
  | nil => simp at h
  | cons y rest ih =>
    by_cases hy : p y = true
    · rw [List.find?_cons_of_pos hy, Option.some.injEq] at h
      rw [List.eraseP_cons_of_pos hy, h]
    · rw [List.find?_cons_of_neg hy] at h
      rw [List.eraseP_cons_of_neg hy]
      exact ((ih h).cons y).trans (.swap x y _)

/-- What the test refuses stays. -/
theorem mem_eraseP_of_refused {l : List α} {x : α} (hx : x ∈ l) (hp : p x = false) :
    x ∈ l.eraseP p := (List.mem_eraseP_of_neg (by simp [hp])).mpr hx

/-- The elements of a kind that every test of it passes are taken in their order. -/
theorem filter_of_taken {q : α → Bool} {l : List α} {x : α} (h : l.find? p = some x)
    (hx : q x = true) (hq : ∀ y, q y = true → p y = true) :
    l.filter q = x :: (l.eraseP p).filter q := by
  induction l with
  | nil => cases h
  | cons y rest ih =>
    by_cases hy : p y = true
    · rw [List.find?_cons_of_pos hy, Option.some.injEq] at h
      subst h
      rw [List.eraseP_cons_of_pos hy, List.filter_cons_of_pos hx]
    · rw [List.find?_cons_of_neg hy] at h
      have hqy : ¬ q y = true := fun hqy => hy (hq y hqy)
      rw [List.eraseP_cons_of_neg hy, List.filter_cons_of_neg hqy, List.filter_cons_of_neg hqy]
      exact ih h

theorem filter_of_other {q : α → Bool} {l : List α} {x : α} (h : l.find? p = some x)
    (hx : q x = false) : (l.eraseP p).filter q = l.filter q := by
  induction l with
  | nil => cases h
  | cons y rest ih =>
    by_cases hy : p y = true
    · rw [List.find?_cons_of_pos hy, Option.some.injEq] at h
      subst h
      rw [List.eraseP_cons_of_pos hy, List.filter_cons_of_neg (by rw [hx]; exact Bool.false_ne_true)]
    · rw [List.find?_cons_of_neg hy] at h
      rw [List.eraseP_cons_of_neg hy, List.filter_cons, List.filter_cons, ih h]

/-- No test that an element passes takes one behind it. -/
theorem taken_before {ahead behind : List α} {x y : α} (hx : p x = true)
    (h : (ahead ++ x :: behind).find? p = some y) :
    ahead.find? p = some y ∧
        (ahead ++ x :: behind).eraseP p = ahead.eraseP p ++ x :: behind ∨
      y = x ∧ (ahead ++ x :: behind).eraseP p = ahead ++ behind := by
  rw [List.find?_append] at h
  cases ha : ahead.find? p with
  | some z =>
    rw [ha, Option.some_or, Option.some.injEq] at h
    subst h
    exact .inl ⟨rfl, List.eraseP_append_left (List.find?_some ha) _ (List.mem_of_find?_eq_some ha)⟩
  | none =>
    rw [ha, Option.none_or, List.find?_cons_of_pos hx, Option.some.injEq] at h
    have hnone : ∀ b ∈ ahead, ¬ p b = true := List.find?_eq_none.mp ha
    exact .inr ⟨h.symm, by rw [List.eraseP_append_right _ hnone, List.eraseP_cons_of_pos hx]⟩

end SimpleHttpServer.Queue
