import Mathlib.Data.List.Basic

/-! Updates that touch one component each.

A state is read by key; an update has the key of the one component it changes,
and what it does to that component depends on the component alone, as long as the
state keeps to an invariant. However many such updates are made in a row, a
component sees exactly those of its own key, in order. -/
namespace SimpleHttpServer.Local

variable {σ κ β ε : Type*} [DecidableEq κ]

/-- Reading the component of a key behind an update of a state that keeps to `Inv`. -/
structure Updates (Inv : σ → Prop) (get : σ → κ → β) (upd : σ → ε → σ) (key : ε → κ)
    (effect : ε → β → β) : Prop where
  keeps : ∀ s e, Inv s → Inv (upd s e)
  get_upd : ∀ s e k, Inv s → get (upd s e) k = if k = key e then effect e (get s k) else get s k

variable {Inv : σ → Prop} {get : σ → κ → β} {upd : σ → ε → σ} {key : ε → κ} {effect : ε → β → β}

theorem get_foldl (h : Updates Inv get upd key effect) (l : List ε) {s : σ} (hs : Inv s) (k : κ) :
    get (l.foldl upd s) k =
      (l.filter fun e => k = key e).foldl (fun b e => effect e b) (get s k) := by
  induction l generalizing s with
  | nil => rfl
  | cons e rest ih =>
    rw [List.foldl_cons, ih (h.keeps s e hs), h.get_upd s e k hs]
    by_cases hk : k = key e
    · simp [hk]
    · simp [hk]

/-- A component that its own updates leave alone. -/
theorem get_foldl_kept (h : Updates Inv get upd key effect) {l : List ε} {s : σ} (hs : Inv s)
    {k : κ} (hk : ∀ e ∈ l, k = key e → effect e (get s k) = get s k) :
    get (l.foldl upd s) k = get s k := by
  induction l generalizing s with
  | nil => rfl
  | cons e rest ih =>
    have hstep : get (upd s e) k = get s k := by
      rw [h.get_upd s e k hs]
      split
      · exact hk e (List.mem_cons_self ..) ‹_›
      · rfl
    rw [List.foldl_cons, ih (h.keeps s e hs), hstep]
    intro e' he'
    rw [hstep]
    exact hk e' (List.mem_cons_of_mem e he')

/-- A key exactly one update has. -/
theorem get_foldl_single (h : Updates Inv get upd key effect) {l : List ε}
    (hdistinct : l.Pairwise (key · ≠ key ·)) {e : ε} (he : e ∈ l) {s : σ} (hs : Inv s) :
    get (l.foldl upd s) (key e) = effect e (get s (key e)) := by
  have hone : (l.filter fun e' => key e = key e') = [e] := by
    induction l with
    | nil => cases he
    | cons a rest ih =>
      obtain ⟨ha, hrest⟩ := List.pairwise_cons.mp hdistinct
      rcases List.mem_cons.mp he with rfl | hin
      · have hnone : (rest.filter fun e' => key e = key e') = [] := by
          simpa [List.filter_eq_nil_iff] using ha
        simp [hnone]
      · have hne : key e ≠ key a := fun heq => ha e hin heq.symm
        rw [List.filter_cons_of_neg (by simpa using hne)]
        exact ih hrest hin
  rw [get_foldl h l hs, hone]
  rfl

end SimpleHttpServer.Local
