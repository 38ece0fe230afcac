/-! Computations that may fail, one after the other: what a result says of each.

A result behind `>>=` comes from a result of what stands before it, and the
results of a list worked off in order are those of its elements. -/
namespace SimpleHttpServer.MapM

section Bind
variable {α β ε : Type}

theorem bind_ok {x : Except ε α} {f : α → Except ε β} {b : β} (h : x >>= f = .ok b) :
    ∃ a, x = .ok a ∧ f a = .ok b := by
  cases x with
  | error e => cases h
  | ok a => exact ⟨a, rfl, h⟩

end Bind

variable {α β ε : Type} {f : α → Except ε β}

/-- If no element fails, the results are in the order of the elements. -/
theorem mapM_ok {g : α → β} {l : List α} (h : ∀ x ∈ l, f x = .ok (g x)) :
    l.mapM f = .ok (l.map g) := by
  induction l with
  | nil => rfl
  | cons x rest ih =>
    rw [List.mapM_cons, h x (List.mem_cons_self ..), ih fun y hy => h y (List.mem_cons_of_mem x hy)]
    rfl

/-- If the list is worked off, its first element has not failed, nor has the rest. -/
theorem cons_ok {x : α} {rest : List α} {l' : List β} (h : (x :: rest).mapM f = .ok l') :
    ∃ y ys, f x = .ok y ∧ rest.mapM f = .ok ys ∧ l' = y :: ys := by
  rw [List.mapM_cons] at h
  obtain ⟨y, hx, h⟩ := bind_ok h
  obtain ⟨ys, hrest, h⟩ := bind_ok h
  exact ⟨y, ys, hx, hrest, (Except.ok.inj h).symm⟩

/-- Each result is that of an element. -/
theorem exists_of_mem {l : List α} {l' : List β} (h : l.mapM f = .ok l') {y : β} (hy : y ∈ l') :
    ∃ x ∈ l, f x = .ok y := by
  induction l generalizing l' with
  | nil =>
    have hnil : l' = [] := (Except.ok.inj h).symm
    subst hnil
    cases hy
  | cons x rest ih =>
    obtain ⟨z, zs, hx, hrest, rfl⟩ := cons_ok h
    rcases List.mem_cons.mp hy with rfl | hy
    · exact ⟨x, List.mem_cons_self .., hx⟩
    · obtain ⟨x', hx', hf⟩ := ih hrest hy
      exact ⟨x', List.mem_cons_of_mem x hx', hf⟩

/-- Each element has a result. -/
theorem mem_of_exists {l : List α} {l' : List β} (h : l.mapM f = .ok l') {x : α} (hx : x ∈ l) :
    ∃ y ∈ l', f x = .ok y := by
  induction l generalizing l' with
  | nil => cases hx
  | cons x' rest ih =>
    obtain ⟨z, zs, hz, hrest, rfl⟩ := cons_ok h
    rcases List.mem_cons.mp hx with rfl | hx
    · exact ⟨z, List.mem_cons_self .., hz⟩
    · obtain ⟨y, hy, hf⟩ := ih hrest hx
      exact ⟨y, List.mem_cons_of_mem z hy, hf⟩

end SimpleHttpServer.MapM
