import Mathlib.Algebra.BigOperators.Group.Finset.Basic

/-! A sum over the members of a finite type, or of a finite set, when one member changes.

Counters and inventories of a system of threads are sums of what each thread
holds. A step of one thread changes one summand; these lemmas say what that does
to the whole, in a form that needs no subtraction. -/
namespace SimpleHttpServer.Tally
open scoped BigOperators

section
variable {α M : Type*} [DecidableEq α] [AddCommMonoid M]

theorem sum_change_mem (S : Finset α) (f g : α → M) {w : α} (hw : w ∈ S)
    (h : ∀ i ∈ S, i ≠ w → g i = f i) : ∑ i ∈ S, g i + f w = ∑ i ∈ S, f i + g w := by
  have hrest : ∑ i ∈ S.erase w, g i = ∑ i ∈ S.erase w, f i :=
    Finset.sum_congr rfl fun i hi => h i (Finset.mem_of_mem_erase hi) (Finset.ne_of_mem_erase hi)
  rw [← Finset.sum_erase_add _ g hw, ← Finset.sum_erase_add _ f hw, hrest]
  exact add_right_comm _ _ _

end

variable {ι M : Type*} [Fintype ι] [DecidableEq ι] [AddCommMonoid M]

/-- Only the summand of `w` has changed. -/
theorem sum_change (f g : ι → M) (w : ι) (h : ∀ i, i ≠ w → g i = f i) :
    ∑ i, g i + f w = ∑ i, f i + g w :=
  sum_change_mem Finset.univ f g (Finset.mem_univ w) fun i _ => h i

/-- The same for a measure of a family of records, one of which is replaced. -/
theorem sum_update {β : Type*} (measure : β → M) (f : ι → β) (w : ι) (x : β) :
    ∑ i, measure (Function.update f w x i) + measure (f w) = ∑ i, measure (f i) + measure x := by
  have := sum_change (fun i => measure (f i)) (fun i => measure (Function.update f w x i)) w
    (fun i hi => by rw [Function.update_of_ne hi])
  simpa only [Function.update_self] using this

end SimpleHttpServer.Tally
