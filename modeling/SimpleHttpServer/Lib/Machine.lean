import Mathlib.Tactic.TypeStar

/-! Machines that take actions one at a time.

A machine answers an action with the next state, or refuses it. A run is a list
of actions, each taken where the one before it left the state, so that a run of
several threads is one list with their actions in the order they happened. What
the development asks of runs is the same everywhere: a *rule* on actions that
every step of a run obeys (`Along`), and an invariant that obedient steps keep
(`run_invariant`). -/
namespace SimpleHttpServer

/-- States `σ`, actions `α`; an action that cannot happen in a state is refused. -/
structure Machine (σ α : Type*) where
  step : σ → α → Option σ

namespace Machine
variable {σ α : Type*} (M : Machine σ α)

/-- The state a list of actions leads to, if every one of them is taken. -/
def run (s : σ) : List α → Option σ
  | [] => some s
  | a :: rest => (M.step s a).bind fun t => run t rest

/-- Every action of the run obeys `rule` in the state that takes it. -/
def Along (rule : σ → α → Prop) (s : σ) : List α → Prop
  | [] => True
  | a :: rest => rule s a ∧ ∀ t, M.step s a = some t → Along rule t rest

instance decidableAlong (rule : σ → α → Prop) [∀ s a, Decidable (rule s a)] (s : σ) :
    (acts : List α) → Decidable (M.Along rule s acts)
  | [] => isTrue trivial
  | a :: rest =>
    match h : M.step s a with
    | none => decidable_of_iff (rule s a)
        ⟨fun hr => ⟨hr, fun t ht => by rw [h] at ht; cases ht⟩, fun hr => hr.1⟩
    | some t =>
      have := decidableAlong rule t rest
      decidable_of_iff (rule s a ∧ M.Along rule t rest)
        ⟨fun hr => ⟨hr.1, fun u hu => by rw [h] at hu; cases hu; exact hr.2⟩,
          fun hr => ⟨hr.1, hr.2 t h⟩⟩

/-- Every state the run goes through has the property, the first and the last included. -/
def Throughout (P : σ → Prop) (s : σ) : List α → Prop
  | [] => P s
  | a :: rest => P s ∧ ∀ t, M.step s a = some t → Throughout P t rest

def Reachable (init s : σ) : Prop := ∃ acts, M.run init acts = some s

@[simp] theorem run_nil (s : σ) : M.run s [] = some s := rfl

theorem run_cons {s t : σ} {a : α} {rest : List α} :
    M.run s (a :: rest) = some t ↔ ∃ u, M.step s a = some u ∧ M.run u rest = some t :=
  Option.bind_eq_some_iff

theorem run_append (s : σ) (a b : List α) :
    M.run s (a ++ b) = (M.run s a).bind fun t => M.run t b := by
  induction a generalizing s with
  | nil => rfl
  | cons x rest ih =>
    simp only [List.cons_append, run]
    cases M.step s x with
    | none => rfl
    | some t => exact ih t

variable {M}

theorem Reachable.refl (init : σ) : M.Reachable init init := ⟨[], rfl⟩

theorem Reachable.step {init s t : σ} {a : α} (h : M.Reachable init s) (ha : M.step s a = some t) :
    M.Reachable init t := by
  obtain ⟨acts, hacts⟩ := h
  refine ⟨acts ++ [a], ?_⟩
  rw [run_append, hacts]
  simp [run, ha]

theorem Reachable.run {init s t : σ} {acts : List α} (h : M.Reachable init s)
    (hacts : M.run s acts = some t) : M.Reachable init t := by
  obtain ⟨before, hbefore⟩ := h
  exact ⟨before ++ acts, by rw [run_append, hbefore]; exact hacts⟩

theorem Along.cons {rule : σ → α → Prop} {s t : σ} {a : α} {rest : List α} (hrule : rule s a)
    (hstep : M.step s a = some t) (hrest : M.Along rule t rest) : M.Along rule s (a :: rest) := by
  refine ⟨hrule, fun u hu => ?_⟩
  rw [hstep] at hu
  cases hu
  exact hrest

theorem along_true (s : σ) (acts : List α) : M.Along (fun _ _ => True) s acts := by
  induction acts generalizing s with
  | nil => exact trivial
  | cons a rest ih => exact ⟨trivial, fun t _ => ih t⟩

/-- A rule that does not look at the state. -/
theorem along_of_forall {ok : α → Prop} {s : σ} {acts : List α} (h : ∀ a ∈ acts, ok a) :
    M.Along (fun _ a => ok a) s acts := by
  induction acts generalizing s with
  | nil => exact trivial
  | cons a rest ih =>
    refine ⟨h a (List.mem_cons_self ..), fun t _ => ih fun b hb => ?_⟩
    exact h b (List.mem_cons_of_mem _ hb)

theorem Along.mono {rule rule' : σ → α → Prop} {s : σ} {acts : List α}
    (himp : ∀ s a, rule s a → rule' s a) (h : M.Along rule s acts) : M.Along rule' s acts := by
  induction acts generalizing s with
  | nil => exact trivial
  | cons a rest ih => exact ⟨himp s a h.1, fun t ht => ih (h.2 t ht)⟩

theorem Along.and {rule rule' : σ → α → Prop} {s : σ} {acts : List α}
    (h : M.Along rule s acts) (h' : M.Along rule' s acts) :
    M.Along (fun s a => rule s a ∧ rule' s a) s acts := by
  induction acts generalizing s with
  | nil => exact trivial
  | cons a rest ih => exact ⟨⟨h.1, h'.1⟩, fun t ht => ih (h.2 t ht) (h'.2 t ht)⟩

/-- What obedient steps keep holds wherever an obedient run leads. -/
theorem run_invariant {Inv : σ → Prop} {rule : σ → α → Prop}
    (keep : ∀ s a t, Inv s → rule s a → M.step s a = some t → Inv t)
    {s t : σ} {acts : List α} (hs : Inv s) (hrule : M.Along rule s acts)
    (hrun : M.run s acts = some t) : Inv t := by
  induction acts generalizing s with
  | nil =>
    cases hrun
    exact hs
  | cons a rest ih =>
    obtain ⟨u, hu, hrest⟩ := M.run_cons.mp hrun
    exact ih (keep s a u hs hrule.1 hu) (hrule.2 u hu) hrest

/-- What an invariant and the rule give of a step, every step of an obedient run has. -/
theorem Along.always {Inv : σ → Prop} {rule rule' : σ → α → Prop}
    (keep : ∀ s a t, Inv s → rule s a → M.step s a = some t → Inv t)
    (here : ∀ s a, Inv s → rule s a → rule' s a) {s : σ} {acts : List α} (hs : Inv s)
    (h : M.Along rule s acts) : M.Along rule' s acts := by
  induction acts generalizing s with
  | nil => exact trivial
  | cons a rest ih =>
    refine ⟨here s a hs h.1, fun t ht => ?_⟩
    exact ih (keep s a t hs h.1 ht) (h.2 t ht)

/-- What no step mends stays to the end of the run. -/
theorem run_stays {Bad : σ → Prop} (stays : ∀ s a t, Bad s → M.step s a = some t → Bad t)
    {s t : σ} {acts : List α} (hs : Bad s) (hrun : M.run s acts = some t) : Bad t := by
  induction acts generalizing s with
  | nil =>
    cases hrun
    exact hs
  | cons a rest ih =>
    obtain ⟨u, hu, hrest⟩ := M.run_cons.mp hrun
    exact ih (stays s a u hs hu) hrest

/-- Where every step that breaks the rule leaves something bad behind, and no other step does, a
run ends well exactly if it keeps to the rule. -/
theorem good_iff_along {Inv Good : σ → Prop} {proper rule : σ → α → Prop}
    (keep : ∀ s a t, Inv s → proper s a → rule s a → M.step s a = some t → Inv t)
    (good : ∀ s, Inv s → Good s)
    (broken : ∀ s a t, Inv s → proper s a → ¬ rule s a → M.step s a = some t → ¬ Good t)
    (stays : ∀ s a t, ¬ Good s → M.step s a = some t → ¬ Good t)
    {s t : σ} {acts : List α} (hs : Inv s) (hproper : M.Along proper s acts)
    (hrun : M.run s acts = some t) : Good t ↔ M.Along rule s acts := by
  induction acts generalizing s with
  | nil =>
    cases hrun
    exact ⟨fun _ => trivial, fun _ => good _ hs⟩
  | cons a rest ih =>
    obtain ⟨u, hu, hrest⟩ := M.run_cons.mp hrun
    by_cases hrule : rule s a
    · have hiff := ih (keep s a u hs hproper.1 hrule hu) (hproper.2 u hu) hrest
      constructor
      · intro hgood
        exact .cons hrule hu (hiff.mp hgood)
      · intro halong
        exact hiff.mpr (halong.2 u hu)
    · have hbad := run_stays stays (broken s a u hs hproper.1 hrule hu) hrest
      exact ⟨fun hgood => absurd hgood hbad, fun halong => absurd halong.1 hrule⟩

theorem Throughout.here {P : σ → Prop} {s : σ} {acts : List α} (h : M.Throughout P s acts) : P s := by
  cases acts with
  | nil => exact h
  | cons a rest => exact h.1

theorem throughout_of_forall {P : σ → Prop} (h : ∀ s, P s) (s : σ) (acts : List α) :
    M.Throughout P s acts := by
  induction acts generalizing s with
  | nil => exact h s
  | cons a rest ih => exact ⟨h s, fun t _ => ih t⟩

theorem Throughout.there {P : σ → Prop} {s t : σ} {acts : List α} (h : M.Throughout P s acts)
    (hrun : M.run s acts = some t) : P t := by
  induction acts generalizing s with
  | nil =>
    cases hrun
    exact h
  | cons a rest ih =>
    obtain ⟨u, hu, hrest⟩ := M.run_cons.mp hrun
    exact ih (h.2 u hu) hrest

/-- What obedient steps keep holds all along an obedient run. -/
theorem Along.throughout {Inv Good : σ → Prop} {rule : σ → α → Prop}
    (keep : ∀ s a t, Inv s → rule s a → M.step s a = some t → Inv t)
    (good : ∀ s, Inv s → Good s) {s : σ} {acts : List α} (hs : Inv s)
    (h : M.Along rule s acts) : M.Throughout Good s acts := by
  induction acts generalizing s with
  | nil => exact good s hs
  | cons a rest ih => exact ⟨good s hs, fun t ht => ih (keep s a t hs h.1 ht) (h.2 t ht)⟩

/-- Where every step that breaks the rule leads to something bad at once, and no other step does,
a run goes well throughout exactly if it keeps to the rule. -/
theorem throughout_iff_along {Inv Good : σ → Prop} {rule : σ → α → Prop}
    (keep : ∀ s a t, Inv s → rule s a → M.step s a = some t → Inv t)
    (good : ∀ s, Inv s → Good s)
    (broken : ∀ s a t, Inv s → ¬ rule s a → M.step s a = some t → ¬ Good t)
    {s t : σ} {acts : List α} (hs : Inv s) (hrun : M.run s acts = some t) :
    M.Throughout Good s acts ↔ M.Along rule s acts := by
  refine ⟨fun hgood => ?_, fun halong => halong.throughout keep good hs⟩
  induction acts generalizing s with
  | nil => exact trivial
  | cons a rest ih =>
    obtain ⟨u, hu, hrest⟩ := M.run_cons.mp hrun
    have hnext := hgood.2 u hu
    have hrule : rule s a :=
      Classical.byContradiction fun hrule => broken s a u hs hrule hu hnext.here
    exact .cons hrule hu (ih (keep s a u hs hrule hu) hrest hnext)

/-- What every step keeps, whatever it is, holds wherever a run leads. -/
theorem Reachable.invariant {Inv : σ → Prop} (keep : ∀ s a t, Inv s → M.step s a = some t → Inv t)
    {init s : σ} (hinit : Inv init) (h : M.Reachable init s) : Inv s := by
  obtain ⟨acts, hacts⟩ := h
  induction acts generalizing init with
  | nil =>
    cases hacts
    exact hinit
  | cons a rest ih =>
    obtain ⟨u, hu, hrest⟩ := M.run_cons.mp hacts
    exact ih (keep init a u hinit hu) hrest

/-! ### What a run is seen to do -/

/-- What a run shows, step by step: `seen` is what one step shows, if anything. -/
def events {β : Type*} (M : Machine σ α) (seen : σ → α → Option β) (s : σ) : List α → List β
  | [] => []
  | a :: rest => (seen s a).toList ++ (M.step s a).elim [] fun t => events M seen t rest

theorem events_cons {β : Type*} {seen : σ → α → Option β} {s t : σ} {a : α} {rest : List α}
    (h : M.step s a = some t) :
    M.events seen s (a :: rest) = (seen s a).toList ++ M.events seen t rest := by
  rw [events, h]
  rfl

/-! ### A machine behind another -/

variable {τ β : Type*} {N : Machine τ β} {R : σ → τ → Prop} {f : α → List β}

/-- Seen through `R`, each action of `M` is the actions `f` of `N`, one after another. -/
def Refines (M : Machine σ α) (N : Machine τ β) (R : σ → τ → Prop) (f : α → List β) : Prop :=
  ∀ s a s' t, R s t → M.step s a = some s' → ∃ t', N.run t (f a) = some t' ∧ R s' t'

theorem Refines.run (h : Refines M N R f) {s s' : σ} {t : τ} {acts : List α} (hst : R s t)
    (hrun : M.run s acts = some s') : ∃ t', N.run t (acts.flatMap f) = some t' ∧ R s' t' := by
  induction acts generalizing s t with
  | nil =>
    cases hrun
    exact ⟨t, rfl, hst⟩
  | cons a rest ih =>
    obtain ⟨u, hu, hrest⟩ := M.run_cons.mp hrun
    obtain ⟨v, hv, huv⟩ := h s a u t hst hu
    obtain ⟨t', ht', hs't'⟩ := ih huv hrest
    refine ⟨t', ?_, hs't'⟩
    rw [List.flatMap_cons, run_append, hv]
    exact ht'

end Machine
end SimpleHttpServer
