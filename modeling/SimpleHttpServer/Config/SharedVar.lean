import SimpleHttpServer.Lib.Machine
import Mathlib.Data.List.Chain
import Mathlib.Logic.Function.Basic

/-! A configuration variable shared by threads.

`setValue` takes the lock twice. Under the read lock, which several threads may
hold, it compares and calls the listeners; only then, under the write lock, it
stores. Between the two any other thread may do either. Listeners that were told
of two changes from one value cannot both be right, and the value stored last need
not be the one told last. -/
namespace SimpleHttpServer.SharedVar

/-- Threads `τ`, listeners `Λ`, values `T`. `pending` is the value a thread has told the
listeners of and has yet to store; `told` is history: what each listener was called with. -/
structure State (τ Λ T : Type) where
  val : T
  pending : τ → Option T
  told : Λ → List (T × T)

/-- The two locked steps of a `setValue`. -/
inductive Action (τ T : Type)
  | notify (t : τ) (val : T)
  | store (t : τ)
  deriving DecidableEq, Repr

variable {τ Λ T : Type} [DecidableEq τ] [BEq T]

/-- A thread is in one `setValue` at a time; a call that finds its value held is over. -/
def step (s : State τ Λ T) : Action τ T → Option (State τ Λ T)
  | .notify t val =>
    if (s.pending t).isSome then none
    else if s.val == val then some s
    else some {s with
      pending := Function.update s.pending t (some val)
      told := fun l => s.told l ++ [(s.val, val)]}
  | .store t =>
    (s.pending t).map fun val => {s with val := val, pending := Function.update s.pending t none}

def machine (τ Λ T : Type) [DecidableEq τ] [BEq T] : Machine (State τ Λ T) (Action τ T) := ⟨step⟩

/-- The variable before any `setValue`. -/
def State.initial (τ Λ : Type) {T : Type} (val : T) : State τ Λ T := ⟨val, fun _ => none, fun _ => []⟩

/-- No `setValue` is in progress. -/
def Quiet (s : State τ Λ T) : Prop := ∀ t, s.pending t = none

/-- Each change a listener is told of starts where the one before it ended. -/
def Chained (told : List (T × T)) : Prop := told.IsChain fun a b => a.2 = b.1

/-- The listeners follow the value. -/
def Follows (s : State τ Λ T) : Prop :=
  (∀ l, Chained (s.told l)) ∧
    (Quiet s → ∀ l change, (s.told l).getLast? = some change → change.2 = s.val)

/-- Listeners are called only while no other call stands between its calls and its store. -/
def Alone (s : State τ Λ T) : Action τ T → Prop
  | .notify _ val => (s.val == val) = false → Quiet s
  | .store _ => True

/-- At most one call is between its two steps, and its value is another than the one held and is
the one every listener was told last. -/
structure Paired (s : State τ Λ T) : Prop where
  follows : Follows s
  single : ∀ t val, s.pending t = some val → ∀ u, u ≠ t → s.pending u = none
  last : ∀ t val, s.pending t = some val → ∀ l, (s.told l).getLast? = some (s.val, val)
  differs : ∀ t val, s.pending t = some val → (s.val == val) = false

omit [DecidableEq τ] [BEq T] in
theorem chained_append {told : List (T × T)} {change : T × T} (h : Chained told)
    (hlast : ∀ prev, told.getLast? = some prev → prev.2 = change.1) :
    Chained (told ++ [change]) := by
  refine List.isChain_append.mpr ⟨h, List.isChain_singleton _, ?_⟩
  intro prev hprev next hnext
  obtain rfl : change = next := by simpa using hnext
  exact hlast prev hprev

theorem step_paired {s s' : State τ Λ T} {a : Action τ T} (hs : Paired s) (halone : Alone s a)
    (h : (machine τ Λ T).step s a = some s') : Paired s' := by
  cases a with
  | notify t val =>
    simp only [machine, step] at h
    split at h
    · cases h
    · split at h
      · cases h
        exact hs
      · cases h
        have hquiet : Quiet s := halone (Bool.not_eq_true _ ▸ ‹_›)
        have honly : ∀ u v, Function.update s.pending t (some val) u = some v → u = t ∧ v = val := by
          intro u v hu
          by_cases hut : u = t
          · subst hut
            rw [Function.update_self] at hu
            exact ⟨rfl, (Option.some.inj hu).symm⟩
          · rw [Function.update_of_ne hut, hquiet u] at hu
            cases hu
        refine ⟨⟨fun l => ?_, fun hq => ?_⟩, ?_, ?_, ?_⟩
        · exact chained_append (hs.follows.1 l) fun prev hprev => hs.follows.2 hquiet l prev hprev
        · have := hq t
          simp at this
        · intro u v hu w hw
          rw [(honly u v hu).1] at hw
          simp [hw, hquiet w]
        · intro u v hu l
          rw [(honly u v hu).2]
          exact List.getLast?_concat
        · intro u v hu
          rw [(honly u v hu).2]
          exact Bool.not_eq_true _ ▸ ‹_›
  | store t =>
    simp only [machine, step] at h
    obtain ⟨val, hval, rfl⟩ := Option.map_eq_some_iff.mp h
    have hquiet : ∀ u, Function.update s.pending t none u = none := by
      intro u
      by_cases hut : u = t
      · simp [hut]
      · rw [Function.update_of_ne hut]
        exact hs.single t val hval u hut
    refine ⟨⟨hs.follows.1, fun _ l change hchange => ?_⟩, ?_, ?_, ?_⟩
    · have hlast := hs.last t val hval l
      rw [hlast] at hchange
      cases hchange
      rfl
    all_goals
      intro u v hu
      exact absurd (hu.symm.trans (hquiet u)) (by simp)

omit [DecidableEq τ] in
theorem initial_paired (val : T) : Paired (State.initial τ Λ val) where
  follows := ⟨fun l => List.isChain_nil, fun _ l change h => by simp [State.initial] at h⟩
  single t v h := by cases h
  last t v h := by cases h
  differs t v h := by cases h

/-- A listener that is told of a change while another call has yet to store was told of that one's
value last, and the change does not start there. -/
theorem overlap_breaks {s s' : State τ Λ T} {a : Action τ T} (hrefl : ∀ a : T, (a == a) = true)
    (l : Λ) (hs : Paired s) (halone : ¬ Alone s a) (h : (machine τ Λ T).step s a = some s') :
    ¬ Follows s' := by
  intro hfollows
  cases a with
  | store t => exact halone trivial
  | notify t val =>
    simp only [Alone, Quiet, not_forall] at halone
    obtain ⟨hval, u, hu⟩ := halone
    obtain ⟨v, hv⟩ := Option.ne_none_iff_exists'.mp hu
    simp only [machine, step, hval] at h
    split at h
    · cases h
    · cases h
      have hchain : Chained (s.told l ++ [(s.val, val)]) := hfollows.1 l
      have hstart : v = s.val := by
        have happend := (List.isChain_append.mp hchain).2.2
        exact happend _ (hs.last u v hv l) _ rfl
      have hdiffers := hs.differs u v hv
      rw [hstart, hrefl] at hdiffers
      cases hdiffers

omit [DecidableEq τ] [BEq T] in
theorem follows_of_isEmpty [IsEmpty Λ] (s : State τ Λ T) : Follows s :=
  ⟨fun l => isEmptyElim l, fun _ l => isEmptyElim l⟩

/-- Whatever the calls and their interleaving: if they never overlap between their two steps, the
listeners follow the value in every state; and, where a value equals itself, only then, unless
there is no listener. -/
theorem follows_iff_alone (val : T) (acts : List (Action τ T)) (s : State τ Λ T)
    (hrun : (machine τ Λ T).run (.initial τ Λ val) acts = some s) :
    ((machine τ Λ T).Along Alone (.initial τ Λ val) acts →
      (machine τ Λ T).Throughout Follows (.initial τ Λ val) acts) ∧
    ((∀ a : T, (a == a) = true) →
      ((machine τ Λ T).Throughout Follows (.initial τ Λ val) acts ↔
        IsEmpty Λ ∨ (machine τ Λ T).Along Alone (.initial τ Λ val) acts)) := by
  have hof : (machine τ Λ T).Along Alone (.initial τ Λ val) acts →
      (machine τ Λ T).Throughout Follows (.initial τ Λ val) acts := fun halone =>
    halone.throughout (fun _ _ _ => step_paired) (fun _ hs => hs.follows) (initial_paired val)
  refine ⟨hof, fun hrefl => ⟨fun hfollows => ?_, ?_⟩⟩
  · rcases isEmpty_or_nonempty Λ with hempty | ⟨⟨l⟩⟩
    · exact .inl hempty
    · right
      exact (Machine.throughout_iff_along (fun _ _ _ => step_paired) (fun _ hs => hs.follows)
        (fun _ _ _ => overlap_breaks hrefl l) (initial_paired val) hrun).mp hfollows
  · rintro (hempty | halone)
    · exact Machine.throughout_of_forall follows_of_isEmpty _ acts
    · exact hof halone

/-- Two calls one after the other: the listener is told of 0 to 1 and of 1 to 2. -/
def inTurn : List (Action Bool ℕ) := [.notify false 1, .store false, .notify true 2, .store true]

theorem inTurn_follows :
    ∃ s : State Bool Unit ℕ, (machine Bool Unit ℕ).run (.initial Bool Unit 0) inTurn = some s ∧
      s.val = 2 ∧ s.told () = [(0, 1), (1, 2)] ∧
        (machine Bool Unit ℕ).Throughout Follows (.initial Bool Unit 0) inTurn := by
  refine ⟨_, rfl, rfl, rfl, (follows_iff_alone 0 inTurn _ rfl).1 ?_⟩
  refine .cons (fun _ _ => rfl) rfl <| .cons trivial rfl <| .cons (fun _ t => ?_) rfl <|
    .cons trivial rfl trivial
  cases t <;> rfl

/-- Two calls that both compare and tell before either stores: the listener is told of 0 to 1
and then of 0 to 2, and the variable is left at 1. -/
theorem overlap_diverges :
    ∃ s : State Bool Unit ℕ, (machine Bool Unit ℕ).run (.initial Bool Unit 0)
      [.notify false 1, .notify true 2, .store true, .store false] = some s ∧
        Quiet s ∧ s.val = 1 ∧ s.told () = [(0, 1), (0, 2)] ∧ ¬ Follows s := by
  refine ⟨_, rfl, fun t => ?_, rfl, rfl, fun h => ?_⟩
  · cases t <;> rfl
  · have hchain : Chained [((0 : ℕ), (1 : ℕ)), (0, 2)] := h.1 ()
    exact absurd (List.isChain_pair.mp hchain) (by decide)

end SimpleHttpServer.SharedVar
