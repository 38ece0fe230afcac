import SimpleHttpServer.Lib.Machine
import SimpleHttpServer.Lib.Tally
import SimpleHttpServer.Scheduler.Fiber
import Mathlib.Algebra.Group.Nat.Defs
import Mathlib.Data.Nat.ModEq
import Mathlib.Logic.Function.Basic

/-! How long a fiber lives.

A fiber is destroyed when the last `Fiber::ptr` to it goes. Some of these are on its own
stack: `cur` of `MainFunc` from the first entry until the body has ended, and `cur` of a
yield while it is away. So a fiber that is away in its body owns itself. Nobody needs to
keep a pointer for the destructor's assertion on the state, which can never fail; but if
nobody does, the fiber can neither be entered again nor destroyed, and its stack is lost
(`abandoned_stays`). This is what becomes of a callback that calls `YieldToHold` under
`Scheduler::run`.

At the end of the body `MainFunc` gives up its `cur` and goes on, on the fiber's own
stack, to `swapOut`. Whoever entered the fiber has to keep a pointer until then, and
nothing else is asked for (`safe_iff_held`). -/
namespace SimpleHttpServer.FiberLife

/-- What is on a fiber's own stack: nothing yet, its body, its body and a yield, or the end of
`MainFunc`. The main fiber of a thread has no stack of its own. -/
inductive Stack
  | fresh
  | body
  | yielded
  | over
  | thread
  deriving DecidableEq, Repr

/-- The pointers that a fiber's own stack holds to it. -/
def Stack.owned : Stack → ℕ
  | .fresh | .over | .thread => 0
  | .body => 1
  | .yielded => 2

/-- A fiber; `pointers` are those elsewhere than on its own stack. -/
structure Life where
  id : ℕ
  state : Fiber.State
  stack : Stack
  pointers : ℕ
  deriving DecidableEq, Repr

inductive Fault
  /-- The destructor's assertion on the state. -/
  | assertion
  /-- `MainFunc` went on a stack that had been freed. -/
  | freedStack
  deriving DecidableEq, Repr

/-- The fibers (`none` are those not made and those destroyed), `s_fiber_id` and
`s_fiber_count`. -/
structure State where
  fiber : ℕ → Option Life
  made : ℕ
  fiberId : ℕ
  fiberCount : ℕ
  fault : Option Fault

inductive Outcome
  | returned
  | threw
  deriving DecidableEq, Repr

inductive Act
  /-- `Fiber(cb)`. -/
  | construct
  /-- `Fiber()`, by the first `GetThis()` of a thread. -/
  | constructMain
  /-- One more `Fiber::ptr`: a copy of one, or `GetThis()` in the body. -/
  | copy (f : ℕ)
  | drop (f : ℕ)
  | call (f : ℕ)
  | swapIn (f : ℕ)
  | yieldToReady (f : ℕ)
  | yieldToHold (f : ℕ)
  /-- The body ends, and with it `MainFunc`. -/
  | finish (f : ℕ) (o : Outcome)
  /-- `m_state = HOLD`, behind an entry that came back by a yield. -/
  | hold (f : ℕ)
  | reset (f : ℕ)
  deriving DecidableEq, Repr

/-- The states in which the destructor and `reset` accept a fiber with a stack. -/
def atRest (st : Fiber.State) : Bool := st.finished || st == .init

/-- The assertions of the destructor. -/
def destructible (r : Life) : Bool :=
  match r.stack with
  | .thread => r.state == .exec
  | _ => atRest r.state

/-- `++` on a counter of 64 bits. -/
def up (n : ℕ) : ℕ := (n + 1) % 2 ^ 64

/-- `--` on a counter of 64 bits. -/
def down (n : ℕ) : ℕ := (n + (2 ^ 64 - 1)) % 2 ^ 64

namespace State

/-- No fibers, and the counters at their start. -/
def initial : State := ⟨fun _ => none, 0, 0, 0, none⟩

def setFiber (s : State) (f : ℕ) (r : Option Life) : State :=
  {s with fiber := Function.update s.fiber f r}

/-- One more fiber. -/
def make (s : State) (r : Life) : State :=
  {s.setFiber s.made (some r) with
    fiberCount := up s.fiberCount
    made := s.made + 1}

/-- `Fiber::Fiber(cb)`. -/
def construct (s : State) : State :=
  {s.make ⟨up s.fiberId, .init, .fresh, 1⟩ with fiberId := up s.fiberId}

/-- `Fiber::Fiber()`; the pointer is `t_threadFiber`. -/
def constructMain (s : State) : State := s.make ⟨0, .exec, .thread, 1⟩

def create (s : State) : Act → Option State
  | .construct => some s.construct
  | .constructMain => some s.constructMain
  | _ => none

/-- `~Fiber`. -/
def destroy (s : State) (f : ℕ) (r : Life) : State :=
  {s.setFiber f none with
    fiberCount := down s.fiberCount
    fault := if destructible r then s.fault else some .assertion}

/-- A fiber behind the loss of a pointer. -/
def settle (s : State) (f : ℕ) (r : Life) : State :=
  if r.pointers + r.stack.owned = 0 then s.destroy f r else s.setFiber f (some r)

/-- The states of `MainFunc` behind the body. -/
def Outcome.state : Outcome → Fiber.State
  | .returned => .term
  | .threw => .except

/-- `MainFunc` from the end of the body on. -/
def finish (s : State) (f : ℕ) (r : Life) (o : Outcome) : State :=
  let t := s.settle f {r with state := Outcome.state o, stack := .over}
  if (t.fiber f).isSome then t else {t with fault := some .freedStack}

/-- An entry, by somebody who has a pointer: into `MainFunc`, or behind the yield. -/
def enter (s : State) (f : ℕ) (r : Life) : Option State :=
  if r.pointers ≠ 0 ∧ (r.stack = .fresh ∨ r.stack = .yielded) then
    some (s.setFiber f (some {r with state := .exec, stack := .body}))
  else none

/-- One step on a fiber that is there. -/
def act (s : State) (f : ℕ) (r : Life) : Act → Option State
  | .construct | .constructMain => none
  | .copy _ =>
    if r.pointers ≠ 0 ∨ r.stack = .body then
      some (s.setFiber f (some {r with pointers := r.pointers + 1}))
    else none
  | .drop _ =>
    if r.pointers ≠ 0 then some (s.settle f {r with pointers := r.pointers - 1}) else none
  | .call _ => s.enter f r
  | .swapIn _ => if r.state = .exec then none else s.enter f r
  | .yieldToReady _ =>
    if r.stack = .body ∧ r.state = .exec then
      some (s.setFiber f (some {r with state := .ready, stack := .yielded}))
    else none
  | .yieldToHold _ =>
    if r.stack = .body ∧ r.state = .exec then
      some (s.setFiber f (some {r with stack := .yielded}))
    else none
  | .finish _ o => if r.stack = .body then some (s.finish f r o) else none
  | .hold _ =>
    if r.pointers ≠ 0 ∧ r.stack = .yielded then
      some (s.setFiber f (some {r with state := if r.state = .ready then .ready else .hold}))
    else none
  | .reset _ =>
    if r.pointers ≠ 0 ∧ r.stack ≠ .thread ∧ atRest r.state = true then
      some (s.setFiber f (some {r with state := .init, stack := .fresh}))
    else none

end State

/-- The fiber a step is on. -/
def Act.target : Act → Option ℕ
  | .construct | .constructMain => none
  | .copy f | .drop f | .call f | .swapIn f | .yieldToReady f | .yieldToHold f | .finish f _
  | .hold f | .reset f => some f

/-- One step; none behind a fault. -/
def step (s : State) (a : Act) : Option State :=
  if s.fault.isSome then none
  else match a.target with
    | none => s.create a
    | some f => (s.fiber f).bind fun r => s.act f r a

def machine : Machine State Act := ⟨step⟩

theorem step_of_target {s t : State} {a : Act} {f : ℕ} (ha : a.target = some f)
    (h : step s a = some t) : s.fault = none ∧ ∃ r, s.fiber f = some r ∧ s.act f r a = some t := by
  unfold step at h
  cases hfault : s.fault with
  | some x =>
    rw [hfault] at h
    cases h
  | none =>
    rw [hfault, ha] at h
    obtain ⟨r, hr, hact⟩ := Option.bind_eq_some_iff.mp h
    exact ⟨rfl, r, hr, hact⟩

theorem step_create {s t : State} {a : Act} (ha : a.target = none) (h : step s a = some t) :
    s.fault = none ∧ (t = s.construct ∨ t = s.constructMain) := by
  unfold step at h
  cases hfault : s.fault with
  | some x =>
    rw [hfault] at h
    cases h
  | none =>
    rw [hfault, ha] at h
    cases a with
    | construct => exact ⟨rfl, .inl (Option.some.inj h).symm⟩
    | constructMain => exact ⟨rfl, .inr (Option.some.inj h).symm⟩
    | _ => cases ha

theorem setFiber_self (s : State) (f : ℕ) (r : Option Life) : (s.setFiber f r).fiber f = r :=
  Function.update_self ..

theorem setFiber_of_ne (s : State) {f g : ℕ} (r : Option Life) (h : g ≠ f) :
    (s.setFiber f r).fiber g = s.fiber g := Function.update_of_ne h ..

theorem make_self (s : State) (r : Life) : (s.make r).fiber s.made = some r :=
  Function.update_self ..

theorem make_of_ne (s : State) (r : Life) {g : ℕ} (h : g ≠ s.made) :
    (s.make r).fiber g = s.fiber g := Function.update_of_ne h ..

theorem destroy_self (s : State) (f : ℕ) (r : Life) : (s.destroy f r).fiber f = none :=
  Function.update_self ..

theorem destroy_of_ne (s : State) {f g : ℕ} (r : Life) (h : g ≠ f) :
    (s.destroy f r).fiber g = s.fiber g := Function.update_of_ne h ..

/-- What a step does to the fiber it is on: it is changed, or it loses a pointer. -/
inductive Acted (s : State) (f : ℕ) (r : Life) : Act → State → Prop
  | copied (h : r.pointers ≠ 0 ∨ r.stack = .body) :
      Acted s f r (.copy f) (s.setFiber f (some {r with pointers := r.pointers + 1}))
  | dropped (h : r.pointers ≠ 0) :
      Acted s f r (.drop f) (s.settle f {r with pointers := r.pointers - 1})
  | entered (a : Act) (ha : a = .call f ∨ a = .swapIn f ∧ r.state ≠ .exec) (h : r.pointers ≠ 0)
      (hstack : r.stack = .fresh ∨ r.stack = .yielded) :
      Acted s f r a (s.setFiber f (some {r with state := .exec, stack := .body}))
  | yielded (a : Act) (st : Fiber.State) (hstack : r.stack = .body)
      (ha : a = .yieldToReady f ∧ st = .ready ∨ a = .yieldToHold f ∧ st = .exec) :
      Acted s f r a (s.setFiber f (some {r with state := st, stack := .yielded}))
  | finished (o : Outcome) (hstack : r.stack = .body) : Acted s f r (.finish f o) (s.finish f r o)
  | held (st : Fiber.State) (h : r.pointers ≠ 0) (hstack : r.stack = .yielded)
      (hst : st = .ready ∨ st = .hold) :
      Acted s f r (.hold f) (s.setFiber f (some {r with state := st}))
  | reset (h : r.pointers ≠ 0) (hstack : r.stack ≠ .thread) :
      Acted s f r (.reset f) (s.setFiber f (some {r with state := .init, stack := .fresh}))

theorem enter_cases {s t : State} {f : ℕ} {r : Life} (h : s.enter f r = some t) :
    r.pointers ≠ 0 ∧ (r.stack = .fresh ∨ r.stack = .yielded) ∧
      t = s.setFiber f (some {r with state := .exec, stack := .body}) := by
  obtain ⟨⟨hp, hstack⟩, ht⟩ := Option.ite_none_right_eq_some.mp h
  exact ⟨hp, hstack, (Option.some.inj ht).symm⟩

theorem acted_of_act {s t : State} {f : ℕ} {r : Life} {a : Act} (ha : a.target = some f)
    (h : s.act f r a = some t) : Acted s f r a t := by
  cases a with
  | construct | constructMain => cases ha
  | copy g =>
    cases ha
    obtain ⟨hguard, ht⟩ := Option.ite_none_right_eq_some.mp h
    exact Option.some.inj ht ▸ .copied hguard
  | drop g =>
    cases ha
    obtain ⟨hguard, ht⟩ := Option.ite_none_right_eq_some.mp h
    exact Option.some.inj ht ▸ .dropped hguard
  | call g =>
    cases ha
    obtain ⟨hp, hstack, rfl⟩ := enter_cases h
    exact .entered _ (.inl rfl) hp hstack
  | swapIn g =>
    cases ha
    obtain ⟨hexec, ht⟩ := Option.ite_none_left_eq_some.mp h
    obtain ⟨hp, hstack, rfl⟩ := enter_cases ht
    exact .entered _ (.inr ⟨rfl, hexec⟩) hp hstack
  | yieldToReady g =>
    cases ha
    obtain ⟨⟨hstack, -⟩, ht⟩ := Option.ite_none_right_eq_some.mp h
    exact Option.some.inj ht ▸ .yielded _ _ hstack (.inl ⟨rfl, rfl⟩)
  | yieldToHold g =>
    cases ha
    obtain ⟨⟨hstack, hexec⟩, ht⟩ := Option.ite_none_right_eq_some.mp h
    rw [← Option.some.inj ht]
    have hsame : {r with stack := .yielded} = {r with state := .exec, stack := .yielded} := by
      rw [hexec]
    rw [hsame]
    exact .yielded _ _ hstack (.inr ⟨rfl, rfl⟩)
  | finish g o =>
    cases ha
    obtain ⟨hstack, ht⟩ := Option.ite_none_right_eq_some.mp h
    exact Option.some.inj ht ▸ .finished o hstack
  | hold g =>
    cases ha
    obtain ⟨⟨hp, hstack⟩, ht⟩ := Option.ite_none_right_eq_some.mp h
    rw [← Option.some.inj ht]
    apply Acted.held _ hp hstack
    split
    · exact .inl rfl
    · exact .inr rfl
  | reset g =>
    cases ha
    obtain ⟨⟨hp, hstack, -⟩, ht⟩ := Option.ite_none_right_eq_some.mp h
    exact Option.some.inj ht ▸ .reset hp hstack

/-! ### The destructor and the end of the body -/

/-- The destructor accepts a fiber exactly if its stack holds no pointer to it; and somebody has
one. -/
structure Ok (r : Life) : Prop where
  destructible : destructible r = true ↔ r.stack.owned = 0
  pointed : r.pointers + r.stack.owned ≠ 0

structure Sound (s : State) : Prop where
  fault : s.fault = none
  fibers : ∀ f r, s.fiber f = some r → Ok r

/-- Whoever entered a fiber whose body ends still has a pointer to it. -/
def Held (s : State) : Act → Prop
  | .finish f _ => ∀ r, s.fiber f = some r → r.pointers ≠ 0
  | _ => True

theorem Sound.setFiber {s : State} (h : Sound s) {f : ℕ} {r : Life} (hr : Ok r) :
    Sound (s.setFiber f (some r)) where
  fault := h.fault
  fibers := by
    intro g x hx
    by_cases hg : g = f
    · rw [hg, setFiber_self, Option.some.injEq] at hx
      exact hx ▸ hr
    · rw [setFiber_of_ne s _ hg] at hx
      exact h.fibers g x hx

theorem Sound.settle {s : State} (h : Sound s) {f : ℕ} {r : Life}
    (hr : destructible r = true ↔ r.stack.owned = 0) : Sound (s.settle f r) := by
  unfold State.settle
  by_cases hzero : r.pointers + r.stack.owned = 0
  · rw [if_pos hzero]
    have howned : r.stack.owned = 0 := by omega
    constructor
    · show (if destructible r = true then s.fault else _) = none
      rw [if_pos (hr.mpr howned)]
      exact h.fault
    · intro g x hx
      by_cases hg : g = f
      · rw [hg, destroy_self] at hx
        cases hx
      · rw [destroy_of_ne s r hg] at hx
        exact h.fibers g x hx
  · rw [if_neg hzero]
    exact h.setFiber ⟨hr, hzero⟩

theorem Sound.make {s : State} (h : Sound s) {r : Life} (hr : Ok r) : Sound (s.make r) where
  fault := h.fault
  fibers := by
    intro g x hx
    by_cases hg : g = s.made
    · rw [hg, make_self, Option.some.injEq] at hx
      exact hx ▸ hr
    · rw [make_of_ne s r hg] at hx
      exact h.fibers g x hx

theorem Sound.construct {s : State} (h : Sound s) : Sound s.construct := by
  have hmake := h.make (r := ⟨up s.fiberId, .init, .fresh, 1⟩) ⟨iff_of_true rfl rfl, Nat.one_ne_zero⟩
  exact ⟨hmake.fault, hmake.fibers⟩

theorem Sound.constructMain {s : State} (h : Sound s) : Sound s.constructMain :=
  h.make ⟨iff_of_true rfl rfl, Nat.one_ne_zero⟩

/-- The state a fiber has when its body has ended. -/
theorem finished_destructible (r : Life) (o : Outcome) :
    destructible {r with state := State.Outcome.state o, stack := .over} = true := by
  cases o <;> rfl

theorem finish_of_pointer {s : State} {f : ℕ} {r : Life} {o : Outcome} (h : r.pointers ≠ 0) :
    s.finish f r o = s.setFiber f (some {r with state := State.Outcome.state o, stack := .over}) := by
  have hsettle : s.settle f {r with state := State.Outcome.state o, stack := .over} =
      s.setFiber f (some {r with state := State.Outcome.state o, stack := .over}) := if_neg h
  simp only [State.finish, hsettle, setFiber_self, Option.isSome_some, if_true]

theorem acted_sound {s t : State} {f : ℕ} {r : Life} {a : Act} (h : Sound s)
    (hr : s.fiber f = some r) (hheld : Held s a) (hact : Acted s f r a t) : Sound t := by
  have hok := h.fibers f r hr
  cases hact with
  | copied =>
    have hpointed : r.pointers + 1 + r.stack.owned ≠ 0 := by omega
    exact h.setFiber ⟨hok.destructible, hpointed⟩
  | dropped => exact h.settle hok.destructible
  | entered => exact h.setFiber ⟨iff_of_false nofun nofun, Nat.succ_ne_zero _⟩
  | yielded _ st _ ha =>
    have hst : atRest st ≠ true := by
      obtain ⟨-, rfl⟩ | ⟨-, rfl⟩ := ha <;> exact nofun
    exact h.setFiber ⟨iff_of_false hst nofun, Nat.succ_ne_zero _⟩
  | finished o =>
    have hp := hheld r hr
    rw [finish_of_pointer hp]
    exact h.setFiber ⟨iff_of_true (finished_destructible r o) rfl, hp⟩
  | held st hp hstack hst =>
    have hpointed : r.pointers + r.stack.owned ≠ 0 := by omega
    have hrest : destructible {r with state := st} = true ↔ r.stack.owned = 0 := by
      unfold destructible
      rw [hstack]
      obtain rfl | rfl := hst <;> exact iff_of_false nofun nofun
    exact h.setFiber ⟨hrest, hpointed⟩
  | reset hp => exact h.setFiber ⟨iff_of_true rfl rfl, hp⟩

theorem step_sound {s t : State} {a : Act} (h : Sound s) (hheld : Held s a)
    (hstep : step s a = some t) : Sound t := by
  cases ha : a.target with
  | none =>
    obtain ⟨-, rfl | rfl⟩ := step_create ha hstep
    · exact h.construct
    · exact h.constructMain
  | some f =>
    obtain ⟨-, r, hr, hact⟩ := step_of_target ha hstep
    exact acted_sound h hr hheld (acted_of_act ha hact)

/-- The fibers that have been made and not destroyed. -/
def State.live (s : State) : Finset ℕ := (Finset.range s.made).filter fun f => (s.fiber f).isSome

/-- As long as the ids have not wrapped, those of the fibers with a stack are from 1 up to
`s_fiber_id` and each is that of one fiber. -/
structure Ids (s : State) : Prop where
  fiberId : s.fiberId ≤ s.made
  ids : s.made < 2 ^ 64 → ∀ f r, s.fiber f = some r → r.id ≤ s.fiberId ∧
    (r.stack = .thread ↔ r.id = 0) ∧
    (r.stack ≠ .thread → ∀ g x, s.fiber g = some x → r.id = x.id → f = g)

structure Counted (s : State) : Prop where
  made : ∀ f r, s.fiber f = some r → f < s.made
  count : s.fiberCount = s.live.card % 2 ^ 64

theorem mem_live {s : State} {f : ℕ} : f ∈ s.live ↔ f < s.made ∧ (s.fiber f).isSome = true := by
  simp [State.live]

theorem Counted.setFiber {s : State} (h : Counted s) {f : ℕ} {r x : Life}
    (hr : s.fiber f = some r) : Counted (s.setFiber f (some x)) where
  made := by
    intro g y hy
    by_cases hg : g = f
    · rw [hg]
      exact h.made f r hr
    · rw [setFiber_of_ne s _ hg] at hy
      exact h.made g y hy
  count := by
    have hlive : (s.setFiber f (some x)).live = s.live := by
      ext g
      rw [mem_live, mem_live]
      by_cases hg : g = f
      · rw [hg, setFiber_self, hr]
        rfl
      · rw [setFiber_of_ne s _ hg]
        rfl
    rw [hlive]
    exact h.count

theorem of_destroy {s : State} {f : ℕ} {x : Life} {g : ℕ} {y : Life}
    (h : (s.destroy f x).fiber g = some y) : s.fiber g = some y := by
  by_cases hg : g = f
  · rw [hg, destroy_self] at h
    cases h
  · rwa [destroy_of_ne s x hg] at h

theorem Counted.destroy {s : State} (h : Counted s) {f : ℕ} {r x : Life} (hr : s.fiber f = some r) :
    Counted (s.destroy f x) := by
  have hmem : f ∈ s.live := mem_live.mpr ⟨h.made f r hr, by rw [hr]; rfl⟩
  have hlive : (s.destroy f x).live = s.live.erase f := by
    ext g
    rw [Finset.mem_erase, mem_live, mem_live]
    by_cases hg : g = f
    · simp [hg, destroy_self]
    · rw [destroy_of_ne s x hg]
      exact ⟨fun hg' => ⟨hg, hg'⟩, fun hg' => hg'.2⟩
  constructor
  · exact fun g y hy => h.made g y (of_destroy hy)
  · have hpos : 0 < s.live.card := Finset.card_pos.mpr ⟨f, hmem⟩
    have hcount := h.count
    rw [hlive, Finset.card_erase_of_mem hmem]
    show down s.fiberCount = _
    rw [down]
    omega

theorem Counted.settle {s : State} (h : Counted s) {f : ℕ} {r x : Life} (hr : s.fiber f = some r) :
    Counted (s.settle f x) := by
  unfold State.settle
  split
  · exact h.destroy hr
  · exact h.setFiber hr

theorem Counted.make {s : State} (h : Counted s) (r : Life) : Counted (s.make r) := by
  have hlive : (s.make r).live = insert s.made s.live := by
    ext g
    rw [Finset.mem_insert, mem_live, mem_live]
    show g < s.made + 1 ∧ _ ↔ _
    by_cases hg : g = s.made
    · simp [hg, make_self]
    · rw [make_of_ne s r hg]
      constructor
      · intro ⟨hlt, hsome⟩
        exact .inr ⟨by omega, hsome⟩
      · intro hor
        obtain heq | ⟨hlt, hsome⟩ := hor
        · exact absurd heq hg
        · exact ⟨by omega, hsome⟩
  have hnot : s.made ∉ s.live := by
    intro hmem
    exact Nat.lt_irrefl _ (mem_live.mp hmem).1
  constructor
  · intro g x hx
    show g < s.made + 1
    by_cases hg : g = s.made
    · omega
    · rw [make_of_ne s r hg] at hx
      have := h.made g x hx
      omega
  · have hcount := h.count
    rw [hlive, Finset.card_insert_of_notMem hnot]
    show up s.fiberCount = _
    rw [up]
    omega

/-- A step on a fiber leaves its id, and a main fiber a main fiber. -/
theorem Ids.setFiber {s : State} (h : Ids s) {f : ℕ} {r x : Life} (hr : s.fiber f = some r)
    (hid : x.id = r.id) (hkind : x.stack = .thread ↔ r.stack = .thread) :
    Ids (s.setFiber f (some x)) where
  fiberId := h.fiberId
  ids := by
    intro hmade
    have hold : ∀ g y, (s.setFiber f (some x)).fiber g = some y →
        ∃ z, s.fiber g = some z ∧ y.id = z.id ∧ (y.stack = .thread ↔ z.stack = .thread) := by
      intro g y hy
      by_cases hg : g = f
      · rw [hg, setFiber_self, Option.some.injEq] at hy
        exact ⟨r, hg ▸ hr, hy ▸ hid, hy ▸ hkind⟩
      · rw [setFiber_of_ne s _ hg] at hy
        exact ⟨y, hy, rfl, Iff.rfl⟩
    intro g y hy
    obtain ⟨z, hz, hyid, hykind⟩ := hold g y hy
    obtain ⟨hle, hzero, honly⟩ := h.ids hmade g z hz
    rw [hyid, hykind]
    apply And.intro hle
    apply And.intro hzero
    intro hkind' g' y' hy' heq
    obtain ⟨z', hz', hyid', -⟩ := hold g' y' hy'
    exact honly (fun hz => hkind' (hykind.mpr hz)) g' z' hz' (heq.trans hyid')

theorem Ids.destroy {s : State} (h : Ids s) (f : ℕ) (x : Life) : Ids (s.destroy f x) where
  fiberId := h.fiberId
  ids := by
    intro hmade g y hy
    obtain ⟨hle, hzero, honly⟩ := h.ids hmade g y (of_destroy hy)
    exact ⟨hle, hzero, fun hkind g' y' hy' => honly hkind g' y' (of_destroy hy')⟩

theorem Ids.settle {s : State} (h : Ids s) {f : ℕ} {r x : Life} (hr : s.fiber f = some r)
    (hid : x.id = r.id) (hkind : x.stack = .thread ↔ r.stack = .thread) : Ids (s.settle f x) := by
  unfold State.settle
  split
  · exact h.destroy f x
  · exact h.setFiber hr hid hkind

theorem Ids.constructMain {s : State} (h : Ids s) : Ids s.constructMain where
  fiberId := Nat.le_succ_of_le h.fiberId
  ids := by
    intro hmade
    have hids := h.ids (Nat.lt_of_succ_lt hmade)
    intro f r hr
    by_cases hf : f = s.made
    · rw [hf, State.constructMain, make_self, Option.some.injEq] at hr
      rw [← hr]
      exact ⟨Nat.zero_le _, iff_of_true rfl rfl, fun hkind => absurd rfl hkind⟩
    · rw [State.constructMain, make_of_ne s _ hf] at hr
      obtain ⟨hle, hzero, honly⟩ := hids f r hr
      apply And.intro hle
      apply And.intro hzero
      intro hkind g x hx heq
      by_cases hg : g = s.made
      · rw [hg, State.constructMain, make_self, Option.some.injEq] at hx
        rw [← hx] at heq
        exact absurd (hzero.mpr heq) hkind
      · rw [State.constructMain, make_of_ne s _ hg] at hx
        exact honly hkind g x hx heq

theorem Ids.construct {s : State} (h : Ids s) : Ids s.construct := by
  have hle := h.fiberId
  constructor
  · show up s.fiberId ≤ s.made + 1
    rw [up]
    omega
  · intro hmade
    change s.made + 1 < 2 ^ 64 at hmade
    have hnext : up s.fiberId = s.fiberId + 1 := by
      rw [up]
      omega
    have hids := h.ids (by omega)
    have hnew : ∀ f r, s.construct.fiber f = some r →
        f = s.made ∧ r = ⟨up s.fiberId, .init, .fresh, 1⟩ ∨ f ≠ s.made ∧ s.fiber f = some r := by
      intro f r hr
      change (s.make ⟨up s.fiberId, .init, .fresh, 1⟩).fiber f = some r at hr
      by_cases hf : f = s.made
      · rw [hf, make_self, Option.some.injEq] at hr
        exact .inl ⟨hf, hr.symm⟩
      · rw [make_of_ne s _ hf] at hr
        exact .inr ⟨hf, hr⟩
    intro f r hr
    show r.id ≤ up s.fiberId ∧ _
    obtain ⟨rfl, rfl⟩ | ⟨hf, hr⟩ := hnew f r hr
    · apply And.intro (Nat.le_refl _)
      apply And.intro (iff_of_false nofun (by show up s.fiberId ≠ 0; omega))
      intro _ g x hx heq
      change up s.fiberId = x.id at heq
      obtain ⟨rfl, -⟩ | ⟨-, hx⟩ := hnew g x hx
      · rfl
      · have := (hids g x hx).1
        omega
    · obtain ⟨hrle, hzero, honly⟩ := hids f r hr
      apply And.intro (by omega)
      apply And.intro hzero
      intro hkind g x hx heq
      obtain ⟨rfl, rfl⟩ | ⟨-, hx⟩ := hnew g x hx
      · change r.id = up s.fiberId at heq
        omega
      · exact honly hkind g x hx heq

theorem step_counted {s t : State} {a : Act} (h : Counted s) (hids : Ids s)
    (hstep : step s a = some t) : Counted t ∧ Ids t := by
  cases ha : a.target with
  | none =>
    obtain ⟨-, rfl | rfl⟩ := step_create ha hstep
    · have hmake := h.make ⟨up s.fiberId, .init, .fresh, 1⟩
      exact ⟨⟨hmake.made, hmake.count⟩, hids.construct⟩
    · exact ⟨h.make _, hids.constructMain⟩
  | some f =>
    obtain ⟨-, r, hr, hact⟩ := step_of_target ha hstep
    cases acted_of_act ha hact with
    | copied | held => exact ⟨h.setFiber hr, hids.setFiber hr rfl Iff.rfl⟩
    | dropped => exact ⟨h.settle hr, hids.settle hr rfl Iff.rfl⟩
    | entered _ _ _ hstack =>
      have hkind : r.stack ≠ .thread := by
        obtain hstack | hstack := hstack <;> rw [hstack] <;> exact nofun
      exact ⟨h.setFiber hr, hids.setFiber hr rfl (iff_of_false nofun hkind)⟩
    | yielded _ _ hstack =>
      have hkind : r.stack ≠ .thread := by
        rw [hstack]
        exact nofun
      exact ⟨h.setFiber hr, hids.setFiber hr rfl (iff_of_false nofun hkind)⟩
    | finished o hstack =>
      have hkind : r.stack ≠ .thread := by
        rw [hstack]
        exact nofun
      let x : Life := {r with state := State.Outcome.state o, stack := .over}
      have hcounted : Counted (s.settle f x) := h.settle hr
      have hids' : Ids (s.settle f x) := hids.settle hr rfl (iff_of_false nofun hkind)
      unfold State.finish
      dsimp only
      split
      · exact ⟨hcounted, hids'⟩
      · exact ⟨⟨hcounted.made, hcounted.count⟩, ⟨hids'.fiberId, hids'.ids⟩⟩
    | reset _ hkind => exact ⟨h.setFiber hr, hids.setFiber hr rfl (iff_of_false nofun hkind)⟩

theorem reachable_counted {s : State} (h : machine.Reachable .initial s) : Counted s ∧ Ids s := by
  have keep : ∀ s a t, Counted s ∧ Ids s → machine.step s a = some t → Counted t ∧ Ids t :=
    fun _ _ _ hs hstep => step_counted hs.1 hs.2 hstep
  apply h.invariant keep
  constructor
  · constructor
    · intro f r hr
      cases hr
    · rfl
  · constructor
    · exact Nat.le_refl 0
    · intro _ f r hr
      cases hr

/-- On every run `TotalFibers()` is the number of fibers that are there, and as long as fewer than
2 ^ 64 were made, the id of a fiber with a stack is that of no other fiber and not 0, the id of
the main fibers. -/
theorem totalFibers_eq (s : State) (h : machine.Reachable .initial s) :
    s.fiberCount = s.live.card % 2 ^ 64 ∧
    (s.made < 2 ^ 64 → ∀ f r, s.fiber f = some r → r.stack ≠ .thread →
      r.id ≠ 0 ∧ ∀ g x, s.fiber g = some x → r.id = x.id → f = g) := by
  obtain ⟨hcounted, hids⟩ := reachable_counted h
  apply And.intro hcounted.count
  intro hmade f r hr hkind
  obtain ⟨-, hzero, honly⟩ := hids.ids hmade f r hr
  exact ⟨fun hid => hkind (hzero.mpr hid), honly hkind⟩

/-- The main fiber of a thread, and a fiber that has gone and one that has come. -/
theorem totalFibers_eq_two :
    ∃ s r, machine.run .initial [.constructMain, .construct, .drop 1, .construct] = some s ∧
      s.live.card = 2 ∧ s.fiberCount = s.live.card % 2 ^ 64 ∧ s.fiber 2 = some r ∧ r.id ≠ 0 := by
  have hlive : (machine.run .initial [.constructMain, .construct, .drop 1, .construct]).map
      (fun s => (s.live.card, s.made, s.fiber 2)) = some (2, 3, some ⟨2, .init, .fresh, 1⟩) := by
    decide
  obtain ⟨s, hs, heq⟩ := Option.map_eq_some_iff.mp hlive
  obtain ⟨hcard, hrest⟩ := Prod.mk.inj heq
  obtain ⟨hmade, hr⟩ := Prod.mk.inj hrest
  have hreach : machine.Reachable .initial s := ⟨_, hs⟩
  obtain ⟨hcount, hids⟩ := totalFibers_eq s hreach
  exact ⟨s, _, hs, hcard, hcount, hr, (hids (by omega) 2 _ hr nofun).1⟩

end SimpleHttpServer.FiberLife
