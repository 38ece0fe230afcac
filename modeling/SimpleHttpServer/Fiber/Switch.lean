import SimpleHttpServer.Lib.Machine
import SimpleHttpServer.Scheduler.Fiber
import Mathlib.Logic.Function.Basic

/-! One thread, its fibers, and the switches between them.

A switch (`swapcontext`) saves where the running code is into one fiber's `m_ctx`
and goes on at what another's holds. Which two they are is what `call`, `back`,
`swapIn` and `swapOut` differ in, and the two slots that are shared, those of the
thread's main fiber and of its scheduler fiber, are overwritten by each entry.

Switches are numbered, so a saved context is the number of the switch it resumes
behind. The code of the main fiber, of the scheduler fiber and of the bodies is
left open: whatever it does is an action of the run. -/
namespace SimpleHttpServer

namespace FiberThread

/-- How a fiber came about: `Fiber()`, or the constructor with or without `use_caller`. -/
inductive Kind
  | main
  | caller
  | plain
  deriving DecidableEq

/-- The functions that `makecontext` is given. -/
inductive EntryFunc
  | mainFunc
  | callerMainFunc
  deriving DecidableEq

/-- What a switch to `m_ctx` resumes. -/
inductive Context
  /-- The constructor of a main fiber, behind its `getcontext`. -/
  | constructor
  | entry (fn : EntryFunc)
  /-- Directly behind the switch with this number. -/
  | after (k : ℕ)
  deriving DecidableEq

/-- What a switch is made by. -/
inductive How
  | call
  | swapIn
  | yield
  /-- The last switch of `MainFunc` or `CallerMainFunc`, with the assertion "never reach" behind. -/
  | finish
  deriving DecidableEq

/-- A switch: the fiber whose stack it was made on, and what made it. -/
structure Switch where
  stack : ℕ
  how : How
  deriving DecidableEq

/-- A `Fiber` of the thread. -/
structure Member (κ : Type) where
  state : Fiber.State
  cb : Option κ
  ctx : Context
  kind : Kind

/-- A fiber that has yielded or ended: the switch that had entered it and the fiber that made that
switch; where control went, and what `t_fiber` was then. -/
structure Return where
  fiber : ℕ
  entered : Option (ℕ × ℕ)
  resumed : Option Context
  this : Option ℕ
  deriving DecidableEq

/-- Control is behind the switch that entered the fiber, and `GetThis()` is who made it. -/
def Return.Right (r : Return) : Prop :=
  ∃ k g, r.entered = some (k, g) ∧ r.resumed = some (.after k) ∧ r.this = some g

instance : DecidablePred Return.Right := fun r =>
  match h : r.entered with
  | none => isFalse fun ⟨_, _, h', _⟩ => by
      rw [h] at h'
      cases h'
  | some (k, g) => decidable_of_iff (r.resumed = some (.after k) ∧ r.this = some g) (by
      constructor
      · intro h'
        exact ⟨k, g, h, h'⟩
      · intro ⟨k', g', he, h'⟩
        rw [h] at he
        cases he
        exact h')

end FiberThread

open FiberThread in
/-- A thread: its three thread-local variables, its fibers, and where it is. -/
structure FiberThread (κ : Type) where
  tFiber : Option ℕ
  threadFiber : Option ℕ
  schedulerFiber : Option ℕ
  made : ℕ
  fiber : ℕ → Member κ
  /-- The entry function at the bottom of a fiber's stack, with its `cur`. -/
  frame : ℕ → Option (EntryFunc × ℕ)
  switches : List Switch
  /-- Whose stack the thread is on. -/
  running : ℕ
  /-- The context resumed last. -/
  resumed : Option Context
  /-- The switch that entered a fiber last, and the fiber that made it. -/
  entered : ℕ → Option (ℕ × ℕ)
  returns : List Return

namespace FiberThread
variable {κ : Type}

def setFiber (s : FiberThread κ) (f : ℕ) (r : Member κ) : FiberThread κ :=
  {s with fiber := Function.update s.fiber f r}

@[simp] theorem setFiber_self (s : FiberThread κ) (f : ℕ) (r : Member κ) :
    (s.setFiber f r).fiber f = r := Function.update_self ..

/-- A thread that has not touched fibers. -/
def unborn : FiberThread κ where
  tFiber := none
  threadFiber := none
  schedulerFiber := none
  made := 0
  fiber _ := ⟨.init, none, .constructor, .plain⟩
  frame _ := none
  switches := []
  running := 0
  resumed := none
  entered _ := none
  returns := []

/-- `GetThis`: a thread without a current fiber gets a main fiber. -/
def getThis (s : FiberThread κ) : FiberThread κ :=
  match s.tFiber with
  | some _ => s
  | none =>
    {s.setFiber s.made ⟨.exec, none, .constructor, .main⟩ with
      made := s.made + 1
      tFiber := some s.made
      threadFiber := some s.made}

/-- `Fiber::Fiber(cb, stack_size, use_caller)`. -/
def construct (useCaller : Bool) (cb : κ) (s : FiberThread κ) : FiberThread κ :=
  {s.setFiber s.made ⟨.init, some cb, .entry (if useCaller then .callerMainFunc else .mainFunc),
    if useCaller then .caller else .plain⟩ with made := s.made + 1}

/-- `reset`; a main fiber has no stack. -/
def reset (f : ℕ) (cb : κ) (s : FiberThread κ) : Option (FiberThread κ) :=
  let r := s.fiber f
  if r.kind ≠ .main ∧ (r.state = .term ∨ r.state = .except ∨ r.state = .init) then
    some (s.setFiber f {r with cb := some cb, ctx := .entry .mainFunc, state := .init})
  else none

/-- `swapcontext(&save->m_ctx, &target->m_ctx)`. An entry function starts with `GetThis()`. -/
def swapcontext (how : How) (save target : ℕ) (s : FiberThread κ) : FiberThread κ :=
  let s : FiberThread κ := {s.setFiber save {s.fiber save with ctx := .after s.switches.length} with
    switches := s.switches ++ [Switch.mk s.running how]}
  let s : FiberThread κ := {s with resumed := some (s.fiber target).ctx}
  match (s.fiber target).ctx with
  | .constructor => s
  | .entry fn =>
    {s with
      running := target
      frame := Function.update s.frame target (s.tFiber.map fun cur => (fn, cur))}
  | .after k => {s with running := (s.switches[k]?.map Switch.stack).getD s.running}

/-- `SetThis(f)` and `m_state = EXEC`, with a note of who enters `f`. -/
def enter (f : ℕ) (s : FiberThread κ) : FiberThread κ :=
  {s.setFiber f {s.fiber f with state := .exec} with
    tFiber := some f
    entered := Function.update s.entered f (some (s.switches.length, s.running))}

def call (f : ℕ) (s : FiberThread κ) : Option (FiberThread κ) :=
  s.threadFiber.map fun main => (s.enter f).swapcontext .call main f

/-- `swapIn`: refused where its assertion fails, and without a scheduler fiber to save into. -/
def swapIn (f : ℕ) (s : FiberThread κ) : Option (FiberThread κ) :=
  if (s.fiber f).state = .exec then none
  else s.schedulerFiber.map fun main => (s.enter f).swapcontext .swapIn main f

def back (how : How) (f : ℕ) (s : FiberThread κ) : Option (FiberThread κ) :=
  s.threadFiber.map fun main => {s with tFiber := some main}.swapcontext how f main

def swapOut (how : How) (f : ℕ) (s : FiberThread κ) : Option (FiberThread κ) :=
  s.schedulerFiber.map fun main => {s with tFiber := some main}.swapcontext how f main

/-- `YieldToReady` and `YieldToHold`, which sets no state. -/
inductive Yield
  | ready
  | hold
  deriving DecidableEq

def yieldTo (y : Yield) (s : FiberThread κ) : Option (FiberThread κ) :=
  s.tFiber.bind fun cur =>
    if (s.fiber cur).state = .exec then
      match y with
      | .ready => (s.setFiber cur {s.fiber cur with state := .ready}).swapOut .yield cur
      | .hold => s.swapOut .yield cur
    else none

/-- How a body ends. -/
inductive Outcome
  | returned
  | threw
  deriving DecidableEq

/-- What `MainFunc` and `CallerMainFunc` do once the body is over. -/
def ended (o : Outcome) (r : Member κ) : Member κ :=
  match o with
  | .returned => {r with cb := none, state := .term}
  | .threw => {r with state := .except}

/-- The rest of the entry function, which goes by the `cur` it has taken at its start. -/
def finish (o : Outcome) (s : FiberThread κ) : Option (FiberThread κ) :=
  match s.frame s.running with
  | none => none
  | some (.mainFunc, cur) => (s.setFiber cur (ended o (s.fiber cur))).swapOut .finish cur
  | some (.callerMainFunc, cur) => (s.setFiber cur (ended o (s.fiber cur))).back .finish cur

/-- What `Scheduler::run` writes behind a `swapIn`. -/
def hold (f : ℕ) (s : FiberThread κ) : FiberThread κ :=
  let r := s.fiber f
  if r.state = .ready ∨ r.state = .term ∨ r.state = .except then s
  else s.setFiber f {r with state := .hold}

/-- A yield or an end, noted with what it led to. -/
def noted (s : FiberThread κ) (t : FiberThread κ) : FiberThread κ :=
  {t with returns := t.returns ++ [⟨s.running, s.entered s.running, t.resumed, t.tFiber⟩]}

/-- The thread is at an assertion "never reach", or in a constructor that is over. -/
def halted (s : FiberThread κ) : Bool :=
  match s.resumed with
  | some (.after k) => s.switches[k]?.map Switch.how == some .finish
  | some .constructor => true
  | _ => false

/-- What the running code does. -/
inductive Act (κ : Type)
  | construct (useCaller : Bool) (cb : κ)
  | reset (f : ℕ) (cb : κ)
  | call (f : ℕ)
  | swapIn (f : ℕ)
  | yieldTo (y : Yield)
  | finish (o : Outcome)
  | hold (f : ℕ)

/-- The fiber an action is given exists. -/
def Act.given (made : ℕ) : Act κ → Bool
  | .reset f _ | .call f | .swapIn f | .hold f => f < made
  | _ => true

def perform (s : FiberThread κ) : Act κ → Option (FiberThread κ)
  | .construct useCaller cb => some (s.construct useCaller cb)
  | .reset f cb => s.reset f cb
  | .call f => s.call f
  | .swapIn f => s.swapIn f
  | .yieldTo y => (s.yieldTo y).map (noted s)
  | .finish o => (s.finish o).map (noted s)
  | .hold f => some (s.hold f)

def step (s : FiberThread κ) (a : Act κ) : Option (FiberThread κ) :=
  if s.halted || !a.given s.made then none else s.perform a

theorem perform_of_step {s t : FiberThread κ} {a : Act κ} (h : s.step a = some t) :
    s.halted = false ∧ a.given s.made = true ∧ s.perform a = some t := by
  unfold step at h
  split at h
  · cases h
  · next hnot =>
    simp only [Bool.or_eq_true, Bool.not_eq_true', not_or, Bool.not_eq_true,
      Bool.not_eq_false] at hnot
    exact ⟨hnot.1, hnot.2, h⟩

def machine (κ : Type) : Machine (FiberThread κ) (Act κ) := ⟨step⟩

/-! ### What a switch does -/

theorem swapcontext_tFiber (how : How) (save target : ℕ) (s : FiberThread κ) :
    (s.swapcontext how save target).tFiber = s.tFiber := by
  unfold swapcontext
  dsimp only
  split <;> rfl

theorem swapcontext_returns (how : How) (save target : ℕ) (s : FiberThread κ) :
    (s.swapcontext how save target).returns = s.returns := by
  unfold swapcontext
  dsimp only
  split <;> rfl

theorem swapOut_returns {s t : FiberThread κ} {how : How} {f : ℕ} (h : s.swapOut how f = some t) :
    t.returns = s.returns := by
  obtain ⟨c, _, rfl⟩ := Option.map_eq_some_iff.mp h
  exact swapcontext_returns ..

theorem back_returns {s t : FiberThread κ} {how : How} {f : ℕ} (h : s.back how f = some t) :
    t.returns = s.returns := by
  obtain ⟨m, _, rfl⟩ := Option.map_eq_some_iff.mp h
  exact swapcontext_returns ..

/-- The thread with its own place saved and the switch noted. -/
def saved (how : How) (save : ℕ) (s : FiberThread κ) : FiberThread κ :=
  {s.setFiber save {s.fiber save with ctx := .after s.switches.length} with
    switches := s.switches ++ [⟨s.running, how⟩]}

/-- A switch to a fiber that has not run yet. -/
theorem swapcontext_entry {how : How} {save target : ℕ} {s : FiberThread κ} {fn : EntryFunc}
    {cur : ℕ} (hctx : (s.fiber target).ctx = .entry fn) (hne : target ≠ save)
    (hthis : s.tFiber = some cur) :
    s.swapcontext how save target =
      {s.saved how save with
        resumed := some (.entry fn)
        running := target
        frame := Function.update s.frame target (some (fn, cur))} := by
  have hkept : (Function.update s.fiber save
      {s.fiber save with ctx := .after s.switches.length}) target = s.fiber target :=
    Function.update_of_ne hne ..
  simp only [swapcontext, setFiber, saved, hkept, hctx, hthis, Option.map_some]

/-- A switch to a place behind an earlier switch. -/
theorem swapcontext_after {how : How} {save target : ℕ} {s : FiberThread κ} {k : ℕ} {w : Switch}
    (hctx : (s.fiber target).ctx = .after k) (hne : target ≠ save)
    (hk : s.switches[k]? = some w) :
    s.swapcontext how save target =
      {s.saved how save with resumed := some (.after k), running := w.stack} := by
  have hkept : (Function.update s.fiber save
      {s.fiber save with ctx := .after s.switches.length}) target = s.fiber target :=
    Function.update_of_ne hne ..
  have hlen : k < s.switches.length := (List.getElem?_eq_some_iff.mp hk).1
  have happend : (s.switches ++ [⟨s.running, how⟩])[k]? = some w :=
    (List.getElem?_append_left hlen).trans hk
  simp only [swapcontext, setFiber, saved, hkept, hctx, happend, Option.map_some, Option.getD_some]

theorem enter_fiber (s : FiberThread κ) (f : ℕ) :
    (s.enter f).fiber f = {s.fiber f with state := .exec} := Function.update_self ..

theorem enter_of_ne {s : FiberThread κ} {f g : ℕ} (h : g ≠ f) :
    (s.enter f).fiber g = s.fiber g := Function.update_of_ne h ..

theorem swapOut_eq {s : FiberThread κ} {c : ℕ} (h : s.schedulerFiber = some c) (how : How)
    (f : ℕ) : s.swapOut how f = some ({s with tFiber := some c}.swapcontext how f c) := by
  unfold swapOut
  simp only [h, Option.map_some]

theorem back_eq {s : FiberThread κ} {m : ℕ} (h : s.threadFiber = some m) (how : How) (f : ℕ) :
    s.back how f = some ({s with tFiber := some m}.swapcontext how f m) := by
  unfold back
  simp only [h, Option.map_some]

/-- Switches that have been made stay as they are. -/
theorem getElem?_saved (how : How) (save : ℕ) {k : ℕ} {s : FiberThread κ} {w : Switch}
    (hk : s.switches[k]? = some w) : (s.saved how save).switches[k]? = some w :=
  (List.getElem?_append_left (List.getElem?_eq_some_iff.mp hk).1).trans hk

theorem getElem?_saved_last (how : How) (save : ℕ) {s : FiberThread κ} :
    (s.saved how save).switches[s.switches.length]? = some ⟨s.running, how⟩ :=
  List.getElem?_concat_length

theorem saved_fiber {how : How} {save : ℕ} {s : FiberThread κ} :
    (s.saved how save).fiber save = {s.fiber save with ctx := .after s.switches.length} :=
  Function.update_self ..

theorem saved_of_ne {how : How} {save f : ℕ} {s : FiberThread κ} (h : f ≠ save) :
    (s.saved how save).fiber f = s.fiber f := Function.update_of_ne h ..

/-! ### Threads to start from -/

/-- A thread that has called `Fiber::GetThis()`. -/
def mainThread : FiberThread κ := unborn.getThis

/-- `Scheduler::run` on a thread of its own: the main fiber is the scheduler fiber. -/
def workerThread : FiberThread κ :=
  let s : FiberThread κ := mainThread
  {s with schedulerFiber := s.tFiber}

/-- `Scheduler::Scheduler` with `use_caller`: the scheduler fiber is a fiber of its own. -/
def callerThread (run : κ) : FiberThread κ :=
  let s : FiberThread κ := mainThread
  {s.construct true run with schedulerFiber := some s.made}

end FiberThread
end SimpleHttpServer
