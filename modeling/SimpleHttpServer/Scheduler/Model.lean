import SimpleHttpServer.Lib.Machine
import SimpleHttpServer.Scheduler.Fiber
import Mathlib.Data.Multiset.Basic
import Mathlib.Data.Fintype.Basic

/-! `Scheduler` as a machine.

The workers are the threads that execute `Scheduler::run`, named by `ι`: the
threads of the pool, and the caller's own thread when the scheduler was built
with `use_caller` (`root`). A state is what they share — the queue, the
counters, the flags, the fibers — and for each worker the point of the loop it
has reached. An action is one atomic step of one thread: the locked scan of
the queue, a read or a write of a fiber's state, a switch, a locked push. A
task's body is not fixed: whatever a body may do next is an action, so the runs
of the machine are the runs of every set of tasks. -/
namespace SimpleHttpServer.Scheduler

/-- What a queue entry asks to be run: a fiber by its number, or a callback. -/
inductive Task (κ : Type)
  | fiber (f : ℕ)
  | cb (c : κ)
  deriving DecidableEq, Repr

/-- `FiberAndThread`; `none` is the thread id −1. -/
structure FiberAndThread (ι κ : Type) where
  task : Task κ
  thread : Option ι
  deriving DecidableEq, Repr

/-- The local variable of `run` a fiber is reached through. -/
inductive Slot
  | ft
  | cbFiber
  deriving DecidableEq, Repr

/-- Where a worker stands in `Scheduler::run`. -/
inductive Pc (κ : Type)
  /-- The caller's own thread before `m_rootFiber->call()`. -/
  | unborn
  /-- At the head of the loop. -/
  | top
  /-- Holds an entry it has taken; the counter is raised. -/
  | popped (t : Task κ)
  /-- About to call `swapIn`. -/
  | enter (f : ℕ) (slot : Slot)
  /-- Inside the fiber's body. -/
  | running (f : ℕ) (slot : Slot)
  /-- Inside the fiber's `swapOut`, which has not saved the context yet. -/
  | leaving (f : ℕ) (slot : Slot) (ctx : Fiber.Context)
  /-- Back from `swapIn`, before `--m_activeThreadCount`. -/
  | back (f : ℕ) (slot : Slot)
  /-- Before the test for `READY`. -/
  | after (f : ℕ) (slot : Slot)
  /-- Found `READY`: about to schedule the fiber again. -/
  | put (f : ℕ) (slot : Slot)
  /-- Not `READY`: before the test for `TERM` and `EXCEPT`. -/
  | settle (f : ℕ) (slot : Slot)
  /-- About to write `HOLD`. -/
  | hold (f : ℕ) (slot : Slot)
  /-- About to call `cb_fiber->reset(nullptr)`. -/
  | wipe (f : ℕ)
  /-- Took an entry it will not run: before the `continue` of the last branch. -/
  | skip
  /-- Took nothing. -/
  | nothing
  /-- Inside the idle fiber, before its next `stopping()`. -/
  | idling
  /-- Behind the loop. -/
  | done
  deriving DecidableEq, Repr

/-- `run` has returned. -/
def Pc.isDone {κ : Type} : Pc κ → Bool
  | .done => true
  | _ => false

/-- On the caller's thread: `m_rootFiber` is in state `INIT` or `TERM`. -/
def Pc.atRest {κ : Type} : Pc κ → Bool
  | .unborn | .done => true
  | _ => false

/-- The local variables of one `run`. -/
structure Worker (κ : Type) where
  pc : Pc κ
  cbFiber : Option ℕ
  idle : Fiber.State
  deriving DecidableEq, Repr

/-- Where the thread that calls `stop()` stands in it. -/
inductive Caller
  /-- Before the call. -/
  | serving
  /-- `m_autoStop` is set. -/
  | begun
  /-- In the early branch, before its `stopping()`. -/
  | early
  /-- Before `m_stopping = true`. -/
  | flag
  /-- Behind the tickles, before the root fiber's branch. -/
  | tickled
  /-- Inside `m_rootFiber->call()`. -/
  | inRoot
  /-- Joining the pool's threads. -/
  | joining
  | returned
  deriving DecidableEq, Repr

/-- `scheduled` and `ended` are history: the callbacks handed to `schedule` so
far, and those whose body has returned or thrown. -/
structure State (ι κ : Type) where
  fibers : List (FiberAndThread ι κ)
  activeThreadCount : ℤ
  isStopping : Bool
  autoStop : Bool
  made : ℕ
  fiber : ℕ → Fiber κ
  worker : ι → Worker κ
  caller : Caller
  scheduled : Multiset κ
  ended : Multiset κ

/-- What any thread, and any body, may ask for. -/
inductive Call (ι κ : Type)
  /-- `Fiber::ptr(new Fiber(cb))`. -/
  | make (c : κ)
  /-- `schedule(fc, thread)`. -/
  | schedule (t : Task κ) (thread : Option ι)
  deriving DecidableEq, Repr

/-- What a body may do next. -/
inductive Body (ι κ : Type)
  | call (c : Call ι κ)
  | yieldToReady
  | yieldToHold
  | return
  | throw
  deriving DecidableEq, Repr

inductive Action (ι κ : Type)
  /-- The next step of `run` on this worker. -/
  | work (w : ι)
  /-- The next step of the body this worker is inside. -/
  | body (w : ι) (b : Body ι κ)
  /-- A thread that is no worker. -/
  | outside (c : Call ι κ)
  /-- The next step of `stop()`. -/
  | stop
  deriving DecidableEq, Repr

namespace State
variable {ι κ : Type}

def setFiber (s : State ι κ) (f : ℕ) (r : Fiber κ) : State ι κ :=
  {s with fiber := Function.update s.fiber f r}

/-- `scheduleNoLock` under the lock. -/
def push (s : State ι κ) (e : FiberAndThread ι κ) : State ι κ :=
  {s with
    fibers := s.fibers ++ [e]
    scheduled := match e.task with
      | .fiber _ => s.scheduled
      | .cb c => c ::ₘ s.scheduled}

/-- A fiber can be named once it has been made. -/
def call (s : State ι κ) : Call ι κ → Option (State ι κ)
  | .make c => some ({s with made := s.made + 1}.setFiber s.made (.new c))
  | .schedule (.fiber f) thread =>
    if f < s.made then some (s.push ⟨.fiber f, thread⟩) else none
  | .schedule (.cb c) thread => some (s.push ⟨.cb c, thread⟩)

/-- The body of `f` has come to its end. -/
def finish (s : State ι κ) (f : ℕ) : State ι κ :=
  {s with ended := match (s.fiber f).cb with
    | some c => c ::ₘ s.ended
    | none => s.ended}

/-- `Scheduler::stopping`, one read under the lock. -/
def stopping (s : State ι κ) : Bool :=
  s.autoStop && s.isStopping && s.fibers.isEmpty && s.activeThreadCount == 0

@[simp] theorem setFiber_worker (s : State ι κ) (f : ℕ) (r : Fiber κ) :
    (s.setFiber f r).worker = s.worker := rfl

@[simp] theorem setFiber_made (s : State ι κ) (f : ℕ) (r : Fiber κ) :
    (s.setFiber f r).made = s.made := rfl

@[simp] theorem setFiber_fibers (s : State ι κ) (f : ℕ) (r : Fiber κ) :
    (s.setFiber f r).fibers = s.fibers := rfl

@[simp] theorem push_worker (s : State ι κ) (e : FiberAndThread ι κ) :
    (s.push e).worker = s.worker := rfl

@[simp] theorem push_made (s : State ι κ) (e : FiberAndThread ι κ) : (s.push e).made = s.made := rfl

@[simp] theorem push_fiber (s : State ι κ) (e : FiberAndThread ι κ) :
    (s.push e).fiber = s.fiber := rfl

@[simp] theorem finish_worker (s : State ι κ) (f : ℕ) : (s.finish f).worker = s.worker := rfl

@[simp] theorem finish_made (s : State ι κ) (f : ℕ) : (s.finish f).made = s.made := rfl

@[simp] theorem finish_fibers (s : State ι κ) (f : ℕ) : (s.finish f).fibers = s.fibers := rfl

variable [DecidableEq ι]

def setWorker (s : State ι κ) (w : ι) (v : Worker κ) : State ι κ :=
  {s with worker := Function.update s.worker w v}

def goto (s : State ι κ) (w : ι) (pc : Pc κ) : State ι κ :=
  s.setWorker w {s.worker w with pc := pc}

/-- Whether the scan of `w` takes the entry: it may run on this thread, and is
not a fiber in state `EXEC`. -/
def takes (s : State ι κ) (w : ι) (e : FiberAndThread ι κ) : Bool :=
  (e.thread == none || e.thread == some w) &&
    match e.task with
    | .fiber f => (s.fiber f).state != .exec
    | .cb _ => true

/-- The locked scan: the first entry this worker takes leaves the queue and
raises the counter. -/
def scan (s : State ι κ) (w : ι) : State ι κ :=
  match s.fibers.find? (s.takes w) with
  | some e =>
    {s with
      fibers := s.fibers.eraseP (s.takes w)
      activeThreadCount := s.activeThreadCount + 1}.goto w (.popped e.task)
  | none => s.goto w .nothing

/-- A callback gets the worker's own fiber, reset if there is one and new otherwise. -/
def takeCb (s : State ι κ) (w : ι) (c : κ) : Option (State ι κ) :=
  match (s.worker w).cbFiber with
  | some f => ((s.fiber f).reset (some c)).map fun r => (s.setFiber f r).goto w (.enter f .cbFiber)
  | none =>
    some ({s with made := s.made + 1}.setFiber s.made (.new c)
      |>.setWorker w {s.worker w with cbFiber := some s.made, pc := .enter s.made .cbFiber})

/-- The fiber leaves the variable it was reached through: `ft.reset()` in one
path, `cb_fiber.reset()` in the other. -/
def drop (s : State ι κ) (w : ι) : Slot → State ι κ
  | .ft => s.goto w .top
  | .cbFiber => s.setWorker w {s.worker w with cbFiber := none, pc := .top}

/-- One step of `Scheduler::run`. -/
def work (s : State ι κ) (w : ι) : Option (State ι κ) :=
  match (s.worker w).pc with
  | .unborn | .running .. | .done => none
  | .top => some (s.scan w)
  | .popped (.fiber f) =>
    some (s.goto w (if (s.fiber f).state.finished then .skip else .enter f .ft))
  | .popped (.cb c) => s.takeCb w c
  | .enter f slot => (s.fiber f).swapIn.map fun r => (s.setFiber f r).goto w (.running f slot)
  | .leaving f slot ctx => some ((s.setFiber f {s.fiber f with ctx := ctx}).goto w (.back f slot))
  | .back f slot =>
    some ({s with activeThreadCount := s.activeThreadCount - 1}.goto w (.after f slot))
  | .after f slot => some (s.goto w (if (s.fiber f).state = .ready then .put f slot else .settle f slot))
  | .put f slot => some ((s.push ⟨.fiber f, none⟩).drop w slot)
  | .settle f .ft => some (s.goto w (if (s.fiber f).state.finished then .top else .hold f .ft))
  | .settle f .cbFiber =>
    some (s.goto w (if (s.fiber f).state.finished then .wipe f else .hold f .cbFiber))
  | .hold f slot => some ((s.setFiber f {s.fiber f with state := .hold}).drop w slot)
  | .wipe f => ((s.fiber f).reset none).map fun r => (s.setFiber f r).goto w .top
  | .skip => some ({s with activeThreadCount := s.activeThreadCount - 1}.goto w .top)
  | .nothing =>
    some (if (s.worker w).idle = .term then s.goto w .done
      else s.setWorker w {s.worker w with idle := .exec, pc := .idling})
  -- `Scheduler::idle`: its loop ends, and with it the idle fiber, or yields and is set to `HOLD`
  | .idling =>
    some (s.setWorker w {s.worker w with idle := if s.stopping then .term else .hold, pc := .top})

/-- One step of the body of fiber `f` on worker `w`. An empty callback can only throw. -/
def body (s : State ι κ) (w : ι) (f : ℕ) (slot : Slot) : Body ι κ → Option (State ι κ)
  | .call c => if (s.fiber f).cb.isSome then s.call c else none
  | .yieldToReady =>
    if (s.fiber f).cb.isSome then
      (s.fiber f).yieldToReady.map fun r => (s.setFiber f r).goto w (.leaving f slot .yielded)
    else none
  | .yieldToHold =>
    if (s.fiber f).cb.isSome then
      (s.fiber f).yieldToHold.map fun r => (s.setFiber f r).goto w (.leaving f slot .yielded)
    else none
  | .return =>
    if (s.fiber f).cb.isSome then
      some (((s.finish f).setFiber f (s.fiber f).finish).goto w (.leaving f slot .over))
    else none
  | .throw => some (((s.finish f).setFiber f (s.fiber f).fail).goto w (.leaving f slot .over))

@[simp] theorem drop_fibers (s : State ι κ) (w : ι) (slot : Slot) :
    (s.drop w slot).fibers = s.fibers := by cases slot <;> rfl

@[simp] theorem drop_made (s : State ι κ) (w : ι) (slot : Slot) :
    (s.drop w slot).made = s.made := by cases slot <;> rfl

@[simp] theorem drop_fiber (s : State ι κ) (w : ι) (slot : Slot) :
    (s.drop w slot).fiber = s.fiber := by cases slot <;> rfl

/-- What the dropping worker keeps: its `cb_fiber`, unless that is what it drops. -/
def dropped (v : Worker κ) (slot : Slot) : Worker κ :=
  ⟨.top, match slot with | .ft => v.cbFiber | .cbFiber => none, v.idle⟩

theorem drop_worker (s : State ι κ) (w : ι) (slot : Slot) :
    (s.drop w slot).worker = Function.update s.worker w (dropped (s.worker w) slot) := by
  cases slot <;> rfl

variable [Fintype ι]

/-- One step of `Scheduler::stop`. Without pool threads the early branch may
return before the root fiber is entered; it is entered only if `stopping()` is
false then. -/
def stop (root : Option ι) (s : State ι κ) : Option (State ι κ) :=
  match s.caller with
  | .serving => some {s with autoStop := true, caller := .begun}
  | .begun =>
    some (if root.isSome ∧ ∀ w, root = some w ∧ (s.worker w).pc.atRest then
        {s with isStopping := true, caller := .early}
      else {s with caller := .flag})
  | .early => some {s with caller := if s.stopping then .returned else .flag}
  | .flag => some {s with isStopping := true, caller := .tickled}
  | .tickled =>
    match root with
    | none => some {s with caller := .joining}
    | some r =>
      some (if s.stopping then {s with caller := .joining}
        else {s with caller := .inRoot}.goto r .top)
  | .inRoot =>
    if ∀ w, root = some w → (s.worker w).pc.isDone then some {s with caller := .joining} else none
  | .joining =>
    if ∀ w, root = some w ∨ (s.worker w).pc.isDone then some {s with caller := .returned} else none
  | .returned => none

end State

section
variable {ι κ : Type} [DecidableEq ι] [Fintype ι]

def step (root : Option ι) (s : State ι κ) : Action ι κ → Option (State ι κ)
  | .work w => s.work w
  | .body w b =>
    match (s.worker w).pc with
    | .running f slot => s.body w f slot b
    | _ => none
  | .outside c => s.call c
  | .stop => s.stop root

/-- The scheduler behind `start()`, its pool at the head of the loop. -/
def State.initial (root : Option ι) : State ι κ where
  fibers := []
  activeThreadCount := 0
  isStopping := false
  autoStop := false
  made := 0
  fiber := fun _ => ⟨.init, none, .entry⟩
  worker := fun w => ⟨if root = some w then .unborn else .top, none, .init⟩
  caller := .serving
  scheduled := 0
  ended := 0

def machine (κ : Type) (root : Option ι) : Machine (State ι κ) (Action ι κ) := ⟨step root⟩

end
end SimpleHttpServer.Scheduler
