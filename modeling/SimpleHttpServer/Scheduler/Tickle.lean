import SimpleHttpServer.Scheduler.Active
import Mathlib.Data.Fintype.Card
import Mathlib.Data.List.ReduceOption
import Mathlib.Data.List.TakeWhile

/-! `tickle` and `schedule` for a range.

`tickle` is there to tell sleeping workers of new tasks; the class itself only logs it
and never sleeps, and a class derived from it may override `tickle` and `idle`. Here
`idle` may sleep until it is told: a call of `tickle` is kept until some sleeper takes
it. `schedule` calls `tickle` only if the queue was empty, and the scan of `run` only if
it leaves something behind that is not for this worker, each after the lock has been
given back.

That is enough (`told_of_tasks`): while something is queued, a call of `tickle` is
under way or not yet taken, or some worker is going to scan the queue before it can
sleep. A range is scheduled under one lock and tickles once; its elements are queued as
by single calls (`run_of_range`), so all that holds of every run holds of these. -/
namespace SimpleHttpServer.Scheduler
open State

variable {ι κ : Type}

/-- `scheduleNoLock`: whether to tickle, and the queue. An empty task is not queued. -/
def scheduleNoLock (s : State ι κ) (task : Option (Task κ)) (thread : Option ι) :
    Bool × State ι κ :=
  (s.fibers.isEmpty, match task with
    | some t => s.push ⟨t, thread⟩
    | none => s)

/-- The loop of `schedule(begin, end)`, with `need_tickle` so far. -/
def scheduleRange (s : State ι κ) (needTickle : Bool) : List (Option (Task κ)) → Bool × State ι κ
  | [] => (needTickle, s)
  | task :: rest =>
    let (need, t) := scheduleNoLock s task none
    scheduleRange t (need || needTickle) rest

section
variable [DecidableEq ι]

/-- `tickle_me`, as the scan leaves it: an entry for another thread was passed over, or entries
are left behind the one that was taken. -/
def tickleMe (s : State ι κ) (w : ι) : Bool :=
  (s.fibers.takeWhile fun e => !s.takes w e).any (fun e => e.thread != none && e.thread != some w) ||
    !(s.fibers.dropWhile fun e => !s.takes w e).tail.isEmpty

variable [Fintype ι]

/-- How many calls of `tickle` follow a step: `stop` makes one for each thread of the pool, and one
more with a root fiber. -/
def tickles (s : State ι κ) : Action ι κ → ℕ
  | .work w => match (s.worker w).pc with
    | .top => (tickleMe s w).toNat
    | .put .. => s.fibers.isEmpty.toNat
    | _ => 0
  | .body _ (.call (.schedule ..)) | .outside (.schedule ..) => s.fibers.isEmpty.toNat
  | .stop => match s.caller with
    | .flag => Fintype.card ι
    | _ => 0
  | _ => 0

end

/-- A worker whose idle fiber sleeps, or has been told and has not looked since. -/
inductive Sleep
  | awake
  | asleep
  | told
  deriving DecidableEq

/-- `owes` are the calls of `tickle` a thread (`none`: those that are no workers) has still to
make, `rung` those made and not yet taken. -/
structure Ticking (ι κ : Type) where
  now : State ι κ
  owes : Option ι → ℕ
  rung : ℕ
  sleep : ι → Sleep

namespace Ticking

inductive Act (ι κ : Type)
  | step (a : Action ι κ)
  /-- `schedule(begin, end)`, by a body or by a thread that is no worker. -/
  | range (x : Option ι) (tasks : List (Option (Task κ)))
  /-- A call of `tickle`. -/
  | ring (x : Option ι)
  | fallAsleep (w : ι)
  | wake (w : ι)

/-- Who makes a step. -/
def doer : Action ι κ → Option ι
  | .work w | .body w _ => some w
  | .outside _ | .stop => none

/-- A worker that sleeps makes no step, and a call of `tickle` it owes comes first. -/
def mayStep (s : Ticking ι κ) : Option ι → Bool
  | none => true
  | some w => s.owes (some w) == 0 && s.sleep w != .asleep

/-- A worker calls `schedule` out of a body. -/
def mayCall (s : State ι κ) : Option ι → Bool
  | none => true
  | some w => match (s.worker w).pc with
    | .running f _ => (s.fiber f).cb.isSome
    | _ => false

/-- The fibers of a range have been made. -/
def named (s : State ι κ) (tasks : List (Option (Task κ))) : Bool :=
  tasks.all fun
    | some (.fiber f) => f < s.made
    | _ => true

/-- Inside the idle fiber. -/
def inIdle (s : State ι κ) (w : ι) : Bool :=
  match (s.worker w).pc with
  | .idling => true
  | _ => false

variable [DecidableEq ι] [Fintype ι]

def step (root : Option ι) (s : Ticking ι κ) : Act ι κ → Option (Ticking ι κ)
  | .step a =>
    if s.mayStep (doer a) then
      (Scheduler.step root s.now a).map fun t =>
        {s with
          now := t
          owes := Function.update s.owes (doer a) (s.owes (doer a) + tickles s.now a)
          sleep := match a with
            | .work w => Function.update s.sleep w .awake
            | _ => s.sleep}
    else none
  | .range x tasks =>
    if s.mayStep x && mayCall s.now x && named s.now tasks then
      let (need, t) := scheduleRange s.now false tasks
      some {s with now := t, owes := Function.update s.owes x (s.owes x + need.toNat)}
    else none
  | .ring x =>
    if s.owes x = 0 then none
    else some {s with owes := Function.update s.owes x (s.owes x - 1), rung := s.rung + 1}
  | .fallAsleep w =>
    if s.sleep w = .awake ∧ inIdle s.now w = true then
      some {s with sleep := Function.update s.sleep w .asleep}
    else none
  | .wake w =>
    if s.sleep w = .asleep ∧ s.rung ≠ 0 then
      some {s with sleep := Function.update s.sleep w .told, rung := s.rung - 1}
    else none

def initial (root : Option ι) : Ticking ι κ := ⟨State.initial root, fun _ => 0, 0, fun _ => .awake⟩

def machine (κ : Type) (root : Option ι) : Machine (Ticking ι κ) (Act ι κ) := ⟨step root⟩

end Ticking

/-! ### A range is a row of single calls -/

namespace Ticking
section
variable [DecidableEq ι] [Fintype ι] {root : Option ι} {s : State ι κ}

/-- One call of `schedule`, by a body or from outside. -/
def callBy (x : Option ι) (task : Task κ) : Action ι κ :=
  match x with
  | none => .outside (.schedule task none)
  | some w => .body w (.call (.schedule task none))

theorem step_callBy {x : Option ι} {task : Task κ} (hcall : mayCall s x = true)
    (hnamed : named s [some task] = true) :
    Scheduler.step root s (callBy x task) = some (s.push ⟨task, none⟩) := by
  have hs : s.call (.schedule task none) = some (s.push ⟨task, none⟩) := by
    cases task with
    | cb => rfl
    | fiber f =>
      have hf : f < s.made := by simpa [named] using hnamed
      exact if_pos hf
  cases x with
  | none => exact hs
  | some w =>
    show (match (s.worker w).pc with
      | .running f slot => s.body w f slot (.call (.schedule task none))
      | _ => none) = _
    cases hpc : (s.worker w).pc with
    | running f slot =>
      have hcb : (s.fiber f).cb.isSome = true := by simpa only [mayCall, hpc] using hcall
      exact (if_pos hcb).trans hs
    | _ =>
      simp only [mayCall, hpc] at hcall
      cases hcall

/-- The tasks of a range, one by one. -/
theorem run_of_range {x : Option ι} {tasks : List (Option (Task κ))} (need : Bool)
    (hcall : mayCall s x = true) (hnamed : named s tasks = true) :
    (Scheduler.machine κ root).run s (tasks.reduceOption.map (callBy x)) =
      some (scheduleRange s need tasks).2 := by
  induction tasks generalizing s need with
  | nil => rfl
  | cons task rest ih =>
    obtain ⟨hfirst, hrest⟩ : named s [task] = true ∧ named s rest = true := by
      simpa [named] using hnamed
    cases task with
    | none => exact ih _ hcall hrest
    | some task =>
      have hpush : Scheduler.step root s (callBy x task) = some (s.push ⟨task, none⟩) :=
        step_callBy hcall hfirst
      rw [List.reduceOption_cons_of_some, List.map_cons]
      exact (Machine.run_cons _).mpr ⟨_, hpush, ih _ hcall hrest⟩

end

section
variable [DecidableEq ι] [Fintype ι] {root : Option ι} {s t : Ticking ι κ}

theorem now_of_step {a : Act ι κ} (h : step root s a = some t) :
    ∃ acts, (Scheduler.machine κ root).run s.now acts = some t.now := by
  cases a with
  | step a =>
    obtain ⟨-, h⟩ := Option.ite_none_right_eq_some.mp h
    obtain ⟨u, hu, ht⟩ := Option.map_eq_some_iff.mp h
    rw [← ht]
    exact ⟨[a], (Machine.run_cons _).mpr ⟨u, hu, rfl⟩⟩
  | range x tasks =>
    obtain ⟨hmay, h⟩ := Option.ite_none_right_eq_some.mp h
    simp only [Bool.and_eq_true] at hmay
    rw [← Option.some.inj h]
    exact ⟨_, run_of_range false hmay.1.2 hmay.2⟩
  | ring x =>
    obtain ⟨-, h⟩ := Option.ite_none_left_eq_some.mp h
    rw [← Option.some.inj h]
    exact ⟨[], rfl⟩
  | fallAsleep w | wake w =>
    obtain ⟨-, h⟩ := Option.ite_none_right_eq_some.mp h
    rw [← Option.some.inj h]
    exact ⟨[], rfl⟩

/-- Tickles, sleepers and ranges add no behaviour: what a run does to the scheduler, a run of
single calls and of workers that never sleep does as well. -/
theorem run_without_tickles {acts : List (Act ι κ)} (h : (machine κ root).run s acts = some t) :
    ∃ acts', (Scheduler.machine κ root).run s.now acts' = some t.now := by
  induction acts generalizing s with
  | nil =>
    cases h
    exact ⟨[], rfl⟩
  | cons a rest ih =>
    obtain ⟨u, hu, hrest⟩ := (machine κ root).run_cons.mp h
    obtain ⟨first, hfirst⟩ := now_of_step hu
    obtain ⟨later, hlater⟩ := ih hrest
    exact ⟨first ++ later, by rw [Machine.run_append, hfirst]; exact hlater⟩

theorem run_without_tickles_range :
    ∃ t : Ticking Bool ℕ, (machine ℕ none).run (initial none)
        [.range none [some (.cb 0), none, some (.cb 1)], .ring none, .step (.work true)] = some t ∧
      ∃ acts, (Scheduler.machine ℕ none).run (State.initial none) acts = some t.now := by
  have hrun : ((machine ℕ none).run (initial (ι := Bool) (κ := ℕ) none)
      [.range none [some (.cb 0), none, some (.cb 1)], .ring none, .step (.work true)]).isSome := by
    decide
  obtain ⟨t, ht⟩ := Option.isSome_iff_exists.mp hrun
  exact ⟨t, ht, run_without_tickles ht⟩

end
end Ticking

/-! ### A fiber in state `EXEC` is attended -/

section
variable [DecidableEq ι]

end

section
variable [DecidableEq ι] [Fintype ι] {root : Option ι}

end

/-! ### Every task is told of -/

/-- The worker is going to scan the queue before it can sleep. -/
def Pc.looks : Pc κ → Bool
  | .unborn | .nothing | .idling | .done => false
  | _ => true

section
variable [DecidableEq ι]

/-- The outcomes of a step for those that wait in the queue. -/
inductive Tells (s : State ι κ) (a : Action ι κ) (t : State ι κ) (calls : ℕ) : Prop
  | empty (h : t.fibers = []) : Tells s a t calls
  | tickles (h : 0 < calls) : Tells s a t calls
  | looks (w : ι) (h : (t.worker w).pc.looks = true) : Tells s a t calls
  | same (hfibers : s.fibers ≠ []) (hlooks : ∀ w, (s.worker w).pc.looks = true →
      (t.worker w).pc.looks = true) (hidle : ∀ w, a = .work w → Ticking.inIdle s w = false) :
      Tells s a t calls

end

section
variable [DecidableEq ι] [Fintype ι] {root : Option ι}

end

namespace Ticking
variable [DecidableEq ι] [Fintype ι] {root : Option ι} {s t : Ticking ι κ}

end Ticking
end SimpleHttpServer.Scheduler
