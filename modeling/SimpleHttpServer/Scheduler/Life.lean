import SimpleHttpServer.Scheduler.Placed

/-! One scheduler over its whole life, with `start()` and `stop()` called again and again
and an `idle()` that may do anything.

Every `start()` makes new threads, so nothing of a worker survives a cycle. The
root fiber does survive: `stop()` calls it, and it ends with that call. `Stepped` says
once what a step can be. -/
namespace SimpleHttpServer.Scheduler
open State

variable {ι κ : Type}

/-- A scheduler with `m_threads` and the state of `m_rootFiber`. `unused` is history: the
fibers that have been made for a task and not been scheduled yet. -/
structure Life (ι κ : Type) where
  now : State ι κ
  threads : List ι
  rootFiber : Fiber.State
  unused : List ℕ

inductive Life.Action (ι κ : Type)
  /-- The next step of `run` on this worker. -/
  | work (w : ι)
  /-- The next step of the body this worker is inside. -/
  | body (w : ι) (b : Body ι κ)
  /-- The next step of `idle()` on this worker. -/
  | idle (w : ι) (b : Body ι κ)
  /-- A thread that is no worker. -/
  | outside (c : Call ι κ)
  /-- `start()`, whose new threads have these ids. -/
  | start (pool : List ι)
  /-- The next step of `stop()`. -/
  | stop
  deriving DecidableEq, Repr

/-- The scheduler behind its constructor. -/
def Life.initial : Life ι κ where
  now := {
    fibers := []
    activeThreadCount := 0
    isStopping := true
    autoStop := false
    made := 0
    fiber := fun _ => ⟨.init, none, .entry⟩
    worker := fun _ => ⟨.unborn, none, .init⟩
    caller := .serving
    scheduled := 0
    ended := 0}
  threads := []
  rootFiber := .init
  unused := []

/-- What a call leaves unused. -/
def Life.noted (l : Life ι κ) : Call ι κ → List ℕ
  | .make _ => l.now.made :: l.unused
  | .schedule (.fiber f) _ => l.unused.filter (· ≠ f)
  | .schedule (.cb _) _ => l.unused

def Life.call (l : Life ι κ) (c : Call ι κ) : Option (Life ι κ) :=
  (l.now.call c).map fun s => {l with now := s, unused := l.noted c}

variable [DecidableEq ι]

/-- These threads begin `run`, with new local variables. -/
def State.launch (s : State ι κ) (pool : List ι) : State ι κ :=
  {s with worker := fun w => if w ∈ pool then ⟨.top, none, .init⟩ else s.worker w}

namespace Life

/-- One step of `run`. An idle fiber that has thrown is entered behind its last
`swapOut`, where only the assertion "never reach" is left. -/
def work (l : Life ι κ) (w : ι) : Option (Life ι κ) :=
  match (l.now.worker w).pc with
  | .idling => none
  | .nothing =>
    if (l.now.worker w).idle = .except then none
    else (l.now.work w).map fun s => {l with now := s}
  | _ => (l.now.work w).map fun s => {l with now := s}

def body (l : Life ι κ) (w : ι) (f : ℕ) (slot : Slot) (b : Body ι κ) : Option (Life ι κ) :=
  (l.now.body w f slot b).map fun s =>
    {l with
      now := s
      unused := match b with
        | .call c => l.noted c
        | _ => l.unused}

/-- The idle fiber is back in `run`, which sets it to `HOLD` unless it has ended. -/
def leaveIdle (l : Life ι κ) (w : ι) (state : Fiber.State) : Life ι κ :=
  {l with now := l.now.setWorker w {l.now.worker w with idle := state, pc := .top}}

/-- One step of an `idle()`. -/
def idle (l : Life ι κ) (w : ι) : Body ι κ → Option (Life ι κ)
  | .call c => l.call c
  | .yieldToReady | .yieldToHold => some (l.leaveIdle w .hold)
  | .return => some (l.leaveIdle w .term)
  | .throw => some (l.leaveIdle w .except)

/-- `Scheduler::start`, with as many new threads as `m_threadCount` says; the caller's own thread
is none of them. -/
def start (threadCount : ℕ) (root : Option ι) (l : Life ι κ) (pool : List ι) : Option (Life ι κ) :=
  if (l.now.caller = .serving ∨ l.now.caller = .returned) ∧ pool.Nodup ∧ pool.length = threadCount ∧
      ∀ r ∈ root, r ∉ pool then
    if l.now.isStopping then
      if l.threads = [] then
        some {l with now := {l.now with isStopping := false}.launch pool, threads := pool}
      else none
    else some l
  else none

/-- One step of `Scheduler::stop`. The root fiber's `call()` is refused where it comes back
behind the last `back()`, on the assertion "never reach". -/
def stop (threadCount : ℕ) (root : Option ι) (l : Life ι κ) : Option (Life ι κ) :=
  match l.now.caller with
  | .serving | .returned => some {l with now := {l.now with autoStop := true, caller := .begun}}
  | .begun =>
    some (if root.isSome ∧ threadCount = 0 ∧ (l.rootFiber = .term ∨ l.rootFiber = .init) then
        {l with now := {l.now with isStopping := true, caller := .early}}
      else {l with now := {l.now with caller := .flag}})
  | .early => some {l with now := {l.now with caller := if l.now.stopping then .returned else .flag}}
  | .flag => some {l with now := {l.now with isStopping := true, caller := .tickled}}
  | .tickled =>
    match root with
    | none => some {l with now := {l.now with caller := .joining}}
    | some r =>
      if l.now.stopping then some {l with now := {l.now with caller := .joining}}
      else if l.rootFiber.finished then none
      else some {l with now := {l.now with caller := .inRoot}.launch [r], rootFiber := .exec}
  | .inRoot =>
    if ∀ r ∈ root, (l.now.worker r).pc.isDone then
      some {l with now := {l.now with caller := .joining}, rootFiber := .term}
    else none
  | .joining =>
    if ∀ w ∈ l.threads, (l.now.worker w).pc.isDone then
      some {l with now := {l.now with caller := .returned}, threads := []}
    else none

def step (threadCount : ℕ) (root : Option ι) (l : Life ι κ) : Action ι κ → Option (Life ι κ)
  | .work w => l.work w
  | .body w b =>
    match (l.now.worker w).pc with
    | .running f slot => l.body w f slot b
    | _ => none
  | .idle w b =>
    match (l.now.worker w).pc with
    | .idling => l.idle w b
    | _ => none
  | .outside c => l.call c
  | .start pool => l.start threadCount root pool
  | .stop => l.stop threadCount root

def machine (ι κ : Type) [DecidableEq ι] (threadCount : ℕ) (root : Option ι) :
    Machine (Life ι κ) (Action ι κ) := ⟨step threadCount root⟩

/-- The call this action makes, if it makes one. -/
def Action.call? : Action ι κ → Option (Call ι κ)
  | .outside c | .body _ (.call c) | .idle _ (.call c) => some c
  | _ => none

/-- The action gives the scheduler work. -/
def Action.gives (a : Action ι κ) : Bool :=
  match a.call? with
  | some (.schedule ..) => true
  | _ => false

/-- A fiber is scheduled once: fresh from `make`. -/
def OnceEach (l : Life ι κ) (a : Action ι κ) : Prop :=
  match a.call? with
  | some (.schedule (.fiber f) _) => f ∈ l.unused
  | _ => True

/-- `idle()` does not throw, and a `stop()` that gets to the root fiber's branch when that fiber
has been called before finds no task queued or taken. -/
def Settled (root : Option ι) (l : Life ι κ) : Action ι κ → Prop
  | .idle _ .throw => False
  | .stop => l.now.caller = .tickled → root.isSome → l.rootFiber ≠ .init →
      l.now.fibers = [] ∧ l.now.activeThreadCount = 0
  | _ => True

/-- The root fiber has been called, and is back. -/
def Spent (root : Option ι) (l : Life ι κ) : Prop := root.isSome ∧ l.rootFiber = .term

/-- `idle()` does not throw; the `stop()` that calls the root fiber returns with no work left; and
behind it no more work is given, but by the threads that a later `stop()` still joins. -/
def Quiet (root : Option ι) (l : Life ι κ) : Action ι κ → Prop
  | .idle _ .throw => False
  | .stop => Spent root l → l.now.caller = .joining →
      l.now.fibers = [] ∧ l.now.activeThreadCount = 0
  | a => Spent root l → a.gives = true → l.now.caller = .joining

/-- The step is a `swapIn` or a `call` on a fiber in state `TERM` or `EXCEPT`. -/
def EntersFinished (root : Option ι) (l : Life ι κ) : Action ι κ → Prop
  | .work w =>
    match (l.now.worker w).pc with
    | .enter f _ => (l.now.fiber f).state.finished
    | .nothing => (l.now.worker w).idle ≠ .term ∧ (l.now.worker w).idle.finished
    | _ => False
  | .stop =>
    l.now.caller = .tickled ∧ root.isSome ∧ l.now.stopping = false ∧ l.rootFiber.finished
  | _ => False

/-- The step is a switch to a `MainFunc` behind its last `swapOut`. -/
def NeverReach (l : Life ι κ) : Action ι κ → Prop
  | .work w =>
    match (l.now.worker w).pc with
    | .enter f _ => (l.now.fiber f).ctx = .over
    | _ => False
  | _ => False

/-- What the flags are while `stop()` runs. -/
structure Phase (s : State ι κ) : Prop where
  autoStop : s.caller = .serving ∨ s.caller = .returned ∨ s.autoStop = true
  tickled : s.caller = .tickled → s.isStopping = true

/-- What one step of `stop()` can be: it moves the flags, or enters the root fiber. -/
inductive Stopped (l : Life ι κ) : Life ι κ → Prop
  | moved (t : State ι κ) (threads : List ι) (rootFiber : Fiber.State)
      (ht : t = {l.now with caller := t.caller, autoStop := t.autoStop, isStopping := t.isStopping})
      (hphase : Phase l.now → Phase t) : Stopped l ⟨t, threads, rootFiber, l.unused⟩
  | enterRoot (r : ι) (h : l.now.caller = .tickled) :
      Stopped l {l with now := {l.now with caller := .inRoot}.launch [r], rootFiber := .exec}

omit [DecidableEq ι] in
/-- While `stop()` runs, its flag stays set. -/
theorem Phase.move {s t : State ι κ} (h : Phase s)
    (hunderway : s.caller ≠ .serving ∧ s.caller ≠ .returned)
    (hauto : t.autoStop = s.autoStop) (htickled : t.caller = .tickled → t.isStopping = true) :
    Phase t := by
  refine ⟨.inr (.inr ?_), htickled⟩
  rw [hauto]
  rcases h.autoStop with hserving | hreturned | hset
  · exact absurd hserving hunderway.1
  · exact absurd hreturned hunderway.2
  · exact hset

theorem stopped_of_stop {threadCount : ℕ} {root : Option ι} {l m : Life ι κ}
    (h : l.stop threadCount root = some m) : Stopped l m := by
  cases hc : l.now.caller with
  | serving | returned =>
    simp only [stop, hc, Option.some.injEq] at h
    subst h
    exact .moved _ _ _ rfl fun _ => ⟨.inr (.inr rfl), fun hcaller => by cases hcaller⟩
  | begun =>
    simp only [stop, hc, Option.some.injEq] at h
    subst h
    split
    · exact .moved _ _ _ rfl fun hphase => hphase.move (by simp [hc]) rfl fun h => by cases h
    · exact .moved _ _ _ rfl fun hphase => hphase.move (by simp [hc]) rfl fun h => by cases h
  | early =>
    simp only [stop, hc, Option.some.injEq] at h
    subst h
    refine .moved _ _ _ rfl fun hphase => hphase.move (by simp [hc]) rfl fun hcaller => ?_
    simp only at hcaller
    split at hcaller <;> cases hcaller
  | flag =>
    simp only [stop, hc, Option.some.injEq] at h
    subst h
    exact .moved _ _ _ rfl fun hphase => hphase.move (by simp [hc]) rfl fun _ => rfl
  | tickled =>
    cases root with
    | none =>
      simp only [stop, hc, Option.some.injEq] at h
      subst h
      exact .moved _ _ _ rfl fun hphase => hphase.move (by simp [hc]) rfl fun h => by cases h
    | some r =>
      simp only [stop, hc] at h
      split at h
      · cases h
        exact .moved _ _ _ rfl fun hphase => hphase.move (by simp [hc]) rfl fun h => by cases h
      · split at h
        · cases h
        · cases h
          exact .enterRoot r hc
  | inRoot =>
    simp only [stop, hc] at h
    split at h
    · cases h
      exact .moved _ _ _ rfl fun hphase => hphase.move (by simp [hc]) rfl fun h => by cases h
    · cases h
  | joining =>
    simp only [stop, hc] at h
    split at h
    · cases h
      exact .moved _ _ _ rfl fun _ => ⟨.inr (.inl rfl), fun hcaller => by cases hcaller⟩
    · cases h

/-- What one step can be. -/
inductive Stepped (l : Life ι κ) : Action ι κ → Life ι κ → Prop
  | work (w : ι) (s : State ι κ) (hpc : (l.now.worker w).pc ≠ .idling) (h : Worked l.now w s) :
      Stepped l (.work w) {l with now := s}
  | body (w : ι) (f : ℕ) (slot : Slot) (b : Body ι κ) (s : State ι κ)
      (hpc : (l.now.worker w).pc = .running f slot) (h : Bodied l.now w f slot b s)
      (hb : ∀ c, b ≠ .call c) : Stepped l (.body w b) {l with now := s}
  | call (a : Action ι κ) (c : Call ι κ) (s : State ι κ) (ha : a.call? = some c)
      (h : Called l.now c s) : Stepped l a {l with now := s, unused := l.noted c}
  | idle (w : ι) (b : Body ι κ) (state : Fiber.State) (hstate : state = .except → b = .throw) :
      Stepped l (.idle w b) (l.leaveIdle w state)
  | start (pool : List ι) (hcaller : l.now.caller = .serving ∨ l.now.caller = .returned)
      (hthreads : l.threads = []) :
      Stepped l (.start pool)
        {l with now := {l.now with isStopping := false}.launch pool, threads := pool}
  | started (pool : List ι) : Stepped l (.start pool) l
  | stop (m : Life ι κ) (h : Stopped l m) : Stepped l .stop m

omit [DecidableEq ι] in
theorem called {l m : Life ι κ} {c : Call ι κ} (h : l.call c = some m) :
    ∃ s, Called l.now c s ∧ m = {l with now := s, unused := l.noted c} := by
  obtain ⟨s, hs, rfl⟩ := Option.map_eq_some_iff.mp h
  exact ⟨s, called_of_call hs, rfl⟩

theorem stepped_of_step {threadCount : ℕ} {root : Option ι} {l m : Life ι κ} {a : Action ι κ}
    (h : step threadCount root l a = some m) : Stepped l a m := by
  cases a with
  | work w =>
    simp only [step, work] at h
    split at h
    · cases h
    · split at h
      · cases h
      · obtain ⟨s, hs, rfl⟩ := Option.map_eq_some_iff.mp h
        exact .work w s (by simp_all) (worked_of_work hs)
    · obtain ⟨s, hs, rfl⟩ := Option.map_eq_some_iff.mp h
      exact .work w s ‹_› (worked_of_work hs)
  | body w b =>
    simp only [step, body] at h
    split at h
    case h_1 f slot hpc =>
      obtain ⟨s, hs, rfl⟩ := Option.map_eq_some_iff.mp h
      have hbodied := bodied_of_body hs
      cases b with
      | call c =>
        cases hbodied with
        | call _ _ _ hcalled => exact .call _ c s rfl hcalled
      | _ => exact .body w f slot _ s hpc hbodied (fun c hc => by cases hc)
    case h_2 => cases h
  | idle w b =>
    simp only [step] at h
    split at h
    · cases b with
      | call c =>
        obtain ⟨s, hs, rfl⟩ := called h
        exact .call _ c s rfl hs
      | _ =>
        cases h
        exact .idle w _ _ (by simp)
    · cases h
  | outside c =>
    obtain ⟨s, hs, rfl⟩ := called h
    exact .call _ c s rfl hs
  | start pool =>
    simp only [step, start] at h
    split at h
    case isTrue hcond =>
      split at h
      · split at h
        case isTrue hthreads =>
          cases h
          exact .start pool hcond.1 hthreads
        case isFalse => cases h
      · cases h
        exact .started pool
    case isFalse => cases h
  | stop => exact .stop m (stopped_of_stop h)

end Life

end SimpleHttpServer.Scheduler
