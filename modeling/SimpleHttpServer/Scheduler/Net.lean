import SimpleHttpServer.Scheduler.Placed

/-! Several schedulers at once, and fibers that move between them.

Each worker executes `run` of one scheduler, its *home*; fibers and their states are
common to all. A worker's step is the step of `run` on the scheduler it sees
(`Net.view`), so the loop is the one of the single scheduler, and a body has two
more things to do: `switchTo`, and the scopes of `SchedulerSwitcher`. -/
namespace SimpleHttpServer.Scheduler

/-- What one scheduler has to itself. -/
structure Sched (ι κ : Type) where
  fibers : List (FiberAndThread ι κ)
  activeThreadCount : ℤ
  isStopping : Bool
  autoStop : Bool

/-- Where a body stands in `S->switchTo(thread)`; `leaving` tells whether it is
`~SchedulerSwitcher` that called it. -/
inductive Switch (σ ι : Type)
  /-- Behind `schedule`, before `YieldToHold`. -/
  | asked (S : σ) (thread : Option ι) (leaving : Bool)
  /-- With nothing left to do but return, as soon as the fiber runs. -/
  | returning (S : σ) (thread : Option ι) (leaving : Bool)
  deriving DecidableEq, Repr

/-- The constructor of a `SchedulerSwitcher` was entered, or its destructor left, by a
fiber on this scheduler. -/
inductive Scope (σ : Type)
  | entered (on : σ)
  | left (on : σ)
  deriving DecidableEq, Repr

/-- `callers` holds the `m_caller` of each fiber's open scopes, the innermost first;
`scopes` is history. -/
structure Net (σ ι κ : Type) where
  sched : σ → Sched ι κ
  made : ℕ
  fiber : ℕ → Fiber κ
  worker : ι → Worker κ
  switching : ℕ → Option (Switch σ ι)
  callers : ℕ → List σ
  scopes : ℕ → List (Scope σ)

/-- What a body may do next. -/
inductive Move (σ ι κ : Type)
  /-- A call of this scheduler. -/
  | call (S : σ) (c : Call ι κ)
  | switchTo (S : σ) (thread : Option ι)
  /-- `SchedulerSwitcher(target)`. -/
  | enterScope (target : Option σ)
  /-- `~SchedulerSwitcher`. -/
  | leaveScope
  /-- The next step of `switchTo`. -/
  | resume
  | yieldToReady
  | yieldToHold
  | return
  | throw
  deriving DecidableEq, Repr

/-- What is left open by these scopes when `stack` was open before, the innermost first;
`none` where one is left on another scheduler than it was entered on. -/
def replay {σ : Type} [DecidableEq σ] : List σ → List (Scope σ) → Option (List σ)
  | stack, [] => some stack
  | stack, .entered on :: rest => replay (on :: stack) rest
  | [], .left _ :: _ => none
  | S :: stack, .left on :: rest => if on = S then replay stack rest else none

namespace Net
variable {σ ι κ : Type} [DecidableEq σ]

inductive Action (σ ι κ : Type)
  /-- The thread begins `run`. -/
  | start (w : ι)
  /-- The next step of `run` on this worker. -/
  | work (w : ι)
  /-- The next step of the body this worker is inside. -/
  | body (w : ι) (m : Move σ ι κ)
  /-- A thread that is no worker calls this scheduler. -/
  | outside (S : σ) (c : Call ι κ)
  /-- `start()` or `stop()` of this scheduler sets its flags. -/
  | flags (S : σ) (autoStop isStopping : Bool)
  deriving DecidableEq, Repr

/-- The scheduler `S` with all the workers and fibers. -/
def view (n : Net σ ι κ) (S : σ) : State ι κ where
  fibers := (n.sched S).fibers
  activeThreadCount := (n.sched S).activeThreadCount
  isStopping := (n.sched S).isStopping
  autoStop := (n.sched S).autoStop
  made := n.made
  fiber := n.fiber
  worker := n.worker
  caller := .serving
  scheduled := 0
  ended := 0

omit [DecidableEq σ] in
@[simp] theorem view_worker (n : Net σ ι κ) (S : σ) : (n.view S).worker = n.worker := rfl

omit [DecidableEq σ] in
@[simp] theorem view_fiber (n : Net σ ι κ) (S : σ) : (n.view S).fiber = n.fiber := rfl

/-- What a step of `S` leaves behind. -/
def put (n : Net σ ι κ) (S : σ) (s : State ι κ) : Net σ ι κ :=
  {n with
    sched := Function.update n.sched S ⟨s.fibers, s.activeThreadCount, s.isStopping, s.autoStop⟩
    made := s.made
    fiber := s.fiber
    worker := s.worker}

def call (n : Net σ ι κ) (S : σ) (c : Call ι κ) : Option (Net σ ι κ) :=
  ((n.view S).call c).map (n.put S)

def setSwitching (n : Net σ ι κ) (f : ℕ) (state : Option (Switch σ ι)) : Net σ ι κ :=
  {n with switching := Function.update n.switching f state}

/-- A fiber on `on` constructs a `SchedulerSwitcher`: `m_caller` is set. -/
def enter (n : Net σ ι κ) (f : ℕ) (on : σ) : Net σ ι κ :=
  {n with
    callers := Function.update n.callers f (on :: n.callers f)
    scopes := Function.update n.scopes f (n.scopes f ++ [.entered on])}

/-- `switchTo` returns to a fiber on `on`, and with it the destructor that called it. -/
def back (n : Net σ ι κ) (f : ℕ) (on : σ) (leaving : Bool) : Net σ ι κ :=
  {n.setSwitching f none with
    scopes := if leaving then Function.update n.scopes f (n.scopes f ++ [.left on]) else n.scopes}

variable [DecidableEq ι]

/-- `S->switchTo(thread)` up to its return or its `YieldToHold`: a fiber that is there already
does not move. -/
def ask (home : ι → σ) (n : Net σ ι κ) (w : ι) (f : ℕ) (S : σ) (thread : Option ι) (leaving : Bool) :
    Net σ ι κ :=
  if home w = S ∧ (thread = none ∨ thread = some w) then
    n.setSwitching f (some (.returning S thread leaving))
  else
    (n.put S ((n.view S).push ⟨.fiber f, thread⟩)).setSwitching f (some (.asked S thread leaving))

/-- What a body can do on a single scheduler. -/
def plain (home : ι → σ) (n : Net σ ι κ) (w : ι) (f : ℕ) (slot : Slot) (b : Body ι κ) :
    Option (Net σ ι κ) :=
  ((n.view (home w)).body w f slot b).map (n.put (home w))

/-- One step of a body outside `switchTo`. The scopes that are open are left before it ends. -/
def act (home : ι → σ) (n : Net σ ι κ) (w : ι) (f : ℕ) (slot : Slot) :
    Move σ ι κ → Option (Net σ ι κ)
  | .call S c => n.call S c
  | .switchTo S thread => some (n.ask home w f S thread false)
  | .enterScope none => some (n.enter f (home w))
  | .enterScope (some S) => some ((n.enter f (home w)).ask home w f S none false)
  | .leaveScope =>
    match n.callers f with
    | [] => none
    | S :: rest =>
      some ({n with callers := Function.update n.callers f rest}.ask home w f S none true)
  | .resume | .throw => none
  | .yieldToReady => n.plain home w f slot .yieldToReady
  | .yieldToHold => n.plain home w f slot .yieldToHold
  | .return => if n.callers f = [] then n.plain home w f slot .return else none

/-- One step of the body of fiber `f` on worker `w`. An empty callback can only throw. -/
def body (home : ι → σ) (n : Net σ ι κ) (w : ι) (f : ℕ) (slot : Slot) (m : Move σ ι κ) :
    Option (Net σ ι κ) :=
  match n.switching f, m with
  | none, .throw => if n.callers f = [] then n.plain home w f slot .throw else none
  | none, m => if (n.fiber f).cb.isSome then n.act home w f slot m else none
  | some (.asked S thread leaving), .resume =>
    (n.plain home w f slot .yieldToHold).map
      (·.setSwitching f (some (.returning S thread leaving)))
  | some (.returning _ _ leaving), .resume => some (n.back f (home w) leaving)
  | some _, _ => none

def step (home : ι → σ) (n : Net σ ι κ) : Action σ ι κ → Option (Net σ ι κ)
  | .start w =>
    match (n.worker w).pc with
    | .unborn => some {n with worker := Function.update n.worker w {n.worker w with pc := .top}}
    | _ => none
  | .work w => ((n.view (home w)).work w).map (n.put (home w))
  | .body w m =>
    match (n.worker w).pc with
    | .running f slot => n.body home w f slot m
    | _ => none
  | .outside S c => n.call S c
  | .flags S autoStop isStopping =>
    some (n.put S {n.view S with autoStop := autoStop, isStopping := isStopping})

def machine (κ : Type) (home : ι → σ) : Machine (Net σ ι κ) (Action σ ι κ) := ⟨step home⟩

/-- Schedulers with nothing to do, whose threads have not begun. -/
def initial : Net σ ι κ where
  sched := fun _ => ⟨[], 0, false, false⟩
  made := 0
  fiber := fun _ => ⟨.init, none, .entry⟩
  worker := fun _ => ⟨.unborn, none, .init⟩
  switching := fun _ => none
  callers := fun _ => []
  scopes := fun _ => []

/-- What a step can be. -/
inductive Stepped (home : ι → σ) (n : Net σ ι κ) : Action σ ι κ → Net σ ι κ → Prop
  | start (w : ι) (hpc : (n.worker w).pc = .unborn) :
      Stepped home n (.start w)
        {n with worker := Function.update n.worker w {n.worker w with pc := .top}}
  | work (w : ι) (s : State ι κ) (h : Worked (n.view (home w)) w s) :
      Stepped home n (.work w) (n.put (home w) s)
  | outside (S : σ) (c : Call ι κ) (s : State ι κ) (h : Called (n.view S) c s) :
      Stepped home n (.outside S c) (n.put S s)
  | flags (S : σ) (autoStop isStopping : Bool) :
      Stepped home n (.flags S autoStop isStopping)
        (n.put S {n.view S with autoStop := autoStop, isStopping := isStopping})
  | call (w : ι) (S : σ) (c : Call ι κ) (s : State ι κ) (h : Called (n.view S) c s) :
      Stepped home n (.body w (.call S c)) (n.put S s)
  | plain (w : ι) (f : ℕ) (slot : Slot) (m : Move σ ι κ) (b : Body ι κ) (s : State ι κ)
      (hpc : (n.worker w).pc = .running f slot) (hsw : n.switching f = none)
      (hb : ∀ c, b ≠ .call c) (h : Bodied (n.view (home w)) w f slot b s) :
      Stepped home n (.body w m) (n.put (home w) s)
  | switchTo (w : ι) (f : ℕ) (slot : Slot) (S : σ) (thread : Option ι)
      (hpc : (n.worker w).pc = .running f slot) (hsw : n.switching f = none) :
      Stepped home n (.body w (.switchTo S thread)) (n.ask home w f S thread false)
  | stay (w : ι) (f : ℕ) (slot : Slot) (hpc : (n.worker w).pc = .running f slot)
      (hsw : n.switching f = none) :
      Stepped home n (.body w (.enterScope none)) (n.enter f (home w))
  | enter (w : ι) (f : ℕ) (slot : Slot) (S : σ) (hpc : (n.worker w).pc = .running f slot)
      (hsw : n.switching f = none) :
      Stepped home n (.body w (.enterScope (some S)))
        ((n.enter f (home w)).ask home w f S none false)
  | leave (w : ι) (f : ℕ) (slot : Slot) (S : σ) (rest : List σ)
      (hpc : (n.worker w).pc = .running f slot) (hsw : n.switching f = none)
      (hcallers : n.callers f = S :: rest) :
      Stepped home n (.body w .leaveScope)
        ({n with callers := Function.update n.callers f rest}.ask home w f S none true)
  | yield (w : ι) (f : ℕ) (slot : Slot) (S : σ) (thread : Option ι) (leaving : Bool) (s : State ι κ)
      (hpc : (n.worker w).pc = .running f slot)
      (hsw : n.switching f = some (.asked S thread leaving))
      (h : Bodied (n.view (home w)) w f slot .yieldToHold s) :
      Stepped home n (.body w .resume)
        ((n.put (home w) s).setSwitching f (some (.returning S thread leaving)))
  | back (w : ι) (f : ℕ) (slot : Slot) (S : σ) (thread : Option ι) (leaving : Bool)
      (hpc : (n.worker w).pc = .running f slot)
      (hsw : n.switching f = some (.returning S thread leaving)) :
      Stepped home n (.body w .resume) (n.back f (home w) leaving)

omit [DecidableEq ι] in
theorem called {n m : Net σ ι κ} {S : σ} {c : Call ι κ} (h : n.call S c = some m) :
    ∃ s, Called (n.view S) c s ∧ m = n.put S s := by
  obtain ⟨s, hs, rfl⟩ := Option.map_eq_some_iff.mp h
  exact ⟨s, called_of_call hs, rfl⟩

theorem bodied {home : ι → σ} {n m : Net σ ι κ} {w : ι} {f : ℕ} {slot : Slot} {b : Body ι κ}
    (h : n.plain home w f slot b = some m) :
    ∃ s, Bodied (n.view (home w)) w f slot b s ∧ m = n.put (home w) s := by
  obtain ⟨s, hs, rfl⟩ := Option.map_eq_some_iff.mp h
  exact ⟨s, bodied_of_body hs, rfl⟩

theorem stepped_of_act {home : ι → σ} {n n' : Net σ ι κ} {w : ι} {f : ℕ} {slot : Slot}
    {m : Move σ ι κ} (hpc : (n.worker w).pc = .running f slot) (hsw : n.switching f = none)
    (h : n.act home w f slot m = some n') : Stepped home n (.body w m) n' := by
  cases m with
  | call S c =>
    obtain ⟨s, hs, rfl⟩ := called h
    exact .call w S c s hs
  | switchTo S thread =>
    cases h
    exact .switchTo w f slot S thread hpc hsw
  | enterScope target =>
    cases target with
    | none =>
      cases h
      exact .stay w f slot hpc hsw
    | some S =>
      cases h
      exact .enter w f slot S hpc hsw
  | leaveScope =>
    simp only [act] at h
    split at h
    · cases h
    · cases h
      exact .leave w f slot _ _ hpc hsw ‹_›
  | resume => cases h
  | throw => cases h
  | yieldToReady =>
    obtain ⟨s, hs, rfl⟩ := bodied h
    exact .plain w f slot _ _ s hpc hsw (fun c hc => by cases hc) hs
  | yieldToHold =>
    obtain ⟨s, hs, rfl⟩ := bodied h
    exact .plain w f slot _ _ s hpc hsw (fun c hc => by cases hc) hs
  | «return» =>
    simp only [act] at h
    split at h
    · obtain ⟨s, hs, rfl⟩ := bodied h
      exact .plain w f slot _ _ s hpc hsw (fun c hc => by cases hc) hs
    · cases h

theorem stepped_of_body {home : ι → σ} {n n' : Net σ ι κ} {w : ι} {f : ℕ} {slot : Slot}
    {m : Move σ ι κ} (hpc : (n.worker w).pc = .running f slot)
    (h : n.body home w f slot m = some n') : Stepped home n (.body w m) n' := by
  unfold body at h
  split at h
  case h_1 hsw =>
    split at h
    · obtain ⟨s, hs, rfl⟩ := bodied h
      exact .plain w f slot _ _ s hpc hsw (fun c hc => by cases hc) hs
    · cases h
  case h_2 hsw _ =>
    split at h
    · exact stepped_of_act hpc hsw h
    · cases h
  case h_3 S thread leaving hsw =>
    obtain ⟨n'', hn, rfl⟩ := Option.map_eq_some_iff.mp h
    obtain ⟨s, hs, rfl⟩ := bodied hn
    exact .yield w f slot S thread leaving s hpc hsw hs
  case h_4 S thread leaving hsw =>
    cases h
    exact .back w f slot S thread leaving hpc hsw
  case h_5 => cases h

theorem stepped_of_step {home : ι → σ} {n n' : Net σ ι κ} {a : Action σ ι κ}
    (h : step home n a = some n') : Stepped home n a n' := by
  cases a with
  | start w =>
    simp only [step] at h
    split at h
    · cases h
      exact .start w ‹_›
    · cases h
  | work w =>
    obtain ⟨s, hs, rfl⟩ := Option.map_eq_some_iff.mp h
    exact .work w s (worked_of_work hs)
  | body w m =>
    simp only [step] at h
    split at h
    · exact stepped_of_body ‹_› h
    · cases h
  | outside S c =>
    obtain ⟨s, hs, rfl⟩ := called h
    exact .outside S c s hs
  | flags S autoStop isStopping =>
    cases h
    exact .flags S autoStop isStopping

end Net
end SimpleHttpServer.Scheduler
