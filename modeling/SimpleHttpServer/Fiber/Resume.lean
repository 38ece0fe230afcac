import SimpleHttpServer.Fiber.Switch

/-! Entering a fiber again and again.

`swapIn` saves the thread's place into the context of the scheduler fiber, which a
thread has only if a scheduler has given it one; and it asks that the fiber is not
executing, which is what a fiber that has called `YieldToHold` still says of
itself. With a scheduler fiber, and with `YieldToReady` for every yield, each
`swapIn` runs one more segment of the body and comes back. -/
namespace SimpleHttpServer.FiberThread
variable {κ : Type}

/-- Control is where it was, behind the switch that was made there. -/
def Back (s t : FiberThread κ) : Prop :=
  t.running = s.running ∧ t.resumed = some (.after s.switches.length)

/-- A `swapIn` for each segment of a body with these yields: it is made, goes on at the place given,
which is behind the yield before, and comes back, with the fiber in another state than `EXEC` and
at the end in `TERM`. -/
def Resumable (f : ℕ) : Context → List Yield → FiberThread κ → Prop
  | place, [], s =>
    ∃ s₁, s.step (.swapIn f) = some s₁ ∧ s₁.running = f ∧ s₁.resumed = some place ∧
      ∃ s₂, s₁.step (.finish .returned) = some s₂ ∧ Back s s₂ ∧ (s₂.fiber f).state = .term
  | place, y :: ys, s =>
    ∃ s₁, s.step (.swapIn f) = some s₁ ∧ s₁.running = f ∧ s₁.resumed = some place ∧
      ∃ s₂, s₁.step (.yieldTo y) = some s₂ ∧ Back s s₂ ∧ (s₂.fiber f).state ≠ .exec ∧
        Resumable f (.after s₁.switches.length) ys s₂

/-- The thread is in its main fiber `m`, and may have a scheduler fiber. -/
structure AtMain (m : ℕ) (s : FiberThread κ) : Prop where
  running : s.running = m
  this : s.tFiber = some m
  main : s.threadFiber = some m
  made : m < s.made
  sched : ∀ c, s.schedulerFiber = some c → c < s.made
  live : s.halted = false

/-- A fiber of a thread with a scheduler fiber `c`, to be entered from `m` at this place. -/
structure Waiting (m c f : ℕ) (place : Context) (s : FiberThread κ) : Prop where
  running : s.running = m
  sched : s.schedulerFiber = some c
  live : s.halted = false
  made : f < s.made
  other : f ≠ c
  state : (s.fiber f).state ≠ .exec
  ctx : (s.fiber f).ctx = place
  resumes : place = .entry .mainFunc ∨
    ∃ k, place = .after k ∧ s.switches[k]? = some ⟨f, .yield⟩ ∧ s.frame f = some (.mainFunc, f)

/-- The fiber has been entered from `m`, by the switch with this number. -/
structure Inside (m c f k : ℕ) (s : FiberThread κ) : Prop where
  running : s.running = f
  this : s.tFiber = some f
  sched : s.schedulerFiber = some c
  live : s.halted = false
  made : f < s.made
  other : f ≠ c
  state : (s.fiber f).state = .exec
  frame : s.frame f = some (.mainFunc, f)
  slot : (s.fiber c).ctx = .after k
  switch : s.switches[k]? = some ⟨m, .swapIn⟩

theorem Waiting.swapIn {m c f : ℕ} {place : Context} {s : FiberThread κ}
    (h : Waiting m c f place s) :
    ∃ t, s.step (.swapIn f) = some t ∧ t.resumed = some place ∧
      Inside m c f s.switches.length t := by
  have hctx : ((s.enter f).fiber f).ctx = place := by rw [enter_fiber, ← h.ctx]
  have hstep : s.step (.swapIn f) = some ((s.enter f).swapcontext .swapIn c f) := by
    simp [step, perform, Act.given, h.live, h.made, FiberThread.swapIn, h.state, h.sched]
  have hslot : (((s.enter f).saved .swapIn c).fiber c).ctx = .after s.switches.length := by
    rw [saved_fiber]
    rfl
  have hstate : (((s.enter f).saved .swapIn c).fiber f).state = .exec := by
    rw [saved_of_ne h.other, enter_fiber]
  have hswitch : ((s.enter f).saved .swapIn c).switches[s.switches.length]? =
      some ⟨m, .swapIn⟩ := by
    rw [← h.running]
    exact getElem?_saved_last .swapIn c (s := s.enter f)
  rcases h.resumes with hentry | ⟨k, hafter, hk, hframe⟩
  · rw [hentry] at hctx
    rw [swapcontext_entry hctx h.other (show (s.enter f).tFiber = some f from rfl)] at hstep
    exact ⟨_, hstep, by rw [hentry],
      ⟨rfl, rfl, h.sched, rfl, h.made, h.other, hstate, Function.update_self .., hslot, hswitch⟩⟩
  · rw [hafter] at hctx
    rw [swapcontext_after hctx h.other (s := s.enter f) hk] at hstep
    refine ⟨_, hstep, by rw [hafter], ⟨rfl, rfl, h.sched, ?_, h.made, h.other, hstate, hframe,
      hslot, hswitch⟩⟩
    have hlast := getElem?_saved .swapIn c (s := s.enter f) hk
    simp only [halted, hlast]
    rfl

/-- What a fiber comes to by leaving: control behind the switch that entered it, its own place
saved, whatever its record `r` says otherwise. -/
theorem Inside.swapOut {m c f k : ℕ} {s : FiberThread κ} (h : Inside m c f k s) (how : How)
    (r : Member κ) :
    ∃ t, (s.setFiber f r).swapOut how f = some t ∧ t.running = m ∧ t.resumed = some (.after k) ∧
      t.schedulerFiber = some c ∧ t.halted = false ∧ t.made = s.made ∧ t.frame = s.frame ∧
      t.fiber f = {r with ctx := .after s.switches.length} ∧
      t.switches[s.switches.length]? = some ⟨f, how⟩ := by
  let u : FiberThread κ := {s.setFiber f r with tFiber := some c}
  have hslot : (u.fiber c).ctx = .after k := by
    rw [← h.slot]
    exact congrArg Member.ctx (Function.update_of_ne h.other.symm ..)
  have hout : (s.setFiber f r).swapOut how f = some (u.swapcontext how f c) :=
    swapOut_eq (show (s.setFiber f r).schedulerFiber = some c from h.sched) how f
  rw [swapcontext_after hslot h.other.symm (s := u) h.switch] at hout
  refine ⟨_, hout, rfl, rfl, h.sched, ?_, rfl, rfl, ?_, ?_⟩
  · have hlast := getElem?_saved how f (s := u) h.switch
    simp only [halted, hlast]
    rfl
  · have hself : u.fiber f = r := Function.update_self ..
    show (u.saved how f).fiber f = _
    rw [saved_fiber, hself]
    rfl
  · rw [← h.running]
    exact getElem?_saved_last how f (s := u)

/-- A yield to `READY`: the fiber waits to be entered behind it. -/
theorem Inside.ready {m c f k : ℕ} {s : FiberThread κ} (h : Inside m c f k s) :
    ∃ t, s.step (.yieldTo .ready) = some t ∧ t.running = m ∧ t.resumed = some (.after k) ∧
      Waiting m c f (.after s.switches.length) t := by
  obtain ⟨t, hout, hrunning, hresumed, hsched, hlive, hmade, hframe, hfiber, hswitch⟩ :=
    h.swapOut .yield {s.fiber f with state := .ready}
  have hyield : s.yieldTo .ready = some t := by
    rw [FiberThread.yieldTo, h.this, Option.bind_some, if_pos h.state]
    exact hout
  refine ⟨noted s t, ?_, hrunning, hresumed, ?_⟩
  · simp [step, perform, Act.given, h.live, hyield]
  · refine ⟨hrunning, hsched, hlive, ?_, h.other, ?_, ?_, .inr ⟨_, rfl, hswitch, ?_⟩⟩
    · rw [noted, hmade]
      exact h.made
    · simp [noted, hfiber]
    · simp [noted, hfiber]
    · rw [noted, hframe]
      exact h.frame

/-- A yield to `HOLD` that leaves the fiber executing. -/
theorem Inside.hold {m c f k : ℕ} {s : FiberThread κ} (h : Inside m c f k s) :
    ∃ t, s.step (.yieldTo .hold) = some t ∧ (t.fiber f).state = .exec := by
  obtain ⟨t, hout, _, _, _, _, _, _, hfiber, _⟩ := h.swapOut .yield (s.fiber f)
  have hsame : s.setFiber f (s.fiber f) = s := by simp [setFiber]
  rw [hsame] at hout
  have hyield : s.yieldTo .hold = some t := by
    rw [FiberThread.yieldTo, h.this, Option.bind_some, if_pos h.state]
    exact hout
  refine ⟨noted s t, ?_, ?_⟩
  · simp [step, perform, Act.given, h.live, hyield]
  · simp [noted, hfiber, h.state]

theorem Inside.finish {m c f k : ℕ} {s : FiberThread κ} (h : Inside m c f k s) :
    ∃ t, s.step (.finish .returned) = some t ∧ t.running = m ∧ t.resumed = some (.after k) ∧
      (t.fiber f).state = .term := by
  obtain ⟨t, hout, hrunning, hresumed, _, _, _, _, hfiber, _⟩ :=
    h.swapOut .finish (ended .returned (s.fiber f))
  have hfinish : s.finish .returned = some t := by
    rw [FiberThread.finish, h.running, h.frame]
    exact hout
  refine ⟨noted s t, ?_, hrunning, hresumed, ?_⟩
  · simp [step, perform, Act.given, h.live, hfinish]
  · simp [noted, hfiber, ended]

/-- A waiting fiber runs through exactly if each of its yields is to `READY`. -/
theorem Waiting.runs_through_iff {m c f : ℕ} {place : Context} {ys : List Yield} {s : FiberThread κ}
    (h : Waiting m c f place s) : Resumable f place ys s ↔ ∀ y ∈ ys, y = .ready := by
  obtain ⟨s₁, hin, hplace, hinside⟩ := h.swapIn
  induction ys generalizing place s s₁ with
  | nil =>
    obtain ⟨s₂, hstep, hrunning, hresumed, hstate⟩ := hinside.finish
    constructor
    · intro _ y hy
      cases hy
    · intro _
      exact ⟨s₁, hin, hinside.running, hplace, s₂, hstep, ⟨hrunning.trans h.running.symm, hresumed⟩,
        hstate⟩
  | cons y ys ih =>
    rw [List.forall_mem_cons]
    cases y with
    | hold =>
      obtain ⟨s₂, hstep, hstate⟩ := hinside.hold
      constructor
      · intro ⟨s₁', hin', _, _, s₂', hstep', _, hstate', _⟩
        rw [hin] at hin'
        cases hin'
        rw [hstep] at hstep'
        cases hstep'
        exact absurd hstate hstate'
      · intro hall
        exact absurd hall.1 (by decide)
    | ready =>
      obtain ⟨s₂, hstep, hrunning, hresumed, hwaiting⟩ := hinside.ready
      obtain ⟨s₃, hin', hplace', hinside'⟩ := hwaiting.swapIn
      have hrest := ih hwaiting s₃ hin' hplace' hinside'
      constructor
      · intro ⟨s₁', hin'', _, _, s₂', hstep', _, _, hresumable⟩
        rw [hin] at hin''
        cases hin''
        rw [hstep] at hstep'
        cases hstep'
        exact ⟨rfl, hrest.mp hresumable⟩
      · intro hall
        exact ⟨s₁, hin, hinside.running, hplace, s₂, hstep,
          ⟨hrunning.trans h.running.symm, hresumed⟩, hwaiting.state, hrest.mpr hall.2⟩

/-- On a thread that has called `GetThis()`, a fresh fiber can be entered segment by segment
exactly if the thread has a scheduler fiber too and the body never calls `YieldToHold`. -/
theorem resumable_iff (m : ℕ) (s : FiberThread κ) (h : AtMain m s) (cb : κ) (ys : List Yield) :
    Resumable s.made (.entry .mainFunc) ys (s.construct false cb) ↔
      s.schedulerFiber ≠ none ∧ ∀ y ∈ ys, y = .ready := by
  cases hsched : s.schedulerFiber with
  | none =>
    have hrefused : (s.construct false cb).step (.swapIn s.made) = none := by
      have hnone : (s.construct false cb).schedulerFiber = none := hsched
      simp [step, perform, swapIn, hnone]
    constructor
    · intro hresumable
      cases ys with
      | nil =>
        obtain ⟨s₁, hin, _⟩ := hresumable
        rw [hrefused] at hin
        cases hin
      | cons y ys =>
        obtain ⟨s₁, hin, _⟩ := hresumable
        rw [hrefused] at hin
        cases hin
    · intro ⟨hnone, _⟩
      exact absurd rfl hnone
  | some c =>
    have hfiber : (s.construct false cb).fiber s.made = ⟨.init, some cb, .entry .mainFunc, .plain⟩ :=
      Function.update_self ..
    have hwaiting : Waiting m c s.made (.entry .mainFunc) (s.construct false cb) := by
      refine ⟨h.running, hsched, h.live, Nat.lt_succ_self _, Nat.ne_of_gt (h.sched c hsched), ?_, ?_,
        .inl rfl⟩
      · rw [hfiber]
        exact nofun
      · rw [hfiber]
    rw [hwaiting.runs_through_iff]
    exact ⟨fun hall => ⟨nofun, hall⟩, fun hall => hall.2⟩

/-- A thread of a scheduler enters a fiber that yields twice. -/
theorem workerThread_resumable :
    Resumable 1 (.entry .mainFunc) [.ready, .ready] ((workerThread (κ := Unit)).construct false ()) :=
  (resumable_iff 0 workerThread ⟨rfl, rfl, rfl, by decide, by decide, rfl⟩ () [.ready, .ready]).mpr
    ⟨nofun, by decide⟩

/-- A thread that has only called `GetThis()`, and a body that yields to `HOLD` twice: there is
nothing to save into. -/
theorem mainThread_not_resumable :
    ((mainThread (κ := Unit)).construct false ()).step (.swapIn 1) = none ∧
      ¬ Resumable 1 (.entry .mainFunc) [.hold, .hold]
        ((mainThread (κ := Unit)).construct false ()) := by
  have hrefused : ((mainThread (κ := Unit)).construct false ()).step (.swapIn 1) = none := rfl
  refine ⟨hrefused, ?_⟩
  intro ⟨s₁, hin, _⟩
  rw [hrefused] at hin
  cases hin

end SimpleHttpServer.FiberThread
