import SimpleHttpServer.Scheduler.Model

/-! What one step of a worker can be.

`Worked s w t` lists, once, every way `run` on worker `w` takes the scheduler from
`s` to `t`, with the point of the loop it starts from and the test that was
read; `Bodied` does the same for the body of a fiber. Every invariant is proved
by cases on these and never unfolds the step functions again. -/
namespace SimpleHttpServer.Scheduler
open State

variable {ι κ : Type} [DecidableEq ι]

inductive Worked (s : State ι κ) (w : ι) : State ι κ → Prop
  | found (e : FiberAndThread ι κ) (hpc : (s.worker w).pc = .top)
      (hfind : s.fibers.find? (s.takes w) = some e) :
      Worked s w ({s with
        fibers := s.fibers.eraseP (s.takes w)
        activeThreadCount := s.activeThreadCount + 1}.goto w (.popped e.task))
  | missed (hpc : (s.worker w).pc = .top) (hfind : s.fibers.find? (s.takes w) = none) :
      Worked s w (s.goto w .nothing)
  | refuse (f : ℕ) (hpc : (s.worker w).pc = .popped (.fiber f))
      (hfin : (s.fiber f).state.finished = true) : Worked s w (s.goto w .skip)
  | accept (f : ℕ) (hpc : (s.worker w).pc = .popped (.fiber f))
      (hfin : (s.fiber f).state.finished = false) : Worked s w (s.goto w (.enter f .ft))
  | reuse (c : κ) (f : ℕ) (r : Fiber κ) (hpc : (s.worker w).pc = .popped (.cb c))
      (hcb : (s.worker w).cbFiber = some f) (hr : (s.fiber f).reset (some c) = some r) :
      Worked s w ((s.setFiber f r).goto w (.enter f .cbFiber))
  | fresh (c : κ) (hpc : (s.worker w).pc = .popped (.cb c)) (hcb : (s.worker w).cbFiber = none) :
      Worked s w ({s with made := s.made + 1}.setFiber s.made (.new c)
        |>.setWorker w {s.worker w with cbFiber := some s.made, pc := .enter s.made .cbFiber})
  | swapIn (f : ℕ) (slot : Slot) (r : Fiber κ) (hpc : (s.worker w).pc = .enter f slot)
      (hr : (s.fiber f).swapIn = some r) : Worked s w ((s.setFiber f r).goto w (.running f slot))
  | swapOut (f : ℕ) (slot : Slot) (ctx : Fiber.Context)
      (hpc : (s.worker w).pc = .leaving f slot ctx) :
      Worked s w ((s.setFiber f {s.fiber f with ctx := ctx}).goto w (.back f slot))
  | lower (f : ℕ) (slot : Slot) (hpc : (s.worker w).pc = .back f slot) :
      Worked s w ({s with activeThreadCount := s.activeThreadCount - 1}.goto w (.after f slot))
  | isReady (f : ℕ) (slot : Slot) (hpc : (s.worker w).pc = .after f slot)
      (hst : (s.fiber f).state = .ready) : Worked s w (s.goto w (.put f slot))
  | notReady (f : ℕ) (slot : Slot) (hpc : (s.worker w).pc = .after f slot)
      (hst : (s.fiber f).state ≠ .ready) : Worked s w (s.goto w (.settle f slot))
  | reschedule (f : ℕ) (slot : Slot) (hpc : (s.worker w).pc = .put f slot) :
      Worked s w ((s.push ⟨.fiber f, none⟩).drop w slot)
  | settled (f : ℕ) (hpc : (s.worker w).pc = .settle f .ft)
      (hfin : (s.fiber f).state.finished = true) : Worked s w (s.goto w .top)
  | wiping (f : ℕ) (hpc : (s.worker w).pc = .settle f .cbFiber)
      (hfin : (s.fiber f).state.finished = true) : Worked s w (s.goto w (.wipe f))
  | unsettled (f : ℕ) (slot : Slot) (hpc : (s.worker w).pc = .settle f slot)
      (hfin : (s.fiber f).state.finished = false) : Worked s w (s.goto w (.hold f slot))
  | held (f : ℕ) (slot : Slot) (hpc : (s.worker w).pc = .hold f slot) :
      Worked s w ((s.setFiber f {s.fiber f with state := .hold}).drop w slot)
  | wiped (f : ℕ) (r : Fiber κ) (hpc : (s.worker w).pc = .wipe f)
      (hr : (s.fiber f).reset none = some r) : Worked s w ((s.setFiber f r).goto w .top)
  | skipped (hpc : (s.worker w).pc = .skip) :
      Worked s w ({s with activeThreadCount := s.activeThreadCount - 1}.goto w .top)
  | exit (hpc : (s.worker w).pc = .nothing) (hidle : (s.worker w).idle = .term) :
      Worked s w (s.goto w .done)
  | goIdle (hpc : (s.worker w).pc = .nothing) (hidle : (s.worker w).idle ≠ .term) :
      Worked s w (s.setWorker w {s.worker w with idle := .exec, pc := .idling})
  | idleEnd (hpc : (s.worker w).pc = .idling) (hstop : s.stopping = true) :
      Worked s w (s.setWorker w {s.worker w with idle := .term, pc := .top})
  | idleHold (hpc : (s.worker w).pc = .idling) (hstop : s.stopping = false) :
      Worked s w (s.setWorker w {s.worker w with idle := .hold, pc := .top})

theorem worked_of_work {s t : State ι κ} {w : ι} (h : s.work w = some t) : Worked s w t := by
  cases hpc : (s.worker w).pc with
  | unborn | running | done => simp [work, hpc] at h
  | top =>
    simp only [work, hpc, Option.some.injEq] at h
    subst h
    unfold scan
    split
    · exact .found _ hpc ‹_›
    · exact .missed hpc ‹_›
  | popped task =>
    cases task with
    | fiber f =>
      simp only [work, hpc, Option.some.injEq] at h
      subst h
      split
      · exact .refuse f hpc ‹_›
      · exact .accept f hpc (Bool.not_eq_true _ ▸ ‹_›)
    | cb c =>
      simp only [work, hpc, takeCb] at h
      split at h
      · obtain ⟨r, hr, rfl⟩ := Option.map_eq_some_iff.mp h
        exact .reuse c _ r hpc ‹_› hr
      · cases h
        exact .fresh c hpc ‹_›
  | enter f slot =>
    simp only [work, hpc] at h
    obtain ⟨r, hr, rfl⟩ := Option.map_eq_some_iff.mp h
    exact .swapIn f slot r hpc hr
  | leaving f slot ctx =>
    simp only [work, hpc, Option.some.injEq] at h
    subst h
    exact .swapOut f slot ctx hpc
  | back f slot =>
    simp only [work, hpc, Option.some.injEq] at h
    subst h
    exact .lower f slot hpc
  | after f slot =>
    simp only [work, hpc, Option.some.injEq] at h
    subst h
    split
    · exact .isReady f slot hpc ‹_›
    · exact .notReady f slot hpc ‹_›
  | put f slot =>
    simp only [work, hpc, Option.some.injEq] at h
    subst h
    exact .reschedule f slot hpc
  | settle f slot =>
    cases slot with
    | ft =>
      simp only [work, hpc, Option.some.injEq] at h
      subst h
      split
      · exact .settled f hpc ‹_›
      · exact .unsettled f .ft hpc (Bool.not_eq_true _ ▸ ‹_›)
    | cbFiber =>
      simp only [work, hpc, Option.some.injEq] at h
      subst h
      split
      · exact .wiping f hpc ‹_›
      · exact .unsettled f .cbFiber hpc (Bool.not_eq_true _ ▸ ‹_›)
  | hold f slot =>
    simp only [work, hpc, Option.some.injEq] at h
    subst h
    exact .held f slot hpc
  | wipe f =>
    simp only [work, hpc] at h
    obtain ⟨r, hr, rfl⟩ := Option.map_eq_some_iff.mp h
    exact .wiped f r hpc hr
  | skip =>
    simp only [work, hpc, Option.some.injEq] at h
    subst h
    exact .skipped hpc
  | nothing =>
    simp only [work, hpc, Option.some.injEq] at h
    subst h
    split
    · exact .exit hpc ‹_›
    · exact .goIdle hpc ‹_›
  | idling =>
    simp only [work, hpc, Option.some.injEq] at h
    subst h
    split
    · exact .idleEnd hpc ‹_›
    · exact .idleHold hpc (Bool.not_eq_true _ ▸ ‹_›)

/-- What `schedule` and the making of a fiber do to the shared state. -/
inductive Called (s : State ι κ) : Call ι κ → State ι κ → Prop
  | made (c : κ) : Called s (.make c) ({s with made := s.made + 1}.setFiber s.made (.new c))
  | fiber (f : ℕ) (thread : Option ι) (hf : f < s.made) :
      Called s (.schedule (.fiber f) thread) (s.push ⟨.fiber f, thread⟩)
  | cb (c : κ) (thread : Option ι) : Called s (.schedule (.cb c) thread) (s.push ⟨.cb c, thread⟩)

omit [DecidableEq ι] in
theorem called_of_call {s t : State ι κ} {c : Call ι κ} (h : s.call c = some t) : Called s c t := by
  cases c with
  | make c =>
    cases h
    exact .made c
  | schedule task thread =>
    cases task with
    | fiber f =>
      simp only [State.call] at h
      split at h
      · cases h
        exact .fiber f thread ‹_›
      · cases h
    | cb c =>
      cases h
      exact .cb c thread

inductive Bodied (s : State ι κ) (w : ι) (f : ℕ) (slot : Slot) : Body ι κ → State ι κ → Prop
  | call (c : Call ι κ) (t : State ι κ) (hcb : (s.fiber f).cb.isSome) (h : Called s c t) :
      Bodied s w f slot (.call c) t
  | ready (r : Fiber κ) (hcb : (s.fiber f).cb.isSome) (hr : (s.fiber f).yieldToReady = some r) :
      Bodied s w f slot .yieldToReady ((s.setFiber f r).goto w (.leaving f slot .yielded))
  | hold (r : Fiber κ) (hcb : (s.fiber f).cb.isSome) (hr : (s.fiber f).yieldToHold = some r) :
      Bodied s w f slot .yieldToHold ((s.setFiber f r).goto w (.leaving f slot .yielded))
  | return (hcb : (s.fiber f).cb.isSome) :
      Bodied s w f slot .return
        (((s.finish f).setFiber f (s.fiber f).finish).goto w (.leaving f slot .over))
  | throw :
      Bodied s w f slot .throw
        (((s.finish f).setFiber f (s.fiber f).fail).goto w (.leaving f slot .over))

theorem bodied_of_body {s t : State ι κ} {w : ι} {f : ℕ} {slot : Slot} {b : Body ι κ}
    (h : s.body w f slot b = some t) : Bodied s w f slot b t := by
  cases b with
  | throw =>
    cases h
    exact .throw
  | call c =>
    simp only [State.body] at h
    split at h
    · exact .call c t ‹_› (called_of_call h)
    · cases h
  | yieldToReady =>
    simp only [State.body] at h
    split at h
    · obtain ⟨r, hr, rfl⟩ := Option.map_eq_some_iff.mp h
      exact .ready r ‹_› hr
    · cases h
  | yieldToHold =>
    simp only [State.body] at h
    split at h
    · obtain ⟨r, hr, rfl⟩ := Option.map_eq_some_iff.mp h
      exact .hold r ‹_› hr
    · cases h
  | «return» =>
    simp only [State.body] at h
    split at h
    · cases h
      exact .return ‹_›
    · cases h

/-! ### What a worker's step leaves alone -/

/-- Only worker `w` has moved, and `stop()` has not. -/
structure Frame (s : State ι κ) (w : ι) (t : State ι κ) : Prop where
  others : ∀ i, i ≠ w → t.worker i = s.worker i
  caller : t.caller = s.caller
  isStopping : t.isStopping = s.isStopping
  autoStop : t.autoStop = s.autoStop

theorem frame_drop (s u : State ι κ) (w : ι) (slot : Slot) (hw : u.worker = s.worker)
    (hc : u.caller = s.caller) (hi : u.isStopping = s.isStopping) (ha : u.autoStop = s.autoStop) :
    Frame s w (u.drop w slot) := by
  cases slot <;>
    exact ⟨fun i hi => by simp [drop, goto, setWorker, hi, hw], hc, hi, ha⟩

theorem Worked.frame {s t : State ι κ} {w : ι} (h : Worked s w t) : Frame s w t := by
  cases h with
  | reschedule | held => exact frame_drop _ _ _ _ rfl rfl rfl rfl
  | _ => exact ⟨fun i hi => by simp [goto, setWorker, setFiber, hi], rfl, rfl, rfl⟩

omit [DecidableEq ι] in
/-- A call moves no worker. -/
theorem Called.frame {s t : State ι κ} {c : Call ι κ} (h : Called s c t) :
    t.worker = s.worker ∧ t.caller = s.caller ∧ t.isStopping = s.isStopping ∧
      t.autoStop = s.autoStop ∧ t.activeThreadCount = s.activeThreadCount := by
  cases h <;> exact ⟨rfl, rfl, rfl, rfl, rfl⟩

theorem Bodied.frame {s t : State ι κ} {w : ι} {f : ℕ} {slot : Slot} {b : Body ι κ}
    (h : Bodied s w f slot b t) : Frame s w t := by
  cases h with
  | call c t _ h =>
    obtain ⟨hw, hc, hi, ha, _⟩ := h.frame
    exact ⟨fun i _ => by rw [hw], hc, hi, ha⟩
  | _ => exact ⟨fun i hi => by simp [goto, setWorker, setFiber, State.finish, hi], rfl, rfl, rfl⟩

/-- One step of `stop()`. -/
inductive Stopped (root : Option ι) (s : State ι κ) : State ι κ → Prop
  | begin (h : s.caller = .serving) : Stopped root s {s with autoStop := true, caller := .begun}
  | short (h : s.caller = .begun) (hall : ∀ w, root = some w) :
      Stopped root s {s with isStopping := true, caller := .early}
  | long (h : s.caller = .begun) : Stopped root s {s with caller := .flag}
  | earlyEnd (h : s.caller = .early) (hstop : s.stopping = true) :
      Stopped root s {s with caller := .returned}
  | earlyGo (h : s.caller = .early) : Stopped root s {s with caller := .flag}
  | flagged (h : s.caller = .flag) : Stopped root s {s with isStopping := true, caller := .tickled}
  | noRoot (h : s.caller = .tickled) (hroot : root = none) :
      Stopped root s {s with caller := .joining}
  | skipRoot (r : ι) (h : s.caller = .tickled) (hroot : root = some r) (hstop : s.stopping = true) :
      Stopped root s {s with caller := .joining}
  | enterRoot (r : ι) (h : s.caller = .tickled) (hroot : root = some r) :
      Stopped root s ({s with caller := .inRoot}.goto r .top)
  | rootBack (h : s.caller = .inRoot) (hdone : ∀ w, root = some w → (s.worker w).pc.isDone = true) :
      Stopped root s {s with caller := .joining}
  | joined (h : s.caller = .joining)
      (hdone : ∀ w, root = some w ∨ (s.worker w).pc.isDone = true) :
      Stopped root s {s with caller := .returned}

variable [Fintype ι]

theorem stopped_of_stop {root : Option ι} {s t : State ι κ} (h : s.stop root = some t) :
    Stopped root s t := by
  cases hc : s.caller with
  | serving =>
    simp only [State.stop, hc, Option.some.injEq] at h
    subst h
    exact .begin hc
  | begun =>
    simp only [State.stop, hc, Option.some.injEq] at h
    subst h
    split
    case isTrue hcond => exact .short hc fun w => (hcond.2 w).1
    case isFalse => exact .long hc
  | early =>
    simp only [State.stop, hc, Option.some.injEq] at h
    subst h
    split
    · exact .earlyEnd hc ‹_›
    · exact .earlyGo hc
  | flag =>
    simp only [State.stop, hc, Option.some.injEq] at h
    subst h
    exact .flagged hc
  | tickled =>
    cases hroot : root with
    | none =>
      simp only [State.stop, hc, hroot, Option.some.injEq] at h
      subst h
      exact .noRoot hc rfl
    | some r =>
      simp only [State.stop, hc, hroot, Option.some.injEq] at h
      subst h
      split
      · exact .skipRoot r hc rfl ‹_›
      · exact .enterRoot r hc rfl
  | inRoot =>
    simp only [State.stop, hc] at h
    split at h
    · cases h
      exact .rootBack hc ‹_›
    · cases h
  | joining =>
    simp only [State.stop, hc] at h
    split at h
    · cases h
      exact .joined hc ‹_›
    · cases h
  | returned => simp [State.stop, hc] at h

/-- One step of the scheduler. -/
inductive Stepped (root : Option ι) (s : State ι κ) : Action ι κ → State ι κ → Prop
  | work (w : ι) (t : State ι κ) (h : Worked s w t) : Stepped root s (.work w) t
  | body (w : ι) (f : ℕ) (slot : Slot) (b : Body ι κ) (t : State ι κ)
      (hpc : (s.worker w).pc = .running f slot) (h : Bodied s w f slot b t) :
      Stepped root s (.body w b) t
  | outside (c : Call ι κ) (t : State ι κ) (h : Called s c t) : Stepped root s (.outside c) t
  | stop (t : State ι κ) (h : Stopped root s t) : Stepped root s .stop t

theorem stepped_of_step {root : Option ι} {s t : State ι κ} {a : Action ι κ}
    (h : step root s a = some t) : Stepped root s a t := by
  cases a with
  | work w => exact .work w t (worked_of_work h)
  | body w b =>
    simp only [step] at h
    split at h
    · exact .body w _ _ b t ‹_› (bodied_of_body h)
    · cases h
  | outside c => exact .outside c t (called_of_call h)
  | stop => exact .stop t (stopped_of_stop h)

end SimpleHttpServer.Scheduler
