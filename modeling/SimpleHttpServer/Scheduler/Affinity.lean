import SimpleHttpServer.Scheduler.Exclusive

/-! Tasks scheduled for one thread.

The scan honours the thread of an entry. It is lost when `run` puts a `READY` fiber
back: that entry is for any thread. A callback loses it in one more way, if the
worker's used `cb_fiber` is still in the queue, or in other hands, when the callback
is put on it. In a run where neither happens to a task, the task runs on the thread
it was scheduled for only (`segment_on_thread`). -/
namespace SimpleHttpServer.Scheduler
open State

variable {ι κ : Type}

/-- The fiber is the task, or has the task's callback. -/
def Carries (s : State ι κ) (task : Task κ) (f : ℕ) : Prop :=
  match task with
  | .fiber g => f = g
  | .cb c => (s.fiber f).cb = some c

/-- An entry that asks for the task to be run. -/
def Asks (s : State ι κ) (task : Task κ) (e : FiberAndThread ι κ) : Prop :=
  e.task = task ∨ ∃ f, e.task = .fiber f ∧ Carries s task f

/-- The worker is in the task's body. -/
def InSegment (s : State ι κ) (w : ι) (task : Task κ) : Prop :=
  ∃ f slot, (s.worker w).pc = .running f slot ∧ Carries s task f

/-- A call that schedules the task schedules it for this thread, and the task's callback is given
to no other fiber. -/
def CallFor (task : Task κ) (thread : ι) (s : State ι κ) : Call ι κ → Prop
  | .make c => task ≠ .cb c
  | .schedule task' thread' => Asks s task ⟨task', thread'⟩ → thread' = some thread

/-- The task is scheduled for this thread only, and is no fiber that `run` makes for callbacks. -/
def ScheduledFor (task : Task κ) (thread : ι) (s : State ι κ) : Action ι κ → Prop
  | .outside c | .body _ (.call c) => CallFor task thread s c
  | .work w => ∀ c, (s.worker w).pc = .popped (.cb c) → (s.worker w).cbFiber = none →
      task ≠ .fiber s.made
  | _ => True

/-- The task does not yield with `YieldToReady`, and the fiber a worker has left from an earlier
callback is in no one else's hands when the task is put on it. -/
def KeepsThread (task : Task κ) (s : State ι κ) : Action ι κ → Prop
  | .body w .yieldToReady => ¬ InSegment s w task
  | .work w => ∀ c f, task = .cb c → (s.worker w).pc = .popped (.cb c) →
      (s.worker w).cbFiber = some f →
        (∀ e ∈ s.fibers, e.task ≠ .fiber f) ∧ ∀ u, u ≠ w → ¬ (s.worker u).Knows f
  | _ => True

/-- Wherever the task is, it is bound for its thread. -/
structure Bound (task : Task κ) (thread : ι) (s : State ι κ) : Prop where
  queued : ∀ e ∈ s.fibers, Asks s task e → e.thread = some thread
  known : ∀ w f, Carries s task f → (s.worker w).Knows f → w = thread
  popped : ∀ w, (s.worker w).pc = .popped task → w = thread
  notReady : ∀ f, Carries s task f → (s.fiber f).state ≠ .ready
  notPut : ∀ w f slot, (s.worker w).pc = .put f slot → ¬ Carries s task f
  carrierMade : ∀ c f, task = .cb c → Carries s task f → f < s.made
  queuedMade : ∀ e ∈ s.fibers, ∀ f, e.task = .fiber f → f < s.made
  knownMade : ∀ w f, (s.worker w).Knows f → f < s.made

/-- A fiber that has just been given the task's callback by a worker of its thread. -/
structure Fresh (s t : State ι κ) (w : ι) (thread : ι) (f : ℕ) : Prop where
  onThread : w = thread
  unqueued : ∀ e ∈ s.fibers, e.task ≠ .fiber f
  unknown : ∀ u, u ≠ w → ¬ (s.worker u).Knows f
  state : (t.fiber f).state ≠ .ready
  made : f < t.made

variable [DecidableEq ι]

/-- One worker moves and the queue does not grow. -/
theorem bound_move {task : Task κ} {thread : ι} {s t : State ι κ} (h : Bound task thread s) (w : ι)
    (v : Worker κ) (hw : t.worker = Function.update s.worker w v) (hmade : s.made ≤ t.made)
    (hqueue : t.fibers ⊆ s.fibers)
    (hcarries : ∀ f, Carries t task f → Carries s task f ∨ Fresh s t w thread f)
    (hstate : ∀ f, Carries s task f → Carries t task f → (t.fiber f).state = .ready →
      (s.fiber f).state = .ready)
    (hknows : ∀ f, v.Knows f →
      (s.worker w).Knows f ∨ f < t.made ∧ (Carries t task f → w = thread))
    (hpopped : v.pc = .popped task → w = thread)
    (hput : ∀ f slot, v.pc = .put f slot → ¬ Carries t task f) : Bound task thread t := by
  refine ⟨?_, ?_, ?_, ?_, ?_, ?_, ?_, ?_⟩
  · intro e he hasks
    refine h.queued e (hqueue he) ?_
    rcases hasks with htask | ⟨f, hf, hcarries'⟩
    · exact .inl htask
    · rcases hcarries f hcarries' with hold | hfresh
      · exact .inr ⟨f, hf, hold⟩
      · exact absurd hf (hfresh.unqueued e (hqueue he))
  · intro u f hcarries' hknown
    rw [hw] at hknown
    by_cases hu : u = w
    · subst hu
      rw [Function.update_self] at hknown
      rcases hcarries f hcarries' with hold | hfresh
      · rcases hknows f hknown with hbefore | ⟨_, hthread⟩
        · exact h.known u f hold hbefore
        · exact hthread hcarries'
      · exact hfresh.onThread
    · rw [Function.update_of_ne hu] at hknown
      rcases hcarries f hcarries' with hold | hfresh
      · exact h.known u f hold hknown
      · exact absurd hknown (hfresh.unknown u hu)
  · intro u hpc
    rw [hw] at hpc
    by_cases hu : u = w
    · subst hu
      rw [Function.update_self] at hpc
      exact hpopped hpc
    · rw [Function.update_of_ne hu] at hpc
      exact h.popped u hpc
  · intro f hcarries' hready
    rcases hcarries f hcarries' with hold | hfresh
    · exact h.notReady f hold (hstate f hold hcarries' hready)
    · exact hfresh.state hready
  · intro u f slot hpc hcarries'
    rw [hw] at hpc
    by_cases hu : u = w
    · subst hu
      rw [Function.update_self] at hpc
      exact hput f slot hpc hcarries'
    · rw [Function.update_of_ne hu] at hpc
      rcases hcarries f hcarries' with hold | hfresh
      · exact h.notPut u f slot hpc hold
      · exact hfresh.unknown u hu (.inl (by simp [hpc, Pc.named]))
  · intro c f htask hcarries'
    rcases hcarries f hcarries' with hold | hfresh
    · exact Nat.lt_of_lt_of_le (h.carrierMade c f htask hold) hmade
    · exact hfresh.made
  · exact fun e he f hf => Nat.lt_of_lt_of_le (h.queuedMade e (hqueue he) f hf) hmade
  · intro u f hknown
    rw [hw] at hknown
    by_cases hu : u = w
    · subst hu
      rw [Function.update_self] at hknown
      rcases hknows f hknown with hbefore | ⟨hlt, _⟩
      · exact Nat.lt_of_lt_of_le (h.knownMade u f hbefore) hmade
      · exact hlt
    · rw [Function.update_of_ne hu] at hknown
      exact Nat.lt_of_lt_of_le (h.knownMade u f hknown) hmade

omit [DecidableEq ι] in
/-- An entry that asks for the task on its thread, or does not ask for it, may join the queue. -/
theorem bound_push {task : Task κ} {thread : ι} {s : State ι κ} (h : Bound task thread s)
    (e : FiberAndThread ι κ) (he : Asks s task e → e.thread = some thread)
    (hmade : ∀ f, e.task = .fiber f → f < s.made) : Bound task thread (s.push e) := by
  refine ⟨?_, h.known, h.popped, h.notReady, h.notPut, h.carrierMade,
    queued_push h.queuedMade e hmade, h.knownMade⟩
  intro e' he' hasks
  rcases List.mem_append.mp he' with hold | hnew
  · exact h.queued e' hold hasks
  · rw [List.mem_singleton.mp hnew] at hasks ⊢
    exact he hasks

/-- The worker keeps to what it knows, and no fiber changes its callback or becomes `READY`. -/
theorem bound_stay {task : Task κ} {thread : ι} {s t : State ι κ} (h : Bound task thread s) (w : ι)
    (v : Worker κ) (hw : t.worker = Function.update s.worker w v) (hmade : t.made = s.made)
    (hqueue : t.fibers = s.fibers) (hcarries : ∀ f, Carries t task f → Carries s task f)
    (hstate : ∀ f, Carries s task f → Carries t task f → (t.fiber f).state = .ready →
      (s.fiber f).state = .ready)
    (hknows : ∀ f, v.Knows f → (s.worker w).Knows f) (hpopped : v.pc ≠ .popped task)
    (hput : ∀ f slot, v.pc = .put f slot → ¬ Carries s task f) : Bound task thread t :=
  bound_move h w v hw (Nat.le_of_eq hmade.symm) (by rw [hqueue]; exact fun _ => id)
    (fun f hf => .inl (hcarries f hf)) hstate (fun f hf => .inl (hknows f hf))
    (fun hpc => absurd hpc hpopped) fun f slot hpc hf => hput f slot hpc (hcarries f hf)

omit [DecidableEq ι] in
/-- No fiber gets a callback it did not have. -/
theorem carries_of_cb {s t : State ι κ} (h : ∀ f c, (t.fiber f).cb = some c → (s.fiber f).cb = some c)
    (task : Task κ) (f : ℕ) (hf : Carries t task f) : Carries s task f := by
  cases task with
  | fiber g => exact hf
  | cb c => exact h f c hf

/-- What a worker does to a fiber it knows, short of giving it another callback. -/
theorem bound_touch {task : Task κ} {thread : ι} {s t : State ι κ} (h : Bound task thread s) (w : ι)
    (v : Worker κ) {f : ℕ} {r : Fiber κ} (hw : t.worker = Function.update s.worker w v)
    (hfiber : t.fiber = Function.update s.fiber f r) (hmade : t.made = s.made)
    (hqueue : t.fibers = s.fibers) (hcb : ∀ c, r.cb = some c → (s.fiber f).cb = some c)
    (hready : r.state = .ready → (s.fiber f).state = .ready ∨ ¬ Carries s task f)
    (hknows : ∀ g, v.Knows g → (s.worker w).Knows g) (hpopped : v.pc ≠ .popped task)
    (hput : ∀ g slot, v.pc ≠ .put g slot) : Bound task thread t := by
  have hcbs : ∀ g c, (t.fiber g).cb = some c → (s.fiber g).cb = some c := by
    intro g c hg
    rw [hfiber] at hg
    by_cases hgf : g = f
    · subst hgf
      exact hcb c (by simpa using hg)
    · simpa [hgf] using hg
  refine bound_stay h w v hw hmade hqueue (carries_of_cb hcbs task) ?_ hknows hpopped
    (fun g slot hpc => absurd hpc (hput g slot))
  intro g hcarries _ hg
  rw [hfiber] at hg
  by_cases hgf : g = f
  · subst hgf
    rcases hready (by simpa using hg) with hold | hnot
    · exact hold
    · exact absurd hcarries hnot
  · simpa [hgf] using hg

omit [DecidableEq ι] in
/-- A fiber that has been written carries the task as before, or has been given its callback. -/
theorem carries_setFiber {task : Task κ} {s : State ι κ} {f g : ℕ} {r : Fiber κ}
    (h : Carries (s.setFiber f r) task g) :
    Carries s task g ∨ g = f ∧ ∃ c, task = .cb c ∧ r.cb = some c := by
  cases task with
  | fiber g' => exact .inl h
  | cb c =>
    by_cases hgf : g = f
    · subst hgf
      exact .inr ⟨rfl, c, rfl, by simpa [Carries, setFiber] using h⟩
    · exact .inl (by simpa [Carries, setFiber, hgf] using h)

/-- A worker puts a callback on a fiber that nobody else has, if the callback is the task. -/
theorem given_bound {task : Task κ} {thread : ι} {s : State ι κ} (h : Bound task thread s) {w : ι}
    {c : κ} {f made : ℕ} (hpc : (s.worker w).pc = .popped (.cb c)) (hmade : s.made ≤ made)
    (hf : f < made) (hknown : (s.worker w).Knows f ∨ ¬ Carries s task f)
    (hfree : task = .cb c →
      (∀ e ∈ s.fibers, e.task ≠ .fiber f) ∧ ∀ u, u ≠ w → ¬ (s.worker u).Knows f)
    {v : Worker κ} (hv : v.pc = .enter f .cbFiber) (hcb : v.cbFiber = some f) :
    Bound task thread
      (({s with made := made}.setFiber f ⟨.init, some c, .entry⟩).setWorker w v) := by
  refine bound_move h w v rfl hmade (fun _ => id) ?_ ?_ ?_ (fun hpc' => by cases hv.symm.trans hpc')
    (fun g slot hpc' => by cases hv.symm.trans hpc')
  · intro g hg
    rcases carries_setFiber hg with hold | ⟨rfl, _, rfl, hc⟩
    · exact .inl hold
    · cases hc
      obtain ⟨hunqueued, hunknown⟩ := hfree rfl
      exact .inr ⟨h.popped w hpc, hunqueued, hunknown, by simp [setWorker, setFiber], hf⟩
  · intro g _ _ hready
    by_cases hgf : g = f
    · subst hgf
      simp [setWorker, setFiber] at hready
    · simpa [setWorker, setFiber, hgf] using hready
  · intro g hg
    obtain rfl : f = g := by simpa [Worker.Knows, hv, hcb, Pc.named] using hg
    rcases hknown with hknown | hnot
    · exact .inl hknown
    · refine .inr ⟨hf, fun hcarries => ?_⟩
      rcases carries_setFiber hcarries with hold | ⟨_, _, rfl, hc⟩
      · exact absurd hold hnot
      · cases hc
        exact h.popped w hpc

/-- An entry for a thread is taken by that thread. -/
theorem found_bound {task : Task κ} {thread : ι} {s : State ι κ} (h : Bound task thread s) {w : ι}
    {e : FiberAndThread ι κ} (hfind : s.fibers.find? (s.takes w) = some e) :
    Bound task thread ({s with
        fibers := s.fibers.eraseP (s.takes w)
        activeThreadCount := s.activeThreadCount + 1}.goto w (.popped e.task)) := by
  have hmem := List.mem_of_find?_eq_some hfind
  have hthread : Asks s task e → w = thread := by
    intro hasks
    have htakes := List.find?_some hfind
    have hpin := h.queued e hmem hasks
    simp only [takes, hpin, Bool.and_eq_true, Bool.or_eq_true, beq_iff_eq, reduceCtorEq,
      Option.some.injEq, false_or] at htakes
    exact htakes.1.symm
  refine bound_move h w _ rfl (Nat.le_refl _) (fun e' he' => List.mem_of_mem_eraseP he')
    (fun f hf => .inl hf) (fun _ _ _ hr => hr) ?_ ?_ (fun f slot hpc => by cases hpc)
  · intro f hf
    rcases knows_popped hf with htask | hold
    · exact .inr ⟨h.queuedMade e hmem f htask, fun hcarries => hthread (.inr ⟨f, htask, hcarries⟩)⟩
    · exact .inl hold
  · intro hpc
    exact hthread (.inl (Pc.popped.inj hpc))

theorem drop_bound {task : Task κ} {thread : ι} {s : State ι κ} (h : Bound task thread s) (w : ι)
    (slot : Slot) : Bound task thread (s.drop w slot) :=
  bound_stay h w _ (drop_worker s w slot) (by simp) (by simp) (carries_of_cb (by simp) task)
    (fun f _ _ => by simp) (fun _ => dropped_knows) (fun hpc => by cases hpc)
    (fun f slot hpc => by cases hpc)

/-! ### Every step keeps it -/

/-- A fiber that is put back is not the task. -/
theorem reschedule_bound {task : Task κ} {thread : ι} {s : State ι κ} (h : Bound task thread s)
    {w : ι} {f : ℕ} {slot : Slot} (hpc : (s.worker w).pc = .put f slot) :
    Bound task thread ((s.push ⟨.fiber f, none⟩).drop w slot) := by
  have hmade := h.knownMade w f (.inl (by simp [hpc, Pc.named]))
  refine drop_bound (bound_push h _ ?_ ?_) w slot
  · intro hasks
    refine absurd ?_ (h.notPut w f slot hpc)
    rcases hasks with htask | ⟨g, hg, hcarries⟩
    · rw [← htask]
      rfl
    · obtain rfl : f = g := by simpa using hg
      exact hcarries
  · intro g hg
    obtain rfl : f = g := by simpa using hg
    exact hmade

theorem worked_bound {task : Task κ} {thread : ι} {s t : State ι κ} {w : ι} (h : Worked s w t)
    (hs : Bound task thread s) (hfor : ScheduledFor task thread s (.work w))
    (hkeep : KeepsThread task s (.work w)) : Bound task thread t := by
  cases h with
  | found e hpc hfind => exact found_bound hs hfind
  | fresh c hpc hcb =>
    have hnot : ¬ Carries s task s.made := by
      intro hcarries
      cases task with
      | fiber g => exact hfor c hpc hcb (congrArg Task.fiber hcarries.symm)
      | cb d => exact Nat.lt_irrefl _ (hs.carrierMade d _ rfl hcarries)
    refine given_bound hs hpc (Nat.le_succ _) (Nat.lt_succ_self _) (.inr hnot) ?_ rfl rfl
    intro _
    refine ⟨fun e he htask => ?_, fun u _ hknown => ?_⟩
    · exact Nat.lt_irrefl _ (hs.queuedMade e he _ htask)
    · exact Nat.lt_irrefl _ (hs.knownMade u _ hknown)
  | reuse c f r hpc hcb hr =>
    obtain rfl := Fiber.reset_eq hr
    exact given_bound hs hpc (Nat.le_refl _) (hs.knownMade w f (.inr hcb)) (.inl (.inr hcb))
      (fun htask => hkeep c f htask hpc hcb) rfl hcb
  | reschedule f slot hpc => exact reschedule_bound hs hpc
  | held f slot hpc =>
    exact bound_touch hs w _ (drop_worker _ w slot) (drop_fiber _ w slot) (by simp) (by simp)
      (fun c hc => hc) (fun hr => by cases hr) (fun _ => dropped_knows) (fun hpc' => by cases hpc')
      (fun g slot hpc' => by cases hpc')
  | swapIn f slot r hpc hr =>
    unfold Fiber.swapIn at hr
    split at hr
    · cases hr
    · cases hr
      refine bound_touch hs w _ rfl rfl rfl rfl (fun c hc => hc) (fun hr => by cases hr)
        (fun g hg => knows_goto hg (.inl ?_)) (fun hpc' => by cases hpc')
        (fun g slot hpc' => by cases hpc')
      simp [hpc, Pc.named]
  | swapOut f slot ctx hpc =>
    refine bound_touch hs w _ rfl rfl rfl rfl (fun c hc => hc) .inl
      (fun g hg => knows_goto hg (.inl ?_)) (fun hpc' => by cases hpc')
      (fun g slot hpc' => by cases hpc')
    simp [hpc, Pc.named]
  | wiped f r hpc hr =>
    obtain rfl := Fiber.reset_eq hr
    exact bound_touch hs w _ rfl rfl rfl rfl (fun c hc => by cases hc) (fun hr => by cases hr)
      (fun g hg => knows_goto hg (.inr (.inr rfl))) (fun hpc' => by cases hpc')
      (fun g slot hpc' => by cases hpc')
  | isReady f slot hpc hst =>
    refine bound_stay hs w _ rfl rfl rfl (fun _ => id) (fun _ _ _ hr => hr)
      (fun g hg => knows_goto hg (.inl ?_)) (fun hpc' => by cases hpc') ?_
    · simp [hpc, Pc.named]
    · intro g slot' hpc' hcarries
      cases hpc'
      exact hs.notReady f hcarries hst
  | _ =>
    refine bound_stay hs w _ rfl rfl rfl (fun _ => id) (fun _ _ _ hr => hr) (fun f hf => ?_)
      (fun hpc' => by cases hpc') (fun f slot hpc' => by cases hpc')
    exact knows_goto hf (by simp_all [Pc.named])

omit [DecidableEq ι] in
theorem called_bound {task : Task κ} {thread : ι} {s t : State ι κ} {c : Call ι κ}
    (h : Called s c t) (hs : Bound task thread s) (hfor : CallFor task thread s c) :
    Bound task thread t := by
  cases h with
  | made c =>
    have hold : ∀ f, Carries ({s with made := s.made + 1}.setFiber s.made (.new c)) task f →
        Carries s task f := by
      intro f hf
      rcases carries_setFiber hf with hold | ⟨_, d, rfl, hd⟩
      · exact hold
      · cases hd
        exact absurd rfl hfor
    refine ⟨?_, fun w f hf => hs.known w f (hold f hf), hs.popped, ?_,
      fun w f slot hpc hf => hs.notPut w f slot hpc (hold f hf),
      fun c f htask hf => Nat.lt_succ_of_lt (hs.carrierMade c f htask (hold f hf)),
      fun e he f hf => Nat.lt_succ_of_lt (hs.queuedMade e he f hf),
      fun w f hf => Nat.lt_succ_of_lt (hs.knownMade w f hf)⟩
    · intro e he hasks
      refine hs.queued e he (hasks.imp_right ?_)
      intro ⟨f, hf, hcarries⟩
      exact ⟨f, hf, hold f hcarries⟩
    · intro f hf hready
      by_cases hfm : f = s.made
      · subst hfm
        simp [setFiber, Fiber.new] at hready
      · exact hs.notReady f (hold f hf) (by simpa [setFiber, hfm] using hready)
  | fiber f thread' hf =>
    refine bound_push hs _ hfor ?_
    intro g hg
    obtain rfl : f = g := by simpa using hg
    exact hf
  | cb c thread' => exact bound_push hs _ hfor (fun g hg => by cases hg)

theorem bodied_bound {task : Task κ} {thread : ι} {s t : State ι κ} {w : ι} {f : ℕ} {slot : Slot}
    {b : Body ι κ} (hpc : (s.worker w).pc = .running f slot) (h : Bodied s w f slot b t)
    (hs : Bound task thread s) (hfor : ScheduledFor task thread s (.body w b))
    (hkeep : KeepsThread task s (.body w b)) : Bound task thread t := by
  have hknows : ∀ ctx g, ({s.worker w with pc := .leaving f slot ctx} : Worker κ).Knows g →
      (s.worker w).Knows g :=
    fun ctx g hg => knows_goto hg (.inl (by simp [hpc, Pc.named]))
  cases h with
  | call c t _ h => exact called_bound h hs hfor
  | ready r hcb hr =>
    have hnot : ¬ Carries s task f := fun hcarries => hkeep ⟨f, slot, hpc, hcarries⟩
    have hrcb : r.cb = (s.fiber f).cb := by
      unfold Fiber.yieldToReady at hr
      split at hr
      · cases hr
        rfl
      · cases hr
    exact bound_touch hs w _ rfl rfl rfl rfl (fun c hc => hrcb ▸ hc) (fun _ => .inr hnot) (hknows _)
      (fun hpc' => by cases hpc') (fun g slot hpc' => by cases hpc')
  | hold r hcb hr =>
    have hsame : r = s.fiber f := by
      unfold Fiber.yieldToHold at hr
      split at hr
      · exact (Option.some.inj hr).symm
      · cases hr
    subst hsame
    exact bound_touch hs w _ rfl rfl rfl rfl (fun c hc => hc) .inl (hknows _)
      (fun hpc' => by cases hpc') (fun g slot hpc' => by cases hpc')
  | «return» =>
    exact bound_touch hs w _ rfl rfl rfl rfl (fun c hc => by cases hc) (fun hr => by cases hr)
      (hknows _) (fun hpc' => by cases hpc') (fun g slot hpc' => by cases hpc')
  | throw =>
    exact bound_touch hs w _ rfl rfl rfl rfl (fun c hc => hc) (fun hr => by cases hr) (hknows _)
      (fun hpc' => by cases hpc') (fun g slot hpc' => by cases hpc')

theorem stopped_bound {task : Task κ} {thread : ι} {root : Option ι} {s t : State ι κ}
    (h : Stopped root s t) (hs : Bound task thread s) : Bound task thread t := by
  cases h with
  | enterRoot r =>
    exact bound_stay hs r _ rfl rfl rfl (fun _ => id) (fun _ _ _ hr => hr)
      (fun f hf => knows_goto hf (.inr (.inr rfl))) (fun hpc => by cases hpc)
      (fun f slot hpc => by cases hpc)
  | _ =>
    exact ⟨hs.queued, hs.known, hs.popped, hs.notReady, hs.notPut, hs.carrierMade, hs.queuedMade,
      hs.knownMade⟩

theorem initial_bound (task : Task κ) (thread : ι) (root : Option ι) :
    Bound task thread (.initial root : State ι κ) := by
  have hpc : ∀ w, ((State.initial root : State ι κ).worker w).pc = .unborn ∨
      ((State.initial root : State ι κ).worker w).pc = .top := by
    intro w
    simp only [State.initial]
    split
    · exact .inl rfl
    · exact .inr rfl
  have hknows : ∀ w f, ¬ ((State.initial root : State ι κ).worker w).Knows f := by
    rintro w f (hnamed | hcb)
    · rcases hpc w with h | h <;> simp [h, Pc.named] at hnamed
    · cases hcb
  refine ⟨by simp [State.initial], fun w f _ hf => absurd hf (hknows w f), fun w h => ?_,
    by simp [State.initial], fun w f slot h => ?_, ?_, by simp [State.initial],
    fun w f hf => absurd hf (hknows w f)⟩
  · rcases hpc w with h' | h' <;> simp [h'] at h
  · rcases hpc w with h' | h' <;> simp [h'] at h
  · intro c f htask hcarries
    subst htask
    cases hcarries

variable [Fintype ι]

theorem step_bound {task : Task κ} {thread : ι} {root : Option ι} {s t : State ι κ}
    {a : Action ι κ} (hs : Bound task thread s)
    (hrule : ScheduledFor task thread s a ∧ KeepsThread task s a)
    (h : (machine κ root).step s a = some t) : Bound task thread t := by
  obtain ⟨hfor, hkeep⟩ := hrule
  cases stepped_of_step h with
  | work w _ h => exact worked_bound h hs hfor hkeep
  | body w f slot b _ hpc h => exact bodied_bound hpc h hs hfor hkeep
  | outside c _ h => exact called_bound h hs hfor
  | stop _ h => exact stopped_bound h hs

/-- A task scheduled for one thread only runs on that thread, in every run in which it does not
yield with `YieldToReady` and is not put on a callback fiber that is still in other hands. -/
theorem segment_on_thread (root : Option ι) (task : Task κ) (thread : ι) (acts : List (Action ι κ))
    (s : State ι κ) (hfor : (machine κ root).Along (ScheduledFor task thread) (.initial root) acts)
    (hkeep : (machine κ root).Along (KeepsThread task) (.initial root) acts)
    (hrun : (machine κ root).run (.initial root) acts = some s) (w : ι)
    (hsegment : InSegment s w task) : w = thread := by
  have hbound : Bound task thread s :=
    Machine.run_invariant (fun _ _ _ => step_bound) (initial_bound task thread root)
      (hfor.and hkeep) hrun
  obtain ⟨f, slot, hpc, hcarries⟩ := hsegment
  exact hbound.known w f hcarries (.inl (by simp [hpc, Pc.named]))

/-- A fiber scheduled for `false`, which takes it and enters it. -/
def pinnedRun : List (Action Bool ℕ) :=
  [.outside (.make 0), .outside (.schedule (.fiber 0) (some false)), .work true, .work false,
    .work false, .work false]

theorem pinnedRun_scheduledFor :
    (machine ℕ none).Along (ScheduledFor (.fiber 0) false) (.initial none) pinnedRun :=
  .cons (fun h => nomatch h) rfl <| .cons (fun _ => rfl) rfl <| .cons (fun _ h => nomatch h) rfl <|
    .cons (fun _ h => nomatch h) rfl <| .cons (fun _ h => nomatch h) rfl <|
    .cons (fun _ h => nomatch h) rfl trivial

theorem pinnedRun_keepsThread :
    (machine ℕ none).Along (KeepsThread (.fiber 0)) (.initial none) pinnedRun :=
  .cons trivial rfl <| .cons trivial rfl <| .cons (fun _ _ h => nomatch h) rfl <|
    .cons (fun _ _ h => nomatch h) rfl <| .cons (fun _ _ h => nomatch h) rfl <|
    .cons (fun _ _ h => nomatch h) rfl trivial

theorem pinnedRun_segment :
    ∃ s : State Bool ℕ, (machine ℕ none).run (.initial none) pinnedRun = some s ∧
      InSegment s false (.fiber 0) ∧ ∀ w, InSegment s w (.fiber 0) → w = false :=
  ⟨_, rfl, ⟨0, .ft, rfl, rfl⟩, segment_on_thread none (.fiber 0) false pinnedRun _
    pinnedRun_scheduledFor pinnedRun_keepsThread rfl⟩

/-- The fiber yields with `YieldToReady`, and the other worker takes it. -/
def unpinnedRun : List (Action Bool ℕ) :=
  pinnedRun ++ [.body false .yieldToReady, .work false, .work false, .work false, .work false,
    .work true, .work true, .work true, .work true, .work true]

/-- The same with a callback. -/
def unpinnedCbRun : List (Action Bool ℕ) :=
  [.outside (.schedule (.cb 0) (some false)), .work false, .work false, .work false,
    .body false .yieldToReady, .work false, .work false, .work false, .work false, .work true,
    .work true, .work true]

theorem unpinnedRun_scheduledFor :
    (machine ℕ none).Along (ScheduledFor (.fiber 0) false) (.initial none) unpinnedRun :=
  .cons (fun h => nomatch h) rfl <| .cons (fun _ => rfl) rfl <|
    .cons (fun _ h => nomatch h) rfl <| .cons (fun _ h => nomatch h) rfl <|
    .cons (fun _ h => nomatch h) rfl <| .cons (fun _ h => nomatch h) rfl <| .cons trivial rfl <|
    .cons (fun _ h => nomatch h) rfl <| .cons (fun _ h => nomatch h) rfl <|
    .cons (fun _ h => nomatch h) rfl <| .cons (fun _ h => nomatch h) rfl <|
    .cons (fun _ h => nomatch h) rfl <| .cons (fun _ h => nomatch h) rfl <|
    .cons (fun _ h => nomatch h) rfl <| .cons (fun _ h => nomatch h) rfl <|
    .cons (fun _ h => nomatch h) rfl <| trivial

theorem unpinnedCbRun_scheduledFor :
    (machine ℕ none).Along (ScheduledFor (.cb 0) false) (.initial none) unpinnedCbRun :=
  .cons (fun _ => rfl) rfl <| .cons (fun _ h => nomatch h) rfl <|
    .cons (fun _ _ _ h => nomatch h) rfl <| .cons (fun _ h => nomatch h) rfl <|
    .cons trivial rfl <| .cons (fun _ h => nomatch h) rfl <| .cons (fun _ h => nomatch h) rfl <|
    .cons (fun _ h => nomatch h) rfl <| .cons (fun _ h => nomatch h) rfl <|
    .cons (fun _ h => nomatch h) rfl <| .cons (fun _ h => nomatch h) rfl <|
    .cons (fun _ h => nomatch h) rfl <| trivial

/-- On both branches of the loop the second segment runs on the other thread. -/
theorem segment_elsewhere :
    (∃ s : State Bool ℕ, (machine ℕ none).Along (ScheduledFor (.fiber 0) false) (.initial none)
        unpinnedRun ∧ (machine ℕ none).run (.initial none) unpinnedRun = some s ∧
      InSegment s true (.fiber 0)) ∧
    ∃ s : State Bool ℕ, (machine ℕ none).Along (ScheduledFor (.cb 0) false) (.initial none)
        unpinnedCbRun ∧ (machine ℕ none).run (.initial none) unpinnedCbRun = some s ∧
      InSegment s true (.cb 0) :=
  ⟨⟨_, unpinnedRun_scheduledFor, rfl, ⟨0, .ft, rfl, rfl⟩⟩,
    ⟨_, unpinnedCbRun_scheduledFor, rfl, ⟨0, .ft, rfl, rfl⟩⟩⟩

end SimpleHttpServer.Scheduler
