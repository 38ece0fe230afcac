import SimpleHttpServer.Scheduler.Placed

/-! Runs that schedule callbacks only.

If nobody schedules a fiber by hand and no body yields with `YieldToHold`, the only
fibers in the queue are those that `run` puts back itself. Then every fiber is in one
place: queued once, or known to one worker (`Tidy`), and a queued fiber is `READY`, so
no scan passes over it. -/
namespace SimpleHttpServer.Scheduler
open State

variable {ι κ : Type}

/-- Callbacks are scheduled from outside until `stop()` is called and by bodies at any
time; bodies yield with `YieldToReady`, return or throw. -/
def CallbacksOnly (s : State ι κ) : Action ι κ → Prop
  | .outside (.schedule (.cb _) _) => s.caller = .serving
  | .outside _ => False
  | .body _ (.call (.schedule (.cb _) _)) => True
  | .body _ (.call _) | .body _ .yieldToHold => False
  | .body .. | .work _ | .stop => True

instance : (s : State ι κ) → (a : Action ι κ) → Decidable (CallbacksOnly s a)
  | _, .outside (.schedule (.cb _) _) => inferInstanceAs (Decidable (_ = _))
  | _, .outside (.schedule (.fiber _) _) | _, .outside (.make _) => isFalse id
  | _, .body _ (.call (.schedule (.cb _) _)) => isTrue trivial
  | _, .body _ (.call (.schedule (.fiber _) _)) | _, .body _ (.call (.make _))
  | _, .body _ .yieldToHold => isFalse id
  | _, .body _ .yieldToReady | _, .body _ .return | _, .body _ .throw | _, .work _ | _, .stop =>
    isTrue trivial

/-- The fiber this point of the loop relies on to be `READY`. -/
def Pc.needsReady : Pc κ → Option ℕ
  | .popped (.fiber f) | .put f _ => some f
  | _ => none

structure Tidy (s : State ι κ) : Prop where
  once : s.queued.Nodup
  away : ∀ f ∈ s.queued, ∀ w, ¬ (s.worker w).Knows f
  apart : ∀ v w f, v ≠ w → (s.worker v).Knows f → ¬ (s.worker w).Knows f
  known : ∀ w f, (s.worker w).Knows f → f < s.made
  queuedMade : ∀ f ∈ s.queued, f < s.made
  ready : ∀ f ∈ s.queued, (s.fiber f).state = .ready
  split : ∀ w, (s.worker w).Split
  needed : ∀ w f, (s.worker w).pc.needsReady = some f → (s.fiber f).state = .ready

theorem Tidy.placed {s : State ι κ} (h : Tidy s) : Placed s :=
  ⟨h.once, h.away, h.apart, h.known, h.queuedMade, h.split⟩

/-- Placed fibers, and every one that is queued or relied on is `READY`. -/
theorem Placed.tidy {s : State ι κ} (h : Placed s)
    (hready : ∀ f ∈ s.queued, (s.fiber f).state = .ready)
    (hneeded : ∀ w f, (s.worker w).pc.needsReady = some f → (s.fiber f).state = .ready) : Tidy s :=
  ⟨h.once, h.away, h.apart, h.known, h.queuedMade, hready, h.split, hneeded⟩

theorem Pc.needsReady_named {pc : Pc κ} {f : ℕ} (h : pc.needsReady = some f) :
    pc.named = some f := by
  cases pc with
  | popped task => cases task <;> simp_all [Pc.needsReady, Pc.named]
  | _ => simp_all [Pc.needsReady, Pc.named]

/-- Any callback may join the queue. -/
theorem tidy_push_cb {s : State ι κ} (h : Tidy s) (c : κ) (thread : Option ι) :
    Tidy (s.push ⟨.cb c, thread⟩) := by
  refine (placed_push h.placed _ (fun f hf => by cases hf)).tidy ?_ h.needed
  rw [queued_push_cb]
  exact h.ready

variable [DecidableEq ι]

/-- One worker moves: what it puts into the queue is `READY`, it changes no fiber made before
but one it knows, and its new place fits. -/
theorem tidy_move {s t : State ι κ} (h : Tidy s) (ht : Placed t) (w : ι)
    (hothers : ∀ u, u ≠ w → t.worker u = s.worker u)
    (hfiber : ∀ f, f < s.made → ¬ (s.worker w).Knows f → t.fiber f = s.fiber f)
    (hqueue : ∀ f ∈ t.queued, f ∈ s.queued ∨ (t.fiber f).state = .ready)
    (hneeded : ∀ f, (t.worker w).pc.needsReady = some f → (t.fiber f).state = .ready) : Tidy t := by
  refine ht.tidy ?_ ?_
  · intro f hf
    rcases hqueue f hf with hold | hready
    · rw [hfiber f (h.queuedMade f hold) (h.away f hold w)]
      exact h.ready f hold
    · exact hready
  · intro u f hf
    by_cases hu : u = w
    · subst hu
      exact hneeded f hf
    · rw [hothers u hu] at hf
      have hknown : (s.worker u).Knows f := .inl (Pc.needsReady_named hf)
      rw [hfiber f (h.known u f hknown) (h.apart u w f hu hknown)]
      exact h.needed u f hf

/-! ### Every step keeps it -/

/-- What a worker's step leaves in the queue was there before, or is `READY`. -/
theorem Worked.queue_ready {s t : State ι κ} {w : ι} (h : Worked s w t) (hs : Tidy s) :
    ∀ f ∈ t.queued, f ∈ s.queued ∨ (t.fiber f).state = .ready := by
  cases h with
  | found e _ hfind =>
    intro f hf
    exact .inl ((queued_found hfind).mem_iff.mpr (List.mem_append_right _ hf))
  | reschedule g slot hpc =>
    rw [push_drop]
    intro f hf
    rw [queued_push_fiber, List.mem_append, List.mem_singleton] at hf
    rcases hf with hold | rfl
    · exact .inl (by simpa [State.queued] using hold)
    · right
      rw [push_fiber, drop_fiber]
      exact hs.needed w f (by simp [hpc, Pc.needsReady])
  | held g slot =>
    intro f hf
    exact .inl (by simpa [State.queued] using hf)
  | _ => exact fun f hf => .inl hf

/-- Where a worker relies on a fiber to be `READY`, it is. -/
theorem Worked.needs_ready {s t : State ι κ} {w : ι} (h : Worked s w t) (hs : Tidy s) :
    ∀ f, (t.worker w).pc.needsReady = some f → (t.fiber f).state = .ready := by
  cases h with
  | found e _ hfind =>
    obtain ⟨task, thread⟩ := e
    intro f hf
    cases task with
    | cb c => simp [goto, setWorker, Pc.needsReady] at hf
    | fiber g =>
      obtain rfl : g = f := by simpa [goto, setWorker, Pc.needsReady] using hf
      exact hs.ready g (mem_queued.mpr ⟨_, List.mem_of_find?_eq_some hfind, rfl⟩)
  | isReady g slot hpc hst =>
    intro f hf
    obtain rfl : g = f := by simpa [goto, setWorker, Pc.needsReady] using hf
    exact hst
  | reschedule | held => intro f hf; simp [drop_worker, dropped, Pc.needsReady] at hf
  | _ => intro f hf; simp [goto, setWorker, Pc.needsReady] at hf

theorem worked_tidy {s t : State ι κ} {w : ι} (h : Worked s w t) (hs : Tidy s) : Tidy t :=
  tidy_move hs (worked_placed h hs.placed) w h.frame.others (fun _ => h.untouched)
    (h.queue_ready hs) (h.needs_ready hs)

/-- The body of a fiber changes that fiber only, and keeps its worker's place. -/
theorem leaving_tidy {s t : State ι κ} {w : ι} {f : ℕ} {slot : Slot} {ctx : Fiber.Context}
    (hs : Tidy s) (hpc : (s.worker w).pc = .running f slot)
    (hw : t.worker = Function.update s.worker w {s.worker w with pc := .leaving f slot ctx})
    (hmade : s.made = t.made) (hqueue : t.fibers = s.fibers)
    (hfiber : ∀ g, g ≠ f → t.fiber g = s.fiber g) : Tidy t := by
  have hknown : (s.worker w).Knows f := .inl (by simp [hpc, Pc.named])
  refine tidy_move hs (leaving_placed hs.placed hpc hw hmade hqueue) w ?_
    (fun g _ hg => hfiber g (unknown_ne hknown hg)) ?_ ?_
  · intro u hu
    rw [hw, Function.update_of_ne hu]
  · intro g hg
    exact .inl (by simpa only [State.queued, hqueue] using hg)
  · intro g hg
    rw [hw, Function.update_self] at hg
    cases hg

theorem bodied_tidy {s t : State ι κ} {w : ι} {f : ℕ} {slot : Slot} {b : Body ι κ}
    (hpc : (s.worker w).pc = .running f slot) (h : Bodied s w f slot b t)
    (hrule : CallbacksOnly s (.body w b)) (hs : Tidy s) : Tidy t := by
  cases h with
  | call c t _ h =>
    cases h with
    | made c => exact hrule.elim
    | fiber g thread hg => exact hrule.elim
    | cb c thread => exact tidy_push_cb hs c thread
  | hold => exact hrule.elim
  | ready | «return» | throw =>
    exact leaving_tidy hs hpc rfl rfl rfl (fun g hg => by simp [goto, setWorker, setFiber, hg,
      State.finish])

theorem stopped_tidy {root : Option ι} {s t : State ι κ} (h : Stopped root s t) (hs : Tidy s) :
    Tidy t := by
  cases h with
  | enterRoot r =>
    refine tidy_move hs (enterRoot_placed hs.placed r .inRoot) r ?_ (fun _ _ _ => rfl)
      (fun _ hf => .inl hf) ?_
    · intro u hu
      simp [goto, setWorker, hu]
    · intro f hf
      simp [goto, setWorker, Pc.needsReady] at hf
  | _ => exact ⟨hs.once, hs.away, hs.apart, hs.known, hs.queuedMade, hs.ready, hs.split, hs.needed⟩

theorem initial_tidy (root : Option ι) : Tidy (.initial root : State ι κ) := by
  have hnamed : ∀ w, ((State.initial root : State ι κ).worker w).pc.named = none := by
    intro w
    simp only [State.initial]
    split <;> rfl
  have hknows : ∀ w f, ¬ ((State.initial root : State ι κ).worker w).Knows f := by
    rintro w f (h | h)
    · simp [hnamed] at h
    · simp [State.initial] at h
  refine (placed_of_empty rfl hknows).tidy (by simp [State.queued, State.initial]) ?_
  intro w f hf
  exact absurd (.inl (Pc.needsReady_named hf)) (hknows w f)

variable [Fintype ι]

theorem step_tidy {root : Option ι} {s t : State ι κ} {a : Action ι κ} (hs : Tidy s)
    (hrule : CallbacksOnly s a) (h : (machine κ root).step s a = some t) : Tidy t := by
  cases stepped_of_step h with
  | work w _ h => exact worked_tidy h hs
  | body w f slot b _ hpc h => exact bodied_tidy hpc h hrule hs
  | outside c _ h =>
    cases h with
    | made c => exact hrule.elim
    | fiber f thread hf => exact hrule.elim
    | cb c thread => exact tidy_push_cb hs c thread
  | stop _ h => exact stopped_tidy h hs

end SimpleHttpServer.Scheduler
