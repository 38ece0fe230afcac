import SimpleHttpServer.Scheduler.Active
import SimpleHttpServer.Scheduler.Tidy
import Mathlib.Algebra.BigOperators.Group.Multiset.Basic

/-! Where every scheduled callback is.

A callback handed to `schedule` waits in the queue, is in the hands of a worker, or has
ended; a fiber that yielded carries its callback through the queue again. On a run that
schedules callbacks only, the three always add up (`Accounted`): nothing is lost on the way
and nothing is run twice. -/
namespace SimpleHttpServer.Scheduler
open State
open scoped BigOperators

variable {ι κ : Type}

/-- The callback a fiber has yet to finish. -/
def pending (r : Fiber κ) : Multiset κ :=
  match r.cb with
  | some c => {c}
  | none => 0

/-- The callback a queue entry stands for. -/
def FiberAndThread.holds (fiber : ℕ → Fiber κ) (e : FiberAndThread ι κ) : Multiset κ :=
  match e.task with
  | .fiber f => pending (fiber f)
  | .cb c => {c}

/-- The callback in the hands of a worker at this point: once the body is left, it is there
only if the fiber will be scheduled again. -/
def Pc.holds (fiber : ℕ → Fiber κ) : Pc κ → Multiset κ
  | .popped (.fiber f) | .enter f _ | .running f _ | .put f _ => pending (fiber f)
  | .popped (.cb c) => {c}
  | .leaving f .. | .back f _ | .after f _ =>
    if (fiber f).state = .ready then pending (fiber f) else 0
  | _ => 0

/-- The callbacks in the queue. -/
def State.waiting (s : State ι κ) : Multiset κ := (s.fibers.map (·.holds s.fiber)).sum

theorem Pc.holds_congr {fiber fiber' : ℕ → Fiber κ} (pc : Pc κ)
    (h : ∀ f, pc.named = some f → fiber f = fiber' f) : pc.holds fiber = pc.holds fiber' := by
  cases pc with
  | popped task =>
    cases task with
    | fiber f => simp only [Pc.holds, h f rfl]
    | cb c => rfl
  | enter f slot | running f slot | put f slot | leaving f slot | back f slot | after f slot =>
    simp only [Pc.holds, h f rfl]
  | _ => rfl

theorem waiting_congr {s t : State ι κ} (hqueue : t.fibers = s.fibers)
    (h : ∀ f ∈ s.queued, t.fiber f = s.fiber f) : t.waiting = s.waiting := by
  unfold State.waiting
  rw [hqueue]
  congr 1
  refine List.map_congr_left fun e he => ?_
  obtain ⟨task, thread⟩ := e
  cases task with
  | fiber f => simp only [FiberAndThread.holds, h f (mem_queued.mpr ⟨_, he, rfl⟩)]
  | cb c => rfl

theorem waiting_push (s : State ι κ) (e : FiberAndThread ι κ) :
    (s.push e).waiting = s.waiting + e.holds s.fiber := by
  simp [State.waiting, push]

theorem popped_holds (fiber : ℕ → Fiber κ) (e : FiberAndThread ι κ) :
    (Pc.popped e.task).holds fiber = e.holds fiber := by
  obtain ⟨task, thread⟩ := e
  cases task <;> rfl

variable [DecidableEq ι]

theorem waiting_drop (s : State ι κ) (w : ι) (slot : Slot) :
    (s.drop w slot).waiting = s.waiting := by
  simp [State.waiting]

/-- A worker's step neither schedules nor ends a callback. -/
theorem Worked.history {s t : State ι κ} {w : ι} (h : Worked s w t) :
    t.scheduled = s.scheduled ∧ t.ended = s.ended := by
  cases h with
  | reschedule f slot | held f slot => cases slot <;> exact ⟨rfl, rfl⟩
  | _ => exact ⟨rfl, rfl⟩

theorem waiting_found {s : State ι κ} {w : ι} {e : FiberAndThread ι κ}
    (h : s.fibers.find? (s.takes w) = some e) :
    s.waiting = e.holds s.fiber + ((s.fibers.eraseP (s.takes w)).map (·.holds s.fiber)).sum := by
  have hperm := (Queue.perm_cons_eraseP h).map (·.holds s.fiber)
  rw [State.waiting, hperm.sum_eq, List.map_cons, List.sum_cons]

/-- What this worker and the queue hold together stays. -/
theorem Worked.balance {s t : State ι κ} {w : ι} (h : Worked s w t) (hs : Tidy s) :
    t.waiting + (t.worker w).pc.holds t.fiber = s.waiting + (s.worker w).pc.holds s.fiber := by
  have hwait : t.fibers = s.fibers → t.waiting = s.waiting := fun hqueue =>
    waiting_congr hqueue fun f hf => h.untouched (hs.queuedMade f hf) (hs.away f hf w)
  cases h with
  | found e hpc hfind =>
    rw [waiting_found hfind, hpc, add_comm (e.holds s.fiber)]
    simp only [goto, setWorker, Function.update_self, popped_holds]
    exact (add_zero _).symm
  | reschedule f slot hpc =>
    rw [waiting_drop, waiting_push, drop_worker, Function.update_self, hpc]
    simp [dropped, Pc.holds, FiberAndThread.holds]
  | held f slot hpc =>
    rw [hwait (by simp), drop_worker, Function.update_self, hpc]
    simp [dropped, Pc.holds]
  | refuse f hpc hfin =>
    have hready := hs.needed w f (by simp [hpc, Pc.needsReady])
    simp [hready, Fiber.State.finished] at hfin
  | reuse c f r hpc hcb hr =>
    have hcb' : r.cb = some c := by
      unfold Fiber.reset at hr
      split at hr
      · cases hr
        rfl
      · cases hr
    rw [hwait rfl, hpc]
    simp [goto, setWorker, setFiber, Pc.holds, pending, hcb']
  | swapIn f slot r hpc hr =>
    have hcb' : r.cb = (s.fiber f).cb := by
      unfold Fiber.swapIn at hr
      split at hr
      · cases hr
      · cases hr
        rfl
    rw [hwait rfl, hpc]
    simp [goto, setWorker, setFiber, Pc.holds, pending, hcb']
  | fresh c hpc =>
    rw [hwait rfl, hpc]
    simp [setWorker, setFiber, Pc.holds, pending, Fiber.new]
  | swapOut f slot ctx hpc =>
    rw [hwait rfl, hpc]
    simp [goto, setWorker, setFiber, Pc.holds, pending]
  | lower f slot hpc =>
    rw [hwait rfl, hpc]
    simp only [goto, setWorker, Function.update_self]
    rfl
  | missed hpc | accept _ hpc | isReady _ _ hpc hst
  | notReady _ _ hpc hst | settled _ hpc | wiping _ hpc | unsettled _ _ hpc | wiped _ _ hpc
  | skipped hpc | exit hpc | goIdle hpc | idleEnd hpc | idleHold hpc =>
    rw [hwait rfl, hpc]
    simp_all [goto, setWorker, setFiber, Pc.holds]

variable [Fintype ι]

/-- What is in the hands of the workers. -/
def State.inHand (s : State ι κ) : Multiset κ := ∑ w, (s.worker w).pc.holds s.fiber

def Accounted (s : State ι κ) : Prop := s.scheduled = s.ended + s.waiting + s.inHand

/-- One worker moves, the others hold what they held, and what this worker gains or loses
is matched by the queue and the history. -/
theorem accounted_move {s t : State ι κ} (hs : Accounted s) (w : ι)
    (hothers : ∀ i, i ≠ w → (t.worker i).pc.holds t.fiber = (s.worker i).pc.holds s.fiber)
    (hbalance : t.waiting + (t.worker w).pc.holds t.fiber + t.ended + s.scheduled =
      s.waiting + (s.worker w).pc.holds s.fiber + s.ended + t.scheduled) : Accounted t := by
  classical
  have hsum := Tally.sum_change (fun i => (s.worker i).pc.holds s.fiber)
    (fun i => (t.worker i).pc.holds t.fiber) w hothers
  unfold Accounted State.inHand at *
  ext c
  have hs' := congrArg (Multiset.count c) hs
  have hsum' := congrArg (Multiset.count c) hsum
  have hbalance' := congrArg (Multiset.count c) hbalance
  simp only [Multiset.count_add] at hs' hsum' hbalance' ⊢
  omega

theorem worked_accounted {s t : State ι κ} {w : ι} (h : Worked s w t) (ht : Tidy s)
    (hs : Accounted s) : Accounted t := by
  obtain ⟨hsched, hended⟩ := h.history
  refine accounted_move hs w (fun i hi => ?_) ?_
  · rw [h.frame.others i hi]
    refine Pc.holds_congr _ fun f hf => ?_
    exact h.untouched (ht.known i f (.inl hf)) (ht.apart i w f hi (.inl hf))
  · rw [h.balance ht, hsched, hended]

omit [DecidableEq ι] in
/-- A callback is scheduled: it joins the queue. -/
theorem push_accounted {s : State ι κ} (c : κ) (thread : Option ι) (hs : Accounted s) :
    Accounted (s.push ⟨.cb c, thread⟩) := by
  unfold Accounted at *
  rw [waiting_push]
  show c ::ₘ s.scheduled = s.ended + (s.waiting + {c}) + s.inHand
  rw [hs, ← Multiset.singleton_add]
  ac_rfl

/-- The body of a fiber is left: its callback has ended, or stays with the `READY` fiber. -/
theorem leaving_accounted {s t : State ι κ} {w : ι} {f : ℕ} {slot : Slot} {ctx : Fiber.Context}
    (ht : Tidy s) (hs : Accounted s) (hpc : (s.worker w).pc = .running f slot)
    (hw : t.worker = Function.update s.worker w {s.worker w with pc := .leaving f slot ctx})
    (hqueue : t.fibers = s.fibers) (hfiber : ∀ g, g ≠ f → t.fiber g = s.fiber g)
    (hsched : t.scheduled = s.scheduled)
    (hkept : (Pc.leaving f slot ctx).holds t.fiber + t.ended = pending (s.fiber f) + s.ended) :
    Accounted t := by
  have hknown : (s.worker w).Knows f := .inl (by simp [hpc, Pc.named])
  have hwait : t.waiting = s.waiting :=
    waiting_congr hqueue fun g hg => hfiber g (unknown_ne hknown (ht.away g hg w))
  refine accounted_move hs w (fun i hi => ?_) ?_
  · rw [hw, Function.update_of_ne hi]
    refine Pc.holds_congr _ fun g hg => hfiber g ?_
    exact unknown_ne hknown (ht.apart i w g hi (.inl hg))
  · rw [hw, Function.update_self, hwait, hsched, hpc, add_assoc s.waiting, hkept]
    simp only [Pc.holds]
    ac_rfl

theorem bodied_accounted {s t : State ι κ} {w : ι} {f : ℕ} {slot : Slot} {b : Body ι κ}
    (hpc : (s.worker w).pc = .running f slot) (h : Bodied s w f slot b t)
    (hrule : CallbacksOnly s (.body w b)) (ht : Tidy s) (hs : Accounted s) : Accounted t := by
  cases h with
  | call c t _ h =>
    cases h with
    | made c => exact hrule.elim
    | fiber g thread hg => exact hrule.elim
    | cb c thread => exact push_accounted c thread hs
  | hold => exact hrule.elim
  | ready r hcb hr =>
    have hkept : r.cb = (s.fiber f).cb ∧ r.state = .ready := by
      unfold Fiber.yieldToReady at hr
      split at hr
      · cases hr
        exact ⟨rfl, rfl⟩
      · cases hr
    refine leaving_accounted ht hs hpc rfl rfl (fun g hg => ?_) rfl ?_
    · simp [goto, setWorker, setFiber, hg]
    · simp [goto, setWorker, setFiber, Pc.holds, pending, hkept]
  | «return» =>
    refine leaving_accounted ht hs hpc rfl rfl (fun g hg => ?_) rfl ?_
    · simp [goto, setWorker, setFiber, State.finish, hg]
    · cases hc : (s.fiber f).cb <;>
        simp [goto, setWorker, setFiber, Pc.holds, pending, Fiber.finish, State.finish, hc]
  | throw =>
    refine leaving_accounted ht hs hpc rfl rfl (fun g hg => ?_) rfl ?_
    · simp [goto, setWorker, setFiber, State.finish, hg]
    · cases hc : (s.fiber f).cb <;>
        simp [goto, setWorker, setFiber, Pc.holds, pending, Fiber.fail, State.finish, hc]

theorem stopped_accounted {root : Option ι} {s t : State ι κ} (h : Stopped root s t)
    (hwaits : RootWaits root s) (hs : Accounted s) : Accounted t := by
  cases h with
  | enterRoot r h hroot =>
    have hun := hwaits (by simp [h]) r hroot
    refine accounted_move hs r (fun i hi => ?_) ?_
    · simp [goto, setWorker, hi]
    · simp [goto, setWorker, hun, Pc.holds, State.waiting]
  | _ => exact hs

theorem step_accounted {root : Option ι} {s t : State ι κ} {a : Action ι κ}
    (hwaits : RootWaits root s) (ht : Tidy s) (hs : Accounted s) (hrule : CallbacksOnly s a)
    (h : (machine κ root).step s a = some t) : Accounted t := by
  cases stepped_of_step h with
  | work w _ h => exact worked_accounted h ht hs
  | body w f slot b _ hpc h => exact bodied_accounted hpc h hrule ht hs
  | outside c _ h =>
    cases h with
    | made c => exact hrule.elim
    | fiber f thread hf => exact hrule.elim
    | cb c thread => exact push_accounted c thread hs
  | stop _ h => exact stopped_accounted h hwaits hs

theorem initial_accounted (root : Option ι) : Accounted (.initial root : State ι κ) := by
  have hnone : ∀ w, ((State.initial root : State ι κ).worker w).pc.holds
      (State.initial root : State ι κ).fiber = 0 := by
    intro w
    simp only [State.initial]
    split <;> rfl
  unfold Accounted State.inHand
  simp only [hnone, Finset.sum_const_zero]
  rfl

end SimpleHttpServer.Scheduler
