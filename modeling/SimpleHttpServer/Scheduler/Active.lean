import SimpleHttpServer.Scheduler.Steps
import SimpleHttpServer.Lib.Tally

/-! What `m_activeThreadCount` counts, and when `stopping()` may be believed.

The counter is the number of workers between the scan that took an entry and
the decrement behind the switch (`reachable_consistent`), on every run. So `stopping()` never
overlooks an entry that is queued or still held — but a worker that found its
fiber `READY` has already lowered the counter when it puts the fiber back, and
in that window `stopping()` can answer true although work remains. It asks for
both flags of `stop()` first: a run whose steps keep the window clear while the
two are set (`InTime`, `clear_iff_inTime`) can believe it throughout. -/
namespace SimpleHttpServer.Scheduler
open State

/-- Whether a worker at this point is counted. -/
def Pc.counted {κ : Type} : Pc κ → ℕ
  | .popped _ | .enter .. | .running .. | .leaving .. | .back .. | .skip => 1
  | _ => 0

variable {ι κ : Type} [DecidableEq ι] [Fintype ι]

/-- The counter is the number of counted workers. -/
def Counted (s : State ι κ) : Prop :=
  s.activeThreadCount = (∑ w, (s.worker w).pc.counted : ℕ)

/-- A step that moves one worker keeps the count if it moves the counter along. -/
theorem counted_of_update {s t : State ι κ} (h : Counted s) (w : ι) (v : Worker κ)
    (hw : t.worker = Function.update s.worker w v)
    (hc : t.activeThreadCount + (s.worker w).pc.counted = s.activeThreadCount + v.pc.counted) :
    Counted t := by
  have := Tally.sum_update (fun x : Worker κ => x.pc.counted) s.worker w v
  unfold Counted at h ⊢
  rw [hw]
  omega

theorem worked_counted {s t : State ι κ} {w : ι} (h : Worked s w t) (hs : Counted s) :
    Counted t := by
  cases h with
  | found _ hpc | missed hpc | refuse _ hpc | accept _ hpc | reuse _ _ _ hpc | fresh _ hpc
  | swapIn _ _ _ hpc | swapOut _ _ _ hpc | lower _ _ hpc | isReady _ _ hpc | notReady _ _ hpc
  | settled _ hpc | wiping _ hpc | unsettled _ _ hpc | wiped _ _ hpc | skipped hpc | exit hpc
  | goIdle hpc | idleEnd hpc | idleHold hpc =>
    exact counted_of_update hs w _ rfl (by simp [hpc, Pc.counted, goto, setWorker, setFiber])
  | reschedule _ slot hpc | held _ slot hpc =>
    exact counted_of_update hs w _ (drop_worker _ w slot)
      (by cases slot <;> simp [hpc, Pc.counted, drop, dropped, goto, setWorker, setFiber, push])

omit [DecidableEq ι] in
theorem called_counted {s t : State ι κ} {c : Call ι κ} (h : Called s c t) (hs : Counted s) :
    Counted t := by
  obtain ⟨hw, _, _, _, ha⟩ := h.frame
  unfold Counted
  rw [hw, ha]
  exact hs

theorem bodied_counted {s t : State ι κ} {w : ι} {f : ℕ} {slot : Slot} {b : Body ι κ}
    (hpc : (s.worker w).pc = .running f slot) (h : Bodied s w f slot b t) (hs : Counted s) :
    Counted t := by
  cases h with
  | call c t _ h => exact called_counted h hs
  | _ =>
    exact counted_of_update hs w _ rfl
      (by simp [hpc, Pc.counted, goto, setWorker, setFiber, State.finish])

/-- Until `stop()` calls the root fiber, the caller's own thread is not in `run`. -/
def RootWaits (root : Option ι) (s : State ι κ) : Prop :=
  s.caller = .serving ∨ s.caller = .begun ∨ s.caller = .early ∨ s.caller = .flag ∨
    s.caller = .tickled → ∀ r, root = some r → (s.worker r).pc = .unborn

/-- What holds of the counter and of the caller's thread on every run. -/
structure Consistent (root : Option ι) (s : State ι κ) : Prop where
  waits : RootWaits root s
  counted : Counted s

omit [Fintype ι] in
theorem Worked.not_unborn {s t : State ι κ} {w : ι} (h : Worked s w t) :
    (s.worker w).pc ≠ .unborn := by
  cases h <;> simp [*]

omit [DecidableEq ι] [Fintype ι] in
theorem rootWaits_frame {root : Option ι} {s t : State ι κ} {w : ι} (h : Frame s w t)
    (hw : (s.worker w).pc ≠ .unborn) (hs : RootWaits root s) : RootWaits root t := by
  intro hc r hr
  rw [h.caller] at hc
  have hun := hs hc r hr
  rw [h.others r (fun he => hw (he ▸ hun))]
  exact hun

theorem stopped_consistent {root : Option ι} {s t : State ι κ} (h : Stopped root s t)
    (hs : Consistent root s) : Consistent root t := by
  obtain ⟨hroot, hcount⟩ := hs
  cases h with
  | enterRoot r h hr =>
    have hun := hroot (by simp [h]) r hr
    refine ⟨by simp [RootWaits, goto, setWorker], ?_⟩
    exact counted_of_update hcount r _ rfl (by simp [hun, Pc.counted, goto, setWorker])
  | earlyEnd | noRoot | skipRoot | rootBack | joined => exact ⟨by simp [RootWaits], hcount⟩
  | begin h | short h | long h | earlyGo h | flagged h =>
    exact ⟨fun _ => hroot (by simp [h]), hcount⟩

theorem step_consistent {root : Option ι} {s t : State ι κ} {a : Action ι κ}
    (hs : Consistent root s) (h : (machine κ root).step s a = some t) : Consistent root t := by
  cases stepped_of_step h with
  | work w _ h => exact ⟨rootWaits_frame h.frame h.not_unborn hs.1, worked_counted h hs.2⟩
  | body w f slot b _ hpc h =>
    exact ⟨rootWaits_frame h.frame (by simp [hpc]) hs.1, bodied_counted hpc h hs.2⟩
  | outside c _ h =>
    obtain ⟨hw, hc, _⟩ := h.frame
    exact ⟨by unfold RootWaits; rw [hw, hc]; exact hs.1, called_counted h hs.2⟩
  | stop _ h => exact stopped_consistent h hs

theorem initial_consistent (root : Option ι) : Consistent (κ := κ) root (.initial root) := by
  refine ⟨fun _ r hr => by simp [State.initial, hr], ?_⟩
  have hzero : ∀ w, ((State.initial (κ := κ) root).worker w).pc.counted = 0 := by
    intro w
    simp only [State.initial]
    split <;> rfl
  simp [Counted, hzero]
  rfl

/-- The worker holds a task that it is still going to run. -/
def WillRun (s : State ι κ) (w : ι) : Prop :=
  match (s.worker w).pc with
  | .popped (.fiber f) => (s.fiber f).state.finished = false
  | .popped (.cb _) | .enter .. | .running .. => True
  | _ => False

/-- The worker holds a fiber that it is still going to put back into `m_fibers`. -/
def WillPutBack (s : State ι κ) (w : ι) : Prop :=
  match (s.worker w).pc with
  | .leaving f .. | .back f _ | .after f _ => (s.fiber f).state = .ready
  | .put .. => True
  | _ => False

/-- The counter is not negative, and `stopping()` answers true only with nothing left. -/
def Sound (s : State ι κ) : Prop :=
  0 ≤ s.activeThreadCount ∧
    (s.stopping = true → s.fibers = [] ∧ ∀ w, ¬ WillRun s w ∧ ¬ WillPutBack s w)

/-- The worker has lowered the counter and has yet to put its `READY` fiber back. -/
def InWindow (s : State ι κ) (w : ι) : Prop :=
  match (s.worker w).pc with
  | .after f _ => (s.fiber f).state = .ready
  | .put .. => True
  | _ => False

omit [DecidableEq ι] [Fintype ι] in
theorem stopping_iff (s : State ι κ) : s.stopping = true ↔
    s.autoStop = true ∧ s.isStopping = true ∧ s.fibers = [] ∧ s.activeThreadCount = 0 := by
  simp [stopping, and_assoc]

omit [DecidableEq ι] in
/-- With the counter at zero nobody stands where the counter is raised. -/
theorem uncounted {s : State ι κ} (h : Counted s) (h0 : s.activeThreadCount = 0) (w : ι) :
    (s.worker w).pc.counted = 0 := by
  unfold Counted at h
  rw [h0] at h
  have hsum : ∑ w, (s.worker w).pc.counted = 0 := by omega
  exact (Finset.sum_eq_zero_iff.mp hsum) w (Finset.mem_univ w)

/-! ### The window while `stop()` is under way -/

/-- Both flags of `stop()` are set. -/
def Flagged (s : State ι κ) : Prop := s.autoStop = true ∧ s.isStopping = true

/-- Once both flags are set, nobody stands in the window. -/
def Clear (s : State ι κ) : Prop := Flagged s → ∀ w, ¬ InWindow s w

/-- The worker has let `f` go and has yet to ask whether it is `READY`. -/
def Pc.asks {κ : Type} (f : ℕ) : Pc κ → Bool
  | .after g _ => g == f
  | _ => false

/-- What a step must not do, given the state before it: with both flags set, bring a worker into
the window, by lowering the counter for a `READY` fiber or by making a fiber `READY` that another
worker has let go already; with a worker in the window, set `m_stopping`. -/
def InTime (s : State ι κ) : Action ι κ → Prop
  | .work w =>
    match (s.worker w).pc with
    | .back f _ => (s.fiber f).state = .ready → ¬ Flagged s
    | _ => True
  | .body w .yieldToReady =>
    match (s.worker w).pc with
    | .running f _ => (∃ v, (s.worker v).pc.asks f = true) → ¬ Flagged s
    | _ => True
  | .stop => s.caller = .flag → ∀ w, ¬ InWindow s w
  | _ => True

omit [DecidableEq ι] [Fintype ι] in
/-- Where a worker in the window stands. -/
theorem inWindow_iff {s : State ι κ} {w : ι} : InWindow s w ↔
    (∃ f slot, (s.worker w).pc = .after f slot ∧ (s.fiber f).state = .ready) ∨
      ∃ f slot, (s.worker w).pc = .put f slot := by
  unfold InWindow
  cases hpc : (s.worker w).pc <;> simp

/-- `stop()` sets `m_autoStop` with its first step, and `m_stopping` never before. -/
structure InOrder (s : State ι κ) : Prop where
  serving : s.caller = .serving → s.isStopping = false
  begun : s.caller ≠ .serving → s.autoStop = true

omit [Fintype ι] in
/-- `run` itself makes no fiber `READY`. -/
theorem Worked.ready {s t : State ι κ} {w : ι} (h : Worked s w t) {g : ℕ}
    (hg : (t.fiber g).state = .ready) : (s.fiber g).state = .ready := by
  have hset : ∀ {f : ℕ} {r : Fiber κ}, (r.state = .ready → (s.fiber f).state = .ready) →
      (Function.update s.fiber f r g).state = .ready → (s.fiber g).state = .ready := by
    intro f r hr hupdate
    by_cases hgf : g = f
    · subst hgf
      rw [Function.update_self] at hupdate
      exact hr hupdate
    · rwa [Function.update_of_ne hgf] at hupdate
  cases h with
  | reuse c f r _ _ hr =>
    refine hset (fun hready => ?_) hg
    rw [Fiber.reset_eq hr] at hready
    cases hready
  | fresh c => exact hset (fun hready => by cases hready) hg
  | swapIn f slot r _ hr =>
    refine hset (fun hready => ?_) hg
    unfold Fiber.swapIn at hr
    split at hr
    · cases hr
    · cases hr
      cases hready
  | swapOut f slot ctx =>
    refine hset (fun hready => ?_) hg
    exact hready
  | held f slot =>
    rw [drop_fiber] at hg
    exact hset (fun hready => by cases hready) hg
  | wiped f r _ hr =>
    refine hset (fun hready => ?_) hg
    rw [Fiber.reset_eq hr] at hready
    cases hready
  | reschedule f slot =>
    rw [drop_fiber] at hg
    exact hg
  | _ => exact hg

omit [Fintype ι] in
/-- A worker comes into the window by lowering the counter for a `READY` fiber. -/
theorem Worked.window {s t : State ι κ} {w : ι} (h : Worked s w t) (hwin : InWindow t w) :
    (∃ f slot, (s.worker w).pc = .back f slot ∧ (s.fiber f).state = .ready) ∨ InWindow s w := by
  cases h with
  | lower f slot hpc =>
    left
    refine ⟨f, slot, hpc, ?_⟩
    simpa [InWindow, goto, setWorker] using hwin
  | isReady f slot hpc hst =>
    right
    exact inWindow_iff.mpr (.inl ⟨f, slot, hpc, hst⟩)
  | reschedule f slot | held f slot =>
    exfalso
    unfold InWindow at hwin
    rw [drop_worker, Function.update_self] at hwin
    exact hwin
  | _ =>
    exfalso
    simp [InWindow, goto, setWorker, setFiber] at hwin

omit [DecidableEq ι] [Fintype ι] in
/-- A worker that has not moved stands in the window if it did, as long as no fiber became
`READY` that it was going to ask about. -/
theorem inWindow_of_unmoved {s t : State ι κ} {v : ι} (hv : t.worker v = s.worker v)
    (hready : ∀ f, (s.worker v).pc.asks f = true → (t.fiber f).state = .ready →
      (s.fiber f).state = .ready) (hwin : InWindow t v) : InWindow s v := by
  rw [inWindow_iff, hv] at hwin
  rw [inWindow_iff]
  rcases hwin with ⟨f, slot, hpc, hst⟩ | hput
  · left
    refine ⟨f, slot, hpc, hready f ?_ hst⟩
    simp [hpc, Pc.asks]
  · exact .inr hput

omit [DecidableEq ι] [Fintype ι] in
theorem Frame.flagged {s t : State ι κ} {w : ι} (h : Frame s w t) (ht : Flagged t) : Flagged s :=
  ⟨h.autoStop ▸ ht.1, h.isStopping ▸ ht.2⟩

omit [Fintype ι] in
theorem worked_clear {s t : State ι κ} {w : ι} (h : Worked s w t) (hs : Clear s)
    (ha : InTime s (.work w)) : Clear t := by
  intro hflagged v hwin
  have hbefore := h.frame.flagged hflagged
  by_cases hv : v = w
  · subst hv
    rcases h.window hwin with ⟨f, slot, hpc, hst⟩ | hin
    · simp only [InTime, hpc] at ha
      exact ha hst hbefore
    · exact hs hbefore v hin
  · apply hs hbefore v
    exact inWindow_of_unmoved (h.frame.others v hv) (fun f _ => h.ready) hwin

omit [DecidableEq ι] [Fintype ι] in
/-- A call moves no worker and makes no fiber `READY`. -/
theorem called_clear {s t : State ι κ} {c : Call ι κ} (h : Called s c t) (hs : Clear s) :
    Clear t := by
  obtain ⟨hw, _, hi, ha, _⟩ := h.frame
  intro hflagged v hwin
  have hbefore : Flagged s := ⟨ha ▸ hflagged.1, hi ▸ hflagged.2⟩
  apply hs hbefore v
  refine inWindow_of_unmoved (congrFun hw v) (fun f _ hst => ?_) hwin
  cases h with
  | made c =>
    by_cases hf : f = s.made
    · subst hf
      simp [setFiber, Fiber.new] at hst
    · simpa [setFiber, hf] using hst
  | fiber | cb => exact hst

omit [DecidableEq ι] [Fintype ι] in
/-- A step that takes its own worker elsewhere leaves the window clear if it makes no fiber
`READY` that somebody asks about. -/
theorem clear_of_moved {s t : State ι κ} {w : ι} (hframe : Frame s w t) (hw : ¬ InWindow t w)
    (hready : Flagged s → ∀ v f, (s.worker v).pc.asks f = true → (t.fiber f).state = .ready →
      (s.fiber f).state = .ready) (hs : Clear s) : Clear t := by
  intro hflagged v hwin
  have hbefore := hframe.flagged hflagged
  by_cases hv : v = w
  · subst hv
    exact hw hwin
  · exact hs hbefore v (inWindow_of_unmoved (hframe.others v hv) (hready hbefore v) hwin)

omit [Fintype ι] in
/-- The one thing a body does that brings a worker into the window is to yield `READY`. -/
theorem bodied_clear {s t : State ι κ} {w : ι} {f : ℕ} {slot : Slot} {b : Body ι κ}
    (hpc : (s.worker w).pc = .running f slot) (h : Bodied s w f slot b t) (hs : Clear s)
    (ha : InTime s (.body w b)) : Clear t := by
  have hframe := h.frame
  cases h with
  | call c t _ h => exact called_clear h hs
  | ready r hcb hr =>
    refine clear_of_moved hframe (by simp [InWindow, goto, setWorker]) ?_ hs
    intro hflagged v g hasks hst
    simp only [InTime, hpc] at ha
    by_cases hg : g = f
    · subst hg
      exact absurd hflagged (ha ⟨v, hasks⟩)
    · simpa [goto, setWorker, setFiber, hg] using hst
  | hold r hcb hr =>
    refine clear_of_moved hframe (by simp [InWindow, goto, setWorker]) ?_ hs
    intro _ v g _ hst
    unfold Fiber.yieldToHold at hr
    split at hr
    · cases hr
      simpa [goto, setWorker, setFiber] using hst
    · cases hr
  | «return» | throw =>
    refine clear_of_moved hframe (by simp [InWindow, goto, setWorker]) ?_ hs
    intro _ v g _ hst
    by_cases hg : g = f
    · subst hg
      simp [goto, setWorker, setFiber, Fiber.finish, Fiber.fail] at hst
    · simpa [goto, setWorker, setFiber, State.finish, hg] using hst

/-- `stop()` sets the second flag in one of two places; in the early branch there is no worker
but the caller's own thread, which is not in `run` yet. -/
theorem stopped_clear {root : Option ι} {s t : State ι κ} (h : Stopped root s t) (hs : Clear s)
    (horder : InOrder s) (hcons : Consistent root s) (ha : InTime s .stop) : Clear t := by
  intro hflagged v hwin
  cases h with
  | begin hc =>
    have hstop : s.isStopping = true := hflagged.2
    rw [horder.serving hc] at hstop
    cases hstop
  | short hc hall =>
    have hun := hcons.waits (.inr (.inl hc)) v (hall v)
    unfold InWindow at hwin
    rw [hun] at hwin
    exact hwin
  | flagged hc => exact ha hc v hwin
  | enterRoot r hc hr =>
    by_cases hv : v = r
    · subst hv
      simp [InWindow, goto, setWorker] at hwin
    · have hunmoved : ({s with caller := .inRoot}.goto r .top).worker v = s.worker v := by
        simp [goto, setWorker, hv]
      exact hs hflagged v (inWindow_of_unmoved hunmoved (fun _ _ hst => hst) hwin)
  | long | earlyEnd | earlyGo | noRoot | skipRoot | rootBack | joined => exact hs hflagged v hwin

theorem step_inOrder {root : Option ι} {s t : State ι κ} {a : Action ι κ} (hs : InOrder s)
    (h : (machine κ root).step s a = some t) : InOrder t := by
  have hkept : ∀ {u : State ι κ}, u.caller = s.caller → u.isStopping = s.isStopping →
      u.autoStop = s.autoStop → InOrder u := by
    intro u hc hi ha
    constructor
    · intro hu
      rw [hi]
      exact hs.serving (hc ▸ hu)
    · intro hu
      rw [ha]
      exact hs.begun (hc ▸ hu)
  cases stepped_of_step h with
  | work w _ h => exact hkept h.frame.caller h.frame.isStopping h.frame.autoStop
  | body w f slot b _ _ h => exact hkept h.frame.caller h.frame.isStopping h.frame.autoStop
  | outside c _ h =>
    obtain ⟨_, hc, hi, ha, _⟩ := h.frame
    exact hkept hc hi ha
  | stop _ h =>
    cases h with
    | begin => exact ⟨nofun, fun _ => rfl⟩
    | short hc | long hc | earlyEnd hc | earlyGo hc | flagged hc | noRoot hc | skipRoot r hc
    | enterRoot r hc | rootBack hc | joined hc =>
      exact ⟨nofun, fun _ => hs.begun (by simp [hc])⟩

/-- What the rule is kept by: the counter and the flags as on every run, and the window clear. -/
structure Orderly (root : Option ι) (s : State ι κ) : Prop where
  consistent : Consistent root s
  inOrder : InOrder s
  clear : Clear s

theorem initial_orderly (root : Option ι) : Orderly (κ := κ) root (.initial root) where
  consistent := initial_consistent root
  inOrder := ⟨fun _ => rfl, fun h => absurd rfl h⟩
  clear h := by cases h.1

theorem step_orderly {root : Option ι} {s t : State ι κ} {a : Action ι κ} (hs : Orderly root s)
    (ha : InTime s a) (h : (machine κ root).step s a = some t) : Orderly root t where
  consistent := step_consistent hs.consistent h
  inOrder := step_inOrder hs.inOrder h
  clear := by
    cases stepped_of_step h with
    | work w _ h => exact worked_clear h hs.clear ha
    | body w f slot b _ hpc h => exact bodied_clear hpc h hs.clear ha
    | outside c _ h => exact called_clear h hs.clear
    | stop _ h => exact stopped_clear h hs.clear hs.inOrder hs.consistent ha

omit [DecidableEq ι] in
/-- With the window clear, the counter at zero and the queue empty nothing is left. -/
theorem Orderly.sound {root : Option ι} {s : State ι κ} (hs : Orderly root s) : Sound s := by
  have hcount := hs.consistent.counted
  refine ⟨by unfold Counted at hcount; omega, fun hstop => ?_⟩
  obtain ⟨hauto, hflag, hempty, h0⟩ := (stopping_iff s).mp hstop
  refine ⟨hempty, fun w => ?_⟩
  have hw := uncounted hcount h0 w
  have hwin := hs.clear ⟨hauto, hflag⟩ w
  unfold InWindow at hwin
  unfold WillRun WillPutBack
  cases hpc : (s.worker w).pc <;> simp_all [Pc.counted]

omit [Fintype ι] in
/-- Lowering the counter for a `READY` fiber leads into the window. -/
theorem inWindow_of_lower {s t : State ι κ} {w : ι} {f : ℕ} {slot : Slot}
    (hpc : (s.worker w).pc = .back f slot) (hst : (s.fiber f).state = .ready)
    (h : s.work w = some t) : InWindow t w := by
  simp only [work, hpc, Option.some.injEq] at h
  subst h
  simpa [InWindow, goto, setWorker] using hst

omit [Fintype ι] in
/-- A `READY` yield leads whoever asks about the fiber into the window. -/
theorem inWindow_of_yield {s t : State ι κ} {w v : ι} {f : ℕ} {slot : Slot}
    (hpc : (s.worker w).pc = .running f slot) (hasks : (s.worker v).pc.asks f = true)
    (h : Bodied s w f slot .yieldToReady t) : InWindow t v := by
  have hvw : v ≠ w := by
    intro hv
    rw [hv, hpc] at hasks
    cases hasks
  cases hv : (s.worker v).pc with
  | after g slot' =>
    rw [hv] at hasks
    obtain rfl : g = f := beq_iff_eq.mp hasks
    cases h with
    | ready r hcb hr =>
      unfold Fiber.yieldToReady at hr
      split at hr
      · cases hr
        simp [InWindow, goto, setWorker, setFiber, hvw, hv]
      · cases hr
  | _ =>
    rw [hv] at hasks
    cases hasks

/-- A step against the rule leaves a worker in the window with both flags set. -/
theorem late_unclear {root : Option ι} {s t : State ι κ} {a : Action ι κ} (hs : Orderly root s)
    (ha : ¬ InTime s a) (h : (machine κ root).step s a = some t) : ¬ Clear t := by
  intro hclear
  apply ha
  cases a with
  | work w =>
    simp only [InTime]
    split
    case h_2 => trivial
    case h_1 f slot hpc =>
      intro hst hflagged
      have hframe := (worked_of_work h).frame
      refine hclear ⟨?_, ?_⟩ w (inWindow_of_lower hpc hst h)
      · rw [hframe.autoStop]
        exact hflagged.1
      · rw [hframe.isStopping]
        exact hflagged.2
  | body w b =>
    cases b with
    | yieldToReady =>
      simp only [InTime]
      split
      case h_2 => trivial
      case h_1 f slot hpc =>
        intro ⟨v, hasks⟩ hflagged
        have hbodied : Bodied s w f slot .yieldToReady t := by
          apply bodied_of_body
          simpa [machine, step, hpc] using h
        refine hclear ⟨?_, ?_⟩ v (inWindow_of_yield hpc hasks hbodied)
        · rw [hbodied.frame.autoStop]
          exact hflagged.1
        · rw [hbodied.frame.isStopping]
          exact hflagged.2
    | _ => trivial
  | outside c => trivial
  | stop =>
    intro hc w hwin
    have hauto : s.autoStop = true := hs.inOrder.begun (by simp [hc])
    have hset : s.stop root = some {s with isStopping := true, caller := .tickled} := by
      simp only [State.stop, hc]
    obtain rfl := Option.some.inj (hset.symm.trans h)
    exact hclear ⟨hauto, rfl⟩ w hwin

/-- Whatever the tasks and the interleaving: a run keeps to the rule exactly if nobody stands in the
window in any of its states with both flags set. -/
theorem clear_iff_inTime (root : Option ι) (acts : List (Action ι κ)) (s : State ι κ)
    (hrun : (machine κ root).run (.initial root) acts = some s) :
    (machine κ root).Throughout Clear (.initial root) acts ↔
      (machine κ root).Along InTime (.initial root) acts :=
  Machine.throughout_iff_along (fun _ _ _ hs ha h => step_orderly hs ha h) (fun _ hs => hs.clear)
    (fun _ _ _ hs ha h => late_unclear hs ha h) (initial_orderly root) hrun

/-- Whatever the tasks and the interleaving: on a run that brings no worker into the window while
both flags of `stop()` are set, `stopping()` is sound in every state. -/
theorem sound_of_inTime (root : Option ι) (acts : List (Action ι κ))
    (htime : (machine κ root).Along InTime (.initial root) acts) :
    (machine κ root).Throughout Sound (.initial root) acts :=
  htime.throughout (fun _ _ _ hs ha h => step_orderly hs ha h) (fun _ hs => hs.sound)
    (initial_orderly root)

instance (s : State ι κ) (w : ι) : Decidable (InWindow s w) := by
  unfold InWindow
  split <;> infer_instance

instance (s : State ι κ) : Decidable (Flagged s) := inferInstanceAs (Decidable (_ ∧ _))

instance (s : State ι κ) : (a : Action ι κ) → Decidable (InTime s a)
  | .work w => by
    dsimp only [InTime]
    split <;> infer_instance
  | .body w .yieldToReady => by
    dsimp only [InTime]
    split <;> infer_instance
  | .body _ (.call _) | .body _ .yieldToHold | .body _ .return | .body _ .throw | .outside _ =>
    isTrue trivial
  | .stop => inferInstanceAs (Decidable (s.caller = .flag → _))

/-- A callback that yields `READY` on worker `false` and is put back before `stop()` sets its flags;
worker `true` runs it to its end and lowers the counter behind them. -/
def inTimeRun : List (Action Bool ℕ) :=
  [.outside (.schedule (.cb 0) none), .work false, .work false, .work false,
    .body false .yieldToReady, .stop, .work false, .work false, .work false, .stop, .work false,
    .work true, .work true, .work true, .stop, .body true .return, .work true, .work true]

/-- Nothing is left then, and `stopping()` is rightly true, as it was rightly false before. -/
theorem sound_inTimeRun :
    (((machine ℕ none).run (.initial none) inTimeRun).map fun s => (s.stopping, s.fibers)) =
        some (true, []) ∧
      (machine ℕ none).Throughout Sound (.initial none) inTimeRun :=
  ⟨by decide +kernel, sound_of_inTime none inTimeRun (by decide +kernel)⟩

/-- Two workers and one callback: worker `false` runs it, it yields with
`YieldToReady`, and the counter is lowered; `stop()` has set its flags, and worker
`true` is about to evaluate `stopping()` in its idle fiber. -/
def windowRun : List (Action Bool ℕ) :=
  [.outside (.schedule (.cb 0) none), .work false, .work false, .work false,
    .body false .yieldToReady, .stop, .stop, .stop, .work true, .work true,
    .work false, .work false]

/-- `stopping()` is true although worker `false` will put its fiber back. -/
theorem stopping_unsound :
    ∃ s : State Bool ℕ, (machine ℕ none).Reachable (.initial none) s ∧ s.stopping = true ∧
      (s.worker true).pc = .idling ∧ WillPutBack s false ∧ ¬ Sound s := by
  refine ⟨_, ⟨windowRun, rfl⟩, rfl, rfl, rfl, ?_⟩
  intro h
  exact ((h.2 rfl).2 false).2 rfl

end SimpleHttpServer.Scheduler
