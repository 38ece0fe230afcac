import SimpleHttpServer.Scheduler.Net

/-! The way of a fiber from one scheduler to another.

The fiber that calls `S->switchTo(thread)` is in the queue of `S` while it still
runs on its old thread, in state `EXEC`, and every scan passes over it. Its old
worker writes `HOLD` when the context is saved and forgets the fiber in the same
step, so whoever takes the entry is alone with it, and only a worker of `S`, and of
the thread asked for, takes it. `Stage` lists the points of that way, and no step of
a worker leaves it (`Stage.work`). -/
namespace SimpleHttpServer.Scheduler
open State

variable {σ ι κ : Type}

/-- The threads that the entries of `f` ask for. -/
def asks (l : List (FiberAndThread ι κ)) (f : ℕ) : List (Option ι) :=
  (l.filter fun e => e.fiber? = some f).map (·.thread)

/-- The threads this entry adds to those the entries of `f` ask for. -/
def FiberAndThread.asks (e : FiberAndThread ι κ) (f : ℕ) : List (Option ι) :=
  if e.fiber? = some f then [e.thread] else []

theorem asks_append (l : List (FiberAndThread ι κ)) (e : FiberAndThread ι κ) (f : ℕ) :
    asks (l ++ [e]) f = asks l f ++ e.asks f := by
  unfold asks FiberAndThread.asks
  by_cases h : e.fiber? = some f
  · simp [List.filter_append, h]
  · simp [List.filter_append, h]

theorem FiberAndThread.fiber?_ne {e : FiberAndThread ι κ} {f : ℕ} (h : e.task ≠ .fiber f) :
    e.fiber? ≠ some f := by
  obtain ⟨task, thread⟩ := e
  cases task with
  | fiber g => simpa [FiberAndThread.fiber?] using h
  | cb c => simp [FiberAndThread.fiber?]

/-- An entry of another fiber, or of a callback. -/
theorem asks_push (s : State ι κ) {e : FiberAndThread ι κ} {f : ℕ} (he : e.task ≠ .fiber f) :
    asks (s.push e).fibers f = asks s.fibers f := by
  have hother : e.asks f = [] := if_neg (FiberAndThread.fiber?_ne he)
  show asks (s.fibers ++ [e]) f = _
  rw [asks_append, hother, List.append_nil]

theorem asks_eraseP {l : List (FiberAndThread ι κ)} {p : FiberAndThread ι κ → Bool}
    {e : FiberAndThread ι κ} (h : l.find? p = some e) (f : ℕ) :
    (asks l f).Perm (e.asks f ++ asks (l.eraseP p) f) := by
  have hperm := ((Queue.perm_cons_eraseP h).filter fun e => decide (e.fiber? = some f)).map (·.thread)
  unfold asks FiberAndThread.asks
  by_cases hf : e.fiber? = some f
  · simpa [hf] using hperm
  · simpa [hf] using hperm

theorem mem_asks {l : List (FiberAndThread ι κ)} {f : ℕ} {thread : Option ι} :
    thread ∈ asks l f ↔ ⟨.fiber f, thread⟩ ∈ l := by
  unfold asks
  simp only [List.mem_map, List.mem_filter, decide_eq_true_eq]
  constructor
  · intro ⟨e, ⟨he, hf⟩, hthread⟩
    obtain ⟨task, t⟩ := e
    cases task with
    | cb c => cases hf
    | fiber g =>
      cases hf
      cases hthread
      exact he
  · intro h
    exact ⟨_, ⟨h, rfl⟩, rfl⟩

/-- On the way from the `swapOut` of a yield to the write of `HOLD`. -/
def Pc.Departs (f : ℕ) : Pc κ → Prop
  | .leaving g _ .yielded | .back g _ | .after g _ | .settle g _ | .hold g _ => g = f
  | _ => False

/-- On the way from the scan to the body. -/
def Pc.Arrives (f : ℕ) : Pc κ → Prop
  | .popped (.fiber g) | .enter g _ | .running g _ => g = f
  | _ => False

namespace Net

def asks (n : Net σ ι κ) (f : ℕ) (S : σ) : List (Option ι) := Scheduler.asks (n.sched S).fibers f

def Unqueued (n : Net σ ι κ) (f : ℕ) : Prop := ∀ S, n.asks f S = []

/-- One entry, in the queue of `S`. -/
def QueuedAt (n : Net σ ι κ) (f : ℕ) (S : σ) (thread : Option ι) : Prop :=
  n.asks f S = [thread] ∧ ∀ T, T ≠ S → n.asks f T = []

/-- No worker knows the fiber. -/
def Unknown (n : Net σ ι κ) (f : ℕ) : Prop := ∀ w, ¬ (n.worker w).Knows f

/-- Worker `w` knows the fiber, and no other does. -/
structure HeldBy (n : Net σ ι κ) (f : ℕ) (w : ι) : Prop where
  knows : (n.worker w).Knows f
  alone : ∀ v, v ≠ w → ¬ (n.worker v).Knows f
  split : (n.worker w).SplitAt f
  exec : ∀ slot, (n.worker w).pc = .running f slot → (n.fiber f).state = .exec

/-- Where a fiber is that nobody schedules while someone has it. -/
inductive Stage (home : ι → σ) (n : Net σ ι κ) (f : ℕ) : Prop
  | free (hsw : n.switching f = none) (hqueue : n.Unqueued f) (hknown : n.Unknown f)
  | queued (S : σ) (thread : Option ι) (hsw : n.switching f = none) (hqueue : n.QueuedAt f S thread)
      (hknown : n.Unknown f)
  | held (w : ι) (hsw : n.switching f = none) (hqueue : n.Unqueued f) (hheld : n.HeldBy f w)
  | asked (w : ι) (slot : Slot) (S : σ) (thread : Option ι) (leaving : Bool)
      (hsw : n.switching f = some (.asked S thread leaving)) (hqueue : n.QueuedAt f S thread)
      (hheld : n.HeldBy f w) (hpc : (n.worker w).pc = .running f slot)
  | departing (w : ι) (S : σ) (thread : Option ι) (leaving : Bool)
      (hsw : n.switching f = some (.returning S thread leaving)) (hqueue : n.QueuedAt f S thread)
      (hheld : n.HeldBy f w) (hpc : (n.worker w).pc.Departs f) (hstate : (n.fiber f).state = .exec)
  | away (S : σ) (thread : Option ι) (leaving : Bool)
      (hsw : n.switching f = some (.returning S thread leaving)) (hqueue : n.QueuedAt f S thread)
      (hknown : n.Unknown f) (hstate : (n.fiber f).state = .hold)
  | arriving (w : ι) (S : σ) (thread : Option ι) (leaving : Bool)
      (hsw : n.switching f = some (.returning S thread leaving)) (hqueue : n.Unqueued f)
      (hheld : n.HeldBy f w) (hpc : (n.worker w).pc.Arrives f)
      (hstate : (n.fiber f).state.finished = false) (hhome : home w = S)
      (hthread : thread = none ∨ thread = some w)

end Net

/-! ### One worker and one fiber -/

theorem Pc.Departs.named {pc : Pc κ} {f : ℕ} (h : pc.Departs f) : pc.named = some f := by
  cases pc with
  | leaving g slot ctx =>
    cases ctx with
    | yielded => exact congrArg some h
    | _ => exact h.elim
  | back g slot | after g slot | settle g slot | hold g slot => exact congrArg some h
  | _ => exact h.elim

theorem Pc.Arrives.named {pc : Pc κ} {f : ℕ} (h : pc.Arrives f) : pc.named = some f := by
  cases pc with
  | popped task =>
    cases task with
    | fiber g => exact congrArg some h
    | cb c => exact h.elim
  | enter g slot | running g slot => exact congrArg some h
  | _ => exact h.elim

theorem asks_eraseP_of_ne {l : List (FiberAndThread ι κ)} {p : FiberAndThread ι κ → Bool}
    {e : FiberAndThread ι κ} {f : ℕ} (h : l.find? p = some e) (he : e.fiber? ≠ some f) :
    asks (l.eraseP p) f = asks l f := by
  induction l with
  | nil => cases h
  | cons x rest ih =>
    by_cases hx : p x = true
    · obtain rfl : x = e := by simpa [hx] using h
      simp [asks, hx, he]
    · have hrest := ih (by simpa [hx] using h)
      unfold asks at hrest ⊢
      rw [List.eraseP_cons_of_neg hx, List.filter_cons, List.filter_cons]
      split
      · simp [hrest]
      · exact hrest

variable [DecidableEq ι]

/-- The scan of this worker does not take `f`. -/
def Passes (s : State ι κ) (u : ι) (f : ℕ) : Prop :=
  ∀ e, (s.worker u).pc = .top → s.fibers.find? (s.takes u) = some e → e.task ≠ .fiber f

theorem passes_of_asks {s : State ι κ} {u : ι} {f : ℕ} (h : asks s.fibers f = []) :
    Passes s u f := by
  intro e _ hfind htask
  obtain ⟨task, thread⟩ := e
  obtain rfl : task = .fiber f := htask
  have hmem := mem_asks.mpr (List.mem_of_find?_eq_some hfind)
  simp [h] at hmem

theorem passes_of_exec {s : State ι κ} {u : ι} {f : ℕ} (h : (s.fiber f).state = .exec) :
    Passes s u f := by
  intro e _ hfind htask
  have htakes := List.find?_some hfind
  simp [takes, htask, h] at htakes

/-- A worker that takes nothing of a fiber and did not know it has nothing to do with it. -/
theorem Worked.apart {s t : State ι κ} {u : ι} (h : Worked s u t) {f : ℕ} (hmade : f < s.made)
    (hunknown : ¬ (s.worker u).Knows f) (hpass : Passes s u f) :
    asks t.fibers f = asks s.fibers f ∧ ¬ (t.worker u).Knows f := by
  cases h with
  | found e hpc hfind =>
    have hne := hpass e hpc hfind
    refine ⟨asks_eraseP_of_ne hfind (FiberAndThread.fiber?_ne hne), fun hknown => ?_⟩
    simp only [goto, setWorker, Function.update_self] at hknown
    rcases knows_popped hknown with htask | hold
    · exact hne htask
    · exact hunknown hold
  | reschedule g slot hpc =>
    have hne : g ≠ f := fun hgf => hunknown (.inl (by simp [hpc, hgf, Pc.named]))
    refine ⟨?_, ?_⟩
    · rw [drop_fibers]
      exact asks_push s (by simpa using hne)
    · rw [drop_worker, Function.update_self]
      exact fun hknown => hunknown (dropped_knows hknown)
  | held g slot hpc =>
    refine ⟨by rw [drop_fibers]; rfl, ?_⟩
    rw [drop_worker, Function.update_self]
    exact fun hknown => hunknown (dropped_knows hknown)
  | fresh c hpc hcb =>
    refine ⟨rfl, fun hknown => Nat.ne_of_lt hmade ?_⟩
    have hfm : s.made = f := by simpa [setWorker, Worker.Knows, Pc.named] using hknown
    exact hfm.symm
  | reuse c g r hpc hcb =>
    refine ⟨rfl, fun hknown => hunknown ?_⟩
    simp only [goto, setWorker, Function.update_self] at hknown
    exact knows_goto hknown (.inr (.inl hcb.symm))
  | _ =>
    refine ⟨rfl, ?_⟩
    rintro (hnamed | hcb)
    · refine hunknown (.inl ?_)
      simp_all [goto, setWorker, Pc.named]
    · exact hunknown (.inr (by simpa [goto, setWorker] using hcb))

theorem Worked.splitAt {s t : State ι κ} {u : ι} (h : Worked s u t) {f : ℕ}
    (hpass : Passes s u f) (hs : (s.worker u).SplitAt f) : (t.worker u).SplitAt f := by
  cases h with
  | found e hpc hfind =>
    intro hvia
    cases htask : e.task with
    | fiber g =>
      obtain rfl : g = f := by simpa [goto, setWorker, htask, Pc.viaFt] using hvia
      exact absurd htask (hpass e hpc hfind)
    | cb c => simp [goto, setWorker, htask, Pc.viaFt] at hvia
  | accept g hpc =>
    intro hvia
    obtain rfl : g = f := by simpa [goto, setWorker, Pc.viaFt] using hvia
    simpa [goto, setWorker] using hs (by simp [hpc, Pc.viaFt])
  | swapIn g slot _ hpc | swapOut g slot _ hpc | lower g slot hpc | notReady g slot hpc
  | isReady g slot hpc | unsettled g slot hpc =>
    intro hvia
    cases slot with
    | cbFiber => simp [goto, setWorker, Pc.viaFt] at hvia
    | ft =>
      obtain rfl : g = f := by simpa [goto, setWorker, Pc.viaFt] using hvia
      simpa [goto, setWorker, setFiber] using hs (by simp [hpc, Pc.viaFt])
  | reschedule | held =>
    intro hvia
    simp [drop_worker, dropped, Pc.viaFt] at hvia
  | _ =>
    intro hvia
    simp [goto, setWorker, Pc.viaFt] at hvia

/-- A worker that comes into a body has set its fiber to `EXEC`. -/
theorem Worked.exec {s t : State ι κ} {u : ι} (h : Worked s u t) {f : ℕ} {slot : Slot}
    (hpc : (t.worker u).pc = .running f slot) : (t.fiber f).state = .exec := by
  cases h with
  | swapIn g slot' r _ hr =>
    have hgf : g = f := by
      simp [goto, setWorker] at hpc
      exact hpc.1
    subst hgf
    unfold Fiber.swapIn at hr
    split at hr
    · cases hr
    · cases hr
      simp [goto, setWorker, setFiber]
  | reschedule | held => simp [drop_worker, dropped] at hpc
  | _ => simp [goto, setWorker] at hpc

/-! ### Every step keeps the stage -/

namespace Net
variable {home : ι → σ} {n m : Net σ ι κ} {f : ℕ}

omit [DecidableEq ι] in
theorem HeldBy.eq {u w : ι} (h : n.HeldBy f w) (hknows : (n.worker u).Knows f) : u = w :=
  Classical.byContradiction fun hne => h.alone u hne hknows

omit [DecidableEq ι] in
/-- A fiber whose knower is busy with another fiber is in no switch. -/
theorem Stage.settled (h : Stage home n f) {u : ι} (hknows : (n.worker u).Knows f)
    (hpc : (n.worker u).pc.named ≠ some f) : n.switching f = none := by
  cases h with
  | free hsw | queued _ _ hsw | held _ hsw => exact hsw
  | asked w slot S thread leaving hsw hqueue hheld hpc' =>
    obtain rfl := hheld.eq hknows
    exact absurd (by simp [hpc', Pc.named]) hpc
  | departing w S thread leaving hsw hqueue hheld hpc' =>
    obtain rfl := hheld.eq hknows
    exact absurd hpc'.named hpc
  | away S thread leaving hsw hqueue hknown => exact absurd hknows (hknown u)
  | arriving w S thread leaving hsw hqueue hheld hpc' =>
    obtain rfl := hheld.eq hknows
    exact absurd hpc'.named hpc

omit [DecidableEq ι] in
/-- What has the fiber keeps it, and does not move if the fiber is in a switch. -/
theorem Stage.carry (h : Stage home n f) (hsw : m.switching f = n.switching f)
    (hasks : ∀ S, m.asks f S = n.asks f S) (hfiber : m.fiber f = n.fiber f)
    (hunknown : n.Unknown f → m.Unknown f) (hheld : ∀ w, n.HeldBy f w → m.HeldBy f w)
    (hpcs : n.switching f ≠ none → ∀ w, n.HeldBy f w → (m.worker w).pc = (n.worker w).pc) :
    Stage home m f := by
  have hunqueued : n.Unqueued f → m.Unqueued f := fun hq S => (hasks S).trans (hq S)
  have hqueuedAt : ∀ S thread, n.QueuedAt f S thread → m.QueuedAt f S thread := fun S thread hq =>
    ⟨(hasks S).trans hq.1, fun T hT => (hasks T).trans (hq.2 T hT)⟩
  cases h with
  | free hsw' hqueue hknown => exact .free (hsw.trans hsw') (hunqueued hqueue) (hunknown hknown)
  | queued S thread hsw' hqueue hknown =>
    exact .queued S thread (hsw.trans hsw') (hqueuedAt S thread hqueue) (hunknown hknown)
  | held w hsw' hqueue hw => exact .held w (hsw.trans hsw') (hunqueued hqueue) (hheld w hw)
  | asked w slot S thread leaving hsw' hqueue hw hpc =>
    refine .asked w slot S thread leaving (hsw.trans hsw') (hqueuedAt S thread hqueue) (hheld w hw) ?_
    rw [hpcs (by simp [hsw']) w hw]
    exact hpc
  | departing w S thread leaving hsw' hqueue hw hpc hstate =>
    refine .departing w S thread leaving (hsw.trans hsw') (hqueuedAt S thread hqueue) (hheld w hw)
      ?_ (hfiber ▸ hstate)
    rw [hpcs (by simp [hsw']) w hw]
    exact hpc
  | away S thread leaving hsw' hqueue hknown hstate =>
    exact .away S thread leaving (hsw.trans hsw') (hqueuedAt S thread hqueue) (hunknown hknown)
      (hfiber ▸ hstate)
  | arriving w S thread leaving hsw' hqueue hw hpc hstate hhome hthread =>
    refine .arriving w S thread leaving (hsw.trans hsw') (hunqueued hqueue) (hheld w hw) ?_
      (hfiber ▸ hstate) hhome hthread
    rw [hpcs (by simp [hsw']) w hw]
    exact hpc

omit [DecidableEq ι] in
/-- Nothing about the fiber has changed. -/
theorem Stage.same (h : Stage home n f) (hsw : m.switching f = n.switching f)
    (hasks : ∀ S, m.asks f S = n.asks f S) (hfiber : m.fiber f = n.fiber f)
    (hworker : m.worker = n.worker) : Stage home m f := by
  refine h.carry hsw hasks hfiber ?_ (fun w hw => ⟨?_, ?_, ?_, ?_⟩) (fun _ w _ => by rw [hworker])
  · intro hk w
    rw [hworker]
    exact hk w
  · rw [hworker]
    exact hw.knows
  · rw [hworker]
    exact hw.alone
  · rw [hworker]
    exact hw.split
  · rw [hworker, hfiber]
    exact hw.exec

omit [DecidableEq ι] in
/-- A worker moves that has nothing to do with the fiber, or only has it as its `cb_fiber`. -/
theorem Stage.move (h : Stage home n f) (u : ι) (hsw : m.switching f = n.switching f)
    (hasks : ∀ S, m.asks f S = n.asks f S) (hfiber : m.fiber f = n.fiber f)
    (hothers : ∀ v, v ≠ u → m.worker v = n.worker v)
    (hknows : (m.worker u).Knows f ↔ (n.worker u).Knows f)
    (hfree : (n.worker u).Knows f → n.switching f = none) (hsplit : (m.worker u).SplitAt f)
    (hexec : ∀ slot, (m.worker u).pc = .running f slot → (m.fiber f).state = .exec) :
    Stage home m f := by
  have hall : ∀ v, (m.worker v).Knows f ↔ (n.worker v).Knows f := by
    intro v
    by_cases hv : v = u
    · rw [hv]
      exact hknows
    · rw [hothers v hv]
  refine h.carry hsw hasks hfiber (fun hk v hv => hk v ((hall v).mp hv)) ?_ ?_
  · intro w hw
    refine ⟨(hall w).mpr hw.knows, fun v hv hknown => hw.alone v hv ((hall v).mp hknown), ?_, ?_⟩
    · by_cases hwu : w = u
      · rw [hwu]
        exact hsplit
      · rw [hothers w hwu]
        exact hw.split
    · by_cases hwu : w = u
      · rw [hwu]
        exact hexec
      · rw [hothers w hwu, hfiber]
        exact hw.exec
  · -- in a switch, the worker that moves is not the one that has the fiber
    intro hne w hw
    rw [hothers w fun hwu => hne (hfree ?_)]
    rw [← hwu]
    exact hw.knows

variable [DecidableEq σ]

omit [DecidableEq ι] in
theorem asks_put (S : σ) (s : State ι κ) (T : σ) :
    (n.put S s).asks f T = if T = S then Scheduler.asks s.fibers f else n.asks f T := by
  unfold Net.asks put
  by_cases hT : T = S
  · subst hT
    simp
  · simp [hT]

omit [DecidableEq ι] in
/-- A step of one scheduler that leaves the entries of the fiber alone. -/
theorem asks_put_same {S : σ} {s : State ι κ}
    (h : Scheduler.asks s.fibers f = Scheduler.asks (n.view S).fibers f) (T : σ) :
    (n.put S s).asks f T = n.asks f T := by
  rw [asks_put]
  split
  case isTrue hT =>
    subst hT
    exact h
  case isFalse => rfl

omit [DecidableEq ι] in
/-- A fiber that was in no queue is put in one. -/
theorem Unqueued.push (h : n.Unqueued f) (S : σ) (thread : Option ι) {s : State ι κ}
    (hs : s.fibers = (n.view S).fibers ++ [⟨.fiber f, thread⟩]) :
    (n.put S s).QueuedAt f S thread := by
  refine ⟨?_, fun T hT => ?_⟩
  · have hview : Scheduler.asks (n.view S).fibers f = [] := h S
    rw [asks_put, if_pos rfl, hs, asks_append, hview]
    simp [FiberAndThread.asks, FiberAndThread.fiber?]
  · rw [asks_put, if_neg hT]
    exact h T

/-- What one worker does to the fiber it alone has. -/
theorem HeldBy.worked {w : ι} {s : State ι κ} (h : n.HeldBy f w)
    (hw : Worked (n.view (home w)) w s) (hpass : Passes (n.view (home w)) w f)
    (hknows : (s.worker w).Knows f) : (n.put (home w) s).HeldBy f w := by
  refine ⟨hknows, fun v hv hknown => ?_, hw.splitAt hpass h.split, fun slot hpc => hw.exec hpc⟩
  refine h.alone v hv ?_
  have hsame := hw.frame.others v hv
  rw [show (n.put (home w) s).worker v = n.worker v from hsame] at hknown
  exact hknown

omit [DecidableEq σ] in
/-- A worker that alone has the fiber gives it up, and nobody knows it any more. -/
theorem HeldBy.dropped {w : ι} {slot : Slot} (h : n.HeldBy f w)
    (hvia : slot = .ft → (n.worker w).pc.viaFt = some f) {s : State ι κ}
    (hs : s.worker = n.worker) (v : ι) : ¬ ((s.drop w slot).worker v).Knows f := by
  rw [drop_worker, hs]
  by_cases hv : v = w
  · subst hv
    rw [Function.update_self]
    exact dropped_forgets hvia h.split
  · rw [Function.update_of_ne hv]
    exact h.alone v hv

/-- What a worker that alone has an unqueued fiber leaves in its queue. -/
theorem held_asks {s t : State ι κ} {w : ι} (h : Worked s w t)
    (hqueue : Scheduler.asks s.fibers f = []) :
    Scheduler.asks t.fibers f = [] ∨
      ∃ slot, (s.worker w).pc = .put f slot ∧ t = (s.push ⟨.fiber f, none⟩).drop w slot := by
  cases h with
  | found e hpc hfind =>
    left
    have hne := passes_of_asks hqueue e hpc hfind
    exact (asks_eraseP_of_ne hfind (FiberAndThread.fiber?_ne hne)).trans hqueue
  | reschedule g slot hpc =>
    by_cases hgf : g = f
    · subst hgf
      exact .inr ⟨slot, hpc, rfl⟩
    · left
      rw [drop_fibers]
      exact (asks_push s (by simpa using hgf)).trans hqueue
  | held g slot hpc =>
    left
    rw [drop_fibers]
    exact hqueue
  | _ => exact .inl hqueue

/-- Outside a switch the worker that has the fiber keeps it, forgets it, or puts it back. -/
theorem held_work {w : ι} {s : State ι κ} (hsw : n.switching f = none) (hqueue : n.Unqueued f)
    (hheld : n.HeldBy f w) (hw : Worked (n.view (home w)) w s) :
    Stage home (n.put (home w) s) f := by
  have hpass : Passes (n.view (home w)) w f := passes_of_asks (hqueue (home w))
  have hothers : ∀ v, v ≠ w → ¬ ((n.put (home w) s).worker v).Knows f := by
    intro v hv
    have hsame := hw.frame.others v hv
    rw [show (n.put (home w) s).worker v = n.worker v from hsame]
    exact hheld.alone v hv
  rcases held_asks hw (hqueue (home w)) with hnone | ⟨slot, hpc, rfl⟩
  · have hunqueued : (n.put (home w) s).Unqueued f := by
      intro S
      rw [asks_put]
      split
      · exact hnone
      · exact hqueue S
    by_cases hknows : (s.worker w).Knows f
    · exact .held w hsw hunqueued (hheld.worked hw hpass hknows)
    · refine .free hsw hunqueued fun v => ?_
      by_cases hv : v = w
      · rw [hv]
        exact hknows
      · exact hothers v hv
  · have hvia : slot = .ft → (n.worker w).pc.viaFt = some f := by
      intro hslot
      rw [show (n.worker w).pc = _ from hpc, hslot]
      rfl
    exact .queued (home w) none hsw (hqueue.push (home w) none (drop_fibers ..))
      (hheld.dropped hvia rfl)

/-- One step further on the way to `HOLD`. -/
theorem departing_on {w : ι} {S : σ} {thread : Option ι} {leaving : Bool} {s : State ι κ}
    (hsw : n.switching f = some (.returning S thread leaving)) (hqueue : n.QueuedAt f S thread)
    (hheld : n.HeldBy f w) (hstate : (n.fiber f).state = .exec)
    (hw : Worked (n.view (home w)) w s) (hfibers : s.fibers = (n.view (home w)).fibers)
    (hpc : (s.worker w).pc.Departs f) (hkept : (s.fiber f).state = (n.fiber f).state) :
    Stage home (n.put (home w) s) f := by
  refine .departing w S thread leaving hsw ?_ ?_ hpc (hkept.trans hstate)
  · have hsame := asks_put_same (n := n) (f := f) (congrArg (Scheduler.asks · f) hfibers)
    exact ⟨(hsame S).trans hqueue.1, fun T hT => (hsame T).trans (hqueue.2 T hT)⟩
  · exact hheld.worked hw (passes_of_exec hstate) (.inl hpc.named)

/-- The state is written and the fiber forgotten in one step. -/
theorem departing_held {w : ι} {S : σ} {thread : Option ι} {leaving : Bool} {slot : Slot}
    (hsw : n.switching f = some (.returning S thread leaving)) (hqueue : n.QueuedAt f S thread)
    (hheld : n.HeldBy f w) (hpc : (n.worker w).pc = .hold f slot) :
    Stage home (n.put (home w)
      (((n.view (home w)).setFiber f {n.fiber f with state := .hold}).drop w slot)) f := by
  have hvia : slot = .ft → (n.worker w).pc.viaFt = some f := by
    intro hslot
    rw [hpc, hslot]
    rfl
  have hsame := asks_put_same (n := n) (f := f) (S := home w)
    (s := ((n.view (home w)).setFiber f {n.fiber f with state := .hold}).drop w slot)
    (by rw [drop_fibers, setFiber_fibers])
  refine .away S thread leaving hsw ?_ (hheld.dropped hvia rfl) ?_
  · exact ⟨(hsame S).trans hqueue.1, fun T hT => (hsame T).trans (hqueue.2 T hT)⟩
  · simp [put, setFiber]

theorem departing_work {w : ι} {S : σ} {thread : Option ι} {leaving : Bool} {s : State ι κ}
    (hsw : n.switching f = some (.returning S thread leaving)) (hqueue : n.QueuedAt f S thread)
    (hheld : n.HeldBy f w) (hpc : (n.worker w).pc.Departs f) (hstate : (n.fiber f).state = .exec)
    (hw : Worked (n.view (home w)) w s) : Stage home (n.put (home w) s) f := by
  have hon := departing_on hsw hqueue hheld hstate hw
  have hnamed := hpc.named
  cases hw with
  | swapOut g slot ctx hpc' =>
    rw [show (n.worker w).pc = _ from hpc'] at hpc
    cases ctx with
    | yielded =>
      obtain rfl : g = f := hpc
      exact hon rfl (by simp [goto, setWorker, Pc.Departs]) (by simp [goto, setWorker, setFiber])
    | _ => exact hpc.elim
  | lower g slot hpc' | notReady g slot hpc' | unsettled g slot hpc' =>
    obtain rfl : g = f := by simpa [show (n.worker w).pc = _ from hpc', Pc.named] using hnamed
    exact hon rfl (by simp [goto, setWorker, Pc.Departs]) rfl
  | isReady g slot hpc' hst =>
    obtain rfl : g = f := by simpa [show (n.worker w).pc = _ from hpc', Pc.named] using hnamed
    exact absurd (hst.symm.trans hstate) (by simp)
  | settled g hpc' hfin | wiping g hpc' hfin =>
    obtain rfl : g = f := by simpa [show (n.worker w).pc = _ from hpc', Pc.named] using hnamed
    simp [hstate, Fiber.State.finished] at hfin
  | held g slot hpc' =>
    obtain rfl : g = f := by simpa [show (n.worker w).pc = _ from hpc', Pc.named] using hnamed
    exact departing_held hsw hqueue hheld hpc'
  | _ => simp_all [Pc.Departs]

/-- One step further on the way from the scan to the body. -/
theorem arriving_work {w : ι} {S : σ} {thread : Option ι} {leaving : Bool} {s : State ι κ}
    (hsw : n.switching f = some (.returning S thread leaving)) (hqueue : n.Unqueued f)
    (hheld : n.HeldBy f w) (hpc : (n.worker w).pc.Arrives f)
    (hstate : (n.fiber f).state.finished = false) (hhome : home w = S)
    (hthread : thread = none ∨ thread = some w) (hw : Worked (n.view (home w)) w s) :
    Stage home (n.put (home w) s) f := by
  have hon : s.fibers = (n.view (home w)).fibers → (s.worker w).pc.Arrives f →
      (s.fiber f).state.finished = false → Stage home (n.put (home w) s) f := by
    intro hfibers hpc' hstate'
    refine .arriving w S thread leaving hsw (fun T => ?_) ?_ hpc' hstate' hhome hthread
    · have hsame := asks_put_same (n := n) (f := f) (congrArg (Scheduler.asks · f) hfibers)
      exact (hsame T).trans (hqueue T)
    · exact hheld.worked hw (passes_of_asks (hqueue (home w))) (.inl hpc'.named)
  cases hw with
  | refuse g hpc' hfin =>
    rw [show (n.worker w).pc = _ from hpc'] at hpc
    obtain rfl : g = f := hpc
    exact absurd (hfin.symm.trans hstate) (by simp)
  | accept g hpc' =>
    rw [show (n.worker w).pc = _ from hpc'] at hpc
    obtain rfl : g = f := hpc
    exact hon rfl (by simp [goto, setWorker, Pc.Arrives]) hstate
  | swapIn g slot r hpc' hr =>
    rw [show (n.worker w).pc = _ from hpc'] at hpc
    obtain rfl : g = f := hpc
    refine hon rfl (by simp [goto, setWorker, Pc.Arrives]) ?_
    unfold Fiber.swapIn at hr
    split at hr
    · cases hr
    · cases hr
      simp [goto, setWorker, setFiber, Fiber.State.finished]
  | _ => simp_all [Pc.Arrives]

/-- The scan of a worker takes the fiber: the entry is gone, and the worker alone has it. -/
theorem found_held {w : ι} {S : σ} {thread thread' : Option ι} (hqueue : n.QueuedAt f S thread)
    (hknown : n.Unknown f)
    (hfind : (n.view (home w)).fibers.find? ((n.view (home w)).takes w) = some ⟨.fiber f, thread'⟩)
    {s : State ι κ} (hs : s = {n.view (home w) with
      fibers := (n.view (home w)).fibers.eraseP ((n.view (home w)).takes w)
      activeThreadCount := (n.view (home w)).activeThreadCount + 1}.goto w (.popped (.fiber f))) :
    home w = S ∧ (thread = none ∨ thread = some w) ∧ (n.put (home w) s).Unqueued f ∧
      (n.put (home w) s).HeldBy f w := by
  have hmem := mem_asks.mpr (List.mem_of_find?_eq_some hfind)
  have hhome : home w = S := Classical.byContradiction fun hne => by
    have hnone : Scheduler.asks (n.view (home w)).fibers f = [] := hqueue.2 (home w) hne
    simp [hnone] at hmem
  have hone : Scheduler.asks (n.view (home w)).fibers f = [thread] := by
    rw [hhome]
    exact hqueue.1
  have hthread : thread' = thread := by simpa [hone] using hmem
  subst hthread hs
  refine ⟨hhome, ?_, fun T => ?_, ⟨?_, fun v hv => ?_, fun _ hcb => ?_, fun slot hpc => ?_⟩⟩
  · have htakes := List.find?_some hfind
    simp only [takes, Bool.and_eq_true, Bool.or_eq_true, beq_iff_eq] at htakes
    exact htakes.1
  · rw [asks_put]
    split
    · have hperm := asks_eraseP hfind f
      simpa [hone, FiberAndThread.asks, FiberAndThread.fiber?, goto, setWorker] using hperm
    · exact hqueue.2 T (by rwa [← hhome])
  · exact .inl (by simp [put, goto, setWorker, Pc.named])
  · simpa [put, goto, setWorker, hv] using hknown v
  · exact hknown w (.inr (by simpa [put, goto, setWorker] using hcb))
  · simp [put, goto, setWorker] at hpc

/-- The scan of a worker takes the fiber. -/
theorem Stage.taken (h : Stage home n f) {u : ι} {s : State ι κ}
    (hw : Worked (n.view (home u)) u s) (htaken : ¬ Passes (n.view (home u)) u f) :
    Stage home (n.put (home u) s) f := by
  have hexec : (n.fiber f).state ≠ .exec := fun hstate => htaken (passes_of_exec hstate)
  have hqueue : ¬ n.Unqueued f := fun hunqueued => htaken (passes_of_asks (hunqueued (home u)))
  have hfound : ∀ S thread, n.QueuedAt f S thread → n.Unknown f →
      home u = S ∧ (thread = none ∨ thread = some u) ∧ (n.put (home u) s).Unqueued f ∧
        (n.put (home u) s).HeldBy f u ∧ (s.worker u).pc = .popped (.fiber f) ∧
        (s.fiber f).state = (n.fiber f).state := by
    intro S thread hat hknown
    unfold Passes at htaken
    push Not at htaken
    obtain ⟨⟨task, thread'⟩, hpc, hfind, htask⟩ := htaken
    obtain rfl : task = .fiber f := htask
    cases hw with
    | found e _ hfind' =>
      obtain rfl := Option.some.inj (hfind'.symm.trans hfind)
      obtain ⟨hhome, hthread, hunqueued, hheld⟩ := found_held hat hknown hfind rfl
      exact ⟨hhome, hthread, hunqueued, hheld, by simp [goto, setWorker], rfl⟩
    | missed _ hfind' => exact absurd (hfind'.symm.trans hfind) (by simp)
    | _ => simp_all
  cases h with
  | free _ hunqueued | held _ _ hunqueued | arriving _ _ _ _ _ hunqueued =>
    exact absurd hunqueued hqueue
  | asked w slot S thread leaving hsw hat hheld hpc => exact absurd (hheld.exec slot hpc) hexec
  | departing w S thread leaving hsw hat hheld hpc hstate => exact absurd hstate hexec
  | queued S thread hsw hat hknown =>
    obtain ⟨_, _, hunqueued, hheld, _⟩ := hfound S thread hat hknown
    exact .held u hsw hunqueued hheld
  | away S thread leaving hsw hat hknown hstate =>
    obtain ⟨hhome, hthread, hunqueued, hheld, hpc, hkept⟩ := hfound S thread hat hknown
    refine .arriving u S thread leaving hsw hunqueued hheld ?_ ?_ hhome hthread
    · show (s.worker u).pc.Arrives f
      rw [hpc]
      rfl
    · show (s.fiber f).state.finished = false
      rw [hkept, hstate]
      rfl

/-- Every step of a worker. -/
theorem Stage.work (h : Stage home n f) (hmade : f < n.made) {u : ι} {s : State ι κ}
    (hw : Worked (n.view (home u)) u s) : Stage home (n.put (home u) s) f := by
  by_cases hknows : (n.worker u).Knows f
  · cases h with
    | free _ _ hknown | queued _ _ _ _ hknown | away _ _ _ _ _ hknown =>
      exact absurd hknows (hknown u)
    | held w hsw hqueue hheld =>
      obtain rfl := hheld.eq hknows
      exact held_work hsw hqueue hheld hw
    | asked w slot S thread leaving hsw hqueue hheld hpc =>
      obtain rfl := hheld.eq hknows
      cases hw <;> simp_all
    | departing w S thread leaving hsw hqueue hheld hpc hstate =>
      obtain rfl := hheld.eq hknows
      exact departing_work hsw hqueue hheld hpc hstate hw
    | arriving w S thread leaving hsw hqueue hheld hpc hstate hhome hthread =>
      obtain rfl := hheld.eq hknows
      exact arriving_work hsw hqueue hheld hpc hstate hhome hthread hw
  · by_cases hpass : Passes (n.view (home u)) u f
    · obtain ⟨hasks, hknows'⟩ := hw.apart hmade hknows hpass
      refine h.move u rfl (asks_put_same hasks) (hw.untouched hmade hknows) hw.frame.others
        ⟨fun hk => absurd hk hknows', fun hk => absurd hk hknows⟩ (fun hk => absurd hk hknows) ?_ ?_
      · exact fun hvia => absurd (.inl (Pc.viaFt_named hvia)) hknows'
      · exact fun slot hpc => hw.exec hpc
    · exact h.taken hw hpass

end Net
end SimpleHttpServer.Scheduler
