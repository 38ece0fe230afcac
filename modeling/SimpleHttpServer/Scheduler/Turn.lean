import SimpleHttpServer.Scheduler.Steps
import SimpleHttpServer.Lib.Queue

/-! The order in which entries leave the queue.

A scan takes the first entry that its worker may run, so an entry can be passed over:
by a worker of another thread, or, if it names a fiber, while that fiber executes. A
callback is passed over for its thread only. So the callbacks for one thread, and those
for any, are taken in the order in which they were scheduled (`first_come`), and
nothing that is scheduled behind a callback for any thread is taken before it
(`never_overtaken`), whatever the other threads and the tasks do. -/
namespace SimpleHttpServer.Scheduler
open State

variable {ι κ : Type} [DecidableEq ι] [Fintype ι]

/-- The entry a step takes from the queue. -/
def taken (s : State ι κ) : Action ι κ → Option (FiberAndThread ι κ)
  | .work w => match (s.worker w).pc with
    | .top => s.fibers.find? (s.takes w)
    | _ => none
  | _ => none

/-- The entry a step puts into the queue. -/
def queued (s : State ι κ) : Action ι κ → Option (FiberAndThread ι κ)
  | .work w => match (s.worker w).pc with
    | .put f _ => some ⟨.fiber f, none⟩
    | _ => none
  | .body _ (.call (.schedule t thread)) | .outside (.schedule t thread) => some ⟨t, thread⟩
  | _ => none

/-- What a step does to the queue. -/
inductive Requeued (s : State ι κ) (a : Action ι κ) (t : State ι κ) : Prop
  | taken (w : ι) (e : FiberAndThread ι κ) (htaken : taken s a = some e) (hqueued : queued s a = none)
      (hfind : s.fibers.find? (s.takes w) = some e)
      (hfibers : t.fibers = s.fibers.eraseP (s.takes w)) : Requeued s a t
  | queued (htaken : taken s a = none) (hfibers : t.fibers = s.fibers ++ (queued s a).toList) :
      Requeued s a t

omit [DecidableEq ι] [Fintype ι] in
theorem Called.fibers {s t : State ι κ} {c : Call ι κ} (h : Called s c t) :
    t.fibers = s.fibers ++ match c with
      | .make _ => []
      | .schedule task thread => [⟨task, thread⟩] := by
  cases h with
  | made => exact (List.append_nil _).symm
  | fiber => rfl
  | cb => rfl

omit [Fintype ι] in
theorem Worked.requeued {s t : State ι κ} {w : ι} (h : Worked s w t) : Requeued s (.work w) t := by
  cases h with
  | found e hpc hfind =>
    exact .taken w e (by simp [taken, hpc, hfind]) (by simp [queued, hpc]) hfind rfl
  | missed hpc hfind =>
    exact .queued (by simp [taken, hpc, hfind]) (by simp [queued, hpc, goto, setWorker])
  | reschedule f slot hpc | held f slot hpc =>
    exact .queued (by simp [taken, hpc]) (by simp [queued, hpc, push, setFiber])
  | refuse _ hpc | accept _ hpc | reuse _ _ _ hpc | fresh _ hpc | swapIn _ _ _ hpc
  | swapOut _ _ _ hpc | lower _ _ hpc | isReady _ _ hpc | notReady _ _ hpc | settled _ hpc
  | wiping _ hpc | unsettled _ _ hpc | wiped _ _ hpc | skipped hpc | exit hpc | goIdle hpc
  | idleEnd hpc | idleHold hpc =>
    exact .queued (by simp [taken, hpc]) (by simp [queued, hpc, goto, setWorker, setFiber])

omit [Fintype ι] in
theorem Bodied.requeued {s t : State ι κ} {w : ι} {f : ℕ} {slot : Slot} {b : Body ι κ}
    (h : Bodied s w f slot b t) : Requeued s (.body w b) t := by
  cases h with
  | call c t _ h => exact .queued rfl (by rw [h.fibers]; cases c <;> rfl)
  | ready | hold | «return» | throw => exact .queued rfl (List.append_nil _).symm

theorem step_requeued {root : Option ι} {s t : State ι κ} {a : Action ι κ}
    (h : step root s a = some t) : Requeued s a t := by
  cases stepped_of_step h with
  | work w _ h => exact h.requeued
  | body w f slot b _ _ h => exact h.requeued
  | outside c _ h => exact .queued rfl (by rw [h.fibers]; cases c <;> rfl)
  | stop _ h => cases h <;> exact .queued rfl (List.append_nil _).symm

/-! ### First come, first served -/

/-- A callback for this thread, or for any (`none`). -/
def CallbackFor (τ : Option ι) (e : FiberAndThread ι κ) : Bool :=
  e.thread == τ && match e.task with
    | .cb _ => true
    | .fiber _ => false

omit [Fintype ι] in
/-- Who takes one of them takes all of them. -/
theorem takes_callbackFor (s : State ι κ) (w : ι) {τ : Option ι} {e e' : FiberAndThread ι κ}
    (he : CallbackFor τ e = true) (htakes : s.takes w e = true) (he' : CallbackFor τ e' = true) :
    s.takes w e' = true := by
  obtain ⟨task, thread⟩ := e
  obtain ⟨task', thread'⟩ := e'
  simp only [CallbackFor, Bool.and_eq_true, beq_iff_eq] at he he'
  obtain ⟨rfl, -⟩ := he
  obtain ⟨rfl, htask'⟩ := he'
  cases task' with
  | fiber => cases htask'
  | cb c =>
    simp only [takes, Bool.and_eq_true, and_true] at htakes ⊢
    exact htakes.1

theorem step_first_come (τ : Option ι) {root : Option ι} {s t : State ι κ} {a : Action ι κ}
    (h : step root s a = some t) :
    (s.fibers ++ (queued s a).toList).filter (CallbackFor τ) =
      ((taken s a).toList ++ t.fibers).filter (CallbackFor τ) := by
  cases step_requeued h with
  | taken w e htaken hqueued hfind hfibers =>
    rw [htaken, hqueued, hfibers]
    show (s.fibers ++ []).filter _ = (e :: _).filter _
    rw [List.append_nil]
    cases he : CallbackFor τ e with
    | true =>
      rw [List.filter_cons_of_pos he]
      have hall : ∀ e', CallbackFor τ e' = true → s.takes w e' = true :=
        fun _ he' => takes_callbackFor s w he (List.find?_some hfind) he'
      exact Queue.filter_of_taken hfind he hall
    | false =>
      rw [List.filter_cons_of_neg (by rw [he]; exact Bool.false_ne_true)]
      exact (Queue.filter_of_other hfind he).symm
  | queued htaken hfibers =>
    rw [htaken, hfibers]
    rfl

/-- On every run, from any state: the callbacks for one thread (or for any) that were queued, and
that come into the queue, are those that were taken, and that are left, in the same order. -/
theorem first_come (τ : Option ι) (root : Option ι) {s t : State ι κ} {acts : List (Action ι κ)}
    (hrun : (machine κ root).run s acts = some t) :
    (s.fibers ++ (machine κ root).events queued s acts).filter (CallbackFor τ) =
      ((machine κ root).events taken s acts ++ t.fibers).filter (CallbackFor τ) := by
  induction acts generalizing s with
  | nil =>
    cases hrun
    show (t.fibers ++ []).filter _ = ([] ++ t.fibers).filter _
    rw [List.append_nil, List.nil_append]
  | cons a rest ih =>
    obtain ⟨u, hu, hrest⟩ := (machine κ root).run_cons.mp hrun
    have hstep := step_first_come τ hu
    have hih := ih hrest
    simp only [List.filter_append] at hstep hih ⊢
    rw [Machine.events_cons hu, Machine.events_cons hu, List.filter_append, List.filter_append,
      ← List.append_assoc, hstep, List.append_assoc, List.append_assoc, hih]

/-- One callback for a thread, two for any: the other thread passes over the first. -/
def passOver : List (Action Bool ℕ) :=
  [.outside (.schedule (.cb 0) (some true)), .outside (.schedule (.cb 1) none),
    .outside (.schedule (.cb 2) none), .work false, .work true]

theorem first_come_passOver :
    (machine ℕ none).events taken (.initial none) passOver = [⟨.cb 1, none⟩, ⟨.cb 0, some true⟩] ∧
    ∃ t, (machine ℕ none).run (.initial none) passOver = some t ∧
      (([⟨.cb 0, some true⟩, ⟨.cb 1, none⟩, ⟨.cb 2, none⟩] : List (FiberAndThread Bool ℕ)).filter
          (CallbackFor none) =
        (⟨.cb 1, none⟩ :: ⟨.cb 0, some true⟩ :: t.fibers).filter (CallbackFor none)) := by
  have hrun : ((machine ℕ none).run (.initial none) passOver).isSome := by decide
  have htaken : (machine ℕ none).events taken (.initial none) passOver =
      [⟨.cb 1, none⟩, ⟨.cb 0, some true⟩] := by decide
  have hqueued : (machine ℕ none).events queued (.initial none) passOver =
      [⟨.cb 0, some true⟩, ⟨.cb 1, none⟩, ⟨.cb 2, none⟩] := by decide
  obtain ⟨t, ht⟩ := Option.isSome_iff_exists.mp hrun
  have horder := first_come none none ht
  rw [htaken, hqueued] at horder
  exact ⟨htaken, t, ht, horder⟩

/-! ### No overtaking -/

omit [Fintype ι] in
theorem takes_callback (s : State ι κ) (w : ι) (c : κ) : s.takes w ⟨.cb c, none⟩ = true := rfl

/-- Behind a run in which it waits in the queue, or in which it is taken: all that were taken
before a callback for any thread were ahead of it from the start. -/
theorem never_overtaken (root : Option ι) {s t : State ι κ} {acts : List (Action ι κ)} {c : κ}
    {ahead behind : List (FiberAndThread ι κ)}
    (hfibers : s.fibers = ahead ++ ⟨.cb c, none⟩ :: behind)
    (hrun : (machine κ root).run s acts = some t) :
    (∃ first rest left, (machine κ root).events taken s acts = first ++ ⟨.cb c, none⟩ :: rest ∧
      (first ++ left).Perm ahead) ∨
    ∃ left behind', t.fibers = left ++ ⟨.cb c, none⟩ :: behind' ∧
      ((machine κ root).events taken s acts ++ left).Perm ahead := by
  induction acts generalizing s ahead behind with
  | nil =>
    cases hrun
    exact .inr ⟨ahead, behind, hfibers, .refl _⟩
  | cons a rest ih =>
    obtain ⟨u, hu, hrest⟩ := (machine κ root).run_cons.mp hrun
    rw [Machine.events_cons hu]
    cases step_requeued hu with
    | taken w e htaken _ hfind hnext =>
      rw [htaken]
      rw [hfibers] at hfind hnext
      obtain ⟨hahead, herase⟩ | ⟨he, -⟩ := Queue.taken_before (takes_callback s w c) hfind
      · have hperm := Queue.perm_cons_eraseP hahead
        obtain ⟨first, later, left, hevents, hleft⟩ | ⟨left, behind', ht, hleft⟩ :=
          ih (hnext.trans herase) hrest
        · exact .inl ⟨e :: first, later, left, by rw [hevents]; rfl, (hleft.cons e).trans hperm.symm⟩
        · exact .inr ⟨left, behind', ht, (hleft.cons e).trans hperm.symm⟩
      · exact .inl ⟨[], _, ahead, by rw [he]; rfl, .refl _⟩
    | queued htaken hnext =>
      rw [htaken]
      rw [hfibers, List.append_assoc, List.cons_append] at hnext
      exact ih hnext hrest

/-- The queue of the run above, with the second entry in question. -/
def threeQueued : State Bool ℕ :=
  {State.initial none with fibers := [⟨.cb 0, some true⟩, ⟨.cb 1, none⟩, ⟨.cb 2, none⟩]}

theorem never_overtaken_threeQueued :
    ∃ t, (machine ℕ none).run threeQueued [.work true] = some t ∧
      ((∃ first rest left, (machine ℕ none).events taken threeQueued [.work true] =
          first ++ ⟨.cb 1, none⟩ :: rest ∧ (first ++ left).Perm [⟨.cb 0, some true⟩]) ∨
        ∃ left behind', t.fibers = left ++ ⟨.cb 1, none⟩ :: behind' ∧
          ((machine ℕ none).events taken threeQueued [.work true] ++ left).Perm
            [⟨.cb 0, some true⟩]) := by
  have hrun : ((machine ℕ none).run threeQueued [.work true]).isSome := by decide
  obtain ⟨t, ht⟩ := Option.isSome_iff_exists.mp hrun
  exact ⟨t, ht, never_overtaken none rfl ht⟩

end SimpleHttpServer.Scheduler
