import SimpleHttpServer.Scheduler.Life

/-! Fibers that have ended, over the life of a scheduler.

A fiber made for a task is with nobody until it is scheduled, and one that has ended
leaves the worker it ran on for good. Two fibers are entered by other checks: the next
`stop()` calls the root fiber again whenever `stopping()` is false, and `run` asks for
`TERM` alone before it enters its idle fiber, so one that has thrown is entered again.
Where neither happens, no fiber that has ended is ever entered (`no_finished_entered`). -/
namespace SimpleHttpServer.Scheduler
open State

variable {ι κ : Type} [DecidableEq ι]

/-- What this point of the loop takes for granted about its fiber. -/
def Pc.Fits (s : State ι κ) : Pc κ → Prop
  | .enter f _ | .hold f _ => (s.fiber f).state.finished = false
  | .leaving f _ .over => (s.fiber f).state.finished = true
  | _ => True

/-- No worker is about to enter a fiber that has ended, and no other fiber is behind its
last `swapOut`. -/
structure Guarded (s : State ι κ) : Prop where
  placed : Placed s
  fits : ∀ w, (s.worker w).pc.Fits s
  ended : ∀ f, (s.fiber f).ctx = .over → (s.fiber f).state.finished = true

omit [DecidableEq ι] in
theorem Pc.fits_congr {s t : State ι κ} {pc : Pc κ} (h : pc.Fits s)
    (hfiber : ∀ f, pc.named = some f → t.fiber f = s.fiber f) : pc.Fits t := by
  cases pc with
  | enter f slot | hold f slot =>
    show (t.fiber f).state.finished = false
    rw [hfiber f rfl]
    exact h
  | leaving f slot ctx =>
    cases ctx with
    | entry | yielded => exact trivial
    | _ =>
      show (t.fiber f).state.finished = true
      rw [hfiber f rfl]
      exact h
  | _ => exact trivial

/-- One worker moves, and changes no fiber made before but one it knows. -/
theorem guarded_move {s t : State ι κ} (h : Guarded s) (ht : Placed t) (w : ι)
    (hothers : ∀ u, u ≠ w → t.worker u = s.worker u)
    (hfiber : ∀ f, f < s.made → ¬ (s.worker w).Knows f → t.fiber f = s.fiber f)
    (hfits : (t.worker w).pc.Fits t)
    (hover : ∀ f, (t.fiber f).ctx = .over → (t.fiber f).state.finished = true) : Guarded t := by
  refine ⟨ht, fun u => ?_, hover⟩
  by_cases hu : u = w
  · subst hu
    exact hfits
  · rw [hothers u hu]
    refine Pc.fits_congr (h.fits u) fun f hf => ?_
    have hknown : (s.worker u).Knows f := .inl hf
    exact hfiber f (h.placed.known u f hknown) (h.placed.apart u w f hu hknown)

omit [DecidableEq ι] in
theorem ended_setFiber {s : State ι κ} {f : ℕ} {r : Fiber κ}
    (h : ∀ g, (s.fiber g).ctx = .over → (s.fiber g).state.finished = true)
    (hr : r.ctx = .over → r.state.finished = true) (g : ℕ)
    (hg : ((s.setFiber f r).fiber g).ctx = .over) :
    ((s.setFiber f r).fiber g).state.finished = true := by
  by_cases hgf : g = f
  · subst hgf
    simp only [setFiber, Function.update_self] at hg ⊢
    exact hr hg
  · simp only [setFiber, Function.update_of_ne hgf] at hg ⊢
    exact h g hg

theorem Worked.fits {s t : State ι κ} {w : ι} (h : Worked s w t) : (t.worker w).pc.Fits t := by
  cases h with
  | accept f hpc hfin => simpa [goto, setWorker, Pc.Fits] using hfin
  | unsettled f slot hpc hfin => simpa [goto, setWorker, Pc.Fits] using hfin
  | reuse c f r hpc hcb hr =>
    obtain rfl := Fiber.reset_eq hr
    simp [goto, setWorker, setFiber, Pc.Fits, Fiber.State.finished]
  | fresh c hpc hcb => simp [setWorker, setFiber, Pc.Fits, Fiber.new, Fiber.State.finished]
  | reschedule | held =>
    rw [drop_worker, Function.update_self]
    exact trivial
  | _ => simp [goto, setWorker, Pc.Fits]

theorem Worked.ended {s t : State ι κ} {w : ι} (h : Worked s w t) (hs : Guarded s) :
    ∀ f, (t.fiber f).ctx = .over → (t.fiber f).state.finished = true := by
  cases h with
  | reuse c f r hpc hcb hr =>
    obtain rfl := Fiber.reset_eq hr
    exact ended_setFiber hs.ended (fun hctx => by cases hctx)
  | wiped f r hpc hr =>
    obtain rfl := Fiber.reset_eq hr
    exact ended_setFiber hs.ended (fun hctx => by cases hctx)
  | fresh c hpc hcb =>
    exact ended_setFiber (s := {s with made := s.made + 1}) hs.ended (fun hctx => by cases hctx)
  | swapIn f slot r hpc hr =>
    have hctx : r.ctx ≠ .over := by
      unfold Fiber.swapIn at hr
      split at hr
      · cases hr
      · cases hr
        simp_all
    exact ended_setFiber hs.ended (fun hover => absurd hover hctx)
  | swapOut f slot ctx hpc =>
    have hfits := hs.fits w
    refine ended_setFiber hs.ended fun hover => ?_
    obtain rfl : ctx = .over := hover
    simpa [hpc, Pc.Fits] using hfits
  | held f slot hpc =>
    have hfin : (s.fiber f).state.finished = false := by
      have hfits := hs.fits w
      rwa [hpc] at hfits
    rw [drop_fiber]
    refine ended_setFiber hs.ended fun hover => ?_
    exact absurd (hs.ended f hover) (by simp [hfin])
  | reschedule f slot hpc =>
    rw [drop_fiber, push_fiber]
    exact hs.ended
  | _ => exact hs.ended

theorem worked_guarded {s t : State ι κ} {w : ι} (h : Worked s w t) (hs : Guarded s) : Guarded t :=
  guarded_move hs (worked_placed h hs.placed) w h.frame.others (fun _ => h.untouched) h.fits
    (h.ended hs)

omit [DecidableEq ι] in
theorem called_guarded {s t : State ι κ} {c : Call ι κ} (h : Called s c t) (hs : Guarded s)
    (hidle : CallIdle s c) : Guarded t := by
  have hplaced := called_placed h hs.placed hidle
  cases h with
  | made c =>
    refine ⟨hplaced, fun w => Pc.fits_congr (hs.fits w) fun f hf => ?_,
      ended_setFiber (s := {s with made := s.made + 1}) hs.ended (fun hctx => by cases hctx)⟩
    have hne : f ≠ s.made := Nat.ne_of_lt (hs.placed.known w f (.inl hf))
    simp [setFiber, hne]
  | fiber | cb =>
    exact ⟨hplaced, fun w => Pc.fits_congr (hs.fits w) fun _ _ => rfl, hs.ended⟩

theorem bodied_guarded {s t : State ι κ} {w : ι} {f : ℕ} {slot : Slot} {b : Body ι κ}
    (hpc : (s.worker w).pc = .running f slot) (h : Bodied s w f slot b t) (hs : Guarded s)
    (hb : ∀ c, b ≠ .call c) : Guarded t := by
  have hplaced := bodied_placed hpc h hs.placed (fun c hc => absurd hc (hb c))
  have hothers := h.frame.others
  have hknown : (s.worker w).Knows f := .inl (by simp [hpc, Pc.named])
  cases h with
  | call c => exact absurd rfl (hb c)
  | ready r _ hr =>
    refine guarded_move hs hplaced w hothers (fun g _ hg => ?_) (by simp [goto, setWorker, Pc.Fits])
      (ended_setFiber hs.ended fun hctx => ?_)
    · simp [goto, setWorker, setFiber, unknown_ne hknown hg]
    · -- a fiber in state `EXEC` is not behind its last `swapOut`
      unfold Fiber.yieldToReady at hr
      split at hr
      · cases hr
        have hfin := hs.ended f hctx
        simp_all [Fiber.State.finished]
      · cases hr
  | hold r _ hr =>
    refine guarded_move hs hplaced w hothers (fun g _ hg => ?_) (by simp [goto, setWorker, Pc.Fits])
      (ended_setFiber hs.ended fun hctx => ?_)
    · simp [goto, setWorker, setFiber, unknown_ne hknown hg]
    · unfold Fiber.yieldToHold at hr
      split at hr
      · cases hr
        exact hs.ended f hctx
      · cases hr
  | «return» | throw =>
    refine guarded_move hs hplaced w hothers (fun g _ hg => ?_) ?_
      (ended_setFiber (s := s.finish f) hs.ended fun _ => rfl)
    · simp [goto, setWorker, setFiber, State.finish, unknown_ne hknown hg]
    · simp [goto, setWorker, setFiber, Pc.Fits, Fiber.finish, Fiber.fail, Fiber.State.finished]

/-- Every worker stays as it is or is at the head of the loop with no other fiber than before. -/
def Rests (s t : State ι κ) : Prop :=
  ∀ w, t.worker w = s.worker w ∨
    (t.worker w).pc = .top ∧ ∀ f, (t.worker w).cbFiber = some f → (s.worker w).cbFiber = some f

omit [DecidableEq ι] in
theorem Rests.knows {s t : State ι κ} (h : Rests s t) {w : ι} {f : ℕ} (hf : (t.worker w).Knows f) :
    (s.worker w).Knows f := by
  rcases h w with hsame | ⟨htop, hcb⟩
  · exact hsame ▸ hf
  · rcases hf with hnamed | hcb'
    · simp [htop, Pc.named] at hnamed
    · exact .inr (hcb f hcb')

omit [DecidableEq ι] in
theorem Rests.idle {s t : State ι κ} (h : Rests s t) (hqueue : t.fibers = s.fibers) {f : ℕ}
    (hf : Idle s f) : Idle t f :=
  ⟨by simpa only [State.queued, hqueue] using hf.1, fun w hknown => hf.2 w (h.knows hknown)⟩

omit [DecidableEq ι] in
theorem Rests.guarded {s t : State ι κ} (h : Rests s t) (hs : Guarded s)
    (hqueue : t.fibers = s.fibers) (hmade : t.made = s.made) (hfiber : t.fiber = s.fiber) :
    Guarded t := by
  refine ⟨placed_less hs.placed hqueue hmade (fun w f => h.knows) ?_, ?_,
    by rw [hfiber]; exact hs.ended⟩
  · intro w f hf
    rcases h w with hsame | ⟨htop, _⟩
    · rw [hsame] at hf ⊢
      exact hs.placed.split w f hf
    · simp [htop, Pc.viaFt] at hf
  · intro w
    rcases h w with hsame | ⟨htop, _⟩
    · rw [hsame]
      exact Pc.fits_congr (hs.fits w) fun f _ => by rw [hfiber]
    · rw [htop]
      exact trivial

theorem launch_rests (s : State ι κ) (pool : List ι) : Rests s (s.launch pool) := by
  intro w
  by_cases hw : w ∈ pool
  · right
    simp [State.launch, hw]
  · left
    simp [State.launch, hw]

/-- Only `idle()` itself ends the idle fiber with an exception. -/
theorem Worked.awake {s t : State ι κ} {w : ι} (h : Worked s w t)
    (hs : ∀ u, (s.worker u).idle ≠ .except) (u : ι) : (t.worker u).idle ≠ .except := by
  by_cases hu : u = w
  · subst hu
    have hu := hs u
    cases h with
    | reschedule | held =>
      rw [drop_worker, Function.update_self]
      exact hu
    | goIdle | idleEnd | idleHold => simp [setWorker]
    | _ => simpa [goto, setWorker] using hu
  · rw [h.frame.others u hu]
    exact hs u

theorem Bodied.idle {s t : State ι κ} {w : ι} {f g : ℕ} {slot : Slot} {b : Body ι κ}
    (hpc : (s.worker w).pc = .running f slot) (h : Bodied s w f slot b t)
    (hb : ∀ c, b ≠ .call c) (hg : Idle s g) : Idle t g := by
  obtain ⟨hqueue, _, ctx, hworker⟩ := h.kept hb
  refine ⟨by simpa only [State.queued, hqueue] using hg.1, fun u hknown => hg.2 u ?_⟩
  rw [hworker] at hknown
  by_cases hu : u = w
  · subst hu
    rw [Function.update_self] at hknown
    rcases hknown with hnamed | hcb
    · exact .inl (by simpa [hpc, Pc.named] using hnamed)
    · exact .inr hcb
  · rwa [Function.update_of_ne hu] at hknown

namespace Life

/-- What holds of a scheduler whose `idle()` does not throw and whose fibers are scheduled once. -/
structure Orderly (l : Life ι κ) : Prop where
  guarded : Guarded l.now
  unused : ∀ f ∈ l.unused, Idle l.now f ∧ f < l.now.made
  awake : ∀ w, (l.now.worker w).idle ≠ .except
  phase : Phase l.now

omit [DecidableEq ι] in
theorem phase_frame {s t : State ι κ} {w : ι} (h : Frame s w t) (hs : Phase s) : Phase t := by
  refine ⟨?_, fun hcaller => ?_⟩
  · rw [h.caller, h.autoStop]
    exact hs.autoStop
  · rw [h.isStopping]
    exact hs.tickled (h.caller ▸ hcaller)

theorem worked_orderly {l : Life ι κ} {w : ι} {s : State ι κ} (h : Worked l.now w s)
    (hl : l.Orderly) : Orderly {l with now := s} := by
  refine ⟨worked_guarded h hl.guarded, fun f hf => ?_, h.awake hl.awake, phase_frame h.frame hl.phase⟩
  obtain ⟨hidle, hmade⟩ := hl.unused f hf
  exact ⟨h.idle hidle hmade, Nat.lt_of_lt_of_le hmade h.made_le⟩

theorem bodied_orderly {l : Life ι κ} {w : ι} {f : ℕ} {slot : Slot} {b : Body ι κ} {s : State ι κ}
    (hpc : (l.now.worker w).pc = .running f slot) (h : Bodied l.now w f slot b s)
    (hb : ∀ c, b ≠ .call c) (hl : l.Orderly) : Orderly {l with now := s} := by
  obtain ⟨_, hmade, ctx, hworker⟩ := h.kept hb
  refine ⟨bodied_guarded hpc h hl.guarded hb, fun g hg => ?_, fun u => ?_,
    phase_frame h.frame hl.phase⟩
  · obtain ⟨hidle, hlt⟩ := hl.unused g hg
    exact ⟨h.idle hpc hb hidle, hmade ▸ hlt⟩
  · show (s.worker u).idle ≠ .except
    have hawake := hl.awake u
    rw [hworker]
    by_cases hu : u = w
    · subst hu
      simpa using hawake
    · rwa [Function.update_of_ne hu]

omit [DecidableEq ι] in
/-- A fiber made for a task is with nobody until it is scheduled, and then it is not
scheduled again. -/
theorem called_orderly {l : Life ι κ} {a : Action ι κ} {c : Call ι κ} {s : State ι κ}
    (ha : a.call? = some c) (h : Called l.now c s) (honce : OnceEach l a) (hl : l.Orderly) :
    Orderly {l with now := s, unused := l.noted c} := by
  have hidle : CallIdle l.now c := by
    unfold OnceEach at honce
    rw [ha] at honce
    cases c with
    | make c => exact trivial
    | schedule task thread =>
      cases task with
      | cb c => exact trivial
      | fiber f => exact (hl.unused f honce).1
  obtain ⟨hworker, hcaller, hstopping, hauto, _⟩ := h.frame
  refine ⟨called_guarded h hl.guarded hidle, ?_, ?_, ?_⟩
  · cases h with
    | made c =>
      intro f hf
      rcases List.mem_cons.mp hf with rfl | hold
      · refine ⟨⟨fun hin => ?_, fun w hknown => ?_⟩, Nat.lt_succ_self _⟩
        · exact Nat.lt_irrefl _ (hl.guarded.placed.queuedMade _ hin)
        · exact Nat.lt_irrefl _ (hl.guarded.placed.known w _ hknown)
      · exact ⟨(hl.unused f hold).1, Nat.lt_succ_of_lt (hl.unused f hold).2⟩
    | fiber g thread hg =>
      intro f hf
      obtain ⟨hold, hne⟩ : f ∈ l.unused ∧ f ≠ g := by simpa [noted] using hf
      obtain ⟨⟨hqueue, hknows⟩, hmade⟩ := hl.unused f hold
      exact ⟨⟨by simp [queued_push_fiber, hqueue, hne], hknows⟩, hmade⟩
    | cb c thread =>
      intro f hf
      obtain ⟨⟨hqueue, hknows⟩, hmade⟩ := hl.unused f hf
      exact ⟨⟨by rwa [queued_push_cb], hknows⟩, hmade⟩
  · intro w
    show (s.worker w).idle ≠ .except
    rw [hworker]
    exact hl.awake w
  · exact ⟨by rw [hcaller, hauto]; exact hl.phase.autoStop,
      by rw [hcaller, hstopping]; exact hl.phase.tickled⟩

omit [DecidableEq ι] in
/-- Workers that rest keep order, whatever the flags do. -/
theorem rests_orderly {l m : Life ι κ} (hl : l.Orderly) (hrests : Rests l.now m.now)
    (hqueue : m.now.fibers = l.now.fibers) (hmade : m.now.made = l.now.made)
    (hfiber : m.now.fiber = l.now.fiber) (hunused : m.unused = l.unused)
    (hawake : ∀ w, (m.now.worker w).idle ≠ .except) (hphase : Phase m.now) : m.Orderly := by
  refine ⟨hrests.guarded hl.guarded hqueue hmade hfiber, fun f hf => ?_, hawake, hphase⟩
  obtain ⟨hidle, hlt⟩ := hl.unused f (hunused ▸ hf)
  exact ⟨hrests.idle hqueue hidle, hmade ▸ hlt⟩

theorem launch_awake {s : State ι κ} (h : ∀ w, (s.worker w).idle ≠ .except) (pool : List ι) (w : ι) :
    ((s.launch pool).worker w).idle ≠ .except := by
  by_cases hw : w ∈ pool
  · simp [State.launch, hw]
  · simpa [State.launch, hw] using h w

theorem step_orderly {threadCount : ℕ} {root : Option ι} {l m : Life ι κ} {a : Action ι κ}
    (hl : l.Orderly) (hrule : OnceEach l a ∧ Settled root l a)
    (hstep : (machine ι κ threadCount root).step l a = some m) : m.Orderly := by
  obtain ⟨honce, hsettled⟩ := hrule
  cases stepped_of_step hstep with
  | work w s hpc h => exact worked_orderly h hl
  | body w f slot b s hpc h hb => exact bodied_orderly hpc h hb hl
  | call _ c s ha h => exact called_orderly ha h honce hl
  | idle w b state hstate =>
    refine rests_orderly hl (fun u => ?_) rfl rfl rfl rfl (fun u => ?_)
      ⟨hl.phase.autoStop, hl.phase.tickled⟩
    · by_cases hu : u = w
      · subst hu
        exact .inr (by simp [leaveIdle, setWorker])
      · exact .inl (by simp [leaveIdle, setWorker, hu])
    · by_cases hu : u = w
      · subst hu
        simp only [leaveIdle, setWorker, Function.update_self]
        intro hexcept
        obtain rfl := hstate hexcept
        exact hsettled
      · simpa [leaveIdle, setWorker, hu] using hl.awake u
  | start pool hcaller =>
    refine rests_orderly hl (launch_rests _ pool) rfl rfl rfl rfl
      (launch_awake (s := {l.now with isStopping := false}) hl.awake pool) ⟨hl.phase.autoStop, ?_⟩
    intro htickled
    rcases hcaller with hserving | hreturned
    · exact absurd (hserving.symm.trans htickled) (by simp)
    · exact absurd (hreturned.symm.trans htickled) (by simp)
  | started pool => exact hl
  | stop m h =>
    cases h with
    | moved t threads rootFiber ht hphase =>
      rw [ht]
      exact rests_orderly hl (fun u => .inl rfl) rfl rfl rfl rfl hl.awake (ht ▸ hphase hl.phase)
    | enterRoot r hcaller =>
      refine rests_orderly hl (launch_rests _ [r]) rfl rfl rfl rfl
        (launch_awake (s := {l.now with caller := .inRoot}) hl.awake [r])
        ⟨.inr (.inr ?_), fun h => by cases h⟩
      show l.now.autoStop = true
      simpa [hcaller] using hl.phase.autoStop

omit [DecidableEq ι] in
theorem initial_orderly : (initial : Life ι κ).Orderly := by
  have hknows : ∀ w f, ¬ ((initial : Life ι κ).now.worker w).Knows f := by
    rintro w f (hnamed | hcb)
    · cases hnamed
    · cases hcb
  exact ⟨⟨placed_of_empty rfl hknows, fun w => trivial, fun f h => nomatch h⟩,
    fun f h => (nomatch h), fun w h => (nomatch h), ⟨.inl rfl, fun h => nomatch h⟩⟩

omit [DecidableEq ι] in
/-- An orderly scheduler enters no fiber that has ended. -/
theorem Orderly.enters {root : Option ι} {l : Life ι κ} (hl : l.Orderly) {a : Action ι κ}
    (hsettled : Settled root l a) : ¬ EntersFinished root l a ∧ ¬ NeverReach l a := by
  cases a with
  | work w =>
    have hfits := hl.guarded.fits w
    cases hpc : (l.now.worker w).pc with
    | enter f slot =>
      have hfin : (l.now.fiber f).state.finished = false := by rwa [hpc] at hfits
      refine ⟨by simp [EntersFinished, hpc, hfin], fun h => ?_⟩
      have hover : (l.now.fiber f).ctx = .over := by simpa [NeverReach, hpc] using h
      exact absurd (hl.guarded.ended f hover) (by simp [hfin])
    | nothing =>
      refine ⟨fun h => ?_, by simp [NeverReach, hpc]⟩
      obtain ⟨hterm, hfin⟩ :
          (l.now.worker w).idle ≠ .term ∧ (l.now.worker w).idle.finished = true := by
        simpa [EntersFinished, hpc] using h
      have hawake := hl.awake w
      cases hidle : (l.now.worker w).idle <;> simp_all [Fiber.State.finished]
    | _ => simp [EntersFinished, NeverReach, hpc]
  | stop =>
    refine ⟨fun ⟨hcaller, hroot, hstopping, hfin⟩ => ?_, id⟩
    have hinit : l.rootFiber ≠ .init := by
      intro h
      rw [h] at hfin
      cases hfin
    obtain ⟨hqueue, hactive⟩ := hsettled hcaller hroot hinit
    have hauto : l.now.autoStop = true := by simpa [hcaller] using hl.phase.autoStop
    simp [State.stopping, hauto, hl.phase.tickled hcaller, hqueue, hactive] at hstopping
  | _ => exact ⟨id, id⟩

/-! ### When no work is given any more -/

/-- Not in `run`. -/
def Away (pc : Pc κ) : Prop := pc = .unborn ∨ pc = .done

/-- At a point of the loop where no task is held. -/
def FreeHanded : Pc κ → Prop
  | .unborn | .top | .nothing | .idling | .done => True
  | _ => False

/-- No work is queued, and none is held. -/
structure Resting (s : State ι κ) : Prop where
  queue : s.fibers = []
  active : s.activeThreadCount = 0
  free : ∀ w, FreeHanded (s.worker w).pc

/-- How the root fiber, the threads and the work stand to each other on a quiet run. -/
structure Calm (root : Option ι) (l : Life ι κ) : Prop where
  rootFiber : l.rootFiber = .init ∨ l.rootFiber = .term ∨ l.now.caller = .inRoot
  inside : l.now.caller = .inRoot → l.rootFiber = .exec
  away : ∀ w, w ∉ l.threads → (l.now.caller = .inRoot → root ≠ some w) → Away (l.now.worker w).pc
  resting : Spent root l → l.now.caller ≠ .joining → Resting l.now

omit [DecidableEq ι] in
theorem Away.free {pc : Pc κ} (h : Away pc) : FreeHanded pc := by
  rcases h with rfl | rfl
  · trivial
  · trivial

omit [DecidableEq ι] in
/-- A step that leaves `stop()` and the threads out of `run` alone. -/
theorem Calm.stay {root : Option ι} {l m : Life ι κ} (hl : l.Calm root)
    (hcaller : m.now.caller = l.now.caller) (hthreads : m.threads = l.threads)
    (hroot : m.rootFiber = l.rootFiber)
    (haway : ∀ w, Away (l.now.worker w).pc → m.now.worker w = l.now.worker w)
    (hresting : Spent root l → l.now.caller ≠ .joining → Resting l.now → Resting m.now) :
    m.Calm root where
  rootFiber := by
    rw [hroot, hcaller]
    exact hl.rootFiber
  inside := by
    rw [hroot, hcaller]
    exact hl.inside
  away w hw hin := by
    rw [hthreads] at hw
    rw [hcaller] at hin
    have hold := hl.away w hw hin
    rw [haway w hold]
    exact hold
  resting hspent hjoining := by
    have hold : Spent root l := ⟨hspent.1, hroot ▸ hspent.2⟩
    rw [hcaller] at hjoining
    exact hresting hold hjoining (hl.resting hold hjoining)

omit [DecidableEq ι] in
theorem away_of_done {pc : Pc κ} (h : pc.isDone = true) : Away pc := by
  cases pc with
  | done => exact .inr rfl
  | _ => cases h

theorem worked_not_away {s t : State ι κ} {w : ι} (h : Worked s w t) : ¬ Away (s.worker w).pc := by
  rintro (hpc | hpc) <;> cases h <;> simp_all

/-- A worker that goes on without a task. -/
theorem Resting.update {s t : State ι κ} (hs : Resting s) (w : ι) (v : Worker κ)
    (hworker : t.worker = Function.update s.worker w v) (hv : FreeHanded v.pc)
    (hqueue : t.fibers = s.fibers) (hactive : t.activeThreadCount = s.activeThreadCount) :
    Resting t where
  queue := hqueue.trans hs.queue
  active := hactive.trans hs.active
  free u := by
    rw [hworker]
    by_cases hu : u = w
    · subst hu
      rw [Function.update_self]
      exact hv
    · rw [Function.update_of_ne hu]
      exact hs.free u

/-- With nothing queued a scan finds nothing. -/
theorem worked_resting {s t : State ι κ} {w : ι} (h : Worked s w t) (hs : Resting s)
    (hpc : (s.worker w).pc ≠ .idling) : Resting t := by
  have hfree := hs.free w
  cases h with
  | found e htop hfind =>
    rw [hs.queue] at hfind
    cases hfind
  | missed | exit | goIdle => exact hs.update w _ rfl trivial rfl rfl
  | idleEnd hidling | idleHold hidling => exact absurd hidling hpc
  | refuse _ hat | accept _ hat | reuse _ _ _ hat | fresh _ hat | swapIn _ _ _ hat
  | swapOut _ _ _ hat | lower _ _ hat | isReady _ _ hat | notReady _ _ hat | reschedule _ _ hat
  | settled _ hat | wiping _ hat | unsettled _ _ hat | held _ _ hat | wiped _ _ hat | skipped hat =>
    rw [hat] at hfree
    exact hfree.elim

theorem launch_resting {s : State ι κ} (hs : Resting s) (pool : List ι) :
    Resting (s.launch pool) where
  queue := hs.queue
  active := hs.active
  free w := by
    by_cases hw : w ∈ pool
    · simp [State.launch, hw, FreeHanded]
    · simpa [State.launch, hw] using hs.free w

omit [DecidableEq ι] in
/-- A step of `stop()` that only moves on, or sets a flag. -/
theorem Calm.move {root : Option ι} {l : Life ι κ} (hl : l.Calm root) {s : State ι κ}
    (hin : l.now.caller ≠ .inRoot) (hjoining : l.now.caller ≠ .joining) (hout : s.caller ≠ .inRoot)
    (hworker : s.worker = l.now.worker) (hqueue : s.fibers = l.now.fibers)
    (hactive : s.activeThreadCount = l.now.activeThreadCount) : Calm root {l with now := s} where
  rootFiber := by
    rcases hl.rootFiber with hinit | hterm | hinside
    · exact .inl hinit
    · exact .inr (.inl hterm)
    · exact absurd hinside hin
  inside h := absurd h hout
  away w hw _ := by
    show Away (s.worker w).pc
    rw [hworker]
    exact hl.away w hw fun h => absurd h hin
  resting hspent _ := by
    obtain ⟨hempty, hzero, hfree⟩ := hl.resting hspent hjoining
    refine ⟨hqueue.trans hempty, hactive.trans hzero, fun w => ?_⟩
    rw [hworker]
    exact hfree w

/-- One step of `stop()` on a quiet run. -/
theorem stop_calm {threadCount : ℕ} {root : Option ι} {l m : Life ι κ} (hl : l.Calm root)
    (hquiet : Quiet root l .stop) (h : l.stop threadCount root = some m) : m.Calm root := by
  cases hc : l.now.caller with
  | serving | returned =>
    simp only [stop, hc, Option.some.injEq] at h
    subst h
    exact hl.move (by simp [hc]) (by simp [hc]) (by simp) rfl rfl rfl
  | begun =>
    simp only [stop, hc, Option.some.injEq] at h
    subst h
    split
    · exact hl.move (by simp [hc]) (by simp [hc]) (by simp) rfl rfl rfl
    · exact hl.move (by simp [hc]) (by simp [hc]) (by simp) rfl rfl rfl
  | early =>
    simp only [stop, hc, Option.some.injEq] at h
    subst h
    refine hl.move (by simp [hc]) (by simp [hc]) ?_ rfl rfl rfl
    simp only
    split <;> simp
  | flag =>
    simp only [stop, hc, Option.some.injEq] at h
    subst h
    exact hl.move (by simp [hc]) (by simp [hc]) (by simp) rfl rfl rfl
  | tickled =>
    cases root with
    | none =>
      simp only [stop, hc, Option.some.injEq] at h
      subst h
      exact hl.move (by simp [hc]) (by simp [hc]) (by simp) rfl rfl rfl
    | some r =>
      simp only [stop, hc] at h
      split at h
      · cases h
        exact hl.move (by simp [hc]) (by simp [hc]) (by simp) rfl rfl rfl
      · split at h
        · cases h
        · cases h
          refine ⟨.inr (.inr rfl), fun _ => rfl, fun w hw hin => ?_, fun hspent => ?_⟩
          · have hne : w ≠ r := fun heq => hin rfl (congrArg some heq.symm)
            have hold := hl.away w hw (by simp [hc])
            simpa [State.launch, hne] using hold
          · cases hspent.2
  | inRoot =>
    simp only [stop, hc] at h
    split at h
    case isFalse => cases h
    case isTrue hdone =>
      cases h
      refine ⟨.inr (.inl rfl), fun hinside => ?_, fun w hw _ => ?_, fun _ hjoining =>
        absurd rfl hjoining⟩
      · cases hinside
      · by_cases hroot : root = some w
        · have hw := hdone w hroot
          exact away_of_done hw
        · exact hl.away w hw fun _ => hroot
  | joining =>
    simp only [stop, hc] at h
    split at h
    case isFalse => cases h
    case isTrue hdone =>
      cases h
      have haway : ∀ w, Away (l.now.worker w).pc := by
        intro w
        by_cases hw : w ∈ l.threads
        · exact away_of_done (hdone w hw)
        · exact hl.away w hw (by simp [hc])
      refine ⟨?_, fun hinside => ?_, fun w _ _ => haway w, fun hspent _ => ?_⟩
      · rcases hl.rootFiber with hinit | hterm | hinside
        · exact .inl hinit
        · exact .inr (.inl hterm)
        · cases hc.symm.trans hinside
      · cases hinside
      · obtain ⟨hqueue, hactive⟩ := hquiet hspent hc
        exact ⟨hqueue, hactive, fun w => (haway w).free⟩

omit [DecidableEq ι] in
/-- Who gives work on a quiet run. -/
theorem Quiet.joining {root : Option ι} {l : Life ι κ} {a : Action ι κ} (h : Quiet root l a)
    (hspent : Spent root l) (ha : a.gives = true) : l.now.caller = .joining := by
  cases a with
  | idle w b =>
    cases b with
    | call c => exact h hspent ha
    | _ => cases ha
  | body | outside => exact h hspent ha
  | work | start | stop => cases ha

theorem step_calm {threadCount : ℕ} {root : Option ι} {l m : Life ι κ} {a : Action ι κ}
    (hl : l.Calm root) (hquiet : Quiet root l a)
    (hstep : (machine ι κ threadCount root).step l a = some m) : m.Calm root := by
  cases stepped_of_step hstep with
  | stop _ h => exact stop_calm hl hquiet hstep
  | work w s hpc h =>
    refine hl.stay h.frame.caller rfl rfl (fun u hu => ?_) (fun _ _ hs => worked_resting h hs hpc)
    exact h.frame.others u fun heq => worked_not_away h (heq ▸ hu)
  | body w f slot b s hpc h hb =>
    refine hl.stay h.frame.caller rfl rfl (fun u hu => ?_) (fun _ _ hs => ?_)
    · refine h.frame.others u fun heq => ?_
      rw [heq, hpc] at hu
      rcases hu with hu | hu <;> cases hu
    · have hfree := hs.free w
      rw [hpc] at hfree
      exact hfree.elim
  | call _ c s ha h =>
    obtain ⟨hworker, hcaller, _, _, hactive⟩ := h.frame
    refine hl.stay hcaller rfl rfl (fun u _ => congrFun hworker u) (fun hspent hjoining hs => ?_)
    cases h with
    | made c => exact ⟨hs.queue, hs.active, hs.free⟩
    | fiber | cb =>
      have hgives : a.gives = true := by simp [Action.gives, ha]
      exact absurd (hquiet.joining hspent hgives) hjoining
  | idle w b state hstate =>
    have hpc : (l.now.worker w).pc = .idling := by
      apply Classical.byContradiction
      intro hne
      simp only [machine, step] at hstep
      cases hstep
    refine hl.stay rfl rfl rfl (fun u hu => ?_) (fun _ _ hs => hs.update w _ rfl trivial rfl rfl)
    refine Function.update_of_ne (fun heq => ?_) _ _
    rw [heq, hpc] at hu
    rcases hu with hu | hu <;> cases hu
  | start pool hcaller hthreads =>
    have hin : l.now.caller ≠ .inRoot := by
      rcases hcaller with h | h <;> simp [h]
    refine ⟨hl.rootFiber, hl.inside, fun w hw _ => ?_, fun hspent hjoining => ?_⟩
    · have hold := hl.away w (by simp [hthreads]) fun h => absurd h hin
      have hw' : w ∉ pool := hw
      simpa [State.launch, hw'] using hold
    · have hs := hl.resting hspent hjoining
      exact launch_resting (s := {l.now with isStopping := false}) ⟨hs.queue, hs.active, hs.free⟩ pool
  | started pool => exact hl

omit [DecidableEq ι] in
theorem initial_calm (root : Option ι) : (initial : Life ι κ).Calm root where
  rootFiber := .inl rfl
  inside := nofun
  away _ _ _ := .inl rfl
  resting h := nomatch h.2

omit [DecidableEq ι] in
theorem Calm.settled {root : Option ι} {l : Life ι κ} {a : Action ι κ} (hl : l.Calm root)
    (hquiet : Quiet root l a) : Settled root l a := by
  cases a with
  | idle w b =>
    cases b with
    | throw => exact hquiet
    | _ => trivial
  | stop =>
    intro hcaller hroot hinit
    have hspent : Spent root l := by
      rcases hl.rootFiber with h | h | h
      · exact absurd h hinit
      · exact ⟨hroot, h⟩
      · rw [hcaller] at h
        cases h
    have hs := hl.resting hspent (by simp [hcaller])
    exact ⟨hs.queue, hs.active⟩
  | _ => trivial

/-- On a quiet run no work is left whenever `stop()` comes back to the root fiber. -/
theorem settled_of_quiet {threadCount : ℕ} {root : Option ι} {acts : List (Action ι κ)}
    (hquiet : (machine ι κ threadCount root).Along (Quiet root) .initial acts) :
    (machine ι κ threadCount root).Along (Settled root) .initial acts :=
  hquiet.always (fun _ _ _ => step_calm) (fun _ _ => Calm.settled) (initial_calm root)

/-- In every run in which `idle()` never throws and a `stop()` after the one that called the
root fiber finds no task left, no step enters a fiber that has ended. It finds none where no work
is given behind the one that called it. -/
theorem no_finished_entered (threadCount : ℕ) (root : Option ι) (acts : List (Action ι κ))
    (honce : (machine ι κ threadCount root).Along OnceEach .initial acts) :
    ((machine ι κ threadCount root).Along (Settled root) .initial acts →
      (machine ι κ threadCount root).Along
        (fun l a => ¬ EntersFinished root l a ∧ ¬ NeverReach l a) .initial acts) ∧
    ((machine ι κ threadCount root).Along (Quiet root) .initial acts →
      (machine ι κ threadCount root).Along (Settled root) .initial acts) := by
  constructor
  · intro hsettled
    exact Machine.Along.always (fun _ _ _ => step_orderly) (fun _ _ hl hrule => hl.enters hrule.2)
      initial_orderly (honce.and hsettled)
  · exact settled_of_quiet

instance (l : Life ι κ) (a : Action ι κ) : Decidable (OnceEach l a) := by
  unfold OnceEach
  split <;> infer_instance

instance (root : Option ι) : (l : Life ι κ) → (a : Action ι κ) → Decidable (Settled root l a)
  | _, .idle _ .throw => isFalse id
  | l, .stop => inferInstanceAs (Decidable (l.now.caller = .tickled → _))
  | _, .idle _ (.call _) | _, .idle _ .yieldToReady | _, .idle _ .yieldToHold | _, .idle _ .return
  | _, .work _ | _, .body .. | _, .outside _ | _, .start _ => isTrue trivial

instance (root : Option ι) (l : Life ι κ) : Decidable (Spent root l) :=
  inferInstanceAs (Decidable (_ ∧ _))

instance [DecidableEq κ] (root : Option ι) :
    (l : Life ι κ) → (a : Action ι κ) → Decidable (Quiet root l a)
  | _, .idle _ .throw => isFalse id
  | l, .stop => inferInstanceAs (Decidable (Spent root l → _))
  | l, .idle _ (.call _) | l, .idle _ .yieldToReady | l, .idle _ .yieldToHold | l, .idle _ .return
  | l, .work _ | l, .body .. | l, .outside _ | l, .start _ =>
    inferInstanceAs (Decidable (Spent root l → _))

/-- A task, and two cycles with one thread beside the caller's own. -/
def cyclesRun : List (Action Bool ℕ) :=
  [.start [false], .outside (.make 0), .outside (.schedule (.fiber 0) none), .stop, .stop, .stop,
    .stop, .work true, .work true, .work true, .body true .return, .work true, .work true,
    .work true, .work true, .work true, .work true, .idle true .return, .work true, .work true,
    .work false, .work false, .idle false .return, .work false, .work false, .stop, .stop,
    .start [false], .work false, .work false, .idle false .yieldToHold, .stop, .stop, .stop, .stop,
    .work false, .work false, .idle false .return, .work false, .work false, .stop]

theorem cyclesRun_settled :
    (∃ l, (machine Bool ℕ 1 (some true)).run .initial cyclesRun = some l ∧
      l.now.caller = .returned ∧ (l.now.fiber 0).state = .term) ∧
    (machine Bool ℕ 1 (some true)).Along
      (fun l a => ¬ EntersFinished (some true) l a ∧ ¬ NeverReach l a) .initial cyclesRun :=
  have hend := no_finished_entered 1 (some true) cyclesRun (by decide)
  ⟨⟨_, rfl, rfl, rfl⟩, hend.1 (hend.2 (by decide))⟩

/-- Two cycles without pool threads, a callback in each: the second `stop()` finds the second
callback queued and the root fiber in state `TERM`. -/
def againRun : List (Action Unit ℕ) :=
  [.start [], .outside (.schedule (.cb 0) none), .stop, .stop, .stop, .stop, .stop, .work (),
    .work (), .work (), .body () .return, .work (), .work (), .work (), .work (), .work (),
    .work (), .work (), .idle () .return, .work (), .work (), .stop, .stop, .start [],
    .outside (.schedule (.cb 1) none), .stop, .stop, .stop, .stop]

/-- One pool thread, whose `idle()` throws. -/
def throwingRun : List (Action Unit ℕ) :=
  [.start [()], .work (), .work (), .idle () .throw, .work ()]

/-- Both ways a fiber that has ended is entered: the root fiber by `call`, the idle fiber by
`swapIn`. -/
theorem finished_entered :
    ((machine Unit ℕ 0 (some ())).Along OnceEach .initial againRun ∧
      ∃ l, (machine Unit ℕ 0 (some ())).run .initial againRun = some l ∧
        EntersFinished (some ()) l .stop) ∧
    (machine Unit ℕ 1 none).Along OnceEach .initial throwingRun ∧
      ∃ l, (machine Unit ℕ 1 none).run .initial throwingRun = some l ∧
        EntersFinished none l (.work ()) := by
  refine ⟨⟨by decide, _, rfl, rfl, rfl, rfl, rfl⟩, by decide, _, rfl, ?_⟩
  exact ⟨fun h => (nomatch h), rfl⟩

end Life
end SimpleHttpServer.Scheduler
