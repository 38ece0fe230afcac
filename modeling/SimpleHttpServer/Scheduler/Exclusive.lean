import SimpleHttpServer.Scheduler.Steps

/-! One worker to a fiber.

Nothing in `run` makes a worker the owner of a fiber: the scan only skips fibers
in state `EXEC`, and that state is written later, in `swapIn`, and overwritten
before the context is saved, in `YieldToReady`. So a second queue entry of a
fiber can be taken in between, and two threads end up on one stack.

A worker *keeps* a fiber from the scan that took it until its context is saved,
and the fiber of its callbacks for as long as it holds `cb_fiber`. If no scan
takes a fiber that another worker keeps, workers keep different fibers on the
whole run (`run_apart`), and no fiber is entered while another worker is on it. -/
namespace SimpleHttpServer.Scheduler
open State

/-- The fiber taken from the queue or about to be entered, until its context is saved. -/
def Pc.hand {κ : Type} : Pc κ → Option ℕ
  | .popped (.fiber f) | .enter f _ | .running f _ | .leaving f _ _ => some f
  | _ => none

/-- The fiber this point of the loop is about. -/
def Pc.named {κ : Type} : Pc κ → Option ℕ
  | .popped (.fiber f) | .enter f _ | .running f _ | .leaving f _ _ | .back f _ | .after f _
  | .put f _ | .settle f _ | .hold f _ | .wipe f => some f
  | _ => none

def Worker.Knows {κ : Type} (v : Worker κ) (f : ℕ) : Prop := v.pc.named = some f ∨ v.cbFiber = some f

def Worker.Keeps {κ : Type} (v : Worker κ) (f : ℕ) : Prop := v.pc.hand = some f ∨ v.cbFiber = some f

variable {ι κ : Type} [DecidableEq ι]

/-- The worker's next step is the call of `swapIn` on `f`. -/
def Enters (s : State ι κ) (w : ι) (f : ℕ) : Prop := ∃ slot, (s.worker w).pc = .enter f slot

/-- The worker is on the stack of `f`: inside its body, or inside its `swapOut`
with the context not yet saved. -/
def Executes (s : State ι κ) (w : ι) (f : ℕ) : Prop :=
  ∃ slot, (s.worker w).pc = .running f slot ∨ ∃ ctx, (s.worker w).pc = .leaving f slot ctx

/-- No scan takes a fiber that another worker keeps. -/
def TakesFree (s : State ι κ) : Action ι κ → Prop
  | .work w => (s.worker w).pc = .top →
      match s.fibers.find? (s.takes w) with
      | some ⟨.fiber f, _⟩ => ∀ v, v ≠ w → ¬ (s.worker v).Keeps f
      | _ => True
  | _ => True

structure Apart (s : State ι κ) : Prop where
  /-- Queued fibers have been made. -/
  queued : ∀ e ∈ s.fibers, ∀ f, e.task = .fiber f → f < s.made
  known : ∀ w f, (s.worker w).Knows f → f < s.made
  apart : ∀ v w f, v ≠ w → (s.worker v).Keeps f → ¬ (s.worker w).Keeps f

theorem Worker.Keeps.knows {κ : Type} {v : Worker κ} {f : ℕ} (h : v.Keeps f) : v.Knows f := by
  rcases h with h | h
  · left
    cases hpc : v.pc with
    | popped task => cases task <;> simp_all [Pc.hand, Pc.named]
    | _ => simp_all [Pc.hand, Pc.named]
  · exact .inr h

/-- A worker that goes on about the same fiber, about its `cb_fiber` or about none knows no more
than before. -/
theorem knows_goto {κ : Type} {v : Worker κ} {pc : Pc κ} {f : ℕ}
    (h : ({v with pc := pc} : Worker κ).Knows f)
    (hpc : pc.named = v.pc.named ∨ pc.named = v.cbFiber ∨ pc.named = none) : v.Knows f := by
  rcases h with hnamed | hcb
  · rcases hpc with hsame | hslot | hnone
    · exact .inl (hsame ▸ hnamed)
    · exact .inr (hslot ▸ hnamed)
    · cases hnone.symm.trans hnamed
  · exact .inr hcb

/-- A worker with a task from the queue knows the task's fiber besides. -/
theorem knows_popped {κ : Type} {v : Worker κ} {task : Task κ} {f : ℕ}
    (h : ({v with pc := .popped task} : Worker κ).Knows f) : task = .fiber f ∨ v.Knows f := by
  rcases h with hnamed | hcb
  · cases task with
    | fiber g => exact .inl (congrArg Task.fiber (Option.some.inj hnamed))
    | cb c => cases hnamed
  · exact .inr (.inr hcb)

/-- Worker `w` may change what it keeps as long as it takes nothing another worker
keeps and nothing that has not been made. -/
theorem apart_of_update {s t : State ι κ} (h : Apart s) (w : ι) (v : Worker κ)
    (hw : t.worker = Function.update s.worker w v) (hmade : s.made ≤ t.made)
    (hqueued : ∀ e ∈ t.fibers, ∀ f, e.task = .fiber f → f < t.made)
    (hknown : ∀ f, v.Knows f → (s.worker w).Knows f ∨ f < t.made)
    (hnew : ∀ f, v.Keeps f → (s.worker w).Keeps f ∨ ∀ u, u ≠ w → ¬ (s.worker u).Keeps f) :
    Apart t := by
  have hfree : ∀ f, v.Keeps f → ∀ u, u ≠ w → ¬ (s.worker u).Keeps f := by
    intro f hf u hu
    rcases hnew f hf with hold | hnew
    · exact h.apart w u f (Ne.symm hu) hold
    · exact hnew u hu
  refine ⟨hqueued, ?_, ?_⟩
  · intro u f hf
    rw [hw] at hf
    by_cases hu : u = w
    · subst hu
      rw [Function.update_self] at hf
      rcases hknown f hf with hold | hnew
      · exact Nat.lt_of_lt_of_le (h.known u f hold) hmade
      · exact hnew
    · rw [Function.update_of_ne hu] at hf
      exact Nat.lt_of_lt_of_le (h.known u f hf) hmade
  · intro a b f hab ha hb
    rw [hw] at ha hb
    by_cases haw : a = w
    · subst haw
      rw [Function.update_self] at ha
      rw [Function.update_of_ne (Ne.symm hab)] at hb
      exact hfree f ha b (Ne.symm hab) hb
    · rw [Function.update_of_ne haw] at ha
      by_cases hbw : b = w
      · subst hbw
        rw [Function.update_self] at hb
        exact hfree f hb a haw ha
      · rw [Function.update_of_ne hbw] at hb
        exact h.apart a b f hab ha hb

/-- The worker knows and keeps no more than it did, and no fiber joins the queue. -/
theorem apart_of_less {s t : State ι κ} (h : Apart s) (w : ι) (v : Worker κ)
    (hw : t.worker = Function.update s.worker w v) (hmade : t.made = s.made)
    (hfibers : t.fibers = s.fibers) (hknown : ∀ f, v.Knows f → (s.worker w).Knows f)
    (hless : ∀ f, v.Keeps f → (s.worker w).Keeps f) : Apart t :=
  apart_of_update h w v hw (Nat.le_of_eq hmade.symm) (by rw [hfibers, hmade]; exact h.queued)
    (fun f hf => .inl (hknown f hf)) (fun f hf => .inl (hless f hf))

/-- The worker goes on with the same `cb_fiber`, about no other fiber and with no other in hand. -/
theorem apart_of_goto {s t : State ι κ} (h : Apart s) (w : ι) (v : Worker κ)
    (hw : t.worker = Function.update s.worker w v) (hmade : t.made = s.made)
    (hfibers : t.fibers = s.fibers) (hcb : v.cbFiber = (s.worker w).cbFiber)
    (hnamed : ∀ f, v.pc.named = some f → (s.worker w).Knows f)
    (hhand : ∀ f, v.pc.hand = some f → (s.worker w).Keeps f) : Apart t := by
  apply apart_of_less h w v hw hmade hfibers
  · intro f hf
    rcases hf with hf | hf
    · exact hnamed f hf
    · exact .inr (hcb.symm.trans hf)
  · intro f hf
    rcases hf with hf | hf
    · exact hhand f hf
    · exact .inr (hcb.symm.trans hf)

omit [DecidableEq ι] in
theorem queued_push {s : State ι κ} (h : ∀ e ∈ s.fibers, ∀ f, e.task = .fiber f → f < s.made)
    (e : FiberAndThread ι κ) (he : ∀ f, e.task = .fiber f → f < s.made) :
    ∀ e' ∈ (s.push e).fibers, ∀ f, e'.task = .fiber f → f < (s.push e).made := by
  intro e' he'
  rcases List.mem_append.mp he' with hold | hnew
  · exact h e' hold
  · rw [List.mem_singleton.mp hnew]
    exact he

theorem dropped_cbFiber {v : Worker κ} {slot : Slot} {f : ℕ}
    (h : (dropped v slot).cbFiber = some f) : v.cbFiber = some f := by
  cases slot with
  | ft => exact h
  | cbFiber => simp [dropped] at h

theorem dropped_keeps {v : Worker κ} {slot : Slot} {f : ℕ} (h : (dropped v slot).Keeps f) :
    v.Keeps f := by
  rcases h with hhand | hcb
  · simp [dropped, Pc.hand] at hhand
  · exact .inr (dropped_cbFiber hcb)

theorem dropped_knows {v : Worker κ} {slot : Slot} {f : ℕ} (h : (dropped v slot).Knows f) :
    v.Knows f := by
  rcases h with hnamed | hcb
  · simp [dropped, Pc.named] at hnamed
  · exact .inr (dropped_cbFiber hcb)

theorem worked_apart {s t : State ι κ} {w : ι} (h : Worked s w t) (hs : Apart s)
    (hfree : TakesFree s (.work w)) : Apart t := by
  cases h with
  | found e hpc hfind =>
    obtain ⟨task, thread⟩ := e
    have hmem := List.mem_of_find?_eq_some hfind
    refine apart_of_update hs w _ rfl (Nat.le_refl _)
      (fun e' he' => hs.queued e' (List.mem_of_mem_eraseP he')) ?_ ?_
    · intro f hf
      rcases knows_popped hf with htask | hold
      · exact .inr (hs.queued _ hmem f htask)
      · exact .inl hold
    · intro f hf
      rcases hf with hhand | hcb
      · cases task with
        | fiber g =>
          have hfg : g = f := by simpa [Pc.hand] using hhand
          have hnone := hfree hpc
          rw [hfind] at hnone
          exact .inr (hfg ▸ hnone)
        | cb c => simp [Pc.hand] at hhand
      · exact .inl (.inr hcb)
  | fresh c hpc hcb =>
    refine apart_of_update hs w _ rfl (Nat.le_succ _)
      (fun e he f hf => Nat.lt_succ_of_lt (hs.queued e he f hf)) ?_ ?_
    · intro f hf
      have hfm : s.made = f := by simpa [Worker.Knows, Pc.named] using hf
      exact .inr (hfm ▸ Nat.lt_succ_self _)
    · intro f hf
      have hfm : s.made = f := by simpa [Worker.Keeps, Pc.hand] using hf
      subst hfm
      exact .inr fun u _ hu => Nat.lt_irrefl _ (hs.known u _ hu.knows)
  | reuse c f r hpc hcb hr =>
    -- the fiber entered is the one the worker already keeps as `cb_fiber`
    have hkept : ∀ g, some f = some g → (s.worker w).cbFiber = some g := by
      intro g hg
      rw [hcb, hg]
    exact apart_of_goto hs w _ rfl rfl rfl rfl (fun g hg => .inr (hkept g hg))
      fun g hg => .inr (hkept g hg)
  | reschedule f slot hpc =>
    have hmade : f < s.made := hs.known w f (.inl (by simp [hpc, Pc.named]))
    refine apart_of_update hs w _ (drop_worker _ w slot) (by simp) ?_ ?_ ?_
    · simpa using queued_push hs.queued ⟨.fiber f, none⟩ (by simpa using hmade)
    · exact fun g hg => .inl (dropped_knows hg)
    · exact fun g hg => .inl (dropped_keeps hg)
  | held f slot hpc =>
    exact apart_of_less hs w _ (drop_worker _ w slot) (by simp) (by simp) (fun g => dropped_knows)
      (fun g => dropped_keeps)
  | _ =>
    refine apart_of_goto hs w _ rfl rfl rfl rfl ?_ ?_
    · intro f hf
      simp_all [Worker.Knows, Pc.named]
    · intro f hf
      simp_all [Worker.Keeps, Pc.hand]

omit [DecidableEq ι] in
theorem called_apart {s t : State ι κ} {c : Call ι κ} (h : Called s c t) (hs : Apart s) :
    Apart t := by
  cases h with
  | made c =>
    exact ⟨fun e he f hf => Nat.lt_succ_of_lt (hs.queued e he f hf),
      fun w f hf => Nat.lt_succ_of_lt (hs.known w f hf), hs.apart⟩
  | fiber f thread hf =>
    exact ⟨queued_push hs.queued ⟨.fiber f, thread⟩ (by simpa using hf), hs.known, hs.apart⟩
  | cb c thread =>
    exact ⟨queued_push hs.queued ⟨.cb c, thread⟩ (by simp), hs.known, hs.apart⟩

theorem bodied_apart {s t : State ι κ} {w : ι} {f : ℕ} {slot : Slot} {b : Body ι κ}
    (hpc : (s.worker w).pc = .running f slot) (h : Bodied s w f slot b t) (hs : Apart s) :
    Apart t := by
  cases h with
  | call c t _ h => exact called_apart h hs
  | _ =>
    refine apart_of_goto hs w _ rfl rfl rfl rfl ?_ ?_
    · intro f hf
      simp_all [Worker.Knows, Pc.named]
    · intro f hf
      simp_all [Worker.Keeps, Pc.hand]

theorem stopped_apart {root : Option ι} {s t : State ι κ} (h : Stopped root s t) (hs : Apart s) :
    Apart t := by
  cases h with
  | enterRoot r h hroot =>
    refine apart_of_less hs r _ rfl rfl rfl (fun f hf => knows_goto hf (.inr (.inr rfl))) (fun f hf => ?_)
    exact .inr (by simpa [Worker.Keeps, Pc.hand] using hf)
  | _ => exact ⟨hs.queued, hs.known, hs.apart⟩

variable [Fintype ι]

theorem step_apart {root : Option ι} {s t : State ι κ} {a : Action ι κ} (hs : Apart s)
    (hfree : TakesFree s a) (h : (machine κ root).step s a = some t) : Apart t := by
  cases stepped_of_step h with
  | work w _ h => exact worked_apart h hs hfree
  | body w f slot b _ hpc h => exact bodied_apart hpc h hs
  | outside c _ h => exact called_apart h hs
  | stop _ h => exact stopped_apart h hs

omit [Fintype ι] in
theorem initial_apart (root : Option ι) : Apart (.initial root : State ι κ) := by
  have hkeeps : ∀ w f, ¬ ((State.initial root : State ι κ).worker w).Knows f := by
    intro w f hf
    unfold State.initial Worker.Knows at hf
    simp only at hf
    split at hf <;> simp [Pc.named] at hf
  exact ⟨by simp [State.initial], fun w f hf => absurd hf (hkeeps w f),
    fun v w f _ hv => absurd hv.knows (hkeeps v f)⟩

/-- Along a run whose scans take only free fibers, workers keep different fibers. -/
theorem run_apart {root : Option ι} {s : State ι κ} {acts : List (Action ι κ)}
    (hfree : (machine κ root).Along TakesFree (.initial root) acts)
    (hrun : (machine κ root).run (.initial root) acts = some s) : Apart s :=
  Machine.run_invariant (fun _ _ _ => step_apart) (initial_apart root) hfree hrun

omit [DecidableEq ι] [Fintype ι] in
theorem Enters.keeps {s : State ι κ} {w : ι} {f : ℕ} (h : Enters s w f) :
    (s.worker w).Keeps f := by
  obtain ⟨slot, h⟩ := h
  exact .inl (by simp [h, Pc.hand])

omit [DecidableEq ι] [Fintype ι] in
theorem Executes.keeps {s : State ι κ} {w : ι} {f : ℕ} (h : Executes s w f) :
    (s.worker w).Keeps f := by
  obtain ⟨slot, h | ⟨ctx, h⟩⟩ := h <;> exact .inl (by simp [h, Pc.hand])

/-- In every run whose scans never take a fiber that another worker keeps, no worker
enters `swapIn` on a fiber that another worker is executing. -/
theorem not_entered_while_executing (root : Option ι) (acts : List (Action ι κ)) (s : State ι κ)
    (hfree : (machine κ root).Along TakesFree (.initial root) acts)
    (hrun : (machine κ root).run (.initial root) acts = some s) (v w : ι) (f : ℕ) (hne : v ≠ w)
    (henters : Enters s v f) : ¬ Executes s w f := fun hexec =>
  (run_apart hfree hrun).apart v w f hne henters.keeps hexec.keeps

/-- Two fibers on two workers: `true` is about to enter the second while `false` is
inside the first. -/
def twoFibersRun : List (Action Bool ℕ) :=
  [.outside (.make 0), .outside (.make 1), .outside (.schedule (.fiber 0) none),
    .outside (.schedule (.fiber 1) none), .work false, .work true, .work false, .work false,
    .work true]

theorem twoFibers_apart :
    ∃ s : State Bool ℕ, (machine ℕ none).run (.initial none) twoFibersRun = some s ∧
      Executes s false 0 ∧ Enters s true 1 ∧ ¬ Executes s false 1 := by
  refine ⟨_, rfl, ⟨.ft, .inl rfl⟩, ⟨.ft, rfl⟩, ?_⟩
  refine not_entered_while_executing none twoFibersRun _ ?_ rfl true false 1 (by decide) ⟨.ft, rfl⟩
  refine .cons trivial rfl <| .cons trivial rfl <| .cons trivial rfl <| .cons trivial rfl <|
    .cons (fun _ v hv => ?_) rfl <| .cons (fun _ v hv => ?_) rfl <| .cons (fun h => nomatch h) rfl <|
    .cons (fun h => nomatch h) rfl <| .cons (fun h => nomatch h) rfl trivial
  · cases v with
    | false => exact absurd rfl hv
    | true => rintro (h | h) <;> cases h
  · cases v with
    | false => rintro (h | h) <;> cases h
    | true => exact absurd rfl hv

/-- Two workers and one fiber that is scheduled twice: both workers scan while it is
in state `INIT`, and `false` is inside its body when `true` calls `swapIn`. -/
def doubleRun : List (Action Bool ℕ) :=
  [.outside (.make 0), .outside (.schedule (.fiber 0) none), .outside (.schedule (.fiber 0) none),
    .work false, .work true, .work false, .work true, .work false]

/-- The fiber scheduled again while it runs: it is `READY` before its context is saved,
and the other worker takes it then. -/
def readyRun : List (Action Bool ℕ) :=
  [.outside (.make 0), .outside (.schedule (.fiber 0) none), .work false, .work false, .work false,
    .outside (.schedule (.fiber 0) none), .body false .yieldToReady, .work true, .work true]

/-- Both ways a fiber is entered while another worker is on its stack. -/
theorem entered_while_executing :
    (∃ s : State Bool ℕ, (machine ℕ none).run (.initial none) doubleRun = some s ∧
      Enters s true 0 ∧ Executes s false 0) ∧
    ∃ s : State Bool ℕ, (machine ℕ none).run (.initial none) readyRun = some s ∧
      Enters s true 0 ∧ Executes s false 0 :=
  ⟨⟨_, rfl, ⟨.ft, rfl⟩, ⟨.ft, .inl rfl⟩⟩, ⟨_, rfl, ⟨.ft, rfl⟩, ⟨.ft, .inr ⟨_, rfl⟩⟩⟩⟩

end SimpleHttpServer.Scheduler
