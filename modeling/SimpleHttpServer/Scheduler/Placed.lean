import SimpleHttpServer.Scheduler.Exclusive
import SimpleHttpServer.Lib.Queue
import Mathlib.Data.List.Nodup

/-! Every fiber in one place.

If a fiber is handed to `schedule` only while nobody has it, it is never in two
places: it is queued once, or known to one worker, or neither (`Placed`). That
holds whatever the bodies do besides, and it is what lets a worker rely on what
it has read of a fiber's state: nobody else is there to change it. -/
namespace SimpleHttpServer.Scheduler
open State

variable {ι κ : Type}

/-- The fiber an entry asks for. -/
def FiberAndThread.fiber? (e : FiberAndThread ι κ) : Option ℕ :=
  match e.task with
  | .fiber f => some f
  | .cb _ => none

/-- The fibers in the queue. -/
def State.queued (s : State ι κ) : List ℕ := s.fibers.filterMap FiberAndThread.fiber?

/-- The fiber this point of the loop reached through `ft`. -/
def Pc.viaFt : Pc κ → Option ℕ
  | .popped (.fiber f) | .enter f .ft | .running f .ft | .leaving f .ft _ | .back f .ft
  | .after f .ft | .put f .ft | .settle f .ft | .hold f .ft => some f
  | _ => none

/-- If `f` is reached through `ft`, it is not the worker's own. -/
def Worker.SplitAt (v : Worker κ) (f : ℕ) : Prop := v.pc.viaFt = some f → v.cbFiber ≠ some f

/-- A fiber reached through `ft` is not the worker's own. -/
def Worker.Split (v : Worker κ) : Prop := ∀ f, v.pc.viaFt = some f → v.cbFiber ≠ some f

structure Placed (s : State ι κ) : Prop where
  once : s.queued.Nodup
  away : ∀ f ∈ s.queued, ∀ w, ¬ (s.worker w).Knows f
  apart : ∀ v w f, v ≠ w → (s.worker v).Knows f → ¬ (s.worker w).Knows f
  known : ∀ w f, (s.worker w).Knows f → f < s.made
  queuedMade : ∀ f ∈ s.queued, f < s.made
  split : ∀ w, (s.worker w).Split

/-- The fiber is in no queue entry and in no worker's hands. -/
def Idle (s : State ι κ) (f : ℕ) : Prop := f ∉ s.queued ∧ ∀ w, ¬ (s.worker w).Knows f

/-- A call that schedules a fiber finds it with nobody. -/
def CallIdle (s : State ι κ) : Call ι κ → Prop
  | .schedule (.fiber f) _ => Idle s f
  | _ => True

theorem Pc.viaFt_named {pc : Pc κ} {f : ℕ} (h : pc.viaFt = some f) : pc.named = some f := by
  cases pc with
  | popped task => cases task <;> simp_all [Pc.viaFt, Pc.named]
  | enter _ slot | running _ slot | leaving _ slot | back _ slot | after _ slot | put _ slot
  | settle _ slot | hold _ slot => cases slot <;> simp_all [Pc.viaFt, Pc.named]
  | _ => simp_all [Pc.viaFt]

theorem mem_queued {s : State ι κ} {f : ℕ} :
    f ∈ s.queued ↔ ∃ e ∈ s.fibers, e.task = .fiber f := by
  unfold State.queued
  simp only [List.mem_filterMap, FiberAndThread.fiber?]
  constructor
  · rintro ⟨e, he, hf⟩
    refine ⟨e, he, ?_⟩
    split at hf
    · simp_all
    · simp at hf
  · rintro ⟨e, he, hf⟩
    exact ⟨e, he, by rw [hf]⟩

theorem queued_push_cb (s : State ι κ) (c : κ) (thread : Option ι) :
    (s.push ⟨.cb c, thread⟩).queued = s.queued := by
  simp [State.queued, push, List.filterMap_append, FiberAndThread.fiber?]

theorem queued_push_fiber (s : State ι κ) (f : ℕ) (thread : Option ι) :
    (s.push ⟨.fiber f, thread⟩).queued = s.queued ++ [f] := by
  simp [State.queued, push, List.filterMap_append, FiberAndThread.fiber?]

/-- A fiber that nobody queues or knows may join the queue, as may any callback. -/
theorem placed_push {s : State ι κ} (h : Placed s) (e : FiberAndThread ι κ)
    (he : ∀ f, e.task = .fiber f → Idle s f ∧ f < s.made) : Placed (s.push e) := by
  obtain ⟨task, thread⟩ := e
  cases task with
  | cb c =>
    have hq := queued_push_cb s c thread
    exact ⟨hq ▸ h.once, hq ▸ h.away, h.apart, h.known, hq ▸ h.queuedMade, h.split⟩
  | fiber f =>
    obtain ⟨⟨hout, hfree⟩, hmade⟩ := he f rfl
    have hq := queued_push_fiber s f thread
    have hmem : ∀ g, g ∈ (s.push ⟨.fiber f, thread⟩).queued → g ∈ s.queued ∨ g = f := by
      intro g hg
      rw [hq, List.mem_append, List.mem_singleton] at hg
      exact hg
    refine ⟨?_, ?_, h.apart, h.known, ?_, h.split⟩
    · rw [hq]
      exact List.Nodup.append h.once (List.nodup_singleton f) (by simpa using hout)
    · intro g hg
      rcases hmem g hg with hold | rfl
      · exact h.away g hold
      · exact hfree
    · intro g hg
      rcases hmem g hg with hold | rfl
      · exact h.queuedMade g hold
      · exact hmade

variable [DecidableEq ι]

/-- One worker moves and the queue does not grow: it knows nothing new but fibers that
nobody else has. -/
theorem placed_move {s t : State ι κ} (h : Placed s) (w : ι) (v : Worker κ)
    (hw : t.worker = Function.update s.worker w v) (hmade : s.made ≤ t.made)
    (honce : t.queued.Nodup) (hsub : t.queued ⊆ s.queued)
    (hknows : ∀ f, v.Knows f → (s.worker w).Knows f ∨
      f < t.made ∧ f ∉ t.queued ∧ ∀ u, u ≠ w → ¬ (s.worker u).Knows f)
    (hsplit : v.Split) : Placed t := by
  have hother : ∀ f ∈ t.queued, ¬ v.Knows f := by
    intro f hf hv
    rcases hknows f hv with hold | ⟨_, hout, _⟩
    · exact h.away f (hsub hf) w hold
    · exact hout hf
  have hfree : ∀ u f, u ≠ w → v.Knows f → ¬ (s.worker u).Knows f := by
    intro u f hu hv hknown
    rcases hknows f hv with hold | ⟨_, _, hfree⟩
    · exact h.apart u w f hu hknown hold
    · exact hfree u hu hknown
  refine ⟨honce, ?_, ?_, ?_, ?_, ?_⟩
  · intro f hf u
    rw [hw]
    by_cases hu : u = w
    · rw [hu, Function.update_self]
      exact hother f hf
    · rw [Function.update_of_ne hu]
      exact h.away f (hsub hf) u
  · intro a b f hab ha hb
    rw [hw] at ha hb
    by_cases haw : a = w
    · rw [haw, Function.update_self] at ha
      have hbw : b ≠ w := fun he => hab (haw.trans he.symm)
      rw [Function.update_of_ne hbw] at hb
      exact hfree b f hbw ha hb
    · rw [Function.update_of_ne haw] at ha
      by_cases hbw : b = w
      · rw [hbw, Function.update_self] at hb
        exact hfree a f haw hb ha
      · rw [Function.update_of_ne hbw] at hb
        exact h.apart a b f hab ha hb
  · intro u f hf
    rw [hw] at hf
    by_cases hu : u = w
    · rw [hu, Function.update_self] at hf
      rcases hknows f hf with hold | ⟨hnew, _⟩
      · exact Nat.lt_of_lt_of_le (h.known w f hold) hmade
      · exact hnew
    · rw [Function.update_of_ne hu] at hf
      exact Nat.lt_of_lt_of_le (h.known u f hf) hmade
  · exact fun f hf => Nat.lt_of_lt_of_le (h.queuedMade f (hsub hf)) hmade
  · intro u
    rw [hw]
    by_cases hu : u = w
    · rw [hu, Function.update_self]
      exact hsplit
    · rw [Function.update_of_ne hu]
      exact h.split u

/-- The same with the queue left alone and nothing new known. -/
theorem placed_stay {s t : State ι κ} (h : Placed s) (w : ι) (v : Worker κ)
    (hw : t.worker = Function.update s.worker w v) (hmade : s.made = t.made)
    (hqueue : t.fibers = s.fibers) (hknows : ∀ f, v.Knows f → (s.worker w).Knows f)
    (hsplit : v.Split) : Placed t := by
  have hq : t.queued = s.queued := by simp only [State.queued, hqueue]
  exact placed_move h w v hw (Nat.le_of_eq hmade) (hq ▸ h.once) (by rw [hq]; exact fun _ => id)
    (fun f hf => .inl (hknows f hf)) hsplit

/-! ### Every step keeps it -/

omit [DecidableEq ι] in
/-- What the scan takes is what leaves the queue. -/
theorem queued_found {s : State ι κ} {p : FiberAndThread ι κ → Bool} {e : FiberAndThread ι κ}
    (h : s.fibers.find? p = some e) :
    s.queued.Perm (e.fiber?.toList ++ (s.fibers.eraseP p).filterMap FiberAndThread.fiber?) := by
  have hperm := (Queue.perm_cons_eraseP h).filterMap FiberAndThread.fiber?
  cases hf : e.fiber? with
  | none => simpa [State.queued, List.filterMap_cons, hf] using hperm
  | some f => simpa [State.queued, List.filterMap_cons, hf] using hperm

theorem found_placed {s : State ι κ} {w : ι} {e : FiberAndThread ι κ} (h : Placed s)
    (hfind : s.fibers.find? (s.takes w) = some e) :
    Placed ({s with
        fibers := s.fibers.eraseP (s.takes w)
        activeThreadCount := s.activeThreadCount + 1}.goto w (.popped e.task)) := by
  obtain ⟨task, thread⟩ := e
  have hperm := queued_found hfind
  have hsub : (s.fibers.eraseP (s.takes w)).filterMap FiberAndThread.fiber? ⊆ s.queued :=
    fun f hf => hperm.mem_iff.mpr (List.mem_append_right _ hf)
  cases task with
  | cb c =>
    have hnodup := hperm.nodup_iff.mp h.once
    refine placed_move h w _ rfl (Nat.le_refl _) (List.Nodup.of_append_right hnodup) hsub ?_
      (fun f hf => by simp [Pc.viaFt] at hf)
    exact fun f hf => .inl (knows_goto hf (.inr (.inr rfl)))
  | fiber g =>
    have hin : g ∈ s.queued := hperm.mem_iff.mpr (by simp [FiberAndThread.fiber?])
    have hnodup := hperm.nodup_iff.mp h.once
    simp only [FiberAndThread.fiber?, Option.toList_some, List.cons_append, List.nil_append,
      List.nodup_cons] at hnodup
    refine placed_move h w _ rfl (Nat.le_refl _) hnodup.2 hsub ?_ ?_
    · intro f hf
      rcases knows_popped hf with htask | hold
      · obtain rfl : g = f := by simpa using htask
        exact .inr ⟨h.queuedMade g hin, hnodup.1, fun u _ => h.away g hin u⟩
      · exact .inl hold
    · intro f hf hcb
      obtain rfl : g = f := by simpa [Pc.viaFt] using hf
      exact h.away g hin w (.inr hcb)

/-- A worker that gives its fiber up knows it no longer. -/
theorem dropped_forgets {v : Worker κ} {f : ℕ} {slot : Slot}
    (hvia : slot = .ft → v.pc.viaFt = some f) (h : v.SplitAt f) : ¬ (dropped v slot).Knows f := by
  rintro (hnamed | hcb)
  · simp [dropped, Pc.named] at hnamed
  · cases slot with
    | ft => exact h (hvia rfl) hcb
    | cbFiber => simp [dropped] at hcb

theorem drop_placed {s : State ι κ} (h : Placed s) (w : ι) (slot : Slot) : Placed (s.drop w slot) :=
  placed_stay h w _ (drop_worker s w slot) (by simp) (by simp) (fun _ => dropped_knows)
    (fun f hf => by simp [dropped, Pc.viaFt] at hf)

/-- What the worker dropped is with nobody. -/
theorem drop_idle {s : State ι κ} {w : ι} {f : ℕ} {slot : Slot} (h : Placed s)
    (hpc : (s.worker w).pc = .put f slot) : Idle (s.drop w slot) f := by
  have hknown : (s.worker w).Knows f := .inl (by simp [hpc, Pc.named])
  refine ⟨?_, fun u => ?_⟩
  · intro hin
    exact h.away f (by simpa [State.queued] using hin) w hknown
  · rw [drop_worker]
    by_cases hu : u = w
    · rw [hu, Function.update_self]
      exact dropped_forgets (fun hslot => by simp [hpc, hslot, Pc.viaFt]) (h.split w f)
    · rw [Function.update_of_ne hu]
      exact h.apart w u f (Ne.symm hu) hknown

theorem push_drop (s : State ι κ) (e : FiberAndThread ι κ) (w : ι) (slot : Slot) :
    (s.push e).drop w slot = (s.drop w slot).push e := by cases slot <;> rfl

theorem reschedule_placed {s : State ι κ} {w : ι} {f : ℕ} {slot : Slot} (h : Placed s)
    (hpc : (s.worker w).pc = .put f slot) : Placed ((s.push ⟨.fiber f, none⟩).drop w slot) := by
  rw [push_drop]
  refine placed_push (drop_placed h w slot) _ ?_
  intro g hg
  obtain rfl : f = g := by simpa using hg
  exact ⟨drop_idle h hpc, by simpa using h.known w f (.inl (by simp [hpc, Pc.named]))⟩

omit [DecidableEq ι] in
theorem unknown_ne {v : Worker κ} {f g : ℕ} (hf : v.Knows f) (hg : ¬ v.Knows g) : g ≠ f :=
  fun he => hg (he ▸ hf)

/-- A worker changes no fiber that it does not know, those it makes apart. -/
theorem Worked.untouched {s t : State ι κ} {w : ι} (h : Worked s w t) {g : ℕ} (hmade : g < s.made)
    (hg : ¬ (s.worker w).Knows g) : t.fiber g = s.fiber g := by
  cases h with
  | fresh => simp [setWorker, setFiber, Nat.ne_of_lt hmade]
  | reuse c f r _ hcb =>
    have hne : g ≠ f := unknown_ne (.inr hcb) hg
    simp [goto, setWorker, setFiber, hne]
  | swapIn f _ _ hpc | swapOut f _ _ hpc | held f _ hpc | wiped f _ hpc =>
    have hne : g ≠ f := unknown_ne (.inl (by simp [hpc, Pc.named])) hg
    simp [goto, setWorker, setFiber, hne]
  | reschedule => simp
  | _ => rfl

theorem Worked.made_le {s t : State ι κ} {w : ι} (h : Worked s w t) : s.made ≤ t.made := by
  cases h with
  | fresh => exact Nat.le_succ _
  | reschedule | held => simp
  | _ => exact Nat.le_refl _

theorem worked_placed {s t : State ι κ} {w : ι} (h : Worked s w t) (hs : Placed s) : Placed t := by
  cases h with
  | found e _ hfind => exact found_placed hs hfind
  | reschedule f slot hpc => exact reschedule_placed hs hpc
  | held f slot hpc =>
    exact placed_stay hs w _ (drop_worker _ w slot) (by simp) (by simp) (fun _ => dropped_knows)
      (fun f hf => by simp [dropped, Pc.viaFt] at hf)
  | fresh c hpc hcb =>
    have hnew : s.made ∉ s.queued := fun hin => Nat.lt_irrefl _ (hs.queuedMade _ hin)
    refine placed_move hs w _ rfl (Nat.le_succ _) hs.once (fun _ => id) ?_
      (fun f hf => by simp [Pc.viaFt] at hf)
    intro f hf
    obtain rfl : s.made = f := by simpa [Worker.Knows, Pc.named] using hf
    exact .inr ⟨Nat.lt_succ_self _, hnew, fun u _ hu => Nat.lt_irrefl _ (hs.known u _ hu)⟩
  | reuse c f r hpc hcb hr =>
    exact placed_stay hs w _ rfl rfl rfl (fun g hg => knows_goto hg (.inr (.inl hcb.symm)))
      (fun g hg => by simp [Pc.viaFt] at hg)
  | accept f hpc =>
    refine placed_stay hs w _ rfl rfl rfl (fun g hg => knows_goto hg (.inl ?_)) ?_
    · simp [hpc, Pc.named]
    · intro g hg
      exact hs.split w g (by simp_all [Pc.viaFt])
  | swapIn f slot _ hpc | swapOut f slot _ hpc | lower f slot hpc | notReady f slot hpc
  | isReady f slot hpc | unsettled f slot hpc =>
    refine placed_stay hs w _ rfl rfl rfl (fun g hg => knows_goto hg (.inl ?_)) ?_
    · simp [hpc, Pc.named]
    · intro g hg
      exact hs.split w g (by cases slot <;> simp_all [Pc.viaFt])
  | _ =>
    refine placed_stay hs w _ rfl rfl rfl ?_ (fun g hg => by simp [Pc.viaFt] at hg)
    rintro g (hnamed | hcb)
    · simp_all [Worker.Knows, Pc.named]
    · exact .inr hcb

/-- What is queued behind a step was queued before or is put back by the worker. -/
theorem Worked.queued_of {s t : State ι κ} {w : ι} (h : Worked s w t) {f : ℕ} (hf : f ∈ t.queued) :
    f ∈ s.queued ∨ (s.worker w).Knows f := by
  cases h with
  | found e _ hfind => exact .inl ((queued_found hfind).mem_iff.mpr (List.mem_append_right _ hf))
  | reschedule g slot hpc =>
    rw [push_drop, queued_push_fiber, List.mem_append, List.mem_singleton] at hf
    rcases hf with hold | rfl
    · exact .inl (by simpa [State.queued] using hold)
    · exact .inr (.inl (by simp [hpc, Pc.named]))
  | held => exact .inl (by simpa [State.queued] using hf)
  | _ => exact .inl hf

/-- What a worker knows behind its step it knew before, or found in the queue, or has made. -/
theorem Worked.knows_of {s t : State ι κ} {w : ι} (h : Worked s w t) {f : ℕ}
    (hf : (t.worker w).Knows f) : (s.worker w).Knows f ∨ f ∈ s.queued ∨ f = s.made := by
  cases h with
  | found e _ hfind =>
    rcases hf with hnamed | hcb
    · cases htask : e.task with
      | fiber g =>
        obtain rfl : g = f := by simpa [goto, setWorker, htask, Pc.named] using hnamed
        exact .inr (.inl (mem_queued.mpr ⟨e, List.mem_of_find?_eq_some hfind, htask⟩))
      | cb c => simp [goto, setWorker, htask, Pc.named] at hnamed
    · exact .inl (.inr (by simpa [goto, setWorker] using hcb))
  | fresh c hpc hcb =>
    have hfm : s.made = f := by simpa [setWorker, Worker.Knows, Pc.named] using hf
    exact .inr (.inr hfm.symm)
  | reuse c g r hpc hcb =>
    rcases hf with hnamed | hcb'
    · obtain rfl : g = f := by simpa [goto, setWorker, Pc.named] using hnamed
      exact .inl (.inr hcb)
    · exact .inl (.inr (by simpa [goto, setWorker] using hcb'))
  | reschedule | held =>
    rw [drop_worker, Function.update_self] at hf
    exact .inl (dropped_knows hf)
  | _ =>
    left
    rcases hf with hnamed | hcb
    · simp_all [goto, setWorker, Worker.Knows, Pc.named]
    · exact .inr (by simpa [goto, setWorker] using hcb)

/-- A worker's step takes no fiber from nobody. -/
theorem Worked.idle {s t : State ι κ} {w : ι} (h : Worked s w t) {f : ℕ} (hf : Idle s f)
    (hmade : f < s.made) : Idle t f := by
  refine ⟨fun hqueue => ?_, fun u hknown => ?_⟩
  · rcases h.queued_of hqueue with hold | hknown
    · exact hf.1 hold
    · exact hf.2 w hknown
  · by_cases hu : u = w
    · subst hu
      rcases h.knows_of hknown with hold | hqueue | hnew
      · exact hf.2 u hold
      · exact hf.1 hqueue
      · exact Nat.ne_of_lt hmade hnew
    · exact hf.2 u (h.frame.others u hu ▸ hknown)

omit [DecidableEq ι] in
theorem called_placed {s t : State ι κ} {c : Call ι κ} (h : Called s c t) (hs : Placed s)
    (hidle : CallIdle s c) : Placed t := by
  cases h with
  | made c =>
    exact ⟨hs.once, hs.away, hs.apart, fun w f hf => Nat.lt_succ_of_lt (hs.known w f hf),
      fun f hf => Nat.lt_succ_of_lt (hs.queuedMade f hf), hs.split⟩
  | fiber f thread hf =>
    refine placed_push hs _ ?_
    intro g hg
    obtain rfl : f = g := by simpa using hg
    exact ⟨hidle, hf⟩
  | cb c thread => exact placed_push hs _ (fun g hg => by cases hg)

/-- A body that leaves keeps its worker's place. -/
theorem leaving_placed {s t : State ι κ} {w : ι} {f : ℕ} {slot : Slot} {ctx : Fiber.Context}
    (hs : Placed s) (hpc : (s.worker w).pc = .running f slot)
    (hw : t.worker = Function.update s.worker w {s.worker w with pc := .leaving f slot ctx})
    (hmade : s.made = t.made) (hqueue : t.fibers = s.fibers) : Placed t := by
  refine placed_stay hs w _ hw hmade hqueue (fun g hg => knows_goto hg (.inl ?_)) ?_
  · simp [hpc, Pc.named]
  · intro g hg
    exact hs.split w g (by cases slot <;> simp_all [Pc.viaFt])

omit [DecidableEq ι] in
theorem Called.made_le {s t : State ι κ} {c : Call ι κ} (h : Called s c t) : s.made ≤ t.made := by
  cases h with
  | made => exact Nat.le_succ _
  | fiber | cb => exact Nat.le_refl _

/-- A body that does not call the scheduler leaves. -/
theorem Bodied.kept {s t : State ι κ} {w : ι} {f : ℕ} {slot : Slot} {b : Body ι κ}
    (h : Bodied s w f slot b t) (hb : ∀ c, b ≠ .call c) :
    t.fibers = s.fibers ∧ t.made = s.made ∧
      ∃ ctx, t.worker = Function.update s.worker w {s.worker w with pc := .leaving f slot ctx} := by
  cases h with
  | call c => exact absurd rfl (hb c)
  | ready | hold | «return» | throw => exact ⟨rfl, rfl, _, rfl⟩

/-- A body changes no fiber but its own. -/
theorem Bodied.untouched {s t : State ι κ} {w : ι} {f g : ℕ} {slot : Slot} {b : Body ι κ}
    (h : Bodied s w f slot b t) (hb : ∀ c, b ≠ .call c) (hg : g ≠ f) : t.fiber g = s.fiber g := by
  cases h with
  | call c => exact absurd rfl (hb c)
  | ready | hold | «return» | throw => simp [goto, setWorker, setFiber, State.finish, hg]

theorem bodied_placed {s t : State ι κ} {w : ι} {f : ℕ} {slot : Slot} {b : Body ι κ}
    (hpc : (s.worker w).pc = .running f slot) (h : Bodied s w f slot b t) (hs : Placed s)
    (hidle : ∀ c, b = .call c → CallIdle s c) : Placed t := by
  cases h with
  | call c t _ h => exact called_placed h hs (hidle c rfl)
  | ready | hold | «return» | throw => exact leaving_placed hs hpc rfl rfl rfl

/-- A worker that starts `run` over knows less than before. -/
theorem enterRoot_placed {s : State ι κ} (hs : Placed s) (r : ι) (c : Caller) :
    Placed ({s with caller := c}.goto r .top) := by
  exact placed_stay hs r _ rfl rfl rfl (fun g hg => knows_goto hg (.inr (.inr rfl)))
    (fun g hg => by simp [Pc.viaFt] at hg)

omit [DecidableEq ι] in
/-- Workers that know no more than they did, and no step of the queue. -/
theorem placed_less {s t : State ι κ} (hs : Placed s) (hqueue : t.fibers = s.fibers)
    (hmade : t.made = s.made) (hknows : ∀ w f, (t.worker w).Knows f → (s.worker w).Knows f)
    (hsplit : ∀ w, (t.worker w).Split) : Placed t := by
  have hq : t.queued = s.queued := by simp only [State.queued, hqueue]
  refine ⟨hq ▸ hs.once, ?_, ?_, ?_, ?_, hsplit⟩
  · intro f hf w hknown
    exact hs.away f (hq ▸ hf) w (hknows w f hknown)
  · intro v w f hne hv hw
    exact hs.apart v w f hne (hknows v f hv) (hknows w f hw)
  · intro w f hf
    rw [hmade]
    exact hs.known w f (hknows w f hf)
  · intro f hf
    rw [hmade]
    exact hs.queuedMade f (hq ▸ hf)

omit [DecidableEq ι] in
/-- With an empty queue and workers that know nothing. -/
theorem placed_of_empty {s : State ι κ} (hqueue : s.fibers = [])
    (hknows : ∀ w f, ¬ (s.worker w).Knows f) : Placed s := by
  have hq : s.queued = [] := by simp [State.queued, hqueue]
  refine ⟨by simp [hq], by simp [hq], fun _ w f _ _ => hknows w f,
    fun w f h => absurd h (hknows w f), by simp [hq], fun w f hf => ?_⟩
  exact absurd (.inl (Pc.viaFt_named hf)) (hknows w f)

end SimpleHttpServer.Scheduler
