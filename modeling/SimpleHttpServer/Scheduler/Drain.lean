import SimpleHttpServer.Scheduler.Inventory

/-! What `stop()` leaves behind.

A worker is *gone* once it has made the last scan of its loop. When the last worker goes,
its scan has found nothing it may run, and if no callback was pinned to a worker already
gone, nothing is left that only such a worker could run. So `stop()` leaves an empty queue,
and with every scheduled callback accounted for, all of them have ended. A callback pinned
to a worker that is gone stays in the queue for ever. -/
namespace SimpleHttpServer.Scheduler
open State

variable {ι κ : Type}

/-- The worker will scan no more: it is behind its loop, or has scanned in vain with its
idle fiber ended, or is the caller's own thread and `stop()` has passed it by. -/
def Gone (s : State ι κ) (w : ι) : Prop :=
  (s.worker w).pc = .done ∨ (s.worker w).pc = .nothing ∧ (s.worker w).idle = .term ∨
    (s.worker w).pc = .unborn ∧ (s.caller = .joining ∨ s.caller = .returned)

/-- The thread a step schedules for, if it schedules for one. -/
def Call.pins : Call ι κ → Option ι
  | .schedule _ thread => thread
  | .make _ => none

def Action.pins : Action ι κ → Option ι
  | .outside c | .body _ (.call c) => c.pins
  | _ => none

/-- Nothing is scheduled for a worker that is gone. -/
def PinnedInTime (s : State ι κ) (a : Action ι κ) : Prop := ∀ t, a.pins = some t → ¬ Gone s t

instance [DecidableEq κ] (s : State ι κ) (w : ι) : Decidable (Gone s w) :=
  inferInstanceAs (Decidable (_ ∨ _))

instance [DecidableEq κ] (s : State ι κ) (a : Action ι κ) : Decidable (PinnedInTime s a) :=
  match h : a.pins with
  | none => isTrue fun t ht => by rw [h] at ht; cases ht
  | some v => decidable_of_iff (¬ Gone s v)
      ⟨fun hv t ht => by rw [h] at ht; cases ht; exact hv, fun hall => hall v h⟩

theorem gone_congr {s t : State ι κ} {w : ι} (hw : t.worker w = s.worker w)
    (hc : t.caller = s.caller) : Gone t w ↔ Gone s w := by
  unfold Gone
  rw [hw, hc]

/-- The phases of `stop()` as far as the workers are concerned. -/
structure Phase (root : Option ι) (s : State ι κ) : Prop where
  unborn : ∀ w, (s.worker w).pc = .unborn → root = some w
  alone : s.caller = .early → ∀ w, root = some w
  serving : s.caller = .serving → s.autoStop = false ∧
    ∀ w, (s.worker w).pc ≠ .done ∧ (s.worker w).idle ≠ .term
  joining : s.caller = .joining ∨ s.caller = .returned → ∀ r, root = some r → Gone s r
  returned : s.caller = .returned → ∀ w, Gone s w

theorem Phase.not_gone {root : Option ι} {s : State ι κ} (h : Phase root s)
    (hc : s.caller = .serving) (w : ι) : ¬ Gone s w := by
  have hw := (h.serving hc).2 w
  rintro (hdone | ⟨_, hidle⟩ | ⟨_, hj | hr⟩)
  · exact hw.1 hdone
  · exact hw.2 hidle
  · simp [hc] at hj
  · simp [hc] at hr

variable [DecidableEq ι]

/-! ### Going -/

theorem Worked.gone {s t : State ι κ} {w : ι} (h : Worked s w t) (hs : Gone s w) : Gone t w := by
  cases h with
  | exit => exact .inl (by simp [goto, setWorker])
  | goIdle hpc hidle => simp [Gone, hpc, hidle] at hs
  | found _ hpc | missed hpc | refuse _ hpc | accept _ hpc | reuse _ _ _ hpc | fresh _ hpc
  | swapIn _ _ _ hpc | swapOut _ _ _ hpc | lower _ _ hpc | isReady _ _ hpc | notReady _ _ hpc
  | reschedule _ _ hpc | settled _ hpc | wiping _ hpc | unsettled _ _ hpc | held _ _ hpc
  | wiped _ _ hpc | skipped hpc | idleEnd hpc | idleHold hpc => simp [Gone, hpc] at hs

/-- A worker goes by a scan that finds nothing. -/
theorem Worked.last_scan {s t : State ι κ} {w : ι} (h : Worked s w t) (hs : ¬ Gone s w)
    (ht : Gone t w) : t.fibers = s.fibers ∧ s.fibers.find? (s.takes w) = none := by
  cases h with
  | missed hpc hfind => exact ⟨rfl, hfind⟩
  | exit hpc hidle => exact absurd (.inr (.inl ⟨hpc, hidle⟩)) hs
  | reschedule f slot | held f slot => simp [Gone, drop_worker, dropped] at ht
  | _ => simp [Gone, goto, setWorker] at ht

/-- What an unsuccessful scan leaves is pinned to other workers. -/
theorem pinned_elsewhere {s : State ι κ} {w : ι} (h : s.fibers.find? (s.takes w) = none)
    (ht : Tidy s) {e : FiberAndThread ι κ} (he : e ∈ s.fibers) : ∃ t, e.thread = some t ∧ t ≠ w := by
  have hno := List.find?_eq_none.mp h e he
  have htakes : s.takes w e = (e.thread == none || e.thread == some w) := by
    obtain ⟨task, thread⟩ := e
    cases task with
    | fiber f => simp [takes, ht.ready f (mem_queued.mpr ⟨_, he, rfl⟩)]
    | cb c => simp [takes]
  rw [htakes] at hno
  cases hthread : e.thread with
  | none => simp [hthread] at hno
  | some t =>
    refine ⟨t, rfl, fun htw => ?_⟩
    simp [hthread, htw] at hno

/-- `stop()` calls nobody back. -/
theorem Stopped.gone {root : Option ι} {s t : State ι κ} (h : Stopped root s t)
    (hwaits : RootWaits root s) {w : ι} (hs : Gone s w) : Gone t w := by
  rcases hs with hdone | hlast | ⟨hun, hc⟩
  · cases h with
    | enterRoot r h hroot =>
      have hr := hwaits (by simp [h]) r hroot
      have hw : w ≠ r := fun he => by simp [he, hr] at hdone
      exact .inl (by simpa [goto, setWorker, hw] using hdone)
    | _ => exact .inl hdone
  · cases h with
    | enterRoot r h hroot =>
      have hr := hwaits (by simp [h]) r hroot
      have hw : w ≠ r := fun he => by simp [he, hr] at hlast
      exact .inr (.inl (by simpa [goto, setWorker, hw] using hlast))
    | _ => exact .inr (.inl hlast)
  · cases h with
    | joined => exact .inr (.inr ⟨hun, .inr rfl⟩)
    | noRoot | skipRoot | rootBack => exact .inr (.inr ⟨hun, .inl rfl⟩)
    | earlyEnd => exact .inr (.inr ⟨hun, .inr rfl⟩)
    | begin h | short h | long h | earlyGo h | flagged h | enterRoot r h => simp [h] at hc

/-- `stop()` passes the caller's own thread by only when nothing is queued. -/
theorem Stopped.passes {root : Option ι} {s t : State ι κ} (h : Stopped root s t)
    (hphase : Phase root s) {w : ι} (hs : ¬ Gone s w) (ht : Gone t w) : s.fibers = [] := by
  cases h with
  | earlyEnd _ hstop | skipRoot _ _ _ hstop => exact ((stopping_iff s).mp hstop).2.2.1
  | noRoot h hroot =>
    rcases ht with hdone | hlast | ⟨hun, _⟩
    · exact absurd (.inl hdone) hs
    · exact absurd (.inr (.inl hlast)) hs
    · exact absurd (hphase.unborn w hun) (by simp [hroot])
  | rootBack h hdone =>
    rcases ht with hdone' | hlast | ⟨hun, _⟩
    · exact absurd (.inl hdone') hs
    · exact absurd (.inr (.inl hlast)) hs
    · have hback := hdone w (hphase.unborn w hun)
      rw [show (s.worker w).pc = .unborn from hun] at hback
      cases hback
  | joined h =>
    rcases ht with hdone' | hlast | ⟨hun, _⟩
    · exact absurd (.inl hdone') hs
    · exact absurd (.inr (.inl hlast)) hs
    · exact absurd (.inr (.inr ⟨hun, .inl h⟩)) hs
  | enterRoot r h hroot =>
    by_cases hw : w = r
    · subst hw
      simp [Gone, goto, setWorker] at ht
    · simp [Gone, goto, setWorker, hw] at ht
      exact absurd (ht.imp_right .inl) hs
  | _ => exact absurd (by simpa [Gone] using ht) (by simpa [Gone, *] using hs)

theorem Stepped.gone {root : Option ι} {s t : State ι κ} {a : Action ι κ} (h : Stepped root s a t)
    (hwaits : RootWaits root s) {w : ι} (hs : Gone s w) : Gone t w := by
  cases h with
  | work v _ h =>
    by_cases hw : w = v
    · exact hw ▸ h.gone (hw ▸ hs)
    · exact (gone_congr (h.frame.others w hw) h.frame.caller).mpr hs
  | body v f slot b _ hpc h =>
    have hw : w ≠ v := fun he => by simp [Gone, he, hpc] at hs
    exact (gone_congr (h.frame.others w hw) h.frame.caller).mpr hs
  | outside c _ h =>
    obtain ⟨hw, hc, _⟩ := h.frame
    exact (gone_congr (by rw [hw]) hc).mpr hs
  | stop _ h => exact h.gone hwaits hs

/-- When a worker goes, the queue stays, and all that is in it is pinned to others. -/
theorem Stepped.leaves {root : Option ι} {s t : State ι κ} {a : Action ι κ}
    (h : Stepped root s a t) (hphase : Phase root s) (htidy : Tidy s) {w : ι} (hs : ¬ Gone s w)
    (ht : Gone t w) :
    t.fibers = s.fibers ∧ ∀ e ∈ s.fibers, ∃ v, e.thread = some v ∧ v ≠ w := by
  cases h with
  | work v _ h =>
    by_cases hw : w = v
    · subst hw
      obtain ⟨hqueue, hfind⟩ := h.last_scan hs ht
      exact ⟨hqueue, fun e he => pinned_elsewhere hfind htidy he⟩
    · exact absurd ((gone_congr (h.frame.others w hw) h.frame.caller).mp ht) hs
  | body v f slot b _ hpc h =>
    by_cases hw : w = v
    · subst hw
      cases h with
      | call c _ _ h =>
        obtain ⟨hw, hc, _⟩ := h.frame
        exact absurd ((gone_congr (by rw [hw]) hc).mp ht) hs
      | _ => simp [Gone, goto, setWorker] at ht
    · exact absurd ((gone_congr (h.frame.others w hw) h.frame.caller).mp ht) hs
  | outside c _ h =>
    obtain ⟨hw, hc, _⟩ := h.frame
    exact absurd ((gone_congr (by rw [hw]) hc).mp ht) hs
  | stop _ h =>
    have hnil := h.passes hphase hs ht
    refine ⟨?_, by simp [hnil]⟩
    cases h <;> rfl

/-! ### The phases -/

theorem Worked.born {s t : State ι κ} {w : ι} (h : Worked s w t) :
    (t.worker w).pc ≠ .unborn := by
  cases h with
  | reschedule f slot | held f slot => simp [drop_worker, dropped]
  | _ => simp [goto, setWorker]

/-- Before `stop()` no idle fiber ends, and no worker. -/
theorem Worked.serving {s t : State ι κ} {w : ι} (h : Worked s w t) (hauto : s.autoStop = false)
    (hidle : (s.worker w).idle ≠ .term) : (t.worker w).pc ≠ .done ∧ (t.worker w).idle ≠ .term := by
  cases h with
  | exit _ hterm => exact absurd hterm hidle
  | idleEnd _ hstop => simp [stopping, hauto] at hstop
  | reschedule f slot | held f slot => simp [drop_worker, dropped, hidle]
  | _ => simp [goto, setWorker, setFiber, hidle]

/-- A worker's step keeps the phase. -/
theorem phase_frame {root : Option ι} {s t : State ι κ} {w : ι} (hs : Phase root s)
    (hframe : Frame s w t) (hborn : (t.worker w).pc ≠ .unborn)
    (hgone : ∀ v, Gone s v → Gone t v)
    (hserving : s.caller = .serving → (t.worker w).pc ≠ .done ∧ (t.worker w).idle ≠ .term) :
    Phase root t := by
  refine ⟨?_, ?_, ?_, ?_, ?_⟩
  · intro i hi
    by_cases hw : i = w
    · exact absurd hi (hw ▸ hborn)
    · exact hs.unborn i (hframe.others i hw ▸ hi)
  · rw [hframe.caller]
    exact hs.alone
  · intro hc
    rw [hframe.caller] at hc
    refine ⟨hframe.autoStop.trans (hs.serving hc).1, fun i => ?_⟩
    by_cases hw : i = w
    · exact hw ▸ hserving hc
    · rw [hframe.others i hw]
      exact (hs.serving hc).2 i
  · intro hc r hr
    rw [hframe.caller] at hc
    exact hgone r (hs.joining hc r hr)
  · intro hc i
    rw [hframe.caller] at hc
    exact hgone i (hs.returned hc i)

theorem stopped_phase {root : Option ι} {s t : State ι κ} (h : Stopped root s t)
    (hwaits : RootWaits root s) (hs : Phase root s) : Phase root t := by
  cases h with
  | begin h | long h | earlyGo h | flagged h =>
    exact ⟨hs.unborn, by simp, by simp, by simp, by simp⟩
  | short h hall => exact ⟨hs.unborn, fun _ => hall, by simp, by simp, by simp⟩
  | earlyEnd h hstop =>
    have hgone : ∀ w, Gone {s with caller := .returned} w := fun w =>
      .inr (.inr ⟨hwaits (by simp [h]) w (hs.alone h w), .inr rfl⟩)
    exact ⟨hs.unborn, by simp, by simp, fun _ r _ => hgone r, fun _ => hgone⟩
  | noRoot h hroot => exact ⟨hs.unborn, by simp, by simp, by simp [hroot], by simp⟩
  | skipRoot r h hroot hstop =>
    refine ⟨hs.unborn, by simp, by simp, fun _ r' hr' => ?_, by simp⟩
    exact .inr (.inr ⟨hwaits (by simp [h]) r' hr', .inl rfl⟩)
  | enterRoot r h hroot =>
    refine ⟨fun w hw => ?_, by simp [goto, setWorker], by simp [goto, setWorker],
      by simp [goto, setWorker], by simp [goto, setWorker]⟩
    by_cases hwr : w = r
    · exact hwr ▸ hroot
    · exact hs.unborn w (by simpa [goto, setWorker, hwr] using hw)
  | rootBack h hdone =>
    refine ⟨hs.unborn, by simp, by simp, fun _ r hr => .inl ?_, by simp⟩
    have hback := hdone r hr
    show (s.worker r).pc = .done
    cases hpc : (s.worker r).pc <;> simp_all [Pc.isDone]
  | joined h hdone =>
    have hgone : ∀ w, Gone {s with caller := .returned} w := by
      intro w
      rcases hdone w with hroot | hback
      · rcases hs.joining (.inl h) w hroot with hd | hl | ⟨hun, _⟩
        · exact .inl hd
        · exact .inr (.inl hl)
        · exact .inr (.inr ⟨hun, .inr rfl⟩)
      · refine .inl ?_
        show (s.worker w).pc = .done
        cases hpc : (s.worker w).pc <;> simp_all [Pc.isDone]
    exact ⟨hs.unborn, by simp, by simp, fun _ r _ => hgone r, fun _ => hgone⟩

theorem stepped_phase {root : Option ι} {s t : State ι κ} {a : Action ι κ}
    (h : Stepped root s a t) (hwaits : RootWaits root s) (hs : Phase root s) : Phase root t := by
  have hgone : ∀ v, Gone s v → Gone t v := fun _ => h.gone hwaits
  cases h with
  | work w _ h =>
    exact phase_frame hs h.frame h.born hgone
      fun hc => h.serving (hs.serving hc).1 ((hs.serving hc).2 w).2
  | body w f slot b _ hpc h =>
    have hpc' : (t.worker w).pc ≠ .unborn ∧ (t.worker w).pc ≠ .done ∧
        (t.worker w).idle = (s.worker w).idle := by
      cases h with
      | call c _ _ h => simp [h.frame.1, hpc]
      | _ => simp [goto, setWorker, setFiber, State.finish]
    exact phase_frame hs h.frame hpc'.1 hgone
      fun hc => ⟨hpc'.2.1, hpc'.2.2 ▸ ((hs.serving hc).2 w).2⟩
  | outside c _ h =>
    obtain ⟨hw, hc, _, ha, _⟩ := h.frame
    have hsame : ∀ v, Gone t v ↔ Gone s v := fun v => gone_congr (by rw [hw]) hc
    exact ⟨hw ▸ hs.unborn, hc ▸ hs.alone, by rw [hc, ha, hw]; exact hs.serving,
      fun hj r hr => hgone r (hs.joining (hc ▸ hj) r hr), fun hj v => hgone v (hs.returned (hc ▸ hj) v)⟩
  | stop _ h => exact stopped_phase h hwaits hs

theorem initial_phase (root : Option ι) : Phase root (.initial root : State ι κ) := by
  refine ⟨?_, by simp [State.initial], ?_, by simp [State.initial], by simp [State.initial]⟩
  · intro w hw
    by_contra hroot
    simp [State.initial, hroot] at hw
  · intro _
    refine ⟨rfl, fun w => ⟨?_, by simp [State.initial]⟩⟩
    simp only [State.initial]
    split <;> simp

/-! ### Nothing is left for those who are gone -/

/-- No entry waits for a worker that is gone, and none waits when all are. -/
structure Cleared (s : State ι κ) : Prop where
  pinned : ∀ e ∈ s.fibers, ∀ t, e.thread = some t → ¬ Gone s t
  empty : (∀ w, Gone s w) → s.fibers = []

/-- What a step adds to the queue is for the thread it was scheduled for. -/
theorem Stepped.queued {root : Option ι} {s t : State ι κ} {a : Action ι κ}
    (h : Stepped root s a t) {e : FiberAndThread ι κ} (he : e ∈ t.fibers) :
    e ∈ s.fibers ∨ e.thread = a.pins := by
  have hcall : ∀ {c : Call ι κ} {u : State ι κ}, Called s c u → e ∈ u.fibers →
      e ∈ s.fibers ∨ e.thread = c.pins := by
    intro c u h he
    cases h with
    | made c => exact .inl he
    | fiber f thread | cb c thread =>
      rcases List.mem_append.mp he with hold | hnew
      · exact .inl hold
      · rw [List.mem_singleton.mp hnew]
        exact .inr rfl
  cases h with
  | work w _ h =>
    cases h with
    | found => exact .inl (List.mem_of_mem_eraseP he)
    | reschedule f slot =>
      rw [drop_fibers] at he
      rcases List.mem_append.mp he with hold | hnew
      · exact .inl hold
      · rw [List.mem_singleton.mp hnew]
        exact .inr rfl
    | held f slot =>
      rw [drop_fibers] at he
      exact .inl he
    | _ => exact .inl he
  | body w f slot b _ hpc h =>
    cases h with
    | call c _ _ h => exact hcall h he
    | _ => exact .inl he
  | outside c _ h => exact hcall h he
  | stop _ h => cases h <;> exact .inl he

/-- A step that pins an entry changes nothing for its workers. -/
theorem Stepped.pins_gone {root : Option ι} {s t : State ι κ} {a : Action ι κ}
    (h : Stepped root s a t) {v : ι} (hpins : a.pins = some v) (w : ι) : Gone t w ↔ Gone s w := by
  have hcall : ∀ {c : Call ι κ}, Called s c t → (Gone t w ↔ Gone s w) := by
    intro c h
    obtain ⟨hw, hc, _⟩ := h.frame
    exact gone_congr (by rw [hw]) hc
  cases h with
  | work | stop => cases hpins
  | outside c _ h => exact hcall h
  | body _ f slot b _ hpc h =>
    cases h with
    | call c _ _ h => exact hcall h
    | _ => cases hpins

theorem stepped_cleared [Nonempty ι] {root : Option ι} {s t : State ι κ} {a : Action ι κ}
    (h : Stepped root s a t) (hphase : Phase root s) (htidy : Tidy s)
    (hrule : CallbacksOnly s a) (htime : PinnedInTime s a) (hs : Cleared s) : Cleared t := by
  have hpinned : ∀ e ∈ t.fibers, ∀ v, e.thread = some v → ¬ Gone t v := by
    intro e he v hv hgone
    by_cases hold : Gone s v
    · rcases h.queued he with hin | hnew
      · exact hs.pinned e hin v hv hold
      · exact htime v (hnew.symm.trans hv) hold
    · obtain ⟨hqueue, hleft⟩ := h.leaves hphase htidy hold hgone
      obtain ⟨u, hu, hne⟩ := hleft e (hqueue ▸ he)
      exact hne (Option.some.inj (hu.symm.trans hv))
  refine ⟨hpinned, fun hall => ?_⟩
  by_cases hold : ∀ w, Gone s w
  · -- all were gone before: nobody is left to schedule anything
    have hnil := hs.empty hold
    cases h with
    | work w _ h =>
      cases h with
      | reschedule f slot hpc => simpa [Gone, hpc] using hold w
      | found _ hpc => simpa [Gone, hpc] using hold w
      | held f slot => simpa using hnil
      | _ => exact hnil
    | body w f slot b _ hpc h => simpa [Gone, hpc] using hold w
    | outside c _ h =>
      cases h with
      | made c => exact hrule.elim
      | fiber f thread hf => exact hrule.elim
      | cb c thread =>
        exact absurd (hold (Classical.arbitrary ι)) (hphase.not_gone hrule (Classical.arbitrary ι))
    | stop _ h => cases h <;> exact hnil
  · obtain ⟨w, hw⟩ := not_forall.mp hold
    obtain ⟨hqueue, hleft⟩ := h.leaves hphase htidy hw (hall w)
    refine List.eq_nil_iff_forall_not_mem.mpr fun e he => ?_
    obtain ⟨v, hv, _⟩ := hleft e (hqueue ▸ he)
    exact hpinned e he v hv (hall v)

theorem initial_cleared [Nonempty ι] (root : Option ι) : Cleared (.initial root : State ι κ) :=
  ⟨by simp [State.initial], fun _ => rfl⟩

/-! ### What waits for a worker that is gone -/

def Stuck (s : State ι κ) : Prop := ∃ e ∈ s.fibers, ∃ t, e.thread = some t ∧ Gone s t

/-- Only the thread it is pinned to takes an entry from the queue. -/
theorem stepped_stuck {root : Option ι} {s t : State ι κ} {a : Action ι κ}
    (h : Stepped root s a t) (hwaits : RootWaits root s) (hs : Stuck s) : Stuck t := by
  obtain ⟨e, he, v, hv, hgone⟩ := hs
  refine ⟨e, ?_, v, hv, h.gone hwaits hgone⟩
  have hcall : ∀ {c : Call ι κ} {u : State ι κ}, Called s c u → e ∈ u.fibers := by
    intro c u h
    cases h with
    | made c => exact he
    | fiber | cb => exact List.mem_append_left _ he
  cases h with
  | work w _ h =>
    cases h with
    | found e' hpc =>
      refine Queue.mem_eraseP_of_refused he ?_
      have hne : v ≠ w := fun h => by simp [Gone, h, hpc] at hgone
      simp [takes, hv, hne]
    | reschedule f slot =>
      rw [drop_fibers]
      exact List.mem_append_left _ he
    | held f slot =>
      rw [drop_fibers]
      exact he
    | _ => exact he
  | body w f slot b _ hpc h =>
    cases h with
    | call c _ _ h => exact hcall h
    | _ => exact he
  | outside c _ h => exact hcall h
  | stop _ h => cases h <;> exact he

theorem stuck_of_late {root : Option ι} {s t : State ι κ} {a : Action ι κ}
    (h : Stepped root s a t) (hlate : ¬ PinnedInTime s a) : Stuck t := by
  simp only [PinnedInTime, not_forall, not_not] at hlate
  obtain ⟨v, hpins, hgone⟩ := hlate
  have hgone' := (h.pins_gone hpins v).mpr hgone
  have hcall : ∀ {c : Call ι κ}, c.pins = some v → Called s c t → Stuck t := by
    intro c hpins h
    cases h with
    | made c => cases hpins
    | fiber f thread | cb c thread =>
      exact ⟨_, List.mem_append_right _ (List.mem_singleton_self _), v, hpins, hgone'⟩
  cases h with
  | work | stop => cases hpins
  | outside c _ h => exact hcall hpins h
  | body _ f slot b _ hpc h =>
    cases h with
    | call c _ _ h => exact hcall hpins h
    | _ => cases hpins

variable [Fintype ι]

/-- Everything a run of callbacks keeps. -/
structure Kept (root : Option ι) (s : State ι κ) : Prop where
  consistent : Consistent root s
  phase : Phase root s
  tidy : Tidy s
  accounted : Accounted s
  cleared : Cleared s

theorem step_kept [Nonempty ι] {root : Option ι} {s t : State ι κ} {a : Action ι κ}
    (hs : Kept root s) (hrule : CallbacksOnly s a ∧ PinnedInTime s a)
    (h : (machine κ root).step s a = some t) : Kept root t :=
  ⟨step_consistent hs.consistent h, stepped_phase (stepped_of_step h) hs.consistent.waits hs.phase,
    step_tidy hs.tidy hrule.1 h,
    step_accounted hs.consistent.waits hs.tidy hs.accounted hrule.1 h,
    stepped_cleared (stepped_of_step h) hs.phase hs.tidy hrule.1 hrule.2 hs.cleared⟩

theorem initial_kept [Nonempty ι] (root : Option ι) : Kept root (.initial root : State ι κ) :=
  ⟨initial_consistent root, initial_phase root, initial_tidy root, initial_accounted root,
    initial_cleared root⟩

omit [DecidableEq ι] in
/-- Behind `stop()` no worker holds a callback. -/
theorem inHand_of_gone {s : State ι κ} (h : ∀ w, Gone s w) : s.inHand = 0 := by
  refine Finset.sum_eq_zero fun w _ => ?_
  rcases h w with hpc | ⟨hpc, _⟩ | ⟨hpc, _⟩ <;> simp [hpc, Pc.holds]

theorem stuck_stays {root : Option ι} {s t : State ι κ} {acts : List (Action ι κ)}
    (hs : Consistent root s) (hstuck : Stuck s) (hrun : (machine κ root).run s acts = some t) :
    Stuck t := by
  have keep : ∀ s a t, Consistent root s ∧ Stuck s → (machine κ root).step s a = some t →
      Consistent root t ∧ Stuck t := fun s a t h hstep =>
    ⟨step_consistent h.1 hstep, stepped_stuck (stepped_of_step hstep) h.1.waits h.2⟩
  exact (Machine.Reachable.invariant keep ⟨hs, hstuck⟩ ⟨acts, hrun⟩).2

theorem stuck_of_not_along {root : Option ι} {s t : State ι κ} {acts : List (Action ι κ)}
    (hs : Consistent root s) (hrun : (machine κ root).run s acts = some t)
    (hlate : ¬ (machine κ root).Along PinnedInTime s acts) : Stuck t := by
  induction acts generalizing s with
  | nil => exact absurd trivial hlate
  | cons a rest ih =>
    obtain ⟨u, hu, hrest⟩ := (Machine.run_cons _).mp hrun
    have hnext := step_consistent hs hu
    by_cases hnow : PinnedInTime s a
    · exact ih hnext hrest fun hlater => hlate (.cons hnow hu hlater)
    · exact stuck_stays hnext (stuck_of_late (stepped_of_step hu) hnow) hrest

/-- Once `stop()` has returned on a run of callbacks, the queue is empty and every callback
that was scheduled has been run to its end exactly as often, if and only if none was ever
scheduled for a worker that was gone. -/
theorem drained_iff_pinnedInTime [Nonempty ι] (root : Option ι) (acts : List (Action ι κ))
    (s : State ι κ) (hcb : (machine κ root).Along CallbacksOnly (.initial root) acts)
    (hrun : (machine κ root).run (.initial root) acts = some s) (hret : s.caller = .returned) :
    (s.fibers = [] ∧ s.ended = s.scheduled) ↔
      (machine κ root).Along PinnedInTime (.initial root) acts := by
  constructor
  · rintro ⟨hnil, _⟩
    by_contra hlate
    obtain ⟨e, he, _⟩ := stuck_of_not_along (initial_consistent root) hrun hlate
    simp [hnil] at he
  · intro htime
    have hkept := Machine.run_invariant (fun _ _ _ => step_kept) (initial_kept root)
      (hcb.and htime) hrun
    have hgone := hkept.phase.returned hret
    have hnil := hkept.cleared.empty hgone
    refine ⟨hnil, ?_⟩
    have hall := hkept.accounted
    unfold Accounted State.waiting at hall
    rw [hnil, inHand_of_gone hgone] at hall
    simpa using hall.symm

/-- So many steps of one worker. -/
def turns (w : ι) (n : ℕ) : List (Action ι κ) := List.replicate n (.work w)

/-- One worker, no thread of the caller's, one callback: it yields once and returns. -/
def drainRun : List (Action Unit ℕ) :=
  List.flatten [[.outside (.schedule (.cb 7) (some ()))], turns () 3, [.body () .yieldToReady],
    turns () 7, [.body () .return, .stop, .stop, .stop, .stop], turns () 9, [.stop]]

theorem drainRun_drained :
    ∃ s : State Unit ℕ, (machine ℕ none).run (.initial none) drainRun = some s ∧
      s.fibers = [] ∧ s.ended = s.scheduled := by
  have hend : ((machine ℕ none).run (.initial none) drainRun).map (·.caller) = some .returned := by
    decide +kernel
  have hcb : (machine ℕ none).Along CallbacksOnly (.initial none) drainRun := by decide +kernel
  have htime : (machine ℕ none).Along PinnedInTime (.initial none) drainRun := by decide +kernel
  obtain ⟨s, hs, hret⟩ := Option.map_eq_some_iff.mp hend
  exact ⟨s, hs, (drained_iff_pinnedInTime none drainRun s hcb hs hret).mpr htime⟩

/-- Worker `false` runs a callback that yields. When it has lowered the counter, the idle
fiber of `true` sees `stopping()` and ends. The callback runs on `true` next and yields
again: the idle fiber of `false` ends in the same way, and it is `false` that takes the callback. `true`
scans in vain and leaves its loop; then the callback schedules another one for `true`. -/
def lostRun : List (Action Bool ℕ) :=
  List.flatten [[.outside (.schedule (.cb 0) none)], turns false 3, [.stop, .stop, .stop, .stop],
    turns true 2, [.body false .yieldToReady], turns false 2, turns true 1, turns false 2,
    turns true 3, turns false 2, [.body true .yieldToReady], turns true 2, turns false 1,
    turns true 2, turns false 3, turns true 2,
    [.body false (.call (.schedule (.cb 1) (some true))), .body false .return], turns false 6,
    [.stop]]

/-- `stop()` returns with a callback still in the queue. -/
theorem callback_lost :
    ∃ s : State Bool ℕ, (machine ℕ none).run (.initial none) lostRun = some s ∧
      (machine ℕ none).Along CallbacksOnly (.initial none) lostRun ∧ s.caller = .returned ∧
      s.fibers = [⟨.cb 1, some true⟩] ∧ s.ended ≠ s.scheduled := by
  have hend : ((machine ℕ none).run (.initial none) lostRun).map
      (fun s => (s.caller, s.fibers, decide (s.ended = s.scheduled))) =
        some (.returned, [⟨.cb 1, some true⟩], false) := by
    decide +kernel
  have hcb : (machine ℕ none).Along CallbacksOnly (.initial none) lostRun := by decide +kernel
  obtain ⟨s, hs, hproj⟩ := Option.map_eq_some_iff.mp hend
  simp only [Prod.mk.injEq, decide_eq_false_iff_not] at hproj
  exact ⟨s, hs, hcb, hproj⟩

end SimpleHttpServer.Scheduler
