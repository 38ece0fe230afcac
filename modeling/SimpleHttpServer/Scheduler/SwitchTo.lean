import SimpleHttpServer.Scheduler.Stage

/-! `switchTo` delivers the fiber where it promises.

A fiber that nobody schedules while it is queued or in a worker's hands stays on the
way that `Stage` describes, whatever the other fibers do (`step_tracked`). So when
`switchTo` returns it is on the scheduler and the thread it asked for, and when
`~SchedulerSwitcher` returns it is where the scope was entered, however the scopes
are nested (`switchTo_delivers`). -/
namespace SimpleHttpServer.Scheduler
open State

variable {σ ι κ : Type} [DecidableEq ι]

namespace Net
variable {home : ι → σ} {n m : Net σ ι κ} {f : ℕ} [DecidableEq σ]

/-- The call this action makes, if it makes one. -/
def Action.call? : Action σ ι κ → Option (σ × Call ι κ)
  | .outside S c | .body _ (.call S c) => some (S, c)
  | _ => none

/-- Nobody schedules the fiber while it is queued or a worker has it. -/
def Undisturbed (f : ℕ) (n : Net σ ι κ) (a : Action σ ι κ) : Prop :=
  ∀ S thread, a.call? = some (S, .schedule (.fiber f) thread) → n.Unqueued f ∧ n.Unknown f

omit [DecidableEq ι] in
theorem Stage.called (h : Stage home n f) (hmade : f < n.made) {S : σ} {c : Call ι κ}
    {s : State ι κ} (hc : Called (n.view S) c s)
    (hrule : ∀ thread, c = .schedule (.fiber f) thread → n.Unqueued f ∧ n.Unknown f) :
    Stage home (n.put S s) f := by
  cases hc with
  | made c =>
    refine h.same rfl (asks_put_same rfl) ?_ rfl
    have hne : f ≠ n.made := Nat.ne_of_lt hmade
    exact Function.update_of_ne hne _ _
  | fiber g thread hg =>
    by_cases hgf : g = f
    · subst hgf
      obtain ⟨hunqueued, hunknown⟩ := hrule thread rfl
      have hsw : n.switching g = none := by
        cases h with
        | free hsw | queued _ _ hsw | held _ hsw => exact hsw
        | asked w _ _ _ _ _ _ hheld | departing w _ _ _ _ _ hheld | arriving w _ _ _ _ _ hheld =>
          exact absurd hheld.knows (hunknown w)
        | away T thread' leaving hsw hat => exact absurd (hunqueued T) (by simp [hat.1])
      exact .queued S thread hsw (hunqueued.push S thread rfl) hunknown
    · exact h.same rfl (asks_put_same (asks_push _ (by simpa using hgf))) rfl rfl
  | cb c thread => exact h.same rfl (asks_put_same (asks_push _ (by simp))) rfl rfl

omit [DecidableEq ι] [DecidableEq σ] in
/-- Outside a switch a fiber whose body runs is alone with its worker. -/
theorem Stage.running (h : Stage home n f) {w : ι} {slot : Slot} (hsw : n.switching f = none)
    (hpc : (n.worker w).pc = .running f slot) : n.Unqueued f ∧ n.HeldBy f w := by
  have hknows : (n.worker w).Knows f := .inl (by simp [hpc, Pc.named])
  cases h with
  | free _ _ hknown | queued _ _ _ _ hknown => exact absurd hknows (hknown w)
  | held v _ hqueue hheld =>
    obtain rfl := hheld.eq hknows
    exact ⟨hqueue, hheld⟩
  | asked _ _ _ _ _ hsw' | departing _ _ _ _ hsw' | away _ _ _ hsw' | arriving _ _ _ _ hsw' =>
    exact absurd (hsw'.symm.trans hsw) (by simp)

/-- `switchTo`, of the fiber itself. -/
theorem Stage.ask (h : Stage home n f) {w : ι} {slot : Slot} (S : σ) (thread : Option ι)
    (leaving : Bool) (hsw : n.switching f = none) (hpc : (n.worker w).pc = .running f slot) :
    Stage home (n.ask home w f S thread leaving) f := by
  obtain ⟨hqueue, hheld⟩ := h.running hsw hpc
  have hexec := hheld.exec slot hpc
  unfold Net.ask
  split
  case isTrue hthere =>
    refine .arriving w S thread leaving (by simp [setSwitching]) hqueue
      ⟨hheld.knows, hheld.alone, hheld.split, hheld.exec⟩ ?_ ?_ hthere.1 hthere.2
    · show (n.worker w).pc.Arrives f
      rw [hpc]
      rfl
    · show (n.fiber f).state.finished = false
      rw [hexec]
      rfl
  case isFalse =>
    have hqueued := hqueue.push S thread (s := (n.view S).push ⟨.fiber f, thread⟩) rfl
    exact .asked w slot S thread leaving (by simp [setSwitching]) hqueued
      ⟨hheld.knows, hheld.alone, hheld.split, hheld.exec⟩ hpc

/-- `switchTo`, of another fiber. -/
theorem Stage.ask_other (h : Stage home n f) {w : ι} {g : ℕ} (hg : g ≠ f) (S : σ)
    (thread : Option ι) (leaving : Bool) : Stage home (n.ask home w g S thread leaving) f := by
  unfold Net.ask
  split
  · exact h.same (by simp [setSwitching, Ne.symm hg]) (fun T => rfl) rfl rfl
  · refine h.same (by simp [setSwitching, put, Ne.symm hg]) (fun T => ?_) rfl rfl
    exact asks_put_same (asks_push (n.view S) (by simpa using hg)) T

/-- The body of another fiber leaves. -/
theorem Stage.leave_other (h : Stage home n f) {w : ι} {g : ℕ} {slot : Slot} {b : Body ι κ}
    {s : State ι κ} (hpc : (n.worker w).pc = .running g slot) (hg : g ≠ f)
    (hb : ∀ c, b ≠ .call c) (hbodied : Bodied (n.view (home w)) w g slot b s) :
    Stage home (n.put (home w) s) f := by
  obtain ⟨hqueue, _, ctx, hworker⟩ := hbodied.kept hb
  have hleaving : s.worker w = {n.worker w with pc := .leaving g slot ctx} := by
    rw [hworker]
    exact Function.update_self ..
  have hknows : (s.worker w).Knows f ↔ (n.worker w).Knows f := by
    rw [hleaving]
    simp [Worker.Knows, Pc.named, hpc, hg]
  refine h.move w rfl (asks_put_same (congrArg (Scheduler.asks · f) hqueue))
    (hbodied.untouched hb (Ne.symm hg)) hbodied.frame.others hknows ?_ ?_ ?_
  · exact fun hk => h.settled hk (by simp [hpc, Pc.named, hg])
  · show (s.worker w).SplitAt f
    rw [hleaving]
    intro hvia
    cases slot with
    | ft =>
      obtain rfl : g = f := by simpa [Pc.viaFt] using hvia
      exact absurd rfl hg
    | cbFiber => simp [Pc.viaFt] at hvia
  · intro slot' hpc'
    rw [show (n.put (home w) s).worker w = _ from hleaving] at hpc'
    cases hpc'

/-- The body of the fiber itself leaves: its worker still has it. -/
theorem HeldBy.leave {w : ι} {slot : Slot} {b : Body ι κ} {s : State ι κ} (h : n.HeldBy f w)
    (hpc : (n.worker w).pc = .running f slot) (hb : ∀ c, b ≠ .call c)
    (hbodied : Bodied (n.view (home w)) w f slot b s) : (n.put (home w) s).HeldBy f w := by
  obtain ⟨_, _, ctx, hworker⟩ := hbodied.kept hb
  have hleaving : (n.put (home w) s).worker w = {n.worker w with pc := .leaving f slot ctx} := by
    show s.worker w = _
    rw [hworker]
    exact Function.update_self ..
  refine ⟨?_, fun v hv => ?_, ?_, ?_⟩
  · rw [hleaving]
    exact .inl rfl
  · have hsame := hbodied.frame.others v hv
    rw [show (n.put (home w) s).worker v = n.worker v from hsame]
    exact h.alone v hv
  · rw [hleaving]
    intro hvia
    refine h.split ?_
    rw [hpc]
    cases slot with
    | ft => rfl
    | cbFiber => simp [Pc.viaFt] at hvia
  · intro slot' hpc'
    rw [hleaving] at hpc'
    cases hpc'

/-- `YieldToHold` behind the push of `switchTo`. -/
theorem Stage.yield (h : Stage home n f) {w : ι} {slot : Slot} {S : σ} {thread : Option ι}
    {leaving : Bool} {s : State ι κ} (hpc : (n.worker w).pc = .running f slot)
    (hsw : n.switching f = some (.asked S thread leaving))
    (hbodied : Bodied (n.view (home w)) w f slot .yieldToHold s) :
    Stage home ((n.put (home w) s).setSwitching f (some (.returning S thread leaving))) f := by
  have hknows : (n.worker w).Knows f := .inl (by simp [hpc, Pc.named])
  have hb : ∀ c, (.yieldToHold : Body ι κ) ≠ .call c := fun c hc => by cases hc
  cases h with
  | free hsw' | queued _ _ hsw' | held _ hsw' | departing _ _ _ _ hsw' | away _ _ _ hsw'
  | arriving _ _ _ _ hsw' => exact absurd (hsw'.symm.trans hsw) (by simp)
  | asked v slot' S' thread' leaving' hsw' hqueue hheld hpc' =>
    obtain rfl := hheld.eq hknows
    obtain ⟨rfl, rfl, rfl⟩ : S' = S ∧ thread' = thread ∧ leaving' = leaving := by
      simpa using hsw'.symm.trans hsw
    obtain ⟨hfibers, _, ctx, hworker⟩ := hbodied.kept hb
    have hleft := hheld.leave hpc hb hbodied
    have hsame := asks_put_same (n := n) (f := f) (congrArg (Scheduler.asks · f) hfibers)
    refine .departing w S' thread' leaving' (by simp [setSwitching])
      ⟨(hsame S').trans hqueue.1, fun T hT => (hsame T).trans (hqueue.2 T hT)⟩
      ⟨hleft.knows, hleft.alone, hleft.split, hleft.exec⟩ ?_ ?_
    · cases hbodied with
      | hold => simp [setSwitching, put, goto, setWorker, Pc.Departs]
    · cases hbodied with
      | hold r _ hr =>
        unfold Fiber.yieldToHold at hr
        split at hr
        · cases hr
          simpa [setSwitching, put, goto, setWorker, setFiber] using hheld.exec slot hpc
        · cases hr

omit [DecidableEq ι] [DecidableEq σ] in
/-- Where `switchTo` returns, the fiber is where it asked to be. -/
theorem Stage.returns (h : Stage home n f) {w : ι} {slot : Slot} {S : σ} {thread : Option ι}
    {leaving : Bool} (hpc : (n.worker w).pc = .running f slot)
    (hsw : n.switching f = some (.returning S thread leaving)) :
    home w = S ∧ (thread = none ∨ thread = some w) ∧ n.Unqueued f ∧ n.HeldBy f w := by
  have hknows : (n.worker w).Knows f := .inl (by simp [hpc, Pc.named])
  cases h with
  | free hsw' | queued _ _ hsw' | held _ hsw' | asked _ _ _ _ _ hsw' =>
    exact absurd (hsw'.symm.trans hsw) (by simp)
  | departing v _ _ _ _ _ hheld hpc' =>
    obtain rfl := hheld.eq hknows
    rw [hpc] at hpc'
    exact hpc'.elim
  | away _ _ _ _ _ hknown => exact absurd hknows (hknown w)
  | arriving v S' thread' leaving' hsw' hqueue hheld _ _ hhome hthread =>
    obtain rfl := hheld.eq hknows
    obtain ⟨rfl, rfl, rfl⟩ : S' = S ∧ thread' = thread ∧ leaving' = leaving := by
      simpa using hsw'.symm.trans hsw
    exact ⟨hhome, hthread, hqueue, hheld⟩

/-- A fiber that has been made, at one of its stages. -/
structure Tracked (home : ι → σ) (n : Net σ ι κ) (f : ℕ) : Prop where
  made : f < n.made
  stage : Stage home n f

theorem ask_made (n : Net σ ι κ) (w : ι) (g : ℕ) (S : σ) (thread : Option ι) (leaving : Bool) :
    (n.ask home w g S thread leaving).made = n.made := by
  unfold Net.ask
  split <;> rfl

/-- `switchTo`, of whatever fiber. -/
theorem Tracked.ask (h : Tracked home n f) {w : ι} {g : ℕ} {slot : Slot} (S : σ)
    (thread : Option ι) (leaving : Bool) (hsw : n.switching g = none)
    (hpc : (n.worker w).pc = .running g slot) : Tracked home (n.ask home w g S thread leaving) f := by
  refine ⟨by rw [ask_made]; exact h.made, ?_⟩
  by_cases hg : g = f
  · subst hg
    exact h.stage.ask S thread leaving hsw hpc
  · exact h.stage.ask_other hg S thread leaving

theorem step_tracked {a : Action σ ι κ} (h : Tracked home n f) (hrule : Undisturbed f n a)
    (hstep : (machine κ home).step n a = some m) : Tracked home m f := by
  obtain ⟨hmade, hstage⟩ := h
  cases stepped_of_step hstep with
  | start w hpc =>
    refine ⟨hmade, hstage.move w rfl (fun S => rfl) rfl (fun v hv => by simp [hv]) ?_ ?_ ?_ ?_⟩
    · simp [Worker.Knows, hpc, Pc.named]
    · exact fun hk => hstage.settled hk (by simp [hpc, Pc.named])
    · simp [Worker.SplitAt, Pc.viaFt]
    · simp
  | work w s hw => exact ⟨Nat.lt_of_lt_of_le hmade hw.made_le, hstage.work hmade hw⟩
  | outside S c s hc =>
    exact ⟨Nat.lt_of_lt_of_le hmade hc.made_le,
      hstage.called hmade hc fun thread heq => hrule S thread (by simp [Action.call?, heq])⟩
  | call w S c s hc =>
    exact ⟨Nat.lt_of_lt_of_le hmade hc.made_le,
      hstage.called hmade hc fun thread heq => hrule S thread (by simp [Action.call?, heq])⟩
  | flags S autoStop isStopping => exact ⟨hmade, hstage.same rfl (asks_put_same rfl) rfl rfl⟩
  | plain w g slot _ b s hpc hsw hb hbodied =>
    obtain ⟨hfibers, hsame, _⟩ := hbodied.kept hb
    refine ⟨Nat.lt_of_lt_of_le hmade (Nat.le_of_eq hsame.symm), ?_⟩
    by_cases hg : g = f
    · subst hg
      obtain ⟨hqueue, hheld⟩ := hstage.running hsw hpc
      exact .held w hsw (fun S => (asks_put_same (congrArg (Scheduler.asks · g) hfibers) S).trans
        (hqueue S)) (hheld.leave hpc hb hbodied)
    · exact hstage.leave_other hpc hg hb hbodied
  | switchTo w g slot S thread hpc hsw => exact Tracked.ask ⟨hmade, hstage⟩ S thread false hsw hpc
  | stay w g slot hpc hsw => exact ⟨hmade, hstage.same rfl (fun S => rfl) rfl rfl⟩
  | enter w g slot S hpc hsw =>
    have hentered : Tracked home (n.enter g (home w)) f :=
      ⟨hmade, hstage.same rfl (fun S => rfl) rfl rfl⟩
    exact hentered.ask S none false hsw hpc
  | leave w g slot S rest hpc hsw hcallers =>
    have hpopped : Tracked home {n with callers := Function.update n.callers g rest} f :=
      ⟨hmade, hstage.same rfl (fun S => rfl) rfl rfl⟩
    exact hpopped.ask S none true hsw hpc
  | yield w g slot S thread leaving s hpc hsw hbodied =>
    have hb : ∀ c, (.yieldToHold : Body ι κ) ≠ .call c := fun c hc => by cases hc
    refine ⟨Nat.lt_of_lt_of_le hmade (Nat.le_of_eq (hbodied.kept hb).2.1.symm), ?_⟩
    by_cases hg : g = f
    · subst hg
      exact hstage.yield hpc hsw hbodied
    · refine (hstage.leave_other hpc hg hb hbodied).same ?_ (fun S => rfl) rfl rfl
      exact Function.update_of_ne (Ne.symm hg) _ _
  | back w g slot S thread leaving hpc hsw =>
    refine ⟨hmade, ?_⟩
    by_cases hg : g = f
    · subst hg
      obtain ⟨_, _, hqueue, hheld⟩ := hstage.returns hpc hsw
      exact .held w (by simp [Net.back, setSwitching]) hqueue
        ⟨hheld.knows, hheld.alone, hheld.split, hheld.exec⟩
    · refine hstage.same ?_ (fun S => rfl) rfl rfl
      exact Function.update_of_ne (Ne.symm hg) _ _

/-! ### Scopes -/

omit [DecidableEq ι] in
theorem replay_append (stack : List σ) (a b : List (Scope σ)) :
    replay stack (a ++ b) = (replay stack a).bind fun stack' => replay stack' b := by
  induction a generalizing stack with
  | nil => rfl
  | cons x rest ih =>
    cases x with
    | entered on => exact ih (on :: stack)
    | left on =>
      cases stack with
      | nil => rfl
      | cons S stack =>
        simp only [List.cons_append, replay]
        split
        · exact ih stack
        · rfl

/-- The scopes that have been entered and not left, the innermost first: `m_caller` of each,
that of the one whose destructor is under way included. -/
def unfinished (n : Net σ ι κ) (f : ℕ) : List σ :=
  match n.switching f with
  | some (.asked S _ true) | some (.returning S _ true) => S :: n.callers f
  | _ => n.callers f

/-- Since the history was `before` and the scopes `stack` were open, every scope was left where it was
entered. -/
def Nested (stack : List σ) (before : List (Scope σ)) (n : Net σ ι κ) (f : ℕ) : Prop :=
  ∃ since, n.scopes f = before ++ since ∧ replay stack since = some (n.unfinished f)

variable {stack : List σ} {before : List (Scope σ)}

omit [DecidableEq ι] in
theorem Nested.same (h : Nested stack before n f) (hscopes : m.scopes f = n.scopes f)
    (hunfinished : m.unfinished f = n.unfinished f) : Nested stack before m f := by
  obtain ⟨since, hsince, hreplay⟩ := h
  exact ⟨since, hscopes.trans hsince, by rw [hunfinished]; exact hreplay⟩

omit [DecidableEq ι] [DecidableEq σ] in
theorem unfinished_congr (hsw : m.switching f = n.switching f) (hcallers : m.callers f = n.callers f) :
    m.unfinished f = n.unfinished f := by
  unfold unfinished
  rw [hsw, hcallers]

omit [DecidableEq ι] in
/-- A step about another fiber, or about no scope. -/
theorem Nested.kept (h : Nested stack before n f) (hscopes : m.scopes f = n.scopes f)
    (hsw : m.switching f = n.switching f) (hcallers : m.callers f = n.callers f) :
    Nested stack before m f :=
  h.same hscopes (unfinished_congr hsw hcallers)

theorem ask_scopes (w : ι) (g : ℕ) (S : σ) (thread : Option ι) (leaving : Bool) :
    (n.ask home w g S thread leaving).scopes = n.scopes := by
  unfold Net.ask
  split <;> rfl

theorem ask_callers (w : ι) (g : ℕ) (S : σ) (thread : Option ι) (leaving : Bool) :
    (n.ask home w g S thread leaving).callers = n.callers := by
  unfold Net.ask
  split <;> rfl

theorem ask_switching (w : ι) {g : ℕ} (hg : g ≠ f) (S : σ) (thread : Option ι) (leaving : Bool) :
    (n.ask home w g S thread leaving).switching f = n.switching f := by
  unfold Net.ask
  split <;> simp [setSwitching, put, Ne.symm hg]

/-- While a destructor is under way its scope counts as open. -/
theorem unfinished_ask (w : ι) (S : σ) (thread : Option ι) (leaving : Bool) :
    (n.ask home w f S thread leaving).unfinished f =
      if leaving then S :: n.callers f else n.callers f := by
  unfold Net.ask
  split <;> cases leaving <;> simp [unfinished, setSwitching, put]

omit [DecidableEq ι] [DecidableEq σ] in
theorem unfinished_of_none (h : n.switching f = none) : n.unfinished f = n.callers f := by
  simp [unfinished, h]

omit [DecidableEq ι] in
theorem Nested.snoc (h : Nested stack before n f) {x : Scope σ} {o : List σ}
    (hscopes : m.scopes f = n.scopes f ++ [x])
    (hreplay : replay (n.unfinished f) [x] = some o) (hopen : m.unfinished f = o) :
    Nested stack before m f := by
  obtain ⟨since, hsince, hbefore⟩ := h
  refine ⟨since ++ [x], by rw [hscopes, hsince, List.append_assoc], ?_⟩
  rw [replay_append, hbefore, hopen]
  exact hreplay

omit [DecidableEq ι] in
theorem Nested.enter (h : Nested stack before n f) (hsw : n.switching f = none) (on : σ) :
    Nested stack before (n.enter f on) f := by
  refine h.snoc (x := .entered on) (o := on :: n.callers f) ?_ ?_ ?_
  · simp [Net.enter]
  · rw [unfinished_of_none hsw]
    rfl
  · have hsame : (n.enter f on).switching f = none := hsw
    rw [unfinished_of_none hsame]
    simp [Net.enter]

/-- `switchTo`, of whatever fiber, from a body that leaves no scope with it. -/
theorem Nested.ask (h : Nested stack before n f) (w : ι) (g : ℕ) (S : σ) (thread : Option ι)
    (hsw : n.switching g = none) : Nested stack before (n.ask home w g S thread false) f := by
  by_cases hg : g = f
  · subst hg
    refine h.same (by rw [ask_scopes]) ?_
    rw [unfinished_ask, unfinished_of_none hsw]
    rfl
  · exact h.kept (by rw [ask_scopes]) (ask_switching w hg S thread false) (by rw [ask_callers])

/-- A destructor begins: its scope is open until it returns. -/
theorem Nested.leave (h : Nested stack before n f) (w : ι) (g : ℕ) {S : σ} {rest : List σ}
    (hsw : n.switching g = none) (hcallers : n.callers g = S :: rest) :
    Nested stack before
      ({n with callers := Function.update n.callers g rest}.ask home w g S none true) f := by
  by_cases hg : g = f
  · subst hg
    refine h.same (by rw [ask_scopes]) ?_
    rw [unfinished_ask, unfinished_of_none hsw, hcallers]
    simp
  · refine h.kept (by rw [ask_scopes]) (ask_switching w hg S none true) ?_
    rw [ask_callers]
    exact Function.update_of_ne (Ne.symm hg) _ _

omit [DecidableEq ι] in
/-- `switchTo` returns on the scheduler it was called for, and with it the destructor. -/
theorem Nested.back (h : Nested stack before n f) {S : σ} {thread : Option ι} {leaving : Bool}
    (hsw : n.switching f = some (.returning S thread leaving)) :
    Nested stack before (n.back f S leaving) f := by
  have hnone : (n.back f S leaving).switching f = none := by simp [Net.back, setSwitching]
  cases leaving with
  | false =>
    refine h.same rfl ?_
    rw [unfinished_of_none hnone]
    simp [unfinished, hsw, Net.back, setSwitching]
  | true =>
    refine h.snoc (x := .left S) (o := n.callers f) ?_ ?_ ?_
    · simp [Net.back, setSwitching]
    · simp [unfinished, hsw, replay]
    · rw [unfinished_of_none hnone]
      rfl

theorem step_nested {a : Action σ ι κ} (htracked : Tracked home n f)
    (h : Nested stack before n f) (hstep : (machine κ home).step n a = some m) :
    Nested stack before m f := by
  cases stepped_of_step hstep with
  | switchTo w g slot S thread hpc hsw => exact h.ask w g S thread hsw
  | stay w g slot hpc hsw =>
    by_cases hg : g = f
    · subst hg
      exact h.enter hsw (home w)
    · exact h.kept (Function.update_of_ne (Ne.symm hg) _ _) rfl
        (Function.update_of_ne (Ne.symm hg) _ _)
  | enter w g slot S hpc hsw =>
    have hentered : Nested stack before (n.enter g (home w)) f := by
      by_cases hg : g = f
      · subst hg
        exact h.enter hsw (home w)
      · exact h.kept (Function.update_of_ne (Ne.symm hg) _ _) rfl
          (Function.update_of_ne (Ne.symm hg) _ _)
    exact hentered.ask w g S none hsw
  | leave w g slot S rest hpc hsw hcallers => exact h.leave w g hsw hcallers
  | yield w g slot S thread leaving s hpc hsw hbodied =>
    by_cases hg : g = f
    · subst hg
      refine h.same rfl ?_
      cases leaving <;> simp [unfinished, hsw, setSwitching, put]
    · exact h.kept rfl (Function.update_of_ne (Ne.symm hg) _ _) rfl
  | back w g slot S thread leaving hpc hsw =>
    by_cases hg : g = f
    · subst hg
      obtain ⟨hhome, _⟩ := htracked.stage.returns hpc hsw
      rw [hhome]
      exact h.back hsw
    · refine h.kept ?_ (Function.update_of_ne (Ne.symm hg) _ _) rfl
      cases leaving with
      | false => rfl
      | true => exact Function.update_of_ne (Ne.symm hg) _ _
  | _ => exact h.kept rfl rfl rfl

/-! ### Runs -/

/-- The fiber executes on `w`, and nobody else has it or has scheduled it. -/
structure Executing (n : Net σ ι κ) (f : ℕ) (w : ι) : Prop where
  made : f < n.made
  running : ∃ slot, (n.worker w).pc = .running f slot
  outside : n.switching f = none
  unqueued : n.Unqueued f
  held : n.HeldBy f w

/-- In the body of the fiber, on `w`, `S->switchTo(thread)` is about to return. -/
def Returns (n : Net σ ι κ) (f : ℕ) (w : ι) (S : σ) (thread : Option ι) : Prop :=
  (∃ slot, (n.worker w).pc = .running f slot) ∧
    ∃ leaving, n.switching f = some (.returning S thread leaving)

/-- From any state in which the fiber executes, on every run in which nobody else schedules it:
wherever `S->switchTo(thread)` returns in it, it is on `S`, and on the thread asked for; and
every scope it leaves it leaves on the scheduler it was on when the scope was entered. -/
theorem switchTo_delivers (home : ι → σ) (f : ℕ) (v : ι) (n m : Net σ ι κ)
    (acts : List (Action σ ι κ)) (hexecuting : n.Executing f v)
    (halone : (machine κ home).Along (Undisturbed f) n acts)
    (hrun : (machine κ home).run n acts = some m) :
    (∀ w S thread, m.Returns f w S thread → home w = S ∧ ∀ t, thread = some t → w = t) ∧
    ∃ since stack, m.scopes f = n.scopes f ++ since ∧ replay (n.callers f) since = some stack := by
  have hstart : Tracked home n f ∧ Nested (n.callers f) (n.scopes f) n f := by
    refine ⟨⟨hexecuting.made, .held v hexecuting.outside hexecuting.unqueued hexecuting.held⟩,
      [], by simp, ?_⟩
    rw [unfinished_of_none hexecuting.outside]
    rfl
  obtain ⟨htracked, since, hsince, hreplay⟩ :=
    Machine.run_invariant
      (fun n a m (h : Tracked home n f ∧ Nested _ _ n f) hrule hstep =>
        ⟨step_tracked h.1 hrule hstep, step_nested h.1 h.2 hstep⟩)
      hstart halone hrun
  refine ⟨fun w S thread hreturns => ?_, since, _, hsince, hreplay⟩
  obtain ⟨⟨slot, hpc⟩, leaving, hsw⟩ := hreturns
  obtain ⟨hhome, hthread, _⟩ := htracked.stage.returns hpc hsw
  refine ⟨hhome, fun t ht => ?_⟩
  rcases hthread with hnone | hsome
  · exact absurd (hnone.symm.trans ht) (by simp)
  · exact Option.some.inj (hsome.symm.trans ht)

/-- Nobody schedules anything. -/
theorem undisturbed_of_quiet (f : ℕ) {acts : List (Action σ ι κ)}
    (h : acts.all (·.call?.isNone) = true) (n : Net σ ι κ) :
    (machine κ home).Along (Undisturbed f) n acts := by
  induction acts generalizing n with
  | nil => exact trivial
  | cons a rest ih =>
    obtain ⟨ha, hrest⟩ := Bool.and_eq_true_iff.mp h
    refine ⟨fun S thread hcall => ?_, fun m _ => ih hrest m⟩
    simp [hcall] at ha

/-- Two schedulers with a worker each; `false` comes into the body of fiber 0. -/
def setOut : List (Action Bool Bool ℕ) :=
  [.start false, .start true, .outside false (.make 0),
    .outside false (.schedule (.fiber 0) none), .work false, .work false, .work false]

/-- The fiber enters a scope of scheduler `true` and leaves it. -/
def thereAndBack : List (Action Bool Bool ℕ) :=
  [.body false (.enterScope (some true)), .body false .resume, .work false, .work false,
    .work false, .work false, .work false, .work true, .work true, .work true, .body true .resume,
    .body true .leaveScope, .body true .resume, .work true, .work true, .work true, .work true,
    .work true, .work false, .work false, .work false, .body false .resume]

theorem thereAndBack_delivers :
    ∃ n m, (machine ℕ id).run .initial setOut = some n ∧
      (machine ℕ id).run n thereAndBack = some m ∧
      m.scopes 0 = [.entered false, .left false] ∧
      (∀ w S thread, m.Returns 0 w S thread → w = S ∧ ∀ t, thread = some t → w = t) ∧
      ∃ since stack, m.scopes 0 = n.scopes 0 ++ since ∧ replay (n.callers 0) since = some stack := by
  refine ⟨_, _, rfl, rfl, rfl, switchTo_delivers id 0 false _ _ thereAndBack ?_
    (undisturbed_of_quiet 0 rfl _) rfl⟩
  refine ⟨Nat.one_pos, ⟨.ft, rfl⟩, rfl, fun S => ?_, ⟨.inl rfl, fun v hv => ?_, ?_, fun _ _ => rfl⟩⟩
  · cases S <;> rfl
  · cases v with
    | false => exact absurd rfl hv
    | true => rintro (h | h) <;> cases h
  · intro _ h
    cases h

end Net
end SimpleHttpServer.Scheduler
