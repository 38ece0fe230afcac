import SimpleHttpServer.Fiber.Switch

/-! Where a fiber goes when it leaves.

A `use_caller` fiber is entered from the main fiber and the others from the
scheduler fiber, and each leaves through the slot it was entered through, its
*home*: `CallerMainFunc` goes back to the main fiber, `MainFunc` and the yields to
the scheduler fiber. `reset` installs `MainFunc` whatever the fiber is, so a
`use_caller` fiber that has been reset leaves for the scheduler fiber. That is its
home only on a thread whose scheduler fiber is the main fiber. -/
namespace SimpleHttpServer.FiberThread
variable {κ : Type}

/-- Fibers are entered the way they were constructed for, and only those that are not
`use_caller` yield. -/
def Proper (s : FiberThread κ) : Act κ → Prop
  | .call f => s.threadFiber = some s.running ∧ (s.fiber f).kind = .caller
  | .swapIn f => s.schedulerFiber = some s.running ∧ (s.fiber f).kind = .plain
  | .hold f => s.schedulerFiber = some s.running ∧ (s.fiber f).kind = .plain
  | .yieldTo _ => (s.fiber s.running).kind = .plain
  | _ => True

/-- A `use_caller` fiber whose body ends is in `CallerMainFunc`, not in the `MainFunc` of a reset,
or the scheduler fiber is the main fiber. -/
def EndsAtHome (s : FiberThread κ) : Act κ → Prop
  | .finish _ => (s.fiber s.running).kind = .caller →
      (s.frame s.running).map Prod.fst = some .mainFunc → s.schedulerFiber = s.threadFiber
  | _ => True

instance (s : FiberThread κ) : (a : Act κ) → Decidable (Proper s a)
  | .call f =>
    inferInstanceAs (Decidable (s.threadFiber = some s.running ∧ (s.fiber f).kind = .caller))
  | .swapIn f | .hold f =>
    inferInstanceAs (Decidable (s.schedulerFiber = some s.running ∧ (s.fiber f).kind = .plain))
  | .yieldTo _ => inferInstanceAs (Decidable ((s.fiber s.running).kind = .plain))
  | .construct _ _ | .reset _ _ | .finish _ => inferInstanceAs (Decidable True)

instance (s : FiberThread κ) : (a : Act κ) → Decidable (EndsAtHome s a)
  | .finish _ => inferInstanceAs (Decidable ((s.fiber s.running).kind = .caller →
      (s.frame s.running).map Prod.fst = some .mainFunc → s.schedulerFiber = s.threadFiber))
  | .construct _ _ | .reset _ _ | .call _ | .swapIn _ | .yieldTo _ | .hold _ =>
    inferInstanceAs (Decidable True)

/-- The fiber that enters `f`, on a thread with the main fiber 0 and the scheduler fiber `c`. -/
def home (c : ℕ) (s : FiberThread κ) (f : ℕ) : ℕ := if (s.fiber f).kind = .plain then c else 0

/-- A fiber that has been entered and has not left: its home is behind the switch into it. -/
structure Awaited (c : ℕ) (s : FiberThread κ) (f : ℕ) (h : ℕ) : Prop where
  home : s.home c f = h
  state : (s.fiber f).state = .exec
  frame : ∃ fn, s.frame f = some (fn, f) ∧ ((s.fiber f).kind = .plain → fn = .mainFunc)
  entered : ∃ k how, s.entered f = some (k, h) ∧ (s.fiber h).ctx = .after k ∧
    s.switches[k]? = some ⟨h, how⟩ ∧ how ≠ .finish

/-- A fiber that is nowhere on the way to where the thread is. -/
inductive Parked (s : FiberThread κ) (f : ℕ) : Prop
  | fresh (fn : EntryFunc) (h : (s.fiber f).ctx = .entry fn)
      (hplain : (s.fiber f).kind = .plain → fn = .mainFunc)
  | yielded (k : ℕ) (h : (s.fiber f).ctx = .after k) (hk : s.switches[k]? = some ⟨f, .yield⟩)
      (hframe : s.frame f = some (.mainFunc, f))
  | ended (k : ℕ) (h : (s.fiber f).ctx = .after k) (hk : s.switches[k]? = some ⟨f, .finish⟩)

/-- The fibers on the way from the main fiber to where the thread is, the last one entered first. -/
inductive Path (c : ℕ) (s : FiberThread κ) : List ℕ → Prop
  | main : Path c s [0]
  | cons {f h : ℕ} {l : List ℕ} (hnew : f ∉ h :: l) (hf : Awaited c s f h) (hl : Path c s (h :: l)) :
      Path c s (f :: h :: l)

/-- A thread that is where its switches say it is, `l` being the way there. -/
structure Placed (c : ℕ) (s : FiberThread κ) (l : List ℕ) : Prop where
  main : s.threadFiber = some 0
  sched : s.schedulerFiber = some c
  live : s.halted = false
  inside : ∀ f ∈ l, f < s.made
  schedMade : c < s.made
  mainKind : (s.fiber 0).kind = .main
  schedKind : c ≠ 0 → (s.fiber c).kind = .caller
  kinds : ∀ f, f ≠ 0 → (s.fiber f).kind ≠ .main
  mainFrame : s.frame 0 = none
  this : s.tFiber = some s.running
  head : l.head? = some s.running
  path : Path c s l
  parked : ∀ f < s.made, f ∉ l → Parked s f

/-! ### What a step leaves alone -/

/-- A fiber that is what it was, but for its context. -/
structure Same (s t : FiberThread κ) (f : ℕ) : Prop where
  state : (t.fiber f).state = (s.fiber f).state
  kind : (t.fiber f).kind = (s.fiber f).kind
  frame : t.frame f = s.frame f
  entered : t.entered f = s.entered f

/-- The switches made so far are still there. -/
def Extends (s t : FiberThread κ) : Prop :=
  ∀ (k : ℕ) (w : Switch), s.switches[k]? = some w → t.switches[k]? = some w

theorem Awaited.kept {c f h : ℕ} {s t : FiberThread κ} (ha : Awaited c s f h) (hsame : Same s t f)
    (hctx : (t.fiber h).ctx = (s.fiber h).ctx) (hext : Extends s t) : Awaited c t f h := by
  refine ⟨?_, hsame.state.trans ha.state, ?_, ?_⟩
  · rw [← ha.home, FiberThread.home, FiberThread.home, hsame.kind]
  · rw [hsame.frame, hsame.kind]
    exact ha.frame
  · obtain ⟨k, how, hentered, hslot, hk, hhow⟩ := ha.entered
    exact ⟨k, how, hsame.entered.trans hentered, hctx.trans hslot, hext k _ hk, hhow⟩

theorem Path.zero_mem {c : ℕ} {s : FiberThread κ} {l : List ℕ} (h : Path c s l) : 0 ∈ l := by
  induction h with
  | main => exact List.mem_singleton.mpr rfl
  | cons _ _ _ ih => exact List.mem_cons_of_mem _ ih

theorem Path.kept {c : ℕ} {s t : FiberThread κ} {l : List ℕ} (h : Path c s l)
    (hsame : ∀ f ∈ l, Same s t f) (hctx : ∀ f ∈ l.tail, (t.fiber f).ctx = (s.fiber f).ctx)
    (hext : Extends s t) : Path c t l := by
  induction h with
  | main => exact .main
  | @cons f h l hnew hf _ ih =>
    refine .cons hnew (hf.kept (hsame f (List.mem_cons_self ..))
      (hctx h (List.mem_cons_self ..)) hext) (ih ?_ ?_)
    · exact fun g hg => hsame g (List.mem_cons_of_mem f hg)
    · exact fun g hg => hctx g (List.mem_cons_of_mem h hg)

theorem Parked.kept {f : ℕ} {s t : FiberThread κ} (h : Parked s f)
    (hctx : (t.fiber f).ctx = (s.fiber f).ctx) (hkind : (t.fiber f).kind = (s.fiber f).kind)
    (hframe : t.frame f = s.frame f) (hext : Extends s t) : Parked t f := by
  cases h with
  | fresh fn h hplain =>
    refine .fresh fn (hctx.trans h) ?_
    rw [hkind]
    exact hplain
  | yielded k h hk hf => exact .yielded k (hctx.trans h) (hext k _ hk) (hframe.trans hf)
  | ended k h hk => exact .ended k (hctx.trans h) (hext k _ hk)

theorem extends_saved (how : How) (save : ℕ) (s : FiberThread κ) : Extends s (s.saved how save) :=
  fun _ _ hk => getElem?_saved how save hk

/-- Nobody awaits the main fiber, which has no entry function to leave. -/
theorem Awaited.ne_main {c f h : ℕ} {s : FiberThread κ} (ha : Awaited c s f h)
    (hmain : s.frame 0 = none) : f ≠ 0 := by
  intro hzero
  obtain ⟨fn, hframe, _⟩ := ha.frame
  rw [hzero, hmain] at hframe
  cases hframe

/-- A way that starts with the main fiber ends with it. -/
theorem Path.from_main {c : ℕ} {s : FiberThread κ} {l : List ℕ} (h : Path c s (0 :: l))
    (hmain : s.frame 0 = none) : l = [] := by
  cases h with
  | main => rfl
  | cons _ hf _ => exact absurd rfl (hf.ne_main hmain)

theorem Path.tail {c f h : ℕ} {s : FiberThread κ} {l : List ℕ} (hp : Path c s (f :: h :: l)) :
    Path c s (h :: l) := by
  cases hp with
  | cons _ _ hl => exact hl

/-! ### Entering -/

/-- What a switch from the stack of `h` to a fiber `f` does to the thread. -/
structure Into (how : How) (h f : ℕ) (s t : FiberThread κ) : Prop where
  threadFiber : t.threadFiber = s.threadFiber
  schedulerFiber : t.schedulerFiber = s.schedulerFiber
  made : t.made = s.made
  this : t.tFiber = some f
  running : t.running = f
  fiber : t.fiber f = {s.fiber f with state := .exec}
  from_ : t.fiber h = {s.fiber h with ctx := .after s.switches.length}
  others : ∀ g, g ≠ f → g ≠ h → t.fiber g = s.fiber g
  frame : ∃ fn, t.frame f = some (fn, f) ∧ ((s.fiber f).kind = .plain → fn = .mainFunc)
  frames : ∀ g, g ≠ f → t.frame g = s.frame g
  entered : t.entered f = some (s.switches.length, h)
  entries : ∀ g, g ≠ f → t.entered g = s.entered g
  switch : t.switches[s.switches.length]? = some ⟨h, how⟩
  kept : Extends s t
  live : t.halted = false

/-- A parked fiber is entered, unless it has ended: then the thread is at "never reach". -/
theorem Parked.enter {f h : ℕ} {s : FiberThread κ} (hp : Parked s f) (hne : f ≠ h)
    (hrunning : s.running = h) (how : How) :
    Into how h f s ((s.enter f).swapcontext how h f) ∨
      ((s.enter f).swapcontext how h f).halted = true := by
  have hctx : ∀ ctx, (s.fiber f).ctx = ctx → ((s.enter f).fiber f).ctx = ctx := by
    intro ctx h
    rw [enter_fiber]
    exact h
  have hfiber : ((s.enter f).saved how h).fiber f = {s.fiber f with state := .exec} := by
    rw [saved_of_ne hne, enter_fiber]
  have hfrom : ((s.enter f).saved how h).fiber h =
      {s.fiber h with ctx := .after s.switches.length} := by
    rw [saved_fiber, enter_of_ne hne.symm]
    rfl
  have hothers : ∀ g, g ≠ f → g ≠ h → ((s.enter f).saved how h).fiber g = s.fiber g := by
    intro g hgf hgh
    rw [saved_of_ne hgh, enter_of_ne hgf]
  have hlast : ((s.enter f).saved how h).switches[s.switches.length]? = some ⟨h, how⟩ := by
    rw [← hrunning]
    exact getElem?_saved_last how h (s := s.enter f)
  have hentered : ((s.enter f).saved how h).entered f = some (s.switches.length, h) := by
    rw [← hrunning]
    exact Function.update_self ..
  have hentries : ∀ g, g ≠ f → ((s.enter f).saved how h).entered g = s.entered g :=
    fun g hg => Function.update_of_ne hg ..
  have hext : Extends s ((s.enter f).saved how h) := extends_saved how h (s.enter f)
  cases hp with
  | fresh fn hfresh hplain =>
    rw [swapcontext_entry (hctx _ hfresh) hne (show (s.enter f).tFiber = some f from rfl)]
    exact .inl ⟨rfl, rfl, rfl, rfl, rfl, hfiber, hfrom, hothers,
      ⟨fn, Function.update_self .., hplain⟩, fun g hg => Function.update_of_ne hg ..,
      hentered, hentries, hlast, hext, rfl⟩
  | yielded k hyielded hk hframe =>
    rw [swapcontext_after (hctx _ hyielded) hne (s := s.enter f) hk]
    refine .inl ⟨rfl, rfl, rfl, rfl, rfl, hfiber, hfrom, hothers, ⟨.mainFunc, hframe, fun _ => rfl⟩,
      fun _ _ => rfl, hentered, hentries, hlast, hext, ?_⟩
    simp only [halted, hext k _ hk]
    rfl
  | ended k hended hk =>
    rw [swapcontext_after (hctx _ hended) hne (s := s.enter f) hk]
    refine .inr ?_
    simp only [halted, hext k _ hk]
    rfl

/-- The thread on the stack of a fiber that was entered from its home. -/
theorem Into.placed {how : How} {c f h : ℕ} {l : List ℕ} {s t : FiberThread κ}
    (hi : Into how h f s t) (hs : Placed c s (h :: l)) (hmade : f < s.made) (hnew : f ∉ h :: l)
    (hhome : home c s f = h) (hhow : how ≠ .finish) : Placed c t (f :: h :: l) := by
  obtain ⟨hfh, hfl⟩ := List.ne_and_not_mem_of_not_mem_cons hnew
  have hkind : ∀ g, (t.fiber g).kind = (s.fiber g).kind := by
    intro g
    by_cases hgf : g = f
    · rw [hgf, hi.fiber]
    · by_cases hgh : g = h
      · rw [hgh, hi.from_]
      · rw [hi.others g hgf hgh]
  have hstate : ∀ g, g ≠ f → (t.fiber g).state = (s.fiber g).state := by
    intro g hgf
    by_cases hgh : g = h
    · rw [hgh, hi.from_]
    · rw [hi.others g hgf hgh]
  have hsame : ∀ g, g ≠ f → Same s t g :=
    fun g hg => ⟨hstate g hg, hkind g, hi.frames g hg, hi.entries g hg⟩
  have hne : ∀ g ∈ h :: l, g ≠ f := fun g hg hgf => hnew (hgf ▸ hg)
  have hnodup : h ∉ l := by
    cases hs.path with
    | main => exact List.not_mem_nil
    | cons hfresh _ _ => exact hfresh
  have hpath : Path c t (h :: l) := by
    refine hs.path.kept (fun g hg => hsame g (hne g hg)) (fun g hg => ?_) hi.kept
    rw [hi.others g (hne g (List.mem_cons_of_mem h hg)) (fun hgh => hnodup (hgh ▸ hg))]
  have hawaited : Awaited c t f h := by
    refine ⟨?_, ?_, ?_, ⟨s.switches.length, how, hi.entered, ?_, hi.switch, hhow⟩⟩
    · rw [← hhome, FiberThread.home, FiberThread.home, hkind]
    · rw [hi.fiber]
    · rw [hkind]
      exact hi.frame
    · rw [hi.from_]
  refine ⟨hi.threadFiber.trans hs.main, hi.schedulerFiber.trans hs.sched, hi.live, ?_, ?_,
    (hkind 0).trans hs.mainKind, fun hc => (hkind c).trans (hs.schedKind hc), ?_, ?_, ?_, ?_,
    .cons hnew hawaited hpath, ?_⟩
  · rw [hi.made]
    intro g hg
    rcases List.mem_cons.mp hg with rfl | hg
    · exact hmade
    · exact hs.inside g hg
  · rw [hi.made]
    exact hs.schedMade
  · intro g hg
    rw [hkind]
    exact hs.kinds g hg
  · rw [hi.frames 0 (hne 0 hs.path.zero_mem)]
    exact hs.mainFrame
  · rw [hi.this, hi.running]
  · rw [hi.running]
    rfl
  · intro g hg hout
    obtain ⟨hgf, hgl⟩ := List.ne_and_not_mem_of_not_mem_cons hout
    have hgh : g ≠ h := fun hgh => hgl (hgh ▸ List.mem_cons_self ..)
    rw [hi.made] at hg
    have hfiber := hi.others g hgf hgh
    exact (hs.parked g hg hgl).kept (by rw [hfiber]) (hkind g) (hi.frames g hgf) hi.kept

/-! ### Leaving -/

/-- What a switch off the stack of `f` for good or for a yield does to the thread, where it goes to
`h` and the fiber has the record `r` but for its context. -/
structure OutOf (how : How) (f h k : ℕ) (r : Member κ) (s t : FiberThread κ) : Prop where
  threadFiber : t.threadFiber = s.threadFiber
  schedulerFiber : t.schedulerFiber = s.schedulerFiber
  made : t.made = s.made
  this : t.tFiber = some h
  running : t.running = h
  resumed : t.resumed = some (.after k)
  fiber : t.fiber f = {r with ctx := .after s.switches.length}
  others : ∀ g, g ≠ f → t.fiber g = s.fiber g
  frame : t.frame = s.frame
  entered : t.entered = s.entered
  returns : t.returns = s.returns
  switch : t.switches[s.switches.length]? = some ⟨f, how⟩
  kept : Extends s t
  live : t.halted = false

/-- A fiber that leaves for the one that awaits it arrives there. -/
theorem Awaited.leave {c f h : ℕ} {s : FiberThread κ} (ha : Awaited c s f h) (hne : f ≠ h)
    (hrunning : s.running = f) (how : How) (r : Member κ) :
    ∃ k, s.entered f = some (k, h) ∧
      OutOf how f h k r s
        ({s.setFiber f r with tFiber := some h}.swapcontext how f h) := by
  obtain ⟨k, how', hentered, hslot, hk, hhow⟩ := ha.entered
  let u : FiberThread κ := {s.setFiber f r with tFiber := some h}
  have hfiber : u.fiber f = r := Function.update_self ..
  have hothers : ∀ g, g ≠ f → u.fiber g = s.fiber g := fun g hg => Function.update_of_ne hg ..
  have hctx : (u.fiber h).ctx = .after k := by
    rw [hothers h hne.symm]
    exact hslot
  have hext : Extends s (u.saved how f) := extends_saved how f u
  refine ⟨k, hentered, ?_⟩
  rw [swapcontext_after hctx hne.symm (s := u) hk]
  refine ⟨rfl, rfl, rfl, rfl, rfl, rfl, ?_, ?_, rfl, rfl, rfl, ?_, hext, ?_⟩
  · show (u.saved how f).fiber f = _
    rw [saved_fiber, hfiber]
    rfl
  · intro g hg
    exact (show (u.saved how f).fiber g = u.fiber g from saved_of_ne hg).trans (hothers g hg)
  · rw [← hrunning]
    exact getElem?_saved_last how s.running (s := u)
  · simp only [halted, hext k _ hk]
    cases how' with
    | finish => exact absurd rfl hhow
    | call => rfl
    | swapIn => rfl
    | yield => rfl

/-- The thread behind the switch that had entered the fiber it has left. -/
theorem OutOf.placed {how : How} {c f h k : ℕ} {l : List ℕ} {r : Member κ} {s t : FiberThread κ}
    (ho : OutOf how f h k r s t) (hs : Placed c s (f :: h :: l)) (hr : r.kind = (s.fiber f).kind)
    (hhow : how = .finish ∨ how = .yield ∧ (s.fiber f).kind = .plain) :
    Placed c (noted s t) (h :: l) := by
  cases hs.path with
  | cons hnew hf hl =>
    obtain ⟨hfh, hfl⟩ := List.ne_and_not_mem_of_not_mem_cons hnew
    have hkind : ∀ g, ((noted s t).fiber g).kind = (s.fiber g).kind := by
      intro g
      by_cases hgf : g = f
      · rw [hgf]
        exact (congrArg Member.kind ho.fiber).trans hr
      · exact congrArg Member.kind (ho.others g hgf)
    have hne : ∀ g ∈ h :: l, g ≠ f := fun g hg hgf => hnew (hgf ▸ hg)
    have hsame : ∀ g ∈ h :: l, Same s (noted s t) g := by
      intro g hg
      exact ⟨congrArg Member.state (ho.others g (hne g hg)), hkind g, congrFun ho.frame g,
        congrFun ho.entered g⟩
    have hpath : Path c (noted s t) (h :: l) := by
      refine hl.kept hsame (fun g hg => ?_) ho.kept
      exact congrArg Member.ctx (ho.others g (hne g (List.mem_cons_of_mem h hg)))
    refine ⟨ho.threadFiber.trans hs.main, ho.schedulerFiber.trans hs.sched, ho.live, ?_, ?_,
      (hkind 0).trans hs.mainKind, fun hc => (hkind c).trans (hs.schedKind hc), ?_,
      (congrFun ho.frame 0).trans hs.mainFrame, ?_, ?_, hpath, ?_⟩
    · intro g hg
      show g < t.made
      rw [ho.made]
      exact hs.inside g (List.mem_cons_of_mem f hg)
    · show c < t.made
      rw [ho.made]
      exact hs.schedMade
    · intro g hg
      rw [hkind]
      exact hs.kinds g hg
    · show t.tFiber = some t.running
      rw [ho.this, ho.running]
    · show some h = some t.running
      rw [ho.running]
    · intro g hg hout
      have hctx : ((noted s t).fiber f).ctx = .after s.switches.length :=
        congrArg Member.ctx ho.fiber
      by_cases hgf : g = f
      · subst hgf
        rcases hhow with rfl | ⟨rfl, hplain⟩
        · exact .ended _ hctx ho.switch
        · obtain ⟨fn, hframe, hmain⟩ := hf.frame
          refine .yielded _ hctx ho.switch ?_
          show t.frame g = _
          rw [ho.frame, hframe, hmain hplain]
      · have hgl : g ∉ f :: h :: l := List.not_mem_cons_of_ne_of_not_mem hgf hout
        have hmade : g < s.made := ho.made ▸ hg
        exact (hs.parked g hmade hgl).kept (congrArg Member.ctx (ho.others g hgf)) (hkind g)
          (congrFun ho.frame g) ho.kept

/-! ### Changes to a fiber that is not on the way -/

theorem Placed.change {c : ℕ} {l : List ℕ} {s : FiberThread κ} (hs : Placed c s l) {f n : ℕ}
    {r : Member κ} (hn : s.made ≤ n) (hnew : ∀ g < n, g ≠ f → g < s.made) (hout : f ∉ l)
    (hkind : f ≠ c ∧ r.kind ≠ .main ∨ r.kind = (s.fiber f).kind)
    (hparked : Parked {s.setFiber f r with made := n} f) :
    Placed c {s.setFiber f r with made := n} l := by
  have hothers : ∀ g, g ≠ f → (s.setFiber f r).fiber g = s.fiber g :=
    fun g hg => Function.update_of_ne hg ..
  have hself : (s.setFiber f r).fiber f = r := Function.update_self ..
  have hne : ∀ g ∈ l, g ≠ f := fun g hg hgf => hout (hgf ▸ hg)
  have hpath : Path c {s.setFiber f r with made := n} l := by
    refine hs.path.kept (fun g hg => ?_) (fun g hg => ?_) (fun _ _ hk => hk)
    · have hg := hothers g (hne g hg)
      exact ⟨congrArg Member.state hg, congrArg Member.kind hg, rfl, rfl⟩
    · exact congrArg Member.ctx (hothers g (hne g (List.mem_of_mem_tail hg)))
  refine ⟨hs.main, hs.sched, hs.live, fun g hg => Nat.lt_of_lt_of_le (hs.inside g hg) hn,
    Nat.lt_of_lt_of_le hs.schedMade hn, ?_, ?_, ?_, hs.mainFrame, hs.this, hs.head, hpath, ?_⟩
  · exact (congrArg Member.kind (hothers 0 (hne 0 hs.path.zero_mem))).trans hs.mainKind
  · intro hc
    show ((s.setFiber f r).fiber c).kind = .caller
    by_cases hcf : c = f
    · subst hcf
      rw [hself, hkind.resolve_left fun h => h.1 rfl]
      exact hs.schedKind hc
    · rw [hothers c hcf]
      exact hs.schedKind hc
  · intro g hg
    show ((s.setFiber f r).fiber g).kind ≠ .main
    by_cases hgf : g = f
    · subst hgf
      rw [hself]
      rcases hkind with hkind | hkind
      · exact hkind.2
      · rw [hkind]
        exact hs.kinds g hg
    · rw [hothers g hgf]
      exact hs.kinds g hg
  · intro g hg hgl
    by_cases hgf : g = f
    · rw [hgf]
      exact hparked
    · have hfiber := hothers g hgf
      exact (hs.parked g (hnew g hg hgf) hgl).kept (congrArg Member.ctx hfiber)
        (congrArg Member.kind hfiber) rfl fun _ _ hk => hk

/-- The thread is in its main fiber, or in one that somebody awaits. -/
theorem Placed.cases {c : ℕ} {l : List ℕ} {s : FiberThread κ} (hs : Placed c s l) :
    s.running = 0 ∧ l = [0] ∨
      ∃ h rest, l = s.running :: h :: rest ∧ s.running ∉ h :: rest ∧ Awaited c s s.running h := by
  have hhead := hs.head
  cases hs.path with
  | main => exact .inl ⟨(Option.some.inj hhead).symm, rfl⟩
  | cons hnew hf hl =>
    obtain rfl := Option.some.inj hhead
    exact .inr ⟨_, _, rfl, hnew, hf⟩

/-- A fiber that is on the way and not the main fiber is executing. -/
theorem Placed.exec {c f : ℕ} {l : List ℕ} {s : FiberThread κ} (hs : Placed c s l) (hf : f ∈ l)
    (hne : f ≠ 0) : (s.fiber f).state = .exec := by
  have hall : ∀ l, Path c s l → f ∈ l → (s.fiber f).state = .exec := by
    intro l hl hf
    induction hl with
    | main => exact absurd (List.mem_singleton.mp hf) hne
    | cons _ ha _ ih =>
      rcases List.mem_cons.mp hf with rfl | hf
      · exact ha.state
      · exact ih hf
  exact hall l hs.path hf

/-- Only the scheduler fiber and the main fiber can be where a plain fiber is entered from. -/
theorem Placed.plain_out {c f : ℕ} {l : List ℕ} {s : FiberThread κ} (hs : Placed c s l)
    (hrunning : s.running = c) (hkind : (s.fiber f).kind = .plain) : f ∉ l := by
  have hzero : f ≠ 0 := by
    intro hf
    rw [hf, hs.mainKind] at hkind
    cases hkind
  rcases hs.cases with ⟨_, rfl⟩ | ⟨h, rest, rfl, _, ha⟩
  · simpa using hzero
  · have hc : c ≠ 0 := hrunning ▸ ha.ne_main hs.mainFrame
    have hcaller := hs.schedKind hc
    have hhome : h = 0 := by
      rw [← ha.home, FiberThread.home, hrunning, hcaller]
      rfl
    subst hhome
    obtain rfl := hs.path.tail.from_main hs.mainFrame
    intro hf
    rcases List.mem_cons.mp hf with hf | hf
    · rw [hf, hrunning, hcaller] at hkind
      cases hkind
    · exact hzero (List.mem_singleton.mp hf)

/-! ### Along a run -/

/-- The thread is where its switches say it is, or at "never reach", and every fiber that left has
arrived where it was entered from. -/
structure AtHome (c : ℕ) (s : FiberThread κ) : Prop where
  here : s.halted = true ∨ ∃ l, Placed c s l
  right : ∀ r ∈ s.returns, r.Right

theorem Placed.construct {c : ℕ} {l : List ℕ} {s : FiberThread κ} (hs : Placed c s l)
    (useCaller : Bool) (cb : κ) : Placed c (s.construct useCaller cb) l := by
  refine hs.change (Nat.le_succ _) (fun g hg hne => ?_) (fun hmem => ?_) (.inl ⟨?_, ?_⟩) ?_
  · exact Nat.lt_of_le_of_ne (Nat.le_of_lt_succ hg) hne
  · exact Nat.lt_irrefl _ (hs.inside _ hmem)
  · exact Nat.ne_of_gt hs.schedMade
  · cases useCaller <;> exact nofun
  · refine .fresh _ (congrArg Member.ctx (setFiber_self ..)) fun hplain => ?_
    have hkind : (if useCaller then Kind.caller else .plain) = .plain :=
      (congrArg Member.kind (setFiber_self ..)).symm.trans hplain
    cases useCaller with
    | true => cases hkind
    | false => rfl

theorem Placed.reset {c f : ℕ} {cb : κ} {l : List ℕ} {s t : FiberThread κ} (hs : Placed c s l)
    (h : s.reset f cb = some t) : Placed c t l ∧ t.returns = s.returns := by
  unfold FiberThread.reset at h
  dsimp only at h
  split at h
  case isFalse => cases h
  case isTrue hreset =>
    obtain ⟨hkind, hstate⟩ := hreset
    cases h
    refine ⟨?_, rfl⟩
    have hout : f ∉ l := by
      intro hf
      have hne : f ≠ 0 := by
        intro hzero
        exact hkind (by rw [hzero, hs.mainKind])
      rw [hs.exec hf hne] at hstate
      simp at hstate
    refine hs.change (Nat.le_refl _) (fun g hg _ => hg) hout (.inr rfl) ?_
    exact .fresh .mainFunc (congrArg Member.ctx (setFiber_self ..)) fun _ => rfl

theorem Placed.hold {c f : ℕ} {l : List ℕ} {s : FiberThread κ} (hs : Placed c s l)
    (hmade : f < s.made) (hout : f ∉ l) : Placed c (s.hold f) l ∧ (s.hold f).returns = s.returns := by
  unfold FiberThread.hold
  dsimp only
  split
  · exact ⟨hs, rfl⟩
  · refine ⟨hs.change (Nat.le_refl _) (fun g hg _ => hg) hout (.inr rfl) ?_, rfl⟩
    have hself := setFiber_self s f {s.fiber f with state := .hold}
    refine (hs.parked f hmade hout).kept ?_ ?_ rfl fun _ _ hk => hk
    · exact (congrArg Member.ctx hself).trans rfl
    · exact (congrArg Member.kind hself).trans rfl

theorem Placed.entered {how : How} {c f : ℕ} {l : List ℕ} {s : FiberThread κ} (hs : Placed c s l)
    (hmade : f < s.made) (hnew : f ∉ l) (hhome : home c s f = s.running) (hhow : how ≠ .finish)
    (hright : ∀ r ∈ s.returns, r.Right) :
    AtHome c ((s.enter f).swapcontext how s.running f) := by
  have hreturns : ((s.enter f).swapcontext how s.running f).returns = s.returns :=
    swapcontext_returns how s.running f (s.enter f)
  have hl : ∃ rest, l = s.running :: rest := by
    rcases hs.cases with ⟨hzero, rfl⟩ | ⟨h, rest, rfl, _⟩
    · exact ⟨[], by rw [hzero]⟩
    · exact ⟨_, rfl⟩
  obtain ⟨rest, rfl⟩ := hl
  have hne := (List.ne_and_not_mem_of_not_mem_cons hnew).1
  refine ⟨?_, fun r hr => hright r (hreturns ▸ hr)⟩
  rcases (hs.parked f hmade hnew).enter hne rfl how with hinto | hover
  · exact .inr ⟨_, hinto.placed hs hmade hnew hhome hhow⟩
  · exact .inl hover

/-- The main fiber calls a `use_caller` fiber, whose home it is. -/
theorem Placed.call {c f : ℕ} {l : List ℕ} {s t : FiberThread κ} (hs : Placed c s l)
    (hmade : f < s.made) (hmain : s.threadFiber = some s.running)
    (hkind : (s.fiber f).kind = .caller) (h : s.call f = some t)
    (hright : ∀ r ∈ s.returns, r.Right) : AtHome c t := by
  have hzero : s.running = 0 := Option.some.inj (hmain.symm.trans hs.main)
  have hout : f ∉ l := by
    rcases hs.cases with ⟨_, rfl⟩ | ⟨_, _, _, _, ha⟩
    · intro hf
      rw [List.mem_singleton.mp hf, hs.mainKind] at hkind
      cases hkind
    · exact absurd hzero (ha.ne_main hs.mainFrame)
  rw [FiberThread.call, hmain] at h
  cases h
  apply hs.entered hmade hout _ (by decide) hright
  rw [FiberThread.home, hkind, hzero]
  rfl

/-- The scheduler fiber swaps a plain fiber in, whose home it is. -/
theorem Placed.swapIn {c f : ℕ} {l : List ℕ} {s t : FiberThread κ} (hs : Placed c s l)
    (hmade : f < s.made) (hsched : s.schedulerFiber = some s.running)
    (hkind : (s.fiber f).kind = .plain) (h : s.swapIn f = some t)
    (hright : ∀ r ∈ s.returns, r.Right) : AtHome c t := by
  have hc : s.running = c := Option.some.inj (hsched.symm.trans hs.sched)
  rw [FiberThread.swapIn] at h
  split at h
  case isTrue => cases h
  case isFalse =>
    rw [hsched] at h
    cases h
    apply hs.entered hmade (hs.plain_out hc hkind) _ (by decide) hright
    rw [FiberThread.home, if_pos hkind, hc]

/-- A fiber that leaves for its home has come back to where it was entered from. -/
theorem Placed.left {how : How} {c h : ℕ} {rest : List ℕ} {r : Member κ} {s : FiberThread κ}
    (hs : Placed c s (s.running :: h :: rest)) (hr : r.kind = (s.fiber s.running).kind)
    (hhow : how = .finish ∨ how = .yield ∧ (s.fiber s.running).kind = .plain)
    (hright : ∀ r ∈ s.returns, r.Right) :
    AtHome c (noted s
      ({s.setFiber s.running r with tFiber := some h}.swapcontext how s.running h)) := by
  have hout : s.running ∉ h :: rest ∧ Awaited c s s.running h := by
    rcases hs.cases with ⟨_, hl⟩ | ⟨h', rest', hl, hnew, ha⟩
    · simp at hl
    · obtain ⟨rfl, rfl⟩ := List.cons.inj (List.cons.inj hl).2
      exact ⟨hnew, ha⟩
  obtain ⟨k, hentered, ho⟩ :=
    hout.2.leave (List.ne_and_not_mem_of_not_mem_cons hout.1).1 rfl how r
  refine ⟨.inr ⟨_, ho.placed hs hr hhow⟩, fun e he => ?_⟩
  rcases List.mem_append.mp he with he | he
  · exact hright e (ho.returns ▸ he)
  · rw [List.mem_singleton.mp he]
    exact ⟨k, h, hentered, ho.resumed, ho.this⟩

theorem ended_kind (o : Outcome) (r : Member κ) : (ended o r).kind = r.kind := by
  cases o <;> rfl

theorem Placed.yieldTo {c : ℕ} {l : List ℕ} {y : Yield} {s t : FiberThread κ} (hs : Placed c s l)
    (hplain : (s.fiber s.running).kind = .plain) (h : s.yieldTo y = some t)
    (hright : ∀ r ∈ s.returns, r.Right) : AtHome c (noted s t) := by
  rcases hs.cases with ⟨hzero, _⟩ | ⟨home, rest, rfl, _, ha⟩
  · rw [hzero, hs.mainKind] at hplain
    cases hplain
  · have hhome : home = c := by
      rw [← ha.home, FiberThread.home, if_pos hplain]
    subst hhome
    rw [FiberThread.yieldTo, hs.this, Option.bind_some, if_pos ha.state] at h
    cases y with
    | ready =>
      have hout := swapOut_eq (s := s.setFiber s.running {s.fiber s.running with state := .ready})
        hs.sched .yield s.running
      dsimp only at h
      rw [hout] at h
      cases h
      exact hs.left rfl (.inr ⟨rfl, hplain⟩) hright
    | hold =>
      have hsame : s.setFiber s.running (s.fiber s.running) = s := by simp [setFiber]
      dsimp only at h
      rw [swapOut_eq hs.sched] at h
      cases h
      have hleft := hs.left (r := s.fiber s.running) rfl (.inr ⟨rfl, hplain⟩) hright
      rw [hsame] at hleft
      exact hleft

theorem Placed.finish {c : ℕ} {l : List ℕ} {o : Outcome} {s t : FiberThread κ} (hs : Placed c s l)
    (hhome : EndsAtHome s (.finish o)) (h : s.finish o = some t)
    (hright : ∀ r ∈ s.returns, r.Right) : AtHome c (noted s t) := by
  rcases hs.cases with ⟨hzero, _⟩ | ⟨home, rest, rfl, hnew, ha⟩
  · rw [FiberThread.finish, hzero, hs.mainFrame] at h
    cases h
  · obtain ⟨fn, hframe, hfn⟩ := ha.frame
    have hne := ha.ne_main hs.mainFrame
    have hkind := ended_kind o (s.fiber s.running)
    rw [FiberThread.finish, hframe] at h
    cases fn with
    | mainFunc =>
      have htarget : home = c := by
        cases hk : (s.fiber s.running).kind with
        | main => exact absurd hk (hs.kinds _ hne)
        | plain => rw [← ha.home, FiberThread.home, if_pos hk]
        | caller =>
          have hsched := hhome hk (by rw [hframe]; rfl)
          rw [hs.sched, hs.main] at hsched
          rw [← ha.home, FiberThread.home, hk, if_neg (by decide), Option.some.inj hsched]
      subst htarget
      dsimp only at h
      rw [swapOut_eq (s := s.setFiber s.running (ended o (s.fiber s.running))) hs.sched] at h
      cases h
      exact hs.left hkind (.inl rfl) hright
    | callerMainFunc =>
      have htarget : home = 0 := by
        have hk : (s.fiber s.running).kind ≠ .plain := fun hk => by cases hfn hk
        rw [← ha.home, FiberThread.home, if_neg hk]
      subst htarget
      dsimp only at h
      rw [back_eq (s := s.setFiber s.running (ended o (s.fiber s.running))) hs.main] at h
      cases h
      exact hs.left hkind (.inl rfl) hright

theorem step_atHome {c : ℕ} (s : FiberThread κ) (a : Act κ) (t : FiberThread κ)
    (hs : AtHome c s) (hproper : Proper s a) (hhome : EndsAtHome s a) (h : s.step a = some t) :
    AtHome c t := by
  obtain ⟨hlive, hgiven, h⟩ := perform_of_step h
  obtain ⟨l, hplaced⟩ := hs.here.resolve_left (by rw [hlive]; decide)
  cases a with
  | construct useCaller cb =>
    cases h
    exact ⟨.inr ⟨l, hplaced.construct useCaller cb⟩, hs.right⟩
  | reset f cb =>
    obtain ⟨ht, hreturns⟩ := hplaced.reset h
    exact ⟨.inr ⟨l, ht⟩, fun r hr => hs.right r (hreturns ▸ hr)⟩
  | call f => exact hplaced.call (of_decide_eq_true hgiven) hproper.1 hproper.2 h hs.right
  | swapIn f => exact hplaced.swapIn (of_decide_eq_true hgiven) hproper.1 hproper.2 h hs.right
  | yieldTo y =>
    obtain ⟨u, hu, rfl⟩ := Option.map_eq_some_iff.mp h
    exact hplaced.yieldTo hproper hu hs.right
  | finish o =>
    obtain ⟨u, hu, rfl⟩ := Option.map_eq_some_iff.mp h
    exact hplaced.finish hhome hu hs.right
  | hold f =>
    obtain ⟨hsched, hkind⟩ := hproper
    have hc : s.running = c := Option.some.inj (hsched.symm.trans hplaced.sched)
    cases h
    obtain ⟨ht, hreturns⟩ :=
      hplaced.hold (of_decide_eq_true hgiven) (hplaced.plain_out hc hkind)
    exact ⟨.inr ⟨l, ht⟩, fun r hr => hs.right r (hreturns ▸ hr)⟩

/-- A `use_caller` fiber that ends in `MainFunc` arrives with the scheduler fiber for `t_fiber`. -/
theorem broken_step {c : ℕ} (s : FiberThread κ) (a : Act κ) (t : FiberThread κ)
    (hs : AtHome c s) (hhome : ¬ EndsAtHome s a) (h : s.step a = some t) :
    ¬ ∀ r ∈ t.returns, r.Right := by
  obtain ⟨hlive, _, h⟩ := perform_of_step h
  obtain ⟨l, hplaced⟩ := hs.here.resolve_left (by rw [hlive]; decide)
  cases a with
  | finish o =>
    obtain ⟨u, hu, rfl⟩ := Option.map_eq_some_iff.mp h
    simp only [EndsAtHome, Classical.not_imp] at hhome
    obtain ⟨hkind, hmain, hdiffer⟩ := hhome
    rcases hplaced.cases with ⟨hzero, _⟩ | ⟨home, rest, _, _, ha⟩
    · rw [hzero, hplaced.mainFrame] at hmain
      cases hmain
    · obtain ⟨fn, hframe, _⟩ := ha.frame
      rw [hframe] at hmain
      cases hmain
      have hzero : home = 0 := by
        rw [← ha.home, FiberThread.home, hkind]
        rfl
      obtain ⟨k, _, hentered, _⟩ := ha.entered
      have hc : c ≠ 0 := by
        intro hc
        exact hdiffer (by rw [hplaced.sched, hplaced.main, hc])
      rw [FiberThread.finish, hframe] at hu
      dsimp only at hu
      rw [swapOut_eq (s := s.setFiber s.running (ended o (s.fiber s.running))) hplaced.sched] at hu
      cases hu
      intro hall
      obtain ⟨k', g, hright, _, hthis⟩ :=
        hall _ (List.mem_append_right _ (List.mem_singleton.mpr rfl))
      have hg : g = 0 := by
        rw [hentered, hzero] at hright
        cases hright
        rfl
      rw [swapcontext_tFiber, hg] at hthis
      exact hc (Option.some.inj hthis)
  | _ => exact absurd trivial hhome

theorem returns_step {s t : FiberThread κ} {a : Act κ} (h : s.step a = some t) :
    ∀ r ∈ s.returns, r ∈ t.returns := by
  obtain ⟨_, _, h⟩ := perform_of_step h
  intro r hr
  cases a with
  | construct useCaller cb =>
    cases h
    exact hr
  | reset f cb =>
    rw [FiberThread.perform, FiberThread.reset] at h
    split at h
    case isTrue =>
      cases h
      exact hr
    case isFalse => cases h
  | call f =>
    obtain ⟨m, _, rfl⟩ := Option.map_eq_some_iff.mp h
    rw [swapcontext_returns]
    exact hr
  | swapIn f =>
    rw [FiberThread.perform, FiberThread.swapIn] at h
    split at h
    case isTrue => cases h
    case isFalse =>
      obtain ⟨c, _, rfl⟩ := Option.map_eq_some_iff.mp h
      rw [swapcontext_returns]
      exact hr
  | yieldTo y =>
    obtain ⟨u, hu, rfl⟩ := Option.map_eq_some_iff.mp h
    obtain ⟨cur, _, hu⟩ := Option.bind_eq_some_iff.mp hu
    split at hu
    case isFalse => cases hu
    case isTrue =>
      cases y with
      | ready => exact List.mem_append_left _ ((swapOut_returns hu).symm ▸ hr)
      | hold => exact List.mem_append_left _ ((swapOut_returns hu).symm ▸ hr)
  | finish o =>
    obtain ⟨u, hu, rfl⟩ := Option.map_eq_some_iff.mp h
    rw [FiberThread.finish] at hu
    split at hu
    · cases hu
    · exact List.mem_append_left _ ((swapOut_returns hu).symm ▸ hr)
    · exact List.mem_append_left _ ((back_returns hu).symm ▸ hr)
  | hold f =>
    cases h
    unfold FiberThread.hold
    dsimp only
    split
    · exact hr
    · exact hr

/-- A thread of a scheduler: with its main fiber for the scheduler fiber, or with a fiber of its
own for it, whose body is `run`. -/
def schedulerThread (useCaller : Bool) (run : κ) : FiberThread κ :=
  if useCaller then callerThread run else workerThread

theorem schedulerThread_atHome (useCaller : Bool) (run : κ) :
    ∃ c, AtHome c (schedulerThread useCaller run) := by
  cases useCaller with
  | false =>
    refine ⟨0, .inr ⟨[0], rfl, rfl, rfl, ?_, Nat.zero_lt_one, rfl, fun h => absurd rfl h, ?_, rfl, rfl, rfl,
      .main, ?_⟩, fun r hr => nomatch hr⟩
    · intro f hf
      rw [List.mem_singleton.mp hf]
      exact Nat.zero_lt_one
    · intro f hf
      have hfiber : (schedulerThread false run).fiber f = ⟨.init, none, .constructor, .plain⟩ :=
        Function.update_of_ne hf ..
      rw [hfiber]
      exact nofun
    · intro f hf hout
      have hzero : f = 0 := Nat.lt_one_iff.mp hf
      exact absurd (List.mem_singleton.mpr hzero) hout
  | true =>
    have hone : (schedulerThread true run).fiber 1 =
        ⟨.init, some run, .entry .callerMainFunc, .caller⟩ := rfl
    refine ⟨1, .inr ⟨[0], rfl, rfl, rfl, ?_, Nat.lt_succ_self 1, rfl, fun _ => rfl, ?_, rfl, rfl, rfl,
      .main, ?_⟩, fun r hr => nomatch hr⟩
    · intro f hf
      rw [List.mem_singleton.mp hf]
      exact Nat.zero_lt_two
    · intro f hf
      by_cases hf1 : f = 1
      · rw [hf1, hone]
        exact nofun
      · have hfiber : (schedulerThread true run).fiber f = ⟨.init, none, .constructor, .plain⟩ :=
          (Function.update_of_ne hf1 ..).trans (Function.update_of_ne hf ..)
        rw [hfiber]
        exact nofun
    · intro f hf hout
      have hf2 : f < 2 := hf
      have hzero : f ≠ 0 := fun h => hout (List.mem_singleton.mpr h)
      have hf1 : f = 1 := by omega
      rw [hf1]
      exact .fresh .callerMainFunc (congrArg Member.ctx hone) fun hplain => by
        rw [hone] at hplain
        cases hplain

/-- Whatever fibers are made, entered, left and reset: each that yields or ends comes back to the
switch that entered it, with the fiber that made that switch for `GetThis()`, exactly if no
`use_caller` fiber ends in `MainFunc` while the scheduler fiber is not the main fiber. -/
theorem returns_iff (useCaller : Bool) (run : κ) (acts : List (Act κ)) (t : FiberThread κ)
    (hproper : (machine κ).Along Proper (schedulerThread useCaller run) acts)
    (hrun : (machine κ).run (schedulerThread useCaller run) acts = some t) :
    (∀ r ∈ t.returns, r.Right) ↔
      (machine κ).Along EndsAtHome (schedulerThread useCaller run) acts := by
  obtain ⟨c, hinitial⟩ := schedulerThread_atHome useCaller run
  refine @Machine.good_iff_along _ _ (machine κ) (AtHome c) (fun s => ∀ r ∈ s.returns, r.Right)
    Proper EndsAtHome step_atHome (fun s hs => hs.right) (fun s a t hs _ => broken_step s a t hs)
    ?_ _ _ _ hinitial hproper hrun
  intro s a t hbad hstep hall
  exact hbad fun r hr => hall r (returns_step hstep r hr)

/-- A `use_caller` fiber and a plain one, entered the way they were made for: the plain one yields,
throws, and returns after a reset. -/
def mixedRun : List (Act Unit) :=
  [.construct true (), .construct false (), .call 2, .finish .returned, .call 1, .swapIn 3,
    .yieldTo .ready, .swapIn 3, .finish .threw, .reset 3 (), .swapIn 3, .finish .returned,
    .finish .returned]

theorem mixedRun_returns :
    ∃ t, (machine Unit).run (schedulerThread true ()) mixedRun = some t ∧ t.returns.length = 5 ∧
      ∀ r ∈ t.returns, r.Right := by
  have hlength : ((machine Unit).run (schedulerThread true ()) mixedRun).map (·.returns.length) =
      some 5 := by decide
  obtain ⟨t, hrun, hfive⟩ := Option.map_eq_some_iff.mp hlength
  exact ⟨t, hrun, hfive,
    (returns_iff true () mixedRun t (by decide) hrun).mpr (by decide)⟩

/-- A `use_caller` fiber that is reset and called again. -/
def resetRun : List (Act Unit) :=
  [.construct true (), .call 2, .finish .returned, .reset 2 (), .call 2, .finish .returned]

/-- It ends in the scheduler fiber, which has not been entered yet and starts here. -/
theorem resetRun_lost :
    (machine Unit).Along Proper (schedulerThread true ()) resetRun ∧
      ((machine Unit).run (schedulerThread true ()) resetRun).map (·.returns.getLast?) =
        some (some ⟨2, some (2, 0), some (.entry .callerMainFunc), some 1⟩) ∧
      ¬ Return.Right ⟨2, some (2, 0), some (.entry .callerMainFunc), some 1⟩ :=
  ⟨by decide, by decide, by decide⟩

end SimpleHttpServer.FiberThread
