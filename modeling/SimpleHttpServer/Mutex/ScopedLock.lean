import SimpleHttpServer.Lib.Machine
import SimpleHttpServer.Lib.Tally
import SimpleHttpServer.Mutex.Mutex

/-! The guards (`ScopedLockImpl`, `ReadScopedLockImpl`, `WriteScopedLockImpl`).

A guard takes its mutex in the constructor and gives it back in the destructor;
between, `lock` and `unlock` may be called any number of times, and `m_locked` is to
say whether there is something to give back. The mutex and `m_locked` change one after
the other, with the other threads' guards at work in between.

Guards of any threads on any mutexes keep the books of each mutex (`Tracks`): inside
are the guards whose `m_locked` says so, save for a guard that is between the two
changes. So `unlock` never meets a mutex that is not held, and a mutex whose guards
are gone is free. -/
namespace SimpleHttpServer.ScopedLock

/-- The three templates: a guard of a thread, its mutex and the mode it takes it in. -/
structure Guard (ι L μ : Type) where
  owner : ι
  mutex : L
  mode : μ
  /-- `m_locked`. -/
  locked : Bool

/-- Where a thread is: `locking` in the mutex's `lock`, called by the constructor (`born`) or by
the guard's `lock`; `taken` before `m_locked = true`; `unlocking` before the mutex's `unlock`,
called by the destructor (`dying`) or by the guard's `unlock`; `given` before `m_locked = false`. -/
inductive Place
  | outside
  | locking (g : ℕ) (born : Bool)
  | taken (g : ℕ)
  | unlocking (g : ℕ) (dying : Bool)
  | given (g : ℕ) (dying : Bool)
  deriving DecidableEq

/-- The mutexes, the guards there are, and where each thread is. -/
structure State (ι L μ σ : Type) where
  mutex : L → σ
  made : ℕ
  guard : ℕ → Option (Guard ι L μ)
  place : ι → Place

inductive Act (ι L μ : Type)
  | construct (t : ι) (l : L) (m : μ)
  | lock (t : ι) (g : ℕ)
  | unlock (t : ι) (g : ℕ)
  | destroy (t : ι) (g : ℕ)
  /-- The thread goes on with the call it is in. -/
  | go (t : ι)
  /-- The mutex's `lock` throws; the classes without an error never do. -/
  | fail (t : ι)

namespace State
variable {ι L μ σ : Type} [DecidableEq ι]

def goto (s : State ι L μ σ) (t : ι) (p : Place) : State ι L μ σ :=
  {s with place := Function.update s.place t p}

def setGuard (s : State ι L μ σ) (g : ℕ) (r : Option (Guard ι L μ)) : State ι L μ σ :=
  {s with guard := Function.update s.guard g r}

/-- A thread uses its own guards, while it is in no other call. -/
def own (s : State ι L μ σ) (t : ι) (g : ℕ) : Option (Guard ι L μ) :=
  (s.guard g).filter fun r => s.place t = .outside ∧ r.owner = t

/-- `ScopedLockImpl(mutex)`. -/
def construct (s : State ι L μ σ) (t : ι) (l : L) (m : μ) : State ι L μ σ :=
  {s.setGuard s.made (some ⟨t, l, m, false⟩) with made := s.made + 1}.goto t (.locking s.made true)

/-- `lock`. -/
def lock (s : State ι L μ σ) (t : ι) (g : ℕ) (r : Guard ι L μ) : State ι L μ σ :=
  if r.locked then s else s.goto t (.locking g false)

/-- `unlock`. -/
def unlock (s : State ι L μ σ) (t : ι) (g : ℕ) (r : Guard ι L μ) : State ι L μ σ :=
  if r.locked then s.goto t (.unlocking g false) else s

/-- The destructor, which calls `unlock`. -/
def destroy (s : State ι L μ σ) (t : ι) (g : ℕ) (r : Guard ι L μ) : State ι L μ σ :=
  if r.locked then s.goto t (.unlocking g true) else s.setGuard g none

variable [DecidableEq L]

def setMutex (s : State ι L μ σ) (l : L) (x : σ) : State ι L μ σ :=
  {s with mutex := Function.update s.mutex l x}

variable (M : Lockable μ σ)

/-- The next change of the call a thread is in; none if the mutex's `unlock` is an error. -/
def go (s : State ι L μ σ) (t : ι) : Option (State ι L μ σ) :=
  match s.place t with
  | .outside => none
  | .locking g born => (s.guard g).map fun r =>
    let tried := M.attempt r.mode (s.mutex r.mutex)
    (s.setMutex r.mutex tried.2).goto t (if tried.1 then .taken g else .locking g born)
  | .taken g => (s.guard g).map fun r =>
    (s.setGuard g (some {r with locked := true})).goto t .outside
  | .unlocking g dying => (s.guard g).bind fun r =>
    (M.unlock (s.mutex r.mutex)).map fun x => (s.setMutex r.mutex x).goto t (.given g dying)
  | .given g dying => (s.guard g).map fun r =>
    (s.setGuard g (if dying then none else some {r with locked := false})).goto t .outside

/-- An exception from the mutex's `lock`: a constructor that throws leaves no guard. -/
def fail (s : State ι L μ σ) (t : ι) : Option (State ι L μ σ) :=
  match s.place t with
  | .locking g born => some ((if born then s.setGuard g none else s).goto t .outside)
  | _ => none

def step (s : State ι L μ σ) : Act ι L μ → Option (State ι L μ σ)
  | .construct t l m => if s.place t = .outside then some (s.construct t l m) else none
  | .lock t g => (s.own t g).map fun r => s.lock t g r
  | .unlock t g => (s.own t g).map fun r => s.unlock t g r
  | .destroy t g => (s.own t g).map fun r => s.destroy t g r
  | .go t => s.go M t
  | .fail t => s.fail t

/-- Free mutexes, and no guards. -/
def initial (ι L : Type) (M : Lockable μ σ) : State ι L μ σ :=
  ⟨fun _ => M.free, 0, fun _ => none, fun _ => .outside⟩

end State

/-- Threads `ι` with guards on mutexes `L` of the class `M`. -/
def machine (ι L : Type) [DecidableEq ι] [DecidableEq L] {μ σ : Type} (M : Lockable μ σ) :
    Machine (State ι L μ σ) (Act ι L μ) := ⟨State.step M⟩

/-! ### Who is inside -/

/-- A guard that says `m_locked` is inside, except before the first and behind the last change. -/
def Place.inside (p : Place) (g : ℕ) (locked : Bool) : Bool :=
  match p with
  | .taken g' => g' = g || locked
  | .given g' _ => g' ≠ g && locked
  | _ => locked

/-- The call is on this guard, if the thread is in one. -/
def Place.On (g : ℕ) : Place → Prop
  | .outside => True
  | .locking g' _ | .taken g' | .unlocking g' _ | .given g' _ => g' = g

theorem Place.On.inside {g i : ℕ} {p : Place} (h : p.On g) (hi : i ≠ g) (locked : Bool) :
    p.inside i locked = locked := by
  cases p with
  | taken g' =>
    have hg : g' = g := h
    simp [Place.inside, hg, Ne.symm hi]
  | given g' =>
    have hg : g' = g := h
    simp [Place.inside, hg, Ne.symm hi]
  | _ => rfl

namespace State
variable {ι L μ σ : Type} [DecidableEq L]

/-- The mode in which a guard is inside a mutex, if it is. -/
def entry (s : State ι L μ σ) (l : L) (g : ℕ) : Option μ :=
  (s.guard g).bind fun r =>
    if r.mutex = l ∧ (s.place r.owner).inside g r.locked = true then some r.mode else none

/-- The modes of all that are inside a mutex. -/
def modes (s : State ι L μ σ) (l : L) : Multiset μ :=
  ∑ g ∈ Finset.range s.made, (s.entry l g).elim 0 fun m => {m}

/-- The guard of the call a thread is in: there, the thread's own, and `m_locked` not yet set or
not yet cleared. -/
def Fits (s : State ι L μ σ) (t : ι) : Place → Prop
  | .outside => True
  | .locking g _ | .taken g => ∃ r, s.guard g = some r ∧ r.owner = t ∧ r.locked = false
  | .unlocking g _ | .given g _ => ∃ r, s.guard g = some r ∧ r.owner = t ∧ r.locked = true

/-- The state of every mutex stands for the guards that are inside, and these share it. -/
structure Tracks (R : σ → Multiset μ → Prop) (shares : μ → μ → Prop) (s : State ι L μ σ) :
    Prop where
  fresh : ∀ g r, s.guard g = some r → g < s.made
  fits : ∀ t, s.Fits t (s.place t)
  books : ∀ l, R (s.mutex l) (s.modes l)
  shared : ∀ l g h m m', g ≠ h → s.entry l g = some m → s.entry l h = some m' → shares m m'

/-- A thread has changed one of its guards, in a call on it. -/
structure Change (s u : State ι L μ σ) (t : ι) (g : ℕ) (r : Guard ι L μ) : Prop where
  here : s.guard g = some r
  owner : r.owner = t
  made : u.made = s.made
  guard : ∀ i, i ≠ g → u.guard i = s.guard i
  place : ∀ v, v ≠ t → u.place v = s.place v
  before : (s.place t).On g
  after : (u.place t).On g

section
variable {R : σ → Multiset μ → Prop} {shares : μ → μ → Prop}
  {s u : State ι L μ σ} {t : ι} {g : ℕ} {r : Guard ι L μ}

theorem entry_of_guard (h : s.guard g = some r) (l : L) :
    s.entry l g =
      if r.mutex = l ∧ (s.place r.owner).inside g r.locked = true then some r.mode else none := by
  rw [entry, h]
  rfl

theorem entry_of_none (h : s.guard g = none) (l : L) : s.entry l g = none := by
  rw [entry, h]
  rfl

theorem Change.entry (h : Change s u t g r) {i : ℕ} (hi : i ≠ g) (l : L) :
    u.entry l i = s.entry l i := by
  cases hx : s.guard i with
  | none => rw [entry_of_none hx, entry_of_none ((h.guard i hi).trans hx)]
  | some x =>
    rw [entry_of_guard hx, entry_of_guard ((h.guard i hi).trans hx)]
    by_cases hv : x.owner = t
    · rw [hv, h.before.inside hi, h.after.inside hi]
    · rw [h.place _ hv]

/-- The books of a mutex change by the entry of the guard. -/
theorem Change.modes (h : Change s u t g r) (hg : g < s.made) (l : L) :
    u.modes l + (s.entry l g).elim 0 (fun m => {m}) =
      s.modes l + (u.entry l g).elim 0 (fun m => {m}) := by
  unfold State.modes
  rw [h.made]
  apply Tally.sum_change_mem _ _ _ (Finset.mem_range.mpr hg)
  intro i _ hi
  rw [h.entry hi]

theorem mem_modes (hg : g < s.made) {l : L} {m : μ} (h : s.entry l g = some m) : m ∈ s.modes l := by
  apply Multiset.mem_sum.mpr
  exact ⟨g, Finset.mem_range.mpr hg, by rw [h]; exact Multiset.mem_singleton_self m⟩

omit [DecidableEq L] in
theorem Change.fits (h : Change s u t g r) {v : ι} (hv : v ≠ t) (hfits : s.Fits v (s.place v)) :
    u.Fits v (u.place v) := by
  have same : ∀ i x, s.guard i = some x → x.owner = v → u.guard i = some x := by
    intro i x hx hown
    have hi : i ≠ g := by
      intro hi
      rw [hi, h.here, Option.some.injEq] at hx
      exact hv (by rw [← hown, ← hx, h.owner])
    rw [h.guard i hi, hx]
  rw [h.place v hv]
  cases hp : s.place v with
  | outside => trivial
  | _ =>
    rw [hp] at hfits
    obtain ⟨x, hx, hown, hlocked⟩ := hfits
    exact ⟨x, same _ x hx hown, hown, hlocked⟩

theorem Tracks.change (h : Tracks R shares s) (hc : Change s u t g r)
    (hsymm : ∀ {m m'}, shares m m' → shares m' m) (hfits : u.Fits t (u.place t))
    (hbooks : ∀ l, R (u.mutex l) (u.modes l))
    (hshared : ∀ l i m m', i ≠ g → u.entry l g = some m → s.entry l i = some m' → shares m m') :
    Tracks R shares u where
  fresh := by
    intro i x hx
    rw [hc.made]
    by_cases hi : i = g
    · rw [hi]
      exact h.fresh g r hc.here
    · exact h.fresh i x (by rw [← hc.guard i hi, hx])
  fits := by
    intro v
    by_cases hv : v = t
    · rw [hv]
      exact hfits
    · exact hc.fits hv (h.fits v)
  books := hbooks
  shared := by
    intro l i j m m' hij hi hj
    by_cases hig : i = g
    · subst hig
      exact hshared l j m m' (Ne.symm hij) hi (by rw [← hc.entry (Ne.symm hij), hj])
    · by_cases hjg : j = g
      · subst hjg
        exact hsymm (hshared l i m' m hij hj (by rw [← hc.entry hij, hi]))
      · exact h.shared l i j m m' hij (by rw [← hc.entry hig, hi]) (by rw [← hc.entry hjg, hj])

/-- A change behind which the same guards are inside, and no mutex stands for others. -/
theorem Tracks.stays (h : Tracks R shares s) (hc : Change s u t g r)
    (hsymm : ∀ {m m'}, shares m m' → shares m' m) (hfits : u.Fits t (u.place t))
    (hentry : ∀ l, u.entry l g = s.entry l g) (hmutex : ∀ l, R (u.mutex l) (s.modes l)) :
    Tracks R shares u := by
  apply h.change hc hsymm hfits
  · intro l
    have hmodes := hc.modes (h.fresh g r hc.here) l
    rw [hentry, add_left_inj] at hmodes
    rw [hmodes]
    exact hmutex l
  · intro l i m m' hi hm hm'
    rw [hentry] at hm
    exact h.shared l g i m m' (Ne.symm hi) hm hm'

/-- The guard gets inside. -/
theorem Tracks.enters (h : Tracks R shares s) (hc : Change s u t g r)
    (hsymm : ∀ {m m'}, shares m m' → shares m' m) (hfits : u.Fits t (u.place t))
    (hbefore : ∀ l, s.entry l g = none)
    (hafter : ∀ l, u.entry l g = if r.mutex = l then some r.mode else none)
    (hother : ∀ l, l ≠ r.mutex → u.mutex l = s.mutex l)
    (hbooks : R (u.mutex r.mutex) (r.mode ::ₘ s.modes r.mutex))
    (hshared : ∀ m ∈ s.modes r.mutex, shares r.mode m) : Tracks R shares u := by
  have hmodes : ∀ l, u.modes l = s.modes l + (u.entry l g).elim 0 fun m => {m} := by
    intro l
    have := hc.modes (h.fresh g r hc.here) l
    rwa [hbefore, Option.elim_none, add_zero] at this
  apply h.change hc hsymm hfits
  · intro l
    rw [hmodes, hafter]
    by_cases hl : r.mutex = l
    · rw [if_pos hl, ← hl, Option.elim_some, add_comm, Multiset.singleton_add]
      exact hbooks
    · rw [if_neg hl, Option.elim_none, add_zero, hother l (Ne.symm hl)]
      exact h.books l
  · intro l i m m' hi hm hm'
    rw [hafter] at hm
    by_cases hl : r.mutex = l
    · rw [if_pos hl, Option.some.injEq] at hm
      rw [← hm]
      apply hshared
      have hmade : i < s.made := by
        obtain ⟨x, hx, -⟩ := Option.bind_eq_some_iff.mp hm'
        exact h.fresh i x hx
      rw [hl]
      exact mem_modes hmade hm'
    · rw [if_neg hl] at hm
      cases hm

/-- The guard gets out. -/
theorem Tracks.leaves [DecidableEq μ] (h : Tracks R shares s) (hc : Change s u t g r)
    (hsymm : ∀ {m m'}, shares m m' → shares m' m) (hfits : u.Fits t (u.place t))
    (hbefore : ∀ l, s.entry l g = if r.mutex = l then some r.mode else none)
    (hafter : ∀ l, u.entry l g = none) (hother : ∀ l, l ≠ r.mutex → u.mutex l = s.mutex l)
    (hbooks : R (u.mutex r.mutex) ((s.modes r.mutex).erase r.mode)) : Tracks R shares u := by
  apply h.change hc hsymm hfits
  · intro l
    have hmodes := hc.modes (h.fresh g r hc.here) l
    rw [hafter, Option.elim_none, add_zero, hbefore] at hmodes
    by_cases hl : r.mutex = l
    · rw [if_pos hl, Option.elim_some] at hmodes
      rw [(Multiset.add_singleton_eq_iff.mp hmodes).2, ← hl]
      exact hbooks
    · rw [if_neg hl, Option.elim_none, add_zero] at hmodes
      rw [hmodes, hother l (Ne.symm hl)]
      exact h.books l
  · intro l i m m' hi hm hm'
    rw [hafter] at hm
    cases hm

end
end State

/-! ### One step -/

namespace State
variable {ι L μ σ : Type} [DecidableEq ι] [DecidableEq L] [DecidableEq μ] {M : Lockable μ σ}
  {R : σ → Multiset μ → Prop} {shares : μ → μ → Prop} {s u : State ι L μ σ}

omit [DecidableEq L] [DecidableEq μ] in
theorem own_eq_some {t : ι} {g : ℕ} {r : Guard ι L μ} (h : s.own t g = some r) :
    s.guard g = some r ∧ s.place t = .outside ∧ r.owner = t := by
  obtain ⟨hr, hown⟩ := Option.filter_eq_some_iff.mp h
  exact ⟨hr, of_decide_eq_true hown⟩

omit [DecidableEq ι] in
theorem initial_tracks (hM : M.Keeps R shares) : Tracks R shares (initial ι L M) where
  fresh := by
    intro g r h
    cases h
  fits _ := trivial
  books _ := hM.free
  shared := by
    intro l g h m m' _ hm
    cases hm

omit [DecidableEq L] [DecidableEq μ] in
/-- A thread goes to another place of its call, behind a change of the guard or the mutex. -/
theorem goto_change {w : State ι L μ σ} {t : ι} {g : ℕ} {r : Guard ι L μ} {p : Place}
    (hr : s.guard g = some r) (hown : r.owner = t) (hmade : w.made = s.made)
    (hguard : ∀ i, i ≠ g → w.guard i = s.guard i) (hplace : w.place = s.place)
    (hbefore : (s.place t).On g) (hafter : p.On g) : Change s (w.goto t p) t g r := by
  refine ⟨hr, hown, hmade, hguard, fun v hv => ?_, hbefore, ?_⟩
  · rw [← hplace]
    exact Function.update_of_ne hv ..
  · rwa [show (w.goto t p).place t = p from Function.update_self ..]

/-- The call that a thread begins, or ends, without a change of `m_locked` or the mutex. -/
theorem goto_tracks (hM : M.Keeps R shares) (h : Tracks R shares s) {t : ι} {g : ℕ}
    {r : Guard ι L μ} (hr : s.guard g = some r) (hown : r.owner = t) (hbefore : (s.place t).On g)
    {p : Place} (hafter : p.On g) (hfits : s.Fits t p)
    (hinside : p.inside g r.locked = (s.place t).inside g r.locked) : Tracks R shares (s.goto t p) := by
  have hplace : (s.goto t p).place t = p := Function.update_self ..
  apply h.stays (goto_change hr hown rfl (fun _ _ => rfl) rfl hbefore hafter) hM.symm
  · rw [hplace]
    cases p <;> exact hfits
  · intro l
    rw [entry_of_guard hr, entry_of_guard (s := s.goto t p) hr, hown, hplace, hinside]
  · exact h.books

omit [DecidableEq ι] [DecidableEq μ] in
/-- A guard that is not yet inside. -/
theorem added_tracks (h : Tracks R shares s) {r : Guard ι L μ} (hplace : s.place r.owner = .outside)
    (hlocked : r.locked = false) :
    Tracks R shares {s.setGuard s.made (some r) with made := s.made + 1} := by
  let u : State ι L μ σ := {s.setGuard s.made (some r) with made := s.made + 1}
  have hself : u.guard s.made = some r := Function.update_self ..
  have hne : ∀ i, i ≠ s.made → u.guard i = s.guard i := fun i hi => Function.update_of_ne hi ..
  have hold : ∀ i x, s.guard i = some x → u.guard i = some x := by
    intro i x hx
    rw [hne i (Nat.ne_of_lt (h.fresh i x hx)), hx]
  have hnone : s.guard s.made = none := by
    cases hr : s.guard s.made with
    | none => rfl
    | some x => exact absurd (h.fresh _ x hr) (Nat.lt_irrefl _)
  have hentry : ∀ l i, u.entry l i = s.entry l i := by
    intro l i
    by_cases hi : i = s.made
    · rw [hi, entry_of_none hnone, entry_of_guard hself, if_neg]
      intro ⟨_, hin⟩
      rw [show u.place r.owner = .outside from hplace, hlocked] at hin
      cases hin
    · unfold entry
      rw [hne i hi]
      rfl
  have hmodes : ∀ l, u.modes l = s.modes l := by
    intro l
    show ∑ g ∈ Finset.range (s.made + 1), _ = _
    rw [Finset.sum_range_succ, hentry, entry_of_none hnone, Option.elim_none, add_zero]
    exact Finset.sum_congr rfl fun i _ => by rw [hentry]
  show Tracks R shares u
  constructor
  · intro i x hx
    show i < s.made + 1
    by_cases hi : i = s.made
    · omega
    · have := h.fresh i x (by rw [← hne i hi, hx])
      omega
  · intro v
    have hfits := h.fits v
    show u.Fits v (s.place v)
    cases hp : s.place v with
    | outside => trivial
    | _ =>
      rw [hp] at hfits
      obtain ⟨x, hx, hown⟩ := hfits
      exact ⟨x, hold _ x hx, hown⟩
  · intro l
    rw [hmodes]
    exact h.books l
  · intro l i j m m' hij hi hj
    rw [hentry] at hi hj
    exact h.shared l i j m m' hij hi hj

theorem construct_tracks (hM : M.Keeps R shares) (h : Tracks R shares s) {t : ι} {l : L} {m : μ}
    (hplace : s.place t = .outside) : Tracks R shares (s.construct t l m) := by
  have hadded := added_tracks h (r := ⟨t, l, m, false⟩) hplace rfl
  have hself : ({s.setGuard s.made (some ⟨t, l, m, false⟩) with made := s.made + 1} :
      State ι L μ σ).guard s.made = some ⟨t, l, m, false⟩ := Function.update_self ..
  apply goto_tracks hM hadded hself rfl
  · show (s.place t).On s.made
    rw [hplace]
    trivial
  · exact rfl
  · exact ⟨_, hself, rfl, rfl⟩
  · show _ = (s.place t).inside s.made false
    rw [hplace]
    rfl

/-- A change of one guard of a thread that comes out of its call: the same guards are inside. -/
theorem settle_tracks (hM : M.Keeps R shares) (h : Tracks R shares s) {t : ι} {g : ℕ}
    {r : Guard ι L μ} (hr : s.guard g = some r) (hown : r.owner = t) (hbefore : (s.place t).On g)
    {x : Option (Guard ι L μ)}
    (hx : ∀ r', x = some r' → r'.owner = t ∧ r'.mutex = r.mutex ∧ r'.mode = r.mode)
    (hinside : (x.elim false Guard.locked) = (s.place t).inside g r.locked) :
    Tracks R shares ((s.setGuard g x).goto t .outside) := by
  let u := (s.setGuard g x).goto t .outside
  have hself : u.guard g = x := Function.update_self ..
  have hplace : u.place t = .outside := Function.update_self ..
  have hc : Change s u t g r :=
    goto_change hr hown rfl (fun i hi => Function.update_of_ne hi ..) rfl hbefore trivial
  apply h.stays hc hM.symm
  · rw [hplace]
    trivial
  · intro l
    rw [entry_of_guard hr, hown, ← hinside]
    cases hxr : x with
    | none => rw [entry_of_none (hself.trans hxr), Option.elim_none, if_neg (by simp)]
    | some r' =>
      obtain ⟨hown', hmutex, hmode⟩ := hx r' hxr
      rw [entry_of_guard (hself.trans hxr), hown', hplace, hmutex, hmode]
      rfl
  · exact h.books

omit [DecidableEq ι] [DecidableEq μ] in
theorem setMutex_self (s : State ι L μ σ) (l : L) (x : σ) : (s.setMutex l x).mutex l = x :=
  Function.update_self ..

omit [DecidableEq ι] [DecidableEq μ] in
theorem setMutex_of_ne (s : State ι L μ σ) {l l' : L} (x : σ) (h : l' ≠ l) :
    (s.setMutex l x).mutex l' = s.mutex l' := Function.update_of_ne h ..

/-- One attempt of a thread in the mutex's `lock`. -/
theorem attempt_tracks (hM : M.Keeps R shares) (h : Tracks R shares s) {t : ι} {g : ℕ}
    {born : Bool} {r : Guard ι L μ} (hr : s.guard g = some r) (hown : r.owner = t)
    (hlocked : r.locked = false) (hplace : s.place t = .locking g born) :
    Tracks R shares ((s.setMutex r.mutex (M.attempt r.mode (s.mutex r.mutex)).2).goto t
      (if (M.attempt r.mode (s.mutex r.mutex)).1 then .taken g else .locking g born)) := by
  have hon : (s.place t).On g := by rw [hplace]; exact rfl
  have hnone : ∀ l, s.entry l g = none := by
    intro l
    rw [entry_of_guard hr, hown, hplace, hlocked, if_neg]
    intro ⟨_, hin⟩
    cases hin
  cases htried : (M.attempt r.mode (s.mutex r.mutex)).1 with
  | false =>
    -- the wait may change the mutex, but not what it stands for
    let w := s.setMutex r.mutex (M.attempt r.mode (s.mutex r.mutex)).2
    have hc : Change s w t g r := ⟨hr, hown, rfl, fun _ _ => rfl, fun _ _ => rfl, hon, hon⟩
    have hw : Tracks R shares w := by
      apply h.stays hc hM.symm (h.fits t) (fun _ => rfl)
      intro l
      by_cases hl : l = r.mutex
      · rw [hl, setMutex_self]
        exact hM.waits (h.books r.mutex) htried
      · rw [setMutex_of_ne _ _ hl]
        exact h.books l
    exact goto_tracks hM hw hr hown hon rfl ⟨r, hr, hown, hlocked⟩
      (by show _ = (s.place t).inside g r.locked; rw [hplace]; rfl)
  | true =>
    let u := (s.setMutex r.mutex (M.attempt r.mode (s.mutex r.mutex)).2).goto t (.taken g)
    have hself : u.place t = .taken g := Function.update_self ..
    have hc : Change s u t g r := goto_change hr hown rfl (fun _ _ => rfl) rfl hon rfl
    show Tracks R shares u
    apply h.enters hc hM.symm
    · rw [hself]
      exact ⟨r, hr, hown, hlocked⟩
    · exact hnone
    · intro l
      rw [entry_of_guard (s := u) hr, hown, hself]
      simp [Place.inside]
    · intro l hl
      exact setMutex_of_ne _ _ hl
    · have hmutex : u.mutex r.mutex = (M.attempt r.mode (s.mutex r.mutex)).2 :=
        Function.update_self ..
      rw [hmutex]
      exact hM.takes (h.books r.mutex) htried
    · exact fun m hm => hM.shared (h.books r.mutex) htried m hm

omit [DecidableEq ι] [DecidableEq μ] in
theorem unlocking_entry {t : ι} {g : ℕ} {dying : Bool} {r : Guard ι L μ} (hr : s.guard g = some r)
    (hown : r.owner = t) (hlocked : r.locked = true) (hplace : s.place t = .unlocking g dying)
    (l : L) : s.entry l g = if r.mutex = l then some r.mode else none := by
  rw [entry_of_guard hr, hown, hplace, hlocked]
  simp [Place.inside]

/-- A thread in the mutex's `unlock` holds the mutex, so the call is no error. -/
theorem unlock_tracks (hM : M.Keeps R shares) (h : Tracks R shares s) {t : ι} {g : ℕ}
    {dying : Bool} {r : Guard ι L μ} (hr : s.guard g = some r) (hown : r.owner = t)
    (hlocked : r.locked = true) (hplace : s.place t = .unlocking g dying) :
    ∃ x, M.unlock (s.mutex r.mutex) = some x ∧
      Tracks R shares ((s.setMutex r.mutex x).goto t (.given g dying)) := by
  have hentry := unlocking_entry hr hown hlocked hplace
  have hmem : r.mode ∈ s.modes r.mutex :=
    mem_modes (h.fresh g r hr) (by rw [hentry, if_pos rfl])
  obtain ⟨x, hx, hbooks⟩ := hM.gives (h.books r.mutex) hmem
  let u := (s.setMutex r.mutex x).goto t (.given g dying)
  have hself : u.place t = .given g dying := Function.update_self ..
  have hmutex : u.mutex r.mutex = x := Function.update_self ..
  have hc : Change s u t g r :=
    goto_change hr hown rfl (fun _ _ => rfl) rfl (by rw [hplace]; exact rfl) rfl
  have hu : Tracks R shares u := by
    apply h.leaves hc hM.symm
    · rw [hself]
      exact ⟨r, hr, hown, hlocked⟩
    · exact hentry
    · intro l
      rw [entry_of_guard (s := u) hr, hown, hself]
      simp [Place.inside]
    · intro l hl
      exact setMutex_of_ne _ _ hl
    · rw [hmutex]
      exact hbooks
  exact ⟨x, hx, hu⟩

theorem go_tracks (hM : M.Keeps R shares) (h : Tracks R shares s) {t : ι}
    (hgo : s.go M t = some u) : Tracks R shares u := by
  have hfits := h.fits t
  unfold go at hgo
  cases hp : s.place t with
  | outside =>
    rw [hp] at hgo
    cases hgo
  | locking g born =>
    rw [hp] at hgo hfits
    obtain ⟨r, hr, hown, hlocked⟩ := hfits
    simp only [hr, Option.map_some, Option.some.injEq] at hgo
    rw [← hgo]
    exact attempt_tracks hM h hr hown hlocked hp
  | taken g =>
    rw [hp] at hgo hfits
    obtain ⟨r, hr, hown, hlocked⟩ := hfits
    simp only [hr, Option.map_some, Option.some.injEq] at hgo
    rw [← hgo]
    apply settle_tracks hM h hr hown (by rw [hp]; exact rfl)
    · intro r' hr'
      cases hr'
      exact ⟨hown, rfl, rfl⟩
    · rw [hp]
      simp [Place.inside]
  | unlocking g dying =>
    rw [hp] at hgo hfits
    obtain ⟨r, hr, hown, hlocked⟩ := hfits
    obtain ⟨x, hx, hu⟩ := unlock_tracks hM h hr hown hlocked hp
    simp only [hr, Option.bind_some, hx, Option.map_some, Option.some.injEq] at hgo
    rw [← hgo]
    exact hu
  | given g dying =>
    rw [hp] at hgo hfits
    obtain ⟨r, hr, hown, hlocked⟩ := hfits
    simp only [hr, Option.map_some, Option.some.injEq] at hgo
    rw [← hgo]
    apply settle_tracks hM h hr hown (by rw [hp]; exact rfl)
    · intro r' hr'
      cases dying
      · cases hr'
        exact ⟨hown, rfl, rfl⟩
      · cases hr'
    · rw [hp]
      cases dying <;> simp [Place.inside]

theorem fail_tracks (hM : M.Keeps R shares) (h : Tracks R shares s) {t : ι}
    (hfail : s.fail t = some u) : Tracks R shares u := by
  have hfits := h.fits t
  unfold fail at hfail
  cases hp : s.place t with
  | locking g born =>
    rw [hp] at hfail hfits
    obtain ⟨r, hr, hown, hlocked⟩ := hfits
    have hon : (s.place t).On g := by rw [hp]; exact rfl
    rw [Option.some.injEq] at hfail
    rw [← hfail]
    cases born with
    | true =>
      apply settle_tracks hM h hr hown hon
      · intro r' hr'
        cases hr'
      · rw [hp, hlocked]
        rfl
    | false =>
      have hafter : Place.outside.On g := trivial
      apply goto_tracks hM h hr hown hon hafter trivial
      rw [hp]
      rfl
  | _ =>
    rw [hp] at hfail
    cases hfail

/-- A call that a thread begins on one of its guards. -/
theorem begin_tracks (hM : M.Keeps R shares) (h : Tracks R shares s) {t : ι} {g : ℕ}
    {r : Guard ι L μ} (hown : s.own t g = some r) {p : Place} (hon : p.On g)
    (hfits : s.Fits t p) (hinside : p.inside g r.locked = r.locked) :
    Tracks R shares (s.goto t p) := by
  obtain ⟨hr, hplace, hmine⟩ := own_eq_some hown
  have hbefore : (s.place t).On g := by rw [hplace]; trivial
  apply goto_tracks hM h hr hmine hbefore hon hfits
  rw [hplace, hinside]
  rfl

theorem step_tracks (hM : M.Keeps R shares) {a : Act ι L μ} (h : Tracks R shares s)
    (hstep : s.step M a = some u) : Tracks R shares u := by
  cases a with
  | construct t l m =>
    obtain ⟨hplace, hu⟩ := Option.ite_none_right_eq_some.mp hstep
    rw [← Option.some.inj hu]
    exact construct_tracks hM h hplace
  | lock t g =>
    obtain ⟨r, hown, hu⟩ := Option.map_eq_some_iff.mp hstep
    obtain ⟨hr, -, hmine⟩ := own_eq_some hown
    rw [← hu, lock]
    cases hlocked : r.locked with
    | true => exact h
    | false =>
      have hon : (Place.locking g false).On g := rfl
      exact begin_tracks hM h hown hon ⟨r, hr, hmine, hlocked⟩ rfl
  | unlock t g =>
    obtain ⟨r, hown, hu⟩ := Option.map_eq_some_iff.mp hstep
    obtain ⟨hr, -, hmine⟩ := own_eq_some hown
    rw [← hu, unlock]
    cases hlocked : r.locked with
    | true =>
      have hon : (Place.unlocking g false).On g := rfl
      exact begin_tracks hM h hown hon ⟨r, hr, hmine, hlocked⟩ rfl
    | false => exact h
  | destroy t g =>
    obtain ⟨r, hown, hu⟩ := Option.map_eq_some_iff.mp hstep
    obtain ⟨hr, hplace, hmine⟩ := own_eq_some hown
    rw [← hu, destroy]
    cases hlocked : r.locked with
    | true =>
      have hon : (Place.unlocking g true).On g := rfl
      exact begin_tracks hM h hown hon ⟨r, hr, hmine, hlocked⟩ rfl
    | false =>
      have hself : s.setGuard g none = (s.setGuard g none).goto t .outside := by
        rw [goto, ← show (s.setGuard g none).place t = .outside from hplace, Function.update_eq_self]
      show Tracks R shares (s.setGuard g none)
      rw [hself]
      apply settle_tracks hM h hr hmine (by rw [hplace]; trivial)
      · intro r' hr'
        cases hr'
      · rw [hplace, hlocked]
        rfl
  | go t => exact go_tracks hM h hstep
  | fail t => exact fail_tracks hM h hstep

/-! ### Every run -/

theorem reachable_tracks (hM : M.Keeps R shares)
    (h : (machine ι L M).Reachable (initial ι L M) s) : Tracks R shares s := by
  have keep : ∀ s a u, Tracks R shares s → (machine ι L M).step s a = some u → Tracks R shares u :=
    fun _ _ _ hs hstep => step_tracks hM hs hstep
  exact h.invariant keep (initial_tracks hM)

/-- The guard is inside its mutex. -/
def Inside (s : State ι L μ σ) (g : ℕ) (r : Guard ι L μ) : Prop :=
  s.guard g = some r ∧ (s.place r.owner).inside g r.locked = true

omit [DecidableEq ι] [DecidableEq μ] in
theorem Inside.entry {g : ℕ} {r : Guard ι L μ} (h : s.Inside g r) :
    s.entry r.mutex g = some r.mode := by
  rw [entry_of_guard h.1, if_pos ⟨rfl, h.2⟩]

omit [DecidableEq ι] [DecidableEq μ] in
/-- Guards inside one mutex share it. -/
theorem Tracks.together (h : Tracks R shares s) {g g' : ℕ} {r r' : Guard ι L μ} (hin : s.Inside g r)
    (hin' : s.Inside g' r') (hmutex : r.mutex = r'.mutex) (hne : g ≠ g') : shares r.mode r'.mode :=
  h.shared r.mutex g g' r.mode r'.mode hne hin.entry (by rw [hmutex]; exact hin'.entry)

/-- A thread in a call can always go on: no mutex is given back that is not held. -/
theorem Tracks.goes_on (hM : M.Keeps R shares) (h : Tracks R shares s) {t : ι}
    (ht : s.place t ≠ .outside) : ∃ u, s.go M t = some u := by
  have hfits := h.fits t
  unfold go
  cases hp : s.place t with
  | outside => exact absurd hp ht
  | unlocking g dying =>
    rw [hp] at hfits
    obtain ⟨r, hr, hown, hlocked⟩ := hfits
    obtain ⟨x, hx, -⟩ := unlock_tracks hM h hr hown hlocked hp
    simp [hr, hx]
  | _ =>
    rw [hp] at hfits
    obtain ⟨r, hr, -⟩ := hfits
    simp [hr]

omit [DecidableEq ι] [DecidableEq μ] in
/-- A mutex without guards inside stands for nobody. -/
theorem Tracks.nobody (h : Tracks R shares s) {l : L}
    (hnobody : ∀ g r, s.Inside g r → r.mutex ≠ l) : R (s.mutex l) 0 := by
  have hentry : ∀ g, s.entry l g = none := by
    intro g
    cases hr : s.guard g with
    | none => exact entry_of_none hr l
    | some r =>
      rw [entry_of_guard hr, if_neg]
      intro ⟨hmutex, hin⟩
      exact hnobody g r ⟨hr, hin⟩ hmutex
  have hmodes : s.modes l = 0 := Finset.sum_eq_zero fun g _ => by rw [hentry]; rfl
  rw [← hmodes]
  exact h.books l

end State

open State

/-- Guards of any threads on spin locks of the class `CASLock`: at most one is inside a lock, every
call a thread is in can go on (no lock is given back that is not held), and a lock that no guard is
inside of is clear. -/
theorem casLock_guards {ι L : Type} [DecidableEq ι] [DecidableEq L] (s : State ι L Unit Bool)
    (h : (machine ι L CASLock).Reachable (initial ι L CASLock) s) :
    (∀ g g' r r', s.Inside g r → s.Inside g' r' → r.mutex = r'.mutex → g = g') ∧
    (∀ t, s.place t ≠ .outside → ∃ u, s.go CASLock t = some u) ∧
    ∀ l, (∀ g r, s.Inside g r → r.mutex ≠ l) → s.mutex l = false := by
  have htracks := reachable_tracks casLock_keeps h
  constructor
  · intro g g' r r' hin hin' hmutex
    exact Classical.byContradiction fun hne => htracks.together hin hin' hmutex hne
  · constructor
    · intro t ht
      exact htracks.goes_on casLock_keeps ht
    · intro l hnobody
      have hcard : (s.mutex l).toNat = 0 := (htracks.nobody hnobody).symm
      cases hflag : s.mutex l
      · rfl
      · rw [hflag] at hcard
        cases hcard

/-- The first guard is back from `unlock` and has not yet cleared its `m_locked`, when the second,
which had failed once, is in. -/
def handover : List (Act Bool Unit Unit) :=
  [.construct false () (), .go false, .go false, .construct true () (), .go true, .unlock false 0,
    .go false, .go true]

theorem casLock_guards_handover :
    ∃ s, (machine Bool Unit CASLock).run (initial Bool Unit CASLock) handover = some s ∧
      s.place false = .given 0 false ∧ s.place true = .taken 1 ∧
      (∀ g g' r r', s.Inside g r → s.Inside g' r' → r.mutex = r'.mutex → g = g') ∧
      (∀ t, s.place t ≠ .outside → ∃ u, s.go CASLock t = some u) ∧
      ∀ l, (∀ g r, s.Inside g r → r.mutex ≠ l) → s.mutex l = false := by
  have hplaces : ((machine Bool Unit CASLock).run (initial Bool Unit CASLock) handover).map
      (fun s => (s.place false, s.place true)) = some (.given 0 false, .taken 1) := by decide
  obtain ⟨s, hs, hp⟩ := Option.map_eq_some_iff.mp hplaces
  obtain ⟨hp₁, hp₂⟩ := Prod.mk.inj hp
  exact ⟨s, hs, hp₁, hp₂, casLock_guards s ⟨handover, hs⟩⟩

/-- Read and write guards on an `RWMutex`: two that are inside are both readers; and as above. -/
theorem rwMutex_guards {ι L : Type} [DecidableEq ι] [DecidableEq L]
    (s : State ι L Locks.Mode RWMutex.State)
    (h : (machine ι L RWMutex).Reachable (initial ι L RWMutex) s) :
    (∀ g g' r r', s.Inside g r → s.Inside g' r' → r.mutex = r'.mutex → g ≠ g' →
      r.mode = .read ∧ r'.mode = .read) ∧
    (∀ t, s.place t ≠ .outside → ∃ u, s.go RWMutex t = some u) ∧
    ∀ l, (∀ g r, s.Inside g r → r.mutex ≠ l) → s.mutex l = ⟨0, false⟩ := by
  have htracks := reachable_tracks rwMutex_keeps h
  constructor
  · intro g g' r r' hin hin' hmutex hne
    exact RWMutex.shares_iff.mp (htracks.together hin hin' hmutex hne)
  · constructor
    · intro t ht
      exact htracks.goes_on rwMutex_keeps ht
    · intro l hnobody
      exact RWMutex.Holds.nobody (htracks.nobody hnobody)

/-- Two readers, and a writer that waits for both. -/
def readers : List (Act (Fin 3) Unit Locks.Mode) :=
  [.construct 0 () .read, .go 0, .construct 1 () .read, .go 1, .go 1, .construct 2 () .write, .go 2]

theorem rwMutex_guards_readers :
    ∃ s, (machine (Fin 3) Unit RWMutex).run (initial (Fin 3) Unit RWMutex) readers = some s ∧
      s.mutex () = ⟨2, false⟩ ∧
      (∀ g g' r r', s.Inside g r → s.Inside g' r' → r.mutex = r'.mutex → g ≠ g' →
        r.mode = .read ∧ r'.mode = .read) ∧
      (∀ t, s.place t ≠ .outside → ∃ u, s.go RWMutex t = some u) ∧
      ∀ l, (∀ g r, s.Inside g r → r.mutex ≠ l) → s.mutex l = ⟨0, false⟩ := by
  have hmutex : ((machine (Fin 3) Unit RWMutex).run (initial (Fin 3) Unit RWMutex) readers).map
      (fun s => s.mutex ()) = some ⟨2, false⟩ := by decide
  obtain ⟨s, hs, hm⟩ := Option.map_eq_some_iff.mp hmutex
  exact ⟨s, hs, hm, rwMutex_guards s ⟨readers, hs⟩⟩

end SimpleHttpServer.ScopedLock
