import SimpleHttpServer.Lib.Machine
import Mathlib.Data.Fintype.Card
import Mathlib.Logic.Relation
import Mathlib.Order.WellFounded

/-! Threads that take scoped locks.

A lock program is what is left of an operation when only its locks count: a lock is
held over a part of it (`hold`), and what the operation's data decide is a choice. An
exception may be thrown anywhere; it releases what is held up to the handler that
catches it (`unwind`). Threads start such programs and take their steps in any order,
each waiting where its next lock is held in a mode that conflicts.

If every program takes its locks in ascending order of some rank (`Ordered`), every
thread does in every state (`Kept`), so no thread asks for a lock it holds
(`not_asked_again`), no threads wait for each other in a cycle (`no_cycle`), and as
long as one of finitely many has something to do, one of them can move
(`someone_moves`). -/
namespace SimpleHttpServer.Locks

inductive Mode
  | read
  | write
  deriving DecidableEq, Repr

/-- Lock programs over locks `L`; `A` is what a choice may range over. -/
inductive Prog (L A : Type*)
  | skip
  /-- The lock is held while the body runs. -/
  | hold (l : L) (m : Mode) (body : Prog L A)
  | seq (p q : Prog L A)
  | either (p q : Prog L A)
  | any (p : A → Prog L A)
  /-- As often as the data say, maybe never. -/
  | loop (p : Prog L A)
  /-- The handler runs if an exception leaves the body. -/
  | attempt (p handler : Prog L A)

/-- What a thread has left to do. -/
inductive Item (L A : Type*)
  | prog (p : Prog L A)
  | release (l : L)
  /-- Nothing, or this program if an exception comes here. -/
  | handler (p : Prog L A)

inductive Choice (A : Type*)
  | first
  | second
  | pick (a : A)
  /-- An exception. -/
  | throw
  deriving DecidableEq, Repr

variable {T O L A : Type*}

/-- The threads' continuations, and who holds each lock in which mode. -/
structure State (T L A : Type*) where
  cont : T → List (Item L A)
  owners : L → List (T × Mode)

inductive Action (T O A : Type*)
  /-- A thread with nothing left to do begins an operation. -/
  | start (t : T) (o : O)
  /-- The thread's next step, with this choice if it makes one. -/
  | step (t : T) (c : Choice A)
  deriving DecidableEq, Repr

/-- Readers share. -/
def compatible (m : Mode) (x : T × Mode) : Bool := m = .read && x.2 = .read

def State.initial : State T L A := ⟨fun _ => [], fun _ => []⟩

variable [DecidableEq T] [DecidableEq L]

def State.goto (s : State T L A) (t : T) (k : List (Item L A)) : State T L A :=
  {s with cont := Function.update s.cont t k}

def State.lock (s : State T L A) (l : L) (t : T) (m : Mode) : State T L A :=
  {s with owners := Function.update s.owners l ((t, m) :: s.owners l)}

def State.unlock (s : State T L A) (l : L) (t : T) : State T L A :=
  {s with owners := Function.update s.owners l ((s.owners l).filter (·.1 ≠ t))}

/-- One step of the program at the head of a continuation; `none` where the thread waits. -/
def State.perform (s : State T L A) (t : T) (c : Choice A) (k : List (Item L A)) :
    Prog L A → Option (State T L A)
  | .skip => some (s.goto t k)
  | .hold l m p =>
    if (s.owners l).all (compatible m) then
      some ((s.lock l t m).goto t (.prog p :: .release l :: k))
    else none
  | .seq p q => some (s.goto t (.prog p :: .prog q :: k))
  | .either p q =>
    match c with
    | .first => some (s.goto t (.prog p :: k))
    | .second => some (s.goto t (.prog q :: k))
    | _ => none
  | .any p =>
    match c with
    | .pick a => some (s.goto t (.prog (p a) :: k))
    | _ => none
  | .loop p =>
    match c with
    | .first => some (s.goto t (.prog p :: .prog (.loop p) :: k))
    | .second => some (s.goto t k)
    | _ => none
  | .attempt p handler => some (s.goto t (.prog p :: .handler handler :: k))

omit [DecidableEq T] [DecidableEq L] in
/-- What an exception leaves of a continuation. -/
def unwind : List (Item L A) → List (Item L A)
  | [] => []
  | .prog _ :: k => unwind k
  | .release l :: k => .release l :: unwind k
  | .handler p :: k => .prog p :: k

/-- One step of a thread. -/
def State.advance (s : State T L A) (t : T) (c : Choice A) : Option (State T L A) :=
  match s.cont t with
  | [] => none
  | .release l :: k => some ((s.unlock l t).goto t k)
  | .handler _ :: k => some (s.goto t k)
  | .prog p :: k =>
    match c with
    | .throw => some (s.goto t (unwind k))
    | _ => s.perform t c k p

/-- Threads that run the operations `prog`, one after another. -/
def machine (T : Type*) [DecidableEq T] (prog : O → Prog L A) :
    Machine (State T L A) (Action T O A) where
  step s
    | .start t o => match s.cont t with
      | [] => some (s.goto t [.prog (prog o)])
      | _ :: _ => none
    | .step t c => s.advance t c

/-! ### Waiting -/

omit [DecidableEq T] [DecidableEq L] in
/-- The locks a continuation releases: those its thread holds. -/
def locks : List (Item L A) → List L
  | [] => []
  | .prog _ :: k | .handler _ :: k => locks k
  | .release l :: k => l :: locks k

omit [DecidableEq T] [DecidableEq L] in
/-- An exception releases no fewer and no other locks. -/
theorem locks_unwind (k : List (Item L A)) : locks (unwind k) = locks k := by
  induction k with
  | nil => rfl
  | cons item k ih =>
    cases item with
    | prog p => exact ih
    | release l => exact congrArg (l :: ·) ih
    | handler p => rfl

/-- The thread's next step is to take the lock. -/
def Requests (s : State T L A) (t : T) (l : L) (m : Mode) : Prop :=
  ∃ p k, s.cont t = .prog (.hold l m p) :: k

def Holds (s : State T L A) (t : T) (l : L) : Prop := ∃ m, (t, m) ∈ s.owners l

/-- The thread waits for one that holds the lock in a conflicting mode, or, to read, for one that
waits to write. -/
def WaitsFor (s : State T L A) (t u : T) : Prop :=
  ∃ l m, Requests s t l m ∧
    ((∃ m', (u, m') ∈ s.owners l ∧ compatible m (u, m') = false) ∨
      m = .read ∧ Requests s u l .write)

/-! ### Order -/

variable {ρ : Type*} [Preorder ρ] (rank : L → ρ)

/-- Above the locks held, the program takes its locks in ascending order. -/
def Ordered (held : List L) : Prog L A → Prop
  | .skip => True
  | .hold l _ p => (∀ x ∈ held, rank x < rank l) ∧ Ordered (l :: held) p
  | .seq p q => Ordered held p ∧ Ordered held q
  | .either p q => Ordered held p ∧ Ordered held q
  | .any p => ∀ a, Ordered held (p a)
  | .loop p => Ordered held p
  | .attempt p handler => Ordered held p ∧ Ordered held handler

/-- So do all the programs of a continuation, each above the locks that are released behind it. -/
def Stacked : List (Item L A) → Prop
  | [] => True
  | .prog p :: k | .handler p :: k => Ordered rank (locks k) p ∧ Stacked k
  | .release _ :: k => Stacked k

/-- Every thread keeps to the order, and releases what it holds. -/
structure Kept (s : State T L A) : Prop where
  stacked : ∀ t, Stacked rank (s.cont t)
  released : ∀ t l, Holds s t l → l ∈ locks (s.cont t)

variable {rank}

omit [DecidableEq L] in
/-- A thread goes on with a continuation that keeps the order and releases what it holds. -/
theorem Kept.goto {s : State T L A} (h : Kept rank s) {t : T} {k : List (Item L A)}
    (hstacked : Stacked rank k) (hlocks : ∀ l, Holds s t l → l ∈ locks k) :
    Kept rank (s.goto t k) := by
  refine ⟨fun u => ?_, fun u l hl => ?_⟩
  · by_cases hu : u = t
    · subst hu
      simpa [State.goto] using hstacked
    · simpa [State.goto, hu] using h.stacked u
  · by_cases hu : u = t
    · subst hu
      simpa [State.goto] using hlocks l hl
    · simpa [State.goto, hu] using h.released u l hl

omit [DecidableEq T] [DecidableEq L] in
/-- What the head of a continuation releases is what its thread holds. -/
theorem Kept.head {s : State T L A} (h : Kept rank s) {t : T} {k : List (Item L A)}
    (hk : s.cont t = k) : Stacked rank k ∧ ∀ l, Holds s t l → l ∈ locks k :=
  ⟨hk ▸ h.stacked t, fun l hl => hk ▸ h.released t l hl⟩

theorem take_kept {s : State T L A} (h : Kept rank s) {t : T} {l : L} {m : Mode} {p : Prog L A}
    {k : List (Item L A)} (hk : s.cont t = .prog (.hold l m p) :: k) :
    Kept rank ((s.lock l t m).goto t (.prog p :: .release l :: k)) := by
  obtain ⟨⟨⟨_, hordered⟩, hstacked⟩, hlocks⟩ := h.head hk
  refine ⟨fun u => ?_, fun u x hx => ?_⟩
  · by_cases hu : u = t
    · subst hu
      have hnew : Stacked rank (.prog p :: .release l :: k) := ⟨hordered, hstacked⟩
      simpa only [State.goto, Function.update_self] using hnew
    · simpa [State.goto, State.lock, hu] using h.stacked u
  · obtain ⟨m', hm'⟩ := hx
    by_cases hu : u = t
    · subst hu
      have hgoal : x ∈ l :: locks k := by
        by_cases hxl : x = l
        · exact hxl ▸ List.mem_cons_self
        · refine List.mem_cons_of_mem _ (hlocks x ⟨m', ?_⟩)
          simpa [State.goto, State.lock, hxl] using hm'
      simpa [State.goto, locks] using hgoal
    · have hold : (u, m') ∈ s.owners x := by
        by_cases hxl : x = l
        · subst hxl
          simpa [State.goto, State.lock, hu] using hm'
        · simpa [State.goto, State.lock, hxl] using hm'
      simpa [State.goto, State.lock, hu] using h.released u x ⟨m', hold⟩

theorem release_kept {s : State T L A} (h : Kept rank s) {t : T} {l : L} {k : List (Item L A)}
    (hk : s.cont t = .release l :: k) :
    Kept rank ((s.unlock l t).goto t k) := by
  obtain ⟨hstacked, hlocks⟩ := h.head hk
  refine ⟨fun u => ?_, fun u x hx => ?_⟩
  · by_cases hu : u = t
    · subst hu
      have hrest : Stacked rank k := hstacked
      simpa only [State.goto, Function.update_self] using hrest
    · simpa [State.goto, State.unlock, hu] using h.stacked u
  · obtain ⟨m', hm'⟩ := hx
    have hold : (u, m') ∈ s.owners x ∧ (x = l → u ≠ t) := by
      by_cases hxl : x = l
      · subst hxl
        simpa [State.goto, State.unlock] using hm'
      · exact ⟨by simpa [State.goto, State.unlock, hxl] using hm', fun hx => absurd hx hxl⟩
    by_cases hu : u = t
    · subst hu
      have hmem : x ∈ l :: locks k := hlocks x ⟨m', hold.1⟩
      have hne : x ≠ l := fun hx => hold.2 hx rfl
      simpa [State.goto, hne] using hmem
    · simpa [State.goto, State.unlock, hu] using h.released u x ⟨m', hold.1⟩

omit [DecidableEq T] [DecidableEq L] in
theorem unwind_stacked {k : List (Item L A)} (h : Stacked rank k) : Stacked rank (unwind k) := by
  induction k with
  | nil => exact h
  | cons item k ih =>
    cases item with
    | prog p => exact ih h.2
    | release l => exact ih h
    | handler p => exact h

theorem perform_kept {s s' : State T L A} (h : Kept rank s) {t : T} {c : Choice A} {p : Prog L A}
    {k : List (Item L A)} (hk : s.cont t = .prog p :: k) (hstep : s.perform t c k p = some s') :
    Kept rank s' := by
  obtain ⟨⟨hp, hstacked⟩, hlocks⟩ := h.head hk
  cases p with
  | skip =>
    cases hstep
    exact h.goto hstacked hlocks
  | hold l m p =>
    simp only [State.perform] at hstep
    split at hstep
    · cases hstep
      exact take_kept h hk
    · cases hstep
  | seq p q =>
    cases hstep
    exact h.goto ⟨hp.1, hp.2, hstacked⟩ hlocks
  | either p q =>
    simp only [State.perform] at hstep
    split at hstep
    · cases hstep
      exact h.goto ⟨hp.1, hstacked⟩ hlocks
    · cases hstep
      exact h.goto ⟨hp.2, hstacked⟩ hlocks
    · cases hstep
  | any p =>
    simp only [State.perform] at hstep
    split at hstep
    · cases hstep
      exact h.goto ⟨hp _, hstacked⟩ hlocks
    · cases hstep
  | loop p =>
    simp only [State.perform] at hstep
    split at hstep
    · cases hstep
      exact h.goto ⟨hp, hp, hstacked⟩ hlocks
    · cases hstep
      exact h.goto hstacked hlocks
    · cases hstep
  | attempt p handler =>
    cases hstep
    exact h.goto ⟨hp.1, hp.2, hstacked⟩ hlocks

/-- A thread's step keeps the order. -/
theorem advance_kept {s s' : State T L A} (h : Kept rank s) {t : T} {c : Choice A}
    (hstep : s.advance t c = some s') : Kept rank s' := by
  unfold State.advance at hstep
  split at hstep
  case h_1 => cases hstep
  case h_2 l k hk =>
    cases hstep
    exact release_kept h hk
  case h_3 p k hk =>
    cases hstep
    obtain ⟨⟨_, hstacked⟩, hlocks⟩ := h.head hk
    exact h.goto hstacked hlocks
  case h_4 p k hk =>
    split at hstep
    · cases hstep
      obtain ⟨⟨_, hstacked⟩, hlocks⟩ := h.head hk
      refine h.goto (unwind_stacked hstacked) fun l hl => ?_
      rw [locks_unwind]
      exact hlocks l hl
    · exact perform_kept h hk hstep

variable {prog : O → Prog L A}

theorem step_kept (hprog : ∀ o, Ordered rank [] (prog o)) {s s' : State T L A} {a : Action T O A}
    (h : Kept rank s) (hstep : (machine T prog).step s a = some s') : Kept rank s' := by
  cases a with
  | start t o =>
    simp only [machine] at hstep
    split at hstep
    · cases hstep
      rename_i hk
      obtain ⟨_, hlocks⟩ := h.head hk
      exact h.goto ⟨hprog o, trivial⟩ hlocks
    · cases hstep
  | step t c => exact advance_kept h hstep

omit [DecidableEq T] [DecidableEq L] in
theorem initial_kept : Kept rank (.initial : State T L A) :=
  ⟨fun _ => trivial, fun _ _ ⟨_, h⟩ => nomatch h⟩

theorem reachable_kept (hprog : ∀ o, Ordered rank [] (prog o)) {s : State T L A}
    (h : (machine T prog).Reachable .initial s) : Kept rank s :=
  h.invariant (fun _ _ _ hs hstep => step_kept hprog hs hstep) initial_kept

/-! ### What the order buys -/

omit [DecidableEq T] [DecidableEq L] in
theorem Requests.inj {s : State T L A} {t : T} {l l' : L} {m m' : Mode} (h : Requests s t l m)
    (h' : Requests s t l' m') : l = l' ∧ m = m' := by
  obtain ⟨p, k, hk⟩ := h
  obtain ⟨p', k', hk'⟩ := h'
  cases hk.symm.trans hk'
  exact ⟨rfl, rfl⟩

omit [DecidableEq T] [DecidableEq L] in
/-- A lock that is asked for is above every lock its thread holds. -/
theorem Kept.above {s : State T L A} (h : Kept rank s) {t : T} {l x : L} {m : Mode}
    (hrequests : Requests s t l m) (hholds : Holds s t x) : rank x < rank l := by
  obtain ⟨p, k, hk⟩ := hrequests
  have hx := h.released t x hholds
  have hstacked := h.stacked t
  rw [hk] at hx hstacked
  exact hstacked.1.1 x hx

omit [DecidableEq T] [DecidableEq L] in
/-- No thread asks for a lock it holds. -/
theorem not_asked_again {s : State T L A} (h : Kept rank s) {t : T} {l : L} {m : Mode}
    (hrequests : Requests s t l m) : ¬ Holds s t l :=
  fun hholds => lt_irrefl _ (h.above hrequests hholds)

/-- The request of `u` comes behind that of `t`: for a higher lock, or to write what `t` wants to
read. -/
def Before (rank : L → ρ) (s : State T L A) (t u : T) : Prop :=
  ∃ l m l' m', Requests s t l m ∧ Requests s u l' m' ∧
    (rank l < rank l' ∨ l = l' ∧ m = .read ∧ m' = .write)

omit [DecidableEq T] [DecidableEq L] in
theorem Before.trans {s : State T L A} {t u v : T} (h : Before rank s t u)
    (h' : Before rank s u v) : Before rank s t v := by
  obtain ⟨l, m, l', m', ht, hu, hlt⟩ := h
  obtain ⟨x, n, x', n', hu', hv, hlt'⟩ := h'
  obtain ⟨rfl, rfl⟩ := hu.inj hu'
  refine ⟨l, m, x', n', ht, hv, ?_⟩
  rcases hlt with hlt | ⟨rfl, hread, hwrite⟩
  · rcases hlt' with hlt' | ⟨rfl, _, _⟩
    · exact .inl (hlt.trans hlt')
    · exact .inl hlt
  · rcases hlt' with hlt' | ⟨_, hread', _⟩
    · exact .inl hlt'
    · cases hwrite.symm.trans hread'

omit [DecidableEq T] [DecidableEq L] in
theorem Before.irrefl {s : State T L A} {t : T} : ¬ Before rank s t t := by
  intro ⟨l, m, l', m', h, h', hlt⟩
  obtain ⟨rfl, rfl⟩ := h.inj h'
  rcases hlt with hlt | ⟨_, hread, hwrite⟩
  · exact lt_irrefl _ hlt
  · cases hread.symm.trans hwrite

omit [DecidableEq T] [DecidableEq L] in
/-- One thread that waits for another that waits itself. -/
theorem Kept.before {s : State T L A} (h : Kept rank s) {t u : T} (hwaits : WaitsFor s t u)
    {l' : L} {m' : Mode} (hrequests : Requests s u l' m') : Before rank s t u := by
  obtain ⟨l, m, ht, ⟨n, hn, _⟩ | ⟨rfl, hwrite⟩⟩ := hwaits
  · exact ⟨l, m, l', m', ht, hrequests, .inl (h.above hrequests ⟨n, hn⟩)⟩
  · exact ⟨l, .read, l, .write, ht, hwrite, .inr ⟨rfl, rfl, rfl⟩⟩

omit [DecidableEq T] [DecidableEq L] in
/-- Threads do not wait for each other in a cycle. -/
theorem no_cycle {s : State T L A} (h : Kept rank s) (t : T) :
    ¬ Relation.TransGen (WaitsFor s) t t := by
  have hchain : ∀ u, Relation.TransGen (WaitsFor s) t u → ∀ l m, Requests s u l m →
      Before rank s t u := by
    intro u hu
    induction hu with
    | single hwaits => exact fun l m hrequests => h.before hwaits hrequests
    | tail _ hwaits ih =>
      intro l m hrequests
      obtain ⟨x, n, hx, _⟩ := hwaits
      exact (ih x n hx).trans (h.before ⟨x, n, hx, ‹_›⟩ hrequests)
  intro hcycle
  obtain ⟨u, hwaits, _⟩ := Relation.TransGen.head'_iff.mp hcycle
  obtain ⟨l, m, hrequests, _⟩ := hwaits
  exact Before.irrefl (hchain t hcycle l m hrequests)

/-- A thread with something left to do moves, or waits for one that holds its lock. -/
theorem moves_or_waits [Nonempty A] (s : State T L A) {t : T} (ht : s.cont t ≠ []) :
    (∃ c s', c ≠ .throw ∧ s.advance t c = some s') ∨
      ∃ l m u, Requests s t l m ∧ Holds s u l := by
  obtain ⟨a⟩ := ‹Nonempty A›
  cases hk : s.cont t with
  | nil => exact absurd hk ht
  | cons item k =>
    cases item with
    | release l => exact .inl ⟨.first, by simp [State.advance, hk]⟩
    | handler p => exact .inl ⟨.first, by simp [State.advance, hk]⟩
    | prog p =>
      cases p with
      | skip | seq p q | either p q | loop p | attempt p q =>
        exact .inl ⟨.first, by simp [State.advance, State.perform, hk]⟩
      | any p => exact .inl ⟨.pick a, by simp [State.advance, State.perform, hk]⟩
      | hold l m p =>
        by_cases hfree : (s.owners l).all (compatible m) = true
        · exact .inl ⟨.first, by simp [State.advance, State.perform, hk, hfree]⟩
        · right
          simp only [List.all_eq_true, not_forall] at hfree
          obtain ⟨⟨u, m'⟩, hu, _⟩ := hfree
          exact ⟨l, m, u, ⟨p, k, hk⟩, m', hu⟩

/-- As long as one of finitely many threads has something left to do, one of them can move, and not
only by an exception. -/
theorem someone_moves [Finite T] [Nonempty A] {s : State T L A} (h : Kept rank s)
    (hbusy : ∃ t, s.cont t ≠ []) : ∃ t c s', c ≠ .throw ∧ s.advance t c = some s' := by
  have htrans : IsTrans T (fun u t => Before rank s t u) := ⟨fun _ _ _ h h' => h'.trans h⟩
  have hirrefl : Std.Irrefl (fun u t => Before rank s t u) := ⟨fun _ => Before.irrefl⟩
  have hwf := Finite.wellFounded_of_trans_of_irrefl (fun u t => Before rank s t u)
  -- a busy thread with no busy thread behind it
  obtain ⟨t, ht, hlast⟩ := hwf.has_min {t | s.cont t ≠ []} hbusy
  rcases moves_or_waits s ht with hmoves | ⟨l, m, u, hrequests, hholds⟩
  · exact ⟨t, hmoves⟩
  · have hreleases := h.released u l hholds
    have hu : s.cont u ≠ [] := by
      intro hnil
      rw [hnil] at hreleases
      cases hreleases
    rcases moves_or_waits s hu with hmoves | ⟨l', m', v, hrequests', _⟩
    · exact ⟨u, hmoves⟩
    · exact absurd ⟨l, m, l', m', hrequests, hrequests', .inl (h.above hrequests' hholds)⟩
        (hlast u hu)

end SimpleHttpServer.Locks
