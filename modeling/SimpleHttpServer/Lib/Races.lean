import SimpleHttpServer.Lib.Locks

/-! Data that locks guard.

A lock program can also say where the operation reads and writes shared data: an access
is a point of the program, written as a lock that everybody may have at once, so it
never waits. A datum may have a lock that guards it. If every program takes no lock
twice and accesses each guarded datum under its guard, and in write mode to write it
(`Guarded`), then no two threads are ever at accesses to the same guarded datum of which
one writes (`no_race`).

Without its accesses (`erase`), and without steps that do nothing, such a program is a lock
program (`Erases`). -/
namespace SimpleHttpServer.Locks

/-- A lock, or an access to a datum. -/
inductive Spot (L X : Type*)
  | lock (l : L)
  | access (x : X) (m : Mode)
  deriving DecidableEq, Repr

variable {T O L A X : Type*}

/-- Reading or writing a datum. -/
def access (x : X) (m : Mode) : Prog (Spot L X) A := .hold (.access x m) .read .skip

/-- One thread is about to write the datum, and another to read or to write it. -/
def Race (s : State T (Spot L X) A) (x : X) : Prop :=
  ∃ t u m, t ≠ u ∧ Requests s t (.access x .write) .read ∧ Requests s u (.access x m) .read

/-! ### The programs without their accesses -/

/-- The lock program behind the accesses. -/
def erase : Prog (Spot L X) A → Prog L A
  | .skip => .skip
  | .hold (.lock l) m p => .hold l m (erase p)
  | .hold (.access _ _) _ p => erase p
  | .seq p q => .seq (erase p) (erase q)
  | .either p q => .either (erase p) (erase q)
  | .any p => .any fun a => erase (p a)
  | .loop p => .loop (erase p)
  | .attempt p handler => .attempt (erase p) (erase handler)

/-- One program behind the other, where there are two. -/
def Prog.append : Prog L A → Prog L A → Prog L A
  | .skip, q => q
  | p, .skip => p
  | p, q => .seq p q

/-- A choice between two programs, where there is one. -/
def Prog.choose : Prog L A → Prog L A → Prog L A
  | .skip, .skip => .skip
  | p, q => .either p q

/-- The program without the steps that do nothing. -/
def Prog.tidy : Prog L A → Prog L A
  | .skip => .skip
  | .hold l m p => .hold l m p.tidy
  | .seq p q => p.tidy.append q.tidy
  | .either p q => p.tidy.choose q.tidy
  | .any p => .any fun a => (p a).tidy
  | .loop p => .loop p.tidy
  | .attempt p handler => .attempt p.tidy handler.tidy

/-- The lock program is the other one without its accesses. -/
def Erases (p : Prog (Spot L X) A) (q : Prog L A) : Prop := (erase p).tidy = q.tidy

section
variable {p p' : Prog (Spot L X) A} {q q' : Prog L A}

theorem Erases.access (x : X) (m : Mode) : Erases (access x m : Prog (Spot L X) A) .skip := rfl

theorem Erases.hold (l : L) (m : Mode) (h : Erases p q) :
    Erases (.hold (.lock l) m p) (.hold l m q) := congrArg (Prog.hold l m) h

theorem Erases.seq (h : Erases p q) (h' : Erases p' q') : Erases (.seq p p') (.seq q q') :=
  congrArg₂ Prog.append h h'

/-- Accesses in front of a program. -/
theorem Erases.front (h' : Erases p' q') (h : Erases p .skip) : Erases (.seq p p') q' := by
  have happend : (erase (.seq p p')).tidy = (erase p).tidy.append (erase p').tidy := rfl
  unfold Erases
  rw [happend, h, h']
  rfl

/-- Accesses behind a program. -/
theorem Erases.back (h : Erases p q) (h' : Erases p' .skip) : Erases (.seq p p') q := by
  have happend : (erase (.seq p p')).tidy = (erase p).tidy.append (erase p').tidy := rfl
  unfold Erases
  rw [happend, h, h']
  cases q.tidy <;> rfl

theorem Erases.either (h : Erases p q) (h' : Erases p' q') :
    Erases (.either p p') (.either q q') := congrArg₂ Prog.choose h h'

theorem Erases.any {p : A → Prog (Spot L X) A} {q : A → Prog L A} (h : ∀ a, Erases (p a) (q a)) :
    Erases (.any p) (.any q) := congrArg Prog.any (funext h)

theorem Erases.loop (h : Erases p q) : Erases (.loop p) (.loop q) := congrArg Prog.loop h

theorem Erases.attempt (h : Erases p q) (h' : Erases p' q') :
    Erases (.attempt p p') (.attempt q q') := congrArg₂ Prog.attempt h h'

end

/-! ### The discipline -/

/-- The lock is held, in write mode to write. -/
def Covers (held : List (L × Mode)) (l : L) (m : Mode) : Prop :=
  (l, .write) ∈ held ∨ m = .read ∧ (l, .read) ∈ held

variable (guard : X → Option L)

/-- Under the locks held, the program takes none of them again and accesses guarded data under
their guards. -/
def Guarded (held : List (L × Mode)) : Prog (Spot L X) A → Prop
  | .skip => True
  | .hold (.lock l) m p => (∀ m', (l, m') ∉ held) ∧ Guarded ((l, m) :: held) p
  | .hold (.access x m) _ p => (∀ l, guard x = some l → Covers held l m) ∧ Guarded held p
  | .seq p q => Guarded held p ∧ Guarded held q
  | .either p q => Guarded held p ∧ Guarded held q
  | .any p => ∀ a, Guarded held (p a)
  | .loop p => Guarded held p
  | .attempt p handler => Guarded held p ∧ Guarded held handler

variable {guard} in
/-- With fewer guards the discipline asks for less. -/
theorem Guarded.mono {guard' : X → Option L} (hguard : ∀ x l, guard' x = some l → guard x = some l)
    {held : List (L × Mode)} {p : Prog (Spot L X) A} (h : Guarded guard held p) :
    Guarded guard' held p := by
  induction p generalizing held with
  | skip => trivial
  | hold l m p ih =>
    cases l with
    | lock l => exact ⟨h.1, ih h.2⟩
    | access x m' => exact ⟨fun l hl => h.1 l (hguard x l hl), ih h.2⟩
  | seq p q ihp ihq => exact ⟨ihp h.1, ihq h.2⟩
  | either p q ihp ihq => exact ⟨ihp h.1, ihq h.2⟩
  | any p ih => exact fun a => ih a (h a)
  | loop p ih => exact ih h
  | attempt p handler ihp ihh => exact ⟨ihp h.1, ihh h.2⟩

variable [DecidableEq L]

/-- So do all the programs of a continuation, under the locks that are still held there. -/
def Disciplined (held : List (L × Mode)) : List (Item (Spot L X) A) → Prop
  | [] => True
  | .prog p :: k | .handler p :: k => Guarded guard held p ∧ Disciplined held k
  | .release (.lock l) :: k => Disciplined (held.filter (·.1 ≠ l)) k
  | .release (.access _ _) :: k => Disciplined held k

/-- Readers apart, a lock has one owner, and every thread keeps to the discipline. -/
structure Safe (s : State T (Spot L X) A) : Prop where
  exclusive : ∀ l t u m m', (t, m) ∈ s.owners (.lock l) → (u, m') ∈ s.owners (.lock l) → t ≠ u →
    m = .read ∧ m' = .read
  threads : ∀ t, ∃ held, (∀ x ∈ held, (t, x.2) ∈ s.owners (.lock x.1)) ∧
    Disciplined guard held (s.cont t)

variable {guard}

theorem filter_of_free {held : List (L × Mode)} {l : L} (h : ∀ m, (l, m) ∉ held) :
    held.filter (·.1 ≠ l) = held := by
  apply List.filter_eq_self.mpr
  intro x hx
  have hne : x.1 ≠ l := by
    intro heq
    exact h x.2 (heq ▸ hx)
  simpa using hne

/-- The locks that are held where an exception is caught are those of the continuation it leaves. -/
theorem unwind_disciplined {held : List (L × Mode)} {k : List (Item (Spot L X) A)}
    (h : Disciplined guard held k) : Disciplined guard held (unwind k) := by
  induction k generalizing held with
  | nil => exact h
  | cons item k ih =>
    cases item with
    | prog p => exact ih h.2
    | release l =>
      cases l with
      | lock l => exact ih h
      | access x m => exact ih h
    | handler p => exact h

omit [DecidableEq L] in
theorem Spot.lock_ne_access {l : L} {x : X} {m : Mode} : (Spot.lock l : Spot L X) ≠ .access x m :=
  nofun

variable [DecidableEq T]

/-- A thread goes on with a continuation that keeps to the discipline. -/
theorem Safe.goto {s : State T (Spot L X) A} (h : Safe guard s) {t : T} {held : List (L × Mode)}
    {k : List (Item (Spot L X) A)} (hheld : ∀ x ∈ held, (t, x.2) ∈ s.owners (.lock x.1))
    (hk : Disciplined guard held k) : Safe guard (s.goto t k) where
  exclusive := h.exclusive
  threads := by
    intro u
    by_cases hu : u = t
    · have hcont : (s.goto t k).cont u = k := by rw [hu]; exact Function.update_self ..
      rw [hcont]
      exact ⟨held, hu ▸ hheld, hk⟩
    · have hcont : (s.goto t k).cont u = s.cont u := Function.update_of_ne hu ..
      rw [hcont]
      exact h.threads u

omit [DecidableEq T] in
theorem lock_owners_of_ne (s : State T L A) {l x : L} (t : T) (m : Mode) (h : x ≠ l) :
    (s.lock l t m).owners x = s.owners x := Function.update_of_ne h ..

theorem unlock_owners_of_ne (s : State T L A) {l x : L} (t : T) (h : x ≠ l) :
    (s.unlock l t).owners x = s.owners x := Function.update_of_ne h ..

omit [DecidableEq T] in
/-- What a thread takes, and what it has already. -/
theorem mem_lock {s : State T L A} {l x : L} {t u : T} {m m' : Mode} :
    (u, m') ∈ (s.lock l t m).owners x ↔ (x = l ∧ u = t ∧ m' = m) ∨ (u, m') ∈ s.owners x := by
  by_cases hx : x = l
  · have howners : (s.lock l t m).owners x = (t, m) :: s.owners x := by
      rw [hx]
      exact Function.update_self ..
    rw [howners, List.mem_cons, Prod.mk.injEq]
    simp [hx]
  · simp [lock_owners_of_ne s t m hx, hx]

theorem mem_unlock {s : State T L A} {l x : L} {t u : T} {m : Mode} :
    (u, m) ∈ (s.unlock l t).owners x ↔ (x = l → u ≠ t) ∧ (u, m) ∈ s.owners x := by
  by_cases hx : x = l
  · have howners : (s.unlock l t).owners x = (s.owners x).filter (·.1 ≠ t) := by
      rw [hx]
      exact Function.update_self ..
    rw [howners, List.mem_filter]
    simp [hx, and_comm]
  · simp [unlock_owners_of_ne s t hx, hx]

variable [DecidableEq X]

omit [DecidableEq T] in
/-- A thread takes a lock that nobody holds in a mode that conflicts. -/
theorem Safe.lock {s : State T (Spot L X) A} (h : Safe guard s) {t : T} {l : L} {m : Mode}
    (hfree : (s.owners (.lock l)).all (compatible m) = true) :
    Safe guard (s.lock (.lock l) t m) where
  exclusive := by
    have hread : ∀ u m', (u, m') ∈ s.owners (.lock l) → m = .read ∧ m' = .read := by
      intro u m' hu
      have := List.all_eq_true.mp hfree _ hu
      simpa [compatible] using this
    intro x u v mu mv hu hv hne
    rw [mem_lock] at hu hv
    obtain ⟨hx, rfl, rfl⟩ | hu := hu
    · obtain ⟨-, rfl, rfl⟩ | hv := hv
      · exact absurd rfl hne
      · cases hx
        exact hread v mv hv
    · obtain ⟨hx, rfl, rfl⟩ | hv := hv
      · cases hx
        exact (hread u mu hu).symm
      · exact h.exclusive x u v mu mv hu hv hne
  threads := by
    intro u
    obtain ⟨held, hheld, hk⟩ := h.threads u
    exact ⟨held, fun x hx => mem_lock.mpr (.inr (hheld x hx)), hk⟩

omit [DecidableEq T] [DecidableEq X] in
/-- Who is at which access plays no part. -/
theorem Safe.of_locks {s s' : State T (Spot L X) A} (h : Safe guard s) (hcont : s'.cont = s.cont)
    (howners : ∀ l, s'.owners (.lock l) = s.owners (.lock l)) : Safe guard s' := by
  constructor
  · intro l
    rw [howners l]
    exact h.exclusive l
  · intro t
    obtain ⟨held, hheld, hk⟩ := h.threads t
    exact ⟨held, fun x hx => howners x.1 ▸ hheld x hx, hcont ▸ hk⟩

theorem take_safe {s : State T (Spot L X) A} (h : Safe guard s) {t : T} {l : L} {m : Mode}
    {p : Prog (Spot L X) A} {k : List (Item (Spot L X) A)}
    (hfree : (s.owners (.lock l)).all (compatible m) = true)
    (hk : s.cont t = .prog (.hold (.lock l) m p) :: k) :
    Safe guard ((s.lock (.lock l) t m).goto t (.prog p :: .release (.lock l) :: k)) := by
  obtain ⟨held, hheld, hcont⟩ := h.threads t
  rw [hk] at hcont
  obtain ⟨⟨hnew, hp⟩, hrest⟩ := hcont
  have hcons : ∀ x ∈ (l, m) :: held, (t, x.2) ∈ (s.lock (.lock l) t m).owners (.lock x.1) := by
    intro x hx
    apply mem_lock.mpr
    obtain rfl | hx := List.mem_cons.mp hx
    · exact .inl ⟨rfl, rfl, rfl⟩
    · exact .inr (hheld x hx)
  have hdropped : ((l, m) :: held).filter (·.1 ≠ l) = held := by
    rw [List.filter_cons_of_neg (by simp), filter_of_free hnew]
  have hbehind : Disciplined guard (((l, m) :: held).filter (·.1 ≠ l)) k := by
    rw [hdropped]
    exact hrest
  exact (h.lock hfree).goto hcons ⟨hp, hbehind⟩

theorem release_safe {s : State T (Spot L X) A} (h : Safe guard s) {t : T} {l : L}
    {k : List (Item (Spot L X) A)} (hk : s.cont t = .release (.lock l) :: k) :
    Safe guard ((s.unlock (.lock l) t).goto t k) := by
  obtain ⟨held, hheld, hcont⟩ := h.threads t
  rw [hk] at hcont
  constructor
  · intro x u v mu mv hu hv
    exact h.exclusive x u v mu mv (mem_unlock.mp hu).2 (mem_unlock.mp hv).2
  · intro u
    by_cases hu : u = t
    · have hgoto : ((s.unlock (.lock l) t).goto t k).cont u = k := by
        rw [hu]
        exact Function.update_self ..
      rw [hgoto]
      refine ⟨held.filter (·.1 ≠ l), ?_, hcont⟩
      intro x hx
      obtain ⟨hx, hne⟩ := List.mem_filter.mp hx
      have hne : x.1 ≠ l := by simpa using hne
      exact mem_unlock.mpr ⟨fun heq => absurd (Spot.lock.inj heq) hne, hu ▸ hheld x hx⟩
    · have hgoto : ((s.unlock (.lock l) t).goto t k).cont u = s.cont u := Function.update_of_ne hu ..
      rw [hgoto]
      obtain ⟨held', hheld', hk'⟩ := h.threads u
      exact ⟨held', fun x hx => mem_unlock.mpr ⟨fun _ => hu, hheld' x hx⟩, hk'⟩

theorem perform_safe {s s' : State T (Spot L X) A} (h : Safe guard s) {t : T} {c : Choice A}
    {p : Prog (Spot L X) A} {k : List (Item (Spot L X) A)} (hk : s.cont t = .prog p :: k)
    (hstep : s.perform t c k p = some s') : Safe guard s' := by
  obtain ⟨held, hheld, hcont⟩ := h.threads t
  rw [hk] at hcont
  obtain ⟨hp, hrest⟩ := hcont
  cases p with
  | skip =>
    cases hstep
    exact h.goto hheld hrest
  | hold l m p =>
    obtain ⟨hfree, hstep⟩ := Option.ite_none_right_eq_some.mp hstep
    rw [← Option.some.inj hstep]
    cases l with
    | lock l => exact take_safe h hfree hk
    | access x m' =>
      have hlock : Safe guard (s.lock (.access x m') t m) :=
        h.of_locks rfl fun _ => lock_owners_of_ne s t m Spot.lock_ne_access
      exact hlock.goto (fun y hy => mem_lock.mpr (.inr (hheld y hy))) ⟨hp.2, hrest⟩
  | seq p q =>
    cases hstep
    exact h.goto hheld ⟨hp.1, hp.2, hrest⟩
  | either p q =>
    simp only [State.perform] at hstep
    split at hstep
    · cases hstep
      exact h.goto hheld ⟨hp.1, hrest⟩
    · cases hstep
      exact h.goto hheld ⟨hp.2, hrest⟩
    · cases hstep
  | any p =>
    simp only [State.perform] at hstep
    split at hstep
    · cases hstep
      exact h.goto hheld ⟨hp _, hrest⟩
    · cases hstep
  | loop p =>
    simp only [State.perform] at hstep
    split at hstep
    · cases hstep
      exact h.goto hheld ⟨hp, hp, hrest⟩
    · cases hstep
      exact h.goto hheld hrest
    · cases hstep
  | attempt p handler =>
    cases hstep
    exact h.goto hheld ⟨hp.1, hp.2, hrest⟩

theorem advance_safe {s s' : State T (Spot L X) A} (h : Safe guard s) {t : T} {c : Choice A}
    (hstep : s.advance t c = some s') : Safe guard s' := by
  obtain ⟨held, hheld, hcont⟩ := h.threads t
  unfold State.advance at hstep
  split at hstep
  case h_1 => cases hstep
  case h_2 l k hk =>
    cases hstep
    cases l with
    | lock l => exact release_safe h hk
    | access x m =>
      rw [hk] at hcont
      have hunlock : Safe guard (s.unlock (.access x m) t) :=
        h.of_locks rfl fun _ => unlock_owners_of_ne s t Spot.lock_ne_access
      have hkept : ∀ y ∈ held, (t, y.2) ∈ (s.unlock (.access x m) t).owners (.lock y.1) :=
        fun y hy => mem_unlock.mpr ⟨nofun, hheld y hy⟩
      exact hunlock.goto hkept hcont
  case h_3 p k hk =>
    cases hstep
    rw [hk] at hcont
    exact h.goto hheld hcont.2
  case h_4 p k hk =>
    split at hstep
    · cases hstep
      rw [hk] at hcont
      exact h.goto hheld (unwind_disciplined hcont.2)
    · exact perform_safe h hk hstep

variable {prog : O → Prog (Spot L X) A}

theorem step_safe (hprog : ∀ o, Guarded guard [] (prog o)) {s s' : State T (Spot L X) A}
    {a : Action T O A} (h : Safe guard s) (hstep : (machine T prog).step s a = some s') :
    Safe guard s' := by
  cases a with
  | start t o =>
    unfold machine at hstep
    dsimp only at hstep
    split at hstep
    · cases hstep
      have hnone : ∀ x ∈ ([] : List (L × Mode)), (t, x.2) ∈ s.owners (.lock x.1) := nofun
      exact h.goto hnone ⟨hprog o, trivial⟩
    · cases hstep
  | step t c => exact advance_safe h hstep

theorem reachable_safe (hprog : ∀ o, Guarded guard [] (prog o)) {s : State T (Spot L X) A}
    (h : (machine T prog).Reachable .initial s) : Safe guard s := by
  have keep : ∀ s a t, Safe guard s → (machine T prog).step s a = some t → Safe guard t :=
    fun _ _ _ hs hstep => step_safe hprog hs hstep
  apply h.invariant keep
  constructor
  · intro l t u m m' ht
    cases ht
  · exact fun t => ⟨[], nofun, trivial⟩

omit [DecidableEq T] [DecidableEq X] in
/-- A thread at an access to a guarded datum has its guard. -/
theorem Safe.covered {s : State T (Spot L X) A} (h : Safe guard s) {t : T} {x : X} {m : Mode}
    (hrequests : Requests s t (.access x m) .read) {l : L} (hguard : guard x = some l) :
    (t, .write) ∈ s.owners (.lock l) ∨ m = .read ∧ (t, .read) ∈ s.owners (.lock l) := by
  obtain ⟨p, k, hk⟩ := hrequests
  obtain ⟨held, hheld, hcont⟩ := h.threads t
  rw [hk] at hcont
  obtain hwrite | ⟨hread, hmem⟩ := hcont.1.1 l hguard
  · exact .inl (hheld _ hwrite)
  · exact .inr ⟨hread, hheld _ hmem⟩

omit [DecidableEq T] [DecidableEq X] in
/-- Guarded data are free of races. -/
theorem no_race {s : State T (Spot L X) A} (h : Safe guard s) {x : X} {l : L}
    (hguard : guard x = some l) : ¬ Race s x := by
  intro ⟨t, u, m, hne, ht, hu⟩
  have hwrite : (t, .write) ∈ s.owners (.lock l) := by
    obtain hmem | ⟨hmode, -⟩ := h.covered ht hguard
    · exact hmem
    · cases hmode
  obtain hmem | ⟨-, hmem⟩ := h.covered hu hguard
  · cases (h.exclusive l t u _ _ hwrite hmem hne).1
  · cases (h.exclusive l t u _ _ hwrite hmem hne).1

/-! ### Leading a thread to an access

One rule for each kind of program, for a thread that goes on alone in a reachable state. -/

section
variable {L : Type*} [DecidableEq L] {A : Type*} {prog : O → Prog L A} {s : State T L A} {t u : T}
  {p q : Prog L A} {k k' : List (Item L A)} {l : L} {m : Mode}

omit [DecidableEq L] in
theorem goto_self : (s.goto t k).cont t = k := Function.update_self ..

omit [DecidableEq L] in
theorem goto_of_ne (h : u ≠ t) : (s.goto t k).cont u = s.cont u := Function.update_of_ne h ..

omit [DecidableEq L] in
theorem goto_goto : (s.goto t k).goto t k' = s.goto t k' :=
  congrArg (State.mk · s.owners) (Function.update_idem ..)

theorem lock_unlock (h : s.owners l = []) : (s.lock l t m).unlock l t = s := by
  have howners : (s.lock l t m).owners l = [(t, m)] := by
    rw [show (s.lock l t m).owners l = (t, m) :: s.owners l from Function.update_self .., h]
  have hfilter : ((s.lock l t m).owners l).filter (·.1 ≠ t) = s.owners l := by
    rw [howners, h]
    simp
  apply congrArg (State.mk s.cont)
  rw [hfilter]
  funext x
  by_cases hx : x = l
  · rw [hx]
    exact Function.update_self ..
  · rw [Function.update_of_ne hx]
    exact Function.update_of_ne hx ..

theorem reach_start (h : (machine T prog).Reachable .initial s) (hk : s.cont t = []) (o : O) :
    (machine T prog).Reachable .initial (s.goto t [.prog (prog o)]) := by
  have hstep : (machine T prog).step s (.start t o) = some (s.goto t [.prog (prog o)]) := by
    simp only [machine, hk]
  exact h.step hstep

/-- What a thread's next step does where it is by itself. -/
theorem reach_step (h : (machine T prog).Reachable .initial (s.goto t (.prog p :: k)))
    {c : Choice A} {s' : State T L A} (hc : c ≠ .throw)
    (hstep : (s.goto t (.prog p :: k)).perform t c k p = some s') :
    (machine T prog).Reachable .initial s' := by
  have hadvance : (s.goto t (.prog p :: k)).advance t c = some s' := by
    unfold State.advance
    rw [goto_self]
    cases c with
    | throw => exact absurd rfl hc
    | _ => exact hstep
  exact h.step (a := .step t c) hadvance

theorem reach_seq (h : (machine T prog).Reachable .initial (s.goto t (.prog (.seq p q) :: k))) :
    (machine T prog).Reachable .initial (s.goto t (.prog p :: .prog q :: k)) := by
  rw [← goto_goto (s := s) (t := t) (k := .prog (.seq p q) :: k)]
  exact reach_step h (c := .first) nofun rfl

theorem reach_second
    (h : (machine T prog).Reachable .initial (s.goto t (.prog (.either p q) :: k))) :
    (machine T prog).Reachable .initial (s.goto t (.prog q :: k)) := by
  rw [← goto_goto (s := s) (t := t) (k := .prog (.either p q) :: k)]
  exact reach_step h (c := .second) nofun rfl

theorem reach_done (h : (machine T prog).Reachable .initial (s.goto t (.prog (.loop p) :: k))) :
    (machine T prog).Reachable .initial (s.goto t k) := by
  rw [← goto_goto (s := s) (t := t) (k := .prog (.loop p) :: k)]
  exact reach_step h (c := .second) nofun rfl

theorem reach_skip (h : (machine T prog).Reachable .initial (s.goto t (.prog .skip :: k))) :
    (machine T prog).Reachable .initial (s.goto t k) := by
  rw [← goto_goto (s := s) (t := t) (k := .prog .skip :: k)]
  exact reach_step h (c := .first) nofun rfl

/-- A lock that nobody has. -/
theorem reach_hold (h : (machine T prog).Reachable .initial (s.goto t (.prog (.hold l m p) :: k)))
    (hfree : s.owners l = []) :
    (machine T prog).Reachable .initial ((s.lock l t m).goto t (.prog p :: .release l :: k)) := by
  have hperform : (s.goto t (.prog (.hold l m p) :: k)).perform t .first k (.hold l m p) =
      some (((s.goto t (.prog (.hold l m p) :: k)).lock l t m).goto t (.prog p :: .release l :: k)) := by
    have hall : ((s.goto t (.prog (.hold l m p) :: k)).owners l).all (compatible m) = true := by
      rw [show (s.goto t (.prog (.hold l m p) :: k)).owners l = s.owners l from rfl, hfree]
      rfl
    exact if_pos hall
  rw [← goto_goto (s := s.lock l t m) (t := t) (k := .prog (.hold l m p) :: k)]
  exact reach_step h (c := .first) nofun hperform

theorem reach_release
    (h : (machine T prog).Reachable .initial ((s.lock l t m).goto t (.release l :: k)))
    (hfree : s.owners l = []) : (machine T prog).Reachable .initial (s.goto t k) := by
  have hadvance : ((s.lock l t m).goto t (.release l :: k)).advance t .first =
      some (((s.lock l t m).unlock l t).goto t k) := by
    unfold State.advance
    rw [goto_self, ← goto_goto (s := (s.lock l t m).unlock l t) (t := t) (k := .release l :: k)]
    rfl
  rw [lock_unlock hfree] at hadvance
  exact h.step (a := .step t .first) hadvance

end

/-- An access that nobody is at. -/
theorem reach_access {s : State T (Spot L X) A} {t : T} {x : X} {m : Mode}
    {k : List (Item (Spot L X) A)}
    (h : (machine T prog).Reachable .initial (s.goto t (.prog (access x m) :: k)))
    (hfree : s.owners (.access x m) = []) :
    (machine T prog).Reachable .initial (s.goto t k) :=
  reach_release (reach_skip (reach_hold h hfree)) hfree

omit [DecidableEq L] [DecidableEq X] in
/-- One thread before a write, and then another before an access. -/
theorem race_of_goto {s : State T (Spot L X) A} {t u : T} {x : X} {m : Mode}
    {k k' : List (Item (Spot L X) A)} (hne : t ≠ u) :
    Race ((s.goto t (.prog (access x .write) :: k)).goto u (.prog (access x m) :: k')) x := by
  refine ⟨t, u, m, hne, ⟨.skip, k, ?_⟩, ⟨.skip, k', goto_self⟩⟩
  exact (goto_of_ne hne).trans goto_self

end SimpleHttpServer.Locks
