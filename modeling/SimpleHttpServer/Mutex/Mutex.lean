import SimpleHttpServer.Lib.Lockable
import SimpleHttpServer.Lib.Locks

/-! The mutex classes.

`Mutex`, `SpinLock` and `RWMutex` wrap the locks of pthread, which keep whether they
are taken, or how many readers they have, and not by whom. `CASLock` is a flag of its
own: every turn of `lock` sets it, and the turn that found it clear has the lock.
`NullMutex` and `NullRWMutex` let everybody in at once. -/
namespace SimpleHttpServer

/-- A `pthread_mutex_t`, or a `pthread_spinlock_t`: a call waits while the lock is taken. -/
def Mutex : Lockable Unit Bool where
  free := false
  attempt _ taken := (!taken, true)
  unlock _ := some false

def SpinLock : Lockable Unit Bool := Mutex

namespace CASLock

/-- `std::atomic_flag::test_and_set`: the value before. -/
def testAndSet (flag : Bool) : Bool × Bool := (flag, true)

/-- One turn of the loop in `lock`. -/
def lock (flag : Bool) : Bool × Bool := ((!(testAndSet flag).1), (testAndSet flag).2)

def tryLock (flag : Bool) : Bool × Bool := ((!(testAndSet flag).1), (testAndSet flag).2)

/-- `clear`, whoever calls. -/
def unlock (_flag : Bool) : Bool := false

end CASLock

def CASLock : Lockable Unit Bool where
  free := false
  attempt _ := CASLock.lock
  unlock flag := some (CASLock.unlock flag)

def NullMutex (μ : Type) : Lockable μ Unit where
  free := ()
  attempt _ _ := (true, ())
  unlock _ := some ()

/-- A `pthread_rwlock_t`: how many readers are inside, and whether a writer is. -/
structure RWMutex.State where
  readers : ℕ
  writer : Bool
  deriving DecidableEq, Repr

namespace RWMutex
open Locks (Mode)

def rdlock (s : State) : Bool × State :=
  if s.writer then (false, s) else (true, {s with readers := s.readers + 1})

def wrlock (s : State) : Bool × State :=
  if s.writer ∨ s.readers ≠ 0 then (false, s) else (true, {s with writer := true})

/-- The lock does not know who calls: a writer inside leaves, else a reader; if nobody is inside,
the call is an error. -/
def unlock (s : State) : Option State :=
  if s.writer then some {s with writer := false}
  else if s.readers = 0 then none
  else some {s with readers := s.readers - 1}

end RWMutex

def RWMutex : Lockable Locks.Mode RWMutex.State where
  free := ⟨0, false⟩
  attempt
    | .read => RWMutex.rdlock
    | .write => RWMutex.wrlock
  unlock := RWMutex.unlock

/-! ### What their states stand for -/

/-- One word: as many are inside as it says. -/
def Mutex.Holds (taken : Bool) (H : Multiset Unit) : Prop := H.card = taken.toNat

theorem mutex_keeps : Mutex.Keeps Mutex.Holds fun _ _ => False where
  symm := id
  free := rfl
  waits := by
    intro taken H m h hattempt
    have htaken : taken = true := by simpa [Mutex] using hattempt
    subst htaken
    exact h
  takes := by
    intro taken H m h hattempt
    have htaken : taken = false := by simpa [Mutex] using hattempt
    subst htaken
    show (m ::ₘ H).card = 1
    rw [Multiset.card_cons, h]
    rfl
  shared := by
    intro taken H m h hattempt m' hm'
    have htaken : taken = false := by simpa [Mutex] using hattempt
    subst htaken
    rw [Multiset.card_eq_zero.mp h] at hm'
    exact Multiset.notMem_zero m' hm'
  gives := by
    intro taken H m h hm
    show ∃ s', some false = some s' ∧ (H.erase m).card = s'.toNat
    have hle : H.card ≤ 1 := by
      rw [h]
      cases taken <;> decide
    have hpos : H.card ≠ 0 := fun h0 => by
      rw [Multiset.card_eq_zero.mp h0] at hm
      exact Multiset.notMem_zero m hm
    have hone : H.card = 1 := by omega
    exact ⟨false, rfl, by rw [Multiset.card_erase_of_mem hm, hone]; rfl⟩

/-- Readers count the readers, and a writer is alone. -/
structure RWMutex.Holds (s : RWMutex.State) (H : Multiset Locks.Mode) : Prop where
  readers : H.count .read = s.readers
  writer : H.count .write = s.writer.toNat
  alone : s.writer = true → s.readers = 0

/-- Two may be inside together when the lock programs take them to be (`Locks.compatible`). -/
def RWMutex.Shares (m m' : Locks.Mode) : Prop := Locks.compatible m ((), m') = true

theorem RWMutex.shares_iff {m m' : Locks.Mode} : RWMutex.Shares m m' ↔ m = .read ∧ m' = .read := by
  simp [RWMutex.Shares, Locks.compatible]

/-- What an attempt comes to. -/
theorem rwMutex_attempt (m : Locks.Mode) (s : RWMutex.State) :
    RWMutex.attempt m s = (false, s) ∧ (s.writer = true ∨ m = .write ∧ s.readers ≠ 0) ∨
      m = .read ∧ s.writer = false ∧
        RWMutex.attempt m s = (true, {s with readers := s.readers + 1}) ∨
      m = .write ∧ s.writer = false ∧ s.readers = 0 ∧
        RWMutex.attempt m s = (true, {s with writer := true}) := by
  cases hw : s.writer with
  | true => exact .inl ⟨by cases m <;> simp [RWMutex, RWMutex.rdlock, RWMutex.wrlock, hw], .inl rfl⟩
  | false =>
    cases m with
    | read => exact .inr (.inl ⟨rfl, rfl, by simp [RWMutex, RWMutex.rdlock, hw]⟩)
    | write =>
      by_cases hr : s.readers = 0
      · exact .inr (.inr ⟨rfl, rfl, hr, by simp [RWMutex, RWMutex.wrlock, hw, hr]⟩)
      · exact .inl ⟨by simp [RWMutex, RWMutex.wrlock, hr], .inr ⟨rfl, hr⟩⟩

/-- The call that lets somebody out who is inside. -/
theorem RWMutex.Holds.unlock {s : RWMutex.State} {H : Multiset Locks.Mode} {m : Locks.Mode}
    (h : RWMutex.Holds s H) (hm : m ∈ H) :
    ∃ s', RWMutex.unlock s = some s' ∧ RWMutex.Holds s' (H.erase m) := by
  have hpos : 0 < H.count m := Multiset.count_pos.mpr hm
  cases hw : s.writer with
  | true =>
    have hreaders := h.alone hw
    have hwrite : m = .write := by
      cases m with
      | read => rw [h.readers, hreaders] at hpos; omega
      | write => rfl
    subst hwrite
    have hcount : H.count .write = 1 := by rw [h.writer, hw]; rfl
    exact ⟨{s with writer := false}, by simp [RWMutex.unlock, hw],
      by rw [Multiset.count_erase_of_ne (by decide), h.readers],
      by rw [Multiset.count_erase_self, hcount]; rfl, fun h => by cases h⟩
  | false =>
    have hread : m = .read := by
      cases m with
      | read => rfl
      | write => rw [h.writer, hw] at hpos; cases hpos
    subst hread
    have hreaders : s.readers ≠ 0 := by rw [← h.readers]; omega
    exact ⟨{s with readers := s.readers - 1}, by simp [RWMutex.unlock, hw, hreaders],
      by rw [Multiset.count_erase_self, h.readers],
      by rw [Multiset.count_erase_of_ne (by decide), h.writer],
      fun h => by rw [show s.writer = true from h] at hw; cases hw⟩

theorem RWMutex.Holds.nobody {s : RWMutex.State} (h : RWMutex.Holds s 0) : s = ⟨0, false⟩ := by
  obtain ⟨readers, writer⟩ := s
  have hreaders : 0 = readers := h.readers
  have hwriter : 0 = writer.toNat := h.writer
  cases writer
  · rw [← hreaders]
  · cases hwriter

theorem rwMutex_keeps : RWMutex.Keeps RWMutex.Holds RWMutex.Shares where
  symm h := by
    rw [RWMutex.shares_iff] at h ⊢
    exact ⟨h.2, h.1⟩
  free := ⟨rfl, rfl, fun h => by cases h⟩
  waits := by
    intro s H m h hattempt
    obtain ⟨ha, -⟩ | ⟨-, -, ha⟩ | ⟨-, -, -, ha⟩ := rwMutex_attempt m s
    · rwa [ha]
    · rw [ha] at hattempt; cases hattempt
    · rw [ha] at hattempt; cases hattempt
  takes := by
    intro s H m h hattempt
    obtain ⟨ha, -⟩ | ⟨rfl, hw, ha⟩ | ⟨rfl, hw, hr, ha⟩ := rwMutex_attempt m s
    · rw [ha] at hattempt; cases hattempt
    · rw [ha]
      exact ⟨by rw [Multiset.count_cons_self, h.readers],
        by rw [Multiset.count_cons_of_ne (by decide), h.writer],
        fun hw' => by rw [show s.writer = true from hw'] at hw; cases hw⟩
    · rw [ha]
      exact ⟨by rw [Multiset.count_cons_of_ne (by decide), h.readers],
        by rw [Multiset.count_cons_self, h.writer, hw]; rfl, fun _ => hr⟩
  shared := by
    intro s H m h hattempt m' hm'
    have hpos : 0 < H.count m' := Multiset.count_pos.mpr hm'
    obtain ⟨ha, -⟩ | ⟨rfl, hw, -⟩ | ⟨rfl, hw, hr, -⟩ := rwMutex_attempt m s
    · rw [ha] at hattempt; cases hattempt
    · cases m' with
      | read => rfl
      | write => rw [h.writer, hw] at hpos; cases hpos
    · cases m' with
      | read => rw [h.readers, hr] at hpos; cases hpos
      | write => rw [h.writer, hw] at hpos; cases hpos
  gives h hm := h.unlock hm

/-- A failed turn of the loop leaves the flag set, so the loop is a wait for the flag: the class
is the mutex, without an operating system. -/
theorem casLock_keeps : CASLock.Keeps Mutex.Holds fun _ _ => False := mutex_keeps

theorem nullMutex_keeps {μ : Type} [DecidableEq μ] :
    (NullMutex μ).Keeps (fun _ _ => True) fun _ _ => True where
  symm _ := trivial
  free := trivial
  waits _ _ := trivial
  takes _ _ := trivial
  shared _ _ _ _ := trivial
  gives _ _ := ⟨(), rfl, trivial⟩

end SimpleHttpServer
