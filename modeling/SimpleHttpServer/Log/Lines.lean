import SimpleHttpServer.Lib.Machine
import SimpleHttpServer.Lib.Owners
import Mathlib.Data.List.Nodup

/-! Threads that log at the same time.

`Logger::log` goes over the appenders under the logger's lock, and each appender writes under a
lock of its own, operation by operation. So, whatever the threads do, what an appender writes is
whole lines, also where several loggers share it, and the lines of one logger are in the order of
that logger's lock, which is the same for all its appenders (`one_order`). Appenders that are one
logger's alone write in that order even where they share a stream (`own_stream`). -/
namespace SimpleHttpServer.LogLines
open Owners

/-- Loggers `ℓ`, appenders `α` and events `ε`, and how they are configured: the logger whose
appenders an event comes to, which is the one it is logged through or the root logger, if any;
its appenders; what an appender admits; and what it writes for an event of a logger, operation
by operation. -/
structure Setup (ℓ α ε : Type) where
  target : ℓ → ε → Option ℓ
  appenders : ℓ → List α
  admits : α → ε → Bool
  chunks : α → ℓ → ε → List String

/-- Where a thread is in `Logger::log`: before the logger's lock; in the loop, with the appenders
left; or in an appender's `log` under its lock, with what it has left to write. -/
inductive Pc (ℓ α ε : Type)
  | idle
  | waiting (l : ℓ) (e : ε)
  | looping (l : ℓ) (e : ε) (rest : List α)
  | writing (l : ℓ) (e : ε) (a : α) (left : List String) (rest : List α)

/-- Who holds the locks, and what has been done so far: the events of each logger in the order of
its lock, the lines that appenders began, and what they wrote. -/
structure State (τ ℓ α ε : Type) where
  pc : τ → Pc ℓ α ε
  logger : ℓ → Option τ
  appender : α → Option τ
  taken : ℓ → List (τ × ε)
  begun : List (α × ℓ × ε)
  written : List (α × String)

/-- A thread calls `log`, or goes on with the call it is in. -/
inductive Action (τ ℓ ε : Type)
  | call (t : τ) (l : ℓ) (e : ε)
  | go (t : τ)

variable {τ ℓ α ε : Type}

def State.initial : State τ ℓ α ε :=
  ⟨fun _ => .idle, fun _ => none, fun _ => none, fun _ => [], [], []⟩

section Machine
variable [DecidableEq τ] [DecidableEq ℓ] [DecidableEq α]

def State.goto (s : State τ ℓ α ε) (t : τ) (k : Pc ℓ α ε) : State τ ℓ α ε :=
  {s with pc := Function.update s.pc t k}

def State.lock (s : State τ ℓ α ε) (t : τ) (l : ℓ) (e : ε) : State τ ℓ α ε :=
  {s with
    logger := Function.update s.logger l (some t)
    taken := Function.update s.taken l (s.taken l ++ [(t, e)])}

def State.unlock (s : State τ ℓ α ε) (l : ℓ) : State τ ℓ α ε :=
  {s with logger := Function.update s.logger l none}

def State.begin (s : State τ ℓ α ε) (t : τ) (l : ℓ) (e : ε) (a : α) : State τ ℓ α ε :=
  {s with
    appender := Function.update s.appender a (some t)
    begun := s.begun ++ [(a, l, e)]}

def State.put (s : State τ ℓ α ε) (a : α) (c : String) : State τ ℓ α ε :=
  {s with written := s.written ++ [(a, c)]}

def State.finish (s : State τ ℓ α ε) (a : α) : State τ ℓ α ε :=
  {s with appender := Function.update s.appender a none}

/-- A thread spins where a lock is held. -/
def step (S : Setup ℓ α ε) (s : State τ ℓ α ε) : Action τ ℓ ε → Option (State τ ℓ α ε)
  | .call t l e =>
    match s.pc t with
    | .idle =>
      match S.target l e with
      | some r => some (s.goto t (.waiting r e))
      | none => some s
    | _ => none
  | .go t =>
    match s.pc t with
    | .idle => none
    | .waiting l e =>
      if (s.logger l).isNone then some ((s.goto t (.looping l e (S.appenders l))).lock t l e)
      else none
    | .looping l _ [] => some ((s.goto t .idle).unlock l)
    | .looping l e (a :: rest) =>
      if S.admits a e then
        if (s.appender a).isNone then
          some ((s.goto t (.writing l e a (S.chunks a l e) rest)).begin t l e a)
        else none
      else some (s.goto t (.looping l e rest))
    | .writing l e a (c :: left) rest => some ((s.goto t (.writing l e a left rest)).put a c)
    | .writing l e a [] rest => some ((s.goto t (.looping l e rest)).finish a)

def machine (τ : Type) [DecidableEq τ] (S : Setup ℓ α ε) : Machine (State τ ℓ α ε) (Action τ ℓ ε) :=
  ⟨step S⟩

/-- Everything that can happen. -/
inductive Does (S : Setup ℓ α ε) (s : State τ ℓ α ε) : Action τ ℓ ε → State τ ℓ α ε → Prop
  | drop {t : τ} {l : ℓ} {e : ε} (pc : s.pc t = .idle) (nobody : S.target l e = none) :
      Does S s (.call t l e) s
  | call {t : τ} {l r : ℓ} {e : ε} (pc : s.pc t = .idle) (target : S.target l e = some r) :
      Does S s (.call t l e) (s.goto t (.waiting r e))
  | lock {t : τ} {l : ℓ} {e : ε} (pc : s.pc t = .waiting l e) (free : s.logger l = none) :
      Does S s (.go t) ((s.goto t (.looping l e (S.appenders l))).lock t l e)
  | unlock {t : τ} {l : ℓ} {e : ε} (pc : s.pc t = .looping l e []) :
      Does S s (.go t) ((s.goto t .idle).unlock l)
  | pass {t : τ} {l : ℓ} {e : ε} {a : α} {rest : List α} (pc : s.pc t = .looping l e (a :: rest))
      (refused : S.admits a e = false) : Does S s (.go t) (s.goto t (.looping l e rest))
  | begin {t : τ} {l : ℓ} {e : ε} {a : α} {rest : List α} (pc : s.pc t = .looping l e (a :: rest))
      (admitted : S.admits a e = true) (free : s.appender a = none) :
      Does S s (.go t) ((s.goto t (.writing l e a (S.chunks a l e) rest)).begin t l e a)
  | put {t : τ} {l : ℓ} {e : ε} {a : α} {c : String} {left : List String} {rest : List α}
      (pc : s.pc t = .writing l e a (c :: left) rest) :
      Does S s (.go t) ((s.goto t (.writing l e a left rest)).put a c)
  | finish {t : τ} {l : ℓ} {e : ε} {a : α} {rest : List α} (pc : s.pc t = .writing l e a [] rest) :
      Does S s (.go t) ((s.goto t (.looping l e rest)).finish a)

theorem step_does {S : Setup ℓ α ε} {s s' : State τ ℓ α ε} {x : Action τ ℓ ε}
    (h : (machine τ S).step s x = some s') : Does S s x s' := by
  cases x with
  | call t l e =>
    change (match s.pc t with | .idle => _ | _ => none) = some s' at h
    split at h
    case h_1 hpc =>
      split at h
      case h_1 htarget =>
        cases h
        exact .call hpc htarget
      case h_2 htarget =>
        cases h
        exact .drop hpc htarget
    case h_2 => cases h
  | go t =>
    unfold machine step at h
    dsimp only at h
    split at h
    case h_1 => cases h
    case h_2 hpc =>
      obtain ⟨hfree, hs⟩ := Option.ite_none_right_eq_some.mp h
      cases hs
      exact .lock hpc (Option.isNone_iff_eq_none.mp hfree)
    case h_3 hpc =>
      cases h
      exact .unlock hpc
    case h_4 hpc =>
      split at h
      case isTrue hadmitted =>
        obtain ⟨hfree, hs⟩ := Option.ite_none_right_eq_some.mp h
        cases hs
        exact .begin hpc hadmitted (Option.isNone_iff_eq_none.mp hfree)
      case isFalse hrefused =>
        cases h
        exact .pass hpc (Bool.eq_false_iff.mpr hrefused)
    case h_5 hpc =>
      cases h
      exact .put hpc
    case h_6 hpc =>
      cases h
      exact .finish hpc

/-! ### Who holds what -/

/-- The logger whose lock a thread holds. -/
def Pc.logger : Pc ℓ α ε → Option ℓ
  | .looping l _ _ => some l
  | .writing l _ _ _ _ => some l
  | _ => none

/-- The appender whose lock it holds. -/
def Pc.appender : Pc ℓ α ε → Option α
  | .writing _ _ a _ _ => some a
  | _ => none

/-- What it has left to write of the line it is in. -/
def Pc.left : Pc ℓ α ε → List String
  | .writing _ _ _ left _ => left
  | _ => []

structure Locked (s : State τ ℓ α ε) : Prop where
  logger : Owns s.logger (Pc.logger ∘ s.pc)
  appender : Owns s.appender (Pc.appender ∘ s.pc)

omit [DecidableEq ℓ] [DecidableEq α] in
theorem comp_goto {β : Type} (f : Pc ℓ α ε → β) (s : State τ ℓ α ε) (t : τ) (k : Pc ℓ α ε) :
    f ∘ (s.goto t k).pc = Function.update (f ∘ s.pc) t (f k) := Function.comp_update f s.pc t k

omit [DecidableEq ℓ] [DecidableEq α] in
/-- What a move of a thread does not change of it, it changes of nobody. -/
theorem comp_goto_same {β : Type} {f : Pc ℓ α ε → β} {s : State τ ℓ α ε} {t : τ} {k k' : Pc ℓ α ε}
    (hpc : s.pc t = k) (hsame : f k' = f k) : f ∘ (s.goto t k').pc = f ∘ s.pc := by
  rw [comp_goto, hsame, ← hpc]
  exact Function.update_eq_self t (f ∘ s.pc)

section Moves
variable {κ : Type} {owner : κ → Option τ} {f : Pc ℓ α ε → Option κ} {s : State τ ℓ α ε} {t : τ}
  {k k' : Pc ℓ α ε}

omit [DecidableEq ℓ] [DecidableEq α] in
theorem owns_same (h : Owns owner (f ∘ s.pc)) (hpc : s.pc t = k) (hsame : f k' = f k) :
    Owns owner (f ∘ (s.goto t k').pc) := by
  rw [comp_goto_same hpc hsame]
  exact h

omit [DecidableEq ℓ] [DecidableEq α] in
theorem owns_take [DecidableEq κ] (h : Owns owner (f ∘ s.pc)) (hpc : s.pc t = k) (hnone : f k = none)
    {l : κ} (hfree : owner l = none) (hheld : f k' = some l) :
    Owns (Function.update owner l (some t)) (f ∘ (s.goto t k').pc) := by
  rw [comp_goto, hheld]
  exact h.take hfree ((congrArg f hpc).trans hnone)

omit [DecidableEq ℓ] [DecidableEq α] in
theorem owns_give [DecidableEq κ] (h : Owns owner (f ∘ s.pc)) (hpc : s.pc t = k) {l : κ}
    (hheld : f k = some l) (hnone : f k' = none) :
    Owns (Function.update owner l none) (f ∘ (s.goto t k').pc) := by
  rw [comp_goto, hnone]
  exact h.give ((congrArg f hpc).trans hheld)

variable {β : Type} {g : Pc ℓ α ε → List β}

omit [DecidableEq ℓ] [DecidableEq α] in
theorem due_goto_same (hpc : s.pc t = k) (hsame : g k' = g k) (j : κ) :
    due owner (g ∘ (s.goto t k').pc) j = due owner (g ∘ s.pc) j := by
  rw [comp_goto_same hpc hsame]

omit [DecidableEq τ] [DecidableEq ℓ] [DecidableEq α] in
theorem due_holder (h : Owns owner (f ∘ s.pc)) (hpc : s.pc t = k) {l : κ} (hheld : f k = some l) :
    due owner (g ∘ s.pc) l = g k := by
  rw [due_of_some ((h l t).mpr ((congrArg f hpc).trans hheld))]
  exact congrArg g hpc

omit [DecidableEq ℓ] [DecidableEq α] in
theorem due_goto_take [DecidableEq κ] (h : Owns owner (f ∘ s.pc)) (hpc : s.pc t = k)
    (hnone : f k = none) (l j : κ) :
    due (Function.update owner l (some t)) (g ∘ (s.goto t k').pc) j =
      if j = l then g k' else due owner (g ∘ s.pc) j := by
  rw [comp_goto]
  exact due_take h ((congrArg f hpc).trans hnone) _ _ j

omit [DecidableEq ℓ] [DecidableEq α] in
theorem due_goto_give [DecidableEq κ] (h : Owns owner (f ∘ s.pc)) (hpc : s.pc t = k) {l : κ}
    (hheld : f k = some l) (j : κ) :
    due (Function.update owner l none) (g ∘ (s.goto t k').pc) j =
      if j = l then [] else due owner (g ∘ s.pc) j := by
  rw [comp_goto]
  exact due_give h ((congrArg f hpc).trans hheld) _ _ j

omit [DecidableEq ℓ] [DecidableEq α] in
theorem due_goto_work [DecidableEq κ] (h : Owns owner (f ∘ s.pc)) (hpc : s.pc t = k) {l : κ}
    (hheld : f k = some l) (j : κ) :
    due owner (g ∘ (s.goto t k').pc) j = if j = l then g k' else due owner (g ∘ s.pc) j := by
  rw [comp_goto]
  exact due_work h ((congrArg f hpc).trans hheld) _ _ j

end Moves

theorem step_locked {S : Setup ℓ α ε} {s s' : State τ ℓ α ε} {x : Action τ ℓ ε} (h : Locked s)
    (hdoes : Does S s x s') : Locked s' := by
  cases hdoes with
  | drop => exact h
  | call hpc => exact ⟨owns_same h.logger hpc rfl, owns_same h.appender hpc rfl⟩
  | lock hpc hfree => exact ⟨owns_take h.logger hpc rfl hfree rfl, owns_same h.appender hpc rfl⟩
  | unlock hpc => exact ⟨owns_give h.logger hpc rfl rfl, owns_same h.appender hpc rfl⟩
  | pass hpc => exact ⟨owns_same h.logger hpc rfl, owns_same h.appender hpc rfl⟩
  | begin hpc _ hfree => exact ⟨owns_same h.logger hpc rfl, owns_take h.appender hpc rfl hfree rfl⟩
  | put hpc => exact ⟨owns_same h.logger hpc rfl, owns_same h.appender hpc rfl⟩
  | finish hpc => exact ⟨owns_same h.logger hpc rfl, owns_give h.appender hpc rfl rfl⟩

/-! ### An appender's lines -/

/-- What an appender wrote. -/
def State.stream (s : State τ ℓ α ε) (a : α) : List String :=
  (s.written.filter (·.1 = a)).map (·.2)

/-- The lines that an appender began. -/
def State.lines (S : Setup ℓ α ε) (s : State τ ℓ α ε) (a : α) : List String :=
  (s.begun.filter (·.1 = a)).flatMap fun b => S.chunks a b.2.1 b.2.2

/-- What an appender wrote, and what is left of the line it is in, are its lines one after the
other. -/
def Whole (S : Setup ℓ α ε) (s : State τ ℓ α ε) : Prop :=
  ∀ a, s.stream a ++ due s.appender (Pc.left ∘ s.pc) a = s.lines S a

theorem step_whole {S : Setup ℓ α ε} {s s' : State τ ℓ α ε} {x : Action τ ℓ ε} (hlocked : Locked s)
    (h : Whole S s) (hdoes : Does S s x s') : Whole S s' := by
  intro b
  have hsame : ∀ {t : τ} {k k' : Pc ℓ α ε}, s.pc t = k → k'.left = k.left →
      s.stream b ++ due s.appender (Pc.left ∘ (s.goto t k').pc) b = s.lines S b := by
    intro t k k' hpc hleft
    rw [due_goto_same hpc hleft]
    exact h b
  cases hdoes with
  | drop => exact h b
  | call hpc => exact hsame hpc rfl
  | lock hpc => exact hsame hpc rfl
  | unlock hpc => exact hsame hpc rfl
  | pass hpc => exact hsame hpc rfl
  | begin hpc hadmitted hfree =>
    rename_i t l e a rest
    have hold := h b
    show s.stream b ++ due (Function.update s.appender a (some t)) (Pc.left ∘ (s.goto _ _).pc) b =
      ((s.begun ++ [(a, l, e)]).filter (·.1 = b)).flatMap _
    rw [due_goto_take hlocked.appender hpc rfl, List.filter_append, List.flatMap_append]
    by_cases hb : b = a
    · subst hb
      rw [due_of_none hfree, List.append_nil] at hold
      rw [if_pos rfl, hold]
      simp [State.lines, Pc.left]
    · rw [if_neg hb, hold]
      simp [State.lines, Ne.symm hb]
  | put hpc =>
    rename_i t l e a c left rest
    have hold := h b
    show ((s.written ++ [(a, c)]).filter (·.1 = b)).map _ ++
      due s.appender (Pc.left ∘ (s.goto _ _).pc) b = s.lines S b
    rw [due_goto_work hlocked.appender hpc rfl, ← hold, List.filter_append, List.map_append]
    by_cases hb : b = a
    · subst hb
      rw [if_pos rfl, due_holder hlocked.appender hpc rfl]
      simp [State.stream, Pc.left]
    · rw [if_neg hb]
      simp [State.stream, Ne.symm hb]
  | finish hpc =>
    rename_i t l e a rest
    have hold := h b
    show s.stream b ++ due (Function.update s.appender a none) (Pc.left ∘ (s.goto _ _).pc) b =
      s.lines S b
    rw [due_goto_give hlocked.appender hpc rfl, ← hold]
    by_cases hb : b = a
    · subst hb
      rw [if_pos rfl, due_holder hlocked.appender hpc rfl]
      rfl
    · rw [if_neg hb]

/-! ### The order of a logger -/

/-- What the appenders of a list write for an event of a logger. -/
def Setup.shown (S : Setup ℓ α ε) (l : ℓ) (e : ε) (as : List α) : List (α × String) :=
  (as.filter (S.admits · e)).flatMap fun a => (S.chunks a l e).map (a, ·)

omit [DecidableEq ℓ] [DecidableEq α] in
theorem shown_admitted {S : Setup ℓ α ε} {l : ℓ} {e : ε} {a : α} (h : S.admits a e = true)
    (rest : List α) :
    S.shown l e (a :: rest) = (S.chunks a l e).map (a, ·) ++ S.shown l e rest := by
  unfold Setup.shown
  rw [List.filter_cons, if_pos h]
  rfl

omit [DecidableEq ℓ] [DecidableEq α] in
theorem shown_refused {S : Setup ℓ α ε} {l : ℓ} {e : ε} {a : α} (h : S.admits a e = false)
    (rest : List α) : S.shown l e (a :: rest) = S.shown l e rest := by
  unfold Setup.shown
  rw [List.filter_cons, if_neg (Bool.eq_false_iff.mp h)]

/-- The lines of those that admit the event. -/
def Setup.begins (S : Setup ℓ α ε) (l : ℓ) (e : ε) (as : List α) : List (α × ℓ × ε) :=
  (as.filter (S.admits · e)).map (·, l, e)

omit [DecidableEq ℓ] [DecidableEq α] in
theorem begins_admitted {S : Setup ℓ α ε} {l : ℓ} {e : ε} {a : α} (h : S.admits a e = true)
    (rest : List α) : S.begins l e (a :: rest) = (a, l, e) :: S.begins l e rest := by
  unfold Setup.begins
  rw [List.filter_cons, if_pos h]
  rfl

omit [DecidableEq ℓ] [DecidableEq α] in
theorem begins_refused {S : Setup ℓ α ε} {l : ℓ} {e : ε} {a : α} (h : S.admits a e = false)
    (rest : List α) : S.begins l e (a :: rest) = S.begins l e rest := by
  unfold Setup.begins
  rw [List.filter_cons, if_neg (Bool.eq_false_iff.mp h)]

/-- What a thread has left to do under the lock of its logger. -/
def Pc.todo (S : Setup ℓ α ε) : Pc ℓ α ε → List (α × String)
  | .looping l e rest => S.shown l e rest
  | .writing l e a left rest => left.map (a, ·) ++ S.shown l e rest
  | _ => []

/-- The lines that a thread has yet to begin. -/
def Pc.toBegin (S : Setup ℓ α ε) : Pc ℓ α ε → List (α × ℓ × ε)
  | .looping l e rest => S.begins l e rest
  | .writing l e _ _ rest => S.begins l e rest
  | _ => []

/-- The appenders that a thread has yet to finish with. -/
def Pc.uses : Pc ℓ α ε → List α
  | .looping _ _ rest => rest
  | .writing _ _ a _ rest => a :: rest
  | _ => []

/-- Threads write to the appenders of the logger whose lock they hold. -/
def Inside (S : Setup ℓ α ε) (s : State τ ℓ α ε) : Prop :=
  ∀ t l, (s.pc t).logger = some l → ∀ a ∈ (s.pc t).uses, a ∈ S.appenders l

/-- The lines begun for a logger, and those to be begun under its lock, are those of its events
in the order of the lock. -/
def BegunInOrder (S : Setup ℓ α ε) (s : State τ ℓ α ε) (l : ℓ) : Prop :=
  s.begun.filter (·.2.1 = l) ++ due s.logger (Pc.toBegin S ∘ s.pc) l =
    (s.taken l).flatMap fun c => S.begins l c.2 (S.appenders l)

/-- The appenders that are one logger's alone. -/
def Setup.Own (S : Setup ℓ α ε) (own : α → Bool) (l : ℓ) : Prop :=
  ∀ a, own a = true → ∀ r, a ∈ S.appenders r → r = l

/-- What such appenders wrote, and what is left to write under the logger's lock, is what they
show of its events in the order of the lock. -/
def WrittenInOrder (S : Setup ℓ α ε) (own : α → Bool) (s : State τ ℓ α ε) (l : ℓ) : Prop :=
  s.written.filter (own ·.1) ++ due s.logger (((·.filter (own ·.1)) ∘ Pc.todo S) ∘ s.pc) l =
    (s.taken l).flatMap fun c => (S.shown l c.2 (S.appenders l)).filter (own ·.1)

omit [DecidableEq ℓ] [DecidableEq α] in
theorem inside_goto {S : Setup ℓ α ε} {s : State τ ℓ α ε} (h : Inside S s) {t : τ} {k k' : Pc ℓ α ε}
    (hpc : s.pc t = k) (hkeep : ∀ l, k'.logger = some l →
      (k.logger = some l ∧ ∀ a ∈ k'.uses, a ∈ k.uses) ∨ ∀ a ∈ k'.uses, a ∈ S.appenders l) :
    Inside S (s.goto t k') := by
  intro u l hl a ha
  by_cases hu : u = t
  · subst hu
    have hk : (s.goto u k').pc u = k' := Function.update_self ..
    rw [hk] at hl ha
    obtain ⟨hlogger, huses⟩ | hin := hkeep l hl
    · exact h u l (by rw [hpc]; exact hlogger) a (by rw [hpc]; exact huses a ha)
    · exact hin a ha
  · have hk : (s.goto t k').pc u = s.pc u := Function.update_of_ne hu ..
    rw [hk] at hl ha
    exact h u l hl a ha

theorem step_inside {S : Setup ℓ α ε} {s s' : State τ ℓ α ε} {x : Action τ ℓ ε} (h : Inside S s)
    (hdoes : Does S s x s') : Inside S s' := by
  cases hdoes with
  | drop => exact h
  | call hpc => exact inside_goto h hpc fun l hl => nomatch hl
  | lock hpc =>
    refine inside_goto h hpc fun l hl => .inr fun a ha => ?_
    cases hl
    exact ha
  | unlock hpc => exact inside_goto h hpc fun l hl => nomatch hl
  | pass hpc => exact inside_goto h hpc fun l hl => .inl ⟨hl, fun a ha => List.mem_cons_of_mem _ ha⟩
  | begin hpc => exact inside_goto h hpc fun l hl => .inl ⟨hl, fun a ha => ha⟩
  | put hpc => exact inside_goto h hpc fun l hl => .inl ⟨hl, fun a ha => ha⟩
  | finish hpc =>
    exact inside_goto h hpc fun l hl => .inl ⟨hl, fun a ha => List.mem_cons_of_mem _ ha⟩

/-! Both orders are kept for one reason: what is done under the lock of a logger and what is left
to do under it come to the same, whatever is counted. -/

section Orders
variable {β : Type} {s : State τ ℓ α ε} {done : List β} {left : Pc ℓ α ε → List β}
  (shown : ε → List β) {l r : ℓ} {t : τ} {e : ε} {k k' : Pc ℓ α ε}

omit [DecidableEq α] in
theorem order_lock (h : done ++ due s.logger (left ∘ s.pc) l = (s.taken l).flatMap (shown ·.2))
    (hlocked : Owns s.logger (Pc.logger ∘ s.pc)) (hpc : s.pc t = .waiting r e)
    (hfree : s.logger r = none) (hleft : l = r → left k' = shown e) :
    done ++ due (Function.update s.logger r (some t)) (left ∘ (s.goto t k').pc) l =
      (Function.update s.taken r (s.taken r ++ [(t, e)]) l).flatMap (shown ·.2) := by
  rw [due_goto_take hlocked hpc rfl]
  by_cases hl : l = r
  · subst hl
    rw [due_of_none hfree, List.append_nil] at h
    rw [if_pos rfl, Function.update_self, List.flatMap_append, ← h, hleft rfl,
      List.flatMap_singleton]
  · rw [if_neg hl, Function.update_of_ne hl]
    exact h

omit [DecidableEq α] in
theorem order_unlock (h : done ++ due s.logger (left ∘ s.pc) l = (s.taken l).flatMap (shown ·.2))
    (hlocked : Owns s.logger (Pc.logger ∘ s.pc)) (hpc : s.pc t = k) (hheld : k.logger = some r)
    (hleft : left k = []) :
    done ++ due (Function.update s.logger r none) (left ∘ (s.goto t k').pc) l =
      (s.taken l).flatMap (shown ·.2) := by
  rw [due_goto_give hlocked hpc hheld]
  by_cases hl : l = r
  · subst hl
    rw [due_holder hlocked hpc hheld, hleft] at h
    rw [if_pos rfl]
    exact h
  · rw [if_neg hl]
    exact h

omit [DecidableEq α] in
theorem order_work (h : done ++ due s.logger (left ∘ s.pc) l = (s.taken l).flatMap (shown ·.2))
    (hlocked : Owns s.logger (Pc.logger ∘ s.pc)) (hpc : s.pc t = k) (hheld : k.logger = some r)
    {more : List β} (hhere : l = r → left k = more ++ left k') (helse : l ≠ r → more = []) :
    done ++ more ++ due s.logger (left ∘ (s.goto t k').pc) l = (s.taken l).flatMap (shown ·.2) := by
  rw [due_goto_work hlocked hpc hheld]
  by_cases hl : l = r
  · subst hl
    rw [due_holder hlocked hpc hheld, hhere rfl] at h
    rw [if_pos rfl, List.append_assoc]
    exact h
  · rw [if_neg hl, helse hl, List.append_nil]
    exact h

end Orders

theorem step_begunInOrder {S : Setup ℓ α ε} {s s' : State τ ℓ α ε} {x : Action τ ℓ ε} {l : ℓ}
    (hlocked : Locked s) (h : BegunInOrder S s l) (hdoes : Does S s x s') : BegunInOrder S s' l := by
  have hsame : ∀ {t : τ} {k k' : Pc ℓ α ε}, s.pc t = k → k'.toBegin S = k.toBegin S →
      s.begun.filter (·.2.1 = l) ++ due s.logger (Pc.toBegin S ∘ (s.goto t k').pc) l =
        (s.taken l).flatMap fun c => S.begins l c.2 (S.appenders l) := by
    intro t k k' hpc hbegin
    rw [due_goto_same hpc hbegin]
    exact h
  let shown := fun e => S.begins l e (S.appenders l)
  cases hdoes with
  | drop => exact h
  | call hpc => exact hsame hpc rfl
  | pass hpc hrefused => exact hsame hpc (begins_refused hrefused _).symm
  | put hpc => exact hsame hpc rfl
  | finish hpc => exact hsame hpc rfl
  | lock hpc hfree =>
    apply order_lock shown h hlocked.logger hpc hfree
    rintro rfl
    rfl
  | unlock hpc => exact order_unlock shown h hlocked.logger hpc rfl rfl
  | begin hpc hadmitted hfree =>
    rename_i t r e a rest
    show (s.begun ++ [(a, r, e)]).filter (·.2.1 = l) ++
      due s.logger (Pc.toBegin S ∘ (s.goto _ _).pc) l = (s.taken l).flatMap (shown ·.2)
    rw [List.filter_append]
    apply order_work shown h hlocked.logger hpc rfl
    · rintro rfl
      rw [List.filter_cons, if_pos (decide_eq_true rfl)]
      exact begins_admitted hadmitted rest
    · intro hl
      exact List.filter_cons_of_neg (by simpa using Ne.symm hl)

theorem step_writtenInOrder {S : Setup ℓ α ε} {own : α → Bool} {s s' : State τ ℓ α ε}
    {x : Action τ ℓ ε} {l : ℓ} (hown : S.Own own l) (hlocked : Locked s) (hinside : Inside S s)
    (h : WrittenInOrder S own s l) (hdoes : Does S s x s') : WrittenInOrder S own s' l := by
  let kept : List (α × String) → List (α × String) := (·.filter (own ·.1))
  have hsame : ∀ {t : τ} {k k' : Pc ℓ α ε}, s.pc t = k → k'.todo S = k.todo S →
      kept s.written ++ due s.logger ((kept ∘ Pc.todo S) ∘ (s.goto t k').pc) l =
        (s.taken l).flatMap fun c => kept (S.shown l c.2 (S.appenders l)) := by
    intro t k k' hpc htodo
    rw [due_goto_same hpc (congrArg kept htodo)]
    exact h
  let shown := fun e => kept (S.shown l e (S.appenders l))
  cases hdoes with
  | drop => exact h
  | call hpc => exact hsame hpc rfl
  | pass hpc hrefused => exact hsame hpc (shown_refused hrefused _).symm
  | begin hpc hadmitted => exact hsame hpc (shown_admitted hadmitted _).symm
  | finish hpc => exact hsame hpc rfl
  | lock hpc hfree =>
    apply order_lock shown h hlocked.logger hpc hfree
    rintro rfl
    rfl
  | unlock hpc =>
    exact order_unlock shown h hlocked.logger hpc rfl rfl
  | put hpc =>
    rename_i t r e a c left rest
    show kept (s.written ++ [(a, c)]) ++ due s.logger ((kept ∘ Pc.todo S) ∘ (s.goto _ _).pc) l =
      (s.taken l).flatMap (shown ·.2)
    have happend : kept (s.written ++ [(a, c)]) = kept s.written ++ kept [(a, c)] :=
      List.filter_append ..
    rw [happend]
    apply order_work shown h hlocked.logger hpc rfl
    · rintro rfl
      exact List.filter_append (p := (own ·.1)) [(a, c)] _
    · intro hl
      apply List.filter_cons_of_neg
      intro hin
      have ha : a ∈ S.appenders r :=
        hinside t r (by rw [hpc]; rfl) a (by rw [hpc]; exact List.mem_cons_self)
      exact hl (hown a hin r ha).symm

/-! ### The calls of a thread -/

/-- The event that a thread waits with for the lock of a logger. -/
def Pc.waits (l : ℓ) : Pc ℓ α ε → List ε
  | .waiting r e => if r = l then [e] else []
  | _ => []

/-- The events of a thread that came to a logger, in the order of its calls: those in the order
of the lock, and the one that the thread waits with. -/
def State.mine (s : State τ ℓ α ε) (t : τ) (l : ℓ) : List ε :=
  ((s.taken l).filter (·.1 = t)).map (·.2) ++ (s.pc t).waits l

/-- The event of a call of a thread that comes to a logger. -/
def called (S : Setup ℓ α ε) (t : τ) (l : ℓ) : Action τ ℓ ε → Option ε
  | .call u r e => if u = t ∧ S.target r e = some l then some e else none
  | .go _ => none

omit [DecidableEq α] in
theorem waits_goto {s : State τ ℓ α ε} {t : τ} {k k' : Pc ℓ α ε} {l : ℓ} (hpc : s.pc t = k)
    (hsame : k'.waits l = k.waits l) (u : τ) :
    ((s.goto t k').pc u).waits l = (s.pc u).waits l :=
  congrFun (comp_goto_same (f := Pc.waits l) hpc hsame) u

theorem step_mine {S : Setup ℓ α ε} {s s' : State τ ℓ α ε} {x : Action τ ℓ ε}
    (hdoes : Does S s x s') (t : τ) (l : ℓ) :
    s'.mine t l = s.mine t l ++ (called S t l x).toList := by
  have hsame : ∀ {u : τ} {k k' : Pc ℓ α ε}, s.pc u = k → k'.waits l = k.waits l →
      ((s.taken l).filter (·.1 = t)).map (·.2) ++ ((s.goto u k').pc t).waits l =
        s.mine t l ++ [] := by
    intro u k k' hpc hwaits
    rw [waits_goto hpc hwaits, List.append_nil]
    rfl
  cases hdoes with
  | drop hpc hnobody =>
    rename_i u r e
    have hnone : called S t l (.call u r e) = none := by
      apply if_neg
      rintro ⟨-, htarget⟩
      cases hnobody.symm.trans htarget
    rw [hnone]
    exact (List.append_nil _).symm
  | call hpc htarget =>
    rename_i u r l' e
    have hcalled : called S t l (.call u r e) =
        if u = t ∧ S.target r e = some l then some e else none := rfl
    rw [hcalled]
    unfold State.mine
    by_cases hu : u = t
    · subst hu
      have hk : (s.goto u (.waiting l' e)).pc u = .waiting l' e := Function.update_self ..
      rw [hk, hpc, htarget]
      by_cases hl : l' = l
      · simp [Pc.waits, hl, State.goto]
      · simp [Pc.waits, hl, State.goto]
    · have hk : (s.goto u (.waiting l' e)).pc t = s.pc t := Function.update_of_ne (Ne.symm hu) ..
      rw [hk, if_neg fun h => hu h.1]
      exact (List.append_nil _).symm
  | lock hpc hfree =>
    rename_i u r e
    show ((Function.update s.taken r (s.taken r ++ [(u, e)]) l).filter _).map _ ++
      ((s.goto u _).pc t).waits l = s.mine t l ++ []
    rw [List.append_nil]
    unfold State.mine
    by_cases hu : u = t
    · subst hu
      have hk : (s.goto u (.looping r e (S.appenders r))).pc u = _ := Function.update_self ..
      rw [hk, hpc]
      by_cases hl : l = r
      · subst hl
        simp [Pc.waits]
      · simp [Pc.waits, Ne.symm hl, Function.update_of_ne hl]
    · have hk : (s.goto u (.looping r e (S.appenders r))).pc t = s.pc t :=
        Function.update_of_ne (Ne.symm hu) ..
      rw [hk]
      by_cases hl : l = r
      · subst hl
        simp [hu]
      · rw [Function.update_of_ne hl]
  | unlock hpc => exact hsame hpc rfl
  | pass hpc => exact hsame hpc rfl
  | begin hpc => exact hsame hpc rfl
  | put hpc => exact hsame hpc rfl
  | finish hpc => exact hsame hpc rfl

/-! ### Runs -/

/-- What every step keeps. -/
structure Kept (S : Setup ℓ α ε) (s : State τ ℓ α ε) : Prop where
  locked : Locked s
  whole : Whole S s
  inside : Inside S s
  begun : ∀ l, BegunInOrder S s l
  written : ∀ own l, S.Own own l → WrittenInOrder S own s l

omit [DecidableEq τ] in
theorem initial_kept (S : Setup ℓ α ε) : Kept S (.initial : State τ ℓ α ε) where
  locked := ⟨fun _ _ => ⟨nofun, nofun⟩, fun _ _ => ⟨nofun, nofun⟩⟩
  whole _ := rfl
  inside _ _ h := nomatch h
  begun _ := rfl
  written _ _ _ := rfl

theorem run_kept {S : Setup ℓ α ε} {s s' : State τ ℓ α ε} {acts : List (Action τ ℓ ε)}
    (h : Kept S s) (hrun : (machine τ S).run s acts = some s') :
    Kept S s' ∧ ∀ t l, s'.mine t l = s.mine t l ++ acts.filterMap (called S t l) := by
  induction acts generalizing s with
  | nil =>
    cases hrun
    exact ⟨h, fun _ _ => (List.append_nil _).symm⟩
  | cons x rest ih =>
    obtain ⟨u, hu, hrest⟩ := (machine τ S).run_cons.mp hrun
    have hdoes := step_does hu
    have hnext : Kept S u :=
      ⟨step_locked h.locked hdoes, step_whole h.locked h.whole hdoes, step_inside h.inside hdoes,
        fun l => step_begunInOrder h.locked (h.begun l) hdoes,
        fun own l hown => step_writtenInOrder hown h.locked h.inside (h.written own l hown) hdoes⟩
    obtain ⟨hlast, hmine⟩ := ih hnext hrest
    refine ⟨hlast, fun t l => ?_⟩
    rw [hmine, step_mine hdoes, List.append_assoc]
    cases hcalled : called S t l x with
    | none => rw [List.filterMap_cons_none hcalled, Option.toList_none, List.nil_append]
    | some e => rw [List.filterMap_cons_some hcalled, Option.toList_some, List.singleton_append]

/-- What is left of the line that an appender is in. -/
def State.unwritten (s : State τ ℓ α ε) (a : α) : List String :=
  due s.appender (Pc.left ∘ s.pc) a

/-- The lines that are yet to begin under the lock of a logger. -/
def State.unbegun (S : Setup ℓ α ε) (s : State τ ℓ α ε) (l : ℓ) : List (α × ℓ × ε) :=
  due s.logger (Pc.toBegin S ∘ s.pc) l

/-- The events of a list of lines that are an appender's. -/
def eventsOf (a : α) (lines : List (α × ℓ × ε)) : List ε :=
  (lines.filter (·.1 = a)).map (·.2.2)

omit [DecidableEq ℓ] in
theorem eventsOf_append (a : α) (x y : List (α × ℓ × ε)) :
    eventsOf a (x ++ y) = eventsOf a x ++ eventsOf a y := by
  unfold eventsOf
  rw [List.filter_append, List.map_append]

omit [DecidableEq ℓ] in
theorem eventsOf_flatMap {β : Type} (a : α) (f : β → List (α × ℓ × ε)) (l : List β) :
    eventsOf a (l.flatMap f) = l.flatMap fun b => eventsOf a (f b) := by
  unfold eventsOf
  rw [List.filter_flatMap, List.map_flatMap]

theorem eventsOf_filter (a : α) (l : ℓ) (lines : List (α × ℓ × ε)) :
    eventsOf a (lines.filter (·.2.1 = l)) =
      (((lines.filter (·.1 = a)).map (·.2)).filter (·.1 = l)).map (·.2) := by
  unfold eventsOf
  rw [List.filter_map, List.map_map, List.filter_filter, List.filter_filter]
  apply congrArg (List.map _)
  apply List.filter_congr
  intro b _
  exact Bool.and_comm _ _

/-- The threads' calls come to each logger in one order, which has every thread's in the order it
made them, and every appender writes whole lines, in which those of a logger are in that order.
What is missing is the line that is being written, the lines that the thread in the logger's loop
has yet to begin, and the calls that wait for the lock. -/
theorem one_order {S : Setup ℓ α ε} {acts : List (Action τ ℓ ε)} {s : State τ ℓ α ε}
    (hrun : (machine τ S).run .initial acts = some s) :
    ∃ order : ℓ → List (τ × ε),
      (∀ t l, ((order l).filter (·.1 = t)).map (·.2) ++ (s.pc t).waits l =
        acts.filterMap (called S t l)) ∧
      ∀ a, ∃ lines : List (ℓ × ε),
        s.stream a ++ s.unwritten a = lines.flatMap (fun b => S.chunks a b.1 b.2) ∧
        ∀ l, (lines.filter (·.1 = l)).map (·.2) ++ eventsOf a (s.unbegun S l) =
          (order l).flatMap fun c => eventsOf a (S.begins l c.2 (S.appenders l)) := by
  obtain ⟨hkept, hmine⟩ := run_kept (initial_kept S) hrun
  refine ⟨s.taken, hmine, fun a => ⟨(s.begun.filter (·.1 = a)).map (·.2), ?_, fun l => ?_⟩⟩
  · rw [List.flatMap_map]
    exact hkept.whole a
  · have hbegun := congrArg (eventsOf a) (hkept.begun l)
    rw [eventsOf_append, eventsOf_filter, eventsOf_flatMap] at hbegun
    exact hbegun

end Machine

section Shared

/-- Two loggers with one file. -/
def sharedFile : Setup Bool Unit String where
  target l _ := some l
  appenders _ := [()]
  admits _ _ := true
  chunks _ _ e := [e, "\n"]

def sharedRun : List (Action Bool Bool String) :=
  [.call false false "up", .call true true "down", .go false, .go true, .go true, .go true,
    .go true, .go true, .go false]

theorem one_order_sharedFile :
    ∃ s, (machine Bool sharedFile).run .initial sharedRun = some s ∧
      ∃ order : Bool → List (Bool × String),
        (∀ t l, ((order l).filter (·.1 = t)).map (·.2) ++ (s.pc t).waits l =
          sharedRun.filterMap (called sharedFile t l)) ∧
        ∃ lines : List (Bool × String),
          s.stream () ++ s.unwritten () = lines.flatMap fun b => [b.2, "\n"] := by
  obtain ⟨s, hrun⟩ := Option.isSome_iff_exists.mp
    (by decide : ((machine Bool sharedFile).run .initial sharedRun).isSome = true)
  obtain ⟨order, hcalls, hlines⟩ := one_order hrun
  obtain ⟨lines, hstream, -⟩ := hlines ()
  exact ⟨s, hrun, order, hcalls, lines, hstream⟩

end Shared

end SimpleHttpServer.LogLines
