import SimpleHttpServer.Lib.Machine
import SimpleHttpServer.Log.Define
import Mathlib.Logic.Function.Basic

/-! Logging while a logger is rebuilt.

`Logger::log` asks whether there are appenders before it takes the lock, and walks
over them behind it; the listener empties the list and fills it up again with one
lock for each appender. An event can fall anywhere in between: its question may be
answered by the empty list, and its walk may find the list empty or half full. -/
namespace SimpleHttpServer.Reconfigure

/-- Where an event ended up: with the appenders of a walk that admitted it, with the root
logger, or nowhere. -/
inductive Route
  | appenders (admitting : List LogAppender)
  | root
  | nowhere
  deriving DecidableEq

/-- One logger, threads `τ` that log events `ε` with a level each, and the listener, which has
`script` left to do. `passed` and `delivered` are history, thread by thread: the events
that passed the logger's level, and where those that are through ended up. -/
structure State (τ ε : Type) where
  logger : Logger
  script : List Logger.Op
  waiting : τ → Option (LogLevel × ε)
  passed : τ → List (LogLevel × ε)
  delivered : τ → List ((LogLevel × ε) × Route)

inductive Action (τ ε : Type)
  /-- `log(level, event)` up to the test of `m_appenders`. -/
  | test (t : τ) (level : LogLevel) (event : ε)
  /-- The locked loop over `m_appenders`. -/
  | loop (t : τ)
  /-- The next operation of the listener. -/
  | reconfigure
  deriving DecidableEq

/-- The appenders of a list that admit a level, in order. -/
def admitting (as : List LogAppender) (level : LogLevel) : List LogAppender :=
  as.filter fun a => a.level.admits level

variable {τ ε : Type} [DecidableEq τ]

namespace State

def pass (s : State τ ε) (t : τ) (e : LogLevel × ε) : State τ ε :=
  {s with passed := Function.update s.passed t (s.passed t ++ [e])}

def deliver (s : State τ ε) (t : τ) (e : LogLevel × ε) (route : Route) : State τ ε :=
  {s with delivered := Function.update s.delivered t (s.delivered t ++ [(e, route)])}

end State

def step (s : State τ ε) : Action τ ε → Option (State τ ε)
  | .test t level event =>
    if (s.waiting t).isSome then none
    else if s.logger.level.admits level then
      let s := s.pass t (level, event)
      if !s.logger.appenders.isEmpty then
        some {s with waiting := Function.update s.waiting t (some (level, event))}
      else some (s.deliver t (level, event) (if s.logger.root then .root else .nowhere))
    else some s
  | .loop t =>
    (s.waiting t).map fun e =>
      {s with waiting := Function.update s.waiting t none}.deliver t e
        (.appenders (admitting s.logger.appenders e.1))
  | .reconfigure =>
    match s.script with
    | [] => none
    | op :: rest => some {s with logger := s.logger.perform op, script := rest}

def machine (τ ε : Type) [DecidableEq τ] : Machine (State τ ε) (Action τ ε) := ⟨step⟩

/-- A logger that is about to be rebuilt from a definition. -/
def State.initial (τ ε : Type) (g : Logger) (d : LogDefine) : State τ ε :=
  ⟨g, d.ops, fun _ => none, fun _ => [], fun _ => []⟩

/-- The new list of appenders is not complete yet. -/
def Refilling (s : State τ ε) : Prop := ∃ a rest, s.script = .addAppender a :: rest

instance (s : State τ ε) : Decidable (Refilling s) :=
  match h : s.script with
  | .addAppender a :: rest => isTrue ⟨a, rest, h⟩
  | [] => isFalse fun ⟨_, _, hs⟩ => by cases h.symm.trans hs
  | .setLevel _ :: _ => isFalse fun ⟨_, _, hs⟩ => by cases h.symm.trans hs
  | .clearAppenders :: _ => isFalse fun ⟨_, _, hs⟩ => by cases h.symm.trans hs

/-- The question of an event that passes finds an appender, and no walk falls into the refilling. -/
def Covered (s : State τ ε) : Action τ ε → Prop
  | .test _ level _ => s.logger.level.admits level = true → s.logger.appenders ≠ []
  | .loop _ => ¬ Refilling s
  | .reconfigure => True

instance (s : State τ ε) : (a : Action τ ε) → Decidable (Covered s a)
  | .test _ level _ =>
    inferInstanceAs (Decidable (s.logger.level.admits level = true → s.logger.appenders ≠ []))
  | .loop _ => inferInstanceAs (Decidable (¬ Refilling s))
  | .reconfigure => isTrue trivial

/-- Delivered to all admitting appenders of the one list or of the other. -/
def Whole (old new : List LogAppender) (entry : (LogLevel × ε) × Route) : Prop :=
  entry.2 = .appenders (admitting old entry.1.1) ∨ entry.2 = .appenders (admitting new entry.1.1)

instance (old new : List LogAppender) (entry : (LogLevel × ε) × Route) :
    Decidable (Whole old new entry) := inferInstanceAs (Decidable (_ ∨ _))

/-- Every event that passed is through or on its way, and what is through went to a whole list. -/
structure Atomic (old new : List LogAppender) (s : State τ ε) : Prop where
  kept : ∀ t, (s.delivered t).map Prod.fst ++ (s.waiting t).toList = s.passed t
  whole : ∀ t, ∀ entry ∈ s.delivered t, Whole old new entry

/-- How far the listener has come. -/
inductive Progress (old new : List LogAppender) (level : LogLevel) : State τ ε → Prop
  | begun (s : State τ ε) (happ : s.logger.appenders = old)
      (hscript : s.script = .setLevel level :: .clearAppenders :: new.map .addAppender) :
      Progress old new level s
  | levelled (s : State τ ε) (happ : s.logger.appenders = old)
      (hscript : s.script = .clearAppenders :: new.map .addAppender) : Progress old new level s
  | refilled (s : State τ ε) (rest : List LogAppender) (happ : s.logger.appenders ++ rest = new)
      (hscript : s.script = rest.map .addAppender) : Progress old new level s

omit [DecidableEq τ] in
/-- Outside the refilling the list is a whole one. -/
theorem Progress.complete {old new : List LogAppender} {level : LogLevel} {s : State τ ε}
    (h : Progress old new level s) (hfree : ¬ Refilling s) :
    s.logger.appenders = old ∨ s.logger.appenders = new := by
  cases h with
  | begun happ | levelled happ => exact .inl happ
  | refilled rest happ hscript =>
    cases rest with
    | nil => exact .inr (by simpa using happ)
    | cons a rest => exact absurd ⟨a, _, hscript⟩ hfree

omit [DecidableEq τ] in
theorem Progress.perform {old new : List LogAppender} {level : LogLevel} {s : State τ ε}
    {op : Logger.Op} {rest : List Logger.Op} (h : Progress old new level s)
    (hop : s.script = op :: rest) :
    Progress old new level {s with logger := s.logger.perform op, script := rest} := by
  cases h with
  | begun happ hscript =>
    rw [hop] at hscript
    cases hscript
    exact .levelled _ happ rfl
  | levelled happ hscript =>
    rw [hop] at hscript
    cases hscript
    exact .refilled _ new rfl rfl
  | refilled todo happ hscript =>
    cases todo with
    | nil =>
      rw [hop] at hscript
      cases hscript
    | cons a todo =>
      rw [hop] at hscript
      cases hscript
      exact .refilled _ todo (by simpa [Logger.perform] using happ) rfl

omit [DecidableEq τ] in
/-- The listener's progress is in the logger and the script. -/
theorem Progress.congr {old new : List LogAppender} {level : LogLevel} {s s' : State τ ε}
    (h : Progress old new level s) (hlogger : s'.logger = s.logger)
    (hscript : s'.script = s.script) : Progress old new level s' := by
  cases h with
  | begun happ hs => exact .begun s' (hlogger ▸ happ) (hscript.trans hs)
  | levelled happ hs => exact .levelled s' (hlogger ▸ happ) (hscript.trans hs)
  | refilled rest happ hs => exact .refilled s' rest (hlogger ▸ happ) (hscript.trans hs)

/-- What every state of a covered run is. -/
structure Sound (old new : List LogAppender) (level : LogLevel) (s : State τ ε) : Prop where
  progress : Progress old new level s
  atomic : Atomic old new s

theorem step_sound {old new : List LogAppender} {level : LogLevel} {s s' : State τ ε}
    {a : Action τ ε} (hs : Sound old new level s) (hrule : Covered s a)
    (h : (machine τ ε).step s a = some s') : Sound old new level s' := by
  cases a with
  | test t lvl event =>
    simp only [machine, step] at h
    split at h
    case isTrue => cases h
    case isFalse hidle =>
      split at h
      case isFalse =>
        cases h
        exact hs
      case isTrue hadmits =>
        have hne := hrule hadmits
        have hsome : (s.pass t (lvl, event)).logger.appenders.isEmpty = false := by
          simpa [State.pass] using hne
        simp only [hsome, Bool.not_false, ↓reduceIte, Option.some.injEq] at h
        subst h
        refine ⟨hs.progress.congr rfl rfl, fun u => ?_, hs.atomic.whole⟩
        have hnone : s.waiting t = none := by simpa using hidle
        by_cases hu : u = t
        · subst hu
          have hkept := hs.atomic.kept u
          simp only [hnone, Option.toList_none, List.append_nil] at hkept
          simp [State.pass, hkept]
        · simpa [State.pass, hu] using hs.atomic.kept u
  | loop t =>
    simp only [machine, step] at h
    obtain ⟨e, he, rfl⟩ := Option.map_eq_some_iff.mp h
    have hcomplete := hs.progress.complete hrule
    refine ⟨hs.progress.congr rfl rfl, fun u => ?_, fun u => ?_⟩
    · by_cases hu : u = t
      · subst hu
        have hkept := hs.atomic.kept u
        simp only [he, Option.toList_some] at hkept
        simp [State.deliver, hkept]
      · simpa [State.deliver, hu] using hs.atomic.kept u
    · by_cases hu : u = t
      · subst hu
        intro entry hentry
        simp only [State.deliver, Function.update_self, List.mem_append, List.mem_singleton] at hentry
        rcases hentry with hold | rfl
        · exact hs.atomic.whole u entry hold
        · exact hcomplete.imp (fun h => by rw [h]) (fun h => by rw [h])
      · simpa [State.deliver, hu] using hs.atomic.whole u
  | reconfigure =>
    simp only [machine, step] at h
    split at h
    · cases h
    · cases h
      exact ⟨hs.progress.perform ‹_›, hs.atomic.kept, hs.atomic.whole⟩

/-- In every run whose tests find an appender and whose walks fall outside the refilling, every
event that passes goes to all admitting appenders of the old list or to all of the new one. -/
theorem atomic_of_covered (g : Logger) (d : LogDefine) (acts : List (Action τ ε)) (s : State τ ε)
    (hcovered : (machine τ ε).Along Covered (.initial τ ε g d) acts)
    (hrun : (machine τ ε).run (.initial τ ε g d) acts = some s) :
    Atomic g.appenders (d.appenders.filterMap LogAppenderDefine.build) s := by
  have hinit : Sound g.appenders (d.appenders.filterMap LogAppenderDefine.build) d.level
      (State.initial τ ε g d) :=
    ⟨.begun _ rfl rfl, fun _ => rfl, fun _ _ h => by cases h⟩
  exact (Machine.run_invariant (fun _ _ _ => step_sound) hinit hcovered hrun).atomic

/-- A logger on the console, to be rebuilt with two files. -/
def console : Logger := ⟨"system", .info, [.new .stdout], true⟩

def twoFiles : LogDefine :=
  ⟨"system", .info, "", [⟨1, .debug, "", "a.log"⟩, ⟨1, .debug, "", "b.log"⟩]⟩

/-- One event before the rebuilding and one behind it. -/
def apartRun : List (Action Unit ℕ) :=
  [.test () .info 0, .loop (), .reconfigure, .reconfigure, .reconfigure, .reconfigure,
    .test () .info 1, .loop ()]

theorem apartRun_atomic :
    ∃ s : State Unit ℕ, (machine Unit ℕ).run (.initial Unit ℕ console twoFiles) apartRun = some s ∧
      Atomic console.appenders (twoFiles.appenders.filterMap LogAppenderDefine.build) s := by
  have hruns : ((machine Unit ℕ).run (.initial Unit ℕ console twoFiles) apartRun).isSome = true := by
    decide +kernel
  obtain ⟨s, hrun⟩ := Option.isSome_iff_exists.mp hruns
  exact ⟨s, hrun, atomic_of_covered console twoFiles apartRun s (by decide +kernel) hrun⟩

/-- The question finds the emptied list. -/
def rootRun : List (Action Unit ℕ) := [.reconfigure, .reconfigure, .test () .info 0]

/-- The walk finds the list emptied. -/
def lostRun : List (Action Unit ℕ) := [.test () .info 0, .reconfigure, .reconfigure, .loop ()]

/-- The walk finds the list half full. -/
def partRun : List (Action Unit ℕ) :=
  [.test () .info 0, .reconfigure, .reconfigure, .reconfigure, .loop ()]

/-- The run takes the event to a route that is neither the old list nor the new one. -/
def Splits (acts : List (Action Unit ℕ)) (route : Route) : Prop :=
  ∃ s : State Unit ℕ, (machine Unit ℕ).run (.initial Unit ℕ console twoFiles) acts = some s ∧
    s.delivered () = [((.info, 0), route)] ∧
    ¬ Atomic console.appenders (twoFiles.appenders.filterMap LogAppenderDefine.build) s

theorem splits_of_run {acts : List (Action Unit ℕ)} {route : Route}
    (hrun : ((machine Unit ℕ).run (.initial Unit ℕ console twoFiles) acts).map
      (fun s => s.delivered ()) = some [((.info, 0), route)])
    (hwhole : ¬ Whole console.appenders (twoFiles.appenders.filterMap LogAppenderDefine.build)
      ((.info, 0), route)) : Splits acts route := by
  obtain ⟨s, hs, hdelivered⟩ := Option.map_eq_some_iff.mp hrun
  refine ⟨s, hs, hdelivered, fun h => hwhole (h.whole () _ ?_)⟩
  rw [hdelivered]
  exact List.mem_singleton_self _

/-- The event goes to the root logger, to nobody, or to the first file only. -/
theorem events_split : Splits rootRun .root ∧ Splits lostRun (.appenders []) ∧
    Splits partRun (.appenders [.new (.file "a.log")]) := by
  refine ⟨splits_of_run ?_ ?_, splits_of_run ?_ ?_, splits_of_run ?_ ?_⟩
  all_goals decide +kernel

end SimpleHttpServer.Reconfigure
