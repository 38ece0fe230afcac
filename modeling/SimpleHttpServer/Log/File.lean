import SimpleHttpServer.Lib.Machine
import SimpleHttpServer.Log.Format

/-! The file behind a file appender.

A stream has two sides: whether its file is open, and whether an error bit is set.
`reopen` closes the file only where no error bit is set, and opening a stream
whose file is open fails. So once a write has failed, with the file open, every
reopening fails in its turn, and no later line gets through. -/
namespace SimpleHttpServer

/-- `std::ofstream`: whether its file is open, whether an error bit is set, and what the operating
system has been handed and has accepted. -/
structure OFStream where
  isOpen : Bool
  error : Bool
  written : List String
  deriving DecidableEq

namespace OFStream

/-- A stream without a file. -/
def new : OFStream := ⟨false, false, []⟩

/-- `operator bool`. -/
def good (s : OFStream) : Bool := !s.error

def close (s : OFStream) : OFStream :=
  if s.isOpen then {s with isOpen := false} else {s with error := true}

/-- `open`, where the operating system would open the file or not. -/
def openFile (opens : Bool) (s : OFStream) : OFStream :=
  if s.isOpen then {s with error := true}
  else if opens then {s with isOpen := true, error := false}
  else {s with error := true}

/-- A text put into the stream, where the operating system would accept it or not; it is not asked
about an empty one. The text is taken to be flushed at once: a `std::ofstream` may keep it in its
buffer until then, and of the items of a pattern only `%n` flushes. -/
def put (accepts : Bool) (text : String) (s : OFStream) : OFStream :=
  if s.error then s
  else if s.isOpen && (accepts || text = "") then {s with written := s.written ++ [text]}
  else {s with error := true}

/-- The file is open and an error bit is set. -/
def Stuck (s : OFStream) : Prop := s.isOpen = true ∧ s.error = true

instance (s : OFStream) : Decidable s.Stuck :=
  inferInstanceAs (Decidable (s.isOpen = true ∧ s.error = true))

end OFStream

/-- `FileLogAppender`; the name of the file is the operating system's affair. -/
structure FileLogAppender where
  level : LogLevel
  formatter : LogFormatter
  stream : OFStream
  lastTime : UInt64

namespace FileLogAppender

/-- `reopen`, with what it returns. -/
def reopen (opens : Bool) (a : FileLogAppender) : FileLogAppender × Bool :=
  let s := if a.stream.good then a.stream.close else a.stream
  let s := s.openFile opens
  ({a with stream := s}, s.good)

/-- The constructor. -/
def new (level : LogLevel) (formatter : LogFormatter) (opens : Bool) : FileLogAppender :=
  (reopen opens ⟨level, formatter, .new, 0⟩).1

/-- A call of `log`, and what the operating system is ready for at its moment. -/
structure Call where
  logger : Logger
  level : LogLevel
  event : LogEvent
  opens : Bool
  accepts : Bool

/-- The text of a call. -/
def text (cal : Calendar) (a : FileLogAppender) (c : Call) : String :=
  a.formatter.format cal c.logger c.level c.event

/-- The file is to be reopened first. -/
def due (a : FileLogAppender) (c : Call) : Bool := c.event.time ≥ a.lastTime + 3

/-- The appender ready to write. -/
def ready (a : FileLogAppender) (c : Call) : FileLogAppender :=
  if a.due c then {(a.reopen c.opens).1 with lastTime := c.event.time} else a

def log (cal : Calendar) (a : FileLogAppender) (c : Call) : FileLogAppender :=
  if a.level.admits c.level then
    let a := a.ready c
    {a with stream := a.stream.put c.accepts (a.text cal c)}
  else a

/-- The calls of `log` one after the other. -/
def machine (cal : Calendar) : Machine FileLogAppender Call := ⟨fun a c => some (a.log cal c)⟩

/-- The operating system does not refuse what a good stream hands it. -/
def NoWriteFails (cal : Calendar) (a : FileLogAppender) (c : Call) : Prop :=
  a.level.admits c.level = true → (a.ready c).stream.error = false →
    (a.ready c).stream.isOpen = true → c.accepts = true ∨ a.text cal c = ""

instance (cal : Calendar) (a : FileLogAppender) (c : Call) : Decidable (a.NoWriteFails cal c) :=
  inferInstanceAs (Decidable (a.level.admits c.level = true → (a.ready c).stream.error = false →
    (a.ready c).stream.isOpen = true → c.accepts = true ∨ a.text cal c = ""))

/-! ### The stream -/

/-- Reopening does not get out of a stuck stream. -/
theorem reopen_stuck {a : FileLogAppender} (h : a.stream.Stuck) (opens : Bool) :
    (a.reopen opens).1.stream = a.stream := by
  obtain ⟨level, formatter, ⟨isOpen, error, written⟩, lastTime⟩ := a
  obtain ⟨hopen, herror⟩ := h
  dsimp only at hopen herror
  subst hopen herror
  rfl

/-- Any other stream is what the operating system makes it. -/
theorem reopen_of_not_stuck {a : FileLogAppender} (h : ¬ a.stream.Stuck) (opens : Bool) :
    (a.reopen opens).1.stream = ⟨opens, !opens, a.stream.written⟩ := by
  obtain ⟨level, formatter, ⟨isOpen, error, written⟩, lastTime⟩ := a
  cases isOpen with
  | false => cases error <;> cases opens <;> rfl
  | true =>
    cases error with
    | false => cases opens <;> rfl
    | true => exact absurd ⟨rfl, rfl⟩ h

theorem put_error {s : OFStream} (h : s.error = true) (accepts : Bool) (text : String) :
    s.put accepts text = s := if_pos h

/-- What is put into a good stream either gets to the file or sets an error bit. -/
theorem put_stuck_iff {s : OFStream} (h : ¬ s.Stuck) (accepts : Bool) (text : String) :
    (s.put accepts text).Stuck ↔
      s.error = false ∧ s.isOpen = true ∧ ¬ (accepts = true ∨ text = "") := by
  obtain ⟨isOpen, error, written⟩ := s
  cases error with
  | true =>
    rw [put_error rfl]
    constructor
    · intro hstuck
      exact absurd hstuck h
    · intro hgood
      cases hgood.1
  | false =>
    by_cases htext : text = "" <;> cases isOpen <;> cases accepts <;>
      simp [OFStream.put, OFStream.Stuck, htext]

/-! ### One call -/

theorem ready_formatter (a : FileLogAppender) (c : Call) : (a.ready c).formatter = a.formatter := by
  unfold ready
  split <;> rfl

theorem ready_text (cal : Calendar) (a : FileLogAppender) (c : Call) :
    (a.ready c).text cal c = a.text cal c := by
  rw [text, text, ready_formatter]

theorem ready_stuck {a : FileLogAppender} (h : a.stream.Stuck) (c : Call) :
    (a.ready c).stream = a.stream := by
  unfold ready
  split
  · exact reopen_stuck h c.opens
  · rfl

theorem ready_not_stuck {a : FileLogAppender} (h : ¬ a.stream.Stuck) (c : Call) :
    ¬ (a.ready c).stream.Stuck := by
  unfold ready
  split
  · show ¬ (a.reopen c.opens).1.stream.Stuck
    rw [reopen_of_not_stuck h]
    intro ⟨hopen, herror⟩
    dsimp only at hopen herror
    rw [hopen] at herror
    cases herror
  · exact h

/-- A stuck appender stays as it is, whatever is logged. -/
theorem log_stuck {cal : Calendar} {a : FileLogAppender} (h : a.stream.Stuck) (c : Call) :
    (a.log cal c).stream = a.stream := by
  unfold log
  split
  · show (a.ready c).stream.put c.accepts _ = a.stream
    rw [ready_stuck h, put_error h.2]
  · rfl

/-- A call leaves the appender stuck exactly if the operating system refuses its write. -/
theorem log_stuck_iff {cal : Calendar} {a : FileLogAppender} (h : ¬ a.stream.Stuck) (c : Call) :
    (a.log cal c).stream.Stuck ↔ ¬ a.NoWriteFails cal c := by
  unfold log NoWriteFails
  by_cases hadmits : a.level.admits c.level = true
  · rw [if_pos hadmits]
    show ((a.ready c).stream.put c.accepts ((a.ready c).text cal c)).Stuck ↔ _
    rw [put_stuck_iff (ready_not_stuck h c), ready_text]
    simp [hadmits]
  · rw [if_neg hadmits]
    simp [hadmits, h]

/-- A call that is due, with the operating system ready for it, is written unless the appender is
stuck. -/
theorem log_written_iff {cal : Calendar} {a : FileLogAppender} {c : Call}
    (hadmits : a.level.admits c.level = true) (hdue : c.event.time ≥ a.lastTime + 3)
    (hopens : c.opens = true) (haccepts : c.accepts = true) :
    (a.log cal c).stream.written = a.stream.written ++ [a.text cal c] ↔ ¬ a.stream.Stuck := by
  constructor
  · intro hwritten hstuck
    rw [log_stuck hstuck] at hwritten
    simp at hwritten
  · intro hstuck
    have hready : (a.ready c).stream = ⟨true, false, a.stream.written⟩ := by
      unfold ready
      rw [if_pos (by simpa [due] using hdue)]
      show (a.reopen c.opens).1.stream = _
      rw [reopen_of_not_stuck hstuck, hopens]
      rfl
    unfold log
    rw [if_pos hadmits]
    show ((a.ready c).stream.put c.accepts ((a.ready c).text cal c)).written = _
    rw [hready, haccepts, ready_text]
    rfl

/-! ### A history of calls -/

/-- An appender as it is made is not stuck. -/
theorem new_not_stuck (level : LogLevel) (formatter : LogFormatter) (opens : Bool) :
    ¬ (new level formatter opens).stream.Stuck := by
  have hnew : ¬ OFStream.new.Stuck := by decide
  rw [new, reopen_of_not_stuck hnew]
  intro ⟨hopen, herror⟩
  dsimp only at hopen herror
  rw [hopen] at herror
  cases herror

/-- An event that is due, with the operating system ready to open the file and to accept the write,
is written exactly if no write before it has failed. Each event's text is flushed as it is
written, as that of a pattern with `%n` at its end is. -/
theorem recovers_iff (cal : Calendar) (level : LogLevel) (formatter : LogFormatter) (opens : Bool)
    (calls : List Call) (a : FileLogAppender)
    (hrun : (machine cal).run (new level formatter opens) calls = some a) (c : Call)
    (hadmits : a.level.admits c.level = true) (hdue : c.event.time ≥ a.lastTime + 3)
    (hopens : c.opens = true) (haccepts : c.accepts = true) :
    (a.log cal c).stream.written = a.stream.written ++ [a.text cal c] ↔
      (machine cal).Along (NoWriteFails cal) (new level formatter opens) calls := by
  rw [log_written_iff hadmits hdue hopens haccepts]
  refine @Machine.good_iff_along _ _ (machine cal) (fun a => ¬ a.stream.Stuck)
    (fun a => ¬ a.stream.Stuck) (fun _ _ => True) (NoWriteFails cal) ?_ (fun _ h => h) ?_ ?_ _ _ _
    (new_not_stuck level formatter opens) ?_ hrun
  · intro a c t hstuck _ hrule hstep
    cases hstep
    exact fun h => (log_stuck_iff hstuck c).mp h hrule
  · intro a c t hstuck _ hrule hstep
    cases hstep
    exact fun h => h ((log_stuck_iff hstuck c).mpr hrule)
  · intro a c t hstuck hstep
    cases hstep
    rw [log_stuck (Classical.not_not.mp hstuck)]
    exact hstuck
  · exact Machine.along_true _ _

/-- A call through a fresh logger. -/
def callAt (time : UInt64) (opens accepts : Bool) : Call :=
  ⟨.new "system", .info, ⟨"main.cpp", 7, 0, 1, 0, time, "main", "up"⟩, opens, accepts⟩

/-- An open that fails does not matter later. -/
theorem failedOpen_recovers :
    ∃ a, (machine Calendar.utc).run (new .debug (.new "%m%n") false) [callAt 10 false false] =
        some a ∧
      (a.log Calendar.utc (callAt 13 true true)).stream.written =
        a.stream.written ++ [a.text Calendar.utc (callAt 13 true true)] :=
  ⟨_, rfl, (recovers_iff Calendar.utc .debug (.new "%m%n") false [callAt 10 false false] _ rfl
    (callAt 13 true true) rfl (by decide) rfl rfl).mpr (by decide)⟩

/-- After a write that fails nothing gets through, although the operating system would take it. -/
theorem failedWrite_lost :
    ((machine Calendar.utc).run (new .debug (.new "%m%n") true)
        [callAt 10 true false, callAt 13 true true, callAt 16 true true]).map (·.stream) =
      some ⟨true, true, []⟩ := by
  decide

end FileLogAppender
end SimpleHttpServer
