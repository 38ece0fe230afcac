import SimpleHttpServer.Log.Format
import SimpleHttpServer.Log.Lines
import SimpleHttpServer.Log.Routing

/-! The loggers of a manager, used by threads at the same time.

While the configuration stays as it is, the calls of all threads come to a logger in one order,
and all its appenders show it: the files and the console have the same lines in the same order
(`logs_in_one_order`). The console is one stream for all its appenders, and no lock is held for
it: its lines are whole where one logger has it (`console_lines`), and of two loggers one may
write into the other's line (`console_torn`). -/
namespace SimpleHttpServer.LogLines

/-- What an appender writes for an event of a logger, operation by operation: a file gets the
items of the formatter one after the other, the console the text and then the end of the line.
There is a formatter unless somebody took it away, and then there is no telling. -/
def puts (cal : Calendar) (g : Logger) (e : LogLevel × LogEvent) (a : LogAppender) : List String :=
  a.formatter.elim [] fun f =>
    match a.kind with
    | .stdout => [f.format cal g e.1 e.2, "\n"]
    | .file _ => f.items.map fun i => i.format cal g e.1 e.2

/-- The line that this comes to. -/
def line (cal : Calendar) (g : Logger) (e : LogLevel × LogEvent) (a : LogAppender) : String :=
  a.formatter.elim "" fun f =>
    match a.kind with
    | .stdout => f.format cal g e.1 e.2 ++ "\n"
    | .file _ => f.format cal g e.1 e.2

end SimpleHttpServer.LogLines

namespace SimpleHttpServer.LoggerManager
open LogLines

/-- The logger whose appenders an event comes to: an event that a logger without appenders admits
goes to the root logger. -/
def target (m : LoggerManager) (name : String) (e : LogLevel × LogEvent) : Option String :=
  if (m.logger name).level.admits e.1 then
    if !(m.logger name).appenders.isEmpty then some name
    else if (m.logger name).root && (m.logger "root").level.admits e.1 &&
      !(m.logger "root").appenders.isEmpty then some "root"
    else none
  else none

/-- The `i`-th appender of a logger. -/
def appender? (m : LoggerManager) (a : String × ℕ) : Option LogAppender :=
  (m.logger a.1).appenders[a.2]?

/-- The loggers of a manager whose configuration stays as it is. -/
def setup (m : LoggerManager) (cal : Calendar) :
    Setup String (String × ℕ) (LogLevel × LogEvent) where
  target := m.target
  appenders name := (List.range (m.logger name).appenders.length).map fun i => (name, i)
  admits a e := (m.appender? a).any fun ap => ap.level.admits e.1
  chunks a name e := (m.appender? a).elim [] (puts cal (m.logger name) e)

/-- Where an event comes to in the manager is where a call on its own takes it. -/
theorem log_of_target (m : LoggerManager) (name : String) (e : LogLevel × LogEvent) :
    m.log name e.1 = (m.target name e).elim [] fun r =>
      (m.logger r).appenders.filterMap fun a => a.log (m.logger r).name e.1 := by
  unfold LoggerManager.log LoggerManager.rootLog target
  by_cases hlevel : (m.logger name).level.admits e.1 = true
  · rw [if_pos hlevel]
    by_cases happenders : (m.logger name).appenders = []
    · rw [Logger.log_nil hlevel happenders, happenders]
      cases (m.logger name).root with
      | false => rfl
      | true =>
        by_cases hadmits : (m.logger "root").level.admits e.1 = true
        · by_cases hempty : (m.logger "root").appenders = []
          · simp [Logger.log, hempty]
          · simp [Logger.log, hadmits, hempty]
        · simp [Logger.log, hadmits]
    · simp [Logger.log, hlevel, happenders]
  · rw [if_neg hlevel]
    exact if_neg hlevel

variable {τ : Type} [DecidableEq τ]

/-- The appenders that write to the console. -/
def onConsole (m : LoggerManager) (a : String × ℕ) : Bool :=
  (m.appender? a).any fun ap => decide (ap.kind = .stdout)

/-- What is on the console. -/
def console (m : LoggerManager) (s : State τ String (String × ℕ) (LogLevel × LogEvent)) :
    List String :=
  (s.written.filter (m.onConsole ·.1)).map (·.2)

def said (content : String) : LogLevel × LogEvent :=
  (.info, ⟨"main.cpp", 7, 0, 1, 0, 0, "main", content⟩)

/-- Two loggers with the console. -/
def twoOnConsole : LoggerManager :=
  (new.configure "root" [.clearAppenders, .addAppender ⟨.stdout, .debug, some (.new "%m")⟩]).configure
    "system" [.addAppender ⟨.stdout, .debug, some (.new "%m")⟩]

/-- The line of one logger is written into that of the other. -/
theorem console_torn :
    ((machine Bool (twoOnConsole.setup Calendar.utc)).run .initial
      [.call false "root" (said "up"), .go false, .go false, .go false,
        .call true "system" (said "down"), .go true, .go true, .go true, .go true,
        .go false]).map twoOnConsole.console = some ["up", "down", "\n", "\n"] := by
  decide

end SimpleHttpServer.LoggerManager
