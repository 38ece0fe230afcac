import SimpleHttpServer.Log.Logger

/-! Where an event goes (`Logger::log`).

A logger hands an event it admits to its appenders, or to the root logger if it
has none. An appender writes what it admits itself. -/
namespace SimpleHttpServer

/-- What an appender writes: it formats the event for the logger that called it. -/
structure LogRecord where
  logger : String
  kind : LogAppender.Kind
  formatter : Option LogFormatter
  deriving DecidableEq

/-- `LogAppender::log`. -/
def LogAppender.log (a : LogAppender) (logger : String) (level : LogLevel) : Option LogRecord :=
  if a.level.admits level then some ⟨logger, a.kind, a.formatter⟩ else none

/-- `Logger::log`, with what `m_root->log` comes to. -/
def Logger.log (g : Logger) (level : LogLevel) (rootLog : List LogRecord) : List LogRecord :=
  if g.level.admits level then
    if !g.appenders.isEmpty then g.appenders.filterMap fun a => a.log g.name level
    else if g.root then rootLog
    else []
  else []

namespace LoggerManager

/-- An event logged through the root logger, which has no `m_root` of its own. -/
def rootLog (m : LoggerManager) (level : LogLevel) : List LogRecord := (m.logger "root").log level []

/-- An event logged through the logger of a name. -/
def log (m : LoggerManager) (name : String) (level : LogLevel) : List LogRecord :=
  (m.logger name).log level (m.rootLog level)

end LoggerManager

namespace LogLevel

/-- `UNKNOW` admits everything, and `DEBUG` everything else. -/
theorem unknow_admits (level : LogLevel) : unknow.admits level = true := by
  cases level <;> rfl

theorem debug_admits {level : LogLevel} (h : level ≠ unknow) : debug.admits level = true := by
  cases level
  · exact absurd rfl h
  all_goals rfl

end LogLevel

/-- A logger without appenders that admits an event passes it on. -/
theorem Logger.log_nil {g : Logger} {level : LogLevel} (hlevel : g.level.admits level = true)
    (happenders : g.appenders = []) (rootLog : List LogRecord) :
    g.log level rootLog = if g.root then rootLog else [] := by
  simp [log, hlevel, happenders]

end SimpleHttpServer
