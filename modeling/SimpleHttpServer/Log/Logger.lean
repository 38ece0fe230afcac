import SimpleHttpServer.Lib.SortedBy
import SimpleHttpServer.Log.Formatter
import SimpleHttpServer.Log.Level
import Mathlib.Data.String.Basic

/-! Appenders, loggers and the manager that owns the loggers.

Only what configuration reads and writes is here: an appender's kind, level and
formatter, a logger's level and appenders. What an appender does to its stream is
left to the appender. -/
namespace SimpleHttpServer

/-- The subclass of an appender, with the file name of a `FileLogAppender`. -/
inductive LogAppender.Kind
  | stdout
  | file (filename : String)
  deriving DecidableEq, Repr

/-- `LogAppender`; `formatter` is `none` for a null pointer. -/
structure LogAppender where
  kind : LogAppender.Kind
  level : LogLevel
  formatter : Option LogFormatter
  deriving DecidableEq

namespace LogAppender

/-- An appender as its constructor leaves it. -/
def new (kind : Kind) : LogAppender := ⟨kind, .debug, some (.new LogFormatter.defaultPattern)⟩

def setLevel (a : LogAppender) (level : LogLevel) : LogAppender := {a with level := level}

def setFormatter (a : LogAppender) (formatter : LogFormatter) : LogAppender :=
  {a with formatter := some formatter}

end LogAppender

/-- `Logger`; `root` tells whether `m_root` has been set. -/
structure Logger where
  name : String
  level : LogLevel
  appenders : List LogAppender
  root : Bool
  deriving DecidableEq

/-- The locked operations that change a logger. -/
inductive Logger.Op
  | setLevel (level : LogLevel)
  | clearAppenders
  | addAppender (appender : LogAppender)
  deriving DecidableEq

namespace Logger

/-- `Logger(name)`. -/
def new (name : String) : Logger := ⟨name, .debug, [], false⟩

def perform (g : Logger) : Op → Logger
  | .setLevel level => {g with level := level}
  | .clearAppenders => {g with appenders := []}
  | .addAppender appender => {g with appenders := g.appenders ++ [appender]}

def performAll (g : Logger) (ops : List Op) : Logger := ops.foldl perform g

@[simp] theorem perform_name (g : Logger) (op : Op) : (g.perform op).name = g.name := by
  cases op <;> rfl

@[simp] theorem performAll_name (g : Logger) (ops : List Op) : (g.performAll ops).name = g.name := by
  induction ops generalizing g with
  | nil => rfl
  | cons op rest ih => exact (ih _).trans (perform_name g op)

/-- Appenders added one after the other. -/
theorem performAll_add (g : Logger) (as : List LogAppender) :
    g.performAll (as.map .addAppender) = {g with appenders := g.appenders ++ as} := by
  induction as generalizing g with
  | nil => simp [performAll]
  | cons a rest ih =>
    show (g.perform (.addAppender a)).performAll (rest.map .addAppender) = _
    rw [ih]
    simp [perform]

end Logger

/-- `LoggerManager::m_loggers`, which has held the root logger from the start. -/
structure LoggerManager where
  loggers : SortedBy Logger.name
  root : (loggers.find? "root").isSome
  deriving DecidableEq

namespace LoggerManager

/-- `LoggerManager()`: the root logger with its stdout appender. -/
def new : LoggerManager :=
  ⟨SortedBy.empty.insert ((Logger.new "root").perform (.addAppender (.new .stdout))), rfl⟩

/-- `getLogger`: the logger of a name, made if there is none. -/
def getLogger (m : LoggerManager) (name : String) : LoggerManager × Logger :=
  match m.loggers.find? name with
  | some g => (m, g)
  | none =>
    let g := {Logger.new name with root := true}
    (⟨m.loggers.insert g, by
      rw [SortedBy.find?_insert]
      split
      · rfl
      · exact m.root⟩, g)

/-- Operations on the logger that `getLogger` answers. -/
def configure (m : LoggerManager) (name : String) (ops : List Logger.Op) : LoggerManager :=
  let m := (m.getLogger name).1
  ⟨m.loggers.modify name (·.performAll ops) fun g => g.performAll_name ops, by
    rw [SortedBy.find?_modify]
    split
    · rename_i h
      simpa [← h] using m.root
    · exact m.root⟩

/-- What `getLogger` answers. -/
def logger (m : LoggerManager) (name : String) : Logger := (m.getLogger name).2

theorem find?_getLogger (m : LoggerManager) (name k : String) :
    (m.getLogger name).1.loggers.find? k =
      if k = name then some (m.logger name) else m.loggers.find? k := by
  unfold logger getLogger
  cases hfind : m.loggers.find? name with
  | some g =>
    by_cases hk : k = name
    · subst hk
      simp [hfind]
    · simp [hk]
  | none =>
    have hkey : ({Logger.new name with root := true} : Logger).name = name := rfl
    rw [SortedBy.find?_insert, hkey]
    by_cases hk : k = name
    · subst hk
      simp [hfind]
    · simp [hk]

theorem logger_of_find? {m : LoggerManager} {name : String} {g : Logger}
    (h : m.loggers.find? name = some g) : m.logger name = g := by
  simp [logger, getLogger, h]

theorem logger_of_none {m : LoggerManager} {name : String} (h : m.loggers.find? name = none) :
    m.logger name = {Logger.new name with root := true} := by
  simp [logger, getLogger, h]

/-- A new manager has the root logger only. -/
theorem find?_new {name : String} (h : name ≠ "root") : new.loggers.find? name = none := by
  rw [new, SortedBy.find?_insert, SortedBy.find?_empty]
  exact if_neg h

theorem logger_congr {m m' : LoggerManager} {name : String}
    (h : m.loggers.find? name = m'.loggers.find? name) : m.logger name = m'.logger name := by
  unfold logger getLogger
  rw [h]
  cases m'.loggers.find? name <;> rfl

theorem find?_configure (m : LoggerManager) (name k : String) (ops : List Logger.Op) :
    (m.configure name ops).loggers.find? k =
      if k = name then some ((m.logger name).performAll ops) else m.loggers.find? k := by
  rw [configure, SortedBy.find?_modify, find?_getLogger, find?_getLogger]
  by_cases hk : k = name <;> simp [hk]

/-- Configuring one logger does to it what was asked, and leaves the others alone. -/
theorem logger_configure (m : LoggerManager) (name k : String) (ops : List Logger.Op) :
    (m.configure name ops).logger k =
      if k = name then (m.logger name).performAll ops else m.logger k := by
  have hfind := find?_configure m name k ops
  by_cases hk : k = name
  · rw [if_pos hk] at hfind ⊢
    exact logger_of_find? hfind
  · rw [if_neg hk] at hfind ⊢
    exact logger_congr hfind

end LoggerManager
end SimpleHttpServer
