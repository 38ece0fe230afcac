import Mathlib.Data.Nat.Notation

/-! Log levels and their names (`LogLevel`, `LogLevelHelper`). -/
namespace SimpleHttpServer

inductive LogLevel
  | unknow
  | debug
  | info
  | warn
  | error
  | fatal
  deriving DecidableEq, Repr

namespace LogLevel

/-- The value of the enumerator. -/
def value : LogLevel → ℕ
  | unknow => 0
  | debug => 1
  | info => 2
  | warn => 3
  | error => 4
  | fatal => 5

/-- `level >= m_level`. -/
def admits (m_level level : LogLevel) : Bool := m_level.value ≤ level.value

def toString : LogLevel → String
  | unknow => "UNKNOW"
  | debug => "DEBUG"
  | info => "INFO"
  | warn => "WARN"
  | error => "ERROR"
  | fatal => "FATAL"

/-- The twelve names `from_string` knows, upper and lower case. -/
def names : List (String × LogLevel) :=
  [("UNKNOW", unknow), ("unknow", unknow), ("DEBUG", debug), ("debug", debug), ("INFO", info),
    ("info", info), ("WARN", warn), ("warn", warn), ("ERROR", error), ("error", error),
    ("FATAL", fatal), ("fatal", fatal)]

/-- A name that is not known stands for `UNKNOW`. -/
def fromString (str : String) : LogLevel := (names.lookup str).getD unknow

@[simp] theorem fromString_toString (l : LogLevel) : fromString l.toString = l := by
  cases l <;> decide

end LogLevel
end SimpleHttpServer
