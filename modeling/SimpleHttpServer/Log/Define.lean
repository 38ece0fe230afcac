import SimpleHttpServer.Log.Logger

/-! Log definitions: what the variable `logs` holds of a logger, and how a logger is
built from it. -/
namespace SimpleHttpServer

/-- `LogAppenderDefine`; its `operator==` compares all four fields. -/
structure LogAppenderDefine where
  type : ℤ
  level : LogLevel
  formatter : String
  file : String
  deriving DecidableEq, Repr

structure LogDefine where
  name : String
  level : LogLevel
  formatter : String
  appenders : List LogAppenderDefine
  deriving DecidableEq, Repr

namespace LogAppenderDefine

/-- A definition as its constructor leaves it. -/
def new : LogAppenderDefine := ⟨0, .unknow, "", ""⟩

/-- `ap.reset(...)`: an appender of another type is passed over. -/
def create (a : LogAppenderDefine) : Option LogAppender :=
  if a.type = 1 then some (.new (.file a.file))
  else if a.type = 2 then some (.new .stdout)
  else none

/-- The formatter the appender is left with: an erroneous one is not set. -/
def format (a : LogAppenderDefine) (ap : LogAppender) : LogAppender :=
  if a.formatter.isEmpty then ap
  else
    let fmt := LogFormatter.new a.formatter
    if fmt.isError then ap else ap.setFormatter fmt

/-- The appender the listener makes of a definition. -/
def build (a : LogAppenderDefine) : Option LogAppender :=
  a.create.map fun ap => a.format (ap.setLevel a.level)

/-- The kind of appender a definition asks for. -/
def kind (a : LogAppenderDefine) : Option LogAppender.Kind :=
  if a.type = 1 then some (.file a.file) else if a.type = 2 then some .stdout else none

/-- The pattern a definition comes down to: its own, or the default one where it gives none
or an erroneous one. -/
def pattern (a : LogAppenderDefine) : String :=
  if a.formatter = "" ∨ (LogFormatter.new a.formatter).isError = true then
    LogFormatter.defaultPattern
  else a.formatter

/-- What a definition asks for: kind, level and pattern. -/
def wanted (a : LogAppenderDefine) : Option (LogAppender.Kind × LogLevel × Option String) :=
  a.kind.map fun kind => (kind, a.level, some a.pattern)

end LogAppenderDefine

/-- What an appender is, read back. -/
def LogAppender.shown (a : LogAppender) : LogAppender.Kind × LogLevel × Option String :=
  (a.kind, a.level, a.formatter.map (·.pattern))

theorem LogAppender.shown_injective : Function.Injective LogAppender.shown := by
  rintro ⟨kind, level, formatter⟩ ⟨kind', level', formatter'⟩ h
  simp only [shown, Prod.mk.injEq] at h
  obtain ⟨rfl, rfl, hpattern⟩ := h
  cases formatter <;> cases formatter' <;> simp at hpattern
  · rfl
  · rw [LogFormatter.ext_pattern hpattern]

/-- The appender built is the one asked for. -/
theorem LogAppenderDefine.build_shown (a : LogAppenderDefine) :
    a.build.map LogAppender.shown = a.wanted := by
  have hshown : ∀ kind, (a.format ((LogAppender.new kind).setLevel a.level)).shown =
      (kind, a.level, some a.pattern) := by
    intro kind
    by_cases hempty : a.formatter = ""
    · simp [format, pattern, hempty, LogAppender.shown, LogAppender.new, LogAppender.setLevel,
        LogFormatter.new]
    · by_cases herror : (LogFormatter.new a.formatter).isError = true
      · simp [format, pattern, hempty, herror, LogAppender.shown, LogAppender.new,
          LogAppender.setLevel]
        rfl
      · simp [format, pattern, hempty, herror, LogAppender.shown, LogAppender.new,
          LogAppender.setLevel, LogAppender.setFormatter]
        rfl
  unfold build create wanted kind
  rw [Option.map_map]
  split
  · simp [hshown]
  · split
    · simp [hshown]
    · rfl

namespace LogDefine

/-- `LogDefine::operator==`, which compares the appenders of its left operand with themselves. -/
instance : BEq LogDefine where
  beq d oth := d.name == oth.name && d.level == oth.level && d.formatter == oth.formatter &&
    d.appenders == d.appenders

theorem beq_iff (d oth : LogDefine) :
    (d == oth) = true ↔ d.name = oth.name ∧ d.level = oth.level ∧ d.formatter = oth.formatter := by
  show (d.name == oth.name && d.level == oth.level && d.formatter == oth.formatter &&
    d.appenders == d.appenders) = true ↔ _
  simp [and_assoc]

/-- What the listener does to the logger of a definition. -/
def ops (d : LogDefine) : List Logger.Op :=
  .setLevel d.level :: .clearAppenders ::
    (d.appenders.filterMap LogAppenderDefine.build).map .addAppender

/-- The appenders a definition asks for, in order. -/
def wanted (d : LogDefine) : List (LogAppender.Kind × LogLevel × Option String) :=
  d.appenders.filterMap LogAppenderDefine.wanted

theorem performAll_ops (d : LogDefine) (g : Logger) :
    g.performAll d.ops =
      {g with level := d.level, appenders := d.appenders.filterMap LogAppenderDefine.build} := by
  show ((g.perform (.setLevel d.level)).perform .clearAppenders).performAll _ = _
  rw [Logger.performAll_add]
  simp [Logger.perform]

end LogDefine
end SimpleHttpServer
