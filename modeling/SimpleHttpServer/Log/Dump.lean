import SimpleHttpServer.Log.Codec
import SimpleHttpServer.Log.Initer

/-! The logging system written out and loaded again.

Manager, loggers and appenders each write themselves (`toYamlNode`); what they
write is read as a value of the variable `logs` and put in force in a manager that
has just been made. What is left out on the way out is filled in on the way in: a
level `UNKNOW` with the logger's, an empty pattern with the default one. -/
namespace SimpleHttpServer

namespace LogAppender

/-- The members both appenders write: the name of the class, the level if there is one, the
pattern if there is a formatter. -/
def writeNode (a : LogAppender) (className : String) : Node :=
  let node := Node.null.set "type" (.scalar className)
  let node := if a.level ≠ .unknow then node.set "level" (.scalar a.level.toString) else node
  match a.formatter with
  | some formatter => node.set "formatter" (.scalar formatter.getPattern)
  | none => node

/-- `StdoutLogAppender::toYamlNode` -/
def stdoutToYamlNode (a : LogAppender) : Node := a.writeNode "StdoutLogAppender"

/-- `FileLogAppender::toYamlNode` -/
def fileToYamlNode (a : LogAppender) (m_filename : String) : Node :=
  (a.writeNode "FileLogAppender").set "file" (.scalar m_filename)

def toYamlNode (a : LogAppender) : Node :=
  match a.kind with
  | .stdout => a.stdoutToYamlNode
  | .file m_filename => a.fileToYamlNode m_filename

end LogAppender

def Logger.toYamlNode (g : Logger) : Node :=
  let node := Node.null.set "name" (.scalar g.name)
  let node := if g.level ≠ .unknow then node.set "level" (.scalar g.level.toString) else node
  g.appenders.foldl (fun node a => node.pushAt "appenders" a.toYamlNode) node

namespace LoggerManager

/-- The loggers in the order of their names. -/
def toYamlNode (m : LoggerManager) : Option Node :=
  Lexical.pushed (m.loggers.elems.map Logger.toYamlNode)

def toYamlString (Y : YamlCpp) (m : LoggerManager) : String := Y.stream m.toYamlNode

/-- A dump read as `std::set<LogDefine>` and put in force in a new manager. -/
def reload (Y : YamlCpp) (text : String) : Except Exn LoggerManager := do
  let value ← (Lexical.set Y LogDefine.name (LogDefine.codec Y)).fromStr text
  return LogIniter.onChange .empty value .new

end LoggerManager

/-! ### What is written -/

theorem LogAppender.toYamlNode_describes (a : LogAppender) :
    Describes a.toYamlNode a.kind a.level (a.formatter.map LogFormatter.getPattern) := by
  obtain ⟨kind, level, formatter⟩ := a
  cases kind <;> cases formatter <;> by_cases hlevel : level = .unknow <;>
    constructor <;>
    simp [toYamlNode, stdoutToYamlNode, fileToYamlNode, writeNode, LogAppender.Kind.className,
      Node.set, Node.get, hlevel]

theorem Logger.toYamlNode_eq (g : Logger) :
    g.toYamlNode = loggerTree g.name g.level (g.appenders.map LogAppender.toYamlNode) :=
  pushed_loggerTree LogAppender.toYamlNode g.name g.level g.appenders

/-! ### What is read -/

/-- An appender with a formatter, and no error in its pattern. -/
def LogAppender.ErrorFree (a : LogAppender) : Prop := a.formatter.map LogFormatter.isError = some false

instance : DecidablePred LogAppender.ErrorFree := fun a =>
  inferInstanceAs (Decidable (a.formatter.map LogFormatter.isError = some false))

namespace Logger

/-- Appenders with error-free formatters, each without a level or with its logger's. -/
def Dumpable (g : Logger) : Prop :=
  ∀ a ∈ g.appenders, a.ErrorFree ∧ (a.level = .unknow ∨ a.level = g.level)

instance : DecidablePred Dumpable := fun g =>
  inferInstanceAs (Decidable (∀ a ∈ g.appenders, a.ErrorFree ∧
    (a.level = .unknow ∨ a.level = g.level)))

/-- The definition that is read back. -/
def define (g : Logger) : LogDefine :=
  ⟨g.name, g.level, "", g.appenders.map fun a =>
    a.kind.define g.level ((a.formatter.map LogFormatter.getPattern).getD "")⟩

theorem Dumpable.decoded {Y : YamlCpp} (hY : Y.Lawful) {g : Logger} (h : g.Dumpable) :
    (LogDefine.codec Y).fromStr (Y.emit g.toYamlNode) = .ok g.define := by
  have hone : ∀ a ∈ g.appenders, LogAppenderDefine.fromNode (loggerTree g.name g.level
      (g.appenders.map LogAppender.toYamlNode)) g.level (some a.toYamlNode) =
        .ok (some (a.kind.define g.level ((a.formatter.map LogFormatter.getPattern).getD ""))) :=
    fun a ha => a.toYamlNode_describes.fromNode (h a ha).2
  rw [LogDefine.codec_emit hY, toYamlNode_eq]
  exact fromNode_of_appenders hone

end Logger

namespace LoggerManager

/-- The value of the variable `logs` that a dump stands for. -/
def defines (m : LoggerManager) : LogDefineSet :=
  ⟨m.loggers.elems.map Logger.define, List.pairwise_map.mpr m.loggers.sorted⟩

theorem decoded {Y : YamlCpp} (hY : Y.Lawful) {m : LoggerManager}
    (h : ∀ g ∈ m.loggers.elems, g.Dumpable) :
    (Lexical.set Y LogDefine.name (LogDefine.codec Y)).fromStr (m.toYamlString Y) =
      .ok m.defines := by
  have hsequence : m.toYamlNode = some (.sequence (m.loggers.elems.map Logger.toYamlNode)) := by
    unfold toYamlNode
    cases helems : m.loggers.elems with
    | nil =>
      -- the root logger is always there
      have hroot := m.root
      simp [SortedBy.find?, helems] at hroot
    | cons g rest => exact Lexical.pushed_cons _ _
  have hall : (m.loggers.elems.map Logger.toYamlNode).mapM
      (fun n => (LogDefine.codec Y).fromStr (Y.emit n)) = .ok (m.loggers.elems.map Logger.define) := by
    rw [List.mapM_map]
    exact MapM.mapM_ok fun g hg => (h g hg).decoded hY
  have helems : Lexical.toElems Y (LogDefine.codec Y) (m.toYamlString Y) =
      .ok m.defines.elems := by
    rw [toYamlString, hsequence]
    exact (Lexical.toElems_sequence hY _ _).trans hall
  simp only [Lexical.set, helems, bind, Except.bind, pure, Except.pure, SortedBy.ofList_elems]

theorem reload_eq {Y : YamlCpp} (hY : Y.Lawful) {m : LoggerManager}
    (h : ∀ g ∈ m.loggers.elems, g.Dumpable) :
    reload Y (m.toYamlString Y) = .ok (LogIniter.onChange .empty m.defines .new) := by
  rw [reload, decoded hY h]
  rfl

end LoggerManager

/-! ### What it comes down to -/

namespace LogAppender

/-- An appender as it is after a reload: with its logger's level, and the default pattern in the
place of an empty one. -/
def reloaded (level : LogLevel) (a : LogAppender) : LogAppender :=
  ⟨a.kind, level, a.formatter.map fun f =>
    if f.getPattern = "" then .new LogFormatter.defaultPattern else f⟩

theorem ErrorFree.build_define {a : LogAppender} (h : a.ErrorFree) (level : LogLevel) :
    (a.kind.define level ((a.formatter.map LogFormatter.getPattern).getD "")).build =
      some (a.reloaded level) := by
  obtain ⟨kind, level', formatter⟩ := a
  obtain ⟨f, hf, herror⟩ := Option.map_eq_some_iff.mp h
  subst hf
  have hnew : LogFormatter.new f.getPattern = f := f.new_pattern
  cases kind <;> by_cases hempty : f.getPattern = "" <;>
    simp [LogAppenderDefine.build, LogAppenderDefine.create, LogAppenderDefine.format,
      LogAppender.Kind.define, LogAppender.Kind.type, LogAppender.Kind.filename, reloaded, new,
      setLevel, setFormatter, hempty, hnew, herror]

end LogAppender

/-- The appenders built from what is read back. -/
theorem Logger.Dumpable.rebuilt {g : Logger} (h : g.Dumpable) :
    g.define.appenders.filterMap LogAppenderDefine.build = g.appenders.map (.reloaded g.level) := by
  have hone : ∀ a ∈ g.appenders, (a.kind.define g.level
      ((a.formatter.map LogFormatter.getPattern).getD "")).build = some (a.reloaded g.level) :=
    fun a ha => (h a ha).1.build_define g.level
  show (g.appenders.map _).filterMap _ = _
  rw [List.filterMap_map, ← List.filterMap_eq_map]
  exact List.filterMap_congr hone

namespace LoggerManager

/-- A dump of appenders with error-free formatters, each without a level or with its logger's,
loads into a new manager, and every logger then has its level and its appenders as before, but for
the levels these have from their logger and the default pattern for an empty one. -/
theorem reload_dump (Y : YamlCpp) (hY : Y.Lawful) (m : LoggerManager)
    (h : ∀ g ∈ m.loggers.elems, g.Dumpable) :
    ∃ m', reload Y (m.toYamlString Y) = .ok m' ∧ ∀ name,
      (m'.logger name).level = (m.logger name).level ∧
        (m'.logger name).appenders =
          (m.logger name).appenders.map (.reloaded (m.logger name).level) := by
  refine ⟨LogIniter.onChange .empty m.defines .new, reload_eq hY h, fun name => ?_⟩
  cases hfind : m.loggers.find? name with
  | some g =>
    obtain ⟨hg, hname⟩ := SortedBy.find?_eq_some.mp hfind
    subst hname
    have hdefine : g.define ∈ m.defines.elems := List.mem_map_of_mem hg
    have hlogger : (LogIniter.onChange .empty m.defines .new).logger g.name =
        (new.logger g.name).performAll g.define.ops :=
      LogIniter.onChange_logger hdefine .new
    rw [hlogger, LogDefine.performAll_ops, (h g hg).rebuilt, logger_of_find? hfind]
    exact ⟨rfl, rfl⟩
  | none =>
    have hkept : (LogIniter.onChange .empty m.defines .new).logger name = new.logger name := by
      refine LogIniter.onChange_kept (fun d hd => by cases hd) (fun d hd hname => ?_) _
      obtain ⟨g, hg, rfl⟩ := List.mem_map.mp hd
      exact SortedBy.find?_eq_none.mp hfind g hg hname.symm
    have hroot : name ≠ "root" := by
      intro heq
      have hroot := m.root
      rw [← heq, hfind] at hroot
      cases hroot
    rw [hkept, logger_congr ((find?_new hroot).trans hfind.symm), logger_of_none hfind]
    exact ⟨rfl, rfl⟩

/-- A manager that was configured with two appenders for `system`. -/
def configured : LoggerManager :=
  new.configure "system" [.setLevel .info,
    .addAppender ((LogAppender.new .stdout).setLevel .unknow),
    .addAppender ⟨.file "system.log", .info, some (.new "%d%T%m%n")⟩]

theorem configured_dumpable : ∀ g ∈ configured.loggers.elems, g.Dumpable := by decide +kernel

theorem configured_reload :
    ∃ m', reload Flow.yaml (configured.toYamlString Flow.yaml) = .ok m' ∧ ∀ name,
      (m'.logger name).level = (configured.logger name).level ∧
        (m'.logger name).appenders =
          (configured.logger name).appenders.map (.reloaded (configured.logger name).level) :=
  reload_dump Flow.yaml Flow.yaml_lawful configured configured_dumpable

/-- Its console appender comes back with a level. -/
theorem configured_changed :
    Flow.yaml.Lawful ∧ (∀ g ∈ configured.loggers.elems, ∀ a ∈ g.appenders, a.ErrorFree) ∧
      ¬ ∃ m', reload Flow.yaml (configured.toYamlString Flow.yaml) = .ok m' ∧
        (m'.logger "system").appenders = (configured.logger "system").appenders := by
  refine ⟨Flow.yaml_lawful, fun g hg a ha => (configured_dumpable g hg a ha).1, ?_⟩
  intro ⟨m', hreload, happenders⟩
  rw [reload_eq Flow.yaml_lawful configured_dumpable] at hreload
  cases hreload
  exact absurd happenders (by decide +kernel)

end LoggerManager
end SimpleHttpServer
