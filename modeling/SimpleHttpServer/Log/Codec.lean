import SimpleHttpServer.Config.Lexical
import SimpleHttpServer.Lib.MapM
import SimpleHttpServer.Log.Define

/-! The text of a log definition.

A level `UNKNOW` and an empty formatter are written by leaving them out, and read
back from what is missing: an appender without a level gets its logger's. An
appender with a level gets its logger's as well, since the decoder reads `level`
off the logger's node where it has just found the appender's. So a definition
survives its text exactly when its appenders have no level but their logger's. -/
namespace SimpleHttpServer

/-- `node[key].push_back(value)` in a map under construction. -/
def Node.pushAt (n : Node) (key : String) (value : Node) : Node :=
  let old := match n.get key with
    | .ok (some old) => old
    | _ => .null
  n.set key (old.push value)

/-- `a[key]` where `a` itself may be undefined. -/
def Node.getFrom (key : String) : Option Node → Except Exn (Option Node)
  | none => .ok none
  | some n => n.get key

namespace LogAppenderDefine

/-- An appender in `Lexical_cast<LogDefine, std::string>`. -/
def toNode (a : LogAppenderDefine) : Node :=
  let na := Node.null
  let na :=
    if a.type = 1 then (na.set "type" (.scalar "FileLogAppender")).set "file" (.scalar a.file)
    else if a.type = 2 then na.set "type" (.scalar "StdoutLogAppender")
    else na
  let na := if a.level ≠ .unknow then na.set "level" (.scalar a.level.toString) else na
  if a.formatter.isEmpty then na else na.set "formatter" (.scalar a.formatter)

/-- `lad.type` and `lad.file`; `none` where the appender is passed over. -/
def readType (a : Option Node) : Except Exn (Option (ℤ × String)) := do
  match ← Node.getFrom "type" a with
  | none => return none
  | some type =>
    let type ← Node.asString (some type)
    if type = "FileLogAppender" then
      match ← Node.getFrom "file" a with
      | none => return none
      | some file => return some (1, ← Node.asString (some file))
    else if type = "StdoutLogAppender" then return some (2, "")
    else return some (0, "")

/-- One turn of the decoder's loop, with the logger's node and level; `none` for `continue`. -/
def fromNode (node : Node) (level : LogLevel) (a : Option Node) :
    Except Exn (Option LogAppenderDefine) := do
  match ← readType a with
  | none => return none
  | some (type, file) =>
    let level ← match ← Node.getFrom "level" a with
      | some _ => do pure (LogLevel.fromString (← Node.asString (← node.get "level")))
      | none => pure level
    let formatter ← match ← Node.getFrom "formatter" a with
      | some formatter => Node.asString (some formatter)
      | none => pure ""
    return some ⟨type, level, formatter, file⟩

end LogAppenderDefine

namespace LogDefine

/-- The node of `Lexical_cast<LogDefine, std::string>`. -/
def toNode (d : LogDefine) : Node :=
  let node := Node.null.set "name" (.scalar d.name)
  let node := if d.level ≠ .unknow then node.set "level" (.scalar d.level.toString) else node
  d.appenders.foldl (fun node a => node.pushAt "appenders" a.toNode) node

/-- `Lexical_cast<std::string, LogDefine>` behind `YAML::Load`. -/
def fromNode (Y : YamlCpp) (node : Node) : Except Exn LogDefine := do
  match ← node.get "name" with
  | none => throw "log config name is null"
  | some name =>
    let name ← Node.asString (some name)
    let level ← match ← node.get "level" with
      | some level => Node.asString (some level)
      | none => pure ""
    let level := LogLevel.fromString level
    let appenders ← match ← node.get "appenders" with
      | none => pure []
      | some appenders =>
        (List.range appenders.size).mapM fun i =>
          LogAppenderDefine.fromNode node level (Y.index appenders i)
    return ⟨name, level, "", appenders.filterMap id⟩

/-- `Lexical_cast` between `LogDefine` and text. -/
def codec (Y : YamlCpp) : Codec LogDefine where
  toStr d := .ok (Y.emit d.toNode)
  fromStr f := Y.load f >>= fromNode Y
  same := Eq

theorem codec_emit {Y : YamlCpp} (hY : Y.Lawful) (n : Node) :
    (codec Y).fromStr (Y.emit n) = fromNode Y n := by
  show (Y.load (Y.emit n) >>= fromNode Y) = _
  rw [hY.load_emit]
  rfl

end LogDefine

/-! ### The tree of a logger -/

/-- A logger as a tree: its name, its level if there is one, its appenders if there are any. -/
def loggerTree (name : String) (level : LogLevel) (appenders : List Node) : Node :=
  .map ((.scalar "name", .scalar name) ::
    ((if level = .unknow then [] else [(.scalar "level", .scalar level.toString)]) ++
      if appenders = [] then [] else [(.scalar "appenders", .sequence appenders)]))

theorem pushAt_first {ps : List (Node × Node)} {key : String} {value : Node}
    (h : ps.any (fun p => Node.isKey key p.1) = false) :
    Node.pushAt (.map ps) key value = .map (ps ++ [(.scalar key, .sequence [value])]) := by
  have hget : Node.get key (.map ps) = .ok none := by
    have hnone : ps.find? (fun p => Node.isKey key p.1) = none := by
      simpa [List.find?_eq_none] using h
    simp [Node.get, hnone]
  simp only [Node.pushAt, hget]
  exact Node.set_fresh h

theorem pushAt_next {ps : List (Node × Node)} {key : String} {value : Node} {done : List Node}
    (h : ps.any (fun p => Node.isKey key p.1) = false) :
    Node.pushAt (.map (ps ++ [(.scalar key, .sequence done)])) key value =
      .map (ps ++ [(.scalar key, .sequence (done ++ [value]))]) := by
  have hget : Node.get key (.map (ps ++ [(.scalar key, .sequence done)])) =
      .ok (some (.sequence done)) := by
    simp only [Node.get, Node.find?_fresh h]
    rfl
  simp only [Node.pushAt, hget]
  exact Node.set_last h

/-- Appenders pushed one after the other. -/
theorem foldl_pushAt {α : Type} (f : α → Node) {ps : List (Node × Node)} {key : String}
    (h : ps.any (fun p => Node.isKey key p.1) = false) (l : List α) :
    l.foldl (fun (node : Node) a => node.pushAt key (f a)) (.map ps) =
      .map (ps ++ if l = [] then [] else [(.scalar key, .sequence (l.map f))]) := by
  have hmore : ∀ (l : List α) (done : List Node),
      l.foldl (fun (node : Node) a => node.pushAt key (f a))
        (.map (ps ++ [(.scalar key, .sequence done)])) =
          .map (ps ++ [(.scalar key, .sequence (done ++ l.map f))]) := by
    intro l
    induction l with
    | nil => simp
    | cons a rest ih =>
      intro done
      rw [List.foldl_cons, pushAt_next h, ih]
      simp
  cases l with
  | nil => simp
  | cons a rest =>
    rw [List.foldl_cons, pushAt_first h, hmore]
    simp

/-- The tree that a logger is written as, member by member. -/
theorem pushed_loggerTree {α : Type} (f : α → Node) (name : String) (level : LogLevel) (l : List α) :
    l.foldl (fun (node : Node) a => node.pushAt "appenders" (f a))
      (if level ≠ .unknow then
        (Node.null.set "name" (.scalar name)).set "level" (.scalar level.toString)
      else Node.null.set "name" (.scalar name)) = loggerTree name level (l.map f) := by
  by_cases hlevel : level = .unknow
  · have hbare : Node.null.set "name" (.scalar name) = .map [(.scalar "name", .scalar name)] := rfl
    rw [if_neg (by simpa using hlevel), hbare, foldl_pushAt f (by simp)]
    simp [loggerTree, hlevel]
  · have hbare : (Node.null.set "name" (.scalar name)).set "level" (.scalar level.toString) =
        .map [(.scalar "name", .scalar name), (.scalar "level", .scalar level.toString)] := by
      simp [Node.set]
    rw [if_pos hlevel, hbare, foldl_pushAt f (by simp)]
    simp [loggerTree, hlevel]

theorem LogDefine.toNode_eq (d : LogDefine) :
    d.toNode = loggerTree d.name d.level (d.appenders.map LogAppenderDefine.toNode) :=
  pushed_loggerTree LogAppenderDefine.toNode d.name d.level d.appenders

theorem loggerTree_name (name : String) (level : LogLevel) (appenders : List Node) :
    (loggerTree name level appenders).get "name" = .ok (some (.scalar name)) := by
  simp [loggerTree, Node.get]

theorem loggerTree_level (name : String) (level : LogLevel) (appenders : List Node) :
    (loggerTree name level appenders).get "level" =
      .ok (if level = .unknow then none else some (.scalar level.toString)) := by
  by_cases hlevel : level = .unknow
  · by_cases happenders : appenders = [] <;>
      simp [loggerTree, Node.get, hlevel, happenders]
  · simp [loggerTree, Node.get, hlevel]

theorem loggerTree_appenders (name : String) (level : LogLevel) (appenders : List Node) :
    (loggerTree name level appenders).get "appenders" =
      .ok (if appenders = [] then none else some (.sequence appenders)) := by
  by_cases hlevel : level = .unknow <;> by_cases happenders : appenders = [] <;>
    simp [loggerTree, Node.get, hlevel, happenders]

/-- A logger's tree is decoded appender by appender. -/
theorem fromNode_loggerTree (Y : YamlCpp) (name : String) (level : LogLevel)
    (appenders : List Node) :
    LogDefine.fromNode Y (loggerTree name level appenders) = (do
      let defines ← appenders.mapM fun a =>
        LogAppenderDefine.fromNode (loggerTree name level appenders) level (some a)
      return ⟨name, level, "", defines.filterMap id⟩) := by
  have hunknow : LogLevel.fromString "" = .unknow := by decide
  unfold LogDefine.fromNode
  rw [loggerTree_name, loggerTree_level, loggerTree_appenders]
  by_cases hlevel : level = .unknow <;> by_cases happenders : appenders = [] <;>
    simp only [hlevel, happenders, ↓reduceIte, bind, Except.bind, Node.asString, pure, Except.pure,
      LogLevel.fromString_toString, hunknow, List.mapM_nil, YamlCpp.mapM_index]

/-- A logger is decoded as its appenders are; those that come to nothing are left out. -/
theorem fromNode_of_results {Y : YamlCpp} {name : String} {level : LogLevel} {α : Type}
    {f : α → Node} {g : α → Option LogAppenderDefine} {l : List α}
    (h : ∀ a ∈ l, LogAppenderDefine.fromNode (loggerTree name level (l.map f)) level (some (f a)) =
      .ok (g a)) :
    LogDefine.fromNode Y (loggerTree name level (l.map f)) =
      .ok ⟨name, level, "", l.filterMap g⟩ := by
  have hall : (l.map f).mapM (fun n =>
      LogAppenderDefine.fromNode (loggerTree name level (l.map f)) level (some n)) =
        .ok (l.map g) := by
    rw [List.mapM_map]
    exact MapM.mapM_ok h
  rw [fromNode_loggerTree, hall]
  simp [List.filterMap_map, bind, Except.bind, pure, Except.pure]

/-- If every appender is decoded, so is the logger. -/
theorem fromNode_of_appenders {Y : YamlCpp} {name : String} {level : LogLevel} {α : Type}
    {f : α → Node} {g : α → LogAppenderDefine} {l : List α}
    (h : ∀ a ∈ l, LogAppenderDefine.fromNode (loggerTree name level (l.map f)) level (some (f a)) =
      .ok (some (g a))) :
    LogDefine.fromNode Y (loggerTree name level (l.map f)) = .ok ⟨name, level, "", l.map g⟩ := by
  rw [fromNode_of_results h]
  simp

/-! ### The tree of an appender -/

namespace LogAppender.Kind

/-- `LogAppenderDefine::type`. -/
def type : Kind → ℤ
  | file _ => 1
  | stdout => 2

/-- `LogAppenderDefine::file`. -/
def filename : Kind → String
  | file filename => filename
  | stdout => ""

/-- The name of the subclass. -/
def className : Kind → String
  | file _ => "FileLogAppender"
  | stdout => "StdoutLogAppender"

/-- The definition of an appender. -/
def define (kind : Kind) (level : LogLevel) (formatter : String) : LogAppenderDefine :=
  ⟨kind.type, level, formatter, kind.filename⟩

end LogAppender.Kind

/-- What the members of an appender's tree say, in whatever order they stand. -/
structure Describes (n : Node) (kind : LogAppender.Kind) (level : LogLevel)
    (formatter : Option String) : Prop where
  type : n.get "type" = .ok (some (.scalar kind.className))
  file : ∀ filename, kind = .file filename → n.get "file" = .ok (some (.scalar filename))
  level : n.get "level" = .ok (if level = .unknow then none else some (.scalar level.toString))
  formatter : n.get "formatter" = .ok (formatter.map .scalar)

namespace Describes
variable {n : Node} {kind : LogAppender.Kind} {level : LogLevel} {formatter : Option String}

theorem readType (h : Describes n kind level formatter) :
    LogAppenderDefine.readType (some n) = .ok (some (kind.type, kind.filename)) := by
  simp only [LogAppenderDefine.readType, Node.getFrom, h.type, bind, Except.bind, Node.asString]
  cases kind with
  | file filename =>
    rw [h.file filename rfl]
    rfl
  | stdout => rfl

/-- An appender without a level of its own, or with its logger's, is decoded to its logger's. -/
theorem fromNode (h : Describes n kind level formatter) {name : String} {l : LogLevel}
    {appenders : List Node} (hlevel : level = .unknow ∨ level = l) :
    LogAppenderDefine.fromNode (loggerTree name l appenders) l (some n) =
      .ok (some (kind.define l (formatter.getD ""))) := by
  simp only [LogAppenderDefine.fromNode, h.readType, Node.getFrom, h.level, h.formatter,
    loggerTree_level, bind, Except.bind, pure, Except.pure]
  by_cases hunknow : level = .unknow
  · cases formatter <;> simp [hunknow, Node.asString, LogAppender.Kind.define]
  · have hsame := hlevel.resolve_left hunknow
    subst hsame
    cases formatter <;> simp [hunknow, Node.asString, LogAppender.Kind.define]

end Describes

/-! ### The round trip -/

namespace LogAppenderDefine

/-- Type 1 with any file, or type 2 with none. -/
def Typed (a : LogAppenderDefine) : Prop := a.type = 1 ∨ a.type = 2 ∧ a.file = ""

instance : DecidablePred Typed := fun a =>
  inferInstanceAs (Decidable (a.type = 1 ∨ a.type = 2 ∧ a.file = ""))

/-- An appender without a level has its logger's. -/
def inherit (level : LogLevel) (a : LogAppenderDefine) : LogAppenderDefine :=
  if a.level = .unknow then {a with level := level} else a

theorem Typed.define {a : LogAppenderDefine} (h : a.Typed) :
    ∃ kind : LogAppender.Kind, a = kind.define a.level a.formatter := by
  obtain ⟨type, level, formatter, file⟩ := a
  rcases h with h | ⟨htype, hfile⟩
  · cases h
    exact ⟨.file file, rfl⟩
  · cases htype
    cases hfile
    exact ⟨.stdout, rfl⟩

theorem toNode_describes (kind : LogAppender.Kind) (level : LogLevel) (formatter : String) :
    Describes (kind.define level formatter).toNode kind level
      (if formatter = "" then none else some formatter) := by
  cases kind <;> by_cases hlevel : level = .unknow <;> by_cases hformatter : formatter = "" <;>
    constructor <;>
    simp [toNode, LogAppender.Kind.define, LogAppender.Kind.type, LogAppender.Kind.filename,
      LogAppender.Kind.className, Node.set, Node.get, hlevel, hformatter]

/-- With no level of its own, or its logger's, an appender inherits its logger's. -/
theorem inherit_eq {level : LogLevel} {a : LogAppenderDefine}
    (h : a.level = .unknow ∨ a.level = level) : a.inherit level = {a with level := level} := by
  unfold inherit
  split
  · rfl
  · rw [← h.resolve_left ‹_›]

end LogAppenderDefine

/-- A definition read back from its text: an appender without a level gets its logger's. -/
def LogDefine.inherited (d : LogDefine) : LogDefine :=
  {d with appenders := d.appenders.map (.inherit d.level)}

/-- A definition of typed appenders, each without a level or with its logger's, survives its text
but for the levels that its appenders have from their logger. -/
theorem LogDefine.roundTrip (Y : YamlCpp) (hY : Y.Lawful) (d : LogDefine)
    (hformatter : d.formatter = "") (htyped : ∀ a ∈ d.appenders, a.Typed)
    (hlevel : ∀ a ∈ d.appenders, a.level = .unknow ∨ a.level = d.level) :
    ∃ text, (codec Y).toStr d = .ok text ∧ (codec Y).fromStr text = .ok d.inherited := by
  refine ⟨Y.emit d.toNode, rfl, ?_⟩
  have hone : ∀ a ∈ d.appenders, LogAppenderDefine.fromNode (loggerTree d.name d.level
      (d.appenders.map LogAppenderDefine.toNode)) d.level (some a.toNode) =
        .ok (some (a.inherit d.level)) := by
    intro a ha
    obtain ⟨kind, hkind⟩ := (htyped a ha).define
    have hdescribes := LogAppenderDefine.toNode_describes kind a.level a.formatter
    rw [← hkind] at hdescribes
    rw [hdescribes.fromNode (hlevel a ha), LogAppenderDefine.inherit_eq (hlevel a ha), hkind]
    by_cases hempty : a.formatter = "" <;> simp [LogAppender.Kind.define, hempty]
  calc (codec Y).fromStr (Y.emit d.toNode)
      = fromNode Y (loggerTree d.name d.level (d.appenders.map LogAppenderDefine.toNode)) := by
        rw [codec_emit hY, toNode_eq]
    _ = .ok d.inherited := by
        rw [fromNode_of_appenders hone]
        simp [inherited, hformatter]

namespace LogDefine

/-- A logger with a file appender of its level and a console appender without one. -/
def system : LogDefine :=
  ⟨"system", .info, "", [⟨1, .info, "%d%T%m%n", "system.log"⟩, ⟨2, .unknow, "", ""⟩]⟩

theorem system_roundTrip :
    ∃ text, (codec Flow.yaml).toStr system = .ok text ∧
      (codec Flow.yaml).fromStr text = .ok system.inherited :=
  roundTrip Flow.yaml Flow.yaml_lawful system rfl (by decide) (by decide)

/-- The console appender comes back with a level. -/
theorem system_changed :
    Flow.yaml.Lawful ∧ (∀ a ∈ system.appenders, a.Typed) ∧
      ¬ ∃ text, (codec Flow.yaml).toStr system = .ok text ∧
        (codec Flow.yaml).fromStr text = .ok system := by
  refine ⟨Flow.yaml_lawful, by decide, ?_⟩
  intro ⟨text, hto, hfrom⟩
  have htext : Flow.yaml.emit system.toNode = text := Except.ok.inj hto
  rw [← htext, codec_emit Flow.yaml_lawful] at hfrom
  have hback : (fromNode Flow.yaml system.toNode).toOption = some system.inherited := by decide
  rw [hfrom] at hback
  exact absurd (Option.some.inj hback) (by decide)

end LogDefine
end SimpleHttpServer
