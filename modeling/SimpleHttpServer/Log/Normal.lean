import SimpleHttpServer.Log.Codec

/-! What comes out of the decoder, and what a second decoding makes of it.

The decoder passes over an appender without a type and one for a file without the
file, but one of a type it does not know it only complains about, and keeps. The
encoder writes that one without a type, so the second decoding passes over it:
the definition is a normal form exactly if all types are known. -/
namespace SimpleHttpServer

namespace LogAppenderDefine

/-- The appender has a type, and this is its name. -/
def TypeNamed (a : Option Node) (s : String) : Prop :=
  ∃ type, Node.getFrom "type" a = .ok (some type) ∧ Node.asString (some type) = .ok s

/-- The names the decoder knows. -/
def knownTypes : List String := ["FileLogAppender", "StdoutLogAppender"]

/-- How `type` and `file` are read, case by case. -/
inductive Read (a : Option Node) : Option (ℤ × String) → Prop
  | missing (h : Node.getFrom "type" a = .ok none) : Read a none
  | fileless (h : TypeNamed a "FileLogAppender") : Read a none
  | file (h : TypeNamed a "FileLogAppender") (file : String) : Read a (some (1, file))
  | stdout (h : TypeNamed a "StdoutLogAppender") : Read a (some (2, ""))
  | unknown {s : String} (h : TypeNamed a s) (hs : s ∉ knownTypes) : Read a (some (0, ""))

theorem readType_read {a : Option Node} {r : Option (ℤ × String)} (h : readType a = .ok r) :
    Read a r := by
  obtain ⟨type, htype, h⟩ := MapM.bind_ok h
  cases type with
  | none =>
    obtain rfl : none = r := Except.ok.inj h
    exact .missing htype
  | some type =>
    obtain ⟨s, hname, h⟩ := MapM.bind_ok h
    have hnamed : TypeNamed a s := ⟨type, htype, hname⟩
    by_cases hfile : s = "FileLogAppender"
    · subst hfile
      rw [if_pos rfl] at h
      obtain ⟨file, _, h⟩ := MapM.bind_ok h
      cases file with
      | none =>
        obtain rfl : none = r := Except.ok.inj h
        exact .fileless hnamed
      | some file =>
        obtain ⟨f, _, h⟩ := MapM.bind_ok h
        obtain rfl : some (1, f) = r := Except.ok.inj h
        exact .file hnamed f
    · rw [if_neg hfile] at h
      by_cases hstdout : s = "StdoutLogAppender"
      · subst hstdout
        rw [if_pos rfl] at h
        obtain rfl : some (2, "") = r := Except.ok.inj h
        exact .stdout hnamed
      · rw [if_neg hstdout] at h
        obtain rfl : some (0, "") = r := Except.ok.inj h
        exact .unknown hnamed (by simp [knownTypes, hfile, hstdout])

/-- What a level on the logger's node says, wherever it is looked up. -/
def LevelOf (node : Node) (level : LogLevel) : Prop :=
  ∀ s, node.get "level" >>= Node.asString = .ok s → LogLevel.fromString s = level

/-- An entry that is passed over, or one of the type and file that were read, with its logger's
level. -/
inductive Entry (level : LogLevel) (a : Option Node) : Option LogAppenderDefine → Prop
  | passed (h : Read a none) : Entry level a none
  | kept {type : ℤ} {file : String} (h : Read a (some (type, file))) (formatter : String) :
      Entry level a (some ⟨type, level, formatter, file⟩)

/-- The formatter is read last, whichever level there is. -/
theorem formatter_entry {level : LogLevel} {a : Option Node} {type : ℤ} {file : String}
    (htyped : Read a (some (type, file))) {r : Option LogAppenderDefine}
    (h : (do
      match ← Node.getFrom "formatter" a with
      | some formatter => pure (some ⟨type, level, ← Node.asString (some formatter), file⟩)
      | none => pure (some ⟨type, level, "", file⟩) : Except Exn (Option LogAppenderDefine)) = .ok r) :
    Entry level a r := by
  obtain ⟨formatter, _, h⟩ := MapM.bind_ok h
  cases formatter with
  | none =>
    rw [← Except.ok.inj h]
    exact .kept htyped ""
  | some formatter =>
    obtain ⟨text, _, h⟩ := MapM.bind_ok h
    rw [← Except.ok.inj h]
    exact .kept htyped text

theorem fromNode_entry {node : Node} {level : LogLevel} (hnode : LevelOf node level)
    {a : Option Node} {r : Option LogAppenderDefine} (h : fromNode node level a = .ok r) :
    Entry level a r := by
  obtain ⟨read, hread, h⟩ := MapM.bind_ok h
  have hcases := readType_read hread
  cases read with
  | none =>
    obtain rfl : none = r := Except.ok.inj h
    exact .passed hcases
  | some read =>
    obtain ⟨type, file⟩ := read
    obtain ⟨own, _, h⟩ := MapM.bind_ok h
    cases own with
    | none => exact formatter_entry hcases h
    | some own =>
      obtain ⟨found, hget, h⟩ := MapM.bind_ok h
      obtain ⟨s, hs, h⟩ := MapM.bind_ok h
      have hsame : LogLevel.fromString s = level := by
        apply hnode
        rw [hget]
        exact hs
      rw [← hsame]
      exact formatter_entry hcases h

/-- What the decoder makes of an entry that it keeps has a type of 0, or is typed. -/
theorem Entry.typed {level : LogLevel} {a : Option Node} {d : LogAppenderDefine}
    (h : Entry level a (some d)) : d.type = 0 ∨ d.Typed := by
  cases h with
  | kept hread formatter =>
    cases hread with
    | file _ _ => exact .inr (.inl rfl)
    | stdout _ => exact .inr (.inr ⟨rfl, rfl⟩)
    | unknown _ _ => exact .inl rfl

theorem Entry.level {level : LogLevel} {a : Option Node} {d : LogAppenderDefine}
    (h : Entry level a (some d)) : d.level = level := by
  cases h with
  | kept _ _ => rfl

/-- An entry of an unknown type is kept, as one of type 0. -/
theorem Entry.of_unknown {level : LogLevel} {a : Option Node} {r : Option LogAppenderDefine}
    (h : Entry level a r) {s : String} (hnamed : TypeNamed a s) (hs : s ∉ knownTypes) :
    ∃ d, r = some d ∧ d.type = 0 := by
  have hone : ∀ s', TypeNamed a s' → s' = s := by
    intro s' ⟨type', htype', hname'⟩
    obtain ⟨type, htype, hname⟩ := hnamed
    rw [htype] at htype'
    cases htype'
    exact Except.ok.inj (hname'.symm.trans hname)
  have hfile : ¬ TypeNamed a "FileLogAppender" := by
    intro hfile
    exact hs (by rw [← hone _ hfile]; decide)
  have hstdout : ¬ TypeNamed a "StdoutLogAppender" := by
    intro hstdout
    exact hs (by rw [← hone _ hstdout]; decide)
  cases h with
  | passed hread =>
    cases hread with
    | missing hnone =>
      obtain ⟨type, htype, _⟩ := hnamed
      rw [hnone] at htype
      cases htype
    | fileless h => exact absurd h hfile
  | kept hread formatter =>
    cases hread with
    | file h _ => exact absurd h hfile
    | stdout h => exact absurd h hstdout
    | unknown _ _ => exact ⟨_, rfl, rfl⟩

/-- The only entries that are kept with a type of 0 are of unknown types. -/
theorem Entry.unknown {level : LogLevel} {a : Option Node} {d : LogAppenderDefine}
    (h : Entry level a (some d)) (hd : d.type = 0) : ∃ s, TypeNamed a s ∧ s ∉ knownTypes := by
  cases h with
  | kept hread formatter =>
    cases hread with
    | file _ _ => cases hd
    | stdout _ => cases hd
    | unknown hnamed hs => exact ⟨_, hnamed, hs⟩

/-- An appender of type 0 is written without a type, and passed over. -/
theorem fromNode_untyped (node : Node) (level : LogLevel) {a : LogAppenderDefine}
    (h : a.type = 0) : fromNode node level (some a.toNode) = .ok none := by
  have htype : a.toNode.get "type" = .ok none := by
    by_cases hlevel : a.level = .unknow <;> by_cases hformatter : a.formatter = "" <;>
      simp [toNode, Node.set, Node.get, h, hlevel, hformatter]
  have hread : readType (some a.toNode) = .ok none := by
    unfold readType
    rw [Node.getFrom, htype]
    rfl
  unfold fromNode
  rw [hread]
  rfl

/-- An appender with its logger's level, read back: itself, unless it is of type 0. -/
theorem fromNode_toNode {name : String} {level : LogLevel} {appenders : List Node}
    {a : LogAppenderDefine} (htype : a.type = 0 ∨ a.Typed) (hlevel : a.level = level) :
    fromNode (loggerTree name level appenders) level (some a.toNode) =
      .ok (if a.type = 0 then none else some a) := by
  by_cases hzero : a.type = 0
  · rw [if_pos hzero]
    exact fromNode_untyped _ level hzero
  · obtain ⟨kind, hkind⟩ := (htype.resolve_left hzero).define
    have hdescribes := toNode_describes kind a.level a.formatter
    rw [← hkind] at hdescribes
    rw [if_neg hzero, hdescribes.fromNode (.inr hlevel), ← hlevel]
    have hback : (if a.formatter = "" then none else some a.formatter).getD "" = a.formatter := by
      split
      · exact Eq.symm ‹_›
      · rfl
    rw [hback, ← hkind]

end LogAppenderDefine

namespace LogDefine
open LogAppenderDefine

/-- `node["appenders"][i]` for every `i` below the size. -/
def entries (Y : YamlCpp) (n : Node) : List (Option Node) :=
  match n.get "appenders" with
  | .ok (some appenders) => (List.range appenders.size).map (Y.index appenders)
  | _ => []

/-- Every appender that has a type has one that the decoder knows. -/
def KnownTypes (Y : YamlCpp) (n : Node) : Prop :=
  ∀ a ∈ entries Y n, ∀ s, TypeNamed a s → s ∈ knownTypes

/-- A decoded definition: its appenders are what the entries gave, in order. -/
structure Decoded (Y : YamlCpp) (n : Node) (d : LogDefine) : Prop where
  formatter : d.formatter = ""
  level : LevelOf n d.level
  appenders : ∃ rs, (entries Y n).mapM (LogAppenderDefine.fromNode n d.level) = .ok rs ∧
    d.appenders = rs.filterMap id

/-- The appenders are read last, whichever text the level has. -/
theorem appenders_decoded {Y : YamlCpp} {n : Node} {d : LogDefine} {name text : String}
    (hlevel : LevelOf n (LogLevel.fromString text))
    (h : (do
      match ← n.get "appenders" with
      | none => pure ⟨name, LogLevel.fromString text, "", []⟩
      | some appenders => do
        let rs ← (List.range appenders.size).mapM fun i =>
          LogAppenderDefine.fromNode n (LogLevel.fromString text) (Y.index appenders i)
        pure ⟨name, LogLevel.fromString text, "", rs.filterMap id⟩ : Except Exn LogDefine) = .ok d) :
    Decoded Y n d := by
  obtain ⟨appenders, hget, h⟩ := MapM.bind_ok h
  cases appenders with
  | none =>
    rw [← Except.ok.inj h]
    refine ⟨rfl, hlevel, [], ?_, rfl⟩
    rw [entries, hget]
    rfl
  | some appenders =>
    obtain ⟨rs, hrs, h⟩ := MapM.bind_ok h
    rw [← Except.ok.inj h]
    refine ⟨rfl, hlevel, rs, ?_, rfl⟩
    rw [entries, hget]
    exact List.mapM_map.trans hrs

theorem fromNode_decoded {Y : YamlCpp} {n : Node} {d : LogDefine} (h : fromNode Y n = .ok d) :
    Decoded Y n d := by
  obtain ⟨name, _, h⟩ := MapM.bind_ok h
  cases name with
  | none => cases h
  | some name =>
    obtain ⟨name', _, h⟩ := MapM.bind_ok h
    obtain ⟨level, hget, h⟩ := MapM.bind_ok h
    cases level with
    | none =>
      apply appenders_decoded _ h
      intro s hs
      rw [hget] at hs
      cases hs
    | some level =>
      obtain ⟨text, htext, h⟩ := MapM.bind_ok h
      apply appenders_decoded _ h
      intro s hs
      rw [hget] at hs
      rw [Except.ok.inj (hs.symm.trans htext)]

/-- The appenders of a decoded definition, each with the entry it was read off. -/
theorem Decoded.entry {Y : YamlCpp} {n : Node} {d : LogDefine} (h : Decoded Y n d)
    {x : LogAppenderDefine} (hx : x ∈ d.appenders) : ∃ a ∈ entries Y n, Entry d.level a (some x) := by
  obtain ⟨rs, hrs, happenders⟩ := h.appenders
  rw [happenders] at hx
  obtain ⟨r, hr, rfl⟩ := List.mem_filterMap.mp hx
  obtain ⟨a, ha, hread⟩ := MapM.exists_of_mem hrs hr
  exact ⟨a, ha, fromNode_entry h.level hread⟩

/-- No appender of a decoded definition is of type 0 exactly if all types are known. -/
theorem Decoded.known_iff {Y : YamlCpp} {n : Node} {d : LogDefine} (h : Decoded Y n d) :
    (∀ x ∈ d.appenders, x.type ≠ 0) ↔ KnownTypes Y n := by
  constructor
  · intro hall a ha s hnamed
    refine Classical.byContradiction fun hs => ?_
    obtain ⟨rs, hrs, happenders⟩ := h.appenders
    obtain ⟨r, hr, hread⟩ := MapM.mem_of_exists hrs ha
    obtain ⟨x, rfl, hx⟩ := (fromNode_entry h.level hread).of_unknown hnamed hs
    have hin : x ∈ d.appenders := by
      rw [happenders]
      exact List.mem_filterMap.mpr ⟨some x, hr, rfl⟩
    exact hall x hin hx
  · intro hknown x hx hzero
    obtain ⟨a, ha, hentry⟩ := h.entry hx
    obtain ⟨s, hnamed, hs⟩ := hentry.unknown hzero
    exact hs (hknown a ha s hnamed)

/-- A decoded definition, read back from its text: the appenders of type 0 are lost. -/
theorem Decoded.again {Y : YamlCpp} {n : Node} {d : LogDefine} (h : Decoded Y n d) :
    fromNode Y d.toNode = .ok {d with appenders := d.appenders.filter (·.type ≠ 0)} := by
  have hone : ∀ x ∈ d.appenders, LogAppenderDefine.fromNode (loggerTree d.name d.level
      (d.appenders.map LogAppenderDefine.toNode)) d.level (some x.toNode) =
        .ok (if x.type = 0 then none else some x) := by
    intro x hx
    obtain ⟨a, _, hentry⟩ := h.entry hx
    exact fromNode_toNode hentry.typed hentry.level
  have hkept : (d.appenders.filterMap fun x => if x.type = 0 then none else some x) =
      d.appenders.filter (·.type ≠ 0) := by
    rw [← List.filterMap_eq_filter]
    congr 1
    funext x
    by_cases hx : x.type = 0 <;> simp [hx, Option.guard]
  rw [toNode_eq, fromNode_of_results hone, hkept, h.formatter]

/-- A definition survives its text. -/
def Normal (Y : YamlCpp) (d : LogDefine) : Prop :=
  ∃ text, (codec Y).toStr d = .ok text ∧ (codec Y).fromStr text = .ok d

/-- What a node was decoded to survives its text exactly if the decoder knows the types of all the
node's appenders. -/
theorem normal_iff (Y : YamlCpp) (hY : Y.Lawful) (n : Node) (d : LogDefine)
    (h : fromNode Y n = .ok d) : d.Normal Y ↔ KnownTypes Y n := by
  have hdecoded := fromNode_decoded h
  have hback : (codec Y).fromStr (Y.emit d.toNode) =
      .ok {d with appenders := d.appenders.filter (·.type ≠ 0)} :=
    (codec_emit hY d.toNode).trans hdecoded.again
  rw [← hdecoded.known_iff]
  constructor
  · intro ⟨text, hto, hfrom⟩ x hx
    have htext : Y.emit d.toNode = text := Except.ok.inj hto
    rw [← htext, hback] at hfrom
    have hsame : d.appenders.filter (·.type ≠ 0) = d.appenders :=
      congrArg LogDefine.appenders (Except.ok.inj hfrom)
    simpa using List.filter_eq_self.mp hsame x hx
  · intro hall
    refine ⟨Y.emit d.toNode, rfl, ?_⟩
    have hsame : d.appenders.filter (·.type ≠ 0) = d.appenders :=
      List.filter_eq_self.mpr fun x hx => by simpa using hall x hx
    rw [hback, hsame]

/-- A logger with an appender without a type, one for a file without the file, and one for the
console. -/
def consoleTree : Node :=
  .map [(.scalar "name", .scalar "system"), (.scalar "level", .scalar "INFO"),
    (.scalar "appenders", .sequence [.map [(.scalar "file", .scalar "system.log")],
      .map [(.scalar "type", .scalar "FileLogAppender")],
      .map [(.scalar "type", .scalar "StdoutLogAppender"), (.scalar "level", .scalar "WARN")]])]

def console : LogDefine := ⟨"system", .info, "", [⟨2, .info, "", ""⟩]⟩

theorem consoleTree_known : KnownTypes Flow.yaml consoleTree := by
  intro a ha s ⟨type, htype, hname⟩
  have hentries : entries Flow.yaml consoleTree =
      [some (.map [(.scalar "file", .scalar "system.log")]),
        some (.map [(.scalar "type", .scalar "FileLogAppender")]),
        some (.map [(.scalar "type", .scalar "StdoutLogAppender"),
          (.scalar "level", .scalar "WARN")])] := rfl
  rw [hentries] at ha
  simp only [List.mem_cons, List.not_mem_nil, or_false] at ha
  rcases ha with rfl | rfl | rfl
  · cases htype
  · cases htype
    cases hname
    decide
  · cases htype
    cases hname
    decide

theorem console_normal : console.Normal Flow.yaml :=
  (normal_iff Flow.yaml Flow.yaml_lawful consoleTree console rfl).mpr consoleTree_known

/-- A logger whose one appender is for the system log, in a word the decoder does not know. -/
def syslogTree : Node :=
  .map [(.scalar "name", .scalar "system"),
    (.scalar "appenders", .sequence [.map [(.scalar "type", .scalar "SyslogAppender")]])]

def syslog : LogDefine := ⟨"system", .unknow, "", [⟨0, .unknow, "", ""⟩]⟩

/-- The appender is kept, and gone after the second decoding. -/
theorem syslog_lost :
    Flow.yaml.Lawful ∧ fromNode Flow.yaml syslogTree = .ok syslog ∧
      (codec Flow.yaml).fromStr (Flow.yaml.emit syslog.toNode) = .ok {syslog with appenders := []} ∧
      ¬ syslog.Normal Flow.yaml := by
  have hback : (codec Flow.yaml).fromStr (Flow.yaml.emit syslog.toNode) =
      .ok {syslog with appenders := []} := (codec_emit Flow.yaml_lawful syslog.toNode).trans rfl
  refine ⟨Flow.yaml_lawful, rfl, hback, ?_⟩
  intro ⟨text, hto, hfrom⟩
  have htext : Flow.yaml.emit syslog.toNode = text := Except.ok.inj hto
  rw [← htext, hback] at hfrom
  cases hfrom

end LogDefine
end SimpleHttpServer
