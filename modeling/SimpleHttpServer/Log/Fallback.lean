import SimpleHttpServer.Log.Format
import SimpleHttpServer.Log.Routing

/-! What the root logger writes for the loggers that fall back to it.

An appender formats an event for the logger that has called it, and of that logger
the items read the name only. On the way through root that logger is root itself,
so `%c` is the one conversion that shows which way an event has come. -/
namespace SimpleHttpServer

namespace FormatItem

/-- Only `%c` reads the logger. -/
theorem format_of_ne_name {cal : Calendar} {g h : Logger} {level : LogLevel} {event : LogEvent}
    {i : FormatItem} (hi : i ≠ .name) : i.format cal g level event = i.format cal h level event := by
  cases i with
  | name => exact absurd rfl hi
  | _ => rfl

/-- The texts of items one after the other, with `x` for each `%c`. -/
def fill (f : FormatItem → List Char) (x : List Char) (items : List FormatItem) : List Char :=
  items.flatMap fun i => if i = .name then x else f i

theorem fill_cons (f : FormatItem → List Char) (x : List Char) (i : FormatItem)
    (rest : List FormatItem) :
    fill f x (i :: rest) = (if i = .name then x else f i) ++ fill f x rest := List.flatMap_cons

theorem length_fill (f : FormatItem → List Char) (x : List Char) (items : List FormatItem) :
    (fill f x items).length = items.count .name * x.length + (fill f [] items).length := by
  induction items with
  | nil => simp [fill]
  | cons i rest ih =>
    rw [fill_cons, fill_cons, List.length_append, List.length_append, ih]
    by_cases hi : i = .name
    · subst hi
      rw [if_pos rfl, if_pos rfl, List.count_cons_self, Nat.succ_mul, List.length_nil]
      omega
    · rw [if_neg hi, if_neg hi, List.count_cons_of_ne hi]
      omega

/-- With a `%c` among the items, the text tells what stands for it. -/
theorem fill_injective {f : FormatItem → List Char} {x y : List Char} {items : List FormatItem}
    (hmem : FormatItem.name ∈ items) (h : fill f x items = fill f y items) : x = y := by
  have hlength : x.length = y.length := by
    have hall := congrArg List.length h
    rw [length_fill f x, length_fill f y] at hall
    exact Nat.eq_of_mul_eq_mul_left (List.count_pos_iff.mpr hmem) (Nat.add_right_cancel hall)
  induction items with
  | nil => cases hmem
  | cons i rest ih =>
    rw [fill_cons, fill_cons] at h
    by_cases hi : i = .name
    · rw [if_pos hi, if_pos hi] at h
      exact List.append_inj_left h hlength
    · rw [if_neg hi, if_neg hi] at h
      exact ih ((List.mem_cons.mp hmem).resolve_left (Ne.symm hi)) (List.append_cancel_left h)

theorem toList_formats_fill (cal : Calendar) (g : Logger) (level : LogLevel) (event : LogEvent)
    (items : List FormatItem) :
    (formats cal g level event items).toList =
      fill (fun i => (i.format cal (.new "") level event).toList) g.name.toList items := by
  rw [toList_formats, fill]
  congr 1
  funext i
  by_cases hi : i = .name
  · rw [if_pos hi, hi]
    rfl
  · rw [if_neg hi, format_of_ne_name hi]

/-- Items write the same for two loggers exactly if these have the same name, or there is no `%c`. -/
theorem formats_eq_iff {cal : Calendar} {g h : Logger} {level : LogLevel} {event : LogEvent}
    {items : List FormatItem} :
    formats cal g level event items = formats cal h level event items ↔
      (FormatItem.name ∈ items → g.name = h.name) := by
  rw [← String.toList_inj, toList_formats_fill, toList_formats_fill]
  constructor
  · intro hsame hmem
    exact String.toList_inj.mp (fill_injective hmem hsame)
  · intro hname
    by_cases hmem : FormatItem.name ∈ items
    · rw [hname hmem]
    · have hnone : ∀ (x : List Char), fill (fun i => (i.format cal (.new "") level event).toList) x
          items = items.flatMap fun i => (i.format cal (.new "") level event).toList := by
        intro x
        refine List.flatMap_congr fun i hi => if_neg ?_
        intro heq
        exact hmem (heq ▸ hi)
      rw [hnone, hnone]

end FormatItem

/-- The text of a record, where the appender has a formatter: of the logger that it is written for,
the items read the name. -/
def LogRecord.text (cal : Calendar) (level : LogLevel) (event : LogEvent) (r : LogRecord) :
    Option String :=
  r.formatter.map fun f => f.format cal (.new r.logger) level event

namespace LoggerManager

/-- Operations on the loggers of a manager, from its construction on. -/
def afterAll (history : List (String × List Logger.Op)) : LoggerManager :=
  history.foldl (fun m op => m.configure op.1 op.2) new

/-- What the appenders of root emit for an event logged through the logger of a name, appender by
appender. -/
def emitted (cal : Calendar) (m : LoggerManager) (name : String) (level : LogLevel)
    (event : LogEvent) : List (Option String) :=
  (m.log name level).map (LogRecord.text cal level event)

/-- The logger of a name with the appenders of root attached to it. -/
def attached (m : LoggerManager) (name : String) : Logger :=
  {m.logger name with appenders := (m.logger "root").appenders}

/-- What they would emit if they were attached to that logger. -/
def emittedAttached (cal : Calendar) (m : LoggerManager) (name : String) (level : LogLevel)
    (event : LogEvent) : List (Option String) :=
  ((m.attached name).log level (m.rootLog level)).map (LogRecord.text cal level event)

/-- No appender of root that admits the level has `%c` in its pattern. -/
def NamesNoLogger (m : LoggerManager) (level : LogLevel) : Prop :=
  ∀ a ∈ (m.logger "root").appenders, a.level.admits level = true →
    ∀ f, a.formatter = some f → FormatItem.name ∉ f.items

/-- All loggers but root have their `m_root`. -/
def Rooted (m : LoggerManager) : Prop :=
  ∀ name, (m.logger name).name = name ∧ (name ≠ "root" → (m.logger name).root = true)

theorem performAll_root (g : Logger) (ops : List Logger.Op) : (g.performAll ops).root = g.root := by
  induction ops generalizing g with
  | nil => rfl
  | cons op rest ih =>
    refine (ih (g.perform op)).trans ?_
    cases op <;> rfl

theorem afterAll_rooted (history : List (String × List Logger.Op)) : (afterAll history).Rooted := by
  have hfrom : ∀ m : LoggerManager, m.Rooted →
      (history.foldl (fun m op => m.configure op.1 op.2) m).Rooted := by
    induction history with
    | nil => exact fun m hm => hm
    | cons op rest ih =>
      intro m hm
      refine ih _ fun name => ?_
      rw [logger_configure]
      by_cases hname : name = op.1
      · rw [if_pos hname, Logger.performAll_name, performAll_root, ← hname]
        exact hm name
      · rw [if_neg hname]
        exact hm name
  refine hfrom new fun name => ?_
  by_cases hname : name = "root"
  · subst hname
    exact ⟨rfl, fun h => absurd rfl h⟩
  · rw [logger_of_none (find?_new hname)]
    exact ⟨rfl, fun _ => rfl⟩

end LoggerManager

/-- What an appender emits for the logger of a name. -/
def LogAppender.textFor (cal : Calendar) (level : LogLevel) (event : LogEvent) (name : String)
    (a : LogAppender) : Option String :=
  a.formatter.map fun f => f.format cal (.new name) level event

theorem Logger.log_texts {g : Logger} {level : LogLevel} (cal : Calendar) (event : LogEvent)
    (hlevel : g.level.admits level = true) (happenders : g.appenders ≠ [])
    (rootLog : List LogRecord) :
    (g.log level rootLog).map (LogRecord.text cal level event) =
      (g.appenders.filter fun a => a.level.admits level).map
        (LogAppender.textFor cal level event g.name) := by
  have hlog : g.log level rootLog = g.appenders.filterMap fun a => a.log g.name level := by
    have hnonempty : g.appenders.isEmpty = false := by simpa using happenders
    rw [Logger.log, if_pos hlevel, hnonempty]
    rfl
  rw [hlog, List.map_filterMap]
  induction g.appenders with
  | nil => rfl
  | cons a rest ih =>
    by_cases ha : a.level.admits level = true
    · have hone : (a.log g.name level).map (LogRecord.text cal level event) =
          some (a.textFor cal level event g.name) := by
        rw [LogAppender.log, if_pos ha]
        rfl
      rw [List.filterMap_cons, hone, List.filter_cons, if_pos ha, List.map_cons, ih]
    · have hnone : (a.log g.name level).map (LogRecord.text cal level event) = none := by
        rw [LogAppender.log, if_neg ha]
        rfl
      rw [List.filterMap_cons, hnone, List.filter_cons, if_neg ha, ih]

namespace LoggerManager

/-- Appenders emit the same for loggers of two names exactly if the admitting ones have no `%c`. -/
theorem texts_eq_iff {cal : Calendar} {level : LogLevel} {event : LogEvent} {name name' : String}
    (hne : name ≠ name') (as : List LogAppender) :
    (as.filter fun a => a.level.admits level).map (LogAppender.textFor cal level event name) =
      (as.filter fun a => a.level.admits level).map (LogAppender.textFor cal level event name') ↔
    ∀ a ∈ as, a.level.admits level = true → ∀ f, a.formatter = some f →
      FormatItem.name ∉ f.items := by
  rw [List.map_inj_left]
  constructor
  · intro hsame a ha hadmits f hf hmem
    have htext := hsame a (List.mem_filter.mpr ⟨ha, hadmits⟩)
    rw [LogAppender.textFor, LogAppender.textFor, hf] at htext
    exact hne (FormatItem.formats_eq_iff.mp (Option.some.inj htext) hmem)
  · intro hnone a ha
    obtain ⟨ha, hadmits⟩ := List.mem_filter.mp ha
    cases hf : a.formatter with
    | none => rw [LogAppender.textFor, LogAppender.textFor, hf]; rfl
    | some f =>
      rw [LogAppender.textFor, LogAppender.textFor, hf]
      exact congrArg some (FormatItem.formats_eq_iff.mpr fun hmem =>
        absurd hmem (hnone a ha hadmits f hf))

/-- What root's appenders emit for a logger that falls back to root is what they would emit if
they were its own, exactly if those that admit the level have no `%c` in their patterns. -/
theorem fallback_iff (cal : Calendar) (history : List (String × List Logger.Op)) (name : String)
    (level : LogLevel) (event : LogEvent)
    (happenders : ((afterAll history).logger name).appenders = [])
    (hlevel : ((afterAll history).logger name).level.admits level = true)
    (hroot : ((afterAll history).logger "root").level.admits level = true) :
    (afterAll history).emitted cal name level event =
        (afterAll history).emittedAttached cal name level event ↔
      (afterAll history).NamesNoLogger level := by
  have hrooted := afterAll_rooted history
  generalize afterAll history = m at happenders hlevel hroot hrooted ⊢
  have hattachedLevel : (m.attached name).level.admits level = true := hlevel
  by_cases hempty : (m.logger "root").appenders = []
  · -- nothing is written either way
    have hrootLog : m.rootLog level = [] := by
      rw [rootLog, Logger.log_nil hroot hempty]
      split <;> rfl
    have hown : m.emitted cal name level event = [] := by
      rw [emitted, log, hrootLog, Logger.log_nil hlevel happenders]
      split <;> rfl
    have hattached : m.emittedAttached cal name level event = [] := by
      have hnone : (m.attached name).appenders = [] := hempty
      rw [emittedAttached, hrootLog, Logger.log_nil hattachedLevel hnone]
      split <;> rfl
    rw [hown, hattached, NamesNoLogger, hempty]
    exact ⟨fun _ a ha => absurd ha List.not_mem_nil, fun _ => rfl⟩
  · have hname : name ≠ "root" := by
      intro hname
      rw [hname] at happenders
      exact hempty happenders
    have hown : m.emitted cal name level event =
        ((m.logger "root").appenders.filter fun a => a.level.admits level).map
          (LogAppender.textFor cal level event "root") := by
      rw [emitted, log, Logger.log_nil hlevel happenders, if_pos ((hrooted name).2 hname), rootLog,
        Logger.log_texts cal event hroot hempty, (hrooted "root").1]
    have hattached : m.emittedAttached cal name level event =
        ((m.logger "root").appenders.filter fun a => a.level.admits level).map
          (LogAppender.textFor cal level event name) := by
      have hsome : (m.attached name).appenders ≠ [] := hempty
      have hattachedName : (m.attached name).name = name := (hrooted name).1
      rw [emittedAttached, Logger.log_texts cal event hattachedLevel hsome, hattachedName]
      rfl
    rw [hown, hattached, texts_eq_iff (Ne.symm hname), NamesNoLogger]

/-- Root with one appender of this pattern. -/
def rootWith (pattern : String) : List (String × List Logger.Op) :=
  [("root", [.clearAppenders, .addAppender ⟨.stdout, .debug, some (.new pattern)⟩])]

def started : LogEvent := ⟨"main.cpp", 7, 0, 1, 0, 0, "main", "up"⟩

theorem messages_alike :
    (afterAll (rootWith "%m%n")).emitted Calendar.utc "system" .info started =
      (afterAll (rootWith "%m%n")).emittedAttached Calendar.utc "system" .info started := by
  refine (fallback_iff Calendar.utc (rootWith "%m%n") "system" .info started rfl rfl rfl).mpr ?_
  intro a ha hadmits f hf
  have hroot : ((afterAll (rootWith "%m%n")).logger "root").appenders =
      [⟨.stdout, .debug, some (.new "%m%n")⟩] := rfl
  rw [hroot, List.mem_singleton] at ha
  subst ha
  obtain rfl := Option.some.inj hf
  decide +kernel

/-- `%c` shows root for an event of another logger. -/
theorem name_hidden :
    (afterAll (rootWith "%c %m")).emitted Calendar.utc "system" .info started =
        [some "root up"] ∧
      (afterAll (rootWith "%c %m")).emittedAttached Calendar.utc "system" .info started =
        [some "system up"] := by
  decide +kernel

end LoggerManager
end SimpleHttpServer
