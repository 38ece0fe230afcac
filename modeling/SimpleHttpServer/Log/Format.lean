import SimpleHttpServer.Log.Logger
import SimpleHttpServer.Log.Pattern

/-! What a formatter writes for an event (`LogFormatter::format`).

Each item writes one field of the event, the logger's name or the level; a date
goes through `localtime_r` and `strftime`, which are a parameter here
(`Calendar`). -/
namespace SimpleHttpServer

structure LogEvent where
  file : String
  line : Int32
  elapse : UInt32
  threadId : UInt32
  fiberId : UInt32
  time : UInt64
  threadName : String
  /-- `m_ss`. -/
  content : String
  deriving DecidableEq, Repr

/-- The calendar functions of the C library, in the time zone and the locale of the process. -/
structure Calendar where
  /-- `struct tm`. -/
  Tm : Type
  /-- `safe_localtime`; `none` where the year does not fit. -/
  localtime : Int64 → Option Tm
  /-- What a buffer of this size holds after `strftime`. -/
  strftime : ℕ → String → Tm → String

/-- `FormatItem::format`: what the item writes. -/
def FormatItem.format (cal : Calendar) (logger : Logger) (level : LogLevel) (event : LogEvent) :
    FormatItem → String
  | message => event.content
  | .level => level.toString
  | elapse => toString event.elapse
  | name => logger.name
  | threadId => toString event.threadId
  | newLine => "\n"
  | dateTime format =>
    match cal.localtime event.time.toInt64 with
    | some localTm => cal.strftime 80 format localTm
    | none => ""
  | filename => event.file
  | line => toString event.line
  | tab _ => "\t"
  | fiberId => toString event.fiberId
  | threadName => event.threadName
  | string str => str

/-- What items write one after the other. -/
def FormatItem.formats (cal : Calendar) (logger : Logger) (level : LogLevel) (event : LogEvent)
    (items : List FormatItem) : String :=
  items.foldl (fun ss i => ss ++ i.format cal logger level event) ""

def LogFormatter.format (f : LogFormatter) (cal : Calendar) (logger : Logger) (level : LogLevel)
    (event : LogEvent) : String :=
  FormatItem.formats cal logger level event f.items

namespace FormatItem

theorem toList_formats (cal : Calendar) (logger : Logger) (level : LogLevel) (event : LogEvent)
    (items : List FormatItem) :
    (formats cal logger level event items).toList =
      items.flatMap fun i => (i.format cal logger level event).toList := by
  have hfrom : ∀ ss : String,
      (items.foldl (fun ss i => ss ++ i.format cal logger level event) ss).toList =
        ss.toList ++ items.flatMap fun i => (i.format cal logger level event).toList := by
    induction items with
    | nil => simp
    | cons i rest ih =>
      intro ss
      rw [List.foldl_cons, ih]
      simp
  exact hfrom ""

theorem formats_append (cal : Calendar) (logger : Logger) (level : LogLevel) (event : LogEvent)
    (a b : List FormatItem) :
    formats cal logger level event (a ++ b) =
      formats cal logger level event a ++ formats cal logger level event b := by
  apply String.toList_injective
  rw [String.toList_append, toList_formats, toList_formats, toList_formats, List.flatMap_append]

end FormatItem

/-- Coordinated universal time, with the conversions of the default format. -/
structure Calendar.UtcTm where
  year : Int
  month : Int
  day : Int
  hour : Int
  minute : Int
  second : Int
  deriving DecidableEq, Repr

namespace Calendar

/-- The date that many days after the first of January 1970. -/
def civil (days : Int) : Int × Int × Int :=
  let z := days + 719468
  let era := z.fdiv 146097
  let doe := z - era * 146097
  let yoe := (doe - doe / 1460 + doe / 36524 - doe / 146096) / 365
  let doy := doe - (365 * yoe + yoe / 4 - yoe / 100)
  let mp := (5 * doy + 2) / 153
  let month := if mp < 10 then mp + 3 else mp - 9
  (yoe + era * 400 + (if month ≤ 2 then 1 else 0), month, doy - (153 * mp + 2) / 5 + 1)

/-- At least two digits. -/
def padded (n : Int) : String := if n < 10 then "0" ++ toString n else toString n

/-- The conversions of `strftime` that the default format has. -/
def conversion (tm : UtcTm) : Char → String
  | 'Y' => toString tm.year
  | 'm' => padded tm.month
  | 'd' => padded tm.day
  | 'H' => padded tm.hour
  | 'M' => padded tm.minute
  | 'S' => padded tm.second
  | '%' => "%"
  | c => String.ofList ['%', c]

def conversions (tm : UtcTm) : List Char → String
  | '%' :: c :: rest => conversion tm c ++ conversions tm rest
  | c :: rest => String.ofList [c] ++ conversions tm rest
  | [] => ""

/-- `tm_year` is an `int`. -/
def utc : Calendar where
  Tm := UtcTm
  localtime time :=
    let t := time.toInt
    let (year, month, day) := civil (t.fdiv 86400)
    let s := t.fmod 86400
    if -2147483648 ≤ year - 1900 ∧ year - 1900 < 2147483648 then
      some ⟨year, month, day, s / 3600, s / 60 % 60, s % 60⟩
    else none
  strftime max format tm :=
    let text := conversions tm format.toList
    if text.length < max then text else ""

/-- A year that does not fit. -/
example : utc.localtime (Int64.ofInt 9223372036854775807) = none := by
  decide +kernel

end Calendar

example : ((LogFormatter.new "[%d]%T%p %m%n").format Calendar.utc (.new "system") .info
    ⟨"main.cpp", 7, 0, 1, 0, 951827696, "main", "up"⟩) = "[2000-02-29 12:34:56]\tINFO up\n" := by
  decide +kernel

end SimpleHttpServer
