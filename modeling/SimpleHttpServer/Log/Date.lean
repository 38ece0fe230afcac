import SimpleHttpServer.Log.Format
import SimpleHttpServer.Lib.CString

/-! The buffer of a date (`DateTimeFormatItem::format`).

A date is expanded by `strftime` into a local array of 80 characters, which is then
written as a C string, whatever `strftime` returned. The C library is a parameter
(`TimeLibrary`): it says what the array holds where the expansion fits, and nothing
about it elsewhere. Here a `char` of the array carries whether `strftime` has
written it, and a `std::string` is its bytes (`bytes`). -/
namespace SimpleHttpServer

/-- A `char` of a local array. -/
structure Cell where
  value : UInt8
  /-- By `strftime`. -/
  written : Bool
  deriving DecidableEq, Repr

/-- What `strftime` writes. -/
def Cell.stored (value : UInt8) : Cell := ⟨value, true⟩

/-- The time functions of the C library, in the time zone and the locale of the process. -/
structure TimeLibrary where
  /-- `struct tm`. -/
  Tm : Type
  /-- `safe_localtime`; `none` where the year does not fit. -/
  localtime : Int64 → Option Tm
  /-- What a format stands for at a time. -/
  expand : CString → Tm → CString
  /-- The array after `strftime`, and the result. -/
  strftime : {max : ℕ} → Vector Cell max → CString → Tm → Vector Cell max × ℕ
  /-- An expansion that fits is stored with its NUL. -/
  fits : ∀ {max : ℕ} (buffer : Vector Cell max) (format : CString) (tm : Tm),
    (bytes (expand format tm).text).length < max →
      (bytes (expand format tm).text ++ [0]).map Cell.stored <+:
          (strftime buffer format tm).1.toList ∧
        (strftime buffer format tm).2 = (bytes (expand format tm).text).length
  /-- One that does not leaves anything in the array. -/
  tooLong : ∀ {max : ℕ} (buffer : Vector Cell max) (format : CString) (tm : Tm),
    max ≤ (bytes (expand format tm).text).length → (strftime buffer format tm).2 = 0

/-- `os << buffer`: what stands in front of the first NUL; `none` where there is none and the
reading goes on behind the array. -/
def put {n : ℕ} (buffer : Vector Cell n) : Option (List Cell) :=
  if buffer.toList.any (·.value == 0) then some (buffer.toList.takeWhile (·.value != 0)) else none

/-- `DateTimeFormatItem::format`, with what the array holds before anything is written to it. -/
def DateTimeFormatItem.format (lib : TimeLibrary) (stack : Vector UInt8 80) (event : LogEvent)
    (format : String) : Option (List Cell) :=
  match lib.localtime event.time.toInt64 with
  | some localTm =>
    let buffer : Vector Cell 80 := stack.map fun value => ⟨value, false⟩
    put (lib.strftime buffer (cStr format) localTm).1
  | none => some []

/-! ### The array -/

/-- A stored C string is written out whole, whatever is behind it. -/
theorem put_stored {n : ℕ} {buffer : Vector Cell n} {text : List UInt8} (hnul : 0 ∉ text)
    (h : (text ++ [0]).map Cell.stored <+: buffer.toList) :
    put buffer = some (text.map Cell.stored) := by
  obtain ⟨rest, hrest⟩ := h
  have hlist : buffer.toList = text.map Cell.stored ++ Cell.stored 0 :: rest := by
    simp [← hrest]
  have hall : ∀ c ∈ text.map Cell.stored, (c.value != 0) = true := by
    intro c hc
    obtain ⟨b, hb, rfl⟩ := List.mem_map.mp hc
    have hne : b ≠ 0 := fun heq => hnul (heq ▸ hb)
    simpa [Cell.stored] using hne
  unfold put
  rw [hlist, if_pos (by simp [Cell.stored]), List.takeWhile_append_of_pos hall]
  simp [Cell.stored]

/-- What is written out of an array leaves room for the NUL. -/
theorem put_length {n : ℕ} {buffer : Vector Cell n} {out : List Cell} (h : put buffer = some out) :
    out.length < n := by
  unfold put at h
  split at h
  case isFalse => cases h
  case isTrue hnul =>
    cases h
    obtain ⟨c, hc, hzero⟩ := List.any_eq_true.mp hnul
    have hsplit : buffer.toList.takeWhile (·.value != 0) ++ buffer.toList.dropWhile (·.value != 0) =
        buffer.toList := List.takeWhile_append_dropWhile
    have hlen := congrArg List.length hsplit
    rw [List.length_append, Vector.length_toList] at hlen
    have hne : buffer.toList.dropWhile (·.value != 0) ≠ [] := by
      intro hnil
      have hall := List.dropWhile_eq_nil_iff.mp hnil c hc
      simp_all
    have hpos := List.length_pos_iff.mpr hne
    omega

/-! ### Brace arguments -/

namespace LogFormatter

/-- The brace arguments that the parser attaches to the date directives of a pattern. -/
def dateArgs (pattern : String) : List String :=
  let p := pattern.toList
  let r := (pieces p p.length 0 ⟨[], [], false⟩).flush
  (r.vec.filter fun e => e.directive && e.str == ['d']).map fun e => String.ofList e.fmt

/-- Each has its date item. -/
theorem newDateTime_mem {pattern f : String} (hf : f ∈ dateArgs pattern) :
    newDateTime f ∈ (new pattern).items := by
  obtain ⟨e, he, rfl⟩ := List.mem_map.mp hf
  obtain ⟨hmem, hdate⟩ := List.mem_filter.mp he
  obtain ⟨hdirective, hstr⟩ : e.directive = true ∧ e.str = ['d'] := by simpa using hdate
  have hitem : e.item.1 = newDateTime (String.ofList e.fmt) := by
    unfold Piece.item
    rw [if_pos hdirective, hstr]
    rfl
  rw [← hitem]
  exact List.mem_map_of_mem hmem

theorem mem_flush_vec {r : Parse} {e : Piece} (he : e ∈ r.flush.vec) : e ∈ r.vec ∨ e.fmt = [] := by
  unfold Parse.flush at he
  split at he
  · exact .inl he
  · rcases List.mem_append.mp he with he | he
    · exact .inl he
    · exact .inr (by rw [List.mem_singleton.mp he])

/-- No brace argument has a closing brace. -/
theorem parse_fmt {cs : List Char} {r : Parse} (h : ∀ e ∈ r.vec, '}' ∉ e.fmt) :
    ∀ e ∈ (parse cs r).vec, '}' ∉ e.fmt := by
  induction cs, r using parse.induct with
  | case1 r => simpa [parse] using h
  | case2 c rest r hplain ih =>
    rw [parse, if_pos hplain]
    exact ih h
  | case3 c rest r hplain hescape ih =>
    rw [parse, if_neg hplain, if_pos hescape]
    exact ih h
  | case4 c rest r hplain hescape name arg rest' hd ih =>
    have hreads := directive_reads rest
    rw [hd] at hreads
    have harg : '}' ∉ arg := by
      cases hreads with
      | bare => exact List.not_mem_nil
      | closed name arg rest hname harg => exact harg
    have hpercent : c = '%' := Classical.not_not.mp hplain
    subst hpercent
    rw [parse_directive hescape hreads]
    apply ih
    intro e he
    rcases List.mem_append.mp he with he | he
    · rcases mem_flush_vec he with he | hnil
      · exact h e he
      · rw [hnil]
        exact List.not_mem_nil
    · rw [List.mem_singleton.mp he]
      exact harg
  | case5 c rest r hplain hescape hd ih =>
    rw [parse, if_neg hplain, if_neg hescape]
    split
    case h_1 heq =>
      rw [hd] at heq
      cases heq
    case h_2 =>
      apply ih
      intro e he
      rcases List.mem_append.mp he with he | he
      · exact h e he
      · rw [List.mem_singleton.mp he]
        exact List.not_mem_nil

/-- The pattern of one date directive. -/
def datePattern (f : String) : String := "%d\x7b" ++ f ++ "\x7d"

theorem mem_datePattern {f : String} (hf : '}' ∉ f.toList) : f ∈ dateArgs (datePattern f) := by
  have hwell : WellFormed [.directive ['d'] (some f.toList)] := by
    constructor
    · simp [Token.Ok, isAlpha, hf]
    · simp
  have htext : (datePattern f).toList = Token.texts [.directive ['d'] (some f.toList)] := by
    simp [datePattern, Token.texts, Token.text]
  have hparse := parse_texts hwell (r := ⟨[], [], false⟩) (.inl rfl)
  unfold dateArgs
  dsimp only
  rw [htext, pieces_eq_parse _ (Nat.le_add_left ..), List.drop_zero, hparse]
  simp [Parse.append, Parse.flush, Token.piece]

/-- A date directive can be given whatever has no closing brace, however long it is. -/
theorem attached_iff {f : String} : (∃ pattern, f ∈ dateArgs pattern) ↔ '}' ∉ f.toList := by
  constructor
  · intro ⟨pattern, hf⟩
    obtain ⟨e, he, rfl⟩ := List.mem_map.mp hf
    obtain ⟨hmem, -⟩ := List.mem_filter.mp he
    rw [pieces_eq_parse pattern.toList (Nat.le_add_left ..)] at hmem
    rw [String.toList_ofList]
    rcases mem_flush_vec hmem with hmem | hnil
    · exact parse_fmt (by simp) e hmem
    · rw [hnil]
      exact List.not_mem_nil
  · intro hf
    exact ⟨datePattern f, mem_datePattern hf⟩

end LogFormatter

/-! ### Whole formats -/

/-- `f`, or the default format where it is empty. -/
def wholeFormat (f : String) : String := if f.isEmpty then "%Y-%m-%d %H:%M:%S" else f

/-- The bytes that the whole of a format stands for; a format with a NUL inside has none. -/
def TimeLibrary.expansion (lib : TimeLibrary) (format : String) (tm : lib.Tm) :
    Option (List UInt8) :=
  if h : '\x00' ∉ format.toList then some (bytes (lib.expand ⟨format, h⟩ tm).text) else none

theorem TimeLibrary.expansion_eq_some (lib : TimeLibrary) {format : String} {tm : lib.Tm}
    {expansion : List UInt8} : lib.expansion format tm = some expansion ↔
      ∃ h : '\x00' ∉ format.toList, bytes (lib.expand ⟨format, h⟩ tm).text = expansion := by
  unfold TimeLibrary.expansion
  split
  case isTrue h => simp [h]
  case isFalse h => simp [h]

/-- The formatter of the pattern has a date item of the brace argument `f`, and what the item writes
is the expansion of its whole format, every byte of it stored by `strftime`. -/
structure PrintsWhole (lib : TimeLibrary) (stack : Vector UInt8 80) (event : LogEvent) (tm : lib.Tm)
    (pattern f : String) : Prop where
  item : .dateTime (wholeFormat f) ∈ (LogFormatter.new pattern).items
  text : ∃ expansion, lib.expansion (wholeFormat f) tm = some expansion ∧
    DateTimeFormatItem.format lib stack event (wholeFormat f) = some (expansion.map Cell.stored)

/-- The format has an expansion at this time, of at most 79 bytes. -/
def Fits (lib : TimeLibrary) (tm : lib.Tm) (f : String) : Prop :=
  ∃ expansion, lib.expansion (wholeFormat f) tm = some expansion ∧ expansion.length < 80

namespace DateTimeFormatItem

/-- An expansion that fits is written whole. -/
theorem format_of_fits {lib : TimeLibrary} {event : LogEvent} {tm : lib.Tm}
    (htime : lib.localtime event.time.toInt64 = some tm) {format : String} {expansion : List UInt8}
    (hexp : lib.expansion format tm = some expansion) (hfits : expansion.length < 80)
    (stack : Vector UInt8 80) :
    DateTimeFormatItem.format lib stack event format = some (expansion.map Cell.stored) := by
  obtain ⟨hnul, rfl⟩ := lib.expansion_eq_some.mp hexp
  simp only [DateTimeFormatItem.format, htime, cStr_eq hnul]
  apply put_stored (bytes_noNul _)
  exact (lib.fits _ _ tm hfits).1

/-- Whatever is written is shorter than the array. -/
theorem format_length {lib : TimeLibrary} {event : LogEvent} {stack : Vector UInt8 80}
    {format : String} {out : List Cell} (h : DateTimeFormatItem.format lib stack event format = some out) :
    out.length < 80 := by
  unfold DateTimeFormatItem.format at h
  split at h
  · exact put_length h
  · cases h
    decide

/-- So what is printed whole fits. -/
theorem fits_of_printsWhole {lib : TimeLibrary} {stack : Vector UInt8 80} {event : LogEvent}
    {tm : lib.Tm} {pattern f : String} (h : PrintsWhole lib stack event tm pattern f) :
    Fits lib tm f := by
  obtain ⟨expansion, hexp, hout⟩ := h.text
  refine ⟨expansion, hexp, ?_⟩
  have hlen := format_length hout
  rwa [List.length_map] at hlen

/-- A date directive prints its whole format exactly if the expansion fits into the array. -/
theorem printsWhole_iff_fits (lib : TimeLibrary) (stack : Vector UInt8 80) (event : LogEvent)
    (tm : lib.Tm) (pattern f : String) (htime : lib.localtime event.time.toInt64 = some tm)
    (hf : f ∈ LogFormatter.dateArgs pattern) :
    PrintsWhole lib stack event tm pattern f ↔ Fits lib tm f := by
  constructor
  · exact fits_of_printsWhole
  · intro ⟨expansion, hexp, hfits⟩
    exact ⟨LogFormatter.newDateTime_mem hf, expansion, hexp, format_of_fits htime hexp hfits stack⟩

end DateTimeFormatItem

/-! ### The calendar of a library -/

/-- A calendar with the times of a library, and with its expansions where they fit. -/
structure Calendar.Of (cal : Calendar) (lib : TimeLibrary) where
  tm : lib.Tm → cal.Tm
  localtime : ∀ time, cal.localtime time = (lib.localtime time).map tm
  strftime : ∀ (format : CString) (localTm : lib.Tm),
    (bytes (lib.expand format localTm).text).length < 80 →
      cal.strftime 80 format.text (tm localTm) = (lib.expand format localTm).text

/-- Where the expansion fits, the array is written out as the text that the calendar gives. -/
theorem DateTimeFormatItem.format_calendar {cal : Calendar} {lib : TimeLibrary} (h : cal.Of lib)
    (stack : Vector UInt8 80) (logger : Logger) (level : LogLevel) {event : LogEvent} {f : String}
    (hfits : ∀ tm, lib.localtime event.time.toInt64 = some tm → Fits lib tm f) :
    DateTimeFormatItem.format lib stack event (wholeFormat f) =
      some ((bytes ((LogFormatter.newDateTime f).format cal logger level event)).map Cell.stored) := by
  show _ = some ((bytes (FormatItem.format cal logger level event (.dateTime (wholeFormat f)))).map
    Cell.stored)
  cases htime : lib.localtime event.time.toInt64 with
  | none =>
    have hnone : cal.localtime event.time.toInt64 = none := by
      rw [h.localtime, htime, Option.map_none]
    simp [DateTimeFormatItem.format, FormatItem.format, htime, hnone, bytes]
  | some tm =>
    obtain ⟨expansion, hexp, hlt⟩ := hfits tm htime
    have hsome : cal.localtime event.time.toInt64 = some (h.tm tm) := by
      rw [h.localtime, htime, Option.map_some]
    rw [format_of_fits htime hexp hlt]
    obtain ⟨hnul, rfl⟩ := lib.expansion_eq_some.mp hexp
    simp only [FormatItem.format, hsome]
    rw [h.strftime ⟨wholeFormat f, hnul⟩ tm hlt]

/-! ### Coordinated universal time -/

/-- These bytes stored at the start of the array. -/
def overwrite {n : ℕ} (buffer : Vector Cell n) (bs : List UInt8) : Vector Cell n :=
  Vector.ofFn fun i => (bs[i.val]?.map Cell.stored).getD buffer[i]

theorem stored_overwrite {n : ℕ} (buffer : Vector Cell n) {bs : List UInt8} (h : bs.length ≤ n) :
    bs.map Cell.stored <+: (overwrite buffer bs).toList := by
  rw [List.prefix_iff_getElem?]
  intro i hi
  rw [List.length_map] at hi
  have hn : i < n := by omega
  simp [overwrite, hn, hi]

theorem append_noNul {a b : String} (ha : '\x00' ∉ a.toList) (hb : '\x00' ∉ b.toList) :
    '\x00' ∉ (a ++ b).toList := by
  rw [String.toList_append]
  intro hin
  exact (List.mem_append.mp hin).elim ha hb

/-- Numbers are written without a NUL. -/
theorem toString_noNul (n : Int) : '\x00' ∉ (toString n).toList := by
  have hnat : ∀ m : ℕ, '\x00' ∉ m.repr.toList := by
    intro m hin
    rw [Nat.toList_repr] at hin
    have hdigit := Nat.isDigit_of_mem_toDigits (by decide) (by decide) hin
    cases hdigit
  cases n with
  | ofNat m => exact hnat m
  | negSucc m =>
    show '\x00' ∉ ("-" ++ (m + 1).repr).toList
    exact append_noNul (by simp) (hnat (m + 1))

theorem padded_noNul (n : Int) : '\x00' ∉ (Calendar.padded n).toList := by
  unfold Calendar.padded
  split
  · exact append_noNul (by simp) (toString_noNul n)
  · exact toString_noNul n

theorem conversion_noNul (tm : Calendar.UtcTm) {c : Char} (hc : c ≠ '\x00') :
    '\x00' ∉ (Calendar.conversion tm c).toList := by
  unfold Calendar.conversion
  split
  case h_1 => exact toString_noNul _
  case h_7 => simp
  case h_8 => simp [Ne.symm hc]
  all_goals exact padded_noNul _

theorem conversions_noNul (tm : Calendar.UtcTm) {format : List Char} (h : '\x00' ∉ format) :
    '\x00' ∉ (Calendar.conversions tm format).toList := by
  induction format using Calendar.conversions.induct with
  | case1 c rest ih =>
    obtain ⟨-, hc, hrest⟩ : '\x00' ≠ '%' ∧ c ≠ '\x00' ∧ '\x00' ∉ rest := by simpa [eq_comm] using h
    exact append_noNul (conversion_noNul tm hc) (ih hrest)
  | case2 c rest hplain ih =>
    obtain ⟨hc, hrest⟩ : '\x00' ≠ c ∧ '\x00' ∉ rest := by simpa using h
    rw [Calendar.conversions]
    · exact append_noNul (by simpa using hc) (ih hrest)
    · exact hplain
  | case3 => simp [Calendar.conversions]

/-- Plain text stands for itself. -/
theorem conversions_plain (tm : Calendar.UtcTm) {text : List Char} (h : '%' ∉ text) :
    Calendar.conversions tm text = String.ofList text := by
  induction text using Calendar.conversions.induct with
  | case1 c rest ih => simp at h
  | case2 c rest hplain ih =>
    obtain ⟨-, hrest⟩ : '%' ≠ c ∧ '%' ∉ rest := by simpa using h
    rw [Calendar.conversions, ih hrest, ← String.ofList_append]
    · rfl
    · exact hplain
  | case3 => rfl

namespace TimeLibrary

/-- The expansion of `Calendar.utc`; one that does not fit is cut off without a NUL. -/
def utc : TimeLibrary where
  Tm := Calendar.UtcTm
  localtime := Calendar.utc.localtime
  expand format tm :=
    ⟨Calendar.conversions tm format.text.toList, conversions_noNul tm format.noNul⟩
  strftime {max} buffer format tm :=
    let text := bytes (Calendar.conversions tm format.text.toList)
    if text.length < max then (overwrite buffer (text ++ [0]), text.length)
    else (overwrite buffer (text.take (max - 1)), 0)
  fits := by
    intro max buffer format tm hfits
    dsimp only at hfits ⊢
    rw [if_pos hfits]
    refine ⟨stored_overwrite buffer ?_, rfl⟩
    rw [List.length_append, List.length_singleton]
    omega
  tooLong := by
    intro max buffer format tm hlong
    dsimp only at hlong ⊢
    rw [if_neg (by omega)]

/-- It is the library of the calendar. -/
def utcOf : Calendar.utc.Of utc where
  tm := id
  localtime time := (Option.map_id_apply).symm
  strftime format localTm hfits := by
    have hlen := Nat.lt_of_le_of_lt (length_le_bytes _) hfits
    exact if_pos hlen

instance : DecidableEq utc.Tm := inferInstanceAs (DecidableEq Calendar.UtcTm)

end TimeLibrary

namespace DateTimeFormatItem

/-- The 29th of February 2000, shortly after noon. -/
def leapEvent : LogEvent := ⟨"main.cpp", 7, 0, 1, 0, 951827696, "main", "up"⟩

def leapTm : TimeLibrary.utc.Tm := Calendar.UtcTm.mk 2000 2 29 12 34 56

theorem localtime_leap : TimeLibrary.utc.localtime leapEvent.time.toInt64 = some leapTm := by
  decide +kernel

theorem expansion_time : TimeLibrary.utc.expansion (wholeFormat "%H:%M") leapTm =
    some (bytes "12:34") := by
  decide +kernel

/-- It is 12:34 then. -/
theorem printsWhole_time :
    PrintsWhole .utc (Vector.replicate 80 0) leapEvent leapTm "[%d\x7b%H:%M\x7d] %m%n" "%H:%M" ∧
      DateTimeFormatItem.format .utc (Vector.replicate 80 0) leapEvent (wholeFormat "%H:%M") =
        some ((bytes "12:34").map Cell.stored) := by
  have hfits : Fits .utc leapTm "%H:%M" := ⟨_, expansion_time, by decide⟩
  have hwhole := (printsWhole_iff_fits .utc (Vector.replicate 80 0) leapEvent leapTm
    "[%d\x7b%H:%M\x7d] %m%n" "%H:%M" localtime_leap (by decide +kernel)).mpr hfits
  refine ⟨hwhole, ?_⟩
  obtain ⟨expansion, hexp, hout⟩ := hwhole.text
  obtain rfl := Option.some.inj (expansion_time.symm.trans hexp)
  exact hout

/-- Eighty plain characters leave no room for the NUL. -/
theorem not_fits_of_long (tm : TimeLibrary.utc.Tm) {f : String} (hplain : '%' ∉ f.toList)
    (hlong : 80 ≤ f.length) : ¬ Fits .utc tm f := by
  intro ⟨expansion, hexp, hfits⟩
  obtain ⟨hnul, rfl⟩ := (TimeLibrary.expansion_eq_some _).mp hexp
  have hwhole : wholeFormat f = f := by
    apply if_neg
    intro hempty
    rw [String.isEmpty_iff.mp hempty] at hlong
    simp at hlong
  have htext : (TimeLibrary.utc.expand ⟨wholeFormat f, hnul⟩ tm).text = f := by
    show Calendar.conversions tm (wholeFormat f).toList = f
    rw [hwhole, conversions_plain tm hplain, String.ofList_toList]
  have hlen := length_le_bytes f
  rw [htext] at hfits
  omega

def longFormat : String := String.ofList (List.replicate 80 'x')

theorem longFormat_toList : longFormat.toList = List.replicate 80 'x' := String.toList_ofList

theorem notMem_longFormat {c : Char} (h : c ≠ 'x') : c ∉ longFormat.toList := by
  rw [longFormat_toList]
  intro hin
  exact h (List.eq_of_mem_replicate hin)

theorem longFormat_cut :
    longFormat ∈ LogFormatter.dateArgs (LogFormatter.datePattern longFormat) ∧
      TimeLibrary.utc.localtime leapEvent.time.toInt64 = some leapTm ∧
      ¬ PrintsWhole .utc (Vector.replicate 80 0) leapEvent leapTm
        (LogFormatter.datePattern longFormat) longFormat := by
  refine ⟨LogFormatter.mem_datePattern (notMem_longFormat (by decide)), localtime_leap, ?_⟩
  intro h
  have hlen : 80 ≤ longFormat.length := by
    rw [← String.length_toList, longFormat_toList, List.length_replicate]
  exact not_fits_of_long leapTm (notMem_longFormat (by decide)) hlen (fits_of_printsWhole h)

end DateTimeFormatItem

end SimpleHttpServer
