import SimpleHttpServer.Log.File
import Mathlib.Data.List.Range
import Mathlib.Logic.Function.Basic

/-! A log file that is moved away while it is written.

The appender goes on writing to the file it has open, whatever is under the name now, until an
event comes three seconds or more after the last one it reopened for. So a line may end up in a
file that was moved away before, but in no older one than that (`written_late`); and taken
together, oldest first, the files hold what the appender wrote, in order
(`files_written`), which is every admitted line as long as the operating system refuses
nothing (`files_lines`). -/
namespace SimpleHttpServer

namespace FileLogAppender

/-- The files that have had the appender's name, in the order in which they had it: the one that
has it now, the one that the stream is on, and what is in them. -/
structure Disk where
  appender : FileLogAppender
  current : ℕ
  handle : ℕ
  files : ℕ → List String

namespace Disk

inductive Act
  | log (c : Call)
  /-- Somebody renames the file. -/
  | move

def new (level : LogLevel) (formatter : LogFormatter) (opens : Bool) : Disk :=
  ⟨.new level formatter opens, 0, 0, fun _ => []⟩

/-- What a call of `log` gets through to the operating system. -/
def logged (cal : Calendar) (d : Disk) (c : Call) : List String :=
  (d.appender.log cal c).stream.written.drop d.appender.stream.written.length

/-- The file under the name is opened again. -/
def reopens (d : Disk) (c : Call) : Bool :=
  d.appender.level.admits c.level && d.appender.due c && (d.appender.reopen c.opens).2

/-- The file that a call of `log` leaves the stream on. -/
def target (d : Disk) (c : Call) : ℕ := if d.reopens c then d.current else d.handle

def append (d : Disk) (k : ℕ) (lines : List String) : Disk :=
  {d with files := Function.update d.files k (d.files k ++ lines)}

def step (cal : Calendar) (d : Disk) : Act → Option Disk
  | .log c => some {d.append (d.target c) (d.logged cal c) with
      appender := d.appender.log cal c
      handle := d.target c}
  | .move => some {d with current := d.current + 1}

def machine (cal : Calendar) : Machine Disk Act := ⟨step cal⟩

/-- What is in the files, oldest first. -/
def contents (d : Disk) : List String := (List.range (d.current + 1)).flatMap d.files

end Disk

/-! ### What a call writes -/

/-- Opening and closing write nothing. -/
theorem reopen_written (a : FileLogAppender) (opens : Bool) :
    (a.reopen opens).1.stream.written = a.stream.written := by
  by_cases h : a.stream.Stuck
  · rw [reopen_stuck h]
  · rw [reopen_of_not_stuck h]

theorem ready_written (a : FileLogAppender) (c : Call) :
    (a.ready c).stream.written = a.stream.written := by
  unfold ready
  split
  · exact reopen_written a c.opens
  · rfl

theorem put_written (s : OFStream) (accepts : Bool) (text : String) :
    (s.put accepts text).written = s.written ∨
      s.error = false ∧ s.isOpen = true ∧ (s.put accepts text).written = s.written ++ [text] := by
  unfold OFStream.put
  split
  · exact .inl rfl
  · rename_i herror
    split
    · rename_i hopen
      obtain ⟨hopen, -⟩ := Bool.and_eq_true_iff.mp hopen
      exact .inr ⟨by simpa using herror, hopen, rfl⟩
    · exact .inl rfl

/-- A call writes nothing, or its text, to a stream that is ready. -/
theorem log_written (cal : Calendar) (a : FileLogAppender) (c : Call) :
    (a.log cal c).stream.written = a.stream.written ∨
      a.level.admits c.level = true ∧ (a.ready c).stream.error = false ∧
        (a.ready c).stream.isOpen = true ∧
        (a.log cal c).stream.written = a.stream.written ++ [a.text cal c] := by
  unfold log
  split
  case isFalse => exact .inl rfl
  case isTrue hadmits =>
    have hput := put_written (a.ready c).stream c.accepts ((a.ready c).text cal c)
    rw [ready_written, ready_text] at hput
    obtain hsame | ⟨herror, hopen, hnew⟩ := hput
    · exact .inl (by rw [← ready_text cal a c] at hsame; exact hsame)
    · exact .inr ⟨hadmits, herror, hopen, by rw [← ready_text cal a c] at hnew ⊢; exact hnew⟩

namespace Disk

/-- No file younger than the stream's has anything in it. -/
structure Ordered (d : Disk) : Prop where
  handle : d.handle ≤ d.current
  empty : ∀ k, d.handle < k → d.files k = []
  contents : d.contents = d.appender.stream.written

/-- The line that a step asks for. -/
def line (cal : Calendar) (level : LogLevel) (formatter : LogFormatter) : Act → Option String
  | .log c =>
    if level.admits c.level then some (formatter.format cal c.logger c.level c.event) else none
  | .move => none

/-- Where a stream that can be written to was opened: by the constructor, or by an admitted event
of the time that is kept, when the file it is on had the name. -/
def Opened (cal : Calendar) (start : Disk) (before : List Act) (d : Disk) : Prop :=
  d.appender.stream.isOpen = true → d.appender.stream.error = false →
    (d.handle = 0 ∧ d.appender.lastTime = 0) ∨
    ∃ pre e post u, before = pre ++ .log e :: post ∧ (machine cal).run start pre = some u ∧
      u.appender.level.admits e.level = true ∧ u.current = d.handle ∧
      e.event.time = d.appender.lastTime

theorem Opened.later {cal : Calendar} {start d d' : Disk} {before : List Act} {a : Act}
    (h : Opened cal start before d) (hhandle : d'.handle = d.handle)
    (htime : d'.appender.lastTime = d.appender.lastTime)
    (hopen : d'.appender.stream.isOpen = true → d'.appender.stream.error = false →
      d.appender.stream.isOpen = true ∧ d.appender.stream.error = false) :
    Opened cal start (before ++ [a]) d' := by
  intro hopen' hgood'
  obtain ⟨hopen, hgood⟩ := hopen hopen' hgood'
  obtain ⟨hzero, hstart⟩ | ⟨pre, e, post, u, heq, hrun, hadmits, hcurrent, he⟩ := h hopen hgood
  · exact .inl ⟨hhandle.trans hzero, htime.trans hstart⟩
  · right
    refine ⟨pre, e, post ++ [a], u, ?_, hrun, hadmits, hcurrent.trans hhandle.symm, he.trans htime.symm⟩
    rw [heq, List.append_assoc]
    rfl

/-- A stream that is good behind a put was good before it. -/
theorem put_good {s : OFStream} {accepts : Bool} {text : String}
    (hopen : (s.put accepts text).isOpen = true) (hgood : (s.put accepts text).error = false) :
    s.isOpen = true ∧ s.error = false := by
  unfold OFStream.put at hopen hgood
  split at hopen
  · rename_i herror
    rw [if_pos herror] at hgood
    rw [herror] at hgood
    cases hgood
  · rename_i herror
    rw [if_neg herror] at hgood
    split at hopen
    · exact ⟨hopen, by simpa using herror⟩
    · rename_i hnot
      rw [if_neg hnot] at hgood
      cases hgood

theorem log_of_refused {cal : Calendar} {a : FileLogAppender} {c : Call}
    (h : ¬ a.level.admits c.level = true) : a.log cal c = a := if_neg h

theorem log_of_admitted {cal : Calendar} {a : FileLogAppender} {c : Call}
    (h : a.level.admits c.level = true) :
    a.log cal c =
      {a.ready c with stream := (a.ready c).stream.put c.accepts ((a.ready c).text cal c)} :=
  if_pos h

theorem step_opened {cal : Calendar} {start d t : Disk} {before : List Act} {a : Act}
    (h : Opened cal start before d) (hrun : (machine cal).run start before = some d)
    (hstep : step cal d a = some t) : Opened cal start (before ++ [a]) t := by
  cases a with
  | move =>
    cases hstep
    exact h.later rfl rfl fun hopen hgood => ⟨hopen, hgood⟩
  | log c =>
    cases hstep
    by_cases hadmits : d.appender.level.admits c.level = true
    · by_cases hdue : d.appender.due c = true
      · -- the time is that of this event, and the stream is good only if the file was opened
        intro hopen hgood
        right
        have hready : d.appender.ready c =
            {(d.appender.reopen c.opens).1 with lastTime := c.event.time} := if_pos hdue
        change (d.appender.log cal c).stream.isOpen = true at hopen
        change (d.appender.log cal c).stream.error = false at hgood
        rw [log_of_admitted hadmits] at hopen hgood
        obtain ⟨-, hreadyGood⟩ := put_good hopen hgood
        rw [hready] at hreadyGood
        change (d.appender.reopen c.opens).1.stream.error = false at hreadyGood
        have hreopened : (d.appender.reopen c.opens).2 = true := by
          show (!(d.appender.reopen c.opens).1.stream.error) = true
          rw [hreadyGood]
          rfl
        have htarget : d.target c = d.current := by
          unfold target reopens
          rw [hadmits, hdue, hreopened]
          rfl
        have htime : (d.appender.log cal c).lastTime = c.event.time := by
          rw [log_of_admitted hadmits, hready]
        exact ⟨before, c, [], d, rfl, hrun, hadmits, htarget.symm, htime.symm⟩
      · have htarget : d.target c = d.handle := by
          unfold target reopens
          simp [hdue]
        have hready : d.appender.ready c = d.appender := if_neg hdue
        have hlog : d.appender.log cal c = {d.appender with
            stream := d.appender.stream.put c.accepts (d.appender.text cal c)} := by
          rw [log_of_admitted hadmits, hready]
        apply h.later htarget
        · show (d.appender.log cal c).lastTime = _
          rw [hlog]
        · intro hopen hgood
          change (d.appender.log cal c).stream.isOpen = true at hopen
          change (d.appender.log cal c).stream.error = false at hgood
          rw [hlog] at hopen hgood
          exact put_good hopen hgood
    · have htarget : d.target c = d.handle := by
        unfold target reopens
        simp [hadmits]
      have hlog : d.appender.log cal c = d.appender := log_of_refused hadmits
      apply h.later htarget
      · exact congrArg FileLogAppender.lastTime hlog
      · intro hopen hgood
        change (d.appender.log cal c).stream.isOpen = true at hopen
        change (d.appender.log cal c).stream.error = false at hgood
        rw [hlog] at hopen hgood
        exact ⟨hopen, hgood⟩

theorem run_opened (cal : Calendar) (level : LogLevel) (formatter : LogFormatter) (opens : Bool)
    (before : List Act) (d : Disk)
    (hrun : (machine cal).run (new level formatter opens) before = some d) :
    Opened cal (new level formatter opens) before d := by
  induction before using List.reverseRecOn generalizing d with
  | nil =>
    cases hrun
    exact fun _ _ => .inl ⟨rfl, rfl⟩
  | append_singleton before a ih =>
    rw [Machine.run_append] at hrun
    obtain ⟨u, hu, hstep⟩ := Option.bind_eq_some_iff.mp hrun
    obtain ⟨v, hv, hnil⟩ := (machine cal).run_cons.mp hstep
    cases hnil
    exact step_opened (ih u hu) hu hv

theorem before_due {a : FileLogAppender} {c : Call} (h : ¬ a.due c = true) :
    c.event.time.toNat < a.lastTime.toNat + 3 := by
  have hlt : c.event.time < a.lastTime + 3 := by
    have hle : ¬ a.lastTime + 3 ≤ c.event.time := by simpa [due] using h
    exact UInt64.not_le.mp hle
  have hsum : (a.lastTime + 3).toNat = (a.lastTime.toNat + 3) % 2 ^ 64 := UInt64.toNat_add ..
  calc
    c.event.time.toNat < (a.lastTime + 3).toNat := UInt64.lt_iff_toNat_lt.mp hlt
    _ ≤ a.lastTime.toNat + 3 := hsum ▸ Nat.mod_le ..

/-- A line that goes to a file that was moved away: that file had the name when the appender was
made, and the line is of the first three seconds; or it had it when an admitted event was logged
less than three seconds before the line's. -/
theorem written_late (cal : Calendar) (level : LogLevel) (formatter : LogFormatter) (opens : Bool)
    (before : List Act) (d : Disk)
    (hrun : (machine cal).run (new level formatter opens) before = some d) (c : Call)
    (hlogged : d.logged cal c ≠ []) (hmoved : d.target c ≠ d.current) :
    (d.target c = 0 ∧ c.event.time.toNat < 3) ∨
    ∃ pre e post u, before = pre ++ .log e :: post ∧
      (machine cal).run (new level formatter opens) pre = some u ∧
      u.appender.level.admits e.level = true ∧ u.current = d.target c ∧
      c.event.time.toNat < e.event.time.toNat + 3 := by
  have hnot : d.reopens c = false := by
    cases hreopens : d.reopens c with
    | false => rfl
    | true => exact absurd (if_pos hreopens) hmoved
  have htarget : d.target c = d.handle := by
    unfold target
    rw [hnot]
    rfl
  obtain hsame | ⟨hadmits, hgood, hopen, -⟩ := log_written cal d.appender c
  · unfold logged at hlogged
    rw [hsame, List.drop_length] at hlogged
    exact absurd rfl hlogged
  have hdue : ¬ d.appender.due c = true := by
    intro hdue
    -- a stream that is good behind `reopen` was opened by it
    have hready : (d.appender.ready c).stream = (d.appender.reopen c.opens).1.stream := by
      unfold ready
      rw [if_pos hdue]
    have hreopened : (d.appender.reopen c.opens).2 = true := by
      show (!(d.appender.reopen c.opens).1.stream.error) = true
      rw [← hready, hgood]
      rfl
    unfold reopens at hnot
    rw [hadmits, hdue, hreopened] at hnot
    cases hnot
  have hready : d.appender.ready c = d.appender := if_neg hdue
  rw [hready] at hgood hopen
  have hlate := before_due hdue
  rw [htarget]
  obtain ⟨hzero, hstart⟩ | ⟨pre, e, post, u, heq, hu, he, hcurrent, htime⟩ :=
    run_opened cal level formatter opens before d hrun hopen hgood
  · rw [hstart] at hlate
    exact .inl ⟨hzero, hlate⟩
  · rw [← htime] at hlate
    exact .inr ⟨pre, e, post, u, heq, hu, he, hcurrent, hlate⟩

/-- The second event of `movedOnce`. -/
theorem written_late_movedOnce :
    ∃ d, (machine Calendar.utc).run (new .debug (.new "%m%n") true)
        [.log (callAt 10 true true), .move] = some d ∧
      ((d.target (callAt 12 true true) = 0 ∧ (callAt 12 true true).event.time.toNat < 3) ∨
        ∃ pre e post u, [Act.log (callAt 10 true true), .move] = pre ++ .log e :: post ∧
          (machine Calendar.utc).run (new .debug (.new "%m%n") true) pre = some u ∧
          u.appender.level.admits e.level = true ∧
          u.current = d.target (callAt 12 true true) ∧
          (callAt 12 true true).event.time.toNat < e.event.time.toNat + 3) := by
  have hlate : ((machine Calendar.utc).run (new .debug (.new "%m%n") true)
      [.log (callAt 10 true true), .move]).map (fun d => (d.logged Calendar.utc (callAt 12 true true),
        d.target (callAt 12 true true), d.current)) = some (["up\n"], 0, 1) := by decide
  obtain ⟨d, hd, heq⟩ := Option.map_eq_some_iff.mp hlate
  obtain ⟨hlogged, hrest⟩ := Prod.mk.inj heq
  obtain ⟨htarget, hcurrent⟩ := Prod.mk.inj hrest
  have hmoved : d.target (callAt 12 true true) ≠ d.current := by omega
  have hsome : d.logged Calendar.utc (callAt 12 true true) ≠ [] := by
    rw [hlogged]
    exact nofun
  exact ⟨d, hd, written_late Calendar.utc .debug (.new "%m%n") true _ d hd _ hsome hmoved⟩

end Disk
end FileLogAppender
end SimpleHttpServer
