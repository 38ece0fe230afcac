import SimpleHttpServer.Log.Initer
import SimpleHttpServer.Log.Routing

/-! Definitions that go away.

The listener does not forget a logger whose definition is gone: it sets the level
to `UNKNOW` and takes the appenders away. For a logger that falls back to root
that comes to the same as never having been configured; for the root logger it
does not, and root is what the others fall back to. What a run of configurations
leaves of the loggers is told by a history of each name (`Status`), which the
system of variable and loggers follows step by step. -/
namespace SimpleHttpServer.LogIniter

/-! ### The history of a name -/

/-- What the listener last did with a name. -/
inductive Status
  | never
  | gone
  | built (d : LogDefine)

/-- The logger of a name with this history. -/
def Status.logger (k : String) : Status → Logger
  | never => LoggerManager.new.logger k
  | gone => {LoggerManager.new.logger k with level := .unknow, appenders := []}
  | built d => {LoggerManager.new.logger k with
      level := d.level
      appenders := d.appenders.filterMap LogAppenderDefine.build}

/-- What a change does to the history of a name. -/
def Status.next (old_value new_value : LogDefineSet) (k : String) (st : Status) : Status :=
  match new_value.find? k with
  | some d =>
    match old_value.find? k with
    | some it => if d == it then st else built d
    | none => built d
  | none => if (old_value.find? k).isSome then gone else st

/-- The value held, and the history of every name. -/
structure History where
  held : LogDefineSet
  status : String → Status

namespace History

/-- A value that equals the one held changes nothing. -/
def add (h : History) (value : LogDefineSet) : History :=
  if h.held == value then h else ⟨value, fun k => (h.status k).next h.held value k⟩

def start : History := ⟨.empty, fun _ => .never⟩

end History

def history (values : List LogDefineSet) : History := values.foldl History.add .start

/-! ### The system follows the history -/

/-- Variable and loggers are as the history says. -/
structure Follows (c : System) (h : History) : Prop where
  listens : c.logDefines.cbs.elems = [(1, listener)]
  held : c.logDefines.val = h.held
  loggers : ∀ k, c.manager.logger k = (h.status k).logger k

/-- What the listener does to any logger. -/
theorem onChange_next {old_value new_value : LogDefineSet} {m : LoggerManager} {k : String}
    {st : Status} (h : m.logger k = st.logger k) :
    (onChange old_value new_value m).logger k = (st.next old_value new_value k).logger k := by
  have hbuilt : ∀ d : LogDefine, (st.logger k).performAll d.ops = (Status.built d).logger k := by
    intro d
    rw [LogDefine.performAll_ops]
    cases st <;> rfl
  unfold Status.next
  cases hnew : new_value.find? k with
  | some d =>
    obtain ⟨hd, rfl⟩ := SortedBy.find?_eq_some.mp hnew
    rw [onChange_logger hd, h]
    unfold reconfigured
    cases old_value.find? d.name with
    | none => exact hbuilt d
    | some it =>
      dsimp only
      split
      · rfl
      · exact hbuilt d
  | none =>
    have hfirst : ∀ d ∈ new_value.elems, k = d.name →
        reconfigured old_value d (m.logger k) = m.logger k := by
      intro d hd hname
      exact absurd hname.symm (SortedBy.find?_eq_none.mp hnew d hd)
    cases hold : old_value.find? k with
    | none =>
      rw [onChange_kept (fun d hd hname => SortedBy.find?_eq_none.mp hold d hd hname.symm)
        fun d hd hname => SortedBy.find?_eq_none.mp hnew d hd hname.symm]
      exact h
    | some it =>
      obtain ⟨hit, rfl⟩ := SortedBy.find?_eq_some.mp hold
      rw [onChange, Local.get_foldl_single (remove_updates new_value) (distinct_names old_value) hit
        trivial, Local.get_foldl_kept (reconfigure_updates old_value) trivial hfirst, h]
      simp only [removed, hnew, Option.isNone_none, ↓reduceIte]
      cases st <;> rfl

theorem step_follows {c : System} {h : History} (hc : Follows c h) (value : LogDefineSet) :
    ∃ c', machine.step c value = some c' ∧ Follows c' (h.add value) := by
  rw [step_eq hc.listens, hc.held]
  unfold History.add
  split
  · exact ⟨c, rfl, hc⟩
  · exact ⟨_, rfl, hc.listens, rfl, fun k => onChange_next (hc.loggers k)⟩

/-- Every run follows the history of its values. -/
theorem run_follows (values : List LogDefineSet) :
    ∃ c, machine.run ⟨g_log_defines, .new⟩ values = some c ∧ Follows c (history values) := by
  have hfrom : ∀ {c h}, Follows c h →
      ∃ c', machine.run c values = some c' ∧ Follows c' (values.foldl History.add h) := by
    induction values with
    | nil => exact fun hc => ⟨_, rfl, hc⟩
    | cons value rest ih =>
      intro c h hc
      obtain ⟨c₁, hstep, hc₁⟩ := step_follows hc value
      obtain ⟨c', hrun, hc'⟩ := ih hc₁
      exact ⟨c', machine.run_cons.mpr ⟨c₁, hstep, hrun⟩, hc'⟩
  exact hfrom ⟨rfl, rfl, fun _ => rfl⟩

/-! ### What a history tells -/

/-- The last configuration. -/
def current (values : List LogDefineSet) : LogDefineSet := values.getLast?.getD .empty

/-- Values that equal each other define the same names. -/
theorem same_names {s t : LogDefineSet} (h : (s == t) = true) (k : String) :
    (s.find? k).isSome = (t.find? k).isSome := by
  have hnames : ∀ {l l' : List LogDefine}, (l == l') = true →
      l.map LogDefine.name = l'.map LogDefine.name := by
    intro l
    induction l with
    | nil =>
      intro l' hl
      cases l' with
      | nil => rfl
      | cons d rest => cases hl
    | cons d rest ih =>
      intro l' hl
      cases l' with
      | nil => cases hl
      | cons d' rest' =>
        obtain ⟨hd, hrest⟩ : (d == d') = true ∧ (rest == rest') = true := by simpa using hl
        rw [List.map_cons, List.map_cons, ih hrest, ((LogDefine.beq_iff d d').mp hd).1]
  have hsome : ∀ u : LogDefineSet, (u.find? k).isSome = true ↔ k ∈ u.elems.map LogDefine.name := by
    intro u
    simp [SortedBy.find?, List.find?_isSome]
  exact Bool.eq_iff_iff.mpr (by rw [hsome, hsome, hnames h])

/-- A name is in the value held as in the last configuration, and its history tells whether it is
defined, and whether it ever was. -/
structure Tells (h : History) (values : List LogDefineSet) : Prop where
  names : ∀ k, (h.held.find? k).isSome = ((current values).find? k).isSome
  never : ∀ k, h.status k = .never ↔ ∀ v ∈ values, v.find? k = none
  built : ∀ k, (∃ d, h.status k = .built d) ↔ (h.held.find? k).isSome = true

theorem Tells.add {h : History} {values : List LogDefineSet} (ht : Tells h values)
    (value : LogDefineSet) : Tells (h.add value) (values ++ [value]) := by
  have hcurrent : current (values ++ [value]) = value := by simp [current]
  have hboth : ∀ k, (∀ v ∈ values ++ [value], v.find? k = none) ↔
      h.status k = .never ∧ value.find? k = none := by
    intro k
    rw [ht.never]
    simp [or_imp, forall_and]
  unfold History.add
  split
  case isTrue hsame =>
    refine ⟨fun k => by rw [hcurrent]; exact same_names hsame k, fun k => ?_, ht.built⟩
    rw [hboth]
    refine ⟨fun hnever => ⟨hnever, ?_⟩, And.left⟩
    have hnone : (h.held.find? k).isSome = false := by
      by_contra hsome
      obtain ⟨d, hd⟩ := (ht.built k).mpr (Bool.eq_true_of_not_eq_false hsome)
      rw [hnever] at hd
      cases hd
    rw [same_names hsame k] at hnone
    simpa using hnone
  case isFalse =>
    have hnext : ∀ k, ((h.status k).next h.held value k = .never ↔
        h.status k = .never ∧ value.find? k = none) ∧
          ((∃ d, (h.status k).next h.held value k = .built d) ↔ (value.find? k).isSome = true) := by
      intro k
      have hbuilt := ht.built k
      unfold Status.next
      cases hnew : value.find? k with
      | some d =>
        cases hold : h.held.find? k with
        | none => simp
        | some it =>
          obtain ⟨d', hd'⟩ := hbuilt.mpr (by simp [hold])
          dsimp only
          split <;> simp [hd']
      | none =>
        cases hold : h.held.find? k with
        | some it =>
          obtain ⟨d', hd'⟩ := hbuilt.mpr (by simp [hold])
          simp [hd']
        | none =>
          rw [hold] at hbuilt
          simpa using hbuilt
    refine ⟨fun k => by rw [hcurrent], fun k => ?_, fun k => (hnext k).2⟩
    rw [hboth]
    exact (hnext k).1

theorem history_tells (values : List LogDefineSet) : Tells (history values) values := by
  have hfrom : ∀ {h past}, Tells h past → Tells (values.foldl History.add h) (past ++ values) := by
    induction values with
    | nil =>
      intro h past ht
      rwa [List.append_nil]
    | cons value rest ih =>
      intro h past ht
      have hrest := ih (ht.add value)
      rwa [List.append_assoc] at hrest
  have hstart : Tells .start [] :=
    ⟨fun k => rfl, fun k => by simp [History.start], fun k => by simp [History.start]⟩
  exact hfrom hstart

/-! ### Removed names -/

/-- Defined in some configuration, and not in the last one. -/
def Removed (values : List LogDefineSet) (name : String) : Prop :=
  (∃ v ∈ values, (v.find? name).isSome = true) ∧ (current values).find? name = none

/-- Every event logged through a logger whose definition is gone goes where it would go had only
the last configuration been applied. -/
def Restored (values : List LogDefineSet) : Prop :=
  ∃ c c', machine.run ⟨g_log_defines, .new⟩ values = some c ∧
    machine.run ⟨g_log_defines, .new⟩ [current values] = some c' ∧
      ∀ name, Removed values name → ∀ level, level ≠ .unknow →
        c.manager.log name level = c'.manager.log name level

/-- The root logger was never defined, or it is, and what it was last built from sends every event
where its definition in the last configuration does. -/
def RootKept (values : List LogDefineSet) : Prop :=
  match (history values).status "root" with
  | .never => True
  | .gone => False
  | .built d => ∀ d', (current values).find? "root" = some d' → ∀ level, level ≠ .unknow →
      ((Status.built d).logger "root").log level [] = ((Status.built d').logger "root").log level []

theorem removed_gone {values : List LogDefineSet} {name : String} (h : Removed values name) :
    (history values).status name = .gone := by
  have ht := history_tells values
  obtain ⟨⟨v, hv, hsome⟩, hnone⟩ := h
  cases hstatus : (history values).status name with
  | never =>
    rw [(ht.never name).mp hstatus v hv] at hsome
    cases hsome
  | gone => rfl
  | built d =>
    have hheld := (ht.built name).mp ⟨d, hstatus⟩
    rw [ht.names, hnone] at hheld
    cases hheld

theorem history_single (value : LogDefineSet) (k : String) :
    (history [value]).status k =
      match value.find? k with
      | some d => .built d
      | none => .never := by
  show (History.start.add value).status k = _
  unfold History.add
  split
  case isTrue hsame =>
    have hnone := same_names hsame k
    cases hfind : value.find? k with
    | none => rfl
    | some d =>
      rw [hfind] at hnone
      cases hnone
  case isFalse =>
    show (Status.never).next .empty value k = _
    unfold Status.next
    cases value.find? k <;> rfl

theorem rootLog_of_status {m : LoggerManager} {st : Status} (h : m.logger "root" = st.logger "root")
    (level : LogLevel) : m.rootLog level = (st.logger "root").log level [] := by
  rw [LoggerManager.rootLog, h]

/-- An event logged through a logger without a definition goes where root sends it. -/
theorem log_undefined {m : LoggerManager} {name : String} {st : Status}
    (h : m.logger name = st.logger name) (hst : st = .gone ∨ st = .never) {level : LogLevel}
    (hlevel : level ≠ .unknow) : m.log name level = m.rootLog level := by
  unfold LoggerManager.log
  by_cases hname : name = "root"
  · -- root has no root to fall back to
    have hroot : (m.logger "root").root = false := by
      rw [← hname, h, hname]
      rcases hst with rfl | rfl <;> rfl
    rw [hname, LoggerManager.rootLog, Logger.log, Logger.log, hroot]
    rfl
  · have hnew : LoggerManager.new.logger name = {Logger.new name with root := true} :=
      LoggerManager.logger_of_none (LoggerManager.find?_new hname)
    rcases hst with rfl | rfl
    · rw [h, Status.logger, hnew]
      exact Logger.log_nil (LogLevel.unknow_admits level) rfl _
    · rw [h, Status.logger, hnew]
      exact Logger.log_nil (LogLevel.debug_admits hlevel) rfl _

/-- Behind a run, and behind its last configuration alone, root sends events to the same places if
and only if it was kept. -/
theorem rootLog_iff {values : List LogDefineSet} {m m' : LoggerManager}
    (h : ∀ k, m.logger k = ((history values).status k).logger k)
    (hlast : ∀ k, m'.logger k = ((history [current values]).status k).logger k) :
    (∀ level, level ≠ .unknow → m.rootLog level = m'.rootLog level) ↔ RootKept values := by
  have ht := history_tells values
  have hroot := fun level => rootLog_of_status (h "root") level
  have hroot' := fun level => rootLog_of_status (hlast "root") level
  rw [history_single] at hroot'
  unfold RootKept
  have hnames := ht.names "root"
  have hbuilt := ht.built "root"
  rw [hnames] at hbuilt
  cases hstatus : (history values).status "root" with
  | never =>
    rw [hstatus] at hroot hbuilt
    have hnone : (current values).find? "root" = none := by simpa using hbuilt
    rw [hnone] at hroot'
    exact iff_of_true (fun level _ => (hroot level).trans (hroot' level).symm) trivial
  | gone =>
    rw [hstatus] at hroot hbuilt
    have hnone : (current values).find? "root" = none := by simpa using hbuilt
    rw [hnone] at hroot'
    refine iff_of_false (fun hall => ?_) not_false
    have hdebug := hall .debug (by decide)
    rw [hroot, hroot'] at hdebug
    exact absurd (congrArg List.length hdebug) (by decide)
  | built d =>
    rw [hstatus] at hroot hbuilt
    obtain ⟨d', hd'⟩ := Option.isSome_iff_exists.mp (hbuilt.mp ⟨d, rfl⟩)
    rw [hd'] at hroot'
    dsimp only
    constructor
    · intro hall e he level hlevel
      rw [hd'] at he
      cases he
      rw [← hroot, ← hroot']
      exact hall level hlevel
    · intro hall level hlevel
      rw [hroot, hroot']
      exact hall d' hd' level hlevel

/-- After any run of configurations, every name that is no longer defined is routed as if it never
had been, if and only if no name is gone or the root logger was kept. -/
theorem restored_iff (values : List LogDefineSet) :
    Restored values ↔ ((∃ name, Removed values name) → RootKept values) := by
  obtain ⟨c, hrun, hc⟩ := run_follows values
  obtain ⟨c', hrun', hc'⟩ := run_follows [current values]
  have hkept := rootLog_iff hc.loggers hc'.loggers
  have hundefined : ∀ name, Removed values name → ∀ level, level ≠ .unknow →
      c.manager.log name level = c.manager.rootLog level ∧
        c'.manager.log name level = c'.manager.rootLog level := by
    intro name hname level hlevel
    have hnever : (history [current values]).status name = .never := by
      rw [history_single, hname.2]
    exact ⟨log_undefined (hc.loggers name) (.inl (removed_gone hname)) hlevel,
      log_undefined (hc'.loggers name) (.inr hnever) hlevel⟩
  rw [← hkept]
  constructor
  · intro ⟨d, d', hd, hd', hall⟩ ⟨name, hname⟩ level hlevel
    cases hrun.symm.trans hd
    cases hrun'.symm.trans hd'
    obtain ⟨hlog, hlog'⟩ := hundefined name hname level hlevel
    rw [← hlog, ← hlog']
    exact hall name hname level hlevel
  · intro hroot
    refine ⟨c, c', hrun, hrun', fun name hname level hlevel => ?_⟩
    obtain ⟨hlog, hlog'⟩ := hundefined name hname level hlevel
    rw [hlog, hlog']
    exact hroot ⟨name, hname⟩ level hlevel

/-- The root logger in a file. -/
def rootInFile : LogDefineSet := SortedBy.ofList [⟨"root", .info, "", [⟨1, .debug, "", "root.log"⟩]⟩]

/-- With its definition taken away again, root writes nothing at all. -/
theorem root_silent : ¬ Restored [rootInFile, .empty] := by
  intro ⟨c, c', hc, hc', hall⟩
  cases hc
  cases hc'
  have hremoved : Removed [rootInFile, .empty] "root" :=
    ⟨⟨rootInFile, List.mem_cons_self .., rfl⟩, rfl⟩
  have hdebug := hall "root" hremoved .debug (by decide)
  exact absurd (congrArg List.length hdebug) (by decide)

end SimpleHttpServer.LogIniter
