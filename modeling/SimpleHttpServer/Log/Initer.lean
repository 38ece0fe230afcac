import SimpleHttpServer.Config.ConfigVar
import SimpleHttpServer.Lib.Local
import SimpleHttpServer.Lib.Machine
import SimpleHttpServer.Log.Define

/-! The variable `logs` and the listener that configures the loggers (`LogIniter`).

A value of the variable is a set of definitions, one to a name. When it changes,
the listener rebuilds the logger of every definition that is new or has changed,
and empties those whose definitions are gone. Whether loggers and variable agree
after a change hangs on `operator==`: once where `setValue` compares the whole
values, once where the listener compares the two definitions of a name. -/
namespace SimpleHttpServer

/-- `std::set<LogDefine>`, ordered by name. -/
abbrev LogDefineSet := SortedBy LogDefine.name

namespace LogIniter

/-- The body of the first loop: a definition that equals the old one of its name is passed over. -/
def reconfigure (old_value : LogDefineSet) (m : LoggerManager) (i : LogDefine) : LoggerManager :=
  match old_value.find? i.name with
  | some it => if i == it then m else m.configure i.name i.ops
  | none => m.configure i.name i.ops

/-- The body of the second loop. -/
def remove (new_value : LogDefineSet) (m : LoggerManager) (i : LogDefine) : LoggerManager :=
  if (new_value.find? i.name).isNone then
    m.configure i.name [.setLevel .unknow, .clearAppenders]
  else m

/-- The listener. -/
def onChange (old_value new_value : LogDefineSet) (m : LoggerManager) : LoggerManager :=
  old_value.elems.foldl (remove new_value) (new_value.elems.foldl (reconfigure old_value) m)

/-- The listener throws nothing. -/
def listener : Listener LoggerManager LogDefineSet := fun old_value new_value m =>
  (.ok (), onChange old_value new_value m)

/-- `g_log_defines`, behind the constructor of `LogIniter`. -/
def g_log_defines : ConfigVar LoggerManager LogDefineSet :=
  ⟨.empty, SortedBy.empty.insert (1, listener)⟩

/-- The variable `logs` and the loggers. -/
structure System where
  logDefines : ConfigVar LoggerManager LogDefineSet
  manager : LoggerManager

/-- One `g_log_defines->setValue`. -/
def step (c : System) (value : LogDefineSet) : Option System :=
  match c.logDefines.setValue value c.manager with
  | (.ok var, manager) => some ⟨var, manager⟩
  | (.error _, _) => none

def machine : Machine System LogDefineSet := ⟨step⟩

/-! ### What a change does to one logger -/

/-- The first loop as the logger of `i` sees it. -/
def reconfigured (old_value : LogDefineSet) (i : LogDefine) (g : Logger) : Logger :=
  match old_value.find? i.name with
  | some it => if i == it then g else g.performAll i.ops
  | none => g.performAll i.ops

/-- The second loop as the logger of `i` sees it. -/
def removed (new_value : LogDefineSet) (i : LogDefine) (g : Logger) : Logger :=
  if (new_value.find? i.name).isNone then g.performAll [.setLevel .unknow, .clearAppenders] else g

theorem reconfigure_updates (old_value : LogDefineSet) :
    Local.Updates (fun _ => True) LoggerManager.logger (reconfigure old_value) LogDefine.name
      (reconfigured old_value) := by
  refine ⟨fun _ _ _ => trivial, ?_⟩
  intro m i k _
  unfold reconfigure reconfigured
  cases old_value.find? i.name with
  | none => rw [LoggerManager.logger_configure]; split <;> simp_all
  | some it =>
    dsimp only
    split
    · split <;> rfl
    · rw [LoggerManager.logger_configure]; split <;> simp_all

theorem remove_updates (new_value : LogDefineSet) :
    Local.Updates (fun _ => True) LoggerManager.logger (remove new_value) LogDefine.name
      (removed new_value) := by
  refine ⟨fun _ _ _ => trivial, ?_⟩
  intro m i k _
  unfold remove removed
  split
  · rw [LoggerManager.logger_configure]; split <;> simp_all
  · split <;> rfl

theorem distinct_names (s : LogDefineSet) : s.elems.Pairwise (LogDefine.name · ≠ LogDefine.name ·) :=
  s.sorted.imp ne_of_lt

/-- Behind the listener, the logger of a definition is as the first loop leaves it. -/
theorem onChange_logger {old_value new_value : LogDefineSet} {d : LogDefine}
    (hd : d ∈ new_value.elems) (m : LoggerManager) :
    (onChange old_value new_value m).logger d.name =
      reconfigured old_value d (m.logger d.name) := by
  rw [onChange, Local.get_foldl_kept (remove_updates new_value) trivial,
    Local.get_foldl_single (reconfigure_updates old_value) (distinct_names new_value) hd trivial]
  -- the second loop leaves the name of a definition that is in force
  intro e _ hname
  simp [removed, ← hname, SortedBy.find?_key hd]

/-- A logger that neither value defines is left alone. -/
theorem onChange_kept {old_value new_value : LogDefineSet} {k : String}
    (hold : ∀ d ∈ old_value.elems, k ≠ d.name) (hnew : ∀ d ∈ new_value.elems, k ≠ d.name)
    (m : LoggerManager) : (onChange old_value new_value m).logger k = m.logger k := by
  rw [onChange, Local.get_foldl_kept (remove_updates new_value) trivial,
    Local.get_foldl_kept (reconfigure_updates old_value) trivial]
  · intro d hd hname
    exact absurd hname (hnew d hd)
  · intro d hd hname
    exact absurd hname (hold d hd)

/-! ### Agreement -/

/-- The logger of a definition has its level and the appenders it asks for. -/
def Configured (m : LoggerManager) (d : LogDefine) : Prop :=
  (m.logger d.name).level = d.level ∧
    (m.logger d.name).appenders.map LogAppender.shown = d.wanted

/-- The variable holds `value`, and every logger defined there is configured. -/
def Agrees (c : System) (value : LogDefineSet) : Prop :=
  c.logDefines.val = value ∧ ∀ d ∈ value.elems, Configured c.manager d

/-- Whether the two comparisons see what changes: a value that equals the one held is the
one held, and otherwise a definition that equals the old one of its name asks for the same
appenders. -/
def Seen (c : System) (value : LogDefineSet) : Prop :=
  if c.logDefines.val == value then c.logDefines.val = value
  else ∀ d ∈ value.elems, ∀ it ∈ c.logDefines.val.elems, (d == it) = true → d.wanted = it.wanted

/-- This `setValue` returns, and variable and loggers then agree on `value`. -/
def AgreesAfter (c : System) (value : LogDefineSet) : Prop :=
  ∃ c', machine.step c value = some c' ∧ Agrees c' value

/-- What every `setValue` finds: the one listener, and loggers that agree with the value held. -/
structure Ready (c : System) : Prop where
  listens : c.logDefines.cbs.elems = [(1, listener)]
  agrees : Agrees c c.logDefines.val

/-- A `setValue` either finds the value held already, or stores it and reconfigures. -/
theorem step_eq {c : System} (h : c.logDefines.cbs.elems = [(1, listener)]) (value : LogDefineSet) :
    machine.step c value =
      if c.logDefines.val == value then some c
      else some ⟨{c.logDefines with val := value}, onChange c.logDefines.val value c.manager⟩ := by
  show step c value = _
  by_cases hsame : (c.logDefines.val == value) = true
  · simp [step, ConfigVar.setValue, hsame]
  · simp [step, ConfigVar.setValue, hsame, h, ConfigVar.notify, listener]

/-- A logger that was rebuilt from a definition is configured. -/
theorem configured_of_ops {m : LoggerManager} {d : LogDefine} {g : Logger}
    (h : m.logger d.name = g.performAll d.ops) : Configured m d := by
  unfold Configured LogDefine.wanted
  rw [h, LogDefine.performAll_ops]
  refine ⟨rfl, ?_⟩
  show (d.appenders.filterMap LogAppenderDefine.build).map LogAppender.shown = _
  rw [List.map_filterMap]
  exact congrArg (List.filterMap · d.appenders) (funext LogAppenderDefine.build_shown)

/-- A definition that is passed over is configured if it asks for what the old one asked for. -/
theorem configured_of_kept {m m' : LoggerManager} {d it : LogDefine} (heq : (d == it) = true)
    (hit : Configured m it) (h : m'.logger d.name = m.logger d.name) :
    Configured m' d ↔ d.wanted = it.wanted := by
  obtain ⟨hname, hlevel, _⟩ := (LogDefine.beq_iff d it).mp heq
  obtain ⟨hl, ha⟩ := hit
  unfold Configured
  rw [h, hname, hl, ha, hlevel]
  exact ⟨fun h => h.2.symm, fun h => ⟨rfl, h.symm⟩⟩

theorem agrees_onChange {c : System} (h : Ready c) (value : LogDefineSet) :
    (∀ d ∈ value.elems, Configured (onChange c.logDefines.val value c.manager) d) ↔
      ∀ d ∈ value.elems, ∀ it ∈ c.logDefines.val.elems, (d == it) = true → d.wanted = it.wanted := by
  refine forall₂_congr fun d hd => ?_
  have hlogger : (onChange c.logDefines.val value c.manager).logger d.name =
      reconfigured c.logDefines.val d (c.manager.logger d.name) := onChange_logger hd c.manager
  unfold reconfigured at hlogger
  -- only the old definition of the same name can equal `d`
  have hname : ∀ it, (d == it) = true → it.name = d.name := fun it heq =>
    ((LogDefine.beq_iff d it).mp heq).1.symm
  cases hfind : c.logDefines.val.find? d.name with
  | none =>
    rw [hfind] at hlogger
    refine iff_of_true (configured_of_ops hlogger) fun it hit heq => ?_
    exact absurd (hname it heq) (SortedBy.find?_eq_none.mp hfind it hit)
  | some old =>
    rw [hfind] at hlogger
    obtain ⟨hold, _⟩ := SortedBy.find?_eq_some.mp hfind
    have honly : ∀ it ∈ c.logDefines.val.elems, (d == it) = true → it = old := by
      intro it hit heq
      have := SortedBy.find?_eq_some.mpr ⟨hit, hname it heq⟩
      exact Option.some.inj (this.symm.trans hfind)
    by_cases heq : (d == old) = true
    · simp only [heq, ↓reduceIte] at hlogger
      rw [configured_of_kept heq (h.agrees.2 old hold) hlogger]
      exact ⟨fun hw it hit hit' => honly it hit hit' ▸ hw, fun hall => hall old hold heq⟩
    · simp only [heq] at hlogger
      refine iff_of_true (configured_of_ops hlogger) fun it hit hit' => ?_
      exact absurd (honly it hit hit' ▸ hit') heq

/-- One change: agreement behind it is what the comparisons see. -/
theorem agreesAfter_iff_seen {c : System} (h : Ready c) (value : LogDefineSet) :
    AgreesAfter c value ↔ Seen c value := by
  unfold AgreesAfter Seen
  rw [step_eq h.listens]
  split
  case isTrue =>
    constructor
    · intro ⟨c', hc', hafter⟩
      cases hc'
      exact hafter.1
    · intro heq
      exact ⟨c, rfl, heq ▸ h.agrees⟩
  case isFalse =>
    rw [← agrees_onChange h]
    constructor
    · intro ⟨c', hc', hafter⟩
      cases hc'
      exact hafter.2
    · intro hall
      exact ⟨_, rfl, rfl, hall⟩

theorem ready_step {c c' : System} {value : LogDefineSet} (h : Ready c)
    (hstep : machine.step c value = some c') (hafter : Agrees c' value) : Ready c' := by
  refine ⟨?_, hafter.1 ▸ hafter⟩
  rw [step_eq h.listens] at hstep
  split at hstep
  · cases hstep
    exact h.listens
  · cases hstep
    exact h.listens

theorem agreesAlong_iff {c : System} (h : Ready c) (values : List LogDefineSet) :
    machine.Along AgreesAfter c values ↔ machine.Along Seen c values := by
  induction values generalizing c with
  | nil => exact Iff.rfl
  | cons value rest ih =>
    have hone := agreesAfter_iff_seen h value
    have hready : ∀ c', AgreesAfter c value → machine.step c value = some c' → Ready c' := by
      intro c' ⟨c'', hc'', hafter⟩ hc'
      exact ready_step h hc' (Option.some.inj (hc''.symm.trans hc') ▸ hafter)
    constructor
    · intro ⟨hafter, hrest⟩
      exact ⟨hone.mp hafter, fun c' hc' => (ih (hready c' hafter hc')).mp (hrest c' hc')⟩
    · intro ⟨hseen, hrest⟩
      have hafter := hone.mpr hseen
      exact ⟨hafter, fun c' hc' => (ih (hready c' hafter hc')).mpr (hrest c' hc')⟩

/-- From the empty set and any loggers, every `setValue` of a run leaves the variable and the
loggers in agreement on its value if and only if the comparisons see every change that matters. -/
theorem agrees_iff_seen (manager : LoggerManager) (values : List LogDefineSet) :
    machine.Along AgreesAfter ⟨g_log_defines, manager⟩ values ↔
      machine.Along Seen ⟨g_log_defines, manager⟩ values :=
  agreesAlong_iff ⟨rfl, rfl, by simp [g_log_defines, SortedBy.empty]⟩ values

/-- The logger `system` on the console, and then in a file as well. -/
def onConsole : LogDefineSet := SortedBy.ofList [⟨"system", .info, "", [⟨2, .debug, "", ""⟩]⟩]

def onConsoleAndFile : LogDefineSet :=
  SortedBy.ofList [⟨"system", .info, "", [⟨2, .debug, "", ""⟩, ⟨1, .debug, "", "system.log"⟩]⟩]

/-- The second value is taken for the first one, and the logger gets no file. -/
theorem appenders_unseen :
    ¬ machine.Along AgreesAfter ⟨g_log_defines, .new⟩ [onConsole, onConsoleAndFile] := by
  intro ⟨_, hrest⟩
  obtain ⟨⟨c, hc, hval, _⟩, _⟩ := hrest _ rfl
  have hsame : c.logDefines.val = onConsole := by
    cases hc
    rfl
  rw [hsame] at hval
  exact absurd (congrArg SortedBy.elems hval) (by decide)

end LogIniter
end SimpleHttpServer
