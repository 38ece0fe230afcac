import SimpleHttpServer.Lib.Locks

/-! The locks of configuration and logging.

There are five kinds: the registry's, one for each variable, the manager's, one for each
logger and one for each appender. Logging happens under the registry's lock, a
variable's listener changes loggers under the variable's lock, and a dump holds the
manager's lock, a logger's and an appender's at once; but whatever is held, the next lock is
of a later kind (`program_ordered`), so the operations cannot deadlock
(`cannot_deadlock`).

Each program below is one function with everything but its locks left out: what
depends on levels, names, node kinds and the contents of lists is a choice, and each
`catch` is an `attempt`. -/
namespace SimpleHttpServer.LockOrder
open Locks

/-- Variables, loggers and appenders are told apart by what they are called, `α`. -/
inductive Lock (α : Type)
  /-- `Config::GetMutex()`. -/
  | registry
  /-- `ConfigVar::m_mutex`. -/
  | variable (v : α)
  /-- `LoggerManager::m_mutex`. -/
  | manager
  /-- `Logger::m_mutex`. -/
  | logger (l : α)
  /-- `LogAppender::m_mutex`. -/
  | appender (a : α)
  deriving DecidableEq, Repr

abbrev Program (α : Type) := Prog (Lock α) α

section
variable {α : Type}

/-- A lock around nothing that takes another. -/
def guarded (l : Lock α) (m : Mode) : Program α := .hold l m .skip

/-! ### Appenders -/

def LogAppender.setFormatter (a : α) : Program α := guarded (.appender a) .write
def LogAppender.getFormatter (a : α) : Program α := guarded (.appender a) .write
def LogAppender.setLevel (a : α) : Program α := guarded (.appender a) .write
def LogAppender.getLevel (a : α) : Program α := guarded (.appender a) .write

def StdoutLogAppender.log (a : α) : Program α := .either .skip (guarded (.appender a) .write)
def StdoutLogAppender.toYamlNode (a : α) : Program α := guarded (.appender a) .write

def FileLogAppender.reopen (a : α) : Program α := guarded (.appender a) .write

/-- `reopen` takes the lock and leaves it, and then the line is written under it again. -/
def FileLogAppender.log (a : α) : Program α :=
  .either .skip (.seq (.either .skip (FileLogAppender.reopen a)) (guarded (.appender a) .write))

def FileLogAppender.toYamlNode (a : α) : Program α := guarded (.appender a) .write

def LogAppender.log (a : α) : Program α :=
  .either (StdoutLogAppender.log a) (FileLogAppender.log a)

def LogAppender.toYamlNode (a : α) : Program α :=
  .either (StdoutLogAppender.toYamlNode a) (FileLogAppender.toYamlNode a)

/-! ### Loggers -/

def Logger.addAppender (l : α) : Program α := guarded (.logger l) .write
def Logger.delAppender (l : α) : Program α := guarded (.logger l) .write
def Logger.setLevel (l : α) : Program α := guarded (.logger l) .write
def Logger.getLevel (l : α) : Program α := guarded (.logger l) .write
def Logger.setRoot (l : α) : Program α := guarded (.logger l) .write
def Logger.clearAppenders (l : α) : Program α := guarded (.logger l) .write

/-- `Logger::log` with `next` for the call of `m_root`: below the level, with appenders, or
without. -/
def Logger.logOr (l : α) (next : Program α) : Program α :=
  .either .skip (.either (.hold (.logger l) .write (.loop (.any LogAppender.log))) next)

/-- The root has no `m_root`; that of every other logger is the root. -/
def Logger.log [DecidableEq α] (root l : α) : Program α :=
  Logger.logOr l (if l = root then .skip else Logger.logOr root .skip)

def Logger.toYamlNode (l : α) : Program α :=
  .hold (.logger l) .write (.loop (.any LogAppender.toYamlNode))

/-! ### The manager -/

def LoggerManager.getRoot : Program α := guarded .manager .write

/-- The call that returns `l`, which it has made if there was none of the name. -/
def LoggerManager.getLogger (l : α) : Program α :=
  .hold .manager .write (.either .skip (Logger.setRoot l))

def LoggerManager.toYamlString : Program α :=
  .hold .manager .write (.loop (.any Logger.toYamlNode))

/-- `SHS_LOG_LEVEL(SHS_LOG_ROOT(), level) << operands`: the line is logged when the statement
ends, behind the operands. -/
def logRoot [DecidableEq α] (root : α) (operands : Program α) : Program α :=
  .seq LoggerManager.getRoot <| .seq (Logger.getLevel root) <|
    .either .skip (.seq LoggerManager.getRoot (.seq operands (Logger.log root root)))

/-! ### Variables -/

/-- The read lock is gone before the `catch` logs. -/
def ConfigVar.toString [DecidableEq α] (root v : α) : Program α :=
  .attempt (guarded (.variable v) .read) (logRoot root .skip)

/-- One appender of an entry: made, set up and added. -/
def LogIniter.append (l a : α) : Program α :=
  .either .skip <| .seq (.either .skip (FileLogAppender.reopen a)) <| .seq (LogAppender.setLevel a) <|
    .seq (.either .skip (LogAppender.setFormatter a)) (Logger.addAppender l)

/-- One entry of the new value. -/
def LogIniter.configure (l : α) : Program α :=
  .either .skip <| .seq (LoggerManager.getLogger l) <| .seq (Logger.setLevel l) <|
    .seq (Logger.clearAppenders l) (.loop (.any (LogIniter.append l)))

/-- One entry of the old value. -/
def LogIniter.remove (l : α) : Program α :=
  .either .skip <| .seq (LoggerManager.getLogger l) <|
    .seq (Logger.setLevel l) (Logger.clearAppenders l)

/-- The listener of `LogIniter`. -/
def LogIniter.onChange [DecidableEq α] (root : α) : Program α :=
  .seq (logRoot root .skip) <|
    .seq (.loop (.any LogIniter.configure)) (.loop (.any LogIniter.remove))

def ConfigVar.setValue [DecidableEq α] (root v : α) : Program α :=
  .either (guarded (.variable v) .read) <|
    .seq (.hold (.variable v) .read (.loop (LogIniter.onChange root))) (guarded (.variable v) .write)

/-- A conversion or a `setValue` that throws is logged. -/
def ConfigVar.fromString [DecidableEq α] (root v : α) : Program α :=
  .attempt (ConfigVar.setValue root v) (logRoot root .skip)

def ConfigVar.addListener (v : α) : Program α := guarded (.variable v) .write
def ConfigVar.delListener (v : α) : Program α := guarded (.variable v) .write
def ConfigVar.getListener (v : α) : Program α := guarded (.variable v) .read
def ConfigVar.clearListener (v : α) : Program α := guarded (.variable v) .write

/-! ### The registry -/

/-- `Config::Lookup` with a default. -/
def Config.lookup [DecidableEq α] (root : α) : Program α :=
  .hold .registry .write <|
    -- the name is there with this type, or with another; it is invalid, or has no variable yet
    .either (logRoot root .skip) <|
      .either (.any fun v => logRoot root (ConfigVar.toString root v)) <|
      .either (logRoot root .skip) <| .either (logRoot root .skip) <|
        .attempt (.either .skip (logRoot root .skip)) (logRoot root .skip)

/-- `Config::Lookup` by name. -/
def Config.find : Program α := guarded .registry .read

def Config.lookupBase : Program α := guarded .registry .read

def Config.loadFromYaml [DecidableEq α] (root : α) : Program α :=
  .seq (.loop (logRoot root .skip)) <|
    .loop (.seq Config.lookupBase (.either .skip (.any (ConfigVar.fromString root))))

end

/-- The public operations. -/
inductive Op (α : Type)
  | lookup | find | lookupBase | loadFromYaml
  | toString (v : α) | fromString (v : α) | setValue (v : α)
  | addListener (v : α) | delListener (v : α) | getListener (v : α) | clearListener (v : α)
  | getLogger (l : α) | getRoot | toYamlString
  | log (l : α) | addAppender (l : α) | delAppender (l : α) | clearAppenders (l : α)
  | setLevel (l : α) | getLevel (l : α) | toYamlNode (l : α)
  | stdoutLog (a : α) | stdoutToYamlNode (a : α)
  | fileLog (a : α) | fileToYamlNode (a : α) | reopen (a : α)
  | setFormatter (a : α) | getFormatter (a : α)
  | setAppenderLevel (a : α) | getAppenderLevel (a : α)
  deriving DecidableEq, Repr

def program {α : Type} [DecidableEq α] (root : α) : Op α → Program α
  | .lookup => Config.lookup root
  | .find => Config.find
  | .lookupBase => Config.lookupBase
  | .loadFromYaml => Config.loadFromYaml root
  | .toString v => ConfigVar.toString root v
  | .fromString v => ConfigVar.fromString root v
  | .setValue v => ConfigVar.setValue root v
  | .addListener v => ConfigVar.addListener v
  | .delListener v => ConfigVar.delListener v
  | .getListener v => ConfigVar.getListener v
  | .clearListener v => ConfigVar.clearListener v
  | .getLogger l => LoggerManager.getLogger l
  | .getRoot => LoggerManager.getRoot
  | .toYamlString => LoggerManager.toYamlString
  | .log l => Logger.log root l
  | .addAppender l => Logger.addAppender l
  | .delAppender l => Logger.delAppender l
  | .clearAppenders l => Logger.clearAppenders l
  | .setLevel l => Logger.setLevel l
  | .getLevel l => Logger.getLevel l
  | .toYamlNode l => Logger.toYamlNode l
  | .stdoutLog a => StdoutLogAppender.log a
  | .stdoutToYamlNode a => StdoutLogAppender.toYamlNode a
  | .fileLog a => FileLogAppender.log a
  | .fileToYamlNode a => FileLogAppender.toYamlNode a
  | .reopen a => FileLogAppender.reopen a
  | .setFormatter a => LogAppender.setFormatter a
  | .getFormatter a => LogAppender.getFormatter a
  | .setAppenderLevel a => LogAppender.setLevel a
  | .getAppenderLevel a => LogAppender.getLevel a

/-! ### The order -/

section
variable {α : Type}

/-- The kinds in the order in which they are taken. -/
def rank : Lock α → ℕ
  | .registry => 0
  | .variable _ => 1
  | .manager => 2
  | .logger _ => 3
  | .appender _ => 4

/-- Every lock held is of a kind before this one. -/
def Below (held : List (Lock α)) (kind : ℕ) : Prop := ∀ x ∈ held, rank x < kind

theorem Below.cons {held : List (Lock α)} {l : Lock α} {kind : ℕ} (h : Below held (rank l))
    (hl : rank l < kind) : Below (l :: held) kind := by
  intro x hx
  rcases List.mem_cons.mp hx with rfl | hx
  · exact hl
  · exact (h x hx).trans hl

theorem Below.mono {held : List (Lock α)} {kind kind' : ℕ} (h : Below held kind)
    (hle : kind ≤ kind') : Below held kind' :=
  fun x hx => Nat.lt_of_lt_of_le (h x hx) hle

variable {held : List (Lock α)}

theorem guarded_ordered {l : Lock α} {m : Mode} (h : Below held (rank l)) :
    Ordered rank held (guarded l m) := ⟨h, trivial⟩

theorem appenderLog_ordered (a : α) (h : Below held 4) : Ordered rank held (LogAppender.log a) :=
  ⟨⟨trivial, guarded_ordered h⟩, trivial, ⟨trivial, guarded_ordered h⟩, guarded_ordered h⟩

theorem appenderNode_ordered (a : α) (h : Below held 4) :
    Ordered rank held (LogAppender.toYamlNode a) :=
  ⟨guarded_ordered h, guarded_ordered h⟩

theorem logOr_ordered (l : α) {next : Program α} (h : Below held 3)
    (hnext : Ordered rank held next) : Ordered rank held (Logger.logOr l next) := by
  refine ⟨trivial, ⟨h, fun a => appenderLog_ordered a ?_⟩, hnext⟩
  exact Below.cons h (Nat.lt_succ_self _)

theorem log_ordered [DecidableEq α] (root l : α) (h : Below held 3) :
    Ordered rank held (Logger.log root l) := by
  refine logOr_ordered l h ?_
  split
  · exact trivial
  · exact logOr_ordered root h trivial

theorem loggerNode_ordered (l : α) (h : Below held 3) :
    Ordered rank held (Logger.toYamlNode l) :=
  ⟨h, fun a => appenderNode_ordered a (Below.cons h (Nat.lt_succ_self _))⟩

theorem getLogger_ordered (l : α) (h : Below held 2) :
    Ordered rank held (LoggerManager.getLogger l) :=
  ⟨h, trivial, guarded_ordered (Below.cons h (Nat.lt_succ_self _))⟩

theorem managerString_ordered (h : Below held 2) :
    Ordered rank held (LoggerManager.toYamlString : Program α) :=
  ⟨h, fun l => loggerNode_ordered l (Below.cons h (Nat.lt_succ_self _))⟩

/-- A line for the root may be written under the registry's lock and a variable's. -/
theorem logRoot_ordered [DecidableEq α] (root : α) {operands : Program α} (h : Below held 2)
    (hoperands : Ordered rank held operands) : Ordered rank held (logRoot root operands) := by
  have hlogger : Below held 3 := h.mono (by decide)
  exact ⟨guarded_ordered h, guarded_ordered hlogger, trivial, guarded_ordered h, hoperands,
    log_ordered root root hlogger⟩

theorem toString_ordered [DecidableEq α] (root v : α) (h : Below held 1) :
    Ordered rank held (ConfigVar.toString root v) :=
  ⟨guarded_ordered h, logRoot_ordered root (h.mono (by decide)) trivial⟩

theorem append_ordered (l a : α) (h : Below held 2) :
    Ordered rank held (LogIniter.append l a) := by
  have hlogger : Below held 3 := h.mono (by decide)
  have happender : Below held 4 := h.mono (by decide)
  exact ⟨trivial, ⟨trivial, guarded_ordered happender⟩, guarded_ordered happender,
    ⟨trivial, guarded_ordered happender⟩, guarded_ordered hlogger⟩

/-- The listener takes no lock of the kinds it may be called under. -/
theorem onChange_ordered [DecidableEq α] (root : α) (h : Below held 2) :
    Ordered rank held (LogIniter.onChange root) := by
  have hlogger : Below held 3 := h.mono (by decide)
  refine ⟨logRoot_ordered root h trivial, fun l => ?_, fun l => ?_⟩
  · exact ⟨trivial, getLogger_ordered l h, guarded_ordered hlogger, guarded_ordered hlogger,
      fun a => append_ordered l a h⟩
  · exact ⟨trivial, getLogger_ordered l h, guarded_ordered hlogger, guarded_ordered hlogger⟩

theorem setValue_ordered [DecidableEq α] (root v : α) (h : Below held 1) :
    Ordered rank held (ConfigVar.setValue root v) :=
  ⟨guarded_ordered h, ⟨h, onChange_ordered root (Below.cons h (Nat.lt_succ_self _))⟩,
    guarded_ordered h⟩

theorem fromString_ordered [DecidableEq α] (root v : α) (h : Below held 1) :
    Ordered rank held (ConfigVar.fromString root v) :=
  ⟨setValue_ordered root v h, logRoot_ordered root (h.mono (by decide)) trivial⟩

theorem lookup_ordered [DecidableEq α] (root : α) (h : Below held 0) :
    Ordered rank held (Config.lookup root) := by
  have hvariable : Below (.registry :: held) 1 := Below.cons h (Nat.lt_succ_self _)
  have hmanager : Below (.registry :: held) 2 := hvariable.mono (by decide)
  have hline : Ordered rank _ (logRoot root .skip) := logRoot_ordered root hmanager trivial
  exact ⟨h, hline, fun v => logRoot_ordered root hmanager (toString_ordered root v hvariable), hline,
    hline, ⟨trivial, hline⟩, hline⟩

theorem loadFromYaml_ordered [DecidableEq α] (root : α) (h : Below held 0) :
    Ordered rank held (Config.loadFromYaml root) :=
  ⟨logRoot_ordered root (h.mono (by decide)) trivial, guarded_ordered h, trivial,
    fun v => fromString_ordered root v (h.mono (by decide))⟩

/-- Every operation takes its locks kind by kind. -/
theorem program_ordered [DecidableEq α] (root : α) (o : Op α) :
    Ordered rank [] (program root o) := by
  have hnone : ∀ kind, Below ([] : List (Lock α)) kind := fun kind x hx => nomatch hx
  cases o with
  | lookup => exact lookup_ordered root (hnone 0)
  | loadFromYaml => exact loadFromYaml_ordered root (hnone 0)
  | toString v => exact toString_ordered root v (hnone 1)
  | fromString v => exact fromString_ordered root v (hnone 1)
  | setValue v => exact setValue_ordered root v (hnone 1)
  | getLogger l => exact getLogger_ordered l (hnone 2)
  | toYamlString => exact managerString_ordered (hnone 2)
  | log l => exact log_ordered root l (hnone 3)
  | toYamlNode l => exact loggerNode_ordered l (hnone 3)
  | stdoutLog a => exact (appenderLog_ordered a (hnone 4)).1
  | fileLog a => exact (appenderLog_ordered a (hnone 4)).2
  | _ => exact guarded_ordered (hnone _)

/-! ### Deadlock -/

/-- Whatever operations any threads run, in whatever order they take their steps and wherever they
throw: no thread asks for a lock it holds, no threads wait for each other in a cycle, and as long
as one of finitely many threads has something left to do, one of them can move. -/
theorem cannot_deadlock (T : Type) [DecidableEq T] [DecidableEq α] (root : α)
    (s : Locks.State T (Lock α) α)
    (h : (Locks.machine T (program root)).Reachable .initial s) :
    (∀ t l m, Requests s t l m → ¬ Holds s t l) ∧
    (∀ t, ¬ Relation.TransGen (WaitsFor s) t t) ∧
    (Finite T → (∃ t, s.cont t ≠ []) → ∃ t c s', c ≠ .throw ∧ s.advance t c = some s') := by
  have hkept : Kept rank s := reachable_kept (program_ordered root) h
  refine ⟨fun t l m => not_asked_again hkept, no_cycle hkept, fun hfinite hbusy => ?_⟩
  have : Nonempty α := ⟨root⟩
  exact someone_moves hkept hbusy

/-- A dump has the manager's lock, and a lookup of another type waits for it under the registry's. -/
def dumpAndLookup : List (Locks.Action Bool (Op ℕ) ℕ) :=
  [.start false .toYamlString, .step false .first, .start true .lookup, .step true .first,
    .step true .second, .step true .first, .step true (.pick 1), .step true .first]

theorem dumpAndLookup_waits :
    ∃ s, (Locks.machine Bool (program (0 : ℕ))).run .initial dumpAndLookup = some s ∧
      WaitsFor s true false ∧ Holds s true .registry ∧
      (∀ t l m, Requests s t l m → ¬ Holds s t l) ∧
      (∀ t, ¬ Relation.TransGen (WaitsFor s) t t) ∧
      (Finite Bool → (∃ t, s.cont t ≠ []) → ∃ t c s', c ≠ .throw ∧ s.advance t c = some s') := by
  refine ⟨_, rfl, ⟨.manager, .write, ⟨_, _, rfl⟩, .inl ⟨.write, ?_, rfl⟩⟩, ⟨.write, ?_⟩,
    cannot_deadlock Bool 0 _ ⟨dumpAndLookup, rfl⟩⟩
  · exact List.mem_cons_self
  · exact List.mem_cons_self

end

end SimpleHttpServer.LockOrder
