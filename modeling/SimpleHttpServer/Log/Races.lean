import SimpleHttpServer.Lib.Races
import SimpleHttpServer.Log.LockOrder

/-! The shared data of configuration and logging, and the locks that guard them.

The programs are those of `LockOrder` (`program_erased`) with the accesses to the members
of variables, loggers and appenders put in. What is never written once its object is made
(names, types, file names, the manager's root) is left out, and so are the writes of a
constructor.

Five kinds of data are only ever accessed under their lock. The others are not, and each of
them has a race between two public operations (`raced_iff`): `getValue`, `getAppendersSize`
and the tests at the head of `Logger::log` and of an appender's `log` read without the lock,
`FileLogAppender::log` keeps its time without one, and the counter of the listeners' ids is
shared by variables that each have their own lock. -/
namespace SimpleHttpServer.Races
open Locks LockOrder

/-- The data that public operations share. -/
inductive Datum (α : Type)
  /-- `Config::GetDatas()`. -/
  | datas
  /-- `ConfigVar::m_val`. -/
  | value (v : α)
  /-- `ConfigVar::m_cbs`. -/
  | listeners (v : α)
  /-- `s_func_id`, for the variables of one type. -/
  | funcId
  /-- `LoggerManager::m_loggers`. -/
  | loggers
  /-- `Logger::m_level`. -/
  | level (l : α)
  /-- `Logger::m_appenders`. -/
  | appenders (l : α)
  /-- `Logger::m_root`. -/
  | root (l : α)
  /-- `LogAppender::m_level`. -/
  | appenderLevel (a : α)
  /-- `LogAppender::m_formatter`. -/
  | formatter (a : α)
  /-- `FileLogAppender::m_lastTime`. -/
  | lastTime (a : α)
  /-- `FileLogAppender::m_filestream`. -/
  | filestream (a : α)
  deriving DecidableEq, Repr

/-- The lock under which every operation accesses the datum, if there is one. -/
def Datum.guard {α : Type} : Datum α → Option (Lock α)
  | .datas => some .registry
  | .listeners v => some (.variable v)
  | .loggers => some .manager
  | .formatter a | .filestream a => some (.appender a)
  | .value _ | .funcId | .level _ | .appenders _ | .root _ | .appenderLevel _ | .lastTime _ => none

/-- The guards as long as nobody calls `getValue`. -/
def Datum.guardUncopied {α : Type} : Datum α → Option (Lock α)
  | .value v => some (.variable v)
  | x => x.guard

abbrev Code (α : Type) := Prog (Spot (Lock α) (Datum α)) α

section
variable {α : Type}

def read (x : Datum α) : Code α := access x .read
def write (x : Datum α) : Code α := access x .write

/-- A scoped lock around `body`. -/
def under (l : Lock α) (m : Mode) (body : Code α) : Code α := .hold (.lock l) m body

/-! ### Appenders -/

def LogAppender.setFormatter (a : α) : Code α := under (.appender a) .write (write (.formatter a))
def LogAppender.getFormatter (a : α) : Code α := under (.appender a) .write (read (.formatter a))
def LogAppender.setLevel (a : α) : Code α := under (.appender a) .write (write (.appenderLevel a))
def LogAppender.getLevel (a : α) : Code α := under (.appender a) .write (read (.appenderLevel a))

/-- The level is tested without the lock. -/
def StdoutLogAppender.log (a : α) : Code α :=
  .seq (read (.appenderLevel a)) (.either .skip (under (.appender a) .write (read (.formatter a))))

def StdoutLogAppender.toYamlNode (a : α) : Code α :=
  under (.appender a) .write (.seq (read (.appenderLevel a)) (read (.formatter a)))

def FileLogAppender.reopen (a : α) : Code α :=
  under (.appender a) .write (.seq (read (.filestream a)) (write (.filestream a)))

/-- The level and the time are tested without the lock, and the time is kept without it. -/
def FileLogAppender.log (a : α) : Code α :=
  .seq (read (.appenderLevel a)) <| .either .skip <| .seq (read (.lastTime a)) <|
    .seq (.either .skip (.seq (FileLogAppender.reopen a) (write (.lastTime a))))
      (under (.appender a) .write (.seq (read (.formatter a)) (write (.filestream a))))

def FileLogAppender.toYamlNode (a : α) : Code α :=
  under (.appender a) .write (.seq (read (.appenderLevel a)) (read (.formatter a)))

def LogAppender.log (a : α) : Code α :=
  .either (StdoutLogAppender.log a) (FileLogAppender.log a)

def LogAppender.toYamlNode (a : α) : Code α :=
  .either (StdoutLogAppender.toYamlNode a) (FileLogAppender.toYamlNode a)

/-! ### Loggers -/

def Logger.addAppender (l : α) : Code α := under (.logger l) .write (write (.appenders l))

def Logger.delAppender (l : α) : Code α :=
  under (.logger l) .write (.seq (read (.appenders l)) (.either .skip (write (.appenders l))))

def Logger.setLevel (l : α) : Code α := under (.logger l) .write (write (.level l))
def Logger.getLevel (l : α) : Code α := under (.logger l) .write (read (.level l))
def Logger.setRoot (l : α) : Code α := under (.logger l) .write (write (.root l))
def Logger.clearAppenders (l : α) : Code α := under (.logger l) .write (write (.appenders l))

/-- Without the lock. -/
def Logger.getAppendersSize (l : α) : Code α := read (.appenders l)

/-- The level, `m_appenders.empty()` and `m_root` are read without the lock. -/
def Logger.logOr (l : α) (next : Code α) : Code α :=
  .seq (read (.level l)) <| .either .skip <| .seq (read (.appenders l)) <|
    .either (under (.logger l) .write (.seq (read (.appenders l)) (.loop (.any LogAppender.log))))
      (.seq (read (.root l)) next)

def Logger.log [DecidableEq α] (root l : α) : Code α :=
  Logger.logOr l (if l = root then .skip else Logger.logOr root .skip)

def Logger.toYamlNode (l : α) : Code α :=
  under (.logger l) .write <| .seq (read (.level l)) <| .seq (read (.appenders l)) <|
    .loop (.any LogAppender.toYamlNode)

/-! ### The manager -/

def LoggerManager.getRoot : Code α := under .manager .write .skip

def LoggerManager.getLogger (l : α) : Code α :=
  under .manager .write <| .seq (read .loggers) <|
    .either .skip (.seq (Logger.setRoot l) (write .loggers))

def LoggerManager.toYamlString : Code α :=
  under .manager .write (.seq (read .loggers) (.loop (.any Logger.toYamlNode)))

def logRoot [DecidableEq α] (root : α) (operands : Code α) : Code α :=
  .seq LoggerManager.getRoot <| .seq (Logger.getLevel root) <|
    .either .skip (.seq LoggerManager.getRoot (.seq operands (Logger.log root root)))

/-! ### Variables -/

def ConfigVar.toString [DecidableEq α] (root v : α) : Code α :=
  .attempt (under (.variable v) .read (read (.value v))) (logRoot root .skip)

/-- Without the lock. -/
def ConfigVar.getValue (v : α) : Code α := read (.value v)

def LogIniter.append (l a : α) : Code α :=
  .either .skip <| .seq (.either .skip (FileLogAppender.reopen a)) <| .seq (LogAppender.setLevel a) <|
    .seq (.either .skip (LogAppender.setFormatter a)) (Logger.addAppender l)

def LogIniter.configure (l : α) : Code α :=
  .either .skip <| .seq (LoggerManager.getLogger l) <| .seq (Logger.setLevel l) <|
    .seq (Logger.clearAppenders l) (.loop (.any (LogIniter.append l)))

def LogIniter.remove (l : α) : Code α :=
  .either .skip <| .seq (LoggerManager.getLogger l) <|
    .seq (Logger.setLevel l) (Logger.clearAppenders l)

def LogIniter.onChange [DecidableEq α] (root : α) : Code α :=
  .seq (logRoot root .skip) <|
    .seq (.loop (.any LogIniter.configure)) (.loop (.any LogIniter.remove))

/-- A listener gets the old value by reference. -/
def ConfigVar.setValue [DecidableEq α] (root v : α) : Code α :=
  .either (under (.variable v) .read (read (.value v))) <|
    .seq (under (.variable v) .read <| .seq (read (.value v)) <| .seq (read (.listeners v)) <|
      .loop (.seq (read (.value v)) (LogIniter.onChange root)))
      (under (.variable v) .write (write (.value v)))

def ConfigVar.fromString [DecidableEq α] (root v : α) : Code α :=
  .attempt (ConfigVar.setValue root v) (logRoot root .skip)

/-- `++s_func_id`, the `insert` and the `return` that reads it again. -/
def ConfigVar.addListener (v : α) : Code α :=
  under (.variable v) .write <| .seq (write .funcId) <| .seq (read .funcId) <|
    .seq (write (.listeners v)) (read .funcId)

def ConfigVar.delListener (v : α) : Code α :=
  under (.variable v) .write (write (.listeners v))

def ConfigVar.getListener (v : α) : Code α := under (.variable v) .read (read (.listeners v))

def ConfigVar.clearListener (v : α) : Code α :=
  under (.variable v) .write (write (.listeners v))

/-! ### The registry -/

def Config.lookup [DecidableEq α] (root : α) : Code α :=
  under .registry .write <| .seq (read .datas) <|
    .either (logRoot root .skip) <|
      .either (.any fun v => logRoot root (ConfigVar.toString root v)) <|
      .either (logRoot root .skip) <| .either (logRoot root .skip) <|
        .attempt (.seq (write .datas) (.either .skip (logRoot root .skip))) (logRoot root .skip)

def Config.find : Code α := under .registry .read (read .datas)

def Config.lookupBase : Code α := under .registry .read (read .datas)

def Config.loadFromYaml [DecidableEq α] (root : α) : Code α :=
  .seq (.loop (logRoot root .skip)) <|
    .loop (.seq Config.lookupBase (.either .skip (.any (ConfigVar.fromString root))))

/-- `Config::Visit` with a callback that prints each variable. -/
def Config.visit [DecidableEq α] (root : α) : Code α :=
  under .registry .read (.seq (read .datas) (.loop (.any (ConfigVar.toString root))))

end

/-- The operations of `LockOrder`, and those that take no lock of their own or were left out
there. -/
inductive Call (α : Type)
  | op (o : Op α)
  | visit
  | getValue (v : α)
  | setRoot (l : α)
  | getAppendersSize (l : α)
  deriving DecidableEq, Repr

def codeOf {α : Type} [DecidableEq α] (root : α) : Op α → Code α
  | .lookup => Config.lookup root
  | .find => Config.find
  | .lookupBase => Config.lookupBase
  | .loadFromYaml => Config.loadFromYaml root
  | .toString v => ConfigVar.toString root v
  | .fromString v => ConfigVar.fromString root v
  | .setValue v => ConfigVar.setValue root v
  | .addListener v => ConfigVar.addListener v
  | .delListener v => ConfigVar.delListener v
  | .getListener v => ConfigVar.getListener v
  | .clearListener v => ConfigVar.clearListener v
  | .getLogger l => LoggerManager.getLogger l
  | .getRoot => LoggerManager.getRoot
  | .toYamlString => LoggerManager.toYamlString
  | .log l => Logger.log root l
  | .addAppender l => Logger.addAppender l
  | .delAppender l => Logger.delAppender l
  | .clearAppenders l => Logger.clearAppenders l
  | .setLevel l => Logger.setLevel l
  | .getLevel l => Logger.getLevel l
  | .toYamlNode l => Logger.toYamlNode l
  | .stdoutLog a => StdoutLogAppender.log a
  | .stdoutToYamlNode a => StdoutLogAppender.toYamlNode a
  | .fileLog a => FileLogAppender.log a
  | .fileToYamlNode a => FileLogAppender.toYamlNode a
  | .reopen a => FileLogAppender.reopen a
  | .setFormatter a => LogAppender.setFormatter a
  | .getFormatter a => LogAppender.getFormatter a
  | .setAppenderLevel a => LogAppender.setLevel a
  | .getAppenderLevel a => LogAppender.getLevel a

def code {α : Type} [DecidableEq α] (root : α) : Call α → Code α
  | .op o => codeOf root o
  | .visit => Config.visit root
  | .getValue v => ConfigVar.getValue v
  | .setRoot l => Logger.setRoot l
  | .getAppendersSize l => Logger.getAppendersSize l

/-! ### The lock programs behind them -/

section
variable {α : Type}

theorem under_erased {l : Lock α} {m : Mode} {body : Code α} (h : Erases body .skip) :
    Erases (under l m body) (guarded l m) := h.hold l m

theorem appenderLog_erased (a : α) : Erases (LogAppender.log a) (LockOrder.LogAppender.log a) := by
  have hstdout : Erases (StdoutLogAppender.log a) (LockOrder.StdoutLogAppender.log a) :=
    Erases.front (.either rfl (under_erased rfl)) rfl
  have hfile : Erases (FileLogAppender.log a) (LockOrder.FileLogAppender.log a) := rfl
  exact hstdout.either hfile

theorem logOr_erased (l : α) {next : Code α} {q : LockOrder.Program α} (h : Erases next q) :
    Erases (Logger.logOr l next) (LockOrder.Logger.logOr l q) := by
  have hloop : Erases (.loop (.any LogAppender.log) : Code α)
      (.loop (.any LockOrder.LogAppender.log)) := (Erases.any appenderLog_erased).loop
  have hlocked := (hloop.front (Erases.access (Datum.appenders l) .read)).hold (.logger l) .write
  have hnext := h.front (Erases.access (Datum.root l) .read)
  have hrest := (hlocked.either hnext).front (Erases.access (Datum.appenders l) .read)
  have hskip : Erases (.skip : Code α) .skip := rfl
  exact (hskip.either hrest).front (Erases.access (Datum.level l) .read)

theorem log_erased [DecidableEq α] (root l : α) :
    Erases (Logger.log root l) (LockOrder.Logger.log root l) := by
  apply logOr_erased
  split
  · rfl
  · exact logOr_erased root rfl

theorem logRoot_erased [DecidableEq α] (root : α) {operands : Code α} {q : LockOrder.Program α}
    (h : Erases operands q) : Erases (logRoot root operands) (LockOrder.logRoot root q) := by
  have hroot : Erases (LoggerManager.getRoot : Code α) LockOrder.LoggerManager.getRoot := rfl
  have hlevel : Erases (Logger.getLevel root) (LockOrder.Logger.getLevel root) := rfl
  have hskip : Erases (.skip : Code α) .skip := rfl
  exact hroot.seq (hlevel.seq (hskip.either (hroot.seq (h.seq (log_erased root root)))))

theorem toString_erased [DecidableEq α] (root v : α) :
    Erases (ConfigVar.toString root v) (LockOrder.ConfigVar.toString root v) := by
  have hread : Erases (under (.variable v) .read (read (.value v))) (guarded (.variable v) .read) :=
    rfl
  exact hread.attempt (logRoot_erased root rfl)

theorem onChange_erased [DecidableEq α] (root : α) :
    Erases (LogIniter.onChange root) (LockOrder.LogIniter.onChange root) := by
  have hconfigure : ∀ l : α, Erases (LogIniter.configure l) (LockOrder.LogIniter.configure l) :=
    fun _ => rfl
  have hremove : ∀ l : α, Erases (LogIniter.remove l) (LockOrder.LogIniter.remove l) :=
    fun _ => rfl
  have hline : Erases (logRoot root .skip) (LockOrder.logRoot root .skip) := logRoot_erased root rfl
  exact hline.seq ((Erases.any hconfigure).loop.seq (Erases.any hremove).loop)

theorem setValue_erased [DecidableEq α] (root v : α) :
    Erases (ConfigVar.setValue root v) (LockOrder.ConfigVar.setValue root v) := by
  have hvalue : Erases (read (Datum.value v) : Code α) .skip := rfl
  have hloop := ((onChange_erased root).front hvalue).loop
  have hlisteners : Erases (read (Datum.listeners v) : Code α) .skip := rfl
  have hnotify := ((hloop.front hlisteners).front hvalue).hold (.variable v) .read
  have hwrite : Erases (under (.variable v) .write (write (.value v)))
      (guarded (.variable v) .write) := rfl
  have hread : Erases (under (.variable v) .read (read (.value v))) (guarded (.variable v) .read) :=
    rfl
  exact hread.either (hnotify.seq hwrite)

theorem fromString_erased [DecidableEq α] (root v : α) :
    Erases (ConfigVar.fromString root v) (LockOrder.ConfigVar.fromString root v) :=
  (setValue_erased root v).attempt (logRoot_erased root rfl)

theorem lookup_erased [DecidableEq α] (root : α) :
    Erases (Config.lookup root) (LockOrder.Config.lookup root) := by
  have hline : Erases (logRoot root .skip) (LockOrder.logRoot root .skip) := logRoot_erased root rfl
  have hmismatch := Erases.any fun v => logRoot_erased root (toString_erased root v)
  have hskip : Erases (.skip : Code α) .skip := rfl
  have hinsert := (hskip.either hline).front (Erases.access Datum.datas .write)
  have hrest := hline.either (hmismatch.either (hline.either (hline.either (hinsert.attempt hline))))
  exact (hrest.front (Erases.access Datum.datas .read)).hold .registry .write

theorem loadFromYaml_erased [DecidableEq α] (root : α) :
    Erases (Config.loadFromYaml root) (LockOrder.Config.loadFromYaml root) := by
  have hline : Erases (logRoot root .skip) (LockOrder.logRoot root .skip) := logRoot_erased root rfl
  have hbase : Erases (Config.lookupBase : Code α) LockOrder.Config.lookupBase := rfl
  have hskip : Erases (.skip : Code α) .skip := rfl
  have hset := Erases.any (fromString_erased root)
  exact hline.loop.seq (hbase.seq (hskip.either hset)).loop

/-- Without their accesses the operations are the lock programs. -/
theorem program_erased [DecidableEq α] (root : α) (o : Op α) :
    Erases (codeOf root o) (program root o) := by
  cases o with
  | lookup => exact lookup_erased root
  | loadFromYaml => exact loadFromYaml_erased root
  | toString v => exact toString_erased root v
  | fromString v => exact fromString_erased root v
  | setValue v => exact setValue_erased root v
  | log l => exact log_erased root l
  | _ => rfl

/-! ### The discipline -/

variable {held : List (Lock α × Mode)}

/-- Every lock held is of a kind before this one. -/
def Clear (held : List (Lock α × Mode)) (kind : ℕ) : Prop := ∀ x ∈ held, rank x.1 < kind

theorem Clear.cons {l : Lock α} {m : Mode} {kind : ℕ} (h : Clear held (rank l))
    (hl : rank l < kind) : Clear ((l, m) :: held) kind := by
  intro x hx
  obtain rfl | hx := List.mem_cons.mp hx
  · exact hl
  · exact (h x hx).trans hl

theorem Clear.mono {kind kind' : ℕ} (h : Clear held kind) (hle : kind ≤ kind') :
    Clear held kind' := fun x hx => Nat.lt_of_lt_of_le (h x hx) hle

/-- As long as nobody calls `getValue`. -/
abbrev Keeps (held : List (Lock α × Mode)) (p : Code α) : Prop :=
  Guarded Datum.guardUncopied held p

theorem under_keeps {l : Lock α} {m : Mode} {body : Code α} (h : Clear held (rank l))
    (hbody : Keeps ((l, m) :: held) body) : Keeps held (under l m body) :=
  ⟨fun m' hmem => Nat.lt_irrefl _ (h (l, m') hmem), hbody⟩

/-- A datum that has no guard. -/
theorem free_keeps {x : Datum α} {m : Mode} (h : x.guardUncopied = none) :
    Keeps held (access x m) := by
  constructor
  · intro l hl
    rw [h] at hl
    cases hl
  · trivial

/-- A datum under its guard. -/
theorem own_keeps {x : Datum α} {l : Lock α} {m : Mode} (h : x.guardUncopied = some l) :
    Keeps ((l, .write) :: held) (access x m) := by
  constructor
  · intro l' hl
    rw [h, Option.some.injEq] at hl
    exact .inl (hl ▸ List.mem_cons_self)
  · trivial

theorem own_read_keeps {x : Datum α} {l : Lock α} (h : x.guardUncopied = some l) :
    Keeps ((l, .read) :: held) (read x) := by
  constructor
  · intro l' hl
    rw [h, Option.some.injEq] at hl
    exact .inr ⟨rfl, hl ▸ List.mem_cons_self⟩
  · trivial

theorem reopen_keeps (a : α) (h : Clear held 4) : Keeps held (FileLogAppender.reopen a) :=
  under_keeps h ⟨own_keeps rfl, own_keeps rfl⟩

theorem appenderLog_keeps (a : α) (h : Clear held 4) : Keeps held (LogAppender.log a) := by
  have hlevel : Keeps held (read (.appenderLevel a)) := free_keeps rfl
  have htime : ∀ m, Keeps held (access (.lastTime a) m) := fun _ => free_keeps rfl
  have hstdout : Keeps held (StdoutLogAppender.log a) :=
    ⟨hlevel, trivial, under_keeps h (own_keeps rfl)⟩
  have hfile : Keeps held (FileLogAppender.log a) :=
    ⟨hlevel, trivial, htime .read, ⟨trivial, reopen_keeps a h, htime .write⟩,
      under_keeps h ⟨own_keeps rfl, own_keeps rfl⟩⟩
  exact ⟨hstdout, hfile⟩

theorem appenderNode_keeps (a : α) (h : Clear held 4) : Keeps held (LogAppender.toYamlNode a) := by
  have hnode : Keeps held (under (.appender a) .write
      (.seq (read (.appenderLevel a)) (read (.formatter a)))) :=
    under_keeps h ⟨free_keeps rfl, own_keeps rfl⟩
  exact ⟨hnode, hnode⟩

/-- A lock around an access that needs none. -/
theorem under_free_keeps {l : Lock α} {m m' : Mode} {x : Datum α} (h : Clear held (rank l))
    (hx : x.guardUncopied = none) : Keeps held (under l m (access x m')) :=
  under_keeps h (free_keeps hx)

theorem logOr_keeps (l : α) {next : Code α} (h : Clear held 3) (hnext : Keeps held next) :
    Keeps held (Logger.logOr l next) := by
  have happenders : ∀ held', Keeps held' (read (Datum.appenders l)) := fun _ => free_keeps rfl
  have hlocked : Keeps held (under (.logger l) .write
      (.seq (read (.appenders l)) (.loop (.any LogAppender.log)))) := by
    apply under_keeps h
    exact ⟨happenders _, fun a => appenderLog_keeps a (Clear.cons h (Nat.lt_succ_self _))⟩
  exact ⟨free_keeps rfl, trivial, happenders held, hlocked, free_keeps rfl, hnext⟩

theorem log_keeps [DecidableEq α] (root l : α) (h : Clear held 3) :
    Keeps held (Logger.log root l) := by
  apply logOr_keeps l h
  split
  · trivial
  · exact logOr_keeps root h trivial

theorem loggerNode_keeps (l : α) (h : Clear held 3) : Keeps held (Logger.toYamlNode l) := by
  apply under_keeps h
  exact ⟨free_keeps rfl, free_keeps rfl,
    fun a => appenderNode_keeps a (Clear.cons h (Nat.lt_succ_self _))⟩

theorem getLogger_keeps (l : α) (h : Clear held 2) : Keeps held (LoggerManager.getLogger l) := by
  have hroot : Keeps ((.manager, .write) :: held) (Logger.setRoot l) :=
    under_free_keeps (Clear.cons h (Nat.lt_succ_self _)) rfl
  exact under_keeps h ⟨own_keeps rfl, trivial, hroot, own_keeps rfl⟩

theorem managerString_keeps (h : Clear held 2) :
    Keeps held (LoggerManager.toYamlString : Code α) := by
  apply under_keeps h
  exact ⟨own_keeps rfl, fun l => loggerNode_keeps l (Clear.cons h (Nat.lt_succ_self _))⟩

theorem logRoot_keeps [DecidableEq α] (root : α) {operands : Code α} (h : Clear held 2)
    (hoperands : Keeps held operands) : Keeps held (logRoot root operands) := by
  have hlogger : Clear held 3 := h.mono (by decide)
  have hroot : Keeps held (LoggerManager.getRoot : Code α) := under_keeps h trivial
  exact ⟨hroot, under_free_keeps hlogger rfl, trivial, hroot, hoperands, log_keeps root root hlogger⟩

theorem toString_keeps [DecidableEq α] (root v : α) (h : Clear held 1) :
    Keeps held (ConfigVar.toString root v) :=
  ⟨under_keeps h (own_read_keeps rfl), logRoot_keeps root (h.mono (by decide)) trivial⟩

theorem append_keeps (l a : α) (h : Clear held 2) : Keeps held (LogIniter.append l a) := by
  have hlogger : Clear held 3 := h.mono (by decide)
  have happender : Clear held 4 := h.mono (by decide)
  exact ⟨trivial, ⟨trivial, reopen_keeps a happender⟩, under_free_keeps happender rfl,
    ⟨trivial, under_keeps happender (own_keeps rfl)⟩, under_free_keeps hlogger rfl⟩

theorem onChange_keeps [DecidableEq α] (root : α) (h : Clear held 2) :
    Keeps held (LogIniter.onChange root) := by
  have hlogger : Clear held 3 := h.mono (by decide)
  have hlevel : ∀ l, Keeps held (Logger.setLevel l) := fun _ => under_free_keeps hlogger rfl
  have hclear : ∀ l, Keeps held (Logger.clearAppenders l) := fun _ => under_free_keeps hlogger rfl
  have hconfigure : ∀ l, Keeps held (LogIniter.configure l) := fun l =>
    ⟨trivial, getLogger_keeps l h, hlevel l, hclear l, fun a => append_keeps l a h⟩
  have hremove : ∀ l, Keeps held (LogIniter.remove l) := fun l =>
    ⟨trivial, getLogger_keeps l h, hlevel l, hclear l⟩
  exact ⟨logRoot_keeps root h trivial, hconfigure, hremove⟩

theorem setValue_keeps [DecidableEq α] (root v : α) (h : Clear held 1) :
    Keeps held (ConfigVar.setValue root v) := by
  have hvalue : Keeps ((.variable v, .read) :: held) (read (.value v)) := own_read_keeps rfl
  have hnotify : Keeps held (under (.variable v) .read <| .seq (read (.value v)) <|
      .seq (read (.listeners v)) (.loop (.seq (read (.value v)) (LogIniter.onChange root)))) := by
    apply under_keeps h
    exact ⟨hvalue, own_read_keeps rfl, hvalue,
      onChange_keeps root (Clear.cons h (Nat.lt_succ_self _))⟩
  exact ⟨under_keeps h hvalue, hnotify, under_keeps h (own_keeps rfl)⟩

theorem fromString_keeps [DecidableEq α] (root v : α) (h : Clear held 1) :
    Keeps held (ConfigVar.fromString root v) :=
  ⟨setValue_keeps root v h, logRoot_keeps root (h.mono (by decide)) trivial⟩

theorem addListener_keeps (v : α) (h : Clear held 1) : Keeps held (ConfigVar.addListener v) :=
  under_keeps h ⟨free_keeps rfl, free_keeps rfl, own_keeps rfl, free_keeps rfl⟩

theorem lookup_keeps [DecidableEq α] (root : α) (h : Clear held 0) :
    Keeps held (Config.lookup root) := by
  have hvariable : Clear ((.registry, .write) :: held) 1 := Clear.cons h (Nat.lt_succ_self _)
  have hmanager : Clear ((.registry, .write) :: held) 2 := hvariable.mono (by decide)
  have hline : Keeps ((.registry, .write) :: held) (logRoot root .skip) :=
    logRoot_keeps root hmanager trivial
  apply under_keeps h
  exact ⟨own_keeps rfl, hline, fun v => logRoot_keeps root hmanager (toString_keeps root v hvariable),
    hline, hline, ⟨own_keeps rfl, trivial, hline⟩, hline⟩

theorem loadFromYaml_keeps [DecidableEq α] (root : α) (h : Clear held 0) :
    Keeps held (Config.loadFromYaml root) :=
  ⟨logRoot_keeps root (h.mono (by decide)) trivial, under_keeps h (own_read_keeps rfl), trivial,
    fun v => fromString_keeps root v (h.mono (by decide))⟩

theorem visit_keeps [DecidableEq α] (root : α) (h : Clear held 0) :
    Keeps held (Config.visit root) := by
  apply under_keeps h
  exact ⟨own_read_keeps rfl, fun v => toString_keeps root v (Clear.cons h (Nat.lt_succ_self _))⟩

/-- Every operation but `getValue` accesses each datum with a guard under it, `m_val` included. -/
theorem code_keeps [DecidableEq α] (root : α) (c : Call α) (hc : ∀ v, c ≠ .getValue v) :
    Keeps [] (code root c) := by
  have hnone : ∀ kind, Clear ([] : List (Lock α × Mode)) kind := fun kind x hx => nomatch hx
  cases c with
  | visit => exact visit_keeps root (hnone 0)
  | getValue v => exact absurd rfl (hc v)
  | setRoot l => exact under_free_keeps (hnone 3) rfl
  | getAppendersSize l => exact free_keeps rfl
  | op o =>
    cases o with
    | lookup => exact lookup_keeps root (hnone 0)
    | loadFromYaml => exact loadFromYaml_keeps root (hnone 0)
    | find | lookupBase => exact under_keeps (hnone 0) (own_read_keeps rfl)
    | toString v => exact toString_keeps root v (hnone 1)
    | fromString v => exact fromString_keeps root v (hnone 1)
    | setValue v => exact setValue_keeps root v (hnone 1)
    | addListener v => exact addListener_keeps v (hnone 1)
    | delListener v | clearListener v => exact under_keeps (hnone 1) (own_keeps rfl)
    | getListener v => exact under_keeps (hnone 1) (own_read_keeps rfl)
    | getLogger l => exact getLogger_keeps l (hnone 2)
    | getRoot => exact under_keeps (hnone 2) trivial
    | toYamlString => exact managerString_keeps (hnone 2)
    | log l => exact log_keeps root l (hnone 3)
    | toYamlNode l => exact loggerNode_keeps l (hnone 3)
    | delAppender l =>
      exact under_keeps (hnone 3) ⟨free_keeps rfl, trivial, free_keeps rfl⟩
    | addAppender l | clearAppenders l | setLevel l | getLevel l =>
      exact under_free_keeps (hnone 3) rfl
    | stdoutLog a => exact (appenderLog_keeps a (hnone 4)).1
    | fileLog a => exact (appenderLog_keeps a (hnone 4)).2
    | stdoutToYamlNode a => exact (appenderNode_keeps a (hnone 4)).1
    | fileToYamlNode a => exact (appenderNode_keeps a (hnone 4)).2
    | reopen a => exact reopen_keeps a (hnone 4)
    | setFormatter a | getFormatter a => exact under_keeps (hnone 4) (own_keeps rfl)
    | setAppenderLevel a | getAppenderLevel a => exact under_free_keeps (hnone 4) rfl

theorem guardUncopied_of_guard {x : Datum α} {l : Lock α} (h : x.guard = some l) :
    x.guardUncopied = some l := by
  cases x with
  | value v => cases h
  | _ => exact h

/-- Every operation keeps to the guards. -/
theorem code_guarded [DecidableEq α] (root : α) (c : Call α) :
    Guarded Datum.guard [] (code root c) := by
  by_cases hc : ∃ v, c = .getValue v
  · obtain ⟨v, rfl⟩ := hc
    constructor
    · intro l hl
      cases hl
    · trivial
  · have hkeeps := code_keeps root c fun v hv => hc ⟨v, hv⟩
    exact hkeeps.mono fun x l => guardUncopied_of_guard

end

/-! ### Races -/

section
variable {T α : Type} [DecidableEq T] [DecidableEq α] {root : α} {t u : T}

/-- Some run of the threads leads to a race. -/
def Raced (T : Type) [DecidableEq T] (root : α) (x : Datum α) : Prop :=
  ∃ s, (Locks.machine T (code root)).Reachable .initial s ∧ Race s x

/-- A thread that begins where no thread has done anything. -/
theorem reach_begin (root : α) (t : T) (c : Call α) :
    (Locks.machine T (code root)).Reachable .initial
      (State.initial.goto t [.prog (code root c)]) :=
  reach_start (Machine.Reachable.refl _) rfl c

/-- Another thread that begins then. -/
theorem reach_other {s : State T (Spot (Lock α) (Datum α)) α}
    {k : List (Item (Spot (Lock α) (Datum α)) α)} (hne : t ≠ u)
    (h : (Locks.machine T (code root)).Reachable .initial (s.goto t k)) (hidle : s.cont u = [])
    (c : Call α) :
    (Locks.machine T (code root)).Reachable .initial
      ((s.goto t k).goto u [.prog (code root c)]) :=
  reach_start h ((goto_of_ne hne.symm).trans hidle) c

/-- `setValue` and `getValue`. -/
theorem value_raced (root v : α) (hne : t ≠ u) : Raced T root (.value v) := by
  have hbegun := reach_begin root t (.op (.setValue v))
  have hnotify := reach_hold (reach_seq (reach_second hbegun)) rfl
  have hread := reach_access (reach_seq hnotify) rfl
  have hlisteners := reach_access (reach_seq hread) rfl
  have hbehind := reach_release (reach_done hlisteners) rfl
  have hwrite := reach_hold hbehind rfl
  exact ⟨_, reach_other hne hwrite rfl (.getValue v), race_of_goto hne⟩

/-- `addListener` on two variables. -/
theorem funcId_raced (root : α) {v w : α} (hvw : v ≠ w) (hne : t ≠ u) :
    Raced T root .funcId := by
  have hwrite := reach_seq (reach_hold (reach_begin root t (.op (.addListener v))) rfl)
  have hbegun := reach_other hne hwrite rfl (.op (.addListener w))
  have hlock : (Spot.lock (.variable w) : Spot (Lock α) (Datum α)) ≠ .lock (.variable v) := by
    intro heq
    exact hvw (Lock.variable.inj (Spot.lock.inj heq)).symm
  have hother := reach_seq (reach_hold hbegun (lock_owners_of_ne _ t .write hlock))
  exact ⟨_, hother, race_of_goto (s := (State.initial.lock _ t .write).lock _ u .write) hne⟩

/-- `setLevel` and `log`. -/
theorem level_raced (root l : α) (hne : t ≠ u) : Raced T root (.level l) := by
  have hwrite := reach_hold (reach_begin root t (.op (.setLevel l))) rfl
  exact ⟨_, reach_seq (reach_other hne hwrite rfl (.op (.log l))), race_of_goto hne⟩

/-- `addAppender` and `getAppendersSize`. -/
theorem appenders_raced (root l : α) (hne : t ≠ u) : Raced T root (.appenders l) := by
  have hwrite := reach_hold (reach_begin root t (.op (.addAppender l))) rfl
  exact ⟨_, reach_other hne hwrite rfl (.getAppendersSize l), race_of_goto hne⟩

/-- `setRoot` and `log`, which forwards an event. -/
theorem root_raced (root l : α) (hne : t ≠ u) : Raced T root (.root l) := by
  have hwrite := reach_hold (reach_begin root t (.setRoot l)) rfl
  have hlevel := reach_access (reach_seq (reach_other hne hwrite rfl (.op (.log l)))) rfl
  have happenders := reach_access (reach_seq (reach_second hlevel)) rfl
  exact ⟨_, reach_seq (reach_second happenders), race_of_goto hne⟩

/-- An appender's `setLevel` and `log`. -/
theorem appenderLevel_raced (root a : α) (hne : t ≠ u) : Raced T root (.appenderLevel a) := by
  have hwrite := reach_hold (reach_begin root t (.op (.setAppenderLevel a))) rfl
  exact ⟨_, reach_seq (reach_other hne hwrite rfl (.op (.stdoutLog a))), race_of_goto hne⟩

/-- Two calls of a file appender's `log`, of which one has reopened the file. -/
theorem lastTime_raced (root a : α) (hne : t ≠ u) : Raced T root (.lastTime a) := by
  have hlevel := reach_access (reach_seq (reach_begin root t (.op (.fileLog a)))) rfl
  have htime := reach_access (reach_seq (reach_second hlevel)) rfl
  have hreopen := reach_hold (reach_seq (reach_second (reach_seq htime))) rfl
  have hstream := reach_access (reach_access (reach_seq hreopen) rfl) rfl
  have hwrite := reach_release hstream rfl
  have hother := reach_access (reach_seq (reach_other hne hwrite rfl (.op (.fileLog a)))) rfl
  exact ⟨_, reach_seq (reach_second hother), race_of_goto hne⟩

/-- Two threads at conflicting accesses to one datum, in some run of the public operations: there
are such runs exactly for the data that have no guard. -/
theorem raced_iff (T : Type) [DecidableEq T] [Nontrivial T] [Nontrivial α] (root : α)
    (x : Datum α) : Raced T root x ↔ x.guard = none := by
  constructor
  · intro ⟨s, hs, hrace⟩
    cases hguard : x.guard with
    | none => rfl
    | some l => exact absurd hrace (no_race (reachable_safe (code_guarded root) hs) hguard)
  · intro hguard
    obtain ⟨t, u, hne⟩ := exists_pair_ne T
    cases x with
    | value v => exact value_raced root v hne
    | funcId =>
      obtain ⟨v, w, hvw⟩ := exists_pair_ne α
      exact funcId_raced root hvw hne
    | level l => exact level_raced root l hne
    | appenders l => exact appenders_raced root l hne
    | root l => exact root_raced root l hne
    | appenderLevel a => exact appenderLevel_raced root a hne
    | lastTime a => exact lastTime_raced root a hne
    | datas | listeners v | loggers | formatter a | filestream a => cases hguard

/-- Two threads race for a variable's value, and never for its listeners. -/
theorem raced_iff_value : Raced Bool (0 : ℕ) (.value 1) ∧ ¬ Raced Bool (0 : ℕ) (.listeners 1) := by
  constructor
  · exact (raced_iff Bool 0 (.value 1)).mpr rfl
  · rw [raced_iff Bool 0 (.listeners 1)]
    nofun

/-- The values of variables are raced by nothing but `getValue`. -/
theorem not_raced_uncopied (T : Type) [DecidableEq T] (root : α)
    (s : State T (Spot (Lock α) (Datum α)) α)
    (h : (Locks.machine T fun c : {c : Call α // ∀ v, c ≠ .getValue v} => code root c).Reachable
      .initial s) (v : α) : ¬ Race s (.value v) := by
  have hkeeps : ∀ c : {c : Call α // ∀ v, c ≠ .getValue v}, Keeps [] (code root c) :=
    fun c => code_keeps root c.1 c.2
  exact no_race (reachable_safe hkeeps h) (l := .variable v) rfl

end

end SimpleHttpServer.Races
