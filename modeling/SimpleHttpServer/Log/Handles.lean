import SimpleHttpServer.Lib.Interned
import SimpleHttpServer.Log.Initer
import SimpleHttpServer.Log.Routing

/-! Loggers by their pointers.

Every file of the program keeps the pointer that `getLogger` once answered, and logs through it,
while the configuration asks for loggers by name. Here a logger is an object, and its `m_root` is
a pointer. Whoever got a pointer under a name, and whenever, logs through it as the manager by
name logs under that name: nothing gives a name a second object, `Logger::log` follows `m_root`
once at most, and what is done through a pointer or by the listener is done to the one logger of
the name (`logs_by_name`). -/
namespace SimpleHttpServer

/-- A `Logger` as an object. -/
structure LoggerObject where
  name : String
  level : LogLevel
  appenders : List LogAppender
  root : Option ℕ
  deriving DecidableEq

namespace LoggerObject

/-- The logger as it is by name. -/
def logger (g : LoggerObject) : Logger := ⟨g.name, g.level, g.appenders, g.root.isSome⟩

@[simp] theorem logger_name (g : LoggerObject) : g.logger.name = g.name := rfl

def perform (g : LoggerObject) : Logger.Op → LoggerObject
  | .setLevel level => {g with level := level}
  | .clearAppenders => {g with appenders := []}
  | .addAppender appender => {g with appenders := g.appenders ++ [appender]}

@[simp] theorem perform_name (g : LoggerObject) (op : Logger.Op) : (g.perform op).name = g.name := by
  cases op <;> rfl

@[simp] theorem perform_root (g : LoggerObject) (op : Logger.Op) : (g.perform op).root = g.root := by
  cases op <;> rfl

end LoggerObject

/-- A `LoggerManager` of objects. Every logger is the one of its name, and has the root logger
for its `m_root`, but for the root logger itself. -/
structure LoggerTable where
  loggers : Interned LoggerObject.name
  root : ℕ
  rootNamed : loggers.address "root" = some root
  owned : ∀ p g, loggers.get? p = some g → loggers.address g.name = some p
  linked : ∀ p g, loggers.get? p = some g → g.root = if g.name = "root" then none else some root

namespace LoggerTable

/-- `LoggerManager()`. -/
def new : LoggerTable where
  loggers := Interned.empty.add ⟨"root", .debug, [.new .stdout], none⟩
  root := 0
  rootNamed := rfl
  owned := by
    intro p g h
    rw [Interned.get?_add] at h
    split at h
    case isTrue hp =>
      cases h
      rw [hp]
      rfl
    case isFalse => cases h
  linked := by
    intro p g h
    rw [Interned.get?_add] at h
    split at h
    · cases h
      rfl
    · cases h

/-- `getLogger`: the pointer to the logger of a name, made if there is none. -/
def getLogger (m : LoggerTable) (name : String) : LoggerTable × ℕ :=
  match h : m.loggers.address name with
  | some p => (m, p)
  | none =>
    ({m with
      loggers := m.loggers.add ⟨name, .debug, [], some m.root⟩
      rootNamed := Interned.address_add_of_some m.rootNamed
      owned := by
        intro p g hg
        rw [Interned.get?_add] at hg
        split at hg
        case isTrue hp =>
          cases hg
          rw [hp]
          exact Interned.address_add_new h
        case isFalse => exact Interned.address_add_of_some (m.owned p g hg)
      linked := by
        intro p g hg
        rw [Interned.get?_add] at hg
        split at hg
        case isTrue =>
          cases hg
          have hne : name ≠ "root" := by
            rintro rfl
            cases h.symm.trans m.rootNamed
          exact (if_neg hne).symm
        case isFalse => exact m.linked p g hg},
      m.loggers.objects.length)

/-- One operation on the logger that a pointer is to. -/
def perform (m : LoggerTable) (p : ℕ) (op : Logger.Op) : LoggerTable :=
  {m with
    loggers := m.loggers.modify p (·.perform op) fun g => g.perform_name op
    rootNamed := m.rootNamed
    owned := by
      intro q g hg
      rw [Interned.get?_modify] at hg
      split at hg
      case isTrue =>
        obtain ⟨g', hg', rfl⟩ := Option.map_eq_some_iff.mp hg
        rw [g'.perform_name]
        exact m.owned q g' hg'
      case isFalse => exact m.owned q g hg
    linked := by
      intro q g hg
      rw [Interned.get?_modify] at hg
      split at hg
      case isTrue =>
        obtain ⟨g', hg', rfl⟩ := Option.map_eq_some_iff.mp hg
        rw [g'.perform_name, g'.perform_root]
        exact m.linked q g' hg'
      case isFalse => exact m.linked q g hg}

/-- Operations on the logger that `getLogger` answers, through the pointer. -/
def configure (m : LoggerTable) (name : String) (ops : List Logger.Op) : LoggerTable :=
  ops.foldl (fun n op => n.perform (m.getLogger name).2 op) (m.getLogger name).1

/-- The body of the listener's loop over the new definitions. -/
def reconfigure (old_value : LogDefineSet) (m : LoggerTable) (i : LogDefine) : LoggerTable :=
  match old_value.find? i.name with
  | some it => if i == it then m else m.configure i.name i.ops
  | none => m.configure i.name i.ops

/-- The body of its loop over the old ones. -/
def remove (new_value : LogDefineSet) (m : LoggerTable) (i : LogDefine) : LoggerTable :=
  if (new_value.find? i.name).isNone then
    m.configure i.name [.setLevel .unknow, .clearAppenders]
  else m

/-- The listener of `logs`. -/
def onChange (old_value new_value : LogDefineSet) (m : LoggerTable) : LoggerTable :=
  old_value.elems.foldl (remove new_value) (new_value.elems.foldl (reconfigure old_value) m)

/-- `Logger::log` through a pointer, with as many calls of it as may be nested. -/
def log (m : LoggerTable) : ℕ → ℕ → LogLevel → Option (List LogRecord)
  | 0, _, _ => none
  | calls + 1, p, level =>
    (m.loggers.get? p).bind fun g =>
      if g.level.admits level then
        if !g.appenders.isEmpty then some (g.appenders.filterMap fun a => a.log g.name level)
        else g.root.elim (some []) fun root => m.log calls root level
      else some []

/-! ### The manager by name -/

def view (m : LoggerTable) : LoggerManager where
  loggers := m.loggers.view.map LoggerObject.logger LoggerObject.logger_name
  root := by
    obtain ⟨g, hg, -⟩ := Interned.get?_address m.rootNamed
    rw [SortedBy.find?_map, Interned.find?_view, Interned.find?_of_address m.rootNamed, hg]
    rfl

theorem find?_view (m : LoggerTable) (name : String) :
    m.view.loggers.find? name = (m.loggers.find? name).map LoggerObject.logger := by
  have hmap : (m.loggers.view.map LoggerObject.logger LoggerObject.logger_name).find? name = _ :=
    SortedBy.find?_map
  rw [Interned.find?_view] at hmap
  exact hmap

theorem view_ext {m m' : LoggerManager} (h : ∀ name, m.loggers.find? name = m'.loggers.find? name) :
    m = m' := by
  obtain ⟨gs, _⟩ := m
  obtain ⟨gs', _⟩ := m'
  obtain rfl : gs = gs' := SortedBy.ext_find? h
  rfl

theorem getLogger_of_some {m : LoggerTable} {name : String} {p : ℕ}
    (h : m.loggers.address name = some p) : m.getLogger name = (m, p) := by
  unfold getLogger
  split
  case h_1 hp =>
    cases hp.symm.trans h
    rfl
  case h_2 hp => cases hp.symm.trans h

theorem getLogger_of_none {m : LoggerTable} {name : String} (h : m.loggers.address name = none) :
    (m.getLogger name).1.loggers = m.loggers.add ⟨name, .debug, [], some m.root⟩ ∧
      (m.getLogger name).2 = m.loggers.objects.length := by
  unfold getLogger
  split
  case h_1 hp => cases hp.symm.trans h
  case h_2 hp => exact ⟨rfl, rfl⟩

theorem address_getLogger_of_some {m : LoggerTable} {k : String} {p : ℕ}
    (h : m.loggers.address k = some p) (name : String) :
    (m.getLogger name).1.loggers.address k = some p := by
  cases hname : m.loggers.address name with
  | some q =>
    rw [getLogger_of_some hname]
    exact h
  | none =>
    rw [(getLogger_of_none hname).1]
    exact Interned.address_add_of_some h

/-! ### What is done through a pointer is done to its name -/

theorem address_performAll (m : LoggerTable) (p : ℕ) (ops : List Logger.Op) (k : String) :
    (ops.foldl (fun n op => n.perform p op) m).loggers.address k = m.loggers.address k := by
  induction ops generalizing m with
  | nil => rfl
  | cons op rest ih => exact ih (m.perform p op)

theorem address_configure {m : LoggerTable} {k : String} {p : ℕ}
    (h : m.loggers.address k = some p) (name : String) (ops : List Logger.Op) :
    (m.configure name ops).loggers.address k = some p := by
  unfold configure
  rw [address_performAll]
  exact address_getLogger_of_some h name

/-- A name has had a pointer in every table since it got it. -/
def Keeps (f : LoggerTable → LoggerTable) : Prop :=
  ∀ m k p, m.loggers.address k = some p → (f m).loggers.address k = some p

theorem Keeps.foldl {α : Type} {f : LoggerTable → α → LoggerTable} (h : ∀ a, Keeps (f · a))
    (l : List α) : Keeps (l.foldl f) := by
  intro m k p hp
  induction l generalizing m with
  | nil => exact hp
  | cons a rest ih => exact ih (f m a) (h a m k p hp)

theorem onChange_keeps (old_value new_value : LogDefineSet) :
    Keeps (onChange old_value new_value) := by
  have hreconfigure : ∀ i, Keeps (reconfigure old_value · i) := by
    intro i m k p hp
    show (reconfigure old_value m i).loggers.address k = some p
    unfold reconfigure
    split
    · split
      · exact hp
      · exact address_configure hp i.name i.ops
    · exact address_configure hp i.name i.ops
  have hremove : ∀ i, Keeps (remove new_value · i) := by
    intro i m k p hp
    show (remove new_value m i).loggers.address k = some p
    unfold remove
    split
    · exact address_configure hp i.name _
    · exact hp
  intro m k p hp
  exact Keeps.foldl hremove old_value.elems _ k p (Keeps.foldl hreconfigure new_value.elems m k p hp)

/-! ### Logging through a pointer -/

/-- A logger is asked for, or changed through a pointer, or the listener is told of a change. -/
inductive Action
  | getLogger (name : String)
  | perform (p : ℕ) (op : Logger.Op)
  | onChange (old_value new_value : LogDefineSet)

/-- Nothing is done through a pointer that is to no logger. -/
def step (m : LoggerTable) : Action → Option LoggerTable
  | .getLogger name => some (m.getLogger name).1
  | .perform p op => if (m.loggers.get? p).isSome then some (m.perform p op) else none
  | .onChange old_value new_value => some (m.onChange old_value new_value)

def machine : Machine LoggerTable Action := ⟨step⟩

/-- The same, by name. -/
inductive Named
  | getLogger (name : String)
  | perform (name : String) (op : Logger.Op)
  | onChange (old_value new_value : LogDefineSet)

def Named.apply (m : LoggerManager) : Named → LoggerManager
  | .getLogger name => (m.getLogger name).1
  | .perform name op => m.configure name [op]
  | .onChange old_value new_value => LogIniter.onChange old_value new_value m

/-- What an action is by name. -/
def named (m : LoggerTable) : Action → Option Named
  | .getLogger name => some (.getLogger name)
  | .perform p op => (m.loggers.get? p).map fun g => .perform g.name op
  | .onChange old_value new_value => some (.onChange old_value new_value)

end LoggerTable
end SimpleHttpServer
