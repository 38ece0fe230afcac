import SimpleHttpServer.Config.ConfigVar
import SimpleHttpServer.Config.Flatten
import SimpleHttpServer.Lib.Local

/-! The registry of configuration variables, and loading it from a tree (`Config`).

Loading goes over the flat names of the tree and hands each variable it meets the
text of the node. What a variable has afterwards is what its own path leads to:
the other nodes, and the variables that refuse their text, have no part in it. -/
namespace SimpleHttpServer

/-- A `ConfigVar<T>` of any type, behind `ConfigVarBase`: its `m_name`, the `operator==` and the
`FromStr` of its type, and the variable. -/
structure ConfigVarBase (ω : Type) where
  name : String
  T : Type
  beq : BEq T
  fromStr : String → Except Exn T
  var : ConfigVar ω T

namespace ConfigVarBase
variable {ω : Type}

/-- The virtual `fromString`. -/
def fromString (v : ConfigVarBase ω) (val : String) (world : ω) : (ConfigVarBase ω × Bool) × ω :=
  match @ConfigVar.fromString ω v.T v.beq v.fromStr v.var val world with
  | ((var, taken), world) => (({v with var := var}, taken), world)

@[simp] theorem fromString_name (v : ConfigVarBase ω) (val : String) (world : ω) :
    (v.fromString val world).1.1.name = v.name := rfl

end ConfigVarBase

/-- `Config::GetDatas()`: the variables by name, with names that `Lookup` accepts. -/
structure Config (ω : Type) where
  datas : SortedBy (ConfigVarBase.name : ConfigVarBase ω → String)
  valid : ∀ v ∈ datas.elems, validName v.name = true

namespace Config
variable {ω : Type}

def empty : Config ω := ⟨.empty, fun _ h => by cases h⟩

/-- What `Lookup` with a default value does to the registry: a name that is taken stays with its
variable, and one with a character that is not allowed is refused. -/
def lookup (c : Config ω) (v : ConfigVarBase ω) : Except Exn (Config ω) :=
  match c.datas.find? v.name with
  | some _ => .ok c
  | none =>
    if h : validName v.name = true then
      .ok ⟨c.datas.insert v, by
        intro w hw
        rcases SortedBy.mem_insertList hw with rfl | hin
        · exact h
        · exact c.valid w hin⟩
    else .error v.name

def lookupBase (c : Config ω) (name : String) : Option (ConfigVarBase ω) := c.datas.find? name

/-- `var->fromString(val)` for the variable of a name. -/
def assign (c : Config ω) (name val : String) (world : ω) : Config ω :=
  ⟨c.datas.modify name (fun v => (v.fromString val world).1.1) fun v => v.fromString_name val world, by
    intro v hv
    obtain ⟨w, hw, rfl⟩ := List.mem_map.mp hv
    split
    · exact c.valid w hw
    · exact c.valid w hw⟩

/-- What `fromString` is given: a scalar's text, or else the text the node is emitted as. -/
def nodeText (Y : YamlCpp) (n : Node) : String := if n.isScalar then n.text else Y.emit n

/-- The body of the loop over the flat names. -/
def load (Y : YamlCpp) (s : Config ω × ω) (i : String × Node) : Config ω × ω :=
  if i.1.isEmpty then s
  else
    let key := i.1.toLower
    match s.1.lookupBase key with
    | none => s
    | some var =>
      (s.1.assign key (nodeText Y i.2) s.2, (var.fromString (nodeText Y i.2) s.2).2)

def loadFromYaml (Y : YamlCpp) (root : Node) (s : Config ω × ω) : Config ω × ω :=
  (listAllMember "" root).foldl (load Y) s

end Config

/-! ### Listeners that do not throw -/

namespace ConfigVar
variable {ω T : Type}

/-- Listeners that return, whatever they are told. -/
def Quiet (v : ConfigVar ω T) : Prop :=
  ∀ cb ∈ v.cbs.elems, ∀ old new world, (cb.2 old new world).1 = .ok ()

theorem notify_quiet {l : List (ℕ × Listener ω T)}
    (h : ∀ cb ∈ l, ∀ old new world, (cb.2 old new world).1 = .ok ()) (old new : T) (world : ω) :
    (notify old new l world).1 = .ok () := by
  induction l generalizing world with
  | nil => rfl
  | cons cb rest ih =>
    have hcb := h cb (List.mem_cons_self ..) old new world
    have hrest := fun world => ih (fun cb' h' => h cb' (List.mem_cons_of_mem cb h')) world
    unfold notify
    split
    case h_1 => exact hrest _
    case h_2 heq =>
      rw [heq] at hcb
      cases hcb

/-- The variable behind a value that is taken: one that equals the value held is not stored. -/
def stored [BEq T] (v : ConfigVar ω T) (val : T) : ConfigVar ω T :=
  {v with val := if v.val == val then v.val else val}

theorem Quiet.setValue [BEq T] {v : ConfigVar ω T} (h : v.Quiet) (val : T) (world : ω) :
    (v.setValue val world).1 = .ok (v.stored val) := by
  have hnotify := notify_quiet h v.val val world
  unfold ConfigVar.setValue stored
  split
  case isTrue => rfl
  case isFalse =>
    split
    case h_1 => rfl
    case h_2 heq =>
      rw [heq] at hnotify
      cases hnotify

theorem Quiet.fromString [BEq T] {v : ConfigVar ω T} (h : v.Quiet)
    (fromStr : String → Except Exn T) (val : String) (world : ω) :
    (v.fromString fromStr val world).1.1 =
      match fromStr val with
      | .ok t => v.stored t
      | .error _ => v := by
  unfold ConfigVar.fromString
  cases fromStr val with
  | error e => rfl
  | ok t =>
    have hset := h.setValue t world
    dsimp only
    split
    case h_1 heq =>
      rw [heq] at hset
      exact Except.ok.inj hset
    case h_2 heq =>
      rw [heq] at hset
      cases hset

end ConfigVar

namespace ConfigVarBase
variable {ω : Type}

/-- The variable behind a text: a text that does not convert changes nothing. -/
def loaded (v : ConfigVarBase ω) (val : String) : ConfigVarBase ω :=
  match v.fromStr val with
  | .ok t => {v with var := @ConfigVar.stored ω v.T v.beq v.var t}
  | .error _ => v

theorem loaded_quiet {v : ConfigVarBase ω} (h : v.var.Quiet) (val : String) :
    (v.loaded val).var.Quiet := by
  unfold loaded
  split
  · exact h
  · exact h

theorem fromString_quiet {v : ConfigVarBase ω} (h : v.var.Quiet) (val : String) (world : ω) :
    (v.fromString val world).1.1 = v.loaded val := by
  have hvar := @ConfigVar.Quiet.fromString ω v.T v.beq v.var h v.fromStr val world
  unfold loaded
  show {v with var := (@ConfigVar.fromString ω v.T v.beq v.fromStr v.var val world).1.1} = _
  rw [hvar]
  cases v.fromStr val with
  | ok t => rfl
  | error e => rfl

end ConfigVarBase

namespace Config
variable {ω : Type}

/-- No listener of any variable throws. -/
def Quiet (c : Config ω) : Prop := ∀ v ∈ c.datas.elems, v.var.Quiet

theorem lookupBase_assign (c : Config ω) (name val k : String) (world : ω) :
    (c.assign name val world).lookupBase k =
      if k = name then (c.lookupBase name).map fun v => (v.fromString val world).1.1
      else c.lookupBase k :=
  @SortedBy.find?_modify _ _ _ _ c.datas name k _ fun v => v.fromString_name val world

theorem assign_quiet {c : Config ω} (h : c.Quiet) (name val : String) (world : ω) :
    (c.assign name val world).Quiet := by
  intro v hv
  obtain ⟨w, hw, rfl⟩ := List.mem_map.mp hv
  by_cases hname : w.name = name
  · rw [if_pos hname]
    show (w.fromString val world).1.1.var.Quiet
    rw [ConfigVarBase.fromString_quiet (h w hw)]
    exact ConfigVarBase.loaded_quiet (h w hw) val
  · rw [if_neg hname]
    exact h w hw

/-- One flat name: its variable takes the text, and the others are left alone. -/
theorem load_updates (Y : YamlCpp) :
    Local.Updates (fun s : Config ω × ω => s.1.Quiet) (fun s k => s.1.lookupBase k) (load Y)
      (fun i => i.1.toLower)
      (fun i v => if i.1.isEmpty then v else v.map (·.loaded (nodeText Y i.2))) := by
  constructor
  · intro s i h
    unfold load
    split
    · exact h
    · dsimp only
      split
      · exact h
      · exact Config.assign_quiet h _ _ _
  · intro s i k h
    unfold load
    cases hempty : i.1.isEmpty with
    | true => simp
    | false =>
      cases hfind : s.1.lookupBase i.1.toLower with
      | none =>
        simp only [Bool.false_eq_true, ↓reduceIte, hfind]
        split
        case isTrue hk => rw [hk, hfind]; rfl
        case isFalse => rfl
      | some v =>
        simp only [Bool.false_eq_true, ↓reduceIte, lookupBase_assign, hfind, Option.map_some]
        split
        case isTrue hk =>
          rw [hk, hfind, ConfigVarBase.fromString_quiet (h v (SortedBy.find?_eq_some.mp hfind).1)]
          rfl
        case isFalse => rfl

/-! ### What is loaded -/

theorem toList_toLower (s : String) : s.toLower.toList = s.toList.map Char.toLower := by
  show (s.map Char.toLower).toList = _
  rw [String.toList_map]

theorem toLower_of_valid {name : String} (h : validName name = true) : name.toLower = name := by
  have hchars : nameChars.all (fun c => c.toLower == c) = true := by decide
  have hall : name.toList.map Char.toLower = name.toList := by
    refine (List.map_congr_left fun c hc => ?_).trans (List.map_id _)
    have hmem : c ∈ nameChars := by simpa using List.all_eq_true.mp h c hc
    exact eq_of_beq (List.all_eq_true.mp hchars c hmem)
  rw [← String.toList_inj, toList_toLower, hall]

/-- The value a tree has for a variable: the node its name leads to, converted. -/
def wanted (Y : YamlCpp) (root : Node) (v : ConfigVarBase ω) : Option v.T :=
  (root.follow (keys v.name)).bind fun n => (v.fromStr (nodeText Y n)).toOption

/-- A variable with this value in the place of its own, unless its own equals it. -/
def held (v : ConfigVarBase ω) : Option v.T → ConfigVarBase ω
  | some t => {v with var := @ConfigVar.stored ω v.T v.beq v.var t}
  | none => v

theorem held_loaded (v : ConfigVarBase ω) (val : String) :
    held v (v.fromStr val).toOption = v.loaded val := by
  unfold held ConfigVarBase.loaded
  cases v.fromStr val <;> rfl

theorem lower_of_mem {root : Node} {i : String × Node} (h : i ∈ listAllMember "" root) :
    i.1.toLower = i.1 := toLower_of_valid (validName_of_mem h)

/-- No two flat names are for the same variable. -/
theorem distinct_keys {root : Node} (h : root.Plain) :
    (listAllMember "" root).Pairwise fun i j => i.1.toLower ≠ j.1.toLower := by
  refine (List.pairwise_map.mp (nodup_listAllMember h)).imp_of_mem fun {i j} hi hj hne => ?_
  rw [lower_of_mem hi, lower_of_mem hj]
  exact hne

/-- A variable whose name leads nowhere meets no text. -/
theorem kept_of_follow {root : Node} (h : root.Plain) {name : String}
    (hvalid : validName name = true) (hnone : root.follow (keys name) = none) {i : String × Node}
    (hi : i ∈ listAllMember "" root) (hkey : name = i.1.toLower) : i.1.isEmpty = true := by
  rw [lower_of_mem hi] at hkey
  by_contra hempty
  have hne : name ≠ "" := by
    intro heq
    exact hempty (by rw [← hkey, heq]; rfl)
  have hfollow : root.follow (keys name) = some i.2 :=
    (mem_listAllMember h hvalid hne).mp (hkey ▸ hi)
  rw [hnone] at hfollow
  cases hfollow

/-- Behind the loading of a plain tree, with listeners that do not throw, every variable holds the
value its own path leads to; it keeps its value if that equals it, if there is no such path, or if
what is there does not convert. -/
theorem loadFromYaml_lookup (Y : YamlCpp) (root : Node) (hroot : root.Plain) (c : Config ω)
    (hquiet : c.Quiet) (world : ω) (name : String) :
    (loadFromYaml Y root (c, world)).1.lookupBase name =
      (c.lookupBase name).map fun v => held v (wanted Y root v) := by
  have hupdates := load_updates (ω := ω) Y
  cases hfind : c.lookupBase name with
  | none =>
    have hkept := Local.get_foldl_kept hupdates (l := listAllMember "" root) (s := (c, world)) hquiet
      (k := name) (fun i _ _ => by simp [hfind])
    exact hkept.trans hfind
  | some v =>
    obtain ⟨hv, rfl⟩ := SortedBy.find?_eq_some.mp hfind
    have hvalid := c.valid v hv
    cases hfollow : root.follow (keys v.name) with
    | none =>
      have hkept := Local.get_foldl_kept hupdates (l := listAllMember "" root) (s := (c, world))
        hquiet (k := v.name) (fun i hi hkey => by simp [kept_of_follow hroot hvalid hfollow hi hkey])
      simpa [loadFromYaml, wanted, hfollow, held, hfind] using hkept
    | some n =>
      have hne : v.name ≠ "" := by
        intro heq
        have hin := hroot.mem_paths.mpr hfollow
        exact (hroot.keys_of_mem hin "" (by rw [heq]; decide)).1 rfl
      have hin : (v.name, n) ∈ listAllMember "" root :=
        (mem_listAllMember hroot hvalid hne).mpr hfollow
      have hone := Local.get_foldl_single hupdates (distinct_keys hroot) hin (s := (c, world)) hquiet
      rw [toLower_of_valid hvalid] at hone
      simpa [loadFromYaml, wanted, hfollow, held_loaded, hfind, hne] using hone

/-- Two variables, the name of one a dotted prefix of the other's. -/
def system : Config Unit :=
  ⟨SortedBy.ofList [⟨"system", List Bool, inferInstance,
      (Lexical.vector Flow.yaml Lexical.bool).fromStr, [true], .empty⟩,
    ⟨"system.debug", Bool, inferInstance, Lexical.bool.fromStr, false, .empty⟩], by decide⟩

def systemTree : Node := .map [(.scalar "system", .map [(.scalar "debug", .scalar "1")])]

theorem systemTree_plain : systemTree.Plain := by
  refine .map _ (by simp [Node.text]) (by simp [Node.text]) (by simp) ?_
  intro p hp
  rw [List.mem_singleton.mp hp]
  refine .map _ (by simp [Node.text]) (by simp [Node.text]) (by simp) ?_
  intro p hp
  rw [List.mem_singleton.mp hp]
  exact .scalar "1"

/-- Variables nobody listens to. -/
theorem quiet_of_isEmpty {c : Config ω}
    (h : ∀ v ∈ c.datas.elems, v.var.cbs.elems.isEmpty = true) : c.Quiet := by
  intro v hv cb hcb
  rw [List.isEmpty_iff.mp (h v hv)] at hcb
  cases hcb

theorem system_loaded :
    (loadFromYaml Flow.yaml systemTree (system, ())).1.lookupBase "system.debug" =
      (system.lookupBase "system.debug").map fun v => held v (wanted Flow.yaml systemTree v) :=
  loadFromYaml_lookup Flow.yaml systemTree systemTree_plain system
    (quiet_of_isEmpty (by decide)) () "system.debug"

/-- The two zeros of a floating point type, which `==` does not tell apart. -/
inductive Zero
  | positive
  | negative

instance : BEq Zero := ⟨fun _ _ => true⟩

def Zero.fromStr (s : String) : Except Exn Zero :=
  if s = "0" then .ok .positive else if s = "-0" then .ok .negative else .error "bad lexical cast"

def offset : ConfigVarBase Unit :=
  ⟨"offset", Zero, inferInstance, Zero.fromStr, .positive, .empty⟩

def offsetTree : Node := .map [(.scalar "offset", .scalar "-0")]

def offsets : Config Unit := ⟨SortedBy.empty.insert offset, by decide⟩

/-- The variable keeps a value that only equals the one its path leads to. -/
theorem offset_kept :
    offsetTree.Plain ∧ offsets.Quiet ∧ offsetTree.follow (keys offset.name) = some (.scalar "-0") ∧
      offset.fromStr "-0" = .ok Zero.negative ∧ offset.var.val = Zero.positive ∧
      (loadFromYaml Flow.yaml offsetTree (offsets, ())).1.lookupBase offset.name = some offset := by
  have hplain : offsetTree.Plain := by
    refine .map _ (by simp [Node.text]) (by simp [Node.text]) (by simp) ?_
    intro p hp
    rw [List.mem_singleton.mp hp]
    exact .scalar "-0"
  refine ⟨hplain, quiet_of_isEmpty (by decide), rfl, rfl, rfl, ?_⟩
  have hnames : listAllMember "" offsetTree = [("", offsetTree), ("offset", .scalar "-0")] := rfl
  have hlower : "offset".toLower = "offset" := toLower_of_valid (by decide)
  rw [loadFromYaml, hnames]
  simp only [List.foldl_cons, List.foldl_nil, load, hlower]
  rfl

end Config
end SimpleHttpServer
