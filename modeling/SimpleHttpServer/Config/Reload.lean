import SimpleHttpServer.Config.Load
import SimpleHttpServer.Config.Notify

/-! Loading the same tree a second time.

A variable that has been handed a text has settled on it: either the text does not
convert, or it stands for a value that equals the one held. Handing a settled
variable its text again returns early, so with one node to a name the second
loading changes nothing and calls nobody. -/
namespace SimpleHttpServer

namespace ConfigVarBase
variable {ω : Type}

/-- The variable with the calls of its listeners noted under its name. -/
def traced (v : ConfigVarBase ω) : ConfigVarBase (ω × List (String × ℕ)) :=
  ⟨v.name, v.T, v.beq, v.fromStr, v.var.traced fun id _ _ _ => (v.name, id)⟩

/-- The `operator==` of the variable's type is reflexive. -/
def Refl (v : ConfigVarBase ω) : Prop := ∀ t : v.T, v.beq.beq t t = true

/-- A text that changes nothing any more: it does not convert, or to the value that is held. -/
def Settled (v : ConfigVarBase ω) (text : String) : Prop :=
  ∀ t, v.fromStr text = .ok t → v.beq.beq v.var.val t = true

theorem loaded_settled {v : ConfigVarBase ω} (h : v.Refl) (text : String) :
    (v.loaded text).Settled text := by
  unfold loaded
  cases htext : v.fromStr text with
  | error e =>
    intro t ht
    rw [htext] at ht
    cases ht
  | ok t =>
    intro t' ht'
    have heq : t' = t := Except.ok.inj (ht'.symm.trans htext)
    rw [heq]
    show v.beq.beq (@ConfigVar.stored ω v.T v.beq v.var t).val t = true
    unfold ConfigVar.stored
    dsimp only
    split
    case isTrue hsame => exact hsame
    case isFalse => exact h t

/-- A settled text comes to nothing: the early return of `setValue`, or the failed conversion. -/
theorem Settled.fromString {v : ConfigVarBase ω} {text : String} (h : v.Settled text) (world : ω) :
    ∃ taken, v.fromString text world = ((v, taken), world) := by
  unfold ConfigVarBase.fromString ConfigVar.fromString
  cases htext : v.fromStr text with
  | error e => exact ⟨false, rfl⟩
  | ok t =>
    refine ⟨true, ?_⟩
    have hsame := h t htext
    unfold ConfigVar.setValue
    simp only [hsame, ↓reduceIte]

theorem traced_quiet {v : ConfigVarBase ω} (h : v.var.Quiet) : v.traced.var.Quiet := by
  intro cb hcb old new s
  obtain ⟨cb', hcb', rfl⟩ := List.mem_map.mp hcb
  exact h cb' hcb' old new s.1

end ConfigVarBase

namespace Config
variable {ω : Type}

/-- Every type in the registry has a reflexive `operator==`. -/
def Refl (c : Config ω) : Prop := ∀ v ∈ c.datas.elems, v.Refl

/-- The registry with the calls of all its listeners noted, in the order they are made. -/
def traced (c : Config ω) : Config (ω × List (String × ℕ)) :=
  ⟨c.datas.map ConfigVarBase.traced fun _ => rfl, by
    intro v hv
    obtain ⟨w, hw, rfl⟩ := List.mem_map.mp hv
    exact c.valid w hw⟩

theorem traced_quiet {c : Config ω} (h : c.Quiet) : c.traced.Quiet := by
  intro v hv
  obtain ⟨w, hw, rfl⟩ := List.mem_map.mp hv
  exact ConfigVarBase.traced_quiet (h w hw)

theorem traced_refl {c : Config ω} (h : c.Refl) : c.traced.Refl := by
  intro v hv
  obtain ⟨w, hw, rfl⟩ := List.mem_map.mp hv
  exact h w hw

/-- A change in place that leaves the element of the key alone. -/
theorem assign_settled {c : Config ω} {v : ConfigVarBase ω} (hv : v ∈ c.datas.elems)
    {text : String} (h : v.Settled text) (world : ω) : c.assign v.name text world = c := by
  have hkept : ∀ w ∈ c.datas.elems,
      (if w.name = v.name then (w.fromString text world).1.1 else w) = w := by
    intro w hw
    split
    case isFalse => rfl
    case isTrue hname =>
      have hsame : w = v := by
        have hfind := SortedBy.find?_key (s := c.datas) hw
        rw [hname, SortedBy.find?_key hv] at hfind
        exact (Option.some.inj hfind).symm
      obtain ⟨taken, hfrom⟩ := h.fromString world
      rw [hsame, hfrom]
  obtain ⟨datas, valid⟩ := c
  simp only [assign, Config.mk.injEq]
  refine SortedBy.ext ?_
  exact (List.map_congr_left hkept).trans (List.map_id _)

/-- A flat name whose variable, if it has one, has settled on the text of its node. -/
def SettledAt (Y : YamlCpp) (c : Config ω) (i : String × Node) : Prop :=
  i.1.isEmpty = false → ∀ v, c.lookupBase i.1.toLower = some v → v.Settled (nodeText Y i.2)

theorem load_settled {Y : YamlCpp} {s : Config ω × ω} {i : String × Node}
    (h : SettledAt Y s.1 i) : load Y s i = s := by
  unfold load
  cases hempty : i.1.isEmpty with
  | true => rfl
  | false =>
    cases hfind : s.1.lookupBase i.1.toLower with
    | none => simp only [Bool.false_eq_true, ↓reduceIte, hfind]
    | some v =>
      obtain ⟨hv, hname⟩ := SortedBy.find?_eq_some.mp hfind
      have hsettled := h hempty v hfind
      obtain ⟨taken, hfrom⟩ := hsettled.fromString s.2
      have hassign := assign_settled hv hsettled s.2
      rw [hname] at hassign
      simp only [Bool.false_eq_true, ↓reduceIte, hfind, hassign, hfrom]

theorem foldl_settled {Y : YamlCpp} {s : Config ω × ω} {l : List (String × Node)}
    (h : ∀ i ∈ l, SettledAt Y s.1 i) : l.foldl (load Y) s = s := by
  induction l with
  | nil => rfl
  | cons i rest ih =>
    obtain ⟨hi, hrest⟩ := List.forall_mem_cons.mp h
    rw [List.foldl_cons, load_settled hi]
    exact ih hrest

/-- Behind a loading, every name with a node of its own has its variable settled. -/
theorem settled_of_loaded {Y : YamlCpp} {root : Node}
    (hnames : ((listAllMember "" root).map Prod.fst).Nodup) {s : Config ω × ω}
    (hquiet : s.1.Quiet) (hrefl : s.1.Refl) :
    ∀ i ∈ listAllMember "" root, SettledAt Y (loadFromYaml Y root s).1 i := by
  have hdistinct : (listAllMember "" root).Pairwise fun i j => i.1.toLower ≠ j.1.toLower := by
    refine (List.pairwise_map.mp hnames).imp_of_mem fun {i j} hi hj hne => ?_
    rw [lower_of_mem hi, lower_of_mem hj]
    exact hne
  intro i hi hempty v hv
  have hone := Local.get_foldl_single (load_updates (ω := ω) Y) hdistinct hi (s := s) hquiet
  have hv' : ((s.1.lookupBase i.1.toLower).map fun w => w.loaded (nodeText Y i.2)) = some v := by
    refine Eq.trans ?_ (hone.symm.trans hv)
    simp only [hempty, Bool.false_eq_true, ↓reduceIte]
  obtain ⟨w, hw, rfl⟩ := Option.map_eq_some_iff.mp hv'
  exact ConfigVarBase.loaded_settled (hrefl w (SortedBy.find?_eq_some.mp hw).1) _

/-- Where the flat names of a tree are distinct, loading it again right away calls no listener and
changes no variable. -/
theorem loadFromYaml_again (Y : YamlCpp) (root : Node)
    (hnames : ((listAllMember "" root).map Prod.fst).Nodup) (c : Config ω) (hquiet : c.Quiet)
    (hrefl : c.Refl) (world : ω) :
    let s := loadFromYaml Y root (c.traced, (world, []))
    loadFromYaml Y root s = s := by
  intro s
  exact foldl_settled (settled_of_loaded hnames (traced_quiet hquiet) (traced_refl hrefl))

/-- A variable for a map and one for a member of it, each with a listener. -/
def switches : ConfigVarBase Unit :=
  ⟨"system", List Bool, inferInstance, (Lexical.vector Flow.yaml Lexical.bool).fromStr, [true],
    SortedBy.ofList [(1, fun _ _ _ => (.ok (), ()))]⟩

def debug : ConfigVarBase Unit :=
  ⟨"system.debug", Bool, inferInstance, Lexical.bool.fromStr, false,
    SortedBy.ofList [(2, fun _ _ _ => (.ok (), ()))]⟩

def watched : Config Unit := ⟨SortedBy.ofList [switches, debug], by decide⟩

theorem watched_elems : watched.datas.elems = [switches, debug] := rfl

theorem watched_quiet : watched.Quiet := by
  rw [Quiet, watched_elems, List.forall_mem_cons, List.forall_mem_singleton]
  constructor
  · intro cb hcb old new world
    rw [List.mem_singleton.mp hcb]
  · intro cb hcb old new world
    rw [List.mem_singleton.mp hcb]

theorem watched_refl : watched.Refl := by
  rw [Refl, watched_elems, List.forall_mem_cons, List.forall_mem_singleton]
  exact ⟨fun t => beq_self_eq_true (α := List Bool) t, fun t => beq_self_eq_true (α := Bool) t⟩

theorem watched_again :
    loadFromYaml Flow.yaml systemTree
        (loadFromYaml Flow.yaml systemTree (watched.traced, ((), []))) =
      loadFromYaml Flow.yaml systemTree (watched.traced, ((), [])) :=
  loadFromYaml_again Flow.yaml systemTree (nodup_listAllMember systemTree_plain) watched
    watched_quiet watched_refl ()

end Config
end SimpleHttpServer
