import SimpleHttpServer.Config.Load
import SimpleHttpServer.Lib.MapM

/-! Strings in variables and in containers.

A string variable is given the text of its node. A container variable is given its
node as YAML, and takes each element out of it as the YAML of the element: what
arrives is the text of a scalar only if the scalar is written without quotes. -/
namespace SimpleHttpServer

/-- What a text makes of a variable of this type. -/
def Lexical.string : Codec String where
  toStr := .ok
  fromStr := .ok
  same := Eq

namespace Config

/-- A variable of this type receives this value for a node, whatever else is registered: its turn
in the loading is `setValue` of the value. -/
def Receives {T : Type} (Y : YamlCpp) (c : Codec T) (node : Node) (t : T) : Prop :=
  ∀ (ω : Type) (beq : BEq T) (r : Config ω) (world : ω) (name : String) (var : ConfigVar ω T),
    name ≠ "" → r.lookupBase name.toLower = some ⟨name.toLower, T, beq, c.fromStr, var⟩ →
    (load Y (r, world) (name, node)).1.lookupBase name.toLower =
        some ⟨name.toLower, T, beq, c.fromStr, (var.setValue t world).1.toOption.getD var⟩ ∧
      (load Y (r, world) (name, node)).2 = (var.setValue t world).2

variable {T : Type} {Y : YamlCpp} {c : Codec T} {node : Node} {t : T}

/-- What converts is received. -/
theorem receives_of_fromStr (h : c.fromStr (nodeText Y node) = .ok t) : Receives Y c node t := by
  intro ω beq r world name var hname hvar
  have hempty : name.isEmpty = false := by simpa using hname
  unfold load
  simp only [hempty, hvar, Bool.false_eq_true, ↓reduceIte, lookupBase_assign, Option.map_some,
    ConfigVarBase.fromString, ConfigVar.fromString, h]
  split <;> rename_i heq <;> simp [heq, Except.toOption]

/-- A registry of one variable. -/
def only {ω : Type} (v : ConfigVarBase ω) (h : validName v.name = true) : Config ω :=
  ⟨SortedBy.empty.insert v, by
    intro w hw
    rw [List.mem_singleton.mp hw]
    exact h⟩

theorem lookupBase_only {ω : Type} (v : ConfigVarBase ω) (h : validName v.name = true) :
    (only v h).lookupBase v.name = some v := by
  show (SortedBy.empty.insert v).find? v.name = some v
  rw [SortedBy.find?_insert, if_pos rfl, SortedBy.find?_empty]
  rfl

/-- A listener that notes what it is told. -/
def noting : Listener (Option T) T := fun _ new _ => (.ok (), some new)

/-- A variable of which nothing is known but that it notes what it is set to. -/
def noted (c : Codec T) (t : T) : ConfigVarBase (Option T) :=
  ⟨"x", T, ⟨fun _ _ => false⟩, c.fromStr, ⟨t, SortedBy.empty.insert (0, noting)⟩⟩

/-- What is received is what converts. -/
theorem receives_iff : Receives Y c node t ↔ c.fromStr (nodeText Y node) = .ok t := by
  refine ⟨fun h => ?_, receives_of_fromStr⟩
  have hvalid : validName (noted c t).name = true := by
    show validName "x" = true
    decide
  have hlower : "x".toLower = "x" := toLower_of_valid (by decide)
  have hlookup : (only (noted c t) hvalid).lookupBase "x" = some (noted c t) :=
    lookupBase_only _ hvalid
  have hworld := (h (Option T) ⟨fun _ _ => false⟩ (only (noted c t) hvalid) none "x" (noted c t).var
    (by decide) (by rw [hlower]; exact hlookup)).2
  -- the listener has been told what the node converts to
  have hload : (load Y (only (noted c t) hvalid, none) ("x", node)).2 =
      (c.fromStr (nodeText Y node)).toOption := by
    simp only [load, hlower, hlookup]
    show ((noted c t).fromString (nodeText Y node) none).2 = _
    unfold ConfigVarBase.fromString ConfigVar.fromString
    cases hfrom : c.fromStr (nodeText Y node) with
    | error e => simp [noted, hfrom, Except.toOption]
    | ok t' =>
      simp only [noted, hfrom, ConfigVar.setValue]
      rfl
  cases hfrom : c.fromStr (nodeText Y node) with
  | error e =>
    rw [hload, hfrom] at hworld
    cases hworld
  | ok t' =>
    rw [hload, hfrom] at hworld
    cases hworld
    rfl

/-! ### The seven types -/

open Lexical (string)

/-- A scalar with this text means the text for a variable and in every container. -/
structure SameInside (Y : YamlCpp) (s : String) : Prop where
  alone : Receives Y string (.scalar s) s
  vector : ∀ (elems : List Node) (i : ℕ), elems[i]? = some (.scalar s) →
    ∃ t, Receives Y (Lexical.vector Y string) (.sequence elems) t ∧ t[i]? = some s
  list : ∀ (elems : List Node) (i : ℕ), elems[i]? = some (.scalar s) →
    ∃ t, Receives Y (Lexical.list Y string) (.sequence elems) t ∧ t[i]? = some s
  set : ∀ elems : List Node, .scalar s ∈ elems →
    ∃ t, Receives Y (Lexical.set Y id string) (.sequence elems) t ∧ s ∈ t.elems
  unorderedSet : ∀ (H : Hashing String) (elems : List Node), .scalar s ∈ elems →
    ∃ t, Receives Y (Lexical.unorderedSet Y id H string) (.sequence elems) t ∧ s ∈ t.elems
  map : ∀ pairs : List (Node × Node), (pairs.map fun p => p.1.text).Nodup →
    ∀ k, (k, .scalar s) ∈ pairs →
      ∃ t, Receives Y (Lexical.map Y string) (.map pairs) t ∧ (k.text, s) ∈ t.elems
  unorderedMap : ∀ (H : Hashing (String × String)) (pairs : List (Node × Node)),
    (pairs.map fun p => p.1.text).Nodup → ∀ k, (k, .scalar s) ∈ pairs →
      ∃ t, Receives Y (Lexical.unorderedMap Y H string) (.map pairs) t ∧ (k.text, s) ∈ t.elems

/-- The strings of a sequence are its elements as they are emitted. -/
theorem toElems_string (hY : Y.Lawful) (elems : List Node) :
    Lexical.toElems Y string (nodeText Y (.sequence elems)) = .ok (elems.map Y.emit) := by
  show Lexical.toElems Y string (Y.emit (.sequence elems)) = _
  rw [Lexical.toElems_sequence hY]
  exact MapM.mapM_ok fun n _ => rfl

/-- The strings of a map are its values as they are emitted. -/
theorem toPairs_string (hY : Y.Lawful) (pairs : List (Node × Node)) :
    Lexical.toPairs Y string (nodeText Y (.map pairs)) =
      .ok (pairs.map fun p => (p.1.text, Y.emit p.2)) := by
  show Lexical.toPairs Y string (Y.emit (.map pairs)) = _
  simp only [Lexical.toPairs, hY.load_emit, bind, Except.bind]
  exact MapM.mapM_ok fun p _ => rfl

/-- A scalar that is emitted as its text arrives as its text. -/
theorem sameInside_of_emit (hY : Y.Lawful) {s : String} (h : Y.emit (.scalar s) = s) :
    SameInside Y s := by
  have hvector : ∀ (elems : List Node) (i : ℕ), elems[i]? = some (.scalar s) →
      ∃ t, Receives Y (Lexical.vector Y string) (.sequence elems) t ∧ t[i]? = some s := by
    intro elems i hi
    exact ⟨_, receives_of_fromStr (toElems_string hY elems), by simp [hi, h]⟩
  have hmem : ∀ elems : List Node, .scalar s ∈ elems → s ∈ elems.map Y.emit :=
    fun elems hin => List.mem_map.mpr ⟨_, hin, h⟩
  have hpair : ∀ (pairs : List (Node × Node)) (k : Node), (k, .scalar s) ∈ pairs →
      (k.text, s) ∈ pairs.map fun p => (p.1.text, Y.emit p.2) :=
    fun pairs k hin => List.mem_map.mpr ⟨_, hin, by rw [h]⟩
  have hkeys : ∀ pairs : List (Node × Node), (pairs.map fun p => p.1.text).Nodup →
      ((pairs.map fun p => (p.1.text, Y.emit p.2)).map Prod.fst).Nodup := by
    intro pairs hdistinct
    rwa [List.map_map]
  constructor
  · exact receives_of_fromStr rfl
  · exact hvector
  · exact hvector
  · intro elems hin
    refine ⟨.ofList (elems.map Y.emit), receives_of_fromStr ?_, ?_⟩
    · simp only [Lexical.set, toElems_string hY, bind, Except.bind]
      rfl
    · exact SortedBy.mem_ofList (hmem elems hin) fun b _ heq => heq
  · intro H elems hin
    refine ⟨.ofList H (elems.map Y.emit), receives_of_fromStr ?_, ?_⟩
    · simp only [Lexical.unorderedSet, toElems_string hY, bind, Except.bind]
      rfl
    · have hkey := (@Unordered.key_mem_ofList _ _ id _ H (elems.map Y.emit) s).mpr
        (by rw [List.map_id]; exact hmem elems hin)
      rwa [List.map_id] at hkey
  · intro pairs hdistinct k hin
    refine ⟨.ofList (pairs.map fun p => (p.1.text, Y.emit p.2)), receives_of_fromStr ?_, ?_⟩
    · simp only [Lexical.map, toPairs_string hY, bind, Except.bind]
      rfl
    · refine SortedBy.mem_ofList (hpair pairs k hin) fun b hb heq => ?_
      exact List.inj_on_of_nodup_map (hkeys pairs hdistinct) hb (hpair pairs k hin) heq
  · intro H pairs hdistinct k hin
    refine ⟨.ofList H (pairs.map fun p => (p.1.text, Y.emit p.2)), receives_of_fromStr ?_, ?_⟩
    · simp only [Lexical.unorderedMap, toPairs_string hY, bind, Except.bind]
      rfl
    · exact (Unordered.ofList_perm H (hkeys pairs hdistinct)).mem_iff.mpr (hpair pairs k hin)

/-- A string means the same alone and inside a container exactly if it is valid as a plain scalar. -/
theorem sameInside_iff (Y : YamlCpp) (hY : Y.Lawful) (plain : String → Prop) (h : Y.Quotes plain)
    (s : String) : SameInside Y s ↔ plain s := by
  rw [← h.emit_eq_iff]
  refine ⟨fun hsame => ?_, sameInside_of_emit hY⟩
  obtain ⟨t, hreceives, ht⟩ := hsame.vector [.scalar s] 0 rfl
  have hfrom : Lexical.toElems Y string (nodeText Y (.sequence [.scalar s])) = .ok t :=
    receives_iff.mp hreceives
  rw [toElems_string hY] at hfrom
  cases hfrom
  simpa using ht

/-- A word, and text that yaml-cpp has to quote. -/
theorem debug_sameInside : SameInside Flow.yaml "debug" ∧ ¬ SameInside Flow.yaml "a: b" := by
  constructor
  · apply (sameInside_iff Flow.yaml Flow.yaml_lawful _ Flow.yaml_quotes "debug").mpr
    decide
  · rw [sameInside_iff Flow.yaml Flow.yaml_lawful _ Flow.yaml_quotes]
    decide

/-- The empty string arrives in a vector as a pair of quotes. -/
theorem empty_quoted : ¬ SameInside Flow.yaml "" := by
  intro h
  obtain ⟨t, hreceives, ht⟩ := h.vector [.scalar ""] 0 rfl
  have hfrom : Lexical.toElems Flow.yaml string "[\"\"]" = .ok t := receives_iff.mp hreceives
  have hquotes : Lexical.toElems Flow.yaml string "[\"\"]" = .ok ["\"\""] := by decide +kernel
  rw [hquotes] at hfrom
  cases hfrom
  exact absurd ht (by decide)

end Config
end SimpleHttpServer
