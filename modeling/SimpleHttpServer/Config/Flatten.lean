import SimpleHttpServer.Yaml.Node
import Mathlib.Data.List.Nodup
import Mathlib.Data.String.Basic

/-! Flattening a tree into dotted names (`ListAllMember`).

Every node of a tree of maps is at the end of one path of keys, and its flat name
is the path joined with dots; a subtree whose name has a character that no name
may have is left out. If no key is empty or has a dot, the name gives the path
back, so the list of flat names is the tree again, node by node. -/
namespace SimpleHttpServer

/-! ### Paths -/

namespace Node

/-- `root[k1][k2]...`, through maps only. -/
def follow : List String → Node → Option Node
  | [], n => some n
  | k :: ks, map pairs => (pairs.find? fun p => isKey k p.1).bind fun p => follow ks p.2
  | _ :: _, _ => none

mutual
/-- Every node of a tree of maps with its path, in document order. -/
def paths : Node → List (List String × Node)
  | map pairs => ([], map pairs) :: memberPaths pairs
  | n => [([], n)]

def memberPaths : List (Node × Node) → List (List String × Node)
  | [] => []
  | (k, v) :: rest => (paths v).map (fun p => (k.text :: p.1, p.2)) ++ memberPaths rest
end

/-- A tree whose map keys are scalars, not empty, without dots and distinct within a map. -/
inductive Plain : Node → Prop
  | null : Plain null
  | scalar (text : String) : Plain (scalar text)
  | sequence (elems : List Node) : Plain (sequence elems)
  | map (pairs : List (Node × Node)) (hscalar : ∀ p ∈ pairs, p.1 = .scalar p.1.text)
      (hkeys : ∀ p ∈ pairs, p.1.text ≠ "" ∧ '.' ∉ p.1.text.toList)
      (hdistinct : (pairs.map fun p => p.1.text).Nodup) (hvalues : ∀ p ∈ pairs, Plain p.2) :
      Plain (map pairs)

end Node

/-! ### Names -/

/-- `"abcdefghijklmnopqrstuvwxyz._1234567890"` -/
def nameChars : List Char := "abcdefghijklmnopqrstuvwxyz._1234567890".toList

/-- `find_first_not_of` these finds nothing. -/
def validName (name : String) : Bool := name.toList.all nameChars.contains

/-- The name of a member. -/
def memberName (pre key : String) : String :=
  if pre.isEmpty then key else pre ++ "." ++ key

mutual
/-- `ListAllMember`: what it appends to `output`. -/
def listAllMember (pre : String) : Node → List (String × Node)
  | .map pairs => if validName pre then (pre, .map pairs) :: listMembers pre pairs else []
  | node => if validName pre then [(pre, node)] else []

/-- The loop over the pairs of a map. -/
def listMembers (pre : String) : List (Node × Node) → List (String × Node)
  | [] => []
  | (k, v) :: rest => listAllMember (memberName pre k.text) v ++ listMembers pre rest
end

/-- The keys between the dots of a name. -/
def keys (name : String) : List String := (name.toList.splitOn '.').map String.ofList

/-! ### The list of paths -/

namespace Node

theorem memberPaths_eq (pairs : List (Node × Node)) :
    memberPaths pairs =
      pairs.flatMap fun p => (paths p.2).map fun q => (p.1.text :: q.1, q.2) := by
  induction pairs with
  | nil => rfl
  | cons p rest ih =>
    show (paths p.2).map _ ++ memberPaths rest = _
    rw [ih]
    rfl

theorem mem_memberPaths {pairs : List (Node × Node)} {ks : List String} {n : Node} :
    (ks, n) ∈ memberPaths pairs ↔
      ∃ p ∈ pairs, ∃ rest, ks = p.1.text :: rest ∧ (rest, n) ∈ paths p.2 := by
  rw [memberPaths_eq, List.mem_flatMap]
  constructor
  · intro ⟨p, hp, hin⟩
    obtain ⟨q, hq, heq⟩ := List.mem_map.mp hin
    cases heq
    exact ⟨p, hp, q.1, rfl, hq⟩
  · intro ⟨p, hp, rest, hks, hin⟩
    exact ⟨p, hp, List.mem_map.mpr ⟨(rest, n), hin, by rw [hks]⟩⟩

/-- The pair of a key, in a map of distinct scalar keys. -/
theorem find?_isKey {pairs : List (Node × Node)} (hscalar : ∀ p ∈ pairs, p.1 = .scalar p.1.text)
    (hdistinct : (pairs.map fun p => p.1.text).Nodup) {p : Node × Node} (hp : p ∈ pairs) :
    (pairs.find? fun q => isKey p.1.text q.1) = some p := by
  induction pairs with
  | nil => cases hp
  | cons q rest ih =>
    obtain ⟨hq, hrest⟩ := List.nodup_cons.mp hdistinct
    have hkey : ∀ k, isKey k q.1 = (q.1.text == k) := by
      intro k
      rw [hscalar q (List.mem_cons_self ..)]
      rfl
    rcases List.mem_cons.mp hp with rfl | hin
    · simp [hkey]
    · have hne : q.1.text ≠ p.1.text := by
        intro heq
        exact hq (List.mem_map.mpr ⟨p, hin, heq.symm⟩)
      rw [List.find?_cons_of_neg (by simp [hkey, hne])]
      exact ih (fun r hr => hscalar r (List.mem_cons_of_mem q hr)) hrest hin

/-- A path leads to a node if and only if it is listed with it. -/
theorem Plain.mem_paths {n : Node} (h : Plain n) {ks : List String} {m : Node} :
    (ks, m) ∈ paths n ↔ follow ks n = some m := by
  induction h generalizing ks with
  | null | scalar _ | sequence _ => cases ks <;> simp [paths, follow, @eq_comm _ m]
  | map pairs hscalar _ hdistinct _ ih =>
    cases ks with
    | nil => simp [paths, follow, mem_memberPaths, @eq_comm _ m]
    | cons k rest =>
      have hmember : (k :: rest, m) ∈ paths (.map pairs) ↔
          ∃ p ∈ pairs, p.1.text = k ∧ (rest, m) ∈ paths p.2 := by
        simp only [paths, List.mem_cons, mem_memberPaths, Prod.mk.injEq, reduceCtorEq, false_and,
          false_or, List.cons.injEq]
        constructor
        · intro ⟨p, hp, _, ⟨hk, hrest⟩, hin⟩
          exact ⟨p, hp, hk.symm, hrest ▸ hin⟩
        · intro ⟨p, hp, hk, hin⟩
          exact ⟨p, hp, rest, ⟨hk.symm, rfl⟩, hin⟩
      rw [hmember]
      constructor
      · intro ⟨p, hp, hk, hin⟩
        subst hk
        simp only [follow, find?_isKey hscalar hdistinct hp, Option.bind_some]
        exact (ih p hp).mp hin
      · intro hfollow
        obtain ⟨p, hfind, hp⟩ := Option.bind_eq_some_iff.mp hfollow
        have hin : p ∈ pairs := List.mem_of_find?_eq_some hfind
        have hk : p.1.text = k := by
          have hkey := List.find?_some hfind
          rw [hscalar p hin] at hkey
          simpa using hkey
        exact ⟨p, hin, hk, (ih p hin).mpr hp⟩

/-- The keys on a path are keys of the tree. -/
theorem Plain.keys_of_mem {n : Node} (h : Plain n) {ks : List String} {m : Node}
    (hin : (ks, m) ∈ paths n) : ∀ k ∈ ks, k ≠ "" ∧ '.' ∉ k.toList := by
  induction h generalizing ks with
  | null | scalar _ | sequence _ =>
    cases List.mem_singleton.mp hin
    intro k hk
    cases hk
  | map pairs _ hkeys _ _ ih =>
    rcases List.mem_cons.mp hin with heq | hmember
    · cases heq
      intro k hk
      cases hk
    · obtain ⟨p, hp, rest, rfl, hrest⟩ := mem_memberPaths.mp hmember
      intro k hk
      rcases List.mem_cons.mp hk with rfl | hk
      · exact hkeys p hp
      · exact ih p hp hrest k hk

/-- No path is listed twice. -/
theorem Plain.nodup_paths {n : Node} (h : Plain n) : ((paths n).map Prod.fst).Nodup := by
  induction h with
  | null | scalar _ | sequence _ => exact List.nodup_singleton _
  | map pairs _ _ hdistinct _ ih =>
    have hbelow : ∀ p : Node × Node, ((paths p.2).map fun q => (p.1.text :: q.1, q.2)).map Prod.fst =
        ((paths p.2).map Prod.fst).map (p.1.text :: ·) := by
      intro p
      simp [List.map_map, Function.comp_def]
    have hmembers : ((memberPaths pairs).map Prod.fst).Nodup := by
      rw [memberPaths_eq, List.map_flatMap, List.nodup_flatMap]
      constructor
      · intro p hp
        rw [hbelow]
        exact (ih p hp).map (List.cons_injective)
      · refine (List.pairwise_map.mp hdistinct).imp fun {p q} hne => ?_
        show List.Disjoint (((paths p.2).map _).map Prod.fst) (((paths q.2).map _).map Prod.fst)
        rw [hbelow, hbelow]
        intro ks hp hq
        obtain ⟨_, _, rfl⟩ := List.mem_map.mp hp
        obtain ⟨_, _, heq⟩ := List.mem_map.mp hq
        exact hne (List.cons.inj heq).1.symm
    show ([] :: (memberPaths pairs).map Prod.fst).Nodup
    refine List.nodup_cons.mpr ⟨?_, hmembers⟩
    intro hin
    obtain ⟨⟨ks, n⟩, hin, hks⟩ := List.mem_map.mp hin
    obtain ⟨p, _, rest, heq, _⟩ := mem_memberPaths.mp hin
    cases hks.symm.trans heq

end Node

/-! ### Names give paths back -/

/-- The name behind a path of members. -/
def pathName (pre : String) (ks : List String) : String := ks.foldl memberName pre

theorem keys_injective : Function.Injective keys := by
  intro s t h
  have hsplit : s.toList.splitOn '.' = t.toList.splitOn '.' :=
    List.map_injective_iff.mpr (fun _ _ h => String.ofList_injective h) h
  have hchars : s.toList = t.toList := by
    have hs : ['.'].intercalate (s.toList.splitOn '.') = s.toList := List.intercalate_splitOn '.'
    rw [← hs, hsplit, List.intercalate_splitOn]
  exact String.toList_inj.mp hchars

theorem keys_of_dotfree {key : String} (h : '.' ∉ key.toList) : keys key = [key] := by
  rw [keys, List.splitOn_eq_singleton h]
  simp

theorem keys_append (pre : String) {key : String} (h : '.' ∉ key.toList) :
    keys (pre ++ "." ++ key) = keys pre ++ [key] := by
  have hchars : (pre ++ "." ++ key).toList = pre.toList ++ '.' :: key.toList := by
    simp [String.toList_append]
  rw [keys, hchars, List.splitOn_append_cons_self, List.splitOn_eq_singleton h]
  simp [keys]

theorem memberName_of_ne {pre : String} (h : pre ≠ "") (key : String) :
    memberName pre key = pre ++ "." ++ key := by
  simp [memberName, h]

/-- Keys without dots are what is between the dots of a path's name. -/
theorem keys_pathName {pre : String} (hpre : pre ≠ "") {ks : List String}
    (h : ∀ k ∈ ks, k ≠ "" ∧ '.' ∉ k.toList) : keys (pathName pre ks) = keys pre ++ ks := by
  induction ks generalizing pre with
  | nil => simp [pathName]
  | cons k rest ih =>
    have hk := (h k (List.mem_cons_self ..)).2
    have hnext : memberName pre k ≠ "" := by
      rw [memberName_of_ne hpre]
      simp [String.append_eq_empty_iff]
    show keys (pathName (memberName pre k) rest) = _
    rw [ih hnext fun k' hk' => h k' (List.mem_cons_of_mem k hk'), memberName_of_ne hpre,
      keys_append pre hk]
    simp

theorem keys_path {ks : List String} (hne : ks ≠ []) (h : ∀ k ∈ ks, k ≠ "" ∧ '.' ∉ k.toList) :
    keys (pathName "" ks) = ks := by
  cases ks with
  | nil => exact absurd rfl hne
  | cons k rest =>
    obtain ⟨hk, hdot⟩ := h k (List.mem_cons_self ..)
    show keys (pathName k rest) = _
    rw [keys_pathName hk fun k' hk' => h k' (List.mem_cons_of_mem k hk'), keys_of_dotfree hdot]
    rfl

/-! ### The list of names -/

theorem validName_append (s t : String) : validName (s ++ t) = (validName s && validName t) := by
  simp [validName, String.toList_append]

theorem validName_pathName {pre : String} {ks : List String}
    (h : validName (pathName pre ks) = true) : validName pre = true := by
  induction ks generalizing pre with
  | nil => exact h
  | cons k rest ih =>
    have hmember : validName (memberName pre k) = true := ih h
    unfold memberName at hmember
    split at hmember
    case isTrue hempty =>
      rw [String.isEmpty_iff.mp hempty]
      rfl
    case isFalse =>
      rw [validName_append, validName_append, Bool.and_eq_true, Bool.and_eq_true] at hmember
      exact hmember.1.1

/-- The names of paths, valid ones only. -/
def validNames (pre : String) (l : List (List String × Node)) : List (String × Node) :=
  (l.map fun p => (pathName pre p.1, p.2)).filter fun i => validName i.1

theorem validNames_append (pre : String) (l l' : List (List String × Node)) :
    validNames pre (l ++ l') = validNames pre l ++ validNames pre l' := by
  simp [validNames]

theorem validNames_member (pre key : String) (l : List (List String × Node)) :
    validNames pre (l.map fun p => (key :: p.1, p.2)) = validNames (memberName pre key) l := by
  simp [validNames, List.map_map, Function.comp_def, pathName]

/-- Below a name that is not valid, none is. -/
theorem validNames_invalid {pre : String} (h : validName pre = false)
    (l : List (List String × Node)) : validNames pre l = [] := by
  refine List.filter_eq_nil_iff.mpr fun i hi => ?_
  obtain ⟨p, _, rfl⟩ := List.mem_map.mp hi
  intro hvalid
  rw [validName_pathName hvalid] at h
  cases h

mutual
/-- The flat names are those of the paths, as far as they are valid: nothing else is cut off. -/
theorem listAllMember_eq (pre : String) : ∀ n : Node, listAllMember pre n = validNames pre n.paths
  | .null | .scalar _ | .sequence _ => by
    cases hvalid : validName pre <;>
      simp [listAllMember, Node.paths, validNames, pathName, hvalid]
  | .map pairs => by
    cases hvalid : validName pre with
    | false =>
      rw [validNames_invalid hvalid]
      simp [listAllMember, hvalid]
    | true =>
      have hmembers := listMembers_eq pre pairs
      simp [listAllMember, Node.paths, validNames, pathName, hvalid, hmembers]

theorem listMembers_eq (pre : String) :
    ∀ pairs : List (Node × Node), listMembers pre pairs = validNames pre (Node.memberPaths pairs)
  | [] => rfl
  | (k, v) :: rest => by
    have hmember := listAllMember_eq (memberName pre k.text) v
    have hrest := listMembers_eq pre rest
    rw [listMembers, Node.memberPaths, validNames_append, validNames_member, hmember, hrest]
end

/-! ### Flat names and paths -/

theorem mem_validNames {root : Node} {name : String} {n : Node} :
    (name, n) ∈ validNames "" root.paths ↔
      validName name = true ∧ ∃ ks, (ks, n) ∈ root.paths ∧ pathName "" ks = name := by
  rw [validNames, List.mem_filter, List.mem_map]
  constructor
  · intro ⟨⟨p, hp, heq⟩, hvalid⟩
    cases heq
    exact ⟨hvalid, p.1, hp, rfl⟩
  · intro ⟨hvalid, ks, hin, hname⟩
    exact ⟨⟨(ks, n), hin, by rw [hname]⟩, hvalid⟩

/-- A valid name is listed with the node its keys lead to. -/
theorem mem_listAllMember {root : Node} (h : root.Plain) {name : String}
    (hvalid : validName name = true) (hne : name ≠ "") {n : Node} :
    (name, n) ∈ listAllMember "" root ↔ root.follow (keys name) = some n := by
  rw [listAllMember_eq, ← h.mem_paths, mem_validNames]
  constructor
  · intro ⟨_, ks, hin, hname⟩
    have hks : ks ≠ [] := by
      intro hnil
      rw [hnil] at hname
      exact hne hname.symm
    rw [← hname, keys_path hks (h.keys_of_mem hin)]
    exact hin
  · intro hin
    have hback := keys_path (by simp [keys, List.splitOn_ne_nil]) (h.keys_of_mem hin)
    exact ⟨hvalid, keys name, hin, keys_injective hback⟩

/-- Only valid names are listed. -/
theorem validName_of_mem {root : Node} {i : String × Node} (h : i ∈ listAllMember "" root) :
    validName i.1 = true := by
  rw [listAllMember_eq] at h
  exact (mem_validNames.mp h).1

/-- Paths of different nodes have different names. -/
theorem pathName_inj {root : Node} (h : root.Plain) {ks ks' : List String} {n n' : Node}
    (hin : (ks, n) ∈ root.paths) (hin' : (ks', n') ∈ root.paths)
    (hname : pathName "" ks = pathName "" ks') : ks = ks' := by
  -- the empty name is the root's alone
  have hempty : ∀ {ks n}, (ks, n) ∈ root.paths → pathName "" ks = "" → ks = [] := by
    intro ks n hin hname
    by_contra hne
    have hkeys := keys_path hne (h.keys_of_mem hin)
    rw [hname] at hkeys
    exact (h.keys_of_mem hin "" (hkeys ▸ by decide)).1 rfl
  by_cases hnil : ks = []
  · subst hnil
    exact (hempty hin' hname.symm).symm
  · by_cases hnil' : ks' = []
    · subst hnil'
      exact hempty hin hname
    · rw [← keys_path hnil (h.keys_of_mem hin), hname, keys_path hnil' (h.keys_of_mem hin')]

/-- No name is listed twice. -/
theorem nodup_listAllMember {root : Node} (h : root.Plain) :
    ((listAllMember "" root).map Prod.fst).Nodup := by
  have hall : ((root.paths.map Prod.fst).map (pathName "")).Nodup := by
    refine h.nodup_paths.map_on ?_
    intro ks hks ks' hks' hname
    obtain ⟨p, hp, rfl⟩ := List.mem_map.mp hks
    obtain ⟨q, hq, rfl⟩ := List.mem_map.mp hks'
    exact pathName_inj h hp hq hname
  rw [listAllMember_eq]
  refine List.Nodup.sublist (List.Sublist.map _ List.filter_sublist) ?_
  rw [List.map_map] at hall ⊢
  exact hall

end SimpleHttpServer
