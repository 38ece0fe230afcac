import SimpleHttpServer.Config.Load
import Mathlib.Data.List.Forall2

/-! Upper case in the keys of a tree.

A flat name is lowered before it is looked up, but a name with an upper case
letter is refused before that, with everything below it. So a key that differs
from a variable's name in case is not found: loading a tree and loading it with
the keys on the way to registered names lowered are the same for every registry of
these names only if there was nothing to lower. -/
namespace SimpleHttpServer

/-! ### Lower case -/

theorem toLower_append (s t : String) : (s ++ t).toLower = s.toLower ++ t.toLower := by
  apply String.toList_injective
  simp [Config.toList_toLower]

theorem toLower_toLower (s : String) : s.toLower.toLower = s.toLower := by
  have hchar : ∀ c : Char, c.toLower.toLower = c.toLower := by
    intro c
    unfold Char.toLower
    split
    case isTrue h =>
      split
      case isTrue h' =>
        simp only [UInt32.le_iff_toNat_le] at h h'
        simp at h h'
        omega
      case isFalse => rfl
    case isFalse => simp
  apply String.toList_injective
  simp [Config.toList_toLower, hchar]

/-- Text that lowering leaves alone has no part that it changes. -/
theorem toLower_of_append {s t : String} (h : (s ++ t).toLower = s ++ t) :
    s.toLower = s ∧ t.toLower = t := by
  have hchars := congrArg String.toList h
  simp only [Config.toList_toLower, String.toList_append, List.map_append] at hchars
  obtain ⟨hs, ht⟩ := List.append_inj hchars (by simp)
  constructor
  · apply String.toList_injective
    rw [Config.toList_toLower, hs]
  · apply String.toList_injective
    rw [Config.toList_toLower, ht]

theorem isEmpty_toLower (s : String) : s.toLower.isEmpty = s.isEmpty := by
  have hempty : s.toLower = "" ↔ s = "" := by
    rw [← String.toList_inj, ← String.toList_inj, Config.toList_toLower]
    simp
  exact Bool.eq_iff_iff.mpr (by simpa using hempty)

theorem toLower_memberName (pre key : String) :
    (memberName pre key).toLower = memberName pre.toLower key.toLower := by
  have hdot : ".".toLower = "." := Config.toLower_of_valid (by decide)
  unfold memberName
  rw [isEmpty_toLower]
  split
  · rfl
  · rw [toLower_append, toLower_append, hdot]

theorem toLower_pathName (pre : String) (ks : List String) :
    (pathName pre ks).toLower = pathName pre.toLower (ks.map String.toLower) := by
  induction ks generalizing pre with
  | nil => rfl
  | cons k rest ih =>
    show (pathName (memberName pre k) rest).toLower = pathName (memberName pre.toLower k.toLower) _
    rw [ih, toLower_memberName]

/-- The name of a member is a part of every name below it, and its key a part of its name. -/
theorem pathName_parts (pre key : String) (ks : List String) :
    ∃ s t, pathName (memberName pre key) ks = s ++ key ++ t := by
  have hbelow : ∀ (ks : List String) (pre : String), ∃ t, pathName pre ks = pre ++ t := by
    intro ks
    induction ks with
    | nil => exact fun pre => ⟨"", by simp [pathName]⟩
    | cons k rest ih =>
      intro pre
      obtain ⟨t, ht⟩ := ih (memberName pre k)
      have hmember : ∃ s, memberName pre k = pre ++ s := by
        unfold memberName
        split
        case isTrue hempty => exact ⟨k, by rw [String.isEmpty_iff.mp hempty, String.empty_append]⟩
        case isFalse => exact ⟨"." ++ k, String.append_assoc ..⟩
      obtain ⟨s, hs⟩ := hmember
      refine ⟨s ++ t, ?_⟩
      show pathName (memberName pre k) rest = _
      rw [ht, hs, String.append_assoc]
  obtain ⟨t, ht⟩ := hbelow ks (memberName pre key)
  rw [ht]
  unfold memberName
  split
  · exact ⟨"", t, by rw [String.empty_append]⟩
  · exact ⟨pre ++ ".", t, rfl⟩

namespace Node

/-! ### The lowered tree -/

def lowerKey : Node → Node
  | scalar s => scalar s.toLower
  | k => k

mutual
/-- Whether the name of a node, or of one below it, is one of these up to case. -/
def leads (names : List String) (pre : String) : Node → Bool
  | map pairs => names.contains pre.toLower || memberLeads names pre pairs
  | _ => names.contains pre.toLower

def memberLeads (names : List String) (pre : String) : List (Node × Node) → Bool
  | [] => false
  | (k, v) :: rest => leads names (memberName pre k.text) v || memberLeads names pre rest
end

mutual
/-- A tree with the keys on a path to one of these names lowered. -/
def lowered (names : List String) (pre : String) : Node → Node
  | map pairs => map (loweredMembers names pre pairs)
  | n => n

def loweredMembers (names : List String) (pre : String) : List (Node × Node) → List (Node × Node)
  | [] => []
  | (k, v) :: rest =>
    (if leads names (memberName pre k.text) v then
      (lowerKey k, lowered names (memberName pre k.text) v)
    else (k, v)) :: loweredMembers names pre rest
end

theorem text_lowerKey (k : Node) : (lowerKey k).text = k.text.toLower := by
  cases k with
  | scalar s => rfl
  | _ =>
    show "" = "".toLower
    exact (Config.toLower_of_valid (by decide)).symm

mutual
theorem leads_iff (names : List String) (pre : String) :
    ∀ n : Node, leads names pre n = true ↔ ∃ p ∈ paths n, (pathName pre p.1).toLower ∈ names
  | null | scalar _ | sequence _ => by simp [leads, paths, pathName]
  | map pairs => by
    have hmembers := memberLeads_iff names pre pairs
    simp [leads, paths, pathName, hmembers]

theorem memberLeads_iff (names : List String) (pre : String) :
    ∀ pairs : List (Node × Node), memberLeads names pre pairs = true ↔
      ∃ p ∈ memberPaths pairs, (pathName pre p.1).toLower ∈ names
  | [] => by simp [memberLeads, memberPaths]
  | (k, v) :: rest => by
    have hmember := leads_iff names (memberName pre k.text) v
    have hrest := memberLeads_iff names pre rest
    simp only [memberLeads, memberPaths, Bool.or_eq_true, hmember, hrest, List.mem_append, or_and_right,
      exists_or, List.mem_map]
    refine or_congr_left ?_
    constructor
    · intro ⟨p, hp, hin⟩
      exact ⟨_, ⟨p, hp, rfl⟩, hin⟩
    · intro ⟨_, ⟨p, hp, heq⟩, hin⟩
      rw [← heq] at hin
      exact ⟨p, hp, hin⟩
end

/-- A name in the tree and its name in the lowered tree: the same up to case, and lowered if it is
one of these names. -/
def Lowers (names : List String) (s t : String) : Prop :=
  t.toLower = s.toLower ∧ (s.toLower ∈ names → t = s.toLower)

theorem lowers_self {names : List String} {s t : String} (h : t.toLower = s.toLower)
    (hs : s.toLower ∉ names) : Lowers names s t :=
  ⟨h, fun hin => absurd hin hs⟩

/-- Below a node that leads nowhere nothing is lowered. -/
theorem lowers_kept {names : List String} {pre pre' : String} (hpre : pre'.toLower = pre.toLower)
    {l : List (List String × Node)} (h : ∀ p ∈ l, (pathName pre p.1).toLower ∉ names) :
    List.Forall₂ (fun p q => Lowers names (pathName pre p.1) (pathName pre' q.1)) l l := by
  refine List.forall₂_same.mpr fun p hp => lowers_self ?_ (h p hp)
  rw [toLower_pathName, hpre, ← toLower_pathName]

mutual
/-- The paths of the lowered tree are those of the tree, one for one. -/
theorem lowered_paths (names : List String) {pre pre' : String} (hpre : pre'.toLower = pre.toLower) :
    ∀ n : Node, (leads names pre n = true → pre' = pre.toLower) →
      List.Forall₂ (fun p q => Lowers names (pathName pre p.1) (pathName pre' q.1)) (paths n)
        (paths (lowered names pre n))
  | null, h | scalar _, h | sequence _, h =>
    .cons ⟨hpre, fun hin => h (by simpa [leads, pathName] using hin)⟩ .nil
  | map pairs, h => by
    have hhere : Lowers names pre pre' :=
      ⟨hpre, fun hin => h (by simp [leads, hin])⟩
    have hmembers := loweredMembers_paths names hpre pairs fun hin => h (by simp [leads, hin])
    exact .cons hhere hmembers

theorem loweredMembers_paths (names : List String) {pre pre' : String}
    (hpre : pre'.toLower = pre.toLower) :
    ∀ pairs : List (Node × Node), (memberLeads names pre pairs = true → pre' = pre.toLower) →
      List.Forall₂ (fun p q => Lowers names (pathName pre p.1) (pathName pre' q.1))
        (memberPaths pairs) (memberPaths (loweredMembers names pre pairs))
  | [], _ => .nil
  | (k, v) :: rest, h => by
    have hrest := loweredMembers_paths names hpre rest fun hin => h (by simp [memberLeads, hin])
    unfold loweredMembers memberPaths
    refine List.rel_append ?_ hrest
    cases hleads : leads names (memberName pre k.text) v with
    | false =>
      have hnone : ∀ p ∈ paths v, (pathName (memberName pre k.text) p.1).toLower ∉ names := by
        intro p hp hin
        rw [(leads_iff names _ v).mpr ⟨p, hp, hin⟩] at hleads
        cases hleads
      refine lowers_kept hpre fun p hp => ?_
      obtain ⟨q, hq, rfl⟩ := List.mem_map.mp hp
      exact hnone q hq
    | true =>
      have hpre' := h (by simp [memberLeads, hleads])
      have hname : memberName pre' (lowerKey k).text = (memberName pre k.text).toLower := by
        rw [toLower_memberName, text_lowerKey, hpre']
      have hmember := @lowered_paths names (memberName pre k.text) (memberName pre' (lowerKey k).text)
        (by rw [hname, toLower_toLower]) v fun _ => hname
      rw [List.forall₂_map_left_iff]
      simp only [↓reduceIte, List.forall₂_map_right_iff]
      exact hmember
end

mutual
/-- If the names of a tree that are among these up to case are lower case, there is nothing to
lower. -/
theorem lowered_eq_self (names : List String) (pre : String) : ∀ n : Node,
    (∀ p ∈ paths n, (pathName pre p.1).toLower ∈ names →
      (pathName pre p.1).toLower = pathName pre p.1) → lowered names pre n = n
  | null, _ | scalar _, _ | sequence _, _ => rfl
  | map pairs, h => by
    have hmembers := loweredMembers_eq_self names pre pairs fun p hp => h p (List.mem_cons_of_mem _ hp)
    rw [lowered, hmembers]

theorem loweredMembers_eq_self (names : List String) (pre : String) :
    ∀ pairs : List (Node × Node), (∀ p ∈ memberPaths pairs, (pathName pre p.1).toLower ∈ names →
      (pathName pre p.1).toLower = pathName pre p.1) → loweredMembers names pre pairs = pairs
  | [], _ => rfl
  | (k, v) :: rest, h => by
    have hrest := loweredMembers_eq_self names pre rest fun p hp => h p (List.mem_append_right _ hp)
    have hbelow : ∀ p ∈ paths v, (pathName (memberName pre k.text) p.1).toLower ∈ names →
        (pathName (memberName pre k.text) p.1).toLower = pathName (memberName pre k.text) p.1 :=
      fun p hp => h (k.text :: p.1, p.2) (List.mem_append_left _ (List.mem_map_of_mem hp))
    have hvalue := lowered_eq_self names (memberName pre k.text) v hbelow
    rw [loweredMembers, hrest, hvalue]
    split
    case isFalse => rfl
    case isTrue hleads =>
      obtain ⟨p, hp, hin⟩ := (leads_iff names _ v).mp hleads
      obtain ⟨s, t, hparts⟩ := pathName_parts pre k.text p.1
      have hlower := hbelow p hp hin
      rw [hparts] at hlower
      have hkey := (toLower_of_append (toLower_of_append hlower).1).2
      cases k with
      | scalar text =>
        have htext : text.toLower = text := hkey
        rw [lowerKey, htext]
      | _ => rfl
end

end Node
namespace Config

/-- For every registry of these names, loading the tree and loading it with the keys on a path to
one of them lowered leave every variable the same. -/
def CaseInsensitive (Y : YamlCpp) (root : Node) (names : List String) : Prop :=
  ∀ (ω : Type) (c : Config ω) (world : ω), (∀ n, (c.lookupBase n).isSome = true ↔ n ∈ names) →
    ∀ n ∈ names, (loadFromYaml Y root (c, world)).1.lookupBase n =
      (loadFromYaml Y (root.lowered names "") (c, world)).1.lookupBase n

/-- The nodes of a tree that are named so up to case are named so letter for letter. -/
def LowerCase (root : Node) (names : List String) : Prop :=
  ∀ p ∈ root.paths, (pathName "" p.1).toLower ∈ names →
    (pathName "" p.1).toLower = pathName "" p.1

/-! ### How often a variable is given a text -/

/-- How many flat names of a tree go to a variable. -/
def turns (root : Node) (name : String) : ℕ :=
  (listAllMember "" root).countP fun i => i.1.toLower = name

theorem turns_eq (root : Node) {name : String} (h : validName name = true) :
    turns root name = root.paths.countP fun p => pathName "" p.1 = name := by
  rw [turns, listAllMember_eq, validNames, List.countP_filter, List.countP_map]
  refine List.countP_congr fun p _ => ?_
  have hname : (decide ((pathName "" p.1).toLower = name) && validName (pathName "" p.1)) = true ↔
      pathName "" p.1 = name := by
    rw [Bool.and_eq_true, decide_eq_true_iff]
    constructor
    · intro ⟨heq, hvalid⟩
      rwa [toLower_of_valid hvalid] at heq
    · intro heq
      rw [heq]
      exact ⟨toLower_of_valid h, h⟩
  simpa using hname

theorem countP_lt_of_forall₂ {α β : Type} {R : α → β → Prop} {P : α → Bool} {Q : β → Bool}
    {l : List α} {l' : List β} (h : List.Forall₂ R l l')
    (hle : ∀ a b, R a b → P a = true → Q b = true)
    (hlt : ∃ a ∈ l, P a = false ∧ ∀ b, R a b → Q b = true) : l.countP P < l'.countP Q := by
  have hall : ∀ {l l'}, List.Forall₂ R l l' → l.countP P ≤ l'.countP Q := by
    intro l l' h
    induction h with
    | nil => exact Nat.le_refl _
    | @cons a b _ _ hab _ ih =>
      rw [List.countP_cons, List.countP_cons]
      have hfirst : (if P a then 1 else 0) ≤ if Q b then 1 else 0 := by
        split
        · rw [hle a b hab ‹_›]
          exact Nat.le_refl _
        · exact Nat.zero_le _
      exact Nat.add_le_add ih hfirst
  induction h with
  | nil => simp at hlt
  | @cons a b l l' hab htail ih =>
    rw [List.countP_cons, List.countP_cons]
    obtain ⟨x, hx, hP, hQ⟩ := hlt
    rcases List.mem_cons.mp hx with rfl | hx
    · have hrest := hall htail
      rw [hP, hQ b hab]
      simp
      omega
    · have hrest := ih ⟨x, hx, hP, hQ⟩
      cases hPa : P a with
      | false =>
        rw [if_neg Bool.false_ne_true]
        omega
      | true =>
        rw [hle a b hab hPa]
        exact Nat.add_lt_add_right hrest _

/-- A node that is named so up to case only is missed. -/
theorem turns_lt {root : Node} {names : List String} {p : List String × Node} (hp : p ∈ root.paths)
    (hin : (pathName "" p.1).toLower ∈ names)
    (hvalid : validName (pathName "" p.1).toLower = true)
    (hne : (pathName "" p.1).toLower ≠ pathName "" p.1) :
    turns root (pathName "" p.1).toLower <
      turns (root.lowered names "") (pathName "" p.1).toLower := by
  rw [turns_eq root hvalid, turns_eq _ hvalid]
  have hempty : "".toLower = "" := toLower_of_valid (by decide)
  have hpaths := @Node.lowered_paths names "" "" rfl root fun _ => hempty.symm
  refine countP_lt_of_forall₂ hpaths ?_ ⟨p, hp, ?_, ?_⟩
  · intro q r hlowers hq
    have heq : pathName "" q.1 = (pathName "" p.1).toLower := by simpa using hq
    have hlower : (pathName "" q.1).toLower = (pathName "" p.1).toLower := by
      rw [heq, toLower_toLower]
    have hname := hlowers.2 (by rw [hlower]; exact hin)
    simpa [hlower] using hname
  · simpa using Ne.symm hne
  · intro r hlowers
    simpa using hlowers.2 hin

/-! ### A registry that counts -/

/-- A listener that lets one call through. -/
def counting (k : ℕ) : Listener ℕ Bool := fun _ _ world =>
  (if world = k then .ok () else .error "refused", world + 1)

/-- A type whose values never equal each other. -/
@[reducible] def never : BEq Bool := ⟨fun _ _ => false⟩

def countingVar (k : ℕ) (val : Bool) : ConfigVar ℕ Bool :=
  ⟨val, SortedBy.empty.insert (0, counting k)⟩

/-- A variable that is set by one of its texts. -/
def counter (k : ℕ) (name : String) (val : Bool) : ConfigVarBase ℕ :=
  ⟨name, Bool, never, fun _ => .ok true, countingVar k val⟩

/-- A variable no text converts for. -/
def inert (name : String) : ConfigVarBase ℕ :=
  ⟨name, Unit, ⟨fun _ _ => true⟩, fun _ => .error "bad lexical cast", ⟨(), .empty⟩⟩

theorem countingVar_setValue (k : ℕ) (val : Bool) (world : ℕ) :
    @ConfigVar.setValue ℕ Bool never (countingVar k val) true world =
      (if world = k then .ok (countingVar k true) else .error "refused", world + 1) := by
  have hnotify : ConfigVar.notify val true (countingVar k val).cbs.elems world =
      (if world = k then .ok () else .error "refused", world + 1) := by
    show ConfigVar.notify val true [(0, counting k)] world = _
    by_cases hk : world = k <;> simp [ConfigVar.notify, counting, hk]
  unfold ConfigVar.setValue
  rw [if_neg (fun h => nomatch h)]
  have hval : (countingVar k val).val = val := rfl
  rw [hval, hnotify]
  by_cases hk : world = k
  · simp only [hk, ↓reduceIte]
    rfl
  · simp only [hk, ↓reduceIte]

theorem counter_fromString (k : ℕ) (name : String) (val : Bool) (text : String) (world : ℕ) :
    (counter k name val).fromString text world =
      ((counter k name (if world = k then true else val), decide (world = k)), world + 1) := by
  have hvar : @ConfigVar.fromString ℕ Bool never (fun _ => .ok true) (countingVar k val) text world =
      ((countingVar k (if world = k then true else val), decide (world = k)), world + 1) := by
    unfold ConfigVar.fromString
    dsimp only
    rw [countingVar_setValue]
    by_cases hk : world = k <;> simp [hk]
  unfold ConfigVarBase.fromString
  have hbase : @ConfigVar.fromString ℕ (counter k name val).T (counter k name val).beq
      (counter k name val).fromStr (counter k name val).var text world = _ := hvar
  rw [hbase]
  rfl

/-- The registry of these names in which one is counted. -/
def registry (k : ℕ) (name : String) (names : List String)
    (h : ∀ n ∈ names, validName n = true) : Config ℕ :=
  ⟨SortedBy.ofList (names.map fun n => if n = name then counter k n false else inert n), by
    intro v hv
    have hfind := SortedBy.find?_ofList.symm.trans (SortedBy.find?_key hv)
    obtain ⟨n, hn, rfl⟩ := List.mem_map.mp (List.mem_of_find?_eq_some hfind)
    have hname : (if n = name then counter k n false else inert n).name = n := by split <;> rfl
    rw [hname]
    exact h n hn⟩

/-- What the registry holds when that many texts have gone to the counted name. -/
def Counted (k : ℕ) (name : String) (names : List String) (s : Config ℕ × ℕ) : Prop :=
  ∀ n, s.1.lookupBase n =
    if n ∈ names then some (if n = name then counter k n (decide (k < s.2)) else inert n) else none

theorem counted_registry (k : ℕ) (name : String) (names : List String)
    (h : ∀ n ∈ names, validName n = true) : Counted k name names (registry k name names h, 0) := by
  intro n
  show (SortedBy.ofList _).find? n = _
  rw [SortedBy.find?_ofList, List.find?_map]
  have hname : ∀ m, (if m = name then counter k m false else inert m).name = m := by
    intro m
    split <;> rfl
  simp only [Function.comp_def, hname, Nat.not_lt_zero, decide_false]
  split
  case isTrue hin =>
    have hfind : names.find? (fun m => m = n) = some n := by
      cases hfound : names.find? fun m => m = n with
      | none => simpa using List.find?_eq_none.mp hfound n hin
      | some m =>
        have hm : m = n := by simpa using List.find?_some hfound
        rw [hm]
    rw [hfind]
    rfl
  case isFalse hout =>
    have hfind : names.find? (fun m => m = n) = none := by
      refine List.find?_eq_none.mpr fun m hm heq => hout ?_
      rwa [← of_decide_eq_true heq]
    rw [hfind]
    rfl

theorem counted_load (Y : YamlCpp) {k : ℕ} {name : String} (hne : name ≠ "") {names : List String}
    {s : Config ℕ × ℕ} (h : Counted k name names s) (hin : name ∈ names) (i : String × Node) :
    Counted k name names (load Y s i) ∧
      (load Y s i).2 = s.2 + if i.1.toLower = name then 1 else 0 := by
  unfold load
  cases hempty : i.1.isEmpty with
  | true =>
    have hlower : i.1.toLower ≠ name := by
      rw [String.isEmpty_iff.mp hempty, toLower_of_valid (by decide)]
      exact Ne.symm hne
    simpa [hlower] using h
  | false =>
    have hkey := h i.1.toLower
    cases hfind : s.1.lookupBase i.1.toLower with
    | none =>
      have hlower : i.1.toLower ≠ name := by
        intro heq
        rw [hfind, heq, if_pos hin] at hkey
        cases hkey
      simpa [hfind, hlower] using h
    | some v =>
      rw [hfind] at hkey
      have hmem : i.1.toLower ∈ names := by
        by_contra hout
        rw [if_neg hout] at hkey
        cases hkey
      rw [if_pos hmem] at hkey
      simp only [Bool.false_eq_true, ↓reduceIte, hfind]
      have hassign : ∀ n, (s.1.assign i.1.toLower (nodeText Y i.2) s.2).lookupBase n =
          if n = i.1.toLower then some (v.fromString (nodeText Y i.2) s.2).1.1
          else s.1.lookupBase n := by
        intro n
        rw [lookupBase_assign, hfind]
        rfl
      generalize i.1.toLower = key at hassign hkey hmem
      by_cases hname : key = name
      · subst hname
        have hval : (if s.2 = k then true else decide (k < s.2)) = decide (k < s.2 + 1) := by
          split <;> simp <;> omega
        rw [if_pos rfl] at hkey
        rw [Option.some.inj hkey, counter_fromString, hval] at hassign ⊢
        refine ⟨fun n => (hassign n).trans ?_, by rw [if_pos rfl]⟩
        by_cases hn : n = key
        · subst hn
          rw [if_pos rfl, if_pos hmem, if_pos rfl]
        · rw [if_neg hn, h n, if_neg hn, if_neg hn]
      · rw [if_neg hname] at hkey
        have hinert : (inert key).fromString (nodeText Y i.2) s.2 = ((inert key, false), s.2) := rfl
        rw [Option.some.inj hkey, hinert] at hassign ⊢
        refine ⟨fun n => (hassign n).trans ?_, by rw [if_neg hname]; rfl⟩
        by_cases hn : n = key
        · subst hn
          rw [if_pos rfl, if_pos hmem, if_neg hname]
        · rw [if_neg hn, h n]

/-- After the loading, as many texts as there are flat names that go to the counted name. -/
theorem counted_loadFromYaml (Y : YamlCpp) {k : ℕ} {name : String} (hne : name ≠ "")
    {names : List String} (hin : name ∈ names) {s : Config ℕ × ℕ} (h : Counted k name names s)
    (root : Node) : Counted k name names (loadFromYaml Y root s) ∧
      (loadFromYaml Y root s).2 = s.2 + turns root name := by
  unfold loadFromYaml turns
  induction listAllMember "" root generalizing s with
  | nil => exact ⟨h, rfl⟩
  | cons i rest ih =>
    obtain ⟨hcounted, hworld⟩ := counted_load Y hne h hin i
    obtain ⟨hrest, hcount⟩ := ih hcounted
    refine ⟨hrest, ?_⟩
    rw [List.foldl_cons, hcount, hworld, List.countP_cons]
    simp only [decide_eq_true_eq]
    omega

/-- Loading takes no notice of case for a tree and the names that are registered exactly if the
nodes of the tree that are named like a variable up to case are named like it letter for letter. -/
theorem caseInsensitive_iff (Y : YamlCpp) (root : Node) (names : List String)
    (hnames : ∀ n ∈ names, validName n = true) :
    CaseInsensitive Y root names ↔ LowerCase root names := by
  constructor
  · intro h p hp hin
    by_contra hne
    have hvalid := hnames _ hin
    have hlt := turns_lt hp hin hvalid hne
    have hname : (pathName "" p.1).toLower ≠ "" := by
      intro heq
      rw [heq] at hne
      have hempty := isEmpty_toLower (pathName "" p.1)
      rw [heq] at hempty
      exact hne (String.isEmpty_iff.mp hempty.symm).symm
    generalize (pathName "" p.1).toLower = name at hin hvalid hlt hname
    have hstart := counted_registry (turns root name) name names hnames
    have hsame := h ℕ (registry (turns root name) name names hnames) 0 (fun n => by
      rw [hstart n]
      split <;> simp [*]) name hin
    obtain ⟨hthis, hthisWorld⟩ := counted_loadFromYaml Y hname hin hstart root
    obtain ⟨hthat, hthatWorld⟩ := counted_loadFromYaml Y hname hin hstart (root.lowered names "")
    rw [hthis name, hthat name, hthisWorld, hthatWorld] at hsame
    simp [hin, hlt, counter, countingVar] at hsame
  · intro h ω c world _ n _
    rw [Node.lowered_eq_self names "" root h]

/-- An upper case letter away from the variable, and one on the way to it. -/
def mixedTree : Node :=
  .map [(.scalar "system", .map [(.scalar "debug", .scalar "1")]), (.scalar "Other", .scalar "2")]

def upperTree : Node := .map [(.scalar "System", .map [(.scalar "Debug", .scalar "1")])]

theorem mixedTree_caseInsensitive :
    CaseInsensitive Flow.yaml mixedTree ["system.debug"] ∧
      ¬ CaseInsensitive Flow.yaml upperTree ["system.debug"] := by
  have hmixed : LowerCase mixedTree ["system.debug"] := by
    unfold LowerCase
    decide +kernel
  have hupper : ¬ LowerCase upperTree ["system.debug"] := by
    unfold LowerCase
    decide +kernel
  constructor
  · exact (caseInsensitive_iff Flow.yaml mixedTree ["system.debug"] (by decide)).mpr hmixed
  · rw [caseInsensitive_iff Flow.yaml upperTree ["system.debug"] (by decide)]
    exact hupper

def debugVar (val : Bool) : ConfigVarBase Unit :=
  ⟨"system.debug", Bool, inferInstance, Lexical.bool.fromStr, val, .empty⟩

def debugs : Config Unit := ⟨SortedBy.empty.insert (debugVar false), by decide⟩

/-- With its keys lowered the tree sets the variable, as it is it does not. -/
theorem upper_dropped :
    (loadFromYaml Flow.yaml upperTree (debugs, ())).1.lookupBase "system.debug" =
        some (debugVar false) ∧
      (loadFromYaml Flow.yaml (upperTree.lowered ["system.debug"] "") (debugs, ())).1.lookupBase
        "system.debug" = some (debugVar true) := by
  have hlower : "system.debug".toLower = "system.debug" := toLower_of_valid (by decide)
  have hsystem : memberName "" "System" = "System" := rfl
  have hdebug : memberName "System" "Debug" = "System.Debug" := by decide
  have hcase : "System".toLower = "system" ∧ "Debug".toLower = "debug" ∧
      "System.Debug".toLower = "system.debug" := by decide +kernel
  have hlowered : upperTree.lowered ["system.debug"] "" = systemTree := by
    simp [upperTree, systemTree, Node.lowered, Node.loweredMembers, Node.leads, Node.memberLeads,
      Node.lowerKey, Node.text, hsystem, hdebug, hcase]
  have hnames : listAllMember "" systemTree = [("", systemTree),
      ("system", .map [(.scalar "debug", .scalar "1")]), ("system.debug", .scalar "1")] := rfl
  refine ⟨rfl, ?_⟩
  have hsystemLower : "system".toLower = "system" := toLower_of_valid (by decide)
  rw [hlowered, loadFromYaml, hnames]
  simp only [List.foldl_cons, List.foldl_nil, load, hlower, hsystemLower]
  rfl

end Config
end SimpleHttpServer
