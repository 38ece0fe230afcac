import SimpleHttpServer.Lib.SortedBy
import SimpleHttpServer.Yaml.Flow
import Mathlib.Data.List.Forall2
import Mathlib.Data.String.Basic

/-! Conversion between values and text (`Lexical_cast`).

A container is written as the YAML of its elements, each of which is first
written as text of its own and loaded again, and read the same way back: a round
trip through text at every level. The codecs of the six containers are here, and
why they inherit the round trip from their elements whatever is nested in what.

`std::set` and `std::map` are in the order of their keys. The order of
`std::unordered_set` and `std::unordered_map` is up to their hash table; all that
is known of an insertion is which elements there are afterwards (`Hashing`), and
two of them are equal if they hold the same whatever the order. -/
namespace SimpleHttpServer

/-- `Lexical_cast<T, std::string>` and `Lexical_cast<std::string, T>`, with the equality of `T`. -/
structure Codec (T : Type) where
  toStr : T → Except Exn String
  fromStr : String → Except Exn T
  same : T → T → Prop

/-- Where a hash table puts a new element among those it has. -/
structure Hashing (α : Type) where
  place : List α → α → List α
  perm : ∀ l a, (place l a).Perm (a :: l)

/-- A `std::unordered_set` or `std::unordered_map`: one element to a key, in the order an
iterator walks them. -/
structure Unordered {α κ : Type} (key : α → κ) where
  elems : List α
  distinct : (elems.map key).Nodup

namespace Unordered
variable {α κ : Type} {key : α → κ}

def empty : Unordered key := ⟨[], .nil⟩

/-- `insert`: refused where the key is taken. -/
def insert [DecidableEq κ] (H : Hashing α) (s : Unordered key) (a : α) : Unordered key :=
  if h : key a ∈ s.elems.map key then s
  else ⟨H.place s.elems a, by
    rw [((H.perm s.elems a).map key).nodup_iff]
    exact List.nodup_cons.mpr ⟨h, s.distinct⟩⟩

def ofList [DecidableEq κ] (H : Hashing α) (l : List α) : Unordered key := l.foldl (insert H) empty

/-- Elements with keys of their own all get in. -/
theorem foldl_insert [DecidableEq κ] (H : Hashing α) {l : List α} {s : Unordered key}
    (h : (s.elems.map key ++ l.map key).Nodup) : (l.foldl (insert H) s).elems.Perm (l ++ s.elems) := by
  induction l generalizing s with
  | nil => exact .refl _
  | cons a rest ih =>
    have hnew : key a ∉ s.elems.map key := by
      intro hin
      exact (List.nodup_append.mp h).2.2 _ hin _ (List.mem_cons_self ..) rfl
    have hplace : (s.insert H a).elems.Perm (a :: s.elems) := by
      simp only [insert, hnew, ↓reduceDIte]
      exact H.perm s.elems a
    have hkeys : ((s.insert H a).elems.map key ++ rest.map key).Nodup := by
      refine (List.Perm.nodup_iff ?_).mpr h
      exact ((hplace.map key).append_right _).trans List.perm_middle.symm
    exact (ih hkeys).trans ((hplace.append_left rest).trans List.perm_middle)

theorem ofList_perm [DecidableEq κ] (H : Hashing α) {l : List α} (h : (l.map key).Nodup) :
    (ofList H l : Unordered key).elems.Perm l := by
  have hall := foldl_insert H (s := (empty : Unordered key)) (l := l) (by simpa [empty] using h)
  simpa [ofList, empty] using hall

/-- Every key gets in. -/
theorem key_mem_ofList [DecidableEq κ] (H : Hashing α) {l : List α} {k : κ} :
    k ∈ (ofList H l : Unordered key).elems.map key ↔ k ∈ l.map key := by
  have hfrom : ∀ s : Unordered key,
      k ∈ (l.foldl (insert H) s).elems.map key ↔ k ∈ s.elems.map key ∨ k ∈ l.map key := by
    induction l with
    | nil => simp
    | cons a rest ih =>
      intro s
      have hinsert : k ∈ (s.insert H a).elems.map key ↔ k ∈ s.elems.map key ∨ k = key a := by
        unfold insert
        split
        case isTrue hin => exact ⟨.inl, fun h => h.elim id fun heq => heq ▸ hin⟩
        case isFalse =>
          show k ∈ (H.place s.elems a).map key ↔ _
          rw [((H.perm s.elems a).map key).mem_iff, List.map_cons, List.mem_cons, or_comm]
      rw [List.foldl_cons, ih, hinsert, List.map_cons, List.mem_cons, or_assoc]
  exact (hfrom empty).trans (or_iff_right (by simp [empty]))

end Unordered

namespace Lexical
variable {T κ : Type} (Y : YamlCpp)

/-- One element on its way into a container: `YAML::Load(Lexical_cast<T, std::string>()(i))`. -/
def element (c : Codec T) (t : T) : Except Exn Node := c.toStr t >>= Y.load

/-- What `push_back` of these nodes makes of a fresh node. -/
def pushed (nodes : List Node) : Option Node :=
  nodes.foldl (fun n e => some ((n.getD .null).push e)) none

/-- What assigning these members makes of a fresh node. -/
def assigned (ps : List (String × Node)) : Option Node :=
  ps.foldl (fun n p => some ((n.getD .null).set p.1 p.2)) none

/-- `push_back` of every element to a fresh node, and the node streamed. -/
def fromElems (c : Codec T) (ts : List T) : Except Exn String := do
  let nodes ← ts.mapM (element Y c)
  return Y.stream (pushed nodes)

/-- The loop over `node[i]`. -/
def toElems (c : Codec T) (f : String) : Except Exn (List T) := do
  let node ← Y.load f
  (List.range node.size).mapM fun i => c.fromStr (Y.stream (Y.index node i))

/-- One pair on its way into a map. -/
def member (c : Codec T) (p : String × T) : Except Exn (String × Node) := do
  return (p.1, ← element Y c p.2)

/-- `node[i.first] = YAML::Load(...)` for every pair in a fresh node, and the node streamed. -/
def fromPairs (c : Codec T) (ps : List (String × T)) : Except Exn String := do
  let nodes ← ps.mapM (member Y c)
  return Y.stream (assigned nodes)

/-- One pair of a map on its way out: `it->first.Scalar()` and the value decoded. -/
def pair (c : Codec T) (p : Node × Node) : Except Exn (String × T) := do
  return (p.1.text, ← c.fromStr (Y.stream (some p.2)))

/-- The loop from `node.begin()` to `node.end()`; the elements of a sequence have no `first`. -/
def toPairs (c : Codec T) (f : String) : Except Exn (List (String × T)) := do
  match ← Y.load f with
  | .map pairs => pairs.mapM (pair Y c)
  | .sequence (_ :: _) => .error "invalid node"
  | _ => return []

/-- The codec of `std::vector`. -/
def vector (c : Codec T) : Codec (List T) where
  toStr := fromElems Y c
  fromStr := toElems Y c
  same := List.Forall₂ c.same

/-- `std::list`, the same code again. -/
def list (c : Codec T) : Codec (List T) := vector Y c

/-- `std::set`, with its elements in the order of a key. -/
def set [LinearOrder κ] (key : T → κ) (c : Codec T) : Codec (SortedBy key) where
  toStr s := fromElems Y c s.elems
  fromStr f := do return .ofList (← toElems Y c f)
  same s t := List.Forall₂ c.same s.elems t.elems

/-- `std::unordered_set`, two of them being equal if the elements of one, reordered, are those of
the other. -/
def unorderedSet [DecidableEq κ] (key : T → κ) (H : Hashing T) (c : Codec T) :
    Codec (Unordered key) where
  toStr s := fromElems Y c s.elems
  fromStr f := do return .ofList H (← toElems Y c f)
  same s t := ∃ l, s.elems.Perm l ∧ List.Forall₂ c.same l t.elems

/-- Equal keys and equal values. -/
def samePair (c : Codec T) (p q : String × T) : Prop := p.1 = q.1 ∧ c.same p.2 q.2

/-- `std::map<std::string, T>` -/
def map (c : Codec T) : Codec (SortedBy (Prod.fst : String × T → String)) where
  toStr s := fromPairs Y c s.elems
  fromStr f := do return .ofList (← toPairs Y c f)
  same s t := List.Forall₂ (samePair c) s.elems t.elems

/-- `std::unordered_map<std::string, T>` -/
def unorderedMap (H : Hashing (String × T)) (c : Codec T) :
    Codec (Unordered (Prod.fst : String × T → String)) where
  toStr s := fromPairs Y c s.elems
  fromStr f := do return .ofList H (← toPairs Y c f)
  same s t := ∃ l, s.elems.Perm l ∧ List.Forall₂ (samePair c) l t.elems

/-! ### Round trips -/

/-- An element codec is good if decoding the emitted text of the node loaded from an encoding gives
the value back. -/
def Good (c : Codec T) : Prop :=
  ∀ t, ∃ text node t', c.toStr t = .ok text ∧ Y.load text = .ok node ∧
    c.fromStr (Y.emit node) = .ok t' ∧ c.same t' t

/-- Decoding an encoding gives the value back. -/
def RoundTrip (c : Codec T) : Prop :=
  ∀ t, ∃ text t', c.toStr t = .ok text ∧ c.fromStr text = .ok t' ∧ c.same t' t

/-- Both, and by the same value. -/
def Sound (c : Codec T) : Prop :=
  ∀ t, ∃ text node t', c.toStr t = .ok text ∧ Y.load text = .ok node ∧ c.fromStr text = .ok t' ∧
    c.fromStr (Y.emit node) = .ok t' ∧ c.same t' t

variable {Y}

theorem Sound.good {c : Codec T} (h : Sound Y c) : Good Y c := fun t => by
  obtain ⟨text, node, t', hto, hload, _, hfrom, hsame⟩ := h t
  exact ⟨text, node, t', hto, hload, hfrom, hsame⟩

theorem Sound.decodes {c : Codec T} (h : Sound Y c) : RoundTrip c := fun t => by
  obtain ⟨text, _, t', hto, _, hfrom, _, hsame⟩ := h t
  exact ⟨text, t', hto, hfrom, hsame⟩

/-- The nodes of good elements decode to the elements. -/
theorem elements {c : Codec T} (h : Good Y c) (ts : List T) :
    ∃ nodes ts', ts.mapM (element Y c) = .ok nodes ∧
      nodes.mapM (fun n => c.fromStr (Y.emit n)) = .ok ts' ∧ List.Forall₂ c.same ts' ts := by
  induction ts with
  | nil => exact ⟨[], [], rfl, rfl, .nil⟩
  | cons t rest ih =>
    obtain ⟨text, node, t', hto, hload, hfrom, hsame⟩ := h t
    obtain ⟨nodes, ts', henc, hdec, hall⟩ := ih
    have helement : element Y c t = .ok node := by simp [element, hto, hload, bind, Except.bind]
    refine ⟨node :: nodes, t' :: ts', ?_, ?_, .cons hsame hall⟩
    · rw [List.mapM_cons, helement, henc]
      rfl
    · rw [List.mapM_cons, hfrom, hdec]
      rfl

/-! Sequences -/

theorem pushed_cons (node : Node) (rest : List Node) :
    pushed (node :: rest) = some (.sequence (node :: rest)) := by
  have hmore : ∀ (l acc : List Node),
      l.foldl (fun n e => some ((n.getD Node.null).push e)) (some (.sequence acc)) =
        some (.sequence (acc ++ l)) := by
    intro l
    induction l with
    | nil => simp
    | cons e l ih =>
      intro acc
      rw [List.foldl_cons]
      exact (ih (acc ++ [e])).trans (by simp)
  exact hmore rest [node]

theorem toElems_sequence (hY : Y.Lawful) (c : Codec T) (nodes : List Node) :
    toElems Y c (Y.emit (.sequence nodes)) = nodes.mapM fun n => c.fromStr (Y.emit n) := by
  simp only [toElems, hY.load_emit, bind, Except.bind]
  exact Y.mapM_index (fun n => c.fromStr (Y.stream n)) nodes

theorem toElems_size_zero {c : Codec T} {f : String} {n : Node} (h : Y.load f = .ok n)
    (hsize : n.size = 0) : toElems Y c f = .ok [] := by
  simp [toElems, h, hsize, bind, Except.bind, pure, Except.pure]

/-- Good elements, written as a sequence, come back in order. -/
theorem fromElems_toElems (hY : Y.Lawful) (hnone : Y.EmitsNone) {c : Codec T} (h : Good Y c)
    (ts : List T) :
    ∃ text node ts', fromElems Y c ts = .ok text ∧ Y.load text = .ok node ∧
      toElems Y c text = .ok ts' ∧ toElems Y c (Y.emit node) = .ok ts' ∧
      List.Forall₂ c.same ts' ts := by
  obtain ⟨nodes, ts', henc, hdec, hall⟩ := elements h ts
  have hfrom : fromElems Y c ts = .ok (Y.stream (pushed nodes)) := by
    simp only [fromElems, henc, bind, Except.bind]
    rfl
  cases nodes with
  | nil =>
    obtain ⟨node, hload, hsize⟩ := hnone
    cases hdec
    refine ⟨_, node, [], hfrom, hload, toElems_size_zero hload hsize, ?_, hall⟩
    exact toElems_size_zero (hY.load_emit node) hsize
  | cons node rest =>
    rw [pushed_cons] at hfrom
    have hback := (toElems_sequence hY c (node :: rest)).trans hdec
    exact ⟨_, .sequence (node :: rest), ts', hfrom, hY.load_emit _, hback, hback, hall⟩

/-! Maps -/

theorem assigned_cons {p : String × Node} {rest : List (String × Node)}
    (h : ((p :: rest).map Prod.fst).Nodup) :
    assigned (p :: rest) = some (.map ((p :: rest).map fun q => (.scalar q.1, q.2))) := by
  have hmore : ∀ (l acc : List (String × Node)), ((acc ++ l).map Prod.fst).Nodup →
      l.foldl (fun n p => some ((n.getD Node.null).set p.1 p.2))
        (some (.map (acc.map fun q => (.scalar q.1, q.2)))) =
          some (.map ((acc ++ l).map fun q => (.scalar q.1, q.2))) := by
    intro l
    induction l with
    | nil => simp
    | cons e l ih =>
      intro acc hnodup
      have hnew : (acc.map fun q => ((.scalar q.1, q.2) : Node × Node)).any
          (fun q => Node.isKey e.1 q.1) = false := by
        rw [List.map_append, List.nodup_append] at hnodup
        simp only [List.any_map, List.any_eq_false, Function.comp_apply, Node.isKey, beq_iff_eq]
        intro q hq heq
        exact hnodup.2.2 q.1 (List.mem_map_of_mem hq) e.1 (by simp) heq
      rw [List.foldl_cons]
      have hset : ((some (Node.map (acc.map fun q => (.scalar q.1, q.2)))).getD .null).set e.1 e.2 =
          .map ((acc ++ [e]).map fun q => (.scalar q.1, q.2)) := by
        simp only [Option.getD_some, Node.set, hnew]
        simp
      rw [hset, ih (acc ++ [e]) (by simpa using hnodup)]
      simp
  exact hmore rest [p] h

/-- The nodes of good values decode to the values, under their keys. -/
theorem members {c : Codec T} (h : Good Y c) (ps : List (String × T)) :
    ∃ nodes ps', ps.mapM (member Y c) = .ok nodes ∧ nodes.map Prod.fst = ps.map Prod.fst ∧
      (nodes.map fun q => ((.scalar q.1, q.2) : Node × Node)).mapM (pair Y c) = .ok ps' ∧
      List.Forall₂ (samePair c) ps' ps := by
  induction ps with
  | nil => exact ⟨[], [], rfl, rfl, rfl, .nil⟩
  | cons p rest ih =>
    obtain ⟨text, node, t', hto, hload, hfrom, hsame⟩ := h p.2
    obtain ⟨nodes, ps', henc, hkeys, hdec, hall⟩ := ih
    have hmember : member Y c p = .ok (p.1, node) := by
      simp [member, element, hto, hload, bind, Except.bind, pure, Except.pure]
    have hpair : pair Y c (.scalar p.1, node) = .ok (p.1, t') := by
      simp [pair, Node.text, YamlCpp.stream, hfrom, bind, Except.bind, pure, Except.pure]
    refine ⟨(p.1, node) :: nodes, (p.1, t') :: ps', ?_, ?_, ?_, .cons ⟨rfl, hsame⟩ hall⟩
    · rw [List.mapM_cons, hmember, henc]
      rfl
    · rw [List.map_cons, List.map_cons, hkeys]
    · rw [List.map_cons, List.mapM_cons, hpair, hdec]
      rfl

theorem toPairs_size_zero {c : Codec T} {f : String} {n : Node} (h : Y.load f = .ok n)
    (hsize : n.size = 0) : toPairs Y c f = .ok [] := by
  cases n with
  | sequence elems =>
    cases elems with
    | nil => simp [toPairs, h, bind, Except.bind, pure, Except.pure]
    | cons => cases hsize
  | map pairs =>
    cases pairs with
    | nil => simp [toPairs, h, bind, Except.bind, pure, Except.pure]
    | cons => cases hsize
  | _ => simp [toPairs, h, bind, Except.bind, pure, Except.pure]

/-- Good values, written as a map under keys of their own, come back in order. -/
theorem fromPairs_toPairs (hY : Y.Lawful) (hnone : Y.EmitsNone) {c : Codec T} (h : Good Y c)
    {ps : List (String × T)} (hdistinct : (ps.map Prod.fst).Nodup) :
    ∃ text node ps', fromPairs Y c ps = .ok text ∧ Y.load text = .ok node ∧
      toPairs Y c text = .ok ps' ∧ toPairs Y c (Y.emit node) = .ok ps' ∧
      List.Forall₂ (samePair c) ps' ps := by
  obtain ⟨nodes, ps', henc, hkeys, hdec, hall⟩ := members h ps
  have hfrom : fromPairs Y c ps = .ok (Y.stream (assigned nodes)) := by
    simp only [fromPairs, henc, bind, Except.bind]
    rfl
  cases nodes with
  | nil =>
    obtain ⟨node, hload, hsize⟩ := hnone
    cases hdec
    refine ⟨_, node, [], hfrom, hload, toPairs_size_zero hload hsize, ?_, hall⟩
    exact toPairs_size_zero (hY.load_emit node) hsize
  | cons p rest =>
    rw [assigned_cons (hkeys ▸ hdistinct)] at hfrom
    have hback : toPairs Y c (Y.emit (.map ((p :: rest).map fun q => (.scalar q.1, q.2)))) = .ok ps' := by
      simp only [toPairs, hY.load_emit, bind, Except.bind]
      exact hdec
    exact ⟨_, _, ps', hfrom, hY.load_emit _, hback, hback, hall⟩

/-! The six containers -/

theorem vector_sound (hY : Y.Lawful) (hnone : Y.EmitsNone) {c : Codec T} (h : Good Y c) :
    Sound Y (vector Y c) := fun ts => fromElems_toElems hY hnone h ts

theorem map_of_forall₂ {R : T → T → Prop} {key : T → κ} (hkey : ∀ a b, R a b → key a = key b)
    {l l' : List T} (h : List.Forall₂ R l l') : l.map key = l'.map key := by
  induction h with
  | nil => rfl
  | cons hab _ ih => rw [List.map_cons, List.map_cons, hkey _ _ hab, ih]

/-- Elements with the keys of a sorted container are in order. -/
theorem sorted_of_map [LinearOrder κ] {key : T → κ} {l : List T} {s : SortedBy key}
    (h : l.map key = s.elems.map key) : l.Pairwise (key · < key ·) := by
  rw [← List.pairwise_map (R := (· < ·)), h]
  exact List.pairwise_map.mpr s.sorted

theorem set_sound [LinearOrder κ] (key : T → κ) (hY : Y.Lawful) (hnone : Y.EmitsNone)
    {c : Codec T} (h : Good Y c) (hkey : ∀ a b, c.same a b → key a = key b) :
    Sound Y (set Y key c) := by
  intro s
  obtain ⟨text, node, ts', hto, hload, hfrom, hagain, hall⟩ := fromElems_toElems hY hnone h s.elems
  have hsorted := sorted_of_map (map_of_forall₂ hkey hall)
  have hdec : ∀ f, toElems Y c f = .ok ts' → (set Y key c).fromStr f = .ok ⟨ts', hsorted⟩ := by
    intro f hf
    simp only [set, hf, bind, Except.bind, pure, Except.pure]
    exact congrArg Except.ok (SortedBy.ofList_elems ⟨ts', hsorted⟩)
  exact ⟨text, node, _, hto, hload, hdec text hfrom, hdec _ hagain, hall⟩

theorem unorderedSet_sound [DecidableEq κ] (key : T → κ) (H : Hashing T) (hY : Y.Lawful)
    (hnone : Y.EmitsNone) {c : Codec T} (h : Good Y c) (hkey : ∀ a b, c.same a b → key a = key b) :
    Sound Y (unorderedSet Y key H c) := by
  intro s
  obtain ⟨text, node, ts', hto, hload, hfrom, hagain, hall⟩ := fromElems_toElems hY hnone h s.elems
  have hdec : ∀ f, toElems Y c f = .ok ts' →
      (unorderedSet Y key H c).fromStr f = .ok (.ofList H ts') := by
    intro f hf
    simp [unorderedSet, hf, bind, Except.bind, pure, Except.pure]
  have hkeys : (ts'.map key).Nodup := map_of_forall₂ hkey hall ▸ s.distinct
  exact ⟨text, node, _, hto, hload, hdec text hfrom, hdec _ hagain, ts',
    Unordered.ofList_perm H hkeys, hall⟩

theorem map_sound (hY : Y.Lawful) (hnone : Y.EmitsNone) {c : Codec T} (h : Good Y c) :
    Sound Y (map Y c) := by
  intro s
  have hdistinct : (s.elems.map Prod.fst).Nodup :=
    List.pairwise_map.mpr (s.sorted.imp fun h => ne_of_lt h)
  obtain ⟨text, node, ps', hto, hload, hfrom, hagain, hall⟩ := fromPairs_toPairs hY hnone h hdistinct
  have hsorted := sorted_of_map (map_of_forall₂ (fun _ _ h => h.1) hall)
  have hdec : ∀ f, toPairs Y c f = .ok ps' → (map Y c).fromStr f = .ok ⟨ps', hsorted⟩ := by
    intro f hf
    simp only [map, hf, bind, Except.bind, pure, Except.pure]
    exact congrArg Except.ok (SortedBy.ofList_elems ⟨ps', hsorted⟩)
  exact ⟨text, node, _, hto, hload, hdec text hfrom, hdec _ hagain, hall⟩

theorem unorderedMap_sound (H : Hashing (String × T)) (hY : Y.Lawful) (hnone : Y.EmitsNone)
    {c : Codec T} (h : Good Y c) : Sound Y (unorderedMap Y H c) := by
  intro s
  obtain ⟨text, node, ps', hto, hload, hfrom, hagain, hall⟩ :=
    fromPairs_toPairs hY hnone h s.distinct
  have hdec : ∀ f, toPairs Y c f = .ok ps' →
      (unorderedMap Y H c).fromStr f = .ok (.ofList H ps') := by
    intro f hf
    simp [unorderedMap, hf, bind, Except.bind, pure, Except.pure]
  have hkeys : (ps'.map Prod.fst).Nodup :=
    map_of_forall₂ (fun _ _ h => h.1) hall ▸ s.distinct
  exact ⟨text, node, _, hto, hload, hdec text hfrom, hdec _ hagain, ps',
    Unordered.ofList_perm H hkeys, hall⟩

/-! Equality

Where the equality of the elements is that of their type, so is the container's; a hash table's is,
up to the order in which it walks its elements. -/

/-- Two values are the same to the codec exactly if they are equal. -/
def Exact (c : Codec T) : Prop := ∀ a b, c.same a b ↔ a = b

omit Y in
theorem Exact.samePair {c : Codec T} (h : Exact c) (p q : String × T) :
    samePair c p q ↔ p = q := by
  rw [Prod.ext_iff, Lexical.samePair, h]

theorem forall₂_iff_eq {α : Type} {R : α → α → Prop} (h : ∀ a b, R a b ↔ a = b) (l m : List α) :
    List.Forall₂ R l m ↔ l = m := by
  have hR : R = Eq := funext fun a => funext fun b => propext (h a b)
  rw [hR, List.forall₂_eq_eq_eq]

theorem vector_exact {c : Codec T} (h : Exact c) : Exact (vector Y c) := forall₂_iff_eq h

theorem set_exact [LinearOrder κ] (key : T → κ) {c : Codec T} (h : Exact c) :
    Exact (set Y key c) := fun s t =>
  (forall₂_iff_eq h s.elems t.elems).trans ⟨SortedBy.ext, fun heq => heq ▸ rfl⟩

theorem map_exact {c : Codec T} (h : Exact c) : Exact (map Y c) := fun s t =>
  (forall₂_iff_eq h.samePair s.elems t.elems).trans ⟨SortedBy.ext, fun heq => heq ▸ rfl⟩

/-- Reordered, the elements of one are those of the other. -/
theorem exists_perm_iff {α : Type} {R : α → α → Prop} (h : ∀ a b, R a b ↔ a = b) (l m : List α) :
    (∃ l', l.Perm l' ∧ List.Forall₂ R l' m) ↔ l.Perm m := by
  simp only [forall₂_iff_eq h]
  exact ⟨fun ⟨_, hperm, heq⟩ => heq ▸ hperm, fun hperm => ⟨m, hperm, rfl⟩⟩

theorem unorderedSet_same_iff [DecidableEq κ] (key : T → κ) (H : Hashing T) {c : Codec T}
    (h : Exact c) (s t : Unordered key) :
    (unorderedSet Y key H c).same s t ↔ s.elems.Perm t.elems := exists_perm_iff h s.elems t.elems

theorem unorderedMap_same_iff (H : Hashing (String × T)) {c : Codec T} (h : Exact c)
    (s t : Unordered (Prod.fst : String × T → String)) :
    (unorderedMap Y H c).same s t ↔ s.elems.Perm t.elems :=
  exists_perm_iff h.samePair s.elems t.elems

/-! Nesting -/

/-- The codecs built from good element codecs by so many layers of containers. The elements of a
set must not be told apart by its order, or its hash table, where their own equality does not. -/
inductive Derived (Y : YamlCpp) : ℕ → (T : Type) → Codec T → Prop
  | element {T : Type} (c : Codec T) (h : Good Y c) : Derived Y 0 T c
  | vector {n : ℕ} {T : Type} {c : Codec T} (h : Derived Y n T c) :
      Derived Y (n + 1) (List T) (vector Y c)
  | list {n : ℕ} {T : Type} {c : Codec T} (h : Derived Y n T c) :
      Derived Y (n + 1) (List T) (list Y c)
  | set {n : ℕ} {T κ : Type} {c : Codec T} [LinearOrder κ] (key : T → κ) (h : Derived Y n T c)
      (hkey : ∀ a b, c.same a b → key a = key b) : Derived Y (n + 1) (SortedBy key) (set Y key c)
  | unorderedSet {n : ℕ} {T κ : Type} {c : Codec T} [DecidableEq κ] (key : T → κ) (H : Hashing T)
      (h : Derived Y n T c) (hkey : ∀ a b, c.same a b → key a = key b) :
      Derived Y (n + 1) (Unordered key) (unorderedSet Y key H c)
  | map {n : ℕ} {T : Type} {c : Codec T} (h : Derived Y n T c) :
      Derived Y (n + 1) (SortedBy (Prod.fst : String × T → String)) (map Y c)
  | unorderedMap {n : ℕ} {T : Type} {c : Codec T} (H : Hashing (String × T)) (h : Derived Y n T c) :
      Derived Y (n + 1) (Unordered (Prod.fst : String × T → String)) (unorderedMap Y H c)

/-- Every layer keeps its elements good, and is sound itself. -/
theorem derived_sound (hY : Y.Lawful) (hnone : Y.EmitsNone) {n : ℕ} {c : Codec T}
    (h : Derived Y n T c) : Good Y c ∧ (n ≠ 0 → Sound Y c) := by
  have hlayer : ∀ {T' : Type} {c' : Codec T'} {m : ℕ}, Sound Y c' →
      Good Y c' ∧ (m ≠ 0 → Sound Y c') := fun hsound => ⟨hsound.good, fun _ => hsound⟩
  induction h with
  | element c h => exact ⟨h, fun hne => absurd rfl hne⟩
  | vector _ ih => exact hlayer (vector_sound hY hnone ih.1)
  | list _ ih => exact hlayer (vector_sound hY hnone ih.1)
  | set key _ hkey ih => exact hlayer (set_sound key hY hnone ih.1 hkey)
  | unorderedSet key H _ hkey ih => exact hlayer (unorderedSet_sound key H hY hnone ih.1 hkey)
  | map _ ih => exact hlayer (map_sound hY hnone ih.1)
  | unorderedMap H _ ih => exact hlayer (unorderedMap_sound H hY hnone ih.1)

/-- A codec of any nesting of containers over good element codecs is good, and decoding what it
encodes gives the value back: an equal one (`vector_exact`, `set_exact`, `map_exact`), for a hash
table one with the same elements (`unorderedSet_same_iff`, `unorderedMap_same_iff`). -/
theorem container_roundTrip (Y : YamlCpp) (hY : Y.Lawful) (hnone : Y.EmitsNone) (n : ℕ) (C : Type)
    (c : Codec C) (h : Derived Y (n + 1) C c) : Good Y c ∧ RoundTrip c := by
  have hsound := (derived_sound hY hnone h).2 (Nat.succ_ne_zero n)
  exact ⟨hsound.good, hsound.decodes⟩

/-- `boost::lexical_cast` between `bool` and text. -/
def bool : Codec Bool where
  toStr b := .ok (if b then "1" else "0")
  fromStr s := if s = "1" then .ok true else if s = "0" then .ok false else .error "bad lexical cast"
  same := Eq

theorem bool_good : Good Flow.yaml bool := by
  intro b
  have hzero : Flow.yaml.emit (.scalar "0") = "0" := by decide +kernel
  have hone : Flow.yaml.emit (.scalar "1") = "1" := by decide +kernel
  cases b with
  | false =>
    refine ⟨"0", .scalar "0", false, rfl, ?_, by rw [hzero]; rfl, rfl⟩
    rw [← hzero]
    exact Flow.yaml_lawful.load_emit _
  | true =>
    refine ⟨"1", .scalar "1", true, rfl, ?_, by rw [hone]; rfl, rfl⟩
    rw [← hone]
    exact Flow.yaml_lawful.load_emit _

/-- `std::map<std::string, std::vector<bool>>`: the map that is read is the map that was written. -/
theorem boolVectors_roundTrip : Good Flow.yaml (map Flow.yaml (vector Flow.yaml bool)) ∧
    ∀ m, ∃ text, (map Flow.yaml (vector Flow.yaml bool)).toStr m = .ok text ∧
      (map Flow.yaml (vector Flow.yaml bool)).fromStr text = .ok m := by
  obtain ⟨hgood, hround⟩ := container_roundTrip Flow.yaml Flow.yaml_lawful Flow.yaml_emitsNone 1 _ _
    (.map (.vector (.element bool bool_good)))
  have hexact : Exact (map Flow.yaml (vector Flow.yaml bool)) :=
    map_exact (vector_exact fun _ _ => Iff.rfl)
  refine ⟨hgood, fun m => ?_⟩
  obtain ⟨text, m', hto, hfrom, hsame⟩ := hround m
  exact ⟨text, hto, (hexact m' m).mp hsame ▸ hfrom⟩

end Lexical
end SimpleHttpServer
