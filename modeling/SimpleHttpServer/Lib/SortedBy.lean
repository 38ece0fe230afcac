import Mathlib.Order.Lattice
import Mathlib.Data.List.Basic

/-! Ordered containers.

`std::set` and `std::map` keep their elements in the order of a key, at most one
element to a key. `SortedBy key` is such a container as the list an iterator
walks, with the order in its type: a value of it cannot be out of order or hold a
key twice. -/
namespace SimpleHttpServer

structure SortedBy {α κ : Type*} (key : α → κ) [LinearOrder κ] where
  elems : List α
  sorted : elems.Pairwise (key · < key ·)

namespace SortedBy
variable {α κ : Type*} {key : α → κ} [LinearOrder κ]

@[ext] theorem ext {s t : SortedBy key} (h : s.elems = t.elems) : s = t := by
  cases s
  cases t
  cases h
  rfl

instance [DecidableEq α] : DecidableEq (SortedBy key) := fun s t =>
  decidable_of_iff (s.elems = t.elems) ⟨ext, fun h => h ▸ rfl⟩

/-- Equality of two containers: as many elements, and each equal to its counterpart. -/
instance [BEq α] : BEq (SortedBy key) := ⟨fun s t => s.elems == t.elems⟩

def empty : SortedBy key := ⟨[], .nil⟩

/-- The element of a key. -/
def find? (s : SortedBy key) (k : κ) : Option α := s.elems.find? fun a => key a = k

/-- Where an insertion puts its element; one that is there already stays. -/
def insertList (key : α → κ) (a : α) : List α → List α
  | [] => [a]
  | b :: rest =>
    if key a < key b then a :: b :: rest
    else if key b < key a then b :: insertList key a rest
    else b :: rest

theorem mem_insertList {a b : α} {l : List α} (h : b ∈ insertList key a l) : b = a ∨ b ∈ l := by
  induction l with
  | nil => exact .inl (List.mem_singleton.mp h)
  | cons c rest ih =>
    unfold insertList at h
    split at h
    · exact List.mem_cons.mp h
    · split at h
      · rcases List.mem_cons.mp h with rfl | hrest
        · exact .inr (List.mem_cons_self ..)
        · exact (ih hrest).imp_right (List.mem_cons_of_mem _)
      · exact .inr h

theorem insertList_sorted (a : α) {l : List α} (h : l.Pairwise (key · < key ·)) :
    (insertList key a l).Pairwise (key · < key ·) := by
  induction l with
  | nil => exact List.pairwise_singleton _ _
  | cons b rest ih =>
    obtain ⟨hb, hrest⟩ := List.pairwise_cons.mp h
    unfold insertList
    split
    case isTrue hlt =>
      refine List.pairwise_cons.mpr ⟨fun c hc => ?_, h⟩
      rcases List.mem_cons.mp hc with rfl | hin
      · exact hlt
      · exact lt_trans hlt (hb c hin)
    case isFalse =>
      split
      case isTrue hgt =>
        refine List.pairwise_cons.mpr ⟨fun c hc => ?_, ih hrest⟩
        rcases mem_insertList hc with rfl | hin
        · exact hgt
        · exact hb c hin
      case isFalse => exact h

/-- `insert`: refused where the key is taken. -/
def insert (s : SortedBy key) (a : α) : SortedBy key :=
  ⟨insertList key a s.elems, insertList_sorted a s.sorted⟩

/-- The elements inserted one after the other. -/
def ofList (l : List α) : SortedBy key := l.foldl insert empty

/-- Change the element of a key in place. -/
def modify (s : SortedBy key) (k : κ) (f : α → α) (hf : ∀ a, key (f a) = key a) : SortedBy key where
  elems := s.elems.map fun a => if key a = k then f a else a
  sorted := by
    refine List.pairwise_map.mpr (s.sorted.imp fun {a b} h => ?_)
    have hkey : ∀ c, key (if key c = k then f c else c) = key c := fun c => by
      split
      · exact hf c
      · rfl
    rw [hkey, hkey]
    exact h

/-- `erase`: nothing happens if no element has the key. -/
def erase (s : SortedBy key) (k : κ) : SortedBy key :=
  ⟨s.elems.filter fun a => key a ≠ k, s.sorted.filter _⟩

/-- The same container with each element put another way. -/
def map {β : Type*} {key' : β → κ} (s : SortedBy key) (f : α → β) (hf : ∀ a, key' (f a) = key a) :
    SortedBy key' where
  elems := s.elems.map f
  sorted := by
    refine List.pairwise_map.mpr (s.sorted.imp fun {a b} h => ?_)
    rw [hf, hf]
    exact h

/-! ### Lookup -/

theorem find?_eq_some {s : SortedBy key} {k : κ} {a : α} :
    s.find? k = some a ↔ a ∈ s.elems ∧ key a = k := by
  constructor
  · intro h
    exact ⟨List.mem_of_find?_eq_some h, by simpa using List.find?_some h⟩
  · rintro ⟨hin, rfl⟩
    unfold find?
    obtain ⟨l, hl⟩ := s
    dsimp only at hin ⊢
    induction l with
    | nil => cases hin
    | cons b rest ih =>
      obtain ⟨hb, hrest⟩ := List.pairwise_cons.mp hl
      rcases List.mem_cons.mp hin with rfl | hin
      · simp
      · rw [List.find?_cons_of_neg (by simpa using ne_of_lt (hb a hin))]
        exact ih hrest hin

theorem find?_eq_none {s : SortedBy key} {k : κ} :
    s.find? k = none ↔ ∀ a ∈ s.elems, key a ≠ k := by
  simp [find?, List.find?_eq_none]

@[simp] theorem find?_empty (k : κ) : (empty : SortedBy key).find? k = none := rfl

theorem find?_key {s : SortedBy key} {a : α} (h : a ∈ s.elems) : s.find? (key a) = some a :=
  find?_eq_some.mpr ⟨h, rfl⟩

/-- A container is what its lookups say. -/
theorem ext_find? {s t : SortedBy key} (h : ∀ k, s.find? k = t.find? k) : s = t := by
  have hnodup : ∀ u : SortedBy key, u.elems.Nodup := fun u =>
    u.sorted.imp fun hlt heq => absurd (congrArg key heq) (ne_of_lt hlt)
  have hmem : ∀ a, a ∈ s.elems ↔ a ∈ t.elems := by
    intro a
    constructor
    · intro ha
      exact (find?_eq_some.mp ((h _).symm.trans (find?_key ha))).1
    · intro ha
      exact (find?_eq_some.mp ((h _).trans (find?_key ha))).1
  apply ext
  apply List.Perm.eq_of_pairwise _ s.sorted t.sorted
    ((List.perm_ext_iff_of_nodup (hnodup s) (hnodup t)).mpr hmem)
  intro a b _ _ hab hba
  exact absurd hba (lt_asymm hab)

theorem mem_insertList_iff {a b : α} {l : List α} (h : l.Pairwise (key · < key ·)) :
    b ∈ insertList key a l ↔ b ∈ l ∨ b = a ∧ ∀ c ∈ l, key c ≠ key a := by
  induction l with
  | nil => simp [insertList]
  | cons c rest ih =>
    obtain ⟨hc, hrest⟩ := List.pairwise_cons.mp h
    unfold insertList
    split
    case isTrue hlt =>
      have hnew : ∀ d ∈ c :: rest, key d ≠ key a := by
        intro d hd
        rcases List.mem_cons.mp hd with rfl | hin
        · exact ne_of_gt hlt
        · exact ne_of_gt (lt_trans hlt (hc d hin))
      rw [List.mem_cons, or_comm]
      exact or_congr_right ⟨fun hb => ⟨hb, hnew⟩, fun hb => hb.1⟩
    case isFalse hge =>
      split
      case isTrue hgt =>
        have hall : (∀ d ∈ c :: rest, key d ≠ key a) ↔ ∀ d ∈ rest, key d ≠ key a := by
          rw [List.forall_mem_cons]
          exact ⟨fun h => h.2, fun h => ⟨ne_of_lt hgt, h⟩⟩
        rw [List.mem_cons, List.mem_cons, ih hrest, hall, or_assoc]
      case isFalse hle =>
        have heq : key c = key a := le_antisymm (not_lt.mp hge) (not_lt.mp hle)
        simp [heq]

theorem mem_insert {s : SortedBy key} {a b : α} :
    b ∈ (s.insert a).elems ↔ b ∈ s.elems ∨ b = a ∧ s.find? (key a) = none := by
  rw [find?_eq_none]
  exact mem_insertList_iff s.sorted

/-- An insertion shows under its own key only, and there only if nothing else was. -/
theorem find?_insert {s : SortedBy key} {a : α} {k : κ} :
    (s.insert a).find? k = if k = key a then some ((s.find? k).getD a) else s.find? k := by
  split
  case isTrue hk =>
    subst hk
    cases hold : s.find? (key a) with
    | none => exact find?_eq_some.mpr ⟨mem_insert.mpr (.inr ⟨rfl, hold⟩), rfl⟩
    | some b =>
      obtain ⟨hin, hkey⟩ := find?_eq_some.mp hold
      exact find?_eq_some.mpr ⟨mem_insert.mpr (.inl hin), hkey⟩
  case isFalse hk =>
    cases hold : s.find? k with
    | none =>
      refine find?_eq_none.mpr fun b hb => ?_
      rcases mem_insert.mp hb with hin | ⟨rfl, _⟩
      · exact find?_eq_none.mp hold b hin
      · exact fun h => hk h.symm
    | some b =>
      obtain ⟨hin, hkey⟩ := find?_eq_some.mp hold
      exact find?_eq_some.mpr ⟨mem_insert.mpr (.inl hin), hkey⟩

theorem find?_modify {s : SortedBy key} {k j : κ} {f : α → α} {hf : ∀ a, key (f a) = key a} :
    (s.modify k f hf).find? j = if j = k then (s.find? k).map f else s.find? j := by
  have hkey : ∀ c, key (if key c = k then f c else c) = key c := fun c => by
    split
    · exact hf c
    · rfl
  simp only [find?, modify, List.find?_map, Function.comp_def, hkey]
  split
  case isTrue hj =>
    subst hj
    cases hfind : s.elems.find? fun a => key a = j with
    | none => rfl
    | some a =>
      have ha : key a = j := by simpa using List.find?_some hfind
      simp [ha]
  case isFalse hj =>
    cases hfind : s.elems.find? fun a => key a = j with
    | none => rfl
    | some a =>
      have ha : key a = j := by simpa using List.find?_some hfind
      simp [ha, hj]

theorem find?_map {β : Type*} {key' : β → κ} {s : SortedBy key} {f : α → β}
    {hf : ∀ a, key' (f a) = key a} {k : κ} : (s.map f hf).find? k = (s.find? k).map f := by
  simp only [find?, map, List.find?_map, Function.comp_def, hf]

theorem mem_erase {s : SortedBy key} {k : κ} {a : α} :
    a ∈ (s.erase k).elems ↔ a ∈ s.elems ∧ key a ≠ k := by
  simp [erase]

/-! ### Filling a container -/

/-- What comes after everything else is put at the end. -/
theorem insertList_last {a : α} {l : List α} (h : ∀ b ∈ l, key b < key a) :
    insertList key a l = l ++ [a] := by
  induction l with
  | nil => rfl
  | cons b rest ih =>
    obtain ⟨hb, hrest⟩ := List.forall_mem_cons.mp h
    unfold insertList
    rw [if_neg (not_lt_of_gt hb), if_pos hb, ih hrest]
    rfl

theorem foldl_insert {s : SortedBy key} {l : List α} (h : (s.elems ++ l).Pairwise (key · < key ·)) :
    (l.foldl insert s).elems = s.elems ++ l := by
  induction l generalizing s with
  | nil => simp
  | cons a rest ih =>
    have hlast : (s.insert a).elems = s.elems ++ [a] := by
      refine insertList_last fun b hb => ?_
      exact (List.pairwise_append.mp h).2.2 b hb a (List.mem_cons_self ..)
    rw [List.foldl_cons, ih (by rw [hlast]; simpa using h), hlast]
    simp

/-- Of several elements with one key, the first is kept. -/
theorem find?_ofList {l : List α} {k : κ} :
    (ofList l : SortedBy key).find? k = l.find? fun a => key a = k := by
  have hfrom : ∀ s : SortedBy key,
      (l.foldl insert s).find? k = (s.find? k).or (l.find? fun a => key a = k) := by
    induction l with
    | nil => simp
    | cons a rest ih =>
      intro s
      rw [List.foldl_cons, ih, find?_insert]
      by_cases hk : k = key a
      · cases hfind : s.find? k <;> simp [hk]
      · rw [if_neg hk, List.find?_cons_of_neg (by simpa using Ne.symm hk)]
  exact hfrom empty

/-- What shares its key with nothing else gets in. -/
theorem mem_ofList {l : List α} {a : α} (h : a ∈ l) (hkey : ∀ b ∈ l, key b = key a → b = a) :
    a ∈ (ofList l : SortedBy key).elems := by
  have hfind : l.find? (fun b => key b = key a) = some a := by
    cases hfound : l.find? fun b => key b = key a with
    | none =>
      have hnot := List.find?_eq_none.mp hfound a h
      simp at hnot
    | some b =>
      have hb : key b = key a := by simpa using List.find?_some hfound
      rw [hkey b (List.mem_of_find?_eq_some hfound) hb]
  exact (find?_eq_some.mp (find?_ofList.trans hfind)).1

/-- A container filled with the elements of another in their order is the other. -/
theorem ofList_elems (s : SortedBy key) : ofList s.elems = s := by
  refine ext ?_
  have hempty : (empty : SortedBy key).elems = [] := rfl
  rw [ofList, foldl_insert (by rw [hempty]; exact s.sorted), hempty, List.nil_append]

end SortedBy
end SimpleHttpServer
