import SimpleHttpServer.Lib.SortedBy

/-! Objects that are made once for a name.

A table of names hands out the addresses of objects: whoever asks for a name first makes its
object, and everyone after is given the same address. Objects are changed through their
addresses, by whoever holds one. `Interned label` is such a table with what keeps it together
in its type: an address that a name has is that of an object with the name for its label. So
names never share an object (`address_injective`), and what is done through an address is done
to one name (`find?_modify`). -/
namespace SimpleHttpServer

structure Interned {κ α : Type*} (label : α → κ) [LinearOrder κ] where
  objects : List α
  names : SortedBy (Prod.fst : κ × ℕ → κ)
  labelled : ∀ e ∈ names.elems, (objects[e.2]?).map label = some e.1

namespace Interned
variable {κ α : Type*} {label : α → κ} [LinearOrder κ]

def empty : Interned label := ⟨[], .empty, fun _ h => by cases h⟩

/-- The object at an address. -/
def get? (s : Interned label) (p : ℕ) : Option α := s.objects[p]?

/-- The address of a name. -/
def address (s : Interned label) (k : κ) : Option ℕ := (s.names.find? k).map (·.2)

/-- The object of a name. -/
def find? (s : Interned label) (k : κ) : Option α := (s.address k).bind s.get?

/-- A new object, known by its label where nothing else is. -/
def add (s : Interned label) (a : α) : Interned label where
  objects := s.objects ++ [a]
  names := s.names.insert (label a, s.objects.length)
  labelled := by
    intro e he
    obtain hold | ⟨rfl, -⟩ := SortedBy.mem_insert.mp he
    · obtain ⟨b, hb, hlabel⟩ := Option.map_eq_some_iff.mp (s.labelled e hold)
      have hlt : e.2 < s.objects.length := (List.getElem?_eq_some_iff.mp hb).1
      rw [List.getElem?_append_left hlt, hb]
      exact congrArg some hlabel
    · rw [List.getElem?_concat_length]
      rfl

/-- Change the object at an address. -/
def modify (s : Interned label) (p : ℕ) (f : α → α) (hf : ∀ a, label (f a) = label a) :
    Interned label where
  objects := s.objects.modify p f
  names := s.names
  labelled := by
    intro e he
    obtain ⟨a, ha, hlabel⟩ := Option.map_eq_some_iff.mp (s.labelled e he)
    rw [List.getElem?_modify, ha]
    show some (label (if p = e.2 then f a else a)) = some e.1
    split
    · rw [hf, hlabel]
    · rw [hlabel]

/-! ### Addresses -/

theorem address_eq_some {s : Interned label} {k : κ} {p : ℕ} :
    s.address k = some p ↔ (k, p) ∈ s.names.elems := by
  unfold address
  rw [Option.map_eq_some_iff]
  constructor
  · rintro ⟨⟨k', p'⟩, he, rfl⟩
    obtain ⟨hin, rfl⟩ := SortedBy.find?_eq_some.mp he
    exact hin
  · intro h
    exact ⟨(k, p), SortedBy.find?_eq_some.mpr ⟨h, rfl⟩, rfl⟩

/-- At the address of a name there is an object, labelled with the name. -/
theorem get?_address {s : Interned label} {k : κ} {p : ℕ} (h : s.address k = some p) :
    ∃ a, s.get? p = some a ∧ label a = k :=
  Option.map_eq_some_iff.mp (s.labelled (k, p) (address_eq_some.mp h))

theorem find?_of_address {s : Interned label} {k : κ} {p : ℕ} (h : s.address k = some p) :
    s.find? k = s.get? p := by
  unfold find?
  rw [h]
  rfl

theorem find?_eq_none {s : Interned label} {k : κ} : s.find? k = none ↔ s.address k = none := by
  unfold find?
  cases h : s.address k with
  | none => exact iff_of_true rfl rfl
  | some p =>
    obtain ⟨a, ha, -⟩ := get?_address h
    simp [ha]

theorem label_find? {s : Interned label} {k : κ} {a : α} (h : s.find? k = some a) : label a = k := by
  obtain ⟨p, hp, ha⟩ := Option.bind_eq_some_iff.mp h
  obtain ⟨b, hb, hlabel⟩ := get?_address hp
  cases ha.symm.trans hb
  exact hlabel

/-- Two names never have one address. -/
theorem address_injective {s : Interned label} {k j : κ} {p : ℕ} (hk : s.address k = some p)
    (hj : s.address j = some p) : k = j := by
  obtain ⟨a, ha, hlabel⟩ := get?_address hk
  obtain ⟨b, hb, hlabel'⟩ := get?_address hj
  cases ha.symm.trans hb
  exact hlabel.symm.trans hlabel'

/-! ### What the operations come to -/

@[simp] theorem address_modify {s : Interned label} {p : ℕ} {f : α → α}
    {hf : ∀ a, label (f a) = label a} (k : κ) : (s.modify p f hf).address k = s.address k := rfl

theorem address_add {s : Interned label} {a : α} {k : κ} :
    (s.add a).address k =
      if k = label a then some ((s.address k).getD s.objects.length) else s.address k := by
  unfold address add
  rw [SortedBy.find?_insert]
  split
  · cases s.names.find? k <;> rfl
  · rfl

/-- A name keeps its address. -/
theorem address_add_of_some {s : Interned label} {a : α} {k : κ} {p : ℕ}
    (h : s.address k = some p) : (s.add a).address k = some p := by
  rw [address_add, h]
  exact ite_self _

theorem address_add_new {s : Interned label} {a : α} (h : s.address (label a) = none) :
    (s.add a).address (label a) = some s.objects.length := by
  rw [address_add, if_pos rfl, h]
  rfl

theorem get?_add {s : Interned label} {a : α} {p : ℕ} :
    (s.add a).get? p = if p = s.objects.length then some a else s.get? p := by
  show (s.objects ++ [a])[p]? = _
  split
  case isTrue hp =>
    rw [hp]
    exact List.getElem?_concat_length
  case isFalse hp =>
    by_cases hlt : p < s.objects.length
    · exact List.getElem?_append_left hlt
    · have hnone : s.get? p = none := List.getElem?_eq_none (by omega)
      rw [hnone]
      apply List.getElem?_eq_none
      rw [List.length_append, List.length_singleton]
      omega

theorem get?_modify {s : Interned label} {p q : ℕ} {f : α → α} {hf : ∀ a, label (f a) = label a} :
    (s.modify p f hf).get? q = if p = q then (s.get? q).map f else s.get? q := by
  show (s.objects.modify p f)[q]? = _
  by_cases hq : p = q
  · rw [if_pos hq, hq, List.getElem?_modify_eq]
    rfl
  · rw [if_neg hq, List.getElem?_modify_ne f s.objects hq]
    rfl

theorem get?_add_of_some {s : Interned label} {a b : α} {p : ℕ} (h : s.get? p = some b) :
    (s.add a).get? p = some b := by
  have hlt : p < s.objects.length := (List.getElem?_eq_some_iff.mp h).1
  rw [get?_add, if_neg (Nat.ne_of_lt hlt)]
  exact h

theorem find?_add {s : Interned label} {a : α} {k : κ} :
    (s.add a).find? k = if k = label a then some ((s.find? k).getD a) else s.find? k := by
  cases hk : s.address k with
  | some p =>
    obtain ⟨b, hb, -⟩ := get?_address hk
    rw [find?_of_address (address_add_of_some hk), find?_of_address hk, get?_add_of_some hb, hb]
    exact (ite_self _).symm
  | none =>
    rw [find?_eq_none.mpr hk]
    split
    case isTrue heq =>
      subst heq
      rw [find?_of_address (address_add_new hk), get?_add, if_pos rfl]
      rfl
    case isFalse hne =>
      rw [find?_eq_none, address_add, if_neg hne]
      exact hk

theorem find?_modify_of_address {s : Interned label} {p q : ℕ} {f : α → α}
    {hf : ∀ a, label (f a) = label a} {k : κ} (h : s.address k = some q) :
    (s.modify p f hf).find? k = if p = q then (s.find? k).map f else s.find? k := by
  have hmodified : (s.modify p f hf).address k = some q := h
  rw [find?_of_address hmodified, find?_of_address h]
  exact get?_modify

/-- What is done through an address is done to its name, and to no other. -/
theorem find?_modify {s : Interned label} {p : ℕ} {f : α → α} {hf : ∀ a, label (f a) = label a}
    {k : κ} (h : s.address k = some p) (j : κ) :
    (s.modify p f hf).find? j = if j = k then (s.find? k).map f else s.find? j := by
  split
  case isTrue hj =>
    rw [hj, find?_modify_of_address h, if_pos rfl]
  case isFalse hj =>
    cases hq : s.address j with
    | none =>
      have hsame : (s.modify p f hf).address j = none := hq
      rw [find?_eq_none.mpr hq, find?_eq_none.mpr hsame]
    | some q =>
      rw [find?_modify_of_address hq, if_neg]
      rintro rfl
      exact hj (address_injective hq h)

/-! ### The objects, by name -/

theorem find?_isSome {s : Interned label} {e : κ × ℕ} (h : e ∈ s.names.elems) :
    ∃ a, s.get? e.2 = some a ∧ label a = e.1 := get?_address (address_eq_some.mpr h)

/-- The objects in the order of their names. -/
def view (s : Interned label) : SortedBy label where
  elems := s.names.elems.filterMap fun e => s.get? e.2
  sorted := by
    refine List.pairwise_filterMap.mpr (s.names.sorted.imp_of_mem ?_)
    intro e e' he he' hlt a ha b hb
    obtain ⟨a', ha', hlabel⟩ := find?_isSome he
    obtain ⟨b', hb', hlabel'⟩ := find?_isSome he'
    cases ha.symm.trans ha'
    cases hb.symm.trans hb'
    rw [hlabel, hlabel']
    exact hlt

theorem find?_view (s : Interned label) (k : κ) : s.view.find? k = s.find? k := by
  apply Option.ext
  intro a
  rw [SortedBy.find?_eq_some, view, List.mem_filterMap]
  constructor
  · rintro ⟨⟨e, he, ha⟩, rfl⟩
    obtain ⟨b, hb, hlabel⟩ := find?_isSome he
    cases ha.symm.trans hb
    rw [hlabel, find?_of_address (address_eq_some.mpr he)]
    exact ha
  · intro h
    obtain ⟨p, hp, ha⟩ := Option.bind_eq_some_iff.mp h
    exact ⟨⟨(k, p), address_eq_some.mp hp, ha⟩, label_find? h⟩

end Interned
end SimpleHttpServer
