import SimpleHttpServer.Config.Load
import SimpleHttpServer.Lib.Interned
import SimpleHttpServer.Lib.Machine

/-! The registry of variables, by its handles.

`Lookup` and `LookupBase` hand out shared pointers, which the program keeps and changes variables
through, from any thread and in any order. What a lookup answers is settled by the first
`Lookup` with a default value that the registry accepted under the name: all pointers a name was
ever given for are that one, and asking for another type gets a null pointer
(`answer_of_first`). The variable behind it is the default of that first lookup with what was
done through the pointer since (`variable_of_first`). So loading a file through pointers is what
`Config.loadFromYaml` does by name, and whoever held a pointer before sees what the file says
(`handle_loaded`). -/
namespace SimpleHttpServer

/-- The types a program has variables of, with their values, `operator==` and `FromStr`. -/
structure Types (τ : Type) where
  Val : τ → Type
  beq : ∀ t, BEq (Val t)
  fromStr : ∀ t, String → Except Exn (Val t)

/-- A `ConfigVar<T>` as an object, with its `m_name` and its type. -/
structure TypedVar {τ : Type} (Γ : Types τ) (ω : Type) where
  name : String
  type : τ
  var : ConfigVar ω (Γ.Val type)

namespace TypedVar
variable {τ ω : Type} {Γ : Types τ}

/-- The variable as its base class has it. -/
def base (v : TypedVar Γ ω) : ConfigVarBase ω :=
  ⟨v.name, Γ.Val v.type, Γ.beq v.type, Γ.fromStr v.type, v.var⟩

@[simp] theorem base_name (v : TypedVar Γ ω) : v.base.name = v.name := rfl

/-- What one operation on a variable does to it, at any type. -/
abbrev Change (Γ : Types τ) (ω : Type) := ∀ t, ConfigVar ω (Γ.Val t) → ConfigVar ω (Γ.Val t)

def change (v : TypedVar Γ ω) (f : Change Γ ω) : TypedVar Γ ω := {v with var := f v.type v.var}

@[simp] theorem change_name (v : TypedVar Γ ω) (f : Change Γ ω) : (v.change f).name = v.name := rfl

/-- The virtual `fromString`. -/
def fromString (v : TypedVar Γ ω) (val : String) (world : ω) : TypedVar Γ ω :=
  {v with var := (@ConfigVar.fromString ω _ (Γ.beq v.type) (Γ.fromStr v.type) v.var val world).1.1}

@[simp] theorem fromString_name (v : TypedVar Γ ω) (val : String) (world : ω) :
    (v.fromString val world).name = v.name := rfl

theorem fromString_base (v : TypedVar Γ ω) (val : String) (world : ω) :
    (v.fromString val world).base = (v.base.fromString val world).1.1 := rfl

end TypedVar

/-- `Config::GetDatas()`, where a pointer is an address. -/
structure Registry {τ : Type} (Γ : Types τ) (ω : Type) where
  datas : Interned (TypedVar.name : TypedVar Γ ω → String)
  valid : ∀ e ∈ datas.names.elems, validName e.1 = true

namespace Registry
variable {τ ω : Type} {Γ : Types τ}

def empty : Registry Γ ω := ⟨.empty, fun _ h => by cases h⟩

/-- The variable a pointer is to. -/
def get? (r : Registry Γ ω) (p : ℕ) : Option (TypedVar Γ ω) := r.datas.get? p

def lookupBase (r : Registry Γ ω) (name : String) : Option ℕ := r.datas.address name

def insert (r : Registry Γ ω) (v : TypedVar Γ ω) (h : validName v.name = true) : Registry Γ ω :=
  ⟨r.datas.add v, by
    intro e he
    obtain hold | ⟨rfl, -⟩ := SortedBy.mem_insert.mp he
    · exact r.valid e hold
    · exact h⟩

def change (r : Registry Γ ω) (p : ℕ) (f : TypedVar.Change Γ ω) : Registry Γ ω :=
  ⟨r.datas.modify p (·.change f) fun v => v.change_name f, r.valid⟩

/-- What a lookup comes back with. -/
inductive Answer
  | pointer (p : ℕ)
  | null
  | thrown (name : String)
  deriving DecidableEq, Repr

/-- The lookups, and one operation on a variable through a pointer. -/
inductive Action (Γ : Types τ) (ω : Type)
  | lookup (t : τ) (default_value : Γ.Val t) (name : String)
  | find (t : τ) (name : String)
  | lookupBase (name : String)
  | change (p : ℕ) (f : TypedVar.Change Γ ω)

/-- A variable as `Lookup` makes it. -/
def made (t : τ) (default_value : Γ.Val t) (name : String) : TypedVar Γ ω :=
  ⟨name, t, default_value, .empty⟩

section Lookups
variable [DecidableEq τ]

/-- `std::dynamic_pointer_cast<ConfigVar<T>>`. -/
def cast (r : Registry Γ ω) (t : τ) (p : ℕ) : Answer :=
  match r.get? p with
  | some v => if v.type = t then .pointer p else .null
  | none => .null

/-- `Lookup` with a default value. -/
def lookup (r : Registry Γ ω) (t : τ) (default_value : Γ.Val t) (name : String) :
    Registry Γ ω × Answer :=
  match r.lookupBase name with
  | some p => (r, r.cast t p)
  | none =>
    if h : validName name = true then
      (r.insert (made t default_value name) h, .pointer r.datas.objects.length)
    else (r, .thrown name)

/-- `Lookup` without one. -/
def find (r : Registry Γ ω) (t : τ) (name : String) : Answer :=
  match r.lookupBase name with
  | some p => r.cast t p
  | none => .null

/-- Nothing is done through a pointer that is to no variable. -/
def step (r : Registry Γ ω) : Action Γ ω → Option (Registry Γ ω)
  | .lookup t default_value name => some (r.lookup t default_value name).1
  | .find _ _ => some r
  | .lookupBase _ => some r
  | .change p f => if p < r.datas.objects.length then some (r.change p f) else none

def machine (Γ : Types τ) (ω : Type) : Machine (Registry Γ ω) (Action Γ ω) := ⟨step⟩

/-- What an action comes back with. -/
def answer (r : Registry Γ ω) : Action Γ ω → Option Answer
  | .lookup t default_value name => some (r.lookup t default_value name).2
  | .find t name => some (r.find t name)
  | .lookupBase name => some ((r.lookupBase name).elim .null .pointer)
  | .change _ _ => none

end Lookups

/-! ### The first lookup of a name -/

/-- The variable that the first accepted `Lookup` of a name makes, and what happens after it. -/
def first (name : String) : List (Action Γ ω) → Option (TypedVar Γ ω × List (Action Γ ω))
  | [] => none
  | .lookup t default_value n :: rest =>
    if n = name ∧ validName n = true then some (made t default_value n, rest)
    else first name rest
  | _ :: rest => first name rest

/-- What is done through a pointer, one operation after another. -/
def replay (p : ℕ) : List (Action Γ ω) → TypedVar Γ ω → TypedVar Γ ω
  | [], v => v
  | .change q f :: rest, v => replay p rest (if q = p then v.change f else v)
  | _ :: rest, v => replay p rest v

/-- What a lookup is to answer after what happened before it, where `address` has the pointer of
every name. -/
def expected [DecidableEq τ] (address : String → Answer) (before : List (Action Γ ω)) :
    Action Γ ω → Option Answer
  | .lookup t _ name =>
    some ((first name before).elim (if validName name = true then address name else .thrown name)
      fun m => if m.1.type = t then address name else .null)
  | .find t name =>
    some ((first name before).elim .null fun m => if m.1.type = t then address name else .null)
  | .lookupBase name => some ((first name before).elim .null fun _ => address name)
  | .change _ _ => none

/-- The pointer that a registry has for a name. -/
def pointer (r : Registry Γ ω) (name : String) : Answer := (r.lookupBase name).elim .null .pointer

theorem pointer_of_some {r : Registry Γ ω} {name : String} {p : ℕ} (h : r.lookupBase name = some p) :
    r.pointer name = .pointer p := by
  unfold pointer
  rw [h]
  rfl

theorem first_lookup (name n : String) (t : τ) (default_value : Γ.Val t)
    (rest : List (Action Γ ω)) :
    first name (.lookup t default_value n :: rest) =
      if n = name ∧ validName n = true then some (made t default_value n, rest)
      else first name rest := rfl

theorem first_cons (name : String) (a : Action Γ ω) (rest : List (Action Γ ω)) :
    first name (a :: rest) =
      (first name [a]).elim (first name rest) fun m => some (m.1, rest) := by
  cases a with
  | lookup t default_value n =>
    by_cases hn : n = name ∧ validName n = true
    · rw [first_lookup, first_lookup, if_pos hn, if_pos hn]
      rfl
    · rw [first_lookup, first_lookup, if_neg hn, if_neg hn]
      rfl
  | find t n => rfl
  | lookupBase n => rfl
  | change p f => rfl

theorem replay_cons (p : ℕ) (a : Action Γ ω) (rest : List (Action Γ ω)) (v : TypedVar Γ ω) :
    replay p (a :: rest) v = replay p rest (replay p [a] v) := by
  cases a <;> rfl

theorem replay_name (p : ℕ) (acts : List (Action Γ ω)) (v : TypedVar Γ ω) :
    (replay p acts v).name = v.name ∧ (replay p acts v).type = v.type := by
  induction acts generalizing v with
  | nil => exact ⟨rfl, rfl⟩
  | cons a rest ih =>
    cases a with
    | change q f =>
      obtain ⟨hname, htype⟩ := ih (if q = p then v.change f else v)
      unfold replay
      rw [hname, htype]
      split
      · exact ⟨rfl, rfl⟩
      · exact ⟨rfl, rfl⟩
    | lookup t default_value n => exact ih v
    | find t n => exact ih v
    | lookupBase n => exact ih v

section Runs
variable [DecidableEq τ]

theorem lookup_of_some {r : Registry Γ ω} {t : τ} {default_value : Γ.Val t} {name : String} {p : ℕ}
    (h : r.lookupBase name = some p) : r.lookup t default_value name = (r, r.cast t p) := by
  unfold lookup
  rw [h]

theorem lookup_of_none {r : Registry Γ ω} {t : τ} {default_value : Γ.Val t} {name : String}
    (h : r.lookupBase name = none) (hvalid : validName name = true) :
    r.lookup t default_value name =
      (r.insert (made t default_value name) hvalid, .pointer r.datas.objects.length) := by
  unfold lookup
  rw [h]
  exact dif_pos hvalid

theorem lookup_of_invalid {r : Registry Γ ω} {t : τ} {default_value : Γ.Val t} {name : String}
    (h : r.lookupBase name = none) (hvalid : ¬ validName name = true) :
    r.lookup t default_value name = (r, .thrown name) := by
  unfold lookup
  rw [h]
  exact dif_neg hvalid

/-- Everything that an action can do to a registry. -/
inductive Does (r : Registry Γ ω) : Action Γ ω → Registry Γ ω → Prop
  | nothing {a : Action Γ ω} (made : ∀ name, r.lookupBase name = none → first name [a] = none)
      (changed : ∀ p v, replay p [a] v = v) : Does r a r
  | insert {t : τ} {default_value : Γ.Val t} {name : String} (new : r.lookupBase name = none)
      (valid : validName name = true) :
      Does r (.lookup t default_value name) (r.insert (made t default_value name) valid)
  | change {p : ℕ} {f : TypedVar.Change Γ ω} (inside : p < r.datas.objects.length) :
      Does r (.change p f) (r.change p f)

theorem step_does {r s : Registry Γ ω} {a : Action Γ ω} (h : (machine Γ ω).step r a = some s) :
    Does r a s := by
  cases a with
  | lookup t default_value n =>
    have hs : (r.lookup t default_value n).1 = s := Option.some.inj h
    cases hn : r.lookupBase n with
    | some p =>
      rw [lookup_of_some hn] at hs
      cases hs
      apply Does.nothing
      · intro name hname
        apply if_neg
        rintro ⟨rfl, -⟩
        cases hn.symm.trans hname
      · exact fun _ _ => rfl
    | none =>
      by_cases hvalid : validName n = true
      · rw [lookup_of_none hn hvalid] at hs
        cases hs
        exact .insert hn hvalid
      · rw [lookup_of_invalid hn hvalid] at hs
        cases hs
        apply Does.nothing
        · exact fun name _ => if_neg fun h => hvalid h.2
        · exact fun _ _ => rfl
  | find t n =>
    cases h
    exact .nothing (fun _ _ => rfl) fun _ _ => rfl
  | lookupBase n =>
    cases h
    exact .nothing (fun _ _ => rfl) fun _ _ => rfl
  | change p f =>
    obtain ⟨hinside, hs⟩ := Option.ite_none_right_eq_some.mp h
    cases hs
    exact .change hinside

/-- A name that has a pointer keeps it, and what is done through the pointer is done to its
variable. -/
theorem step_of_some {r s : Registry Γ ω} {a : Action Γ ω} (h : (machine Γ ω).step r a = some s)
    {name : String} {p : ℕ} (hp : r.lookupBase name = some p) :
    s.lookupBase name = some p ∧ s.datas.find? name = (r.datas.find? name).map (replay p [a]) := by
  cases step_does h with
  | nothing hmade hchanged =>
    refine ⟨hp, ?_⟩
    have hid : replay p [a] = id := funext (hchanged p)
    rw [hid, Option.map_id]
    rfl
  | insert hnew hvalid =>
    rename_i t default_value n
    have hne : name ≠ n := by
      rintro rfl
      cases hp.symm.trans hnew
    refine ⟨Interned.address_add_of_some hp, ?_⟩
    have hid : replay p [(.lookup t default_value n : Action Γ ω)] = id := rfl
    rw [hid, Option.map_id]
    exact Interned.find?_add.trans (if_neg hne)
  | change hinside =>
    rename_i q f
    refine ⟨hp, ?_⟩
    have hreplay : replay p [.change q f] = fun v => if q = p then v.change f else v := rfl
    rw [hreplay]
    have hfind : (r.datas.modify q (·.change f) fun v => v.change_name f).find? name =
        _ :=
      Interned.find?_modify_of_address hp
    refine hfind.trans ?_
    split
    · rfl
    · exact Option.map_id_apply.symm

theorem step_of_none {r s : Registry Γ ω} {a : Action Γ ω} (h : (machine Γ ω).step r a = some s)
    {name : String} (hnone : r.lookupBase name = none) :
    s.datas.find? name = (first name [a]).map (·.1) := by
  cases step_does h with
  | nothing hmade hchanged =>
    rw [hmade name hnone]
    exact Interned.find?_eq_none.mpr hnone
  | insert hnew hvalid =>
    rename_i t default_value n
    have hfind := Interned.find?_eq_none.mpr hnone
    have hadd : (r.insert (made t default_value n) hvalid).datas.find? name =
        if name = n then some ((r.datas.find? name).getD (made t default_value n))
        else r.datas.find? name := Interned.find?_add
    rw [hadd, hfind]
    by_cases hn : n = name
    · rw [first_lookup, if_pos hn.symm, if_pos ⟨hn, hvalid⟩]
      rfl
    · rw [first_lookup, if_neg (Ne.symm hn), if_neg fun h => hn h.1]
      rfl
  | change hinside =>
    exact Interned.find?_eq_none.mpr hnone

theorem run_of_some {r s : Registry Γ ω} {acts : List (Action Γ ω)}
    (h : (machine Γ ω).run r acts = some s) {name : String} {p : ℕ}
    (hp : r.lookupBase name = some p) :
    s.lookupBase name = some p ∧ s.datas.find? name = (r.datas.find? name).map (replay p acts) := by
  induction acts generalizing r with
  | nil =>
    cases h
    exact ⟨hp, Option.map_id_apply.symm⟩
  | cons a rest ih =>
    obtain ⟨u, hu, hrest⟩ := (machine Γ ω).run_cons.mp h
    obtain ⟨hkept, hfind⟩ := step_of_some hu hp
    obtain ⟨hlast, hlastFind⟩ := ih hrest hkept
    refine ⟨hlast, ?_⟩
    have hreplay : replay p (a :: rest) = replay p rest ∘ replay p [a] := funext (replay_cons p a rest)
    rw [hlastFind, hfind, Option.map_map, hreplay]

/-- Nothing else makes a variable than the first accepted lookup, and nothing but what is done
through its pointer changes it. -/
theorem run_of_none {r s : Registry Γ ω} {acts : List (Action Γ ω)}
    (h : (machine Γ ω).run r acts = some s) {name : String} (hnone : r.lookupBase name = none) :
    (first name acts = none → s.lookupBase name = none) ∧
      ∀ v after, first name acts = some (v, after) →
        ∃ p, s.lookupBase name = some p ∧ s.get? p = some (replay p after v) := by
  induction acts generalizing r with
  | nil =>
    cases h
    exact ⟨fun _ => hnone, fun _ _ hfirst => (nomatch hfirst)⟩
  | cons a rest ih =>
    obtain ⟨u, hu, hrest⟩ := (machine Γ ω).run_cons.mp h
    have hfind := step_of_none hu hnone
    rw [first_cons]
    cases hmade : first name [a] with
    | none =>
      rw [hmade] at hfind
      exact ih hrest (Interned.find?_eq_none.mp hfind)
    | some m =>
      rw [hmade] at hfind
      obtain ⟨p, hp, -⟩ := Option.bind_eq_some_iff.mp hfind
      obtain ⟨hkept, hreplay⟩ := run_of_some hrest hp
      refine ⟨fun hnot => (nomatch hnot), fun v after hfirst => ⟨p, hkept, ?_⟩⟩
      cases hfirst
      have hget : s.datas.find? name = s.get? p := Interned.find?_of_address hkept
      rw [← hget, hreplay, hfind]
      rfl

/-- The variable of a name is the one its first accepted `Lookup` made, with what was done since
through the pointer that it was given out under; that pointer is no other name's. -/
theorem variable_of_first (acts : List (Action Γ ω)) (r : Registry Γ ω)
    (hrun : (machine Γ ω).run empty acts = some r) (name : String) :
    (first name acts = none → r.lookupBase name = none) ∧
      ∀ v after, first name acts = some (v, after) →
        ∃ p, r.lookupBase name = some p ∧ (∀ n, r.lookupBase n = some p → n = name) ∧
          r.get? p = some (replay p after v) := by
  have hempty : (empty : Registry Γ ω).lookupBase name = none := rfl
  obtain ⟨hnone, hsome⟩ := run_of_none hrun hempty
  refine ⟨hnone, fun v after hfirst => ?_⟩
  obtain ⟨p, hp, hget⟩ := hsome v after hfirst
  exact ⟨p, hp, fun n hn => Interned.address_injective hn hp, hget⟩

theorem cast_of_first {r : Registry Γ ω} {acts : List (Action Γ ω)}
    (h : (machine Γ ω).run empty acts = some r) {name : String} {p : ℕ}
    (hp : r.lookupBase name = some p) :
    ∃ v after, first name acts = some (v, after) ∧
      ∀ t, r.cast t p = if v.type = t then .pointer p else .null := by
  have hempty : (empty : Registry Γ ω).lookupBase name = none := rfl
  obtain ⟨hnone, hsome⟩ := run_of_none h hempty
  cases hfirst : first name acts with
  | none => cases hp.symm.trans (hnone hfirst)
  | some m =>
    obtain ⟨q, hq, hget⟩ := hsome m.1 m.2 hfirst
    cases hp.symm.trans hq
    refine ⟨m.1, m.2, rfl, fun t => ?_⟩
    unfold cast
    rw [hget]
    simp only [(replay_name p m.2 m.1).2]

/-- What a lookup answers is settled by the first accepted lookup of the name before it: the one
pointer of the name, if the types agree. -/
theorem answer_of_first (before : List (Action Γ ω)) (a : Action Γ ω) (after : List (Action Γ ω))
    (r s : Registry Γ ω) (hbefore : (machine Γ ω).run empty before = some r)
    (hrun : (machine Γ ω).run r (a :: after) = some s) :
    answer r a = expected s.pointer before a := by
  have hpointer : ∀ name p, r.lookupBase name = some p → s.pointer name = .pointer p :=
    fun name p hp => pointer_of_some (run_of_some hrun hp).1
  have hcast : ∀ name p, r.lookupBase name = some p →
      ∃ v after, first name before = some (v, after) ∧
        ∀ t, r.cast t p = if v.type = t then s.pointer name else .null := by
    intro name p hp
    rw [hpointer name p hp]
    exact cast_of_first hbefore hp
  have hnone : ∀ name, r.lookupBase name = none → first name before = none := by
    intro name hp
    cases hfirst : first name before with
    | none => rfl
    | some m =>
      have hempty : (empty : Registry Γ ω).lookupBase name = none := rfl
      obtain ⟨p, hsome, -⟩ := (run_of_none hbefore hempty).2 m.1 m.2 hfirst
      cases hp.symm.trans hsome
  cases a with
  | lookup t default_value name =>
    show some (r.lookup t default_value name).2 = some ((first name before).elim _ _)
    cases hp : r.lookupBase name with
    | some p =>
      obtain ⟨v, after, hfirst, htype⟩ := hcast name p hp
      rw [lookup_of_some hp, hfirst]
      exact congrArg some (htype t)
    | none =>
      rw [hnone name hp]
      by_cases hvalid : validName name = true
      · obtain ⟨u, hu, hrest⟩ := (machine Γ ω).run_cons.mp hrun
        have hmade : (r.lookup t default_value name).1 = u := Option.some.inj hu
        rw [lookup_of_none hp hvalid] at hmade ⊢
        have hnew : u.lookupBase name = some r.datas.objects.length := by
          rw [← hmade]
          exact Interned.address_add_new hp
        have hlast := pointer_of_some (run_of_some hrest hnew).1
        exact congrArg some (hlast.symm.trans (if_pos hvalid).symm)
      · rw [lookup_of_invalid hp hvalid]
        exact congrArg some (if_neg hvalid).symm
  | find t name =>
    show some (r.find t name) = some ((first name before).elim _ _)
    unfold find
    cases hp : r.lookupBase name with
    | some p =>
      obtain ⟨v, after, hfirst, htype⟩ := hcast name p hp
      rw [hfirst]
      exact congrArg some (htype t)
    | none =>
      rw [hnone name hp]
      rfl
  | lookupBase name =>
    show some ((r.lookupBase name).elim _ _) = some ((first name before).elim _ _)
    cases hp : r.lookupBase name with
    | some p =>
      obtain ⟨v, after, hfirst, -⟩ := hcast name p hp
      rw [hfirst]
      exact congrArg some (hpointer name p hp).symm
    | none =>
      rw [hnone name hp]
      rfl
  | change p f => rfl

end Runs
/-! ### By name -/

/-- The registry as it is by name. -/
def view (r : Registry Γ ω) : Config ω where
  datas := r.datas.view.map TypedVar.base TypedVar.base_name
  valid := by
    intro v hv
    obtain ⟨w, hw, rfl⟩ := List.mem_map.mp hv
    obtain ⟨e, he, hget⟩ := List.mem_filterMap.mp hw
    obtain ⟨a, ha, hlabel⟩ := Interned.find?_isSome he
    cases ha.symm.trans hget
    have hname : w.base.name = e.1 := hlabel
    rw [hname]
    exact r.valid e he

/-- `var->fromString(val)` through a pointer. -/
def assign (r : Registry Γ ω) (p : ℕ) (val : String) (world : ω) : Registry Γ ω :=
  ⟨r.datas.modify p (·.fromString val world) fun v => v.fromString_name val world, r.valid⟩

def fromString (s : Registry Γ ω × ω) (p : ℕ) (val : String) : Registry Γ ω × ω :=
  match s.1.get? p with
  | none => s
  | some v => (s.1.assign p val s.2, (v.base.fromString val s.2).2)

/-- The body of the loop over the flat names, with the pointer that `LookupBase` answers. -/
def load (Y : YamlCpp) (s : Registry Γ ω × ω) (i : String × Node) : Registry Γ ω × ω :=
  if i.1.isEmpty then s
  else
    match s.1.lookupBase i.1.toLower with
    | none => s
    | some var => fromString s var (Config.nodeText Y i.2)

def loadFromYaml (Y : YamlCpp) (root : Node) (s : Registry Γ ω × ω) : Registry Γ ω × ω :=
  (listAllMember "" root).foldl (load Y) s

theorem lookupBase_view (r : Registry Γ ω) (name : String) :
    r.view.lookupBase name = (r.datas.find? name).map TypedVar.base := by
  have hmap : (r.datas.view.map TypedVar.base TypedVar.base_name).find? name = _ :=
    SortedBy.find?_map
  rw [Interned.find?_view] at hmap
  exact hmap

theorem view_ext {c d : Config ω} (h : ∀ name, c.lookupBase name = d.lookupBase name) : c = d := by
  obtain ⟨cs, _⟩ := c
  obtain ⟨ds, _⟩ := d
  obtain rfl : cs = ds := SortedBy.ext_find? h
  rfl

/-- `Lookup` by name: the registry of a name that is refused stays as it is. -/
theorem lookup_view [DecidableEq τ] (r : Registry Γ ω) (t : τ) (default_value : Γ.Val t)
    (name : String) :
    r.view.lookup (made t default_value name).base =
      if r.lookupBase name = none ∧ ¬ validName name = true then .error name
      else .ok (r.lookup t default_value name).1.view := by
  have hfind : r.view.datas.find? (made t default_value name : TypedVar Γ ω).base.name =
      (r.datas.find? name).map TypedVar.base := lookupBase_view r name
  unfold Config.lookup
  cases hp : r.lookupBase name with
  | some p =>
    obtain ⟨v, hv, -⟩ := Interned.get?_address hp
    have hsome : r.datas.find? name = some v := (Interned.find?_of_address hp).trans hv
    rw [hsome] at hfind
    rw [hfind, lookup_of_some hp, if_neg fun h => nomatch h.1]
    rfl
  | none =>
    have hnone : r.datas.find? name = none := Interned.find?_eq_none.mpr hp
    rw [hnone] at hfind
    rw [hfind]
    by_cases hvalid : validName name = true
    · rw [lookup_of_none hp hvalid, if_neg fun h => h.2 hvalid]
      refine (dif_pos hvalid).trans (congrArg Except.ok (view_ext fun k => ?_))
      rw [lookupBase_view]
      have hadd : (r.insert (made t default_value name) hvalid).datas.find? k = _ :=
        Interned.find?_add
      rw [hadd]
      have hinsert := SortedBy.find?_insert (s := r.view.datas)
        (a := (made t default_value name : TypedVar Γ ω).base) (k := k)
      refine hinsert.trans ?_
      have hk : r.view.datas.find? k = (r.datas.find? k).map TypedVar.base := lookupBase_view r k
      rw [hk]
      show (if k = name then _ else _) = Option.map _ (if k = name then _ else _)
      split
      · cases r.datas.find? k <;> rfl
      · rfl
    · rw [lookup_of_invalid hp hvalid, if_pos ⟨rfl, hvalid⟩]
      exact dif_neg hvalid

theorem assign_view {r : Registry Γ ω} {name : String} {p : ℕ} (h : r.lookupBase name = some p)
    (val : String) (world : ω) : (r.assign p val world).view = r.view.assign name val world := by
  apply view_ext
  intro k
  rw [Config.lookupBase_assign, lookupBase_view, lookupBase_view, lookupBase_view]
  have hassign : (r.datas.modify p (·.fromString val world)
      fun v => v.fromString_name val world).find? k = _ := Interned.find?_modify h k
  have hfind : (r.assign p val world).datas.find? k = _ := hassign
  rw [hfind]
  split
  · rw [Option.map_map, Option.map_map]
    rfl
  · rfl

theorem load_view (Y : YamlCpp) (s : Registry Γ ω × ω) (i : String × Node) :
    ((load Y s i).1.view, (load Y s i).2) = Config.load Y (s.1.view, s.2) i := by
  unfold load Config.load
  split
  · rfl
  · dsimp only
    rw [lookupBase_view]
    cases hp : s.1.lookupBase i.1.toLower with
    | none =>
      rw [Interned.find?_eq_none.mpr hp]
      rfl
    | some p =>
      obtain ⟨v, hv, -⟩ := Interned.get?_address hp
      rw [Interned.find?_of_address hp, hv]
      have hfrom : fromString s p (Config.nodeText Y i.2) =
          (s.1.assign p (Config.nodeText Y i.2) s.2,
            (v.base.fromString (Config.nodeText Y i.2) s.2).2) := by
        unfold fromString get?
        rw [hv]
      dsimp only
      rw [hfrom, assign_view hp]
      rfl

theorem load_lookupBase (Y : YamlCpp) (s : Registry Γ ω × ω) (i : String × Node) (name : String) :
    (load Y s i).1.lookupBase name = s.1.lookupBase name := by
  unfold load
  split
  · rfl
  · split
    · rfl
    · unfold fromString
      split
      · rfl
      · rfl

/-- Loading through pointers is loading by name. -/
theorem loadFromYaml_view (Y : YamlCpp) (root : Node) (s : Registry Γ ω × ω) :
    ((loadFromYaml Y root s).1.view, (loadFromYaml Y root s).2) =
      Config.loadFromYaml Y root (s.1.view, s.2) := by
  unfold loadFromYaml Config.loadFromYaml
  induction listAllMember "" root generalizing s with
  | nil => rfl
  | cons i rest ih =>
    rw [List.foldl_cons, List.foldl_cons, ← load_view]
    exact ih (load Y s i)

theorem loadFromYaml_lookupBase (Y : YamlCpp) (root : Node) (s : Registry Γ ω × ω) (name : String) :
    (loadFromYaml Y root s).1.lookupBase name = s.1.lookupBase name := by
  unfold loadFromYaml
  induction listAllMember "" root generalizing s with
  | nil => rfl
  | cons i rest ih =>
    rw [List.foldl_cons, ih, load_lookupBase]

/-- A pointer that was given out before any number of files are loaded is to the variable that
loading them by name makes of its name. -/
theorem handle_loaded (Y : YamlCpp) (files : List Node) (r : Registry Γ ω) (world : ω)
    (name : String) (p : ℕ) (h : r.lookupBase name = some p) :
    ((files.foldl (fun s root => loadFromYaml Y root s) (r, world)).1.get? p).map TypedVar.base =
      (files.foldl (fun s root => Config.loadFromYaml Y root s) (r.view, world)).1.lookupBase
        name := by
  induction files generalizing r world with
  | nil =>
    have hfind : r.datas.find? name = r.get? p := Interned.find?_of_address h
    show (r.get? p).map _ = r.view.lookupBase name
    rw [lookupBase_view, hfind]
  | cons root rest ih =>
    rw [List.foldl_cons, List.foldl_cons, ← loadFromYaml_view Y root (r, world)]
    exact ih _ _ ((loadFromYaml_lookupBase Y root (r, world) name).trans h)

/-! ### A program with a flag -/

/-- Flags and lists of them. -/
def flags : Types Bool where
  Val
    | true => Bool
    | false => List Bool
  beq
    | true => inferInstanceAs (BEq Bool)
    | false => inferInstanceAs (BEq (List Bool))
  fromStr
    | true => Lexical.bool.fromStr
    | false => (Lexical.vector Flow.yaml Lexical.bool).fromStr

/-- What setting a flag does to its variable. -/
def setFlag : TypedVar.Change flags Unit
  | true, v => {v with val := true}
  | false, v => v

/-- A flag is looked up and set. -/
def flagSet : List (Action flags Unit) := [.lookup true false "system.debug", .change 0 setFlag]

theorem variable_of_first_flag :
    ∃ r p, (machine flags Unit).run empty flagSet = some r ∧ r.lookupBase "system.debug" = some p ∧
      r.get? p = some (replay p [.change 0 setFlag] (made true false "system.debug")) := by
  obtain ⟨r, hr⟩ := Option.isSome_iff_exists.mp
    (by decide : ((machine flags Unit).run empty flagSet).isSome = true)
  obtain ⟨p, hp, -, hget⟩ := (variable_of_first flagSet r hr "system.debug").2 _ _ rfl
  exact ⟨r, p, hr, hp, hget⟩

/-- Asked for a list under the name of the flag, the registry has none. -/
theorem answer_of_first_flag :
    ∃ r, (machine flags Unit).run empty flagSet = some r ∧
      answer r (.find false "system.debug") = some .null := by
  obtain ⟨r, hr⟩ := Option.isSome_iff_exists.mp
    (by decide : ((machine flags Unit).run empty flagSet).isSome = true)
  exact ⟨r, hr, answer_of_first flagSet (.find false "system.debug") [] r r hr rfl⟩

/-- A file sets the flag, and whoever has its pointer finds it set. -/
theorem handle_loaded_flag :
    let r : Registry flags Unit := empty.insert (made true false "system.debug") (by decide)
    ((loadFromYaml Flow.yaml Config.systemTree (r, ())).1.get? 0).map TypedVar.base =
      some (made true true "system.debug" : TypedVar flags Unit).base := by
  intro r
  refine (handle_loaded Flow.yaml [Config.systemTree] r () "system.debug" 0 rfl).trans ?_
  have hnames : listAllMember "" Config.systemTree = [("", Config.systemTree),
      ("system", .map [(.scalar "debug", .scalar "1")]), ("system.debug", .scalar "1")] := rfl
  have hlower : "system.debug".toLower = "system.debug" := Config.toLower_of_valid (by decide)
  have hsystem : "system".toLower = "system" := Config.toLower_of_valid (by decide)
  rw [List.foldl_cons, List.foldl_nil, Config.loadFromYaml, hnames]
  simp only [List.foldl_cons, List.foldl_nil, Config.load, hlower, hsystem]
  rfl

end Registry
end SimpleHttpServer
