import SimpleHttpServer.Config.ConfigVar

/-! Who has been told of a change.

A variable whose listeners are traced notes each call of a listener in the world,
with whether it returned. `setValue` calls them in the order of their ids and
stores the value behind the last, so a listener that throws leaves the value as it
was, and leaves the listeners before it told of one the variable does not take. -/
namespace SimpleHttpServer

/-- A listener whose calls are noted behind those made before, once they are over. -/
def Listener.traced {ω T α : Type} (note : T → T → Except Exn Unit → α) (cb : Listener ω T) :
    Listener (ω × List α) T := fun old new s =>
  match cb old new s.1 with
  | (r, world) => (r, (world, s.2 ++ [note old new r]))

/-- A call of a listener: its id, what it was told, and whether it returned normally. -/
structure Call (T : Type) where
  id : ℕ
  old : T
  new : T
  returned : Bool
deriving DecidableEq

/-- The call of a listener with this outcome. -/
def Call.ofResult {T : Type} (id : ℕ) (old new : T) (r : Except Exn Unit) : Call T :=
  ⟨id, old, new, r.toBool⟩

namespace ConfigVar
variable {ω T : Type}

/-- The variable with each of its listeners traced. -/
def traced {α : Type} (note : ℕ → T → T → Except Exn Unit → α) (v : ConfigVar ω T) :
    ConfigVar (ω × List α) T :=
  ⟨v.val, v.cbs.map (fun cb => (cb.1, cb.2.traced (note cb.1))) fun _ => rfl⟩

@[simp] theorem traced_val {α : Type} (note : ℕ → T → T → Except Exn Unit → α)
    (v : ConfigVar ω T) : (v.traced note).val = v.val := rfl

/-- The listeners with these ids were told of this change and returned. -/
def told (old new : T) (l : List (ℕ × Listener ω T)) : List (Call T) :=
  l.map fun cb => ⟨cb.1, old, new, true⟩

/-- The calls a notification has made, with what came of it: all listeners returned; or some did,
the next threw, and those behind it were not called. -/
inductive Notified (old new : T) (l : List (ℕ × Listener ω T)) :
    Except Exn Unit → List (Call T) → Prop
  | all : Notified old new l (.ok ()) (told old new l)
  | thrown {before : List (ℕ × Listener ω T)} {cb : ℕ × Listener ω T}
      {behind : List (ℕ × Listener ω T)} (e : Exn) (h : l = before ++ cb :: behind) :
      Notified old new l (.error e) (told old new before ++ [⟨cb.1, old, new, false⟩])

theorem Notified.cons {old new : T} {l : List (ℕ × Listener ω T)} {r : Except Exn Unit}
    {calls : List (Call T)} (h : Notified old new l r calls) (cb : ℕ × Listener ω T) :
    Notified old new (cb :: l) r (⟨cb.1, old, new, true⟩ :: calls) := by
  cases h with
  | all => exact .all
  | @thrown before cb' behind e h =>
    exact @Notified.thrown _ _ _ _ _ (cb :: before) cb' behind e (congrArg (List.cons cb) h)

theorem Notified.thrown_first {old new : T} {cb : ℕ × Listener ω T} {rest : List (ℕ × Listener ω T)}
    (e : Exn) : Notified old new (cb :: rest) (.error e) [⟨cb.1, old, new, false⟩] :=
  @Notified.thrown _ _ _ _ _ [] cb rest e rfl

/-- What `notify` does to traced listeners, behind the calls noted before. -/
theorem notify_traced (old new : T) (l : List (ℕ × Listener ω T)) (world : ω)
    (calls : List (Call T)) :
    ∃ r world' calls', Notified old new l r calls' ∧
      notify old new (l.map fun cb => (cb.1, cb.2.traced (Call.ofResult cb.1))) (world, calls) =
        (r, (world', calls ++ calls')) := by
  induction l generalizing world calls with
  | nil => exact ⟨.ok (), world, [], .all, by rw [List.append_nil]; rfl⟩
  | cons cb rest ih =>
    cases hcb : cb.2 old new world with
    | mk r world' =>
      cases r with
      | error e =>
        refine ⟨.error e, world', [⟨cb.1, old, new, false⟩], .thrown_first e, ?_⟩
        simp only [List.map_cons, notify, Listener.traced, hcb]
        rfl
      | ok u =>
        obtain ⟨r, world'', calls', hcalls, hrest⟩ :=
          ih world' (calls ++ [⟨cb.1, old, new, true⟩])
        refine ⟨r, world'', ⟨cb.1, old, new, true⟩ :: calls', hcalls.cons cb, ?_⟩
        simp only [List.map_cons, notify, Listener.traced, hcb]
        rw [List.append_cons calls _ calls']
        exact hrest

/-- A text that is refused leaves the value as it was; the listeners told of the value it stands
for are those before the first that threw. A text that is taken was told to all of them, unless
it stands for the value held already. -/
theorem fromString_traced [BEq T] (fromStr : String → Except Exn T) (v : ConfigVar ω T)
    (text : String) (world : ω) :
    let r := (v.traced Call.ofResult).fromString fromStr text (world, [])
    (r.1.2 = false → r.1.1.val = v.val ∧
      ((∃ e, fromStr text = .error e) ∧ r.2.2 = [] ∨
        ∃ t before cb behind, fromStr text = .ok t ∧ v.cbs.elems = before ++ cb :: behind ∧
          r.2.2 = told v.val t before ++ [⟨cb.1, v.val, t, false⟩])) ∧
    (r.1.2 = true → ∃ t, fromStr text = .ok t ∧
      ((v.val == t) = true ∧ r.1.1.val = v.val ∧ r.2.2 = [] ∨
        (v.val == t) = false ∧ r.1.1.val = t ∧ r.2.2 = told v.val t v.cbs.elems)) := by
  intro r
  cases htext : fromStr text with
  | error e =>
    have hr : r = ((v.traced Call.ofResult, false), (world, [])) := by
      simp only [r, fromString, htext]
    rw [hr]
    refine ⟨fun _ => ⟨rfl, .inl ⟨⟨e, rfl⟩, rfl⟩⟩, fun h => ?_⟩
    cases h
  | ok t =>
    cases hsame : v.val == t with
    | true =>
      have hr : r = ((v.traced Call.ofResult, true), (world, [])) := by
        simp only [r, fromString, htext, setValue, traced_val, hsame, ↓reduceIte]
      rw [hr]
      refine ⟨fun h => ?_, fun _ => ⟨t, rfl, .inl ⟨hsame, rfl, rfl⟩⟩⟩
      cases h
    | false =>
      obtain ⟨res, world', calls, hcalls, hnotify⟩ :=
        notify_traced v.val t v.cbs.elems world []
      have hnotify' : notify v.val t (v.traced Call.ofResult).cbs.elems (world, []) =
          (res, (world', calls)) := hnotify
      cases hcalls with
      | all =>
        have hr : r = (({v.traced Call.ofResult with val := t}, true),
            (world', told v.val t v.cbs.elems)) := by
          simp only [r, fromString, htext, setValue, traced_val, hsame, hnotify',
            Bool.false_eq_true, ↓reduceIte]
        rw [hr]
        refine ⟨fun h => ?_, fun _ => ⟨t, rfl, .inr ⟨hsame, rfl, rfl⟩⟩⟩
        cases h
      | @thrown before cb behind e hcbs =>
        have hr : r = ((v.traced Call.ofResult, false),
            (world', told v.val t before ++ [⟨cb.1, v.val, t, false⟩])) := by
          simp only [r, fromString, htext, setValue, traced_val, hsame, hnotify',
            Bool.false_eq_true, ↓reduceIte]
        rw [hr]
        refine ⟨fun _ => ⟨rfl, .inr ⟨t, _, _, _, rfl, hcbs, rfl⟩⟩, fun h => ?_⟩
        cases h

/-- A listener that does not mind, and behind it one that refuses every change. -/
def divided : ConfigVar Unit ℕ :=
  ⟨0, SortedBy.ofList [(1, fun _ _ _ => (.ok (), ())), (2, fun _ _ _ => (.error "refused", ()))]⟩

/-- The first listener has acted on a value that the variable does not take. -/
theorem divided_told :
    let r := (divided.traced Call.ofResult).fromString (fun _ => .ok 5) "5" ((), [])
    r.1.2 = false ∧ r.1.1.val ≠ 5 ∧ ∃ call ∈ r.2.2, call.returned = true ∧ call.new = 5 := by
  refine ⟨rfl, by decide, ⟨1, 0, 5, true⟩, ?_, rfl, rfl⟩
  exact List.mem_cons_self ..

end ConfigVar
end SimpleHttpServer
