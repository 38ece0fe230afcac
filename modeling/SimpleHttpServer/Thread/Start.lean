import SimpleHttpServer.Lib.CString
import SimpleHttpServer.Lib.Machine
import Mathlib.Data.Int.Notation
import Mathlib.Data.Nat.Notation
import Mathlib.Logic.Function.Basic

/-! The start of a thread (`Thread`, `Thread_posix`).

The constructor returns as soon as `pthread_create` does. The new thread then still
has to read its name from the object, to write its id there and to take the
callback out of it, while the creator may ask for the id or destroy the object
already. Nothing but the order in which the two happen to run keeps them apart
(`started_iff_patient`): there is no program of the creator with a thread in it that
makes started threads whatever that order is (`alwaysStarted_iff`). -/
namespace SimpleHttpServer

/-- `m_id`, `m_cb`, `m_name`, and whether `m_thread` is set. -/
structure Thread (κ : Type) where
  id : ℤ
  cb : Option κ
  name : String
  handle : Bool
  deriving DecidableEq

namespace Thread

/-- The members as the constructor initialises them. -/
def new {κ : Type} (cb : Option κ) (name : String) : Thread κ :=
  ⟨-1, cb, if name.isEmpty then "UNKNOW" else name, false⟩

/-- Where a new thread stands in `run`, if there is one. -/
inductive Pc
  | absent
  | started
  | named
  | identified
  | titled
  | swapped
  | ended
  deriving DecidableEq

/-- `run` has yet to use a member of the object. -/
def Pc.reading : Pc → Bool
  | .started | .named | .identified | .titled => true
  | .absent | .swapped | .ended => false

/-- `run` has taken the callback. -/
def Pc.past : Pc → Bool
  | .swapped | .ended => true
  | _ => false

theorem Pc.reading_of_past {pc : Pc} (h : pc.past) : pc.reading = false := by
  cases pc <;> first | rfl | cases h

/-- What a thread has to itself: its place in `run`, `t_thread_name`, the name the system has of
it, and the callback. -/
structure Self (κ : Type) where
  pc : Pc
  threadName : String
  systemName : List UInt8
  cb : Option κ
  deriving DecidableEq

/-- Where an object would be. -/
inductive Slot (κ : Type)
  | fresh
  | live (t : Thread κ)
  | destroyed
  deriving DecidableEq

/-- Where the creating thread stands in a constructor: in none, before `pthread_create`, behind it. -/
inductive Creator (θ : Type)
  | idle
  | initialised (o : θ)
  | created (o : θ)
  deriving DecidableEq

/-- One line of `run` on its object. -/
def Self.advance {κ : Type} (tid : ℕ) (self : Self κ) (t : Thread κ) : Option (Self κ × Thread κ) :=
  match self.pc with
  | .started => some ({self with pc := .named, threadName := t.name}, t)
  | .named => some ({self with pc := .identified}, {t with id := tid})
  | .identified =>
    -- `substr` counts bytes, and `pthread_setname_np` reads a C string
    some ({self with
      pc := .titled
      systemName := ((bytes t.name).take 15).takeWhile (· != 0)}, t)
  | .titled => some ({self with pc := .swapped, cb := t.cb}, {t with cb := none})
  | _ => none

/-- Objects `θ`, callbacks `κ`. `ids` is what `getId` has given the creator so far. -/
structure State (θ κ : Type) where
  creator : Creator θ
  slots : θ → Slot κ
  selves : θ → Self κ
  ids : List (θ × ℤ)

inductive Action (θ κ : Type)
  | construct (o : θ) (cb : Option κ) (name : String)
  /-- `pthread_create`, which may fail; the constructor throws then. -/
  | create (ok : Bool)
  /-- The constructor returns. -/
  | ret
  | getId (o : θ)
  | join (o : θ)
  | destroy (o : θ)
  /-- The new thread takes a step. -/
  | run (o : θ)

namespace State
variable {θ κ : Type}

def initial (θ κ : Type) : State θ κ :=
  ⟨.idle, fun _ => .fresh, fun _ => ⟨.absent, "UNKNOW", [], none⟩, []⟩

variable [DecidableEq θ]

def setCreator (s : State θ κ) (c : Creator θ) : State θ κ := {s with creator := c}

def setSlot (s : State θ κ) (o : θ) (slot : Slot κ) : State θ κ :=
  {s with slots := Function.update s.slots o slot}

def setSelf (s : State θ κ) (o : θ) (self : Self κ) : State θ κ :=
  {s with selves := Function.update s.selves o self}

def setPc (s : State θ κ) (o : θ) (pc : Pc) : State θ κ := s.setSelf o {s.selves o with pc := pc}

def getId (s : State θ κ) (o : θ) (t : Thread κ) : State θ κ := {s with ids := s.ids ++ [(o, t.id)]}

/-- `tid` is the id the system has given the thread of an object. What a thread does to an object
that is not there any more has no meaning, nor has the call of an empty function. -/
def step (tid : θ → ℕ) (s : State θ κ) : Action θ κ → Option (State θ κ)
  | .construct o cb name =>
    match s.creator, s.slots o with
    | .idle, .fresh => some ((s.setSlot o (.live (new cb name))).setCreator (.initialised o))
    | _, _ => none
  | .create ok =>
    match s.creator with
    | .initialised o =>
      match s.slots o, ok with
      | .live t, true =>
        some (((s.setSlot o (.live {t with handle := true})).setPc o .started).setCreator (.created o))
      | .live _, false => some ((s.setSlot o .destroyed).setCreator .idle)
      | _, _ => none
    | _ => none
  | .ret =>
    match s.creator with
    | .created _ => some (s.setCreator .idle)
    | _ => none
  | .getId o =>
    match s.creator, s.slots o with
    | .idle, .live t => some (s.getId o t)
    | _, _ => none
  | .join o =>
    match s.creator, s.slots o with
    | .idle, .live t =>
      if !t.handle then some s
      else if (s.selves o).pc = .ended then some (s.setSlot o (.live {t with handle := false}))
      else none
    | _, _ => none
  | .destroy o =>
    match s.creator, s.slots o with
    | .idle, .live _ => some (s.setSlot o .destroyed)
    | _, _ => none
  | .run o =>
    if (s.selves o).pc = .swapped then
      if (s.selves o).cb.isSome then some (s.setPc o .ended) else none
    else
      match s.slots o with
      | .live t =>
        ((s.selves o).advance (tid o) t).map fun (self, t) => (s.setSlot o (.live t)).setSelf o self
      | _ => none

def machine (κ : Type) (tid : θ → ℕ) : Machine (State θ κ) (Action θ κ) := ⟨step tid⟩

/-- A constructed thread is a started one, and stays one while the object is there. -/
structure Started (tid : θ → ℕ) (s : State θ κ) : Prop where
  ready : ∀ o t, s.slots o = .live t → s.creator ≠ .initialised o → s.creator ≠ .created o →
    (s.selves o).pc.past ∧ t.id = tid o ∧ t.cb = none
  ids : ∀ p ∈ s.ids, p.2 = tid p.1
  finished : ∀ o, s.slots o = .destroyed → (s.selves o).pc.reading = false

/-- The creator does not go on while a thread has yet to use a member of its object. -/
def Patient (s : State θ κ) : Action θ κ → Prop
  | .run _ => True
  | _ => ∀ o, (s.selves o).pc.reading = false

/-- The steps there are. -/
inductive Step (tid : θ → ℕ) (s : State θ κ) : Action θ κ → State θ κ → Prop
  | construct {o : θ} (cb : Option κ) (name : String) (hc : s.creator = .idle)
      (hslot : s.slots o = .fresh) :
      Step tid s (.construct o cb name)
        ((s.setSlot o (.live (new cb name))).setCreator (.initialised o))
  | created {o : θ} {t : Thread κ} (hc : s.creator = .initialised o) (hslot : s.slots o = .live t) :
      Step tid s (.create true)
        (((s.setSlot o (.live {t with handle := true})).setPc o .started).setCreator (.created o))
  | refused {o : θ} {t : Thread κ} (hc : s.creator = .initialised o) (hslot : s.slots o = .live t) :
      Step tid s (.create false) ((s.setSlot o .destroyed).setCreator .idle)
  | ret {o : θ} (hc : s.creator = .created o) : Step tid s .ret (s.setCreator .idle)
  | getId {o : θ} {t : Thread κ} (hc : s.creator = .idle) (hslot : s.slots o = .live t) :
      Step tid s (.getId o) (s.getId o t)
  | notJoined {o : θ} (hc : s.creator = .idle) : Step tid s (.join o) s
  | joined {o : θ} {t : Thread κ} (hc : s.creator = .idle) (hslot : s.slots o = .live t) :
      Step tid s (.join o) (s.setSlot o (.live {t with handle := false}))
  | destroy {o : θ} {t : Thread κ} (hc : s.creator = .idle) (hslot : s.slots o = .live t) :
      Step tid s (.destroy o) (s.setSlot o .destroyed)
  | call {o : θ} (hpc : (s.selves o).pc = .swapped) : Step tid s (.run o) (s.setPc o .ended)
  | run {o : θ} {t t' : Thread κ} {self : Self κ} (hslot : s.slots o = .live t)
      (h : (s.selves o).advance (tid o) t = some (self, t')) :
      Step tid s (.run o) ((s.setSlot o (.live t')).setSelf o self)

theorem step_cases {tid : θ → ℕ} {s s' : State θ κ} {a : Action θ κ} (h : s.step tid a = some s') :
    s.Step tid a s' := by
  cases a with
  | construct o cb name =>
    simp only [step] at h
    split at h
    case h_2 => cases h
    case h_1 hc hslot =>
      cases h
      exact .construct cb name hc hslot
  | create ok =>
    simp only [step] at h
    split at h
    case h_2 => cases h
    case h_1 o hc =>
      split at h
      case h_1 hslot =>
        cases h
        exact .created hc hslot
      case h_2 hslot =>
        cases h
        exact .refused hc hslot
      case h_3 => cases h
  | ret =>
    simp only [step] at h
    split at h
    case h_2 => cases h
    case h_1 o hc =>
      cases h
      exact .ret hc
  | getId o =>
    simp only [step] at h
    split at h
    case h_2 => cases h
    case h_1 hc hslot =>
      cases h
      exact .getId hc hslot
  | join o =>
    simp only [step] at h
    split at h
    case h_2 => cases h
    case h_1 hc hslot =>
      split at h
      case isTrue =>
        cases h
        exact .notJoined hc
      case isFalse =>
        split at h
        case isFalse => cases h
        case isTrue =>
          cases h
          exact .joined hc hslot
  | destroy o =>
    simp only [step] at h
    split at h
    case h_2 => cases h
    case h_1 hc hslot =>
      cases h
      exact .destroy hc hslot
  | run o =>
    simp only [step] at h
    split at h
    case isTrue hpc =>
      split at h
      case isFalse => cases h
      case isTrue =>
        cases h
        exact .call hpc
    case isFalse =>
      split at h
      case h_2 => cases h
      case h_1 hslot =>
        obtain ⟨⟨self, t'⟩, hadvance, hs'⟩ := Option.map_eq_some_iff.mp h
        cases hs'
        exact .run hslot hadvance

/-! ### An object and its thread -/

/-- How the object, its thread and the creator stand to each other: up to its last use of a member,
the thread finds the creator in the constructor. -/
def Stage (c : Creator θ) (o : θ) (tid : ℕ) (slot : Slot κ) : Pc → Prop
  | .absent => c ≠ .created o ∧ ∀ t, slot = .live t → c = .initialised o
  | .started | .named => c = .created o ∧ ∃ t, slot = .live t
  | .identified | .titled => c = .created o ∧ ∃ t, slot = .live t ∧ t.id = tid
  | .swapped | .ended => c ≠ .initialised o ∧ slot ≠ .fresh ∧
      ∀ t, slot = .live t → t.id = tid ∧ t.cb = none

omit [DecidableEq θ] in
theorem Stage.created {c : Creator θ} {o : θ} {tid : ℕ} {slot : Slot κ} {pc : Pc}
    (h : Stage c o tid slot pc) (hreading : pc.reading) :
    c = .created o ∧ ∃ t, slot = .live t := by
  cases pc with
  | started => exact h
  | named => exact h
  | identified => exact ⟨h.1, h.2.imp fun _ ht => ht.1⟩
  | titled => exact ⟨h.1, h.2.imp fun _ ht => ht.1⟩
  | _ => cases hreading

omit [DecidableEq θ] in
/-- Outside the constructor, an object that is there has been left alone by its thread. -/
theorem Stage.ready {c : Creator θ} {o : θ} {tid : ℕ} {t : Thread κ} {pc : Pc}
    (h : Stage c o tid (.live t) pc) (hi : c ≠ .initialised o) (hc : c ≠ .created o) :
    pc.past ∧ t.id = tid ∧ t.cb = none := by
  cases pc with
  | absent => exact absurd (h.2 t rfl) hi
  | swapped => exact ⟨rfl, h.2.2 t rfl⟩
  | ended => exact ⟨rfl, h.2.2 t rfl⟩
  | _ => exact absurd (h.created rfl).1 hc

omit [DecidableEq θ] in
theorem Stage.not_reading {c : Creator θ} {o : θ} {tid : ℕ} {slot : Slot κ} {pc : Pc}
    (h : Stage c o tid slot pc) (hc : c ≠ .created o) : pc.reading = false := by
  apply Bool.eq_false_iff.mpr
  intro hreading
  exact hc (h.created hreading).1

omit [DecidableEq θ] in
/-- A creator that turns to something else leaves an object as it is. -/
theorem Stage.leave {c c' : Creator θ} {o : θ} {tid : ℕ} {slot : Slot κ} {pc : Pc}
    (h : Stage c o tid slot pc) (hreading : pc.reading = false) (hi : c ≠ .initialised o)
    (hi' : c' ≠ .initialised o) (hc' : c' ≠ .created o) : Stage c' o tid slot pc := by
  cases pc with
  | absent => exact ⟨hc', fun t ht => absurd (h.2 t ht) hi⟩
  | swapped => exact ⟨hi', h.2⟩
  | ended => exact ⟨hi', h.2⟩
  | _ => cases hreading

omit [DecidableEq θ] in
theorem Stage.absent_of_fresh {c : Creator θ} {o : θ} {tid : ℕ} {pc : Pc}
    (h : Stage c o tid (.fresh : Slot κ) pc) : pc = .absent := by
  cases pc with
  | absent => rfl
  | swapped => exact absurd rfl h.2.1
  | ended => exact absurd rfl h.2.1
  | _ =>
    obtain ⟨_, t, ht⟩ := h.created rfl
    cases ht

omit [DecidableEq θ] in
theorem Stage.absent_of_initialised {o : θ} {tid : ℕ} {slot : Slot κ} {pc : Pc}
    (h : Stage (.initialised o) o tid slot pc) : pc = .absent := by
  cases pc with
  | absent => rfl
  | swapped => exact absurd rfl h.1
  | ended => exact absurd rfl h.1
  | _ => cases (h.created rfl).1

omit [DecidableEq θ] in
/-- What the thread does to the object takes both one stage further. -/
theorem Stage.advance {c : Creator θ} {o : θ} {tid : ℕ} {t t' : Thread κ} {self self' : Self κ}
    (h : Stage c o tid (.live t) self.pc) (hadvance : self.advance tid t = some (self', t')) :
    Stage c o tid (.live t') self'.pc := by
  obtain ⟨pc, threadName, systemName, cb⟩ := self
  cases pc with
  | started =>
    cases hadvance
    exact h
  | named =>
    cases hadvance
    exact ⟨h.1, _, rfl, rfl⟩
  | identified =>
    cases hadvance
    exact h
  | titled =>
    cases hadvance
    obtain ⟨hc, u, hu, hid⟩ := h
    cases hu
    refine ⟨?_, nofun, ?_⟩
    · rw [hc]
      nofun
    · intro u hu
      cases hu
      exact ⟨hid, rfl⟩
  | absent => cases hadvance
  | swapped => cases hadvance
  | ended => cases hadvance

structure Inv (tid : θ → ℕ) (s : State θ κ) : Prop where
  stage : ∀ o, Stage s.creator o (tid o) (s.slots o) (s.selves o).pc
  ids : ∀ p ∈ s.ids, p.2 = tid p.1

omit [DecidableEq θ] in
theorem initial_inv (tid : θ → ℕ) : (initial θ κ).Inv tid where
  stage _ := ⟨nofun, nofun⟩
  ids _ hp := absurd hp List.not_mem_nil

omit [DecidableEq θ] in
theorem Inv.started {tid : θ → ℕ} {s : State θ κ} (hs : s.Inv tid) : s.Started tid where
  ready o t ht hi hc := by
    have h := hs.stage o
    rw [ht] at h
    exact h.ready hi hc
  ids := hs.ids
  finished o ho := by
    apply Bool.eq_false_iff.mpr
    intro hreading
    obtain ⟨_, t, ht⟩ := (hs.stage o).created hreading
    rw [ho] at ht
    cases ht

/-! ### Steps -/

/-- After a step at one object, where the others are as before. -/
theorem Inv.step_at {tid : θ → ℕ} {s s' : State θ κ} {o : θ} {slot : Slot κ} {self : Self κ}
    (hs : s.Inv tid) (hslots : s'.slots = Function.update s.slots o slot)
    (hselves : s'.selves = Function.update s.selves o self) (hids : s'.ids = s.ids)
    (hself : Stage s'.creator o (tid o) slot self.pc)
    (hothers : ∀ o', o' ≠ o → Stage s'.creator o' (tid o') (s.slots o') (s.selves o').pc) :
    s'.Inv tid where
  stage o' := by
    rw [hslots, hselves]
    by_cases ho : o' = o
    · subst ho
      rw [Function.update_self, Function.update_self]
      exact hself
    · rw [Function.update_of_ne ho, Function.update_of_ne ho]
      exact hothers o' ho
  ids := by
    rw [hids]
    exact hs.ids

theorem construct_inv {tid : θ → ℕ} {s : State θ κ} {o : θ} (cb : Option κ) (name : String)
    (hs : s.Inv tid) (hc : s.creator = .idle) (hslot : s.slots o = .fresh) :
    ((s.setSlot o (.live (new cb name))).setCreator (.initialised o)).Inv tid := by
  have hstage : ∀ o', Stage .idle o' (tid o') (s.slots o') (s.selves o').pc := hc ▸ hs.stage
  refine hs.step_at rfl (Function.update_eq_self o s.selves).symm rfl ?_ ?_
  · have hpc : (s.selves o).pc = .absent := Stage.absent_of_fresh (hslot ▸ hstage o)
    rw [hpc]
    exact ⟨nofun, fun _ _ => rfl⟩
  · intro o' ho
    refine (hstage o').leave ((hstage o').not_reading nofun) nofun (fun h => ?_) nofun
    exact ho (Creator.initialised.inj h).symm

theorem created_inv {tid : θ → ℕ} {s : State θ κ} {o : θ} {t : Thread κ} (hs : s.Inv tid)
    (hc : s.creator = .initialised o) :
    (((s.setSlot o (.live {t with handle := true})).setPc o .started).setCreator (.created o)).Inv
      tid := by
  have hstage : ∀ o', Stage (.initialised o) o' (tid o') (s.slots o') (s.selves o').pc :=
    hc ▸ hs.stage
  refine hs.step_at rfl rfl rfl ?_ ?_
  · exact ⟨rfl, _, rfl⟩
  · intro o' ho
    refine (hstage o').leave ((hstage o').not_reading nofun) (fun h => ?_) nofun (fun h => ?_)
    · exact ho (Creator.initialised.inj h).symm
    · exact ho (Creator.created.inj h).symm

theorem refused_inv {tid : θ → ℕ} {s : State θ κ} {o : θ} (hs : s.Inv tid)
    (hc : s.creator = .initialised o) :
    ((s.setSlot o .destroyed).setCreator .idle).Inv tid := by
  have hstage : ∀ o', Stage (.initialised o) o' (tid o') (s.slots o') (s.selves o').pc :=
    hc ▸ hs.stage
  refine hs.step_at rfl (Function.update_eq_self o s.selves).symm rfl ?_ ?_
  · rw [(hstage o).absent_of_initialised]
    exact ⟨nofun, nofun⟩
  · intro o' ho
    refine (hstage o').leave ((hstage o').not_reading nofun) (fun h => ?_) nofun nofun
    exact ho (Creator.initialised.inj h).symm

omit [DecidableEq θ] in
/-- The creator leaves the constructor: the one step that has to wait for the thread. -/
theorem ret_inv {tid : θ → ℕ} {s : State θ κ} {o : θ} (hs : s.Inv tid)
    (hc : s.creator = .created o) (hreading : ∀ o, (s.selves o).pc.reading = false) :
    (s.setCreator .idle).Inv tid where
  stage o' := by
    have h := hs.stage o'
    rw [hc] at h
    exact h.leave (hreading o') nofun nofun nofun
  ids := hs.ids

omit [DecidableEq θ] in
theorem getId_inv {tid : θ → ℕ} {s : State θ κ} {o : θ} {t : Thread κ} (hs : s.Inv tid)
    (hc : s.creator = .idle) (hslot : s.slots o = .live t) : (s.getId o t).Inv tid where
  stage := hs.stage
  ids p hp := by
    rcases List.mem_append.mp hp with hold | hp
    · exact hs.ids p hold
    · rw [List.mem_singleton.mp hp]
      have h := hs.stage o
      rw [hc, hslot] at h
      exact (h.ready nofun nofun).2.1

/-- A change the creator makes to an object that stands by itself. -/
theorem setSlot_inv {tid : θ → ℕ} {s : State θ κ} {o : θ} {t : Thread κ} {slot : Slot κ}
    (hs : s.Inv tid) (hc : s.creator = .idle) (hslot : s.slots o = .live t) (hfresh : slot ≠ .fresh)
    (hsame : ∀ t', slot = .live t' → t'.id = t.id ∧ t'.cb = t.cb) : (s.setSlot o slot).Inv tid := by
  have h := hs.stage o
  rw [hc, hslot] at h
  obtain ⟨hpast, hid, hcb⟩ := h.ready nofun nofun
  refine hs.step_at rfl (Function.update_eq_self o s.selves).symm rfl ?_ ?_
  · have hafter : s.creator ≠ .initialised o ∧ slot ≠ .fresh ∧
        ∀ t', slot = .live t' → t'.id = tid o ∧ t'.cb = none := by
      refine ⟨?_, hfresh, fun t' ht' => ?_⟩
      · rw [hc]
        nofun
      · obtain ⟨hid', hcb'⟩ := hsame t' ht'
        exact ⟨hid'.trans hid, hcb'.trans hcb⟩
    show Stage s.creator o (tid o) slot (s.selves o).pc
    cases hpc : (s.selves o).pc with
    | swapped => exact hafter
    | ended => exact hafter
    | _ =>
      rw [hpc] at hpast
      cases hpast
  · intro o' _
    exact hs.stage o'

theorem call_inv {tid : θ → ℕ} {s : State θ κ} {o : θ} (hs : s.Inv tid)
    (hpc : (s.selves o).pc = .swapped) : (s.setPc o .ended).Inv tid := by
  refine hs.step_at (Function.update_eq_self o s.slots).symm rfl rfl ?_ ?_
  · have h := hs.stage o
    rw [hpc] at h
    exact h
  · intro o' _
    exact hs.stage o'

theorem run_inv {tid : θ → ℕ} {s : State θ κ} {o : θ} {t t' : Thread κ} {self : Self κ}
    (hs : s.Inv tid) (hslot : s.slots o = .live t)
    (hadvance : (s.selves o).advance (tid o) t = some (self, t')) :
    ((s.setSlot o (.live t')).setSelf o self).Inv tid := by
  refine hs.step_at rfl rfl rfl ?_ ?_
  · have h := hs.stage o
    rw [hslot] at h
    exact h.advance hadvance
  · intro o' _
    exact hs.stage o'

theorem step_inv {tid : θ → ℕ} {s s' : State θ κ} {a : Action θ κ} (hs : s.Inv tid)
    (ha : s.Patient a) (h : s.step tid a = some s') : s'.Inv tid := by
  cases step_cases h with
  | construct cb name hc hslot => exact construct_inv cb name hs hc hslot
  | created hc _ => exact created_inv hs hc
  | refused hc _ => exact refused_inv hs hc
  | ret hc => exact ret_inv hs hc ha
  | getId hc hslot => exact getId_inv hs hc hslot
  | notJoined _ => exact hs
  | joined hc hslot =>
    refine setSlot_inv hs hc hslot nofun fun t' ht' => ?_
    cases ht'
    exact ⟨rfl, rfl⟩
  | destroy hc hslot => exact setSlot_inv hs hc hslot nofun nofun
  | call hpc => exact call_inv hs hpc
  | run hslot hadvance => exact run_inv hs hslot hadvance

/-- A creator that goes on too early is one that leaves the constructor: whatever else it might do
is not open to it there. -/
theorem impatient_unstarted {tid : θ → ℕ} {s s' : State θ κ} {a : Action θ κ} (hs : s.Inv tid)
    (ha : ¬ s.Patient a) (h : s.step tid a = some s') : ¬ s'.Started tid := by
  have hreading : ∃ o, (s.selves o).pc.reading = true := by
    apply Classical.byContradiction
    intro hnone
    apply ha
    have hall : ∀ o, (s.selves o).pc.reading = false := fun o =>
      Bool.eq_false_iff.mpr fun ho => hnone ⟨o, ho⟩
    cases a with
    | run o => trivial
    | _ => exact hall
  obtain ⟨o, ho⟩ := hreading
  obtain ⟨hcreated, t, ht⟩ := (hs.stage o).created ho
  cases step_cases h with
  | ret hc =>
    intro hstarted
    obtain ⟨hpast, _⟩ := hstarted.ready o t ht nofun nofun
    have hnot : (s.selves o).pc.reading = false := Pc.reading_of_past hpast
    rw [hnot] at ho
    cases ho
  | construct cb name hc hslot => cases hc.symm.trans hcreated
  | created hc hslot => cases hc.symm.trans hcreated
  | refused hc hslot => cases hc.symm.trans hcreated
  | getId hc hslot => cases hc.symm.trans hcreated
  | notJoined hc => cases hc.symm.trans hcreated
  | joined hc hslot => cases hc.symm.trans hcreated
  | destroy hc hslot => cases hc.symm.trans hcreated
  | call hpc => exact absurd trivial ha
  | run hslot hadvance => exact absurd trivial ha

/-- In whatever order the creator and the new threads run, a constructed thread is a started one
throughout exactly if the creator, once it has created a thread, goes on only when that has taken
its callback. -/
theorem started_iff_patient (tid : θ → ℕ) (acts : List (Action θ κ)) (s : State θ κ)
    (hrun : (machine κ tid).run (initial θ κ) acts = some s) :
    (machine κ tid).Throughout (Started tid) (initial θ κ) acts ↔
      (machine κ tid).Along Patient (initial θ κ) acts :=
  Machine.throughout_iff_along (fun _ _ _ hs ha h => step_inv hs ha h) (fun _ hs => hs.started)
    (fun _ _ _ hs ha h => impatient_unstarted hs ha h) (initial_inv tid) hrun

/-- A thread that runs as far as its callback before the constructor returns; then it is asked for
its id and destroyed, and the callback is still to run. -/
def patientRun : List (Action Unit Char) :=
  [.construct () (some 'f') "", .create true, .run (), .run (), .run (), .run (), .ret, .getId (),
    .destroy (), .run ()]

theorem patientRun_started :
    ∃ s, (machine Char fun _ => 7).run (initial Unit Char) patientRun = some s ∧
      s.ids = [((), 7)] ∧ (s.selves ()).pc = .ended ∧
        (machine Char fun _ => 7).Throughout (Started fun _ => 7) (initial Unit Char) patientRun := by
  refine ⟨_, rfl, rfl, rfl, (started_iff_patient _ patientRun _ rfl).mpr ?_⟩
  refine .cons (fun _ => rfl) rfl <| .cons (fun _ => rfl) rfl <| .cons trivial rfl <|
    .cons trivial rfl <| .cons trivial rfl <| .cons trivial rfl <| .cons (fun _ => rfl) rfl <|
    .cons (fun _ => rfl) rfl <| .cons (fun _ => rfl) rfl <| .cons trivial rfl trivial

/-- The creator returns from the constructor first, as nothing keeps it from doing: it notes -1 for
the thread, and destroys an object that the thread has not used yet. -/
theorem impatient_ids :
    ∃ s, (machine Char fun _ => 7).run (initial Unit Char)
      [.construct () (some 'f') "", .create true, .ret, .getId (), .destroy ()] = some s ∧
        s.ids = [((), -1)] ∧ s.slots () = .destroyed ∧ (s.selves ()).pc = .started ∧
          ¬ s.Started fun _ => 7 := by
  refine ⟨_, rfl, rfl, rfl, rfl, fun hstarted => ?_⟩
  have hread := hstarted.finished () rfl
  cases hread

end State

/-! ### The creator's program -/

/-- A statement of the creating thread; `ok` is what comes of the `pthread_create` inside. -/
inductive Op (θ κ : Type)
  | construct (o : θ) (cb : Option κ) (name : String) (ok : Bool)
  | getId (o : θ)
  | join (o : θ)
  | destroy (o : θ)

namespace Op
variable {θ κ : Type}

/-- The steps it takes the creator. A constructor that throws does not return. -/
def actions : Op θ κ → List (Action θ κ)
  | .construct o cb name true => [.construct o cb name, .create true, .ret]
  | .construct o cb name false => [.construct o cb name, .create false]
  | .getId o => [.getId o]
  | .join o => [.join o]
  | .destroy o => [.destroy o]

/-- A constructor whose `pthread_create` succeeds. -/
def Creates : Op θ κ → Prop
  | .construct _ _ _ ok => ok = true
  | _ => False

/-- An object is constructed once, and used between the return of its constructor and its
destruction: `past` have been constructed, `live` can be used. -/
def Formed [DecidableEq θ] (past live : List θ) : List (Op θ κ) → Prop
  | [] => True
  | .construct o _ _ true :: rest => o ∉ past ∧ Formed (o :: past) (o :: live) rest
  | .construct o _ _ false :: rest => o ∉ past ∧ Formed (o :: past) live rest
  | .getId o :: rest | .join o :: rest => o ∈ live ∧ Formed past live rest
  | .destroy o :: rest => o ∈ live ∧ Formed past (live.erase o) rest

theorem create_notMem {op : Op θ κ} (h : ¬ op.Creates) : Action.create true ∉ op.actions := by
  cases op with
  | construct o cb name ok =>
    cases ok with
    | true => exact absurd rfl h
    | false => simp [actions]
  | _ => simp [actions]

end Op

/-- A step of the creator, not of a thread it has created. -/
def Action.own {θ κ : Type} : Action θ κ → Bool
  | .run _ => false
  | _ => true

theorem Op.own_of_mem {θ κ : Type} {op : Op θ κ} {a : Action θ κ} (h : a ∈ op.actions) :
    a.own = true := by
  cases a with
  | run o =>
    cases op with
    | construct p cb name ok => cases ok <;> simp [actions] at h
    | _ => simp [actions] at h
  | _ => rfl

namespace State
variable {θ κ : Type} [DecidableEq θ]

/-- A constructed thread is a started one throughout, however the creator's steps through the
program, as far as it gets, fall between those of the new threads. -/
def AlwaysStarted (tid : θ → ℕ) (program : List (Op θ κ)) : Prop :=
  ∀ acts s, (machine κ tid).run (initial θ κ) acts = some s →
    acts.filter Action.own <+: program.flatMap Op.actions →
      (machine κ tid).Throughout (Started tid) (initial θ κ) acts

/-- No thread has been created. -/
structure Unborn (tid : θ → ℕ) (s : State θ κ) : Prop where
  inv : s.Inv tid
  absent : ∀ o, (s.selves o).pc = .absent

omit [DecidableEq θ] in
theorem Unborn.patient {tid : θ → ℕ} {s : State θ κ} (hs : s.Unborn tid) (a : Action θ κ) :
    s.Patient a := by
  cases a with
  | run o => trivial
  | _ =>
    intro o
    rw [hs.absent o]
    rfl

theorem step_unborn {tid : θ → ℕ} {s s' : State θ κ} {a : Action θ κ} (hs : s.Unborn tid)
    (ha : a ≠ .create true) (h : s.step tid a = some s') : s'.Unborn tid where
  inv := step_inv hs.inv (hs.patient a) h
  absent := by
    cases step_cases h with
    | created => exact absurd rfl ha
    | @call o hpc =>
      rw [hs.absent o] at hpc
      cases hpc
    | @run o t t' self hslot hadvance =>
      unfold Self.advance at hadvance
      rw [hs.absent o] at hadvance
      cases hadvance
    | construct | refused | ret | getId | notJoined | joined | destroy => exact hs.absent

/-- A constructor whose `pthread_create` succeeds, while its thread does nothing. -/
theorem construct_alone (tid : θ → ℕ) {s : State θ κ} {o : θ} (cb : Option κ) (name : String)
    (hidle : s.creator = .idle) (hslot : s.slots o = .fresh) :
    ∃ s', (machine κ tid).run s [.construct o cb name, .create true, .ret] = some s' ∧
      ¬ s'.Started tid := by
  refine ⟨(((s.setSlot o (.live {new cb name with handle := true})).setPc o .started).setCreator
    .idle), ?_, fun hstarted => ?_⟩
  · simp [Machine.run, machine, step, hidle, hslot, setSlot, setCreator, setPc, setSelf]
  · obtain ⟨hpast, _⟩ := hstarted.ready o {new cb name with handle := true}
      (by simp [setSlot, setCreator, setPc, setSelf]) (by simp [setCreator]) (by simp [setCreator])
    simp [setSlot, setCreator, setPc, setSelf, Pc.past] at hpast

/-- One whose `pthread_create` fails. -/
theorem construct_refused (tid : θ → ℕ) {s : State θ κ} {o : θ} (cb : Option κ) (name : String)
    (hidle : s.creator = .idle) (hslot : s.slots o = .fresh) :
    (machine κ tid).run s [.construct o cb name, .create false] =
      some ((s.setSlot o .destroyed).setCreator .idle) := by
  simp [Machine.run, machine, step, hidle, hslot, setSlot, setCreator]

/-- Up to the first `pthread_create` that succeeds no thread takes a step: the creator alone gets
there, and back out of the constructor. -/
theorem exists_unstarted {tid : θ → ℕ} {program : List (Op θ κ)} {past : List θ} {s : State θ κ}
    (hformed : Op.Formed past [] program) (hidle : s.creator = .idle)
    (hfresh : ∀ o, o ∉ past → s.slots o = .fresh) (hcreates : ∃ op ∈ program, op.Creates) :
    ∃ acts s', (machine κ tid).run s acts = some s' ∧ acts <+: program.flatMap Op.actions ∧
      ¬ s'.Started tid := by
  induction program generalizing past s with
  | nil =>
    obtain ⟨op, hop, _⟩ := hcreates
    cases hop
  | cons op rest ih =>
    cases op with
    | getId o => exact absurd hformed.1 List.not_mem_nil
    | join o => exact absurd hformed.1 List.not_mem_nil
    | destroy o => exact absurd hformed.1 List.not_mem_nil
    | construct o cb name ok =>
      cases ok with
      | true =>
        obtain ⟨s', hrun, hnot⟩ := construct_alone tid cb name hidle (hfresh o hformed.1)
        exact ⟨_, s', hrun, List.prefix_append _ _, hnot⟩
      | false =>
        obtain ⟨hnew, hrest⟩ := hformed
        have hrefused := construct_refused tid cb name hidle (hfresh o hnew)
        have hothers : ∀ p, p ∉ o :: past →
            ((s.setSlot o .destroyed).setCreator .idle).slots p = .fresh := by
          intro p hp
          have hpo : p ≠ o := fun heq => hp (heq ▸ List.mem_cons_self ..)
          have hpast : p ∉ past := fun hin => hp (List.mem_cons_of_mem _ hin)
          simp [setSlot, setCreator, hpo, hfresh p hpast]
        have hlater : ∃ op ∈ rest, op.Creates := by
          obtain ⟨op, hop, hcreate⟩ := hcreates
          rcases List.mem_cons.mp hop with rfl | hop
          · cases hcreate
          · exact ⟨op, hop, hcreate⟩
        obtain ⟨acts, s', hrun, hpre, hnot⟩ := ih hrest rfl hothers hlater
        refine ⟨[.construct o cb name, .create false] ++ acts, s', ?_, ?_, hnot⟩
        · rw [Machine.run_append, hrefused]
          exact hrun
        · exact (List.prefix_append_right_inj _).mpr hpre

/-- A creator's program makes started threads, whatever the interleaving, exactly if none of its
calls of `pthread_create` succeeds. -/
theorem alwaysStarted_iff (tid : θ → ℕ) (program : List (Op θ κ))
    (hformed : Op.Formed [] [] program) :
    AlwaysStarted tid program ↔ ∀ op ∈ program, ¬ op.Creates := by
  constructor
  · intro halways op hop hcreates
    obtain ⟨acts, s, hrun, hpre, hnot⟩ := exists_unstarted (s := initial θ κ) hformed rfl
      (fun _ _ => rfl) ⟨op, hop, hcreates⟩
    apply hnot
    refine (halways acts s hrun ?_).there hrun
    have hown : ∀ a ∈ acts, a.own = true := by
      intro a ha
      obtain ⟨op, _, hin⟩ := List.mem_flatMap.mp (hpre.mem ha)
      exact Op.own_of_mem hin
    rwa [List.filter_eq_self.mpr hown]
  · intro hnone acts s _ hpre
    have hcreate : Action.create true ∉ program.flatMap Op.actions := by
      intro hmem
      obtain ⟨op, hop, hin⟩ := List.mem_flatMap.mp hmem
      exact Op.create_notMem (hnone op hop) hin
    have hobeys : (machine κ tid).Along (fun _ a => a ≠ .create true) (initial θ κ) acts := by
      refine Machine.along_of_forall fun a ha heq => hcreate (hpre.mem ?_)
      subst heq
      exact List.mem_filter.mpr ⟨ha, rfl⟩
    exact hobeys.throughout (fun _ _ _ hs ha h => step_unborn hs ha h) (fun _ hs => hs.inv.started)
      ⟨initial_inv tid, fun _ => rfl⟩

/-- The system has no thread for the only object. -/
def refusedProgram : List (Op Bool Char) := [.construct false (some 'f') "" false]

/-- It has one for the second object, which is used as a scheduler uses its threads. -/
def startProgram : List (Op Bool Char) :=
  [.construct false (some 'f') "" false, .construct true (some 'g') "worker" true, .getId true,
    .join true, .destroy true]

theorem alwaysStarted_refused_not_start :
    AlwaysStarted (fun _ => 7) refusedProgram ∧ ¬ AlwaysStarted (fun _ => 7) startProgram := by
  constructor
  · apply (alwaysStarted_iff _ refusedProgram (by simp [refusedProgram, Op.Formed])).mpr
    simp [refusedProgram, Op.Creates]
  · rw [alwaysStarted_iff _ startProgram (by simp [startProgram, Op.Formed])]
    simp [startProgram, Op.Creates]

end State
end Thread
end SimpleHttpServer
