import SimpleHttpServer.Lib.Machine
import SimpleHttpServer.Lib.SortedBy
import Mathlib.Algebra.Group.Nat.Defs
import Mathlib.Data.Nat.Basic
import Mathlib.Logic.Function.Basic

/-! The ids of listeners (`addListener`, `delListener`, `clearListener`).

`s_func_id` is one counter for all variables of a type, and the lock is one for
each variable. A call of `addListener` increments the counter, inserts its callback
under the value it then reads, and reads the counter once more for the id it
returns; calls on other variables may increment it at any point between. Short of
2 ^ 64 calls the value inserted under is a new one for the variable, but the id
returned is that value only if nobody has been at the counter since. -/
namespace SimpleHttpServer.Listeners

/-- Where a thread stands in `addListener`: it waits for nothing, holds the lock, has incremented
the counter, has inserted its callback under `id`. -/
inductive Pc (ι κ : Type)
  | idle
  | locked (v : ι) (cb : κ)
  | counted (v : ι) (cb : κ)
  | inserted (v : ι) (cb : κ) (id : ℕ)
  deriving DecidableEq

/-- Variables `ι`, threads `τ`, callbacks `κ`. `writer` is who holds the write lock of a variable.
`returned` and `live` are history: the ids that calls have returned, each with the callback of the
call, and of these the ones that were not deleted or cleared since. -/
structure State (ι τ κ : Type) where
  funcId : ℕ
  cbs : ι → SortedBy (Prod.fst : ℕ × κ → ℕ)
  writer : ι → Option τ
  pc : τ → Pc ι κ
  returned : ι → List (ℕ × κ)
  live : ι → List (ℕ × κ)

inductive Action (ι τ κ : Type)
  /-- A call of `addListener` takes the lock. -/
  | addListener (t : τ) (v : ι) (cb : κ)
  | increment (t : τ)
  | insert (t : τ)
  | ret (t : τ)
  | delListener (v : ι) (id : ℕ)
  | clearListener (v : ι)

namespace State
variable {ι τ κ : Type} [DecidableEq ι] [DecidableEq τ]

/-- Variables without listeners, and a counter at its start. -/
def initial (ι τ κ : Type) : State ι τ κ :=
  ⟨0, fun _ => .empty, fun _ => none, fun _ => .idle, fun _ => [], fun _ => []⟩

/-- `getListener`: no callback if the id is not there. -/
def getListener (s : State ι τ κ) (v : ι) (id : ℕ) : Option κ := ((s.cbs v).find? id).map Prod.snd

def lock (s : State ι τ κ) (t : τ) (v : ι) (cb : κ) : State ι τ κ :=
  {s with
    writer := Function.update s.writer v (some t)
    pc := Function.update s.pc t (.locked v cb)}

/-- `++s_func_id`, which has 64 bits. -/
def increment (s : State ι τ κ) (t : τ) (v : ι) (cb : κ) : State ι τ κ :=
  {s with
    funcId := (s.funcId + 1) % 2 ^ 64
    pc := Function.update s.pc t (.counted v cb)}

/-- `m_cbs.insert`: ignored under an id that is there. -/
def insert (s : State ι τ κ) (t : τ) (v : ι) (cb : κ) : State ι τ κ :=
  {s with
    cbs := Function.update s.cbs v ((s.cbs v).insert (s.funcId, cb))
    pc := Function.update s.pc t (.inserted v cb s.funcId)}

/-- `return s_func_id`, which gives the lock back. -/
def ret (s : State ι τ κ) (t : τ) (v : ι) (cb : κ) : State ι τ κ :=
  {s with
    writer := Function.update s.writer v none
    pc := Function.update s.pc t .idle
    returned := Function.update s.returned v (s.returned v ++ [(s.funcId, cb)])
    live := Function.update s.live v (s.live v ++ [(s.funcId, cb)])}

def delListener (s : State ι τ κ) (v : ι) (id : ℕ) : State ι τ κ :=
  {s with
    cbs := Function.update s.cbs v ((s.cbs v).erase id)
    live := Function.update s.live v ((s.live v).filter fun p => p.1 ≠ id)}

def clearListener (s : State ι τ κ) (v : ι) : State ι τ κ :=
  {s with
    cbs := Function.update s.cbs v .empty
    live := Function.update s.live v []}

def step (s : State ι τ κ) : Action ι τ κ → Option (State ι τ κ)
  | .addListener t v cb =>
    match s.pc t, s.writer v with
    | .idle, none => some (s.lock t v cb)
    | _, _ => none
  | .increment t =>
    match s.pc t with
    | .locked v cb => some (s.increment t v cb)
    | _ => none
  | .insert t =>
    match s.pc t with
    | .counted v cb => some (s.insert t v cb)
    | _ => none
  | .ret t =>
    match s.pc t with
    | .inserted v cb _ => some (s.ret t v cb)
    | _ => none
  | .delListener v id => if (s.writer v).isNone then some (s.delListener v id) else none
  | .clearListener v => if (s.writer v).isNone then some (s.clearListener v) else none

/-- The ids that calls on the variable have returned. -/
def ids (s : State ι τ κ) (v : ι) : List ℕ := (s.returned v).map Prod.fst

@[simp] theorem insert_cbs (s : State ι τ κ) (t : τ) (v : ι) (cb : κ) :
    (s.insert t v cb).cbs v = (s.cbs v).insert (s.funcId, cb) := Function.update_self ..

@[simp] theorem ret_live (s : State ι τ κ) (t : τ) (v : ι) (cb : κ) :
    (s.ret t v cb).live v = s.live v ++ [(s.funcId, cb)] := Function.update_self ..

@[simp] theorem ret_ids (s : State ι τ κ) (t : τ) (v : ι) (cb : κ) :
    (s.ret t v cb).ids v = s.ids v ++ [s.funcId] := by
  simp [ids, ret]

omit [DecidableEq τ] in
@[simp] theorem delListener_cbs (s : State ι τ κ) (v : ι) (id : ℕ) :
    (s.delListener v id).cbs v = (s.cbs v).erase id := Function.update_self ..

omit [DecidableEq τ] in
@[simp] theorem delListener_live (s : State ι τ κ) (v : ι) (id : ℕ) :
    (s.delListener v id).live v = (s.live v).filter fun p => p.1 ≠ id := Function.update_self ..

omit [DecidableEq τ] in
@[simp] theorem clearListener_cbs (s : State ι τ κ) (v : ι) :
    (s.clearListener v).cbs v = .empty := Function.update_self ..

omit [DecidableEq τ] in
@[simp] theorem clearListener_live (s : State ι τ κ) (v : ι) :
    (s.clearListener v).live v = [] := Function.update_self ..

/-- What a caller of `addListener` goes by. -/
structure Sound (s : State ι τ κ) : Prop where
  registered : ∀ v, ∀ p ∈ s.live v, s.getListener v p.1 = some p.2
  distinct : ∀ v, (s.ids v).Nodup
  removes : ∀ v, ∀ p ∈ s.live v, ∀ s', s.step (.delListener v p.1) = some s' →
    (∀ q, q ∈ (s'.cbs v).elems ↔ q ∈ (s.cbs v).elems ∧ q ≠ p) ∧ ∀ w, w ≠ v → s'.cbs w = s.cbs w

/-- When a call returns, the counter is where its insertion found it, and has not come round to
an id that the variable has returned before. -/
def Unmoved (s : State ι τ κ) : Action ι τ κ → Prop
  | .ret t => ∀ v cb id, s.pc t = .inserted v cb id → s.funcId = id ∧ s.funcId ∉ s.ids v
  | _ => True

/-- The steps there are. -/
inductive Step (s : State ι τ κ) : Action ι τ κ → State ι τ κ → Prop
  | addListener {t : τ} {v : ι} (cb : κ) (hpc : s.pc t = .idle) (hfree : s.writer v = none) :
      Step s (.addListener t v cb) (s.lock t v cb)
  | increment {t : τ} {v : ι} {cb : κ} (hpc : s.pc t = .locked v cb) :
      Step s (.increment t) (s.increment t v cb)
  | insert {t : τ} {v : ι} {cb : κ} (hpc : s.pc t = .counted v cb) :
      Step s (.insert t) (s.insert t v cb)
  | ret {t : τ} {v : ι} {cb : κ} {id : ℕ} (hpc : s.pc t = .inserted v cb id) :
      Step s (.ret t) (s.ret t v cb)
  | delListener {v : ι} (id : ℕ) (hfree : s.writer v = none) :
      Step s (.delListener v id) (s.delListener v id)
  | clearListener {v : ι} (hfree : s.writer v = none) :
      Step s (.clearListener v) (s.clearListener v)

theorem step_cases {s s' : State ι τ κ} {a : Action ι τ κ} (h : s.step a = some s') :
    s.Step a s' := by
  cases a with
  | addListener t v cb =>
    simp only [step] at h
    split at h
    case h_2 => cases h
    case h_1 hpc hfree =>
      cases h
      exact .addListener cb hpc hfree
  | increment t =>
    simp only [step] at h
    split at h
    case h_2 => cases h
    case h_1 v cb hpc =>
      cases h
      exact .increment hpc
  | insert t =>
    simp only [step] at h
    split at h
    case h_2 => cases h
    case h_1 v cb hpc =>
      cases h
      exact .insert hpc
  | ret t =>
    simp only [step] at h
    split at h
    case h_2 => cases h
    case h_1 v cb id hpc =>
      cases h
      exact .ret hpc
  | delListener v id =>
    simp only [step] at h
    split at h
    case isFalse => cases h
    case isTrue hfree =>
      cases h
      exact .delListener id (Option.isNone_iff_eq_none.mp hfree)
  | clearListener v =>
    simp only [step] at h
    split at h
    case isFalse => cases h
    case isTrue hfree =>
      cases h
      exact .clearListener (Option.isNone_iff_eq_none.mp hfree)

/-! ### What a call relies on -/

/-- Whatever is registered was registered by a call that has returned. -/
def Settled (s : State ι τ κ) (v : ι) : Prop := ∀ p ∈ (s.cbs v).elems, p.1 ∈ s.ids v

/-- A call has the lock, and what it inserted is the one thing in the variable that is not settled;
the insertion is ignored only under an id the variable has returned. -/
def Call (s : State ι τ κ) (t : τ) : Pc ι κ → Prop
  | .idle => True
  | .locked v _ => s.writer v = some t ∧ s.Settled v
  | .counted v _ => s.writer v = some t ∧ s.Settled v
  | .inserted v cb id => s.writer v = some t ∧
      (∀ p ∈ (s.cbs v).elems, p.1 ∈ s.ids v ∨ p = (id, cb)) ∧
      (id ∉ s.ids v → (id, cb) ∈ (s.cbs v).elems)

structure Inv (s : State ι τ κ) : Prop where
  registered : ∀ v, ∀ p ∈ s.live v, p ∈ (s.cbs v).elems
  distinct : ∀ v, (s.ids v).Nodup
  settled : ∀ v, s.writer v = none → s.Settled v
  calls : ∀ t, s.Call t (s.pc t)

omit [DecidableEq ι] [DecidableEq τ] in
theorem initial_inv : (initial ι τ κ).Inv where
  registered _ _ hp := absurd hp List.not_mem_nil
  distinct _ := List.nodup_nil
  settled _ _ _ hp := absurd hp List.not_mem_nil
  calls _ := trivial

omit [DecidableEq ι] [DecidableEq τ] in
theorem getListener_eq_some {s : State ι τ κ} {v : ι} {id : ℕ} {cb : κ} :
    s.getListener v id = some cb ↔ (id, cb) ∈ (s.cbs v).elems := by
  unfold getListener
  rw [Option.map_eq_some_iff]
  constructor
  · intro ⟨p, hp, hcb⟩
    obtain ⟨hmem, hid⟩ := SortedBy.find?_eq_some.mp hp
    subst hid hcb
    exact hmem
  · intro hmem
    exact ⟨(id, cb), SortedBy.find?_key hmem, rfl⟩

theorem Inv.sound {s : State ι τ κ} (hs : s.Inv) : s.Sound where
  registered v p hp := getListener_eq_some.mpr (hs.registered v p hp)
  distinct := hs.distinct
  removes v p hp s' h := by
    have hmem := hs.registered v p hp
    cases step_cases h
    refine ⟨fun q => ?_, fun w hw => Function.update_of_ne hw _ _⟩
    rw [delListener_cbs, SortedBy.mem_erase]
    refine and_congr_right fun hq => not_congr ⟨fun hkey => ?_, congrArg Prod.fst⟩
    have hfind := SortedBy.find?_key hmem
    rw [← hkey, SortedBy.find?_key hq] at hfind
    exact Option.some.inj hfind

/-! ### Steps -/

/-- What a call relies on of a variable is as it was. -/
structure Same (s s' : State ι τ κ) (v : ι) : Prop where
  writer : s'.writer v = s.writer v
  cbs : s'.cbs v = s.cbs v
  returned : s'.returned v = s.returned v
  live : s'.live v = s.live v

omit [DecidableEq ι] [DecidableEq τ] in
theorem Same.ids {s s' : State ι τ κ} {v : ι} (h : s.Same s' v) : s'.ids v = s.ids v := by
  rw [State.ids, State.ids, h.returned]

omit [DecidableEq ι] [DecidableEq τ] in
theorem Same.settled {s s' : State ι τ κ} {v : ι} (h : s.Same s' v) (hs : s.Settled v) :
    s'.Settled v := by
  intro p hp
  rw [h.cbs] at hp
  rw [h.ids]
  exact hs p hp

omit [DecidableEq ι] [DecidableEq τ] in
/-- A call does not notice what happens to variables it has not locked. -/
theorem Call.frame {s s' : State ι τ κ} {t : τ} {pc : Pc ι κ} (hs : s.Call t pc)
    (hsame : ∀ v, s.writer v = some t → s.Same s' v) : s'.Call t pc := by
  cases pc with
  | idle => trivial
  | locked v cb =>
    have h := hsame v hs.1
    exact ⟨h.writer.trans hs.1, h.settled hs.2⟩
  | counted v cb =>
    have h := hsame v hs.1
    exact ⟨h.writer.trans hs.1, h.settled hs.2⟩
  | inserted v cb id =>
    obtain ⟨hwriter, hone, hin⟩ := hs
    have h := hsame v hwriter
    refine ⟨h.writer.trans hwriter, ?_, ?_⟩
    · rw [h.cbs, h.ids]
      exact hone
    · rw [h.cbs, h.ids]
      exact hin

omit [DecidableEq ι] in
/-- A step on one variable by the thread that has it, or by one that finds it free. -/
theorem calls_step {s s' : State ι τ κ} {t : τ} {v : ι} {pc : Pc ι κ}
    (hs : ∀ u, s.Call u (s.pc u)) (hv : ∀ u, s.writer v = some u → u = t)
    (hpc : s'.pc = Function.update s.pc t pc) (hsame : ∀ w, w ≠ v → s.Same s' w)
    (ht : s'.Call t pc) (u : τ) : s'.Call u (s'.pc u) := by
  rw [hpc]
  by_cases hu : u = t
  · subst hu
    rw [Function.update_self]
    exact ht
  · rw [Function.update_of_ne hu]
    refine (hs u).frame fun w hw => hsame w fun hwv => hu (hv u ?_)
    rw [← hwv]
    exact hw

omit [DecidableEq τ] in
/-- After a step on one variable, only that variable has to be looked at. -/
theorem Inv.step_at {s s' : State ι τ κ} {v : ι} (hs : s.Inv) (hsame : ∀ w, w ≠ v → s.Same s' w)
    (hregistered : ∀ p ∈ s'.live v, p ∈ (s'.cbs v).elems) (hdistinct : (s'.ids v).Nodup)
    (hsettled : s'.writer v = none → s'.Settled v) (hcalls : ∀ t, s'.Call t (s'.pc t)) :
    s'.Inv where
  registered w := by
    by_cases hw : w = v
    · subst hw
      exact hregistered
    · rw [(hsame w hw).live, (hsame w hw).cbs]
      exact hs.registered w
  distinct w := by
    by_cases hw : w = v
    · subst hw
      exact hdistinct
    · rw [(hsame w hw).ids]
      exact hs.distinct w
  settled w hfree := by
    by_cases hw : w = v
    · subst hw
      exact hsettled hfree
    · rw [(hsame w hw).writer] at hfree
      exact (hsame w hw).settled (hs.settled w hfree)
  calls := hcalls

theorem lock_inv {s : State ι τ κ} {t : τ} {v : ι} (cb : κ) (hs : s.Inv)
    (hfree : s.writer v = none) : (s.lock t v cb).Inv := by
  have hsame : ∀ w, w ≠ v → s.Same (s.lock t v cb) w := fun w hw =>
    ⟨Function.update_of_ne hw _ _, rfl, rfl, rfl⟩
  refine hs.step_at hsame (hs.registered v) (hs.distinct v) (fun _ => hs.settled v hfree) ?_
  refine calls_step hs.calls (fun u hu => ?_) rfl hsame
    ⟨Function.update_self .., hs.settled v hfree⟩
  rw [hfree] at hu
  cases hu

theorem increment_inv {s : State ι τ κ} {t : τ} {v : ι} {cb : κ} (hs : s.Inv)
    (hpc : s.pc t = .locked v cb) : (s.increment t v cb).Inv := by
  obtain ⟨hwriter, hsettled⟩ : s.Call t (.locked v cb) := hpc ▸ hs.calls t
  have hsame : ∀ w, w ≠ v → s.Same (s.increment t v cb) w := fun w hw => ⟨rfl, rfl, rfl, rfl⟩
  refine hs.step_at hsame (hs.registered v) (hs.distinct v) (hs.settled v) ?_
  refine calls_step hs.calls (fun u hu => ?_) rfl hsame ⟨hwriter, hsettled⟩
  exact Option.some.inj (hu.symm.trans hwriter)

/-- Only the thread that inserts has the variable, so nothing else relies on it. -/
theorem insert_inv {s : State ι τ κ} {t : τ} {v : ι} {cb : κ} (hs : s.Inv)
    (hpc : s.pc t = .counted v cb) : (s.insert t v cb).Inv := by
  obtain ⟨hwriter, hsettled⟩ : s.Call t (.counted v cb) := hpc ▸ hs.calls t
  have hsame : ∀ w, w ≠ v → s.Same (s.insert t v cb) w := fun w hw =>
    ⟨rfl, Function.update_of_ne hw _ _, rfl, rfl⟩
  have hcbs : ∀ p, p ∈ ((s.insert t v cb).cbs v).elems ↔
      p ∈ (s.cbs v).elems ∨ p = (s.funcId, cb) ∧ (s.cbs v).find? s.funcId = none := by
    intro p
    rw [insert_cbs, SortedBy.mem_insert]
  have htaken : s.funcId ∉ s.ids v → (s.cbs v).find? s.funcId = none := by
    intro hnew
    refine SortedBy.find?_eq_none.mpr fun p hp hid => hnew ?_
    rw [← hid]
    exact hsettled p hp
  refine hs.step_at hsame ?_ (hs.distinct v) ?_ ?_
  · intro p hp
    exact (hcbs p).mpr (.inl (hs.registered v p hp))
  · intro hfree
    exact absurd (hwriter.symm.trans hfree) (by simp)
  · refine calls_step hs.calls (fun u hu => ?_) rfl hsame ⟨hwriter, ?_, ?_⟩
    · exact Option.some.inj (hu.symm.trans hwriter)
    · intro p hp
      rcases (hcbs p).mp hp with hold | ⟨hp, _⟩
      · exact .inl (hsettled p hold)
      · exact .inr hp
    · intro hnew
      exact (hcbs _).mpr (.inr ⟨rfl, htaken hnew⟩)

theorem ret_same (s : State ι τ κ) (t : τ) {v w : ι} (cb : κ) (hw : w ≠ v) :
    s.Same (s.ret t v cb) w :=
  ⟨Function.update_of_ne hw _ _, rfl, Function.update_of_ne hw _ _, Function.update_of_ne hw _ _⟩

theorem ret_inv {s : State ι τ κ} {t : τ} {v : ι} {cb : κ} {id : ℕ} (hs : s.Inv)
    (hpc : s.pc t = .inserted v cb id) (hid : s.funcId = id) (hnew : s.funcId ∉ s.ids v) :
    (s.ret t v cb).Inv := by
  obtain ⟨hwriter, hone, hin⟩ : s.Call t (.inserted v cb id) := hpc ▸ hs.calls t
  subst hid
  have hsame : ∀ w, w ≠ v → s.Same (s.ret t v cb) w := fun w hw => ret_same s t cb hw
  refine hs.step_at hsame ?_ ?_ (fun _ p hp => ?_) ?_
  · intro p hp
    rw [ret_live] at hp
    rcases List.mem_append.mp hp with hold | hp
    · exact hs.registered v p hold
    · rw [List.mem_singleton.mp hp]
      exact hin hnew
  · rw [ret_ids]
    exact List.nodup_append.mpr ⟨hs.distinct v, List.pairwise_singleton .., fun a ha b hb => by
      rw [List.mem_singleton.mp hb]
      exact fun hab => hnew (hab ▸ ha)⟩
  · rw [ret_ids]
    rcases hone p hp with hold | rfl
    · exact List.mem_append_left _ hold
    · exact List.mem_append_right _ (List.mem_singleton_self _)
  · refine calls_step hs.calls (fun u hu => ?_) rfl hsame trivial
    exact Option.some.inj (hu.symm.trans hwriter)

omit [DecidableEq τ] in
/-- What only takes listeners out of a variable that no call has. -/
theorem erased_inv {s s' : State ι τ κ} {v : ι} (hs : s.Inv) (hfree : s.writer v = none)
    (hsame : ∀ w, w ≠ v → s.Same s' w) (hpc : s'.pc = s.pc) (hids : s'.ids v = s.ids v)
    (hcbs : ∀ p ∈ (s'.cbs v).elems, p ∈ (s.cbs v).elems)
    (hlive : ∀ p ∈ s'.live v, p ∈ (s'.cbs v).elems) : s'.Inv := by
  refine hs.step_at hsame hlive ?_ (fun _ p hp => ?_) (fun u => ?_)
  · rw [hids]
    exact hs.distinct v
  · rw [hids]
    exact hs.settled v hfree p (hcbs p hp)
  · rw [hpc]
    refine (hs.calls u).frame fun w hw => hsame w fun hwv => ?_
    rw [hwv, hfree] at hw
    cases hw

omit [DecidableEq τ] in
theorem delListener_inv {s : State ι τ κ} {v : ι} (id : ℕ) (hs : s.Inv)
    (hfree : s.writer v = none) : (s.delListener v id).Inv := by
  refine erased_inv hs hfree (fun w hw => ⟨rfl, Function.update_of_ne hw _ _, rfl,
    Function.update_of_ne hw _ _⟩) rfl rfl (fun p hp => ?_) (fun p hp => ?_)
  · rw [delListener_cbs, SortedBy.mem_erase] at hp
    exact hp.1
  · rw [delListener_live] at hp
    rw [delListener_cbs]
    obtain ⟨hlive, hid⟩ := List.mem_filter.mp hp
    exact SortedBy.mem_erase.mpr ⟨hs.registered v p hlive, of_decide_eq_true hid⟩

omit [DecidableEq τ] in
theorem clearListener_inv {s : State ι τ κ} {v : ι} (hs : s.Inv) (hfree : s.writer v = none) :
    (s.clearListener v).Inv := by
  refine erased_inv hs hfree (fun w hw => ⟨rfl, Function.update_of_ne hw _ _, rfl,
    Function.update_of_ne hw _ _⟩) rfl rfl (fun p hp => ?_) (fun p hp => ?_)
  · rw [clearListener_cbs] at hp
    exact absurd hp List.not_mem_nil
  · rw [clearListener_live] at hp
    exact absurd hp List.not_mem_nil

theorem step_inv {s s' : State ι τ κ} {a : Action ι τ κ} (hs : s.Inv) (ha : s.Unmoved a)
    (h : s.step a = some s') : s'.Inv := by
  cases step_cases h with
  | addListener cb _ hfree => exact lock_inv cb hs hfree
  | increment hpc => exact increment_inv hs hpc
  | insert hpc => exact insert_inv hs hpc
  | ret hpc =>
    obtain ⟨hid, hnew⟩ := ha _ _ _ hpc
    exact ret_inv hs hpc hid hnew
  | delListener id hfree => exact delListener_inv id hs hfree
  | clearListener hfree => exact clearListener_inv hs hfree

/-- A return the counter has moved under gives an id that the callback is not registered under, or
one that another call has. -/
theorem ret_unsound {s : State ι τ κ} {t : τ} {v : ι} {cb : κ} {id : ℕ} (hs : s.Inv)
    (hpc : s.pc t = .inserted v cb id) (ha : ¬ s.Unmoved (.ret t)) : ¬ (s.ret t v cb).Sound := by
  obtain ⟨_, hone, _⟩ : s.Call t (.inserted v cb id) := hpc ▸ hs.calls t
  intro hsound
  have hnew : s.funcId ∉ s.ids v := by
    have hnodup := hsound.distinct v
    rw [ret_ids] at hnodup
    intro hmem
    exact (List.nodup_append.mp hnodup).2.2 _ hmem _ (List.mem_singleton_self _) rfl
  have hin : (s.funcId, cb) ∈ (s.cbs v).elems := by
    refine getListener_eq_some.mp (hsound.registered v (s.funcId, cb) ?_)
    rw [ret_live]
    exact List.mem_append_right _ (List.mem_singleton_self _)
  refine ha fun w cb' id' hpc' => ?_
  cases hpc.symm.trans hpc'
  refine ⟨?_, hnew⟩
  rcases hone _ hin with hold | hp
  · exact absurd hold hnew
  · exact congrArg Prod.fst hp

theorem moved_unsound {s s' : State ι τ κ} {a : Action ι τ κ} (hs : s.Inv) (ha : ¬ s.Unmoved a)
    (h : s.step a = some s') : ¬ s'.Sound := by
  cases step_cases h with
  | ret hpc => exact ret_unsound hs hpc ha
  | _ => exact absurd trivial ha

def machine (ι τ κ : Type) [DecidableEq ι] [DecidableEq τ] :
    Machine (State ι τ κ) (Action ι τ κ) := ⟨step⟩

/-- Whatever calls are made from whatever threads, listeners are under their own ids throughout the
run exactly if no return finds the counter moved. -/
theorem sound_iff_unmoved (acts : List (Action ι τ κ)) (s : State ι τ κ)
    (hrun : (machine ι τ κ).run (initial ι τ κ) acts = some s) :
    (machine ι τ κ).Throughout Sound (initial ι τ κ) acts ↔
      (machine ι τ κ).Along Unmoved (initial ι τ κ) acts :=
  Machine.throughout_iff_along (fun _ _ _ hs ha h => step_inv hs ha h) (fun _ hs => hs.sound)
    (fun _ _ _ hs ha h => moved_unsound hs ha h) initial_inv hrun

/-! ### Calls that keep apart -/

/-- Nobody increments the counter while another call stands between its insertion and its return,
or when the counter is at its end. -/
def Apart (s : State ι τ κ) : Action ι τ κ → Prop
  | .increment _ => (∀ u v cb id, s.pc u ≠ .inserted v cb id) ∧ s.funcId + 1 < 2 ^ 64
  | _ => True

/-- Once a call has incremented, the counter is ahead of all ids of its variable. -/
def Leads (s : State ι τ κ) : Pc ι κ → Prop
  | .counted v _ => ∀ id ∈ s.ids v, id < s.funcId
  | .inserted v _ id => s.funcId = id ∧ ∀ old ∈ s.ids v, old < s.funcId
  | _ => True

structure Ahead (s : State ι τ κ) : Prop where
  returned : ∀ v, ∀ id ∈ s.ids v, id ≤ s.funcId
  calls : ∀ t, s.Leads (s.pc t)

omit [DecidableEq ι] [DecidableEq τ] in
theorem Ahead.unmoved {s : State ι τ κ} (hs : s.Ahead) (a : Action ι τ κ) : s.Unmoved a := by
  cases a with
  | ret t =>
    intro v cb id hpc
    obtain ⟨hid, hlt⟩ : s.Leads (.inserted v cb id) := hpc ▸ hs.calls t
    exact ⟨hid, fun hmem => absurd (hlt _ hmem) (Nat.lt_irrefl _)⟩
  | _ => trivial

omit [DecidableEq ι] in
/-- A step of one thread, where the others find the counter ahead as before. -/
theorem leads_step {s s' : State ι τ κ} {t : τ} {pc : Pc ι κ}
    (hpc : s'.pc = Function.update s.pc t pc) (ht : s'.Leads pc)
    (hothers : ∀ u, u ≠ t → s'.Leads (s.pc u)) (u : τ) : s'.Leads (s'.pc u) := by
  rw [hpc]
  by_cases hu : u = t
  · subst hu
    rw [Function.update_self]
    exact ht
  · rw [Function.update_of_ne hu]
    exact hothers u hu

omit [DecidableEq ι] in
theorem increment_ahead {s : State ι τ κ} {t : τ} {v : ι} {cb : κ} (hs : s.Ahead)
    (hnone : ∀ u w cb' id, s.pc u ≠ .inserted w cb' id) (hlt : s.funcId + 1 < 2 ^ 64) :
    (s.increment t v cb).Ahead := by
  have hid : (s.increment t v cb).funcId = s.funcId + 1 := Nat.mod_eq_of_lt hlt
  have hbehind : ∀ w, ∀ id ∈ s.ids w, id < s.funcId + 1 := fun w id h =>
    Nat.lt_succ_of_le (hs.returned w id h)
  refine ⟨fun w id h => ?_, leads_step rfl ?_ fun u _ => ?_⟩
  · rw [hid]
    exact Nat.le_of_lt (hbehind w id h)
  · intro id h
    rw [hid]
    exact hbehind v id h
  · cases hpc : s.pc u with
    | idle => trivial
    | locked w cb' => trivial
    | counted w cb' =>
      intro id h
      rw [hid]
      exact hbehind w id h
    | inserted w cb' id => exact absurd hpc (hnone u w cb' id)

/-- The id returned is added to those of a variable that no other call has. -/
theorem ret_ahead {s : State ι τ κ} {t : τ} {v : ι} {cb : κ} {id : ℕ} (hinv : s.Inv) (hs : s.Ahead)
    (hpc : s.pc t = .inserted v cb id) : (s.ret t v cb).Ahead := by
  have hother : ∀ w, w ≠ v → (s.ret t v cb).ids w = s.ids w := fun w hw => (ret_same s t cb hw).ids
  have hmine : s.writer v = some t := by
    have hcall : s.Call t (.inserted v cb id) := hpc ▸ hinv.calls t
    exact hcall.1
  have hleave : ∀ u w, u ≠ t → s.writer w = some u → w ≠ v := by
    intro u w hu hw hwv
    rw [hwv, hmine] at hw
    exact hu (Option.some.inj hw).symm
  refine ⟨fun w old h => ?_, leads_step rfl trivial fun u hu => ?_⟩
  · by_cases hw : w = v
    · subst hw
      rw [ret_ids] at h
      rcases List.mem_append.mp h with h | h
      · exact hs.returned w old h
      · exact Nat.le_of_eq (List.mem_singleton.mp h)
    · rw [hother w hw] at h
      exact hs.returned w old h
  · have hcall := hinv.calls u
    have hleads := hs.calls u
    cases hat : s.pc u with
    | idle => trivial
    | locked w cb' => trivial
    | counted w cb' =>
      rw [hat] at hcall hleads
      rw [Leads, hother w (hleave u w hu hcall.1)]
      exact hleads
    | inserted w cb' id' =>
      rw [hat] at hcall hleads
      rw [Leads, hother w (hleave u w hu hcall.1)]
      exact hleads

theorem step_ahead {s s' : State ι τ κ} {a : Action ι τ κ} (hinv : s.Inv) (hs : s.Ahead)
    (ha : s.Apart a) (h : s.step a = some s') : s'.Ahead := by
  cases step_cases h with
  | addListener cb _ _ => exact ⟨hs.returned, leads_step rfl trivial fun u _ => hs.calls u⟩
  | increment _ => exact increment_ahead hs ha.1 ha.2
  | insert hpc =>
    have hlead : s.Leads (.counted _ _) := hpc ▸ hs.calls _
    exact ⟨hs.returned, leads_step rfl ⟨rfl, hlead⟩ fun u _ => hs.calls u⟩
  | ret hpc => exact ret_ahead hinv hs hpc
  | delListener _ _ => exact ⟨hs.returned, hs.calls⟩
  | clearListener _ => exact ⟨hs.returned, hs.calls⟩

/-- Calls that keep apart find the counter unmoved. -/
theorem unmoved_of_apart {acts : List (Action ι τ κ)}
    (h : (machine ι τ κ).Along Apart (initial ι τ κ) acts) :
    (machine ι τ κ).Along Unmoved (initial ι τ κ) acts :=
  Machine.Along.always
    (fun _ a _ (hs : Inv _ ∧ Ahead _) ha hstep =>
      ⟨step_inv hs.1 (hs.2.unmoved a) hstep, step_ahead hs.1 hs.2 ha hstep⟩)
    (fun _ a hs _ => hs.2.unmoved a)
    ⟨initial_inv, fun _ _ hid => absurd hid List.not_mem_nil, fun _ => trivial⟩ h

/-- Two threads add a listener to a variable each, one call after the other; the first is deleted. -/
def inTurn : List (Action Bool Bool Char) :=
  [.addListener false false 'a', .increment false, .insert false, .ret false,
    .addListener true true 'b', .increment true, .insert true, .ret true, .delListener false 1]

theorem inTurn_sound :
    ∃ s, (machine Bool Bool Char).run (initial Bool Bool Char) inTurn = some s ∧
      s.getListener false 1 = none ∧ s.getListener true 2 = some 'b' ∧
        (machine Bool Bool Char).Throughout Sound (initial Bool Bool Char) inTurn := by
  refine ⟨_, rfl, rfl, rfl, (sound_iff_unmoved inTurn _ rfl).mpr ?_⟩
  refine .cons trivial rfl <| .cons trivial rfl <| .cons trivial rfl <| .cons ?_ rfl <|
    .cons trivial rfl <| .cons trivial rfl <| .cons trivial rfl <| .cons ?_ rfl <|
    .cons trivial rfl trivial
  · intro v cb id hpc
    cases hpc
    exact ⟨rfl, List.not_mem_nil⟩
  · intro v cb id hpc
    cases hpc
    exact ⟨rfl, List.not_mem_nil⟩

/-- A call on another variable increments the counter before the first call returns: the callback
is under 1, the caller has 2. -/
theorem overtaken_unsound :
    ∃ s, (machine Bool Bool Char).run (initial Bool Bool Char)
      [.addListener false false 'a', .increment false, .insert false,
        .addListener true true 'b', .increment true, .ret false] = some s ∧
        s.returned false = [(2, 'a')] ∧ s.getListener false 2 = none ∧
          s.getListener false 1 = some 'a' ∧ ¬ s.Sound := by
  refine ⟨_, rfl, rfl, rfl, rfl, fun hsound => ?_⟩
  have hlost := hsound.registered false (2, 'a') (List.mem_singleton_self _)
  cases hlost

end State
end SimpleHttpServer.Listeners
