import SimpleHttpServer.Lib.Machine
import Mathlib.Data.List.Basic

/-! The accept loop of the server (`HttpServer`).

The handler of an accept starts the next accept whatever the outcome was, so the
number of accepts under way is the number of calls of `start`, for good. Closing
the acceptor makes each of them fail, which starts as many again. -/
namespace SimpleHttpServer

/-- The acceptor, its accepts under way, and the connections handed to a thread. Accepts are
numbered in the order they are started. -/
structure HttpServer where
  isOpen : Bool
  started : ℕ
  pending : List ℕ
  accepted : ℕ
  deriving DecidableEq

namespace HttpServer

/-- `HttpServer::HttpServer`: the acceptor listens. -/
def new : HttpServer := ⟨true, 0, [], 0⟩

/-- `accept_connection`: one `async_accept`. -/
def acceptConnection (s : HttpServer) : HttpServer :=
  {s with started := s.started + 1, pending := s.pending ++ [s.started]}

def start (s : HttpServer) : HttpServer := s.acceptConnection

def stop (s : HttpServer) : HttpServer := {s with isOpen := false}

/-- The handler of the accept `op`: a connection goes to `handle_request` on a thread of its own. -/
def handle (op : ℕ) (ec : Bool) (s : HttpServer) : HttpServer :=
  let s := {s with pending := s.pending.erase op}
  let s := if !ec then {s with accepted := s.accepted + 1} else s
  s.acceptConnection

inductive Act
  | start
  | stop
  /-- An accept completes, with an error or not. -/
  | complete (op : ℕ) (ec : Bool)
  deriving DecidableEq

/-- An accept that is under way completes; on a closed acceptor, only with an error. -/
def step (s : HttpServer) : Act → Option HttpServer
  | .start => some s.start
  | .stop => some s.stop
  | .complete op ec => if op ∈ s.pending ∧ (s.isOpen || ec) then some (s.handle op ec) else none

def machine : Machine HttpServer Act := ⟨step⟩

/-- What `stop` is for: however the server runs on, unless it is started again, once the accepts
that are under way have completed nothing is under way any more, and no accept is started. -/
def Ends (s : HttpServer) : Prop :=
  ∀ acts t, Act.start ∉ acts → machine.run s acts = some t → (∀ op ∈ s.pending, op ∉ t.pending) →
    t.pending = [] ∧
      ∀ more u, Act.start ∉ more → machine.run t more = some u → u.started = t.started

theorem handle_pending (op : ℕ) (ec : Bool) (s : HttpServer) :
    (s.handle op ec).pending = s.pending.erase op ++ [s.started] ∧
      (s.handle op ec).started = s.started + 1 := by
  cases ec <;> exact ⟨rfl, rfl⟩

/-- As many accepts are under way as there were calls of `start`, and one more for each that is
made. -/
theorem pending_length {s t : HttpServer} {acts : List Act} (hrun : machine.run s acts = some t) :
    t.pending.length = s.pending.length + acts.count .start := by
  induction acts generalizing s with
  | nil =>
    cases hrun
    rfl
  | cons a rest ih =>
    obtain ⟨u, hu, hrest⟩ := machine.run_cons.mp hrun
    rw [ih hrest]
    cases a with
    | start =>
      cases hu
      rw [List.count_cons_self, start, acceptConnection, List.length_append, List.length_singleton]
      omega
    | stop =>
      cases hu
      rw [List.count_cons_of_ne (show Act.stop ≠ .start from nofun)]
      rfl
    | complete op ec =>
      rw [List.count_cons_of_ne (show Act.complete op ec ≠ .start from nofun)]
      replace hu : s.step (.complete op ec) = some u := hu
      rw [step] at hu
      split at hu
      case isFalse => cases hu
      case isTrue hop =>
        cases hu
        have hpos := List.length_pos_of_mem hop.1
        rw [(handle_pending op ec s).1, List.length_append, List.length_erase_of_mem hop.1,
          List.length_singleton]
        omega

/-- Every accept under way has a number that has been given out. -/
def Numbered (s : HttpServer) : Prop := ∀ op ∈ s.pending, op < s.started

theorem step_numbered {s t : HttpServer} {a : Act} (hs : s.Numbered) (h : s.step a = some t) :
    t.Numbered := by
  have hnext : ∀ {l : List ℕ}, (∀ op ∈ l, op < s.started) →
      ∀ op ∈ l ++ [s.started], op < s.started + 1 := by
    intro l hl op hop
    rcases List.mem_append.mp hop with hop | hop
    · exact Nat.lt_succ_of_lt (hl op hop)
    · rw [List.mem_singleton.mp hop]
      exact Nat.lt_succ_self _
  cases a with
  | start =>
    cases h
    exact hnext hs
  | stop =>
    cases h
    exact hs
  | complete op ec =>
    rw [step] at h
    split at h
    case isFalse => cases h
    case isTrue =>
      cases h
      intro op' hop'
      obtain ⟨hpending, hstarted⟩ := handle_pending op ec s
      rw [hpending] at hop'
      rw [hstarted]
      exact hnext (fun op hop => hs op (List.mem_of_mem_erase hop)) op' hop'

/-- All accepts under way fail, one after the other: as many new ones have taken their place. -/
theorem all_fail {s : HttpServer} (old new : List ℕ) (h : s.pending = old ++ new) :
    ∃ t news, machine.run s (old.map (.complete · true)) = some t ∧ t.pending = new ++ news ∧
      news.length = old.length ∧ ∀ op ∈ news, s.started ≤ op := by
  induction old generalizing s new with
  | nil => exact ⟨s, [], rfl, by rw [h]; simp, rfl, fun op hop => by cases hop⟩
  | cons op old ih =>
    have hmem : op ∈ s.pending := by
      rw [h]
      exact List.mem_cons_self ..
    have hstep : machine.step s (.complete op true) = some (s.handle op true) := by
      show s.step (.complete op true) = _
      rw [step, if_pos ⟨hmem, Bool.or_true _⟩]
    obtain ⟨hpending, hstarted⟩ := handle_pending op true s
    have hnext : (s.handle op true).pending = old ++ (new ++ [s.started]) := by
      rw [hpending, h, List.cons_append, List.erase_cons_head, List.append_assoc]
    obtain ⟨t, news, hrun, ht, hlength, hnews⟩ := ih (new ++ [s.started]) hnext
    refine ⟨t, s.started :: news, machine.run_cons.mpr ⟨_, hstep, hrun⟩, ?_, ?_, ?_⟩
    · rw [ht, List.append_assoc]
      rfl
    · rw [List.length_cons, List.length_cons, hlength]
    · intro op' hop'
      rcases List.mem_cons.mp hop' with rfl | hop'
      · exact Nat.le_refl _
      · have hle := hnews op' hop'
        rw [hstarted] at hle
        omega

/-- Without an accept under way, nothing starts one. -/
theorem quiet_run {s t : HttpServer} {acts : List Act} (hs : s.pending = [])
    (hstart : Act.start ∉ acts) (hrun : machine.run s acts = some t) :
    t.pending = [] ∧ t.started = s.started := by
  induction acts generalizing s with
  | nil =>
    cases hrun
    exact ⟨hs, rfl⟩
  | cons a rest ih =>
    obtain ⟨u, hu, hrest⟩ := machine.run_cons.mp hrun
    obtain ⟨ha, hnever⟩ := List.ne_and_not_mem_of_not_mem_cons hstart
    cases a with
    | start => exact absurd rfl ha
    | stop =>
      cases hu
      exact ih (s := s.stop) hs hnever hrest
    | complete op ec =>
      replace hu : s.step (.complete op ec) = some u := hu
      rw [step, hs] at hu
      simp at hu

/-- `stop()` ends the accept loop, where `start()` is not called behind it, exactly if there is none:
if `start()` was never called before it either. -/
theorem stop_ends_iff (acts : List Act) (s : HttpServer) (hrun : machine.run new acts = some s) :
    s.stop.Ends ↔ Act.start ∉ acts := by
  have hlength : s.pending.length = acts.count .start := by
    rw [pending_length hrun]
    exact Nat.zero_add _
  constructor
  · intro hends hmem
    have hnumbered : s.Numbered := @Machine.Reachable.invariant _ _ machine Numbered
      (fun _ _ _ hs h => step_numbered hs h) new s (fun _ hop => absurd hop List.not_mem_nil)
      ⟨acts, hrun⟩
    obtain ⟨t, news, hfail, ht, hnews, hfresh⟩ :=
      all_fail (s := s.stop) s.pending [] (List.append_nil _).symm
    have hempty : t.pending = [] := by
      refine (hends _ t (fun hstart => ?_) hfail ?_).1
      · obtain ⟨op, _, hop⟩ := List.mem_map.mp hstart
        cases hop
      · intro op hop hin
        rw [ht, List.nil_append] at hin
        have hlt := hnumbered op hop
        have hle : s.started ≤ op := hfresh op hin
        omega
    have hpos := List.count_pos_iff.mpr hmem
    rw [ht, List.nil_append] at hempty
    rw [hempty, List.length_nil] at hnews
    omega
  · intro hmem acts' t hstart hrun' _
    have hnone : s.stop.pending = [] := by
      refine List.length_eq_zero_iff.mp ?_
      show s.pending.length = 0
      rw [hlength, List.count_eq_zero.mpr hmem]
    obtain ⟨ht, _⟩ := quiet_run hnone hstart hrun'
    exact ⟨ht, fun more u hmore hu => (quiet_run ht hmore hu).2⟩

/-- Stopped before it is started, and behind one connection. -/
theorem never_started_ends :
    (stop new).Ends ∧
      machine.run new [.start, .complete 0 false] = some ⟨true, 2, [1], 1⟩ ∧
      ¬ (stop ⟨true, 2, [1], 1⟩).Ends := by
  have hrun : machine.run new [.start, .complete 0 false] = some ⟨true, 2, [1], 1⟩ := by decide
  refine ⟨(stop_ends_iff [] new rfl).mpr List.not_mem_nil, hrun, ?_⟩
  rw [stop_ends_iff [.start, .complete 0 false] _ hrun]
  decide

/-- Started and stopped: the accept under way fails, and another is under way. -/
theorem started_goes_on :
    machine.run new [.start, .stop, .complete 0 true] = some ⟨false, 2, [1], 0⟩ ∧
      ¬ (stop (start new)).Ends := by
  refine ⟨by decide, fun hends => ?_⟩
  have hquiet := (hends [.complete 0 true] ⟨false, 2, [1], 0⟩ (by decide) rfl (by decide)).1
  cases hquiet

end HttpServer
end SimpleHttpServer
