import Mathlib
import Bugat.Base.ConnectionSocket

/-!
# The session of a connection that was closed

Every call of `Session::Close` posts a task, and so does the `OnClose` of the connection,
which such a task may itself bring about. When all of them have run, `OnClose` of the
session has been fired once for each.
-/

open scoped BigOperators

namespace Bugat.Connection

open Transition (exec)

variable {Tid : Type*} [Fintype Tid] [DecidableEq Tid] {s s' : State Tid} {packetSize : ℤ}

def Pc.atRest : Pc → Bool
  | .idle | .session .idle => true
  | _ => false

structure Settled (s : State Tid) : Prop where
  callers : ∀ t, (s.thread (.inl t)).atRest = true
  session : (s.thread (.inr .session)).atRest = true
  tasks : s.shared.tasks = []
  running : s.shared.running = false
  sessionTasks : s.shared.sessionTasks = []

omit [Fintype Tid] [DecidableEq Tid] in
theorem settled_iff : Settled s ↔ (∀ t, (s.thread (.inl t)).atRest = true) ∧
    (s.thread (.inr .session)).atRest = true ∧ s.shared.tasks = [] ∧ s.shared.running = false ∧
    s.shared.sessionTasks.isEmpty = true := by
  constructor
  · intro hs
    exact ⟨hs.callers, hs.session, hs.tasks, hs.running, List.isEmpty_iff.mpr hs.sessionTasks⟩
  · rintro ⟨hcallers, hsession, htasks, hrunning, hsessionTasks⟩
    exact ⟨hcallers, hsession, htasks, hrunning, List.isEmpty_iff.mp hsessionTasks⟩

instance (s : State Tid) : Decidable (Settled s) := decidable_of_iff' _ settled_iff

theorem Pc.closing_of_atRest {pc : Pc} (hrest : pc.atRest = true) :
    pc.closing = 0 ∧ pc.sessionClosing = 0 := by
  cases pc with
  | idle => exact ⟨rfl, rfl⟩
  | session pc =>
    cases pc with
    | idle => exact ⟨rfl, rfl⟩
    | handle packet | test | release | onClose => cases hrest
  | start pc | close pc after | thrown after | recv pc msg | send pc sendingPacket helper |
    crashed | finished => cases hrest

theorem Pc.closing_le_inside {pc : Pc} (hkind : pc.kind = .coroutine) : pc.closing ≤ pc.inside := by
  cases pc with
  | close pc after =>
    obtain rfl : after = .coroutine := hkind
    cases pc with
    | exchange expect attempts => exact Nat.zero_le _
    | testSocket | closeSocket | resetSocket | onClose => exact le_rfl
  | thrown after =>
    obtain rfl : after = .coroutine := hkind
    exact le_rfl
  | idle | start pc | recv pc msg | send pc sendingPacket helper | crashed |
    finished | session pc => exact Nat.zero_le _

theorem Pc.sessionClosing_coroutine {pc : Pc} (hkind : pc.kind = .coroutine) :
    pc.sessionClosing = 0 := by
  cases pc with
  | close pc after | thrown after =>
    obtain rfl : after = .coroutine := hkind
    rfl
  | idle | start pc | session pc => cases hkind
  | recv pc msg | send pc sendingPacket helper | crashed | finished => rfl

omit [DecidableEq Tid] in
theorem Reached.settled_closing (hr : Reached s) (hs : Settled s) (i : Tid ⊕ Role) :
    (s.thread i).closing = 0 ∧ (s.thread i).sessionClosing = 0 := by
  have hinside : ∀ i, (s.thread i).inside = 0 := fun i => by
    have hle := Counting.le_sum s.thread Pc.inside i
    have hrunning := hr.running
    rw [hs.running] at hrunning
    change 0 = _ at hrunning
    omega
  match i with
  | .inl t => exact Pc.closing_of_atRest (hs.callers t)
  | .inr .session => exact Pc.closing_of_atRest hs.session
  | .inr .recv =>
    have hkind := hr.kind (.inr .recv)
    exact ⟨Nat.le_zero.mp ((Pc.closing_le_inside hkind).trans (hinside _).le),
      Pc.sessionClosing_coroutine hkind⟩
  | .inr .send =>
    have hkind := hr.kind (.inr .send)
    exact ⟨Nat.le_zero.mp ((Pc.closing_le_inside hkind).trans (hinside _).le),
      Pc.sessionClosing_coroutine hkind⟩

omit [DecidableEq Tid] in
theorem Reached.settled_sessionOnClose (hr : Reached s) (hs : Settled s) :
    s.shared.sessionOnClose = s.shared.sessionCloses + s.shared.wins := by
  have hcount := hr.session
  rw [Finset.sum_eq_zero fun i _ => by
    obtain ⟨hclosing, hsession⟩ := hr.settled_closing hs i
    rw [hclosing, hsession, Nat.add_zero], hs.sessionTasks, List.count_nil] at hcount
  omega

def Caused (s : State Tid) : Prop :=
  0 < s.shared.sessionCloses ∨ 0 < s.shared.events.count .onClose

instance (s : State Tid) : Decidable (Caused s) := inferInstanceAs (Decidable (_ ∨ _))

def DeliveredOnce (s : State Tid) : Prop :=
  s.shared.sessionOnClose = 1 ∧ s.shared.connection = false

instance (s : State Tid) : Decidable (DeliveredOnce s) := inferInstanceAs (Decidable (_ ∧ _))

omit [DecidableEq Tid] in
theorem Reached.settled_delivered_iff (hr : Reached s) (hs : Settled s) (hcause : Caused s) :
    DeliveredOnce s ↔ s.shared.sessionCloses = 0 := by
  obtain ⟨-, hinv, -⟩ := hr.holds.asserted
  have hfired := hr.settled_sessionOnClose hs
  have hclosed := hr.onClose
  have hpos : 0 < s.shared.sessionOnClose := by
    rcases hcause with hcalls | hevents <;> omega
  have hreleased := hinv.sessionOnClose hpos
  have hwins : s.shared.wins = 1 := by
    have hlife := hinv.lifecycle
    rw [Lifecycle, hinv.connection hreleased] at hlife
    exact hlife.2
  rw [DeliveredOnce, and_iff_left hreleased]
  omega

theorem session_close_delivered_once_iff (packetSize : ℤ) (memory : ℕ → DataBlock)
    (ls : List ((Tid ⊕ Role) × Action)) (s : State Tid)
    (hrun : exec (step packetSize) (init memory) ls = some s) (hsettled : Settled s)
    (hcause : Caused s) : DeliveredOnce s ↔ s.shared.sessionCloses = 0 :=
  (exec_reached hrun).settled_delivered_iff hsettled hcause

def closedByPeer : List ((Bool ⊕ Role) × Action) :=
  [(.inl false, .callStart), (.inl false, .go), (.inl false, .go), (.inl false, .go),
    (.inl false, .go), (.inr .send, .resume), (.inr .send, .go), (.inr .send, .go),
    (.inr .recv, .resume), (.inr .recv, .go), (.inr .recv, .go),
    (.inr .recv, .readCompletes none), (.inr .send, .resume), (.inr .send, .go),
    (.inr .send, .go), (.inr .recv, .resume), (.inr .recv, .go), (.inr .recv, .go),
    (.inr .recv, .go), (.inr .recv, .go), (.inr .recv, .go), (.inr .session, .go),
    (.inr .session, .go), (.inr .session, .go), (.inr .session, .go), (.inr .session, .go),
    (.inr .send, .resume), (.inr .send, .go), (.inr .send, .go)]

theorem closedByPeer_delivered : ∃ s : State Bool,
    exec (step maxTcpPacketSize) (init RecvLoop.blankMemory) closedByPeer = some s ∧
      Settled s ∧ Caused s ∧ (DeliveredOnce s ↔ s.shared.sessionCloses = 0) ∧ DeliveredOnce s := by
  have h : ((exec (step maxTcpPacketSize) (init RecvLoop.blankMemory : State Bool)
      closedByPeer).map fun s => decide (Settled s ∧ Caused s ∧ s.shared.sessionCloses = 0)) =
      some true := by
    decide
  obtain ⟨s, hrun, hs⟩ := Option.map_eq_some_iff.mp h
  obtain ⟨hsettled, hcause, hcalls⟩ := of_decide_eq_true hs
  have hiff := session_close_delivered_once_iff maxTcpPacketSize RecvLoop.blankMemory closedByPeer s
    hrun hsettled hcause
  exact ⟨s, hrun, hsettled, hcause, hiff, hiff.mpr hcalls⟩

def closedByGame : List ((Bool ⊕ Role) × Action) :=
  [(.inl false, .callStart), (.inl false, .go), (.inl false, .go), (.inl false, .go),
    (.inl false, .go), (.inr .send, .resume), (.inr .send, .go), (.inr .send, .go),
    (.inr .recv, .resume), (.inr .recv, .go), (.inr .recv, .go), (.inl true, .callSessionClose),
    (.inr .session, .go), (.inr .session, .go), (.inr .session, .go), (.inr .session, .go),
    (.inr .session, .go), (.inr .session, .go), (.inr .session, .go), (.inr .session, .go),
    (.inr .session, .go), (.inr .session, .go), (.inr .session, .go), (.inr .session, .go),
    (.inr .send, .resume), (.inr .send, .go), (.inr .send, .go),
    (.inr .recv, .readCompletes none), (.inr .recv, .resume), (.inr .recv, .go)]

theorem closedByGame_fired_twice : ∃ s : State Bool,
    exec (step maxTcpPacketSize) (init RecvLoop.blankMemory) closedByGame = some s ∧
      Settled s ∧ Caused s ∧ s.shared.sessionOnClose = 2 ∧ ¬ DeliveredOnce s := by
  have h : ((exec (step maxTcpPacketSize) (init RecvLoop.blankMemory : State Bool)
      closedByGame).map fun s => decide (Settled s ∧ Caused s ∧ s.shared.sessionOnClose = 2 ∧
        ¬ DeliveredOnce s)) = some true := by
    decide
  obtain ⟨s, hrun, hs⟩ := Option.map_eq_some_iff.mp h
  exact ⟨s, hrun, of_decide_eq_true hs⟩

end Bugat.Connection
