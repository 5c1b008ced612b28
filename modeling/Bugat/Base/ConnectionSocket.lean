import Mathlib
import Bugat.Base.ConnectionOrder

/-!
# The socket of a connection after Close

A coroutine tests `Disconnected()` in one step and dereferences `_socket` in a later one.
`Close` on another executor may reset the socket in between; in the runs in which it does
not, no null socket is ever dereferenced.
-/

open scoped BigOperators

namespace Bugat.Connection

open Transition (exec Along)

namespace Pc

def committed : Pc → Bool
  | .recv .use _ | .send .pop _ _ | .send .use _ _ => true
  | _ => false

def needs : Pc → Bool
  | .close .closeSocket _ => true
  | pc => pc.committed

def resetsNow : Pc → Bool
  | .close .resetSocket _ => true
  | _ => false

end Pc

section Steps

variable {u u' : Shared} {pc pc' : Pc} {packetSize : ℤ} {after : AfterClose} {a : Action}

structure Uses (u : Shared) (pc : Pc) (u' : Shared) (pc' : Pc) : Prop where
  uses : u'.uses = u.uses ∨ pc.needs = true ∧ u'.uses = u.uses ++ [u.socket]
  socket : u'.socket = u.socket ∨ pc.resetsNow = true
  needs : pc'.needs = true → u'.socket = u.socket ∧
    (u.state ≠ .disconnected ∨ u.socket = true ∨ pc.needs = true)

theorem uses_nothing (huses : u'.uses = u.uses) (hsocket : u'.socket = u.socket)
    (hpc : pc'.needs = false) : Uses u pc u' pc' :=
  ⟨.inl huses, .inl hsocket, fun h => absurd (hpc.symm.trans h) Bool.false_ne_true⟩

theorem returnClose_uses (u : Shared) (after : AfterClose) :
    (u.returnClose after).1.uses = u.uses ∧ (u.returnClose after).1.socket = u.socket ∧
      (u.returnClose after).2.needs = false := by
  cases after <;> exact ⟨rfl, rfl, rfl⟩

theorem close_uses {pc : ClosePc} :
    Uses u (.close pc after) (close u after pc).1 (close u after pc).2 := by
  cases pc with
  | exchange expect attempts =>
    rw [close]
    split
    · exact uses_nothing rfl rfl rfl
    · split
      · obtain ⟨huses, hsocket, hneeds⟩ := returnClose_uses u after
        exact uses_nothing huses hsocket hneeds
      · exact uses_nothing rfl rfl rfl
  | testSocket =>
    rw [close]
    split
    · rename_i hsocket
      exact ⟨.inl rfl, .inl rfl, fun _ => ⟨rfl, .inr (.inl hsocket)⟩⟩
    · exact uses_nothing rfl rfl rfl
  | closeSocket =>
    rw [close]
    split
    all_goals exact ⟨.inr ⟨rfl, rfl⟩, .inl rfl, fun h => by cases h⟩
  | resetSocket => exact ⟨.inl rfl, .inr rfl, fun h => by cases h⟩
  | onClose =>
    obtain ⟨huses, hsocket, hneeds⟩ := returnClose_uses u.fireOnClose after
    exact uses_nothing huses hsocket hneeds

theorem whileOpen_uses {next : Pc} : Uses u pc u (whileOpen u next) := by
  rw [whileOpen]
  split
  · exact uses_nothing rfl rfl rfl
  · rename_i hopen
    exact ⟨.inl rfl, .inl rfl, fun _ => ⟨rfl, .inl hopen⟩⟩

theorem await_uses {next : Pc} (hpc : pc.needs = true) (hnext : next.needs = false) :
    Uses u pc (await u next).1 (await u next).2 := by
  rw [await]
  split
  · exact ⟨.inr ⟨hpc, rfl⟩, .inl rfl, fun h => absurd (hnext.symm.trans h) Bool.false_ne_true⟩
  · exact ⟨.inr ⟨hpc, rfl⟩, .inl rfl, fun h => by cases h⟩

theorem recv_uses {msg : NetworkMessage} {pc : RecvPc}
    (hs : recv packetSize u msg pc = some (u', pc')) : Uses u (.recv pc msg) u' pc' := by
  cases pc with
  | initial | reading | completed result => cases hs
  | test =>
    obtain ⟨rfl, rfl⟩ := Prod.mk.inj (Option.some.inj hs)
    exact whileOpen_uses
  | use =>
    obtain ⟨rfl, rfl⟩ := Prod.mk.inj (Option.some.inj hs)
    exact await_uses rfl rfl
  | decode =>
    rw [recv] at hs
    split at hs
    all_goals obtain ⟨rfl, rfl⟩ := Prod.mk.inj (Option.some.inj hs)
    all_goals exact uses_nothing rfl rfl rfl
  | onRead packet =>
    obtain ⟨rfl, rfl⟩ := Prod.mk.inj (Option.some.inj hs)
    exact uses_nothing rfl rfl rfl

theorem send_uses {sendingPacket : Option AnySendPacket} {helper : PacketHelper} {pc : SendPc}
    (hs : send u sendingPacket helper pc = some (u', pc')) :
    Uses u (.send pc sendingPacket helper) u' pc' := by
  cases pc with
  | suspended | writing | completed result => cases hs
  | test =>
    obtain ⟨rfl, rfl⟩ := Prod.mk.inj (Option.some.inj hs)
    exact whileOpen_uses
  | use =>
    obtain ⟨rfl, rfl⟩ := Prod.mk.inj (Option.some.inj hs)
    exact await_uses rfl rfl
  | pop =>
    rw [send] at hs
    split at hs
    all_goals obtain ⟨rfl, rfl⟩ := Prod.mk.inj (Option.some.inj hs)
    · exact uses_nothing rfl rfl rfl
    · exact ⟨.inl rfl, .inl rfl, fun _ => ⟨rfl, .inr (.inr rfl)⟩⟩

theorem resumed_needs {r : Resumption} (hs : resumed packetSize pc = some (r, pc')) :
    pc'.needs = false := by
  rw [resumed.eq_def] at hs
  split at hs
  case h_6 sendingPacket helper transfer =>
    dsimp only at hs
    split at hs
    all_goals obtain ⟨-, rfl⟩ := Prod.mk.inj (Option.some.inj hs)
    all_goals rfl
  case h_7 => cases hs
  all_goals obtain ⟨-, rfl⟩ := Prod.mk.inj (Option.some.inj hs)
  all_goals rfl

theorem act_uses (hs : act packetSize u pc a = some (u', pc')) : Uses u pc u' pc' := by
  cases act_cases hs with
  | close pc after => exact close_uses
  | recv hs => exact recv_uses hs
  | send hs => exact send_uses hs
  | start pc =>
    cases pc with
    | exchange =>
      rw [start]
      split <;> exact uses_nothing rfl rfl rfl
    | spawnSend | spawnRecv | onConnect => exact uses_nothing rfl rfl rfl
  | call hs =>
    cases a with
    | callStart | callClose | callSessionClose | push packet =>
      obtain ⟨rfl, rfl⟩ := Prod.mk.inj (Option.some.inj hs)
      exact uses_nothing rfl rfl rfl
    | resume | readCompletes result | writeCompletes result | go | closeFails => cases hs
  | @session pc u' pc' hs =>
    cases pc with
    | idle =>
      rw [session] at hs
      split at hs
      · cases hs
      all_goals obtain ⟨rfl, rfl⟩ := Prod.mk.inj (Option.some.inj hs)
      all_goals exact uses_nothing rfl rfl rfl
    | test =>
      rw [session] at hs
      obtain ⟨rfl, rfl⟩ := Prod.mk.inj (Option.some.inj hs)
      split <;> exact uses_nothing rfl rfl rfl
    | handle packet | release | onClose =>
      obtain ⟨rfl, rfl⟩ := Prod.mk.inj (Option.some.inj hs)
      exact uses_nothing rfl rfl rfl
  | resume hs =>
    obtain ⟨r, tasks, hresumed, -, -, rfl⟩ := resume_cases hs
    exact uses_nothing rfl rfl (resumed_needs hresumed)
  | complete hs =>
    cases complete_cases hs with
    | read result msg | write result sendingPacket helper => exact uses_nothing rfl rfl rfl
    | closeFails after => exact ⟨.inr ⟨rfl, rfl⟩, .inl rfl, fun h => by cases h⟩

end Steps

section Runs

variable {Tid : Type*} [Fintype Tid] [DecidableEq Tid] {s s' : State Tid} {packetSize : ℤ}

/-- `Close` resets the socket while no coroutine is about to use it. -/
def ResetsAlone (s : State Tid) (l : (Tid ⊕ Role) × Action) : Prop :=
  (s.thread l.1).resetsNow = true → ∀ i, (s.thread i).committed = false

instance (s : State Tid) (l : (Tid ⊕ Role) × Action) : Decidable (ResetsAlone s l) :=
  inferInstanceAs (Decidable (_ → _))

structure SocketOk (s : State Tid) : Prop where
  uses : ∀ nonNull ∈ s.shared.uses, nonNull = true
  opened : s.shared.state ≠ .disconnected → s.shared.socket = true
  needs : ∀ i, (s.thread i).needs = true → s.shared.socket = true

theorem Pc.needs_cases {pc : Pc} (hneeds : pc.needs = true) :
    pc.committed = true ∨ pc.closing = 1 := by
  cases pc with
  | close pc after =>
    cases pc with
    | closeSocket => exact .inr rfl
    | exchange expect attempts | testSocket | resetSocket | onClose => cases hneeds
  | recv pc msg => exact .inl hneeds
  | send pc sendingPacket helper => exact .inl hneeds
  | idle | start pc | thrown after | crashed | finished | session pc => cases hneeds

theorem Pc.closing_of_resetsNow {pc : Pc} (hresets : pc.resetsNow = true) : pc.closing = 1 := by
  cases pc with
  | close pc after =>
    cases pc with
    | resetSocket => rfl
    | exchange expect attempts | testSocket | closeSocket | onClose => cases hresets
  | idle | start pc | recv pc msg | send pc sendingPacket helper | thrown after | crashed |
    finished | session pc => cases hresets

omit [DecidableEq Tid] in
theorem Reached.sum_closing_le (hr : Reached s) : ∑ i, (s.thread i).closing ≤ 1 := by
  obtain ⟨-, hinv, -⟩ := hr.holds.asserted
  have hlife := hinv.lifecycle
  have hcount := hr.onClose
  rw [Lifecycle] at hlife
  split at hlife <;> omega

omit [DecidableEq Tid] in
theorem Reached.disconnected (hr : Reached s) (hwins : s.shared.wins ≠ 0) :
    s.shared.state = .disconnected := by
  obtain ⟨-, hinv, -⟩ := hr.holds.asserted
  have hlife := hinv.lifecycle
  rw [Lifecycle] at hlife
  split at hlife
  · exact absurd hlife.2 hwins
  · exact absurd hlife.2 hwins
  · assumption

theorem SocketOk.next {l : (Tid ⊕ Role) × Action} (hr : Reached s) (h : SocketOk s)
    (halone : ResetsAlone s l) (hs : step packetSize s l = some s') : SocketOk s' := by
  obtain ⟨u, pc, hact, rfl⟩ := Threads.step_eq_some.mp hs
  have hu := act_uses hact
  have hstate := (hr.effect hact).guarantee.disconnected
  refine ⟨fun b hb => ?_, fun hopen => ?_, fun i hneeds => ?_⟩
  · rcases hu.uses with heq | ⟨hpc, heq⟩
    · exact h.uses b (heq ▸ hb)
    · change b ∈ u.uses at hb
      rw [heq, h.needs l.1 hpc] at hb
      exact (List.mem_append.mp hb).elim (h.uses b) List.mem_singleton.mp
  · have hopen' : s.shared.state ≠ .disconnected := fun hclosed => hopen (hstate hclosed)
    rcases hu.socket with heq | hresets
    · exact heq.trans (h.opened hopen')
    · exact absurd (hr.disconnected (hr.wins_ne_zero (Pc.closing_of_resetsNow hresets))) hopen'
  · by_cases hi : i = l.1
    · subst hi
      have hpc : pc.needs = true := by simpa using hneeds
      obtain ⟨heq, hor⟩ := hu.needs hpc
      refine heq.trans ?_
      rcases hor with hopen | hsocket | hneeds'
      · exact h.opened hopen
      · exact hsocket
      · exact h.needs l.1 hneeds'
    · have hold : (s.thread i).needs = true := by simpa [hi] using hneeds
      rcases hu.socket with heq | hresets
      · exact heq.trans (h.needs i hold)
      · exfalso
        rcases Pc.needs_cases hold with hcommitted | hclosing
        · exact absurd ((halone hresets i).symm.trans hcommitted) Bool.false_ne_true
        · refine hi (Counting.eq_of_sum_le_one s.thread Pc.closing hr.sum_closing_le ?_ ?_)
          · omega
          · rw [Pc.closing_of_resetsNow hresets]
            exact Nat.one_pos

theorem socket_never_null (packetSize : ℤ) (memory : ℕ → DataBlock)
    (ls : List ((Tid ⊕ Role) × Action)) (s : State Tid)
    (halone : Along ResetsAlone (step packetSize) (init memory) ls)
    (hrun : exec (step packetSize) (init memory) ls = some s) :
    ∀ nonNull ∈ s.shared.uses, nonNull = true := by
  have hnext : ∀ (v : State Tid) l w, Reached v ∧ SocketOk v → ResetsAlone v l →
      step packetSize v l = some w → Reached w ∧ SocketOk w := fun v l w h hok hs =>
    ⟨h.1.next hs, h.2.next h.1 hok hs⟩
  have hinit : SocketOk (init memory : State Tid) :=
    ⟨fun b hb => absurd hb List.not_mem_nil, fun _ => rfl, fun _ _ => rfl⟩
  exact (Transition.exec_invariant_along hnext ⟨init_reached memory, hinit⟩ halone hrun).2.uses

/-- The session closes the connection between the test of `Recv` and its use of the socket. -/
def resetBetween : List ((Bool ⊕ Role) × Action) :=
  [(.inl false, .callStart), (.inl false, .go), (.inl false, .go), (.inl false, .go),
    (.inl false, .go), (.inr .send, .resume), (.inr .send, .go), (.inr .send, .go),
    (.inr .recv, .resume), (.inr .recv, .go), (.inl true, .callSessionClose),
    (.inr .session, .go), (.inr .session, .go), (.inr .session, .go), (.inr .session, .go),
    (.inr .session, .go), (.inr .session, .go), (.inr .recv, .go)]

theorem resetBetween_null : ∃ s : State Bool,
    exec (step maxTcpPacketSize) (init RecvLoop.blankMemory) resetBetween = some s ∧
      s.shared.uses = [true, false] ∧ ¬ ∀ nonNull ∈ s.shared.uses, nonNull = true := by
  have h : ((exec (step maxTcpPacketSize) (init RecvLoop.blankMemory : State Bool)
      resetBetween).map fun s => decide (s.shared.uses = [true, false])) = some true := by
    decide
  obtain ⟨s, hrun, hs⟩ := Option.map_eq_some_iff.mp h
  have huses := of_decide_eq_true hs
  refine ⟨s, hrun, huses, fun hall => ?_⟩
  exact Bool.false_ne_true (hall false (huses ▸ by decide))

def resetWhileReading : List ((Bool ⊕ Role) × Action) :=
  [(.inl false, .callStart), (.inl false, .go), (.inl false, .go), (.inl false, .go),
    (.inl false, .go), (.inr .send, .resume), (.inr .send, .go), (.inr .send, .go),
    (.inr .recv, .resume), (.inr .recv, .go), (.inr .recv, .go), (.inl true, .callSessionClose),
    (.inr .session, .go), (.inr .session, .go), (.inr .session, .go), (.inr .session, .go),
    (.inr .session, .go), (.inr .session, .go), (.inr .send, .resume), (.inr .send, .go),
    (.inr .send, .go)]

theorem resetWhileReading_used : ∃ s : State Bool,
    exec (step maxTcpPacketSize) (init RecvLoop.blankMemory) resetWhileReading = some s ∧
      s.shared.uses = [true, true] ∧ ∀ nonNull ∈ s.shared.uses, nonNull = true := by
  have h : ((exec (step maxTcpPacketSize) (init RecvLoop.blankMemory : State Bool)
      resetWhileReading).map fun s => decide (s.shared.uses = [true, true])) = some true := by
    decide
  obtain ⟨s, hrun, hs⟩ := Option.map_eq_some_iff.mp h
  exact ⟨s, hrun, of_decide_eq_true hs,
    socket_never_null _ _ resetWhileReading s (by decide) hrun⟩

end Runs

end Bugat.Connection
