import Mathlib
import Bugat.Base.ConnectionSocket

/-!
# What a call of Close completes

The call that moves `_state` to `Disconnected` is to reset the socket and to fire `OnClose`.
`TCPSocket::Close` throws an `error_code` by value, which is no `std::exception`: it leaves
`Close` with both still to be done.
-/

open scoped BigOperators

namespace Bugat.Connection

open Transition (exec Along Throughout throughout_iff_along_of_step)

section Steps

variable {u u' : Shared} {pc pc' : Pc} {packetSize : ℤ} {after : AfterClose} {a : Action}

structure Cleans (u : Shared) (pc : Pc) (u' : Shared) (pc' : Pc) : Prop where
  resets : u'.resets + u.wins + pc'.resetting = u.resets + u'.wins + pc.resetting
  socket : u'.socket = u.socket ∧ u'.resets = u.resets ∨ 0 < u'.resets
  caught : ∀ after, pc' ≠ .thrown after

structure Kept (u u' : Shared) : Prop where
  wins : u'.wins = u.wins
  resets : u'.resets = u.resets
  socket : u'.socket = u.socket

theorem Kept.cleans (hk : Kept u u') (hpc : pc'.resetting = pc.resetting)
    (hcaught : ∀ after, pc' ≠ .thrown after) : Cleans u pc u' pc' :=
  ⟨by rw [hk.wins, hk.resets, hpc], .inl ⟨hk.socket, hk.resets⟩, hcaught⟩

theorem returnClose_cleans (hk : Kept u u') (hpc : pc.resetting = 0) :
    Cleans u pc (u'.returnClose after).1 (u'.returnClose after).2 := by
  cases after with
  | caller | coroutine | session =>
    exact Kept.cleans ⟨hk.wins, hk.resets, hk.socket⟩ hpc.symm (by simp [Shared.returnClose])

theorem close_cleans {pc : ClosePc}
    (hsocket : 0 < (Pc.close pc after).resetting → u.socket = true) :
    Cleans u (.close pc after) (close u after pc).1 (close u after pc).2 := by
  cases pc with
  | exchange expect attempts =>
    rw [close]
    split
    · exact ⟨by simp only [Pc.resetting]; omega, .inl ⟨rfl, rfl⟩, by simp⟩
    · split
      · exact returnClose_cleans ⟨rfl, rfl, rfl⟩ rfl
      · exact Kept.cleans ⟨rfl, rfl, rfl⟩ rfl (by simp)
  | testSocket =>
    rw [close, if_pos (hsocket Nat.one_pos)]
    exact Kept.cleans ⟨rfl, rfl, rfl⟩ rfl (by simp)
  | closeSocket =>
    rw [close, if_pos (hsocket Nat.one_pos)]
    exact Kept.cleans ⟨rfl, rfl, rfl⟩ rfl (by simp)
  | resetSocket =>
    refine ⟨?_, .inr (Nat.succ_pos _), by simp [close]⟩
    simp only [close, Pc.resetting]
    omega
  | onClose => exact returnClose_cleans ⟨rfl, rfl, rfl⟩ rfl

theorem whileOpen_cleans {next : Pc} (hpc : pc.resetting = 0) (hnext : next.resetting = 0)
    (hcaught : ∀ after, next ≠ .thrown after) : Cleans u pc u (whileOpen u next) := by
  rw [whileOpen]
  split
  · exact Kept.cleans ⟨rfl, rfl, rfl⟩ hpc.symm (by simp [beginClose])
  · exact Kept.cleans ⟨rfl, rfl, rfl⟩ (hnext.trans hpc.symm) hcaught

theorem await_cleans {next : Pc} (hpc : pc.resetting = 0) (hnext : next.resetting = 0)
    (hcaught : ∀ after, next ≠ .thrown after) : Cleans u pc (await u next).1 (await u next).2 := by
  rw [await]
  split
  · exact Kept.cleans ⟨rfl, rfl, rfl⟩ (hnext.trans hpc.symm) hcaught
  · exact Kept.cleans ⟨rfl, rfl, rfl⟩ hpc.symm (by simp)

theorem recv_cleans {msg : NetworkMessage} {pc : RecvPc}
    (hs : recv packetSize u msg pc = some (u', pc')) : Cleans u (.recv pc msg) u' pc' := by
  cases pc with
  | initial | reading | completed result => cases hs
  | test =>
    obtain ⟨rfl, rfl⟩ := Prod.mk.inj (Option.some.inj hs)
    exact whileOpen_cleans rfl rfl (by simp)
  | use =>
    obtain ⟨rfl, rfl⟩ := Prod.mk.inj (Option.some.inj hs)
    exact await_cleans rfl rfl (by simp)
  | decode =>
    rw [recv] at hs
    split at hs
    all_goals obtain ⟨rfl, rfl⟩ := Prod.mk.inj (Option.some.inj hs)
    all_goals exact Kept.cleans ⟨rfl, rfl, rfl⟩ rfl (by simp)
  | onRead packet =>
    obtain ⟨rfl, rfl⟩ := Prod.mk.inj (Option.some.inj hs)
    exact Kept.cleans ⟨rfl, rfl, rfl⟩ rfl (by simp)

theorem send_cleans {sendingPacket : Option AnySendPacket} {helper : PacketHelper} {pc : SendPc}
    (hs : send u sendingPacket helper pc = some (u', pc')) :
    Cleans u (.send pc sendingPacket helper) u' pc' := by
  cases pc with
  | suspended | writing | completed result => cases hs
  | test =>
    obtain ⟨rfl, rfl⟩ := Prod.mk.inj (Option.some.inj hs)
    exact whileOpen_cleans rfl rfl (by simp)
  | use =>
    obtain ⟨rfl, rfl⟩ := Prod.mk.inj (Option.some.inj hs)
    exact await_cleans rfl rfl (by simp)
  | pop =>
    rw [send] at hs
    split at hs
    all_goals obtain ⟨rfl, rfl⟩ := Prod.mk.inj (Option.some.inj hs)
    all_goals exact Kept.cleans ⟨rfl, rfl, rfl⟩ rfl (by simp)

theorem session_cleans {pc : SessionPc} (hs : session u pc = some (u', pc')) :
    Cleans u (.session pc) u' pc' := by
  cases pc with
  | idle =>
    rw [session] at hs
    split at hs
    · cases hs
    all_goals obtain ⟨rfl, rfl⟩ := Prod.mk.inj (Option.some.inj hs)
    all_goals exact Kept.cleans ⟨rfl, rfl, rfl⟩ rfl (by simp)
  | test =>
    rw [session] at hs
    obtain ⟨rfl, rfl⟩ := Prod.mk.inj (Option.some.inj hs)
    split
    · exact Kept.cleans ⟨rfl, rfl, rfl⟩ rfl (by simp [beginClose])
    · exact Kept.cleans ⟨rfl, rfl, rfl⟩ rfl (by simp)
  | handle packet | release | onClose =>
    obtain ⟨rfl, rfl⟩ := Prod.mk.inj (Option.some.inj hs)
    exact Kept.cleans ⟨rfl, rfl, rfl⟩ rfl (by simp)

theorem resumed_quiet {r : Resumption} (hs : resumed packetSize pc = some (r, pc')) :
    pc.resetting = 0 ∧ pc'.resetting = 0 ∧ ∀ after, pc' ≠ .thrown after := by
  rw [resumed.eq_def] at hs
  split at hs
  case h_6 sendingPacket helper transfer =>
    dsimp only at hs
    split at hs
    all_goals obtain ⟨-, rfl⟩ := Prod.mk.inj (Option.some.inj hs)
    all_goals exact ⟨rfl, rfl, by simp⟩
  case h_7 => cases hs
  all_goals obtain ⟨-, rfl⟩ := Prod.mk.inj (Option.some.inj hs)
  all_goals exact ⟨rfl, rfl, by simp [beginClose]⟩

theorem act_cleans (hs : act packetSize u pc a = some (u', pc')) (ha : a ≠ .closeFails)
    (hsocket : 0 < pc.resetting → u.socket = true) : Cleans u pc u' pc' := by
  cases act_cases hs with
  | close pc after => exact close_cleans hsocket
  | recv hs => exact recv_cleans hs
  | send hs => exact send_cleans hs
  | session hs => exact session_cleans hs
  | start pc =>
    cases pc with
    | exchange =>
      rw [start]
      split
      all_goals exact Kept.cleans ⟨rfl, rfl, rfl⟩ rfl (by simp)
    | spawnSend | spawnRecv | onConnect =>
      exact Kept.cleans ⟨rfl, rfl, rfl⟩ rfl (by simp [start])
  | call hs =>
    cases a with
    | callStart | callClose | callSessionClose | push packet =>
      obtain ⟨rfl, rfl⟩ := Prod.mk.inj (Option.some.inj hs)
      exact Kept.cleans ⟨rfl, rfl, rfl⟩ rfl (by simp [beginClose])
    | resume | readCompletes result | writeCompletes result | go | closeFails => cases hs
  | resume hs =>
    obtain ⟨r, tasks, hresumed, -, -, rfl⟩ := resume_cases hs
    obtain ⟨hpc, hpc', hcaught⟩ := resumed_quiet hresumed
    exact Kept.cleans ⟨rfl, rfl, rfl⟩ (hpc'.trans hpc.symm) hcaught
  | complete hs =>
    cases a with
    | closeFails => exact absurd rfl ha
    | readCompletes result | writeCompletes result =>
      simp only [complete] at hs
      split at hs
      · split at hs
        · obtain ⟨rfl, rfl⟩ := Prod.mk.inj (Option.some.inj hs)
          exact Kept.cleans ⟨rfl, rfl, rfl⟩ rfl (by simp)
        · cases hs
      · cases hs
    | callStart | callClose | callSessionClose | resume | go | push packet => cases hs

end Steps

section Runs

variable {Tid : Type*} [Fintype Tid] [DecidableEq Tid] {s s' : State Tid} {packetSize : ℤ}

structure ClosesCompletely (packetSize : ℤ) (s : State Tid) : Prop where
  caught : ∀ i after, s.thread i ≠ .thrown after
  once : s.shared.wins ≤ 1
  resets : s.shared.resets + ∑ i, (s.thread i).resetting = s.shared.wins
  fires : s.shared.events.count .onClose + ∑ i, (s.thread i).closing = s.shared.wins
  returns : ∀ i pc after, s.thread i = .close pc after →
    ∃ s', step packetSize s (i, .go) = some s' ∧
      (s'.thread i).closeSteps < (s.thread i).closeSteps

def NoCloseError (_ : State Tid) (l : (Tid ⊕ Role) × Action) : Prop := l.2 ≠ .closeFails

structure CleanOk (s : State Tid) : Prop where
  caught : ∀ i after, s.thread i ≠ .thrown after
  resets : s.shared.resets + ∑ i, (s.thread i).resetting = s.shared.wins
  socket : s.shared.resets = 0 → s.shared.socket = true

omit [Fintype Tid] in
theorem not_caught_of_closeFails {i : Tid ⊕ Role}
    (hs : step packetSize s (i, .closeFails) = some s') : ∃ after, s'.thread i = .thrown after := by
  obtain ⟨u, pc, hact, rfl⟩ := Threads.step_eq_some.mp hs
  simp only [act, complete] at hact
  split at hact
  · rename_i after hpc
    split at hact
    · obtain ⟨-, rfl⟩ := Prod.mk.inj (Option.some.inj hact)
      exact ⟨after, Function.update_self _ _ _⟩
    · cases hact
  · cases hact

omit [DecidableEq Tid] in
theorem init_cleanOk (memory : ℕ → DataBlock) : CleanOk (init memory : State Tid) where
  caught := by
    rintro (t | r) after
    · simp [init]
    · cases r <;> simp [init]
  resets := by
    rw [sum_init memory Pc.resetting rfl (fun _ => rfl) (fun _ _ => rfl) rfl]
    rfl
  socket _ := rfl

theorem CleanOk.socket_of_resetting (h : CleanOk s) (hr : Reached s) {i : Tid ⊕ Role}
    (hpc : 0 < (s.thread i).resetting) : s.shared.socket = true := by
  apply h.socket
  have hle := Counting.le_sum s.thread Pc.resetting i
  have hresets := h.resets
  have hone : s.shared.wins ≤ 1 := by
    have hclose := (show Once 0 s from hr.once).close_once
    split at hclose
    · omega
    · omega
  omega

theorem CleanOk.next {l : (Tid ⊕ Role) × Action} (h : CleanOk s) (hr : Reached s)
    (hok : NoCloseError s l) (hs : step packetSize s l = some s') : CleanOk s' := by
  obtain ⟨u, pc, hact, rfl⟩ := Threads.step_eq_some.mp hs
  have hcleans := act_cleans hact hok (h.socket_of_resetting hr)
  refine ⟨fun i after => ?_, ?_, fun hzero => ?_⟩
  · change Function.update s.thread l.1 pc i ≠ .thrown after
    by_cases hi : i = l.1
    · rw [hi, Function.update_self]
      exact hcleans.caught after
    · rw [Function.update_of_ne hi]
      exact h.caught i after
  · have hsum := Counting.sum_update s.thread l.1 pc Pc.resetting
    have hresets := h.resets
    have hstep := hcleans.resets
    change u.resets + ∑ i, (Function.update s.thread l.1 pc i).resetting = u.wins
    omega
  · change u.resets = 0 at hzero
    rcases hcleans.socket with ⟨hsocket, hresets⟩ | hpos
    · exact hsocket.trans (h.socket (hresets.symm.trans hzero))
    · omega

theorem CleanOk.closes (h : CleanOk s) (hr : Reached s) : ClosesCompletely packetSize s := by
  have hclose := (show Once packetSize s from hr.once).close_once
  refine ⟨h.caught, ?_, h.resets, hr.onClose.symm, fun i pc after => hr.close_step⟩
  split at hclose
  · omega
  · omega

/-- The winner of `Close` does all it has to in every state of a run just when the socket
reports no error in it. -/
theorem closes_iff_no_error (packetSize : ℤ) (memory : ℕ → DataBlock)
    (ls : List ((Tid ⊕ Role) × Action)) :
    Throughout (ClosesCompletely packetSize) (step packetSize) (init memory : State Tid) ls ↔
      Along NoCloseError (step packetSize) (init memory : State Tid) ls := by
  have hinit : Reached (init memory : State Tid) ∧ CleanOk (init memory : State Tid) :=
    ⟨init_reached memory, init_cleanOk memory⟩
  refine throughout_iff_along_of_step (I := fun s : State Tid => Reached s ∧ CleanOk s)
    (fun s h => h.2.closes h.1) (fun s l t h hok hs => ⟨h.1.next hs, h.2.next h.1 hok hs⟩)
    (fun s l t h hs => ?_) hinit
  constructor
  · intro hcloses hfails
    obtain ⟨i, a⟩ := l
    obtain rfl : a = .closeFails := hfails
    obtain ⟨after, hthrown⟩ := not_caught_of_closeFails hs
    exact hcloses.caught i after hthrown
  · intro hok
    exact (h.2.next h.1 hok hs).closes (h.1.next hs)

def closeError : List ((Bool ⊕ Role) × Action) :=
  [(.inl true, .callClose), (.inl true, .go), (.inl true, .go), (.inl true, .go),
    (.inl true, .closeFails)]

theorem closeError_incomplete : ∃ s : State Bool,
    exec (step maxTcpPacketSize) (init RecvLoop.blankMemory) closeError = some s ∧
    s.shared.state = .disconnected ∧ s.shared.socket = true ∧ s.shared.resets = 0 ∧
    s.shared.events = [] ∧ s.thread (.inl true) = .thrown .caller ∧
    ¬ ClosesCompletely maxTcpPacketSize s := by
  refine ⟨_, rfl, rfl, rfl, rfl, rfl, rfl, fun hcloses => ?_⟩
  exact hcloses.caught (.inl true) .caller rfl

end Runs

end Bugat.Connection
