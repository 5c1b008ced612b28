import Mathlib
import Bugat.Base.ConnectionSession

/-!
# The registration of a session

`Start` registers the session with its last step, and every `OnClose` of the session takes it
out again. Whatever is registered has an `OnClose` still to come, in the runs in which none is
fired while a call of `Start` is in front of its `OnConnect`.
-/

open scoped BigOperators

namespace Bugat.Connection

open Transition (exec Along)

def Pc.delsNow : Pc → Bool
  | .session .onClose => true
  | _ => false

def Owes (u : Shared) : Prop := u.wins = 0 ∨ u.sessionOnClose < u.sessionCloses + u.wins

section Steps

variable {u u' : Shared} {pc pc' : Pc} {packetSize : ℤ} {after : AfterClose} {a : Action}

structure Registers (u : Shared) (pc : Pc) (u' : Shared) (pc' : Pc) : Prop where
  registered : u'.registered = true → u.registered = true ∨ 0 < pc.starting
  starting : 0 < pc'.starting → 0 < pc.starting ∨ u.state = .connecting
  calls : u.sessionCloses ≤ u'.sessionCloses
  wins : u'.wins = u.wins ∨ u'.wins = u.wins + 1
  dels : u'.sessionOnClose = u.sessionOnClose ∨
    pc.delsNow = true ∧ u'.registered = false ∧ pc'.starting = 0

structure Quiet (u u' : Shared) : Prop where
  registered : u'.registered = u.registered
  sessionCloses : u'.sessionCloses = u.sessionCloses
  wins : u'.wins = u.wins
  sessionOnClose : u'.sessionOnClose = u.sessionOnClose

theorem Quiet.registers (hq : Quiet u u') (hstarting : 0 < pc'.starting → 0 < pc.starting) :
    Registers u pc u' pc' :=
  ⟨fun h => .inl (hq.registered.symm.trans h), fun h => .inl (hstarting h), hq.sessionCloses.ge,
    .inl hq.wins, .inl hq.sessionOnClose⟩

theorem quiet_refl (u : Shared) : Quiet u u := ⟨rfl, rfl, rfl, rfl⟩

theorem returnClose_registers (pc : Pc) (u : Shared) (after : AfterClose) :
    Registers u pc (u.returnClose after).1 (u.returnClose after).2 := by
  cases after
  all_goals exact Quiet.registers ⟨rfl, rfl, rfl, rfl⟩ (fun h => absurd h (lt_irrefl 0))

theorem start_registers (pc : StartPc) :
    Registers u (.start pc) (start u pc).1 (start u pc).2 := by
  cases pc with
  | exchange =>
    rw [start]
    split
    · rename_i hstate
      exact ⟨.inl, fun _ => .inr hstate, le_rfl, .inl rfl, .inl rfl⟩
    · exact (quiet_refl u).registers fun h => absurd h (lt_irrefl 0)
  | spawnSend | spawnRecv => exact Quiet.registers ⟨rfl, rfl, rfl, rfl⟩ id
  | onConnect =>
    exact ⟨fun _ => .inr Nat.one_pos, fun h => absurd h (lt_irrefl 0), le_rfl, .inl rfl, .inl rfl⟩

theorem close_registers (pc : ClosePc) :
    Registers u (.close pc after) (close u after pc).1 (close u after pc).2 := by
  cases pc with
  | exchange expect attempts =>
    rw [close]
    split
    · exact ⟨.inl, fun h => absurd h (lt_irrefl 0), le_rfl, .inr rfl, .inl rfl⟩
    · split
      · exact returnClose_registers _ u after
      · exact (quiet_refl u).registers fun h => absurd h (lt_irrefl 0)
  | testSocket =>
    refine (quiet_refl u).registers fun h => ?_
    cases hsocket : u.socket <;> simp [close, hsocket, Pc.starting] at h
  | closeSocket =>
    refine Quiet.registers ⟨rfl, rfl, rfl, rfl⟩ fun h => ?_
    cases hsocket : u.socket <;> simp [close, hsocket, Pc.starting] at h
  | resetSocket => exact Quiet.registers ⟨rfl, rfl, rfl, rfl⟩ (fun h => absurd h (lt_irrefl 0))
  | onClose =>
    obtain ⟨hregistered, hstarting, hcalls, hwins, hdels⟩ :=
      returnClose_registers (.close .onClose after) u.fireOnClose after
    exact ⟨hregistered, hstarting, hcalls, hwins, hdels⟩

theorem session_registers {pc : SessionPc} (hs : session u pc = some (u', pc')) :
    Registers u (.session pc) u' pc' := by
  cases pc with
  | idle =>
    rw [session] at hs
    split at hs
    · cases hs
    all_goals obtain ⟨rfl, rfl⟩ := Prod.mk.inj (Option.some.inj hs)
    all_goals exact Quiet.registers ⟨rfl, rfl, rfl, rfl⟩ id
  | test =>
    rw [session] at hs
    obtain ⟨rfl, rfl⟩ := Prod.mk.inj (Option.some.inj hs)
    refine (quiet_refl u).registers fun h => ?_
    cases hconnection : u.connection <;> simp [hconnection, beginClose, Pc.starting] at h
  | handle packet | release =>
    obtain ⟨rfl, rfl⟩ := Prod.mk.inj (Option.some.inj hs)
    exact Quiet.registers ⟨rfl, rfl, rfl, rfl⟩ id
  | onClose =>
    obtain ⟨rfl, rfl⟩ := Prod.mk.inj (Option.some.inj hs)
    exact ⟨fun h => absurd h Bool.false_ne_true, fun h => .inl h, le_rfl, .inl rfl,
      .inr ⟨rfl, rfl, rfl⟩⟩

theorem call_registers (hs : call u a = some (u', pc')) : Registers u .idle u' pc' := by
  cases a with
  | callStart | callClose | push packet =>
    obtain ⟨rfl, rfl⟩ := Prod.mk.inj (Option.some.inj hs)
    exact Quiet.registers ⟨rfl, rfl, rfl, rfl⟩ id
  | callSessionClose =>
    obtain ⟨rfl, rfl⟩ := Prod.mk.inj (Option.some.inj hs)
    exact ⟨.inl, fun h => .inl h, Nat.le_succ _, .inl rfl, .inl rfl⟩
  | resume | readCompletes result | writeCompletes result | go | closeFails => cases hs

theorem await_quiet (u : Shared) (pc : Pc) : Quiet u (await u pc).1 := by
  rw [await]
  split <;> exact ⟨rfl, rfl, rfl, rfl⟩

theorem recv_quiet {msg : NetworkMessage} {pc : RecvPc}
    (hs : recv packetSize u msg pc = some (u', pc')) : Quiet u u' := by
  cases pc with
  | initial | reading | completed result => cases hs
  | test =>
    obtain ⟨rfl, rfl⟩ := Prod.mk.inj (Option.some.inj hs)
    exact quiet_refl u
  | use =>
    obtain ⟨rfl, rfl⟩ := Prod.mk.inj (Option.some.inj hs)
    exact await_quiet u _
  | decode =>
    rw [recv] at hs
    split at hs
    all_goals obtain ⟨rfl, rfl⟩ := Prod.mk.inj (Option.some.inj hs)
    all_goals exact quiet_refl u
  | onRead packet =>
    obtain ⟨rfl, rfl⟩ := Prod.mk.inj (Option.some.inj hs)
    exact ⟨rfl, rfl, rfl, rfl⟩

theorem send_quiet {sendingPacket : Option AnySendPacket} {helper : PacketHelper} {pc : SendPc}
    (hs : send u sendingPacket helper pc = some (u', pc')) : Quiet u u' := by
  cases pc with
  | suspended | writing | completed result => cases hs
  | test =>
    obtain ⟨rfl, rfl⟩ := Prod.mk.inj (Option.some.inj hs)
    exact quiet_refl u
  | use =>
    obtain ⟨rfl, rfl⟩ := Prod.mk.inj (Option.some.inj hs)
    exact await_quiet u _
  | pop =>
    rw [send] at hs
    split at hs
    all_goals obtain ⟨rfl, rfl⟩ := Prod.mk.inj (Option.some.inj hs)
    all_goals exact ⟨rfl, rfl, rfl, rfl⟩

theorem resume_registers (hs : resume packetSize u pc = some (u', pc')) :
    Registers u pc u' pc' := by
  obtain ⟨r, tasks, hresumed, -, -, rfl⟩ := resume_cases hs
  obtain ⟨halike, -⟩ := resumed_alike hresumed
  exact Quiet.registers ⟨rfl, rfl, rfl, rfl⟩ fun h => halike.starting ▸ h

theorem complete_registers (hs : complete packetSize u pc a = some (u', pc')) :
    Registers u pc u' pc' := by
  cases complete_cases hs with
  | read result msg | write result sendingPacket helper | closeFails after =>
    exact Quiet.registers ⟨rfl, rfl, rfl, rfl⟩ id

theorem Pc.starting_of_coroutine (hkind : pc.kind = .coroutine) : pc.starting = 0 := by
  cases pc with
  | start pc => cases hkind
  | idle | close pc after | thrown after | recv pc msg | send pc sendingPacket helper | crashed |
    finished | session pc => rfl

theorem Quiet.registers_coroutine (hq : Quiet u u') (hkind : pc'.kind = .coroutine) :
    Registers u pc u' pc' :=
  hq.registers fun h => absurd (Pc.starting_of_coroutine hkind) h.ne'

theorem act_registers (hkind : pc'.kind = pc.kind) (hs : act packetSize u pc a = some (u', pc')) :
    Registers u pc u' pc' := by
  cases act_cases hs with
  | call hs => exact call_registers hs
  | start pc => exact start_registers pc
  | close pc after => exact close_registers pc
  | recv hs => exact (recv_quiet hs).registers_coroutine hkind
  | send hs => exact (send_quiet hs).registers_coroutine hkind
  | session hs => exact session_registers hs
  | resume hs => exact resume_registers hs
  | complete hs => exact complete_registers hs

end Steps

section Runs

variable {Tid : Type*} [Fintype Tid] [DecidableEq Tid] {s s' : State Tid} {packetSize : ℤ}

/-- `OnClose` of the session is fired while no call of `Start` is in front of its `OnConnect`. -/
def DelAfterStart (s : State Tid) (l : (Tid ⊕ Role) × Action) : Prop :=
  (s.thread l.1).delsNow = true → ∀ i, (s.thread i).starting = 0

instance (s : State Tid) (l : (Tid ⊕ Role) × Action) : Decidable (DelAfterStart s l) :=
  inferInstanceAs (Decidable (_ → _))

def WillBeDeleted (s : State Tid) : Prop :=
  (s.shared.registered = true ∨ ∃ i, 0 < (s.thread i).starting) → Owes s.shared

omit [DecidableEq Tid] in
theorem Reached.sessionOnClose_le (hr : Reached s) :
    s.shared.sessionOnClose ≤ s.shared.sessionCloses + s.shared.wins := by
  have hcount := hr.session
  omega

theorem Registers.owes {u u' : Shared} {pc pc' : Pc} (hg : Registers u pc u' pc')
    (hkept : u'.sessionOnClose = u.sessionOnClose)
    (hle : u.sessionOnClose ≤ u.sessionCloses + u.wins) (howes : Owes u) : Owes u' := by
  have hcalls := hg.calls
  rcases hg.wins with hwins | hwins
  · rcases howes with hopen | hlt
    · exact .inl (hwins.trans hopen)
    · refine .inr ?_
      omega
  · refine .inr ?_
    omega

theorem WillBeDeleted.next {l : (Tid ⊕ Role) × Action} (hr : Reached s) (h : WillBeDeleted s)
    (hdel : DelAfterStart s l) (hs : step packetSize s l = some s') : WillBeDeleted s' := by
  obtain ⟨u, pc, hact, rfl⟩ := Threads.step_eq_some.mp hs
  obtain ⟨-, hinv, -⟩ := hr.holds.asserted
  have hg := act_registers (hr.effect hact).kind hact
  rintro hregistered
  rcases hg.dels with hkept | ⟨hdels, hout, hstarted⟩
  · refine hg.owes hkept hr.sessionOnClose_le ?_
    have hbefore : (s.shared.registered = true ∨ ∃ i, 0 < (s.thread i).starting) ∨
        s.shared.state = .connecting := by
      rcases hregistered with hin | ⟨i, hi⟩
      · rcases hg.registered hin with hin | hstarting
        · exact .inl (.inl hin)
        · exact .inl (.inr ⟨l.1, hstarting⟩)
      · by_cases hl : i = l.1
        · subst hl
          have hpc : 0 < pc.starting := by simpa using hi
          rcases hg.starting hpc with hstarting | hstate
          · exact .inl (.inr ⟨l.1, hstarting⟩)
          · exact .inr hstate
        · have hold : 0 < (s.thread i).starting := by simpa [hl] using hi
          exact .inl (.inr ⟨i, hold⟩)
    rcases hbefore with hbefore | hstate
    · exact h hbefore
    · have hlife := hinv.lifecycle
      rw [Lifecycle, hstate] at hlife
      exact .inl hlife.2
  · -- the session is out, and `Start` is not going to put it back
    exfalso
    rcases hregistered with hin | ⟨i, hi⟩
    · exact Bool.false_ne_true (hout.symm.trans hin)
    · by_cases hl : i = l.1
      · subst hl
        have hpc : 0 < pc.starting := by simpa using hi
        exact hpc.ne' hstarted
      · have hold : 0 < (s.thread i).starting := by simpa [hl] using hi
        exact hold.ne' (hdel hdels i)

omit [DecidableEq Tid] in
theorem WillBeDeleted.settled (h : WillBeDeleted s) (hr : Reached s) (hs : Settled s)
    (hstate : s.shared.state = .disconnected) : s.shared.registered = false := by
  obtain ⟨-, hinv, -⟩ := hr.holds.asserted
  have hfired := hr.settled_sessionOnClose hs
  have hlife := hinv.lifecycle
  rw [Lifecycle, hstate] at hlife
  by_contra hregistered
  rcases h (.inl (Bool.eq_true_of_not_eq_false hregistered)) with hopen | hlt
  · omega
  · omega

theorem closed_session_unregistered (packetSize : ℤ) (memory : ℕ → DataBlock)
    (ls : List ((Tid ⊕ Role) × Action)) (s : State Tid)
    (hdel : Along DelAfterStart (step packetSize) (init memory) ls)
    (hrun : exec (step packetSize) (init memory) ls = some s) (hsettled : Settled s)
    (hstate : s.shared.state = .disconnected) : s.shared.registered = false := by
  have hnext : ∀ (v : State Tid) l w, Reached v ∧ WillBeDeleted v → DelAfterStart v l →
      step packetSize v l = some w → Reached w ∧ WillBeDeleted w := fun v l w h hok hs =>
    ⟨h.1.next hs, h.2.next h.1 hok hs⟩
  have hinit : WillBeDeleted (init memory : State Tid) := fun _ => .inl rfl
  obtain ⟨hr, hdeleted⟩ :=
    Transition.exec_invariant_along hnext ⟨init_reached memory, hinit⟩ hdel hrun
  exact hdeleted.settled hr hsettled hstate

theorem closedByPeer_unregistered : ∃ s : State Bool,
    exec (step maxTcpPacketSize) (init RecvLoop.blankMemory) closedByPeer = some s ∧ Settled s ∧
      s.shared.state = .disconnected ∧ s.shared.registered = false := by
  have h : ((exec (step maxTcpPacketSize) (init RecvLoop.blankMemory : State Bool)
      closedByPeer).map fun s => decide (Settled s ∧ s.shared.state = .disconnected)) =
      some true := by
    decide
  obtain ⟨s, hrun, hs⟩ := Option.map_eq_some_iff.mp h
  obtain ⟨hsettled, hstate⟩ := of_decide_eq_true hs
  exact ⟨s, hrun, hsettled, hstate, closed_session_unregistered maxTcpPacketSize
    RecvLoop.blankMemory closedByPeer s (by decide) hrun hsettled hstate⟩

/-- The peer is gone before `Start` gets to its `OnConnect`. -/
def closedBeforeOnConnect : List ((Bool ⊕ Role) × Action) :=
  [(.inl false, .callStart), (.inl false, .go), (.inl false, .go), (.inl false, .go),
    (.inr .send, .resume), (.inr .send, .go), (.inr .send, .go), (.inr .recv, .resume),
    (.inr .recv, .go), (.inr .recv, .go), (.inr .recv, .readCompletes none),
    (.inr .send, .resume), (.inr .send, .go), (.inr .send, .go), (.inr .recv, .resume),
    (.inr .recv, .go), (.inr .recv, .go), (.inr .recv, .go), (.inr .recv, .go),
    (.inr .recv, .go), (.inr .session, .go), (.inr .session, .go), (.inr .session, .go),
    (.inr .session, .go), (.inr .session, .go), (.inr .send, .resume), (.inr .send, .go),
    (.inr .send, .go), (.inl false, .go)]

theorem closedBeforeOnConnect_registered : ∃ s : State Bool,
    exec (step maxTcpPacketSize) (init RecvLoop.blankMemory) closedBeforeOnConnect = some s ∧
      Settled s ∧ s.shared.state = .disconnected ∧ s.shared.registered = true := by
  have h : ((exec (step maxTcpPacketSize) (init RecvLoop.blankMemory : State Bool)
      closedBeforeOnConnect).map fun s => decide (Settled s ∧ s.shared.state = .disconnected ∧
        s.shared.registered = true)) = some true := by
    decide
  obtain ⟨s, hrun, hs⟩ := Option.map_eq_some_iff.mp h
  exact ⟨s, hrun, of_decide_eq_true hs⟩

end Runs

end Bugat.Connection
