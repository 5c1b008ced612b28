import Mathlib
import Bugat.Base.Connection
import Bugat.Base.NetworkMessageSafety
import Bugat.Lib.Counting
import Bugat.Lib.Transition

/-!
# A connection opens and closes once

`_state` only moves forward, so one exchange of `Start` and one of `Close` can succeed. What
the winners still owe, an event or a task of the session, is counted over the agents.
-/

open scoped BigOperators

namespace Bugat.Connection

open Transition (exec)

namespace AfterClose

def inside : AfterClose → ℕ
  | .coroutine => 1
  | .caller | .session => 0

def sessionClosing : AfterClose → ℕ
  | .session => 1
  | .caller | .coroutine => 0

end AfterClose

namespace Pc

def kind : Pc → AfterClose
  | .idle | .start _ => .caller
  | .close _ after | .thrown after => after
  | .recv _ _ | .send _ _ _ | .crashed | .finished => .coroutine
  | .session _ => .session

def starting : Pc → ℕ
  | .start .spawnSend | .start .spawnRecv | .start .onConnect => 1
  | _ => 0

def closing : Pc → ℕ
  | .close (.exchange _ _) _ => 0
  | .close _ _ | .thrown _ => 1
  | _ => 0

def resetting : Pc → ℕ
  | .close .testSocket _ | .close .closeSocket _ | .close .resetSocket _ => 1
  | _ => 0

def sessionClosing : Pc → ℕ
  | .session .test | .session .release | .session .onClose => 1
  | .close _ after | .thrown after => after.sessionClosing
  | _ => 0

def inside : Pc → ℕ
  | .recv .test _ | .recv .use _ | .recv .decode _ | .recv (.onRead _) _ => 1
  | .send .test _ _ | .send .pop _ _ | .send .use _ _ => 1
  | .close _ after | .thrown after => after.inside
  | .crashed => 1
  | _ => 0

def closeSteps : Pc → ℕ
  | .close (.exchange _ attempts) _ => 7 - attempts
  | .close .testSocket _ => 4
  | .close .closeSocket _ => 3
  | .close .resetSocket _ => 2
  | .close .onClose _ => 1
  | _ => 0

end Pc

def Lifecycle (u : Shared) : Prop :=
  match u.state with
  | .connecting => u.starts = 0 ∧ u.wins = 0
  | .connected => u.starts = 1 ∧ u.wins = 0
  | .disconnected => u.starts ≤ 1 ∧ u.wins = 1

structure Inv (u : Shared) : Prop where
  lifecycle : Lifecycle u
  returned : 0 < u.returned → u.state = .disconnected
  connection : u.connection = false → u.state = .disconnected
  sessionOnClose : 0 < u.sessionOnClose → u.connection = false

/-- The expected value of the next exchange of `Close`, by the number of those that failed. -/
def Expects (u : Shared) (expect : ConnectionState) : ℕ → Prop
  | 0 => expect = .connected
  | 1 => expect = .connecting
  | 2 => expect = .connected ∧ u.state ≠ .connecting
  | _ => False

def PcOk (u : Shared) : Pc → Prop
  | .close (.exchange expect attempts) _ => Expects u expect attempts
  | .close _ _ | .session .release => u.state = .disconnected
  | .session .onClose => u.connection = false
  | _ => True

structure Guarantee (u u' : Shared) : Prop where
  starts : u.state = .disconnected → u'.starts = u.starts
  disconnected : u.state = .disconnected → u'.state = .disconnected
  connecting : u'.state = .connecting → u.state = .connecting
  connection : u.connection = false → u'.connection = false

structure Effect (u : Shared) (pc : Pc) (u' : Shared) (pc' : Pc) : Prop where
  inv : Inv u'
  pcOk : PcOk u' pc'
  guarantee : Guarantee u u'
  kind : pc'.kind = pc.kind
  onConnect : u'.starts + u.events.count .onConnect + pc.starting =
    u.starts + u'.events.count .onConnect + pc'.starting
  onClose : u'.wins + u.events.count .onClose + pc.closing =
    u.wins + u'.events.count .onClose + pc'.closing
  resets : u'.resets + pc'.resetting + u.wins ≤ u.resets + pc.resetting + u'.wins
  session : u'.sessionCloses + u'.wins + (u.sessionTasks.count .close + u.sessionOnClose) +
      (pc.sessionClosing + pc.closing) =
    u.sessionCloses + u.wins + (u'.sessionTasks.count .close + u'.sessionOnClose) +
      (pc'.sessionClosing + pc'.closing)
  running : u'.running.toNat + 0 + pc.inside = u.running.toNat + 0 + pc'.inside

variable {u u' : Shared} {pc pc' : Pc} {packetSize : ℤ} {after : AfterClose}

theorem Guarantee.pcOk (hg : Guarantee u u') (hok : PcOk u pc) : PcOk u' pc := by
  cases pc with
  | close pc after =>
    cases pc with
    | exchange expect attempts =>
      match attempts with
      | 0 | 1 => exact hok
      | 2 => exact ⟨hok.1, fun h => hok.2 (hg.connecting h)⟩
      | n + 3 => exact hok
    | testSocket | closeSocket | resetSocket | onClose => exact hg.disconnected hok
  | session pc =>
    cases pc with
    | release => exact hg.disconnected hok
    | onClose => exact hg.connection hok
    | idle | handle packet | test => trivial
  | _ => trivial

structure Same (u u' : Shared) : Prop where
  state : u'.state = u.state
  starts : u'.starts = u.starts
  wins : u'.wins = u.wins
  resets : u'.resets = u.resets
  returned : u'.returned = u.returned
  connection : u'.connection = u.connection
  sessionOnClose : u'.sessionOnClose = u.sessionOnClose
  sessionCloses : u'.sessionCloses = u.sessionCloses
  onConnect : u'.events.count .onConnect = u.events.count .onConnect
  onClose : u'.events.count .onClose = u.events.count .onClose
  close : u'.sessionTasks.count .close = u.sessionTasks.count .close

structure Alike (pc pc' : Pc) : Prop where
  kind : pc'.kind = pc.kind
  starting : pc'.starting = pc.starting
  closing : pc'.closing = pc.closing
  resetting : pc'.resetting ≤ pc.resetting
  sessionClosing : pc'.sessionClosing = pc.sessionClosing

theorem Same.inv (hs : Same u u') (hinv : Inv u) : Inv u' where
  lifecycle := by
    have h := hinv.lifecycle
    rw [Lifecycle] at h ⊢
    rwa [hs.state, hs.starts, hs.wins]
  returned := by
    rw [hs.returned, hs.state]
    exact hinv.returned
  connection := by
    rw [hs.connection, hs.state]
    exact hinv.connection
  sessionOnClose := by
    rw [hs.sessionOnClose, hs.connection]
    exact hinv.sessionOnClose

theorem Same.effect (hs : Same u u') (ha : Alike pc pc') (hinv : Inv u) (hok : PcOk u' pc')
    (hrunning : u'.running.toNat + pc.inside = u.running.toNat + pc'.inside) :
    Effect u pc u' pc' where
  inv := hs.inv hinv
  pcOk := hok
  guarantee := ⟨fun _ => hs.starts, fun h => hs.state.trans h, fun h => hs.state.symm.trans h,
    fun h => hs.connection.trans h⟩
  kind := ha.kind
  onConnect := by rw [hs.starts, hs.onConnect, ha.starting]
  onClose := by rw [hs.wins, hs.onClose, ha.closing]
  resets := by
    have hle := ha.resetting
    rw [hs.resets, hs.wins]
    omega
  session := by
    rw [hs.sessionCloses, hs.wins, hs.close, hs.sessionOnClose, ha.sessionClosing, ha.closing]
  running := by
    rw [Nat.add_zero, Nat.add_zero]
    exact hrunning

theorem same_queues (u : Shared) (sendQue : List AnySendPacket) (tasks : List Resumption)
    (running : Bool) (uses : List Bool) :
    Same u { u with sendQue := sendQue, tasks := tasks, running := running, uses := uses } :=
  ⟨rfl, rfl, rfl, rfl, rfl, rfl, rfl, rfl, rfl, rfl, rfl⟩

theorem same_refl (u : Shared) : Same u u := ⟨rfl, rfl, rfl, rfl, rfl, rfl, rfl, rfl, rfl, rfl, rfl⟩

theorem start_effect (pc : StartPc) (hinv : Inv u) :
    Effect u (.start pc) (start u pc).1 (start u pc).2 := by
  cases pc with
  | exchange =>
    by_cases hstate : u.state = .connecting
    · have hlife := hinv.lifecycle
      rw [Lifecycle, hstate] at hlife
      have hreturned := hinv.returned
      have hconnection := hinv.connection
      have hopen : u.state ≠ .disconnected := by
        rw [hstate]
        decide
      simp only [start, if_pos hstate]
      refine ⟨⟨⟨?_, hlife.2⟩, fun h => absurd (hreturned h) hopen,
        fun h => absurd (hconnection h) hopen,
        hinv.sessionOnClose⟩, trivial,
        ⟨fun h => absurd h hopen, fun h => absurd h hopen, ?_, id⟩, rfl, ?_, rfl, le_rfl, rfl, rfl⟩
      · change u.starts + 1 = 1
        omega
      · rintro ⟨⟩
      · simp only [Pc.starting]
        omega
    · simp only [start, if_neg hstate]
      exact (same_refl u).effect ⟨rfl, rfl, rfl, le_rfl, rfl⟩ hinv trivial rfl
  | spawnSend | spawnRecv =>
    exact (same_queues u _ _ _ _).effect
      ⟨rfl, rfl, rfl, le_rfl, rfl⟩ hinv trivial rfl
  | onConnect =>
    refine ⟨⟨hinv.lifecycle, hinv.returned, hinv.connection, hinv.sessionOnClose⟩, trivial,
      ⟨fun _ => rfl, id, id, id⟩, rfl, ?_, ?_, le_rfl, rfl, rfl⟩
    · simp [start, Shared.fireOnConnect, Pc.starting]
      omega
    · simp [start, Shared.fireOnConnect, Pc.closing]

theorem returnClose_effect {expect : ConnectionState} {attempts : ℕ} (hinv : Inv u)
    (hstate : u.state = .disconnected)
    (hinside : (Pc.close (.exchange expect attempts) after).inside ≤
      u.running.toNat) : Effect u (.close (.exchange expect attempts) after) (u.returnClose after).1
      (u.returnClose after).2 := by
  have hinv' : Inv { u with returned := u.returned + 1 } :=
    ⟨hinv.lifecycle, fun _ => hstate, hinv.connection, hinv.sessionOnClose⟩
  cases after with
  | caller => exact ⟨hinv', trivial, ⟨fun _ => rfl, id, id, id⟩, rfl, rfl, rfl, le_rfl, rfl, rfl⟩
  | coroutine =>
    refine ⟨⟨hinv.lifecycle, fun _ => hstate, hinv.connection, hinv.sessionOnClose⟩, trivial,
      ⟨fun _ => rfl, id, id, id⟩, rfl, rfl, rfl, le_rfl, rfl, ?_⟩
    have hle := Bool.toNat_le u.running
    change 0 + 0 + 1 = u.running.toNat + 0 + 0
    change 1 ≤ _ at hinside
    omega
  | session => exact ⟨hinv', hstate, ⟨fun _ => rfl, id, id, id⟩, rfl, rfl, rfl, le_rfl, rfl, rfl⟩

theorem fireOnClose_effect (hinv : Inv u) (hstate : u.state = .disconnected)
    (hinside : (Pc.close .onClose after).inside ≤ u.running.toNat) :
    Effect u (.close .onClose after) (u.fireOnClose.returnClose after).1
      (u.fireOnClose.returnClose after).2 := by
  have hinv' : Inv { u.fireOnClose with returned := u.returned + 1 } :=
    ⟨hinv.lifecycle, fun _ => hstate, hinv.connection, hinv.sessionOnClose⟩
  have honConnect : (u.events ++ [Event.onClose]).count .onConnect = u.events.count .onConnect := by
    simp
  have honClose : (u.events ++ [Event.onClose]).count .onClose = u.events.count .onClose + 1 := by
    simp
  have htasks : (u.sessionTasks ++ [SessionTask.close]).count .close =
      u.sessionTasks.count .close + 1 := by
    simp
  cases after with
  | caller =>
    refine ⟨hinv', trivial, ⟨fun _ => rfl, id, id, id⟩, rfl, ?_, ?_, le_rfl, ?_, rfl⟩
    all_goals simp only [Shared.returnClose, Shared.fireOnClose, Shared.postClose, Pc.starting,
      Pc.closing, Pc.sessionClosing, AfterClose.sessionClosing, honConnect, honClose, htasks]
    all_goals omega
  | coroutine =>
    refine ⟨⟨hinv.lifecycle, fun _ => hstate, hinv.connection, hinv.sessionOnClose⟩, trivial,
      ⟨fun _ => rfl, id, id, id⟩, rfl, ?_, ?_, le_rfl, ?_, ?_⟩
    · simp only [Shared.returnClose, Shared.fireOnClose, Shared.leave, Pc.starting, honConnect]
      rfl
    · simp only [Shared.returnClose, Shared.fireOnClose, Shared.postClose, Shared.leave, Pc.closing,
        honClose]
      omega
    · simp only [Shared.returnClose, Shared.fireOnClose, Shared.postClose, Shared.leave, Pc.closing,
        Pc.sessionClosing, AfterClose.sessionClosing, htasks]
      omega
    · have hle := Bool.toNat_le u.running
      change 1 ≤ u.running.toNat at hinside
      change 0 + 0 + 1 = u.running.toNat + 0 + 0
      omega
  | session =>
    refine ⟨hinv', hstate, ⟨fun _ => rfl, id, id, id⟩, rfl, ?_, ?_, le_rfl, ?_, rfl⟩
    all_goals simp only [Shared.returnClose, Shared.fireOnClose, Shared.postClose, Pc.starting,
      Pc.closing, Pc.sessionClosing, AfterClose.sessionClosing, honConnect, honClose, htasks]
    all_goals omega

theorem expects_retry {expect : ConnectionState} {attempts : ℕ}
    (hexpect : Expects u expect attempts)
    (hne : u.state ≠ expect) (hopen : u.state ≠ .disconnected) :
    Expects u u.state (attempts + 1) := by
  match attempts with
  | 0 =>
    change expect = .connected at hexpect
    change u.state = .connecting
    cases hstate : u.state with
    | connecting => rfl
    | connected => exact absurd (hstate.trans hexpect.symm) hne
    | disconnected => exact absurd hstate hopen
  | 1 =>
    change expect = .connecting at hexpect
    have hne' : u.state ≠ .connecting := fun h => hne (h.trans hexpect.symm)
    refine ⟨?_, hne'⟩
    cases hstate : u.state with
    | connecting => exact absurd hstate hne'
    | connected => rfl
    | disconnected => exact absurd hstate hopen
  | 2 =>
    obtain ⟨rfl, hne'⟩ := hexpect
    cases hstate : u.state with
    | connecting => exact absurd hstate hne'
    | connected => exact absurd hstate hne
    | disconnected => exact absurd hstate hopen

theorem expects_open {expect : ConnectionState} {attempts : ℕ}
    (hexpect : Expects u expect attempts) :
    expect ≠ .disconnected := by
  match attempts with
  | 0 | 1 =>
    change expect = _ at hexpect
    rw [hexpect]
    decide
  | 2 =>
    rw [hexpect.1]
    decide

theorem close_effect (pc : ClosePc) (hinv : Inv u) (hok : PcOk u (.close pc after))
    (hinside : (Pc.close pc after).inside ≤ u.running.toNat) :
    Effect u (.close pc after) (close u after pc).1 (close u after pc).2 := by
  cases pc with
  | exchange expect attempts =>
    rw [close]
    split
    · rename_i hwin
      have hopen : u.state ≠ .disconnected := hwin ▸ expects_open hok
      have hlife : u.starts ≤ 1 ∧ u.wins = 0 := by
        have h := hinv.lifecycle
        rw [Lifecycle] at h
        split at h
        · omega
        · omega
        · exact absurd ‹_› hopen
      refine ⟨⟨⟨hlife.1, ?_⟩, fun _ => rfl, fun _ => rfl, hinv.sessionOnClose⟩, rfl,
        ⟨fun _ => rfl, fun _ => rfl, ?_, id⟩, rfl, rfl, ?_, ?_, ?_, rfl⟩
      · change u.wins + 1 = 1
        omega
      · rintro ⟨⟩
      all_goals simp only [Pc.closing, Pc.resetting, Pc.sessionClosing]
      all_goals omega
    · rename_i hne
      split
      · rename_i hstate
        exact returnClose_effect hinv hstate hinside
      · rename_i hopen
        exact (same_refl u).effect ⟨rfl, rfl, rfl, le_rfl, rfl⟩ hinv
          (expects_retry hok hne hopen) rfl
  | testSocket =>
    rw [close]
    split
    · exact (same_refl u).effect ⟨rfl, rfl, rfl, le_rfl, rfl⟩ hinv hok rfl
    · exact (same_refl u).effect ⟨rfl, rfl, rfl, Nat.zero_le _, rfl⟩ hinv hok rfl
  | closeSocket =>
    rw [close]
    split
    · exact (same_queues u _ _ _ _).effect
        ⟨rfl, rfl, rfl, le_rfl, rfl⟩ hinv hok rfl
    · exact (same_queues u _ _ _ _).effect
        ⟨rfl, rfl, rfl, Nat.zero_le _, rfl⟩ hinv trivial rfl
  | resetSocket =>
    refine ⟨⟨hinv.lifecycle, hinv.returned, hinv.connection, hinv.sessionOnClose⟩, hok,
      ⟨fun _ => rfl, id, id, id⟩, rfl, rfl, rfl, ?_, rfl, rfl⟩
    simp only [close, Pc.resetting]
    omega
  | onClose => exact fireOnClose_effect hinv hok hinside

theorem same_fireOnRead (u : Shared) (packet : RecvPacket) : Same u (u.fireOnRead packet) :=
  ⟨rfl, rfl, rfl, rfl, rfl, rfl, rfl, rfl, by simp [Shared.fireOnRead],
    by simp [Shared.fireOnRead], by simp [Shared.fireOnRead]⟩

theorem alike_coroutine (hkind : pc'.kind = pc.kind)
    (hpc : pc.starting = 0 ∧ pc.closing = 0 ∧ pc.resetting = 0 ∧ pc.sessionClosing = 0)
    (hpc' : pc'.starting = 0 ∧ pc'.closing = 0 ∧ pc'.resetting = 0 ∧ pc'.sessionClosing = 0) :
    Alike pc pc' :=
  ⟨hkind, hpc'.1.trans hpc.1.symm, hpc'.2.1.trans hpc.2.1.symm,
    (hpc'.2.2.1.trans hpc.2.2.1.symm).le, hpc'.2.2.2.trans hpc.2.2.2.symm⟩

theorem whileOpen_effect (hinv : Inv u) (hkind : pc.kind = .coroutine ∧ pc'.kind = .coroutine)
    (hpc : pc.starting = 0 ∧ pc.closing = 0 ∧ pc.resetting = 0 ∧ pc.sessionClosing = 0)
    (hpc' : pc'.starting = 0 ∧ pc'.closing = 0 ∧ pc'.resetting = 0 ∧ pc'.sessionClosing = 0)
    (hinside : pc.inside = 1 ∧ pc'.inside = 1) (hok : PcOk u pc') :
    Effect u pc u (whileOpen u pc') := by
  rw [whileOpen]
  split
  · exact (same_refl u).effect (alike_coroutine hkind.1.symm hpc ⟨rfl, rfl, rfl, rfl⟩) hinv rfl
      (by rw [hinside.1]; rfl)
  · exact (same_refl u).effect (alike_coroutine (hkind.2.trans hkind.1.symm) hpc hpc') hinv hok
      (by rw [hinside.1, hinside.2])

theorem await_effect (hinv : Inv u) (hkind : pc.kind = .coroutine ∧ pc'.kind = .coroutine)
    (hpc : pc.starting = 0 ∧ pc.closing = 0 ∧ pc.resetting = 0 ∧ pc.sessionClosing = 0)
    (hpc' : pc'.starting = 0 ∧ pc'.closing = 0 ∧ pc'.resetting = 0 ∧ pc'.sessionClosing = 0)
    (hinside : pc.inside = 1 ∧ pc'.inside = 0) (hrun : pc.inside ≤ u.running.toNat)
    (hok : PcOk u.useSocket.leave pc') : Effect u pc (await u pc').1 (await u pc').2 := by
  rw [await]
  split
  · refine (same_queues u _ _ _ _).effect
      (alike_coroutine (hkind.2.trans hkind.1.symm) hpc hpc') hinv hok ?_
    have hle := Bool.toNat_le u.running
    change 0 + pc.inside = u.running.toNat + pc'.inside
    omega
  · refine (same_queues u _ _ _ _).effect
      (alike_coroutine hkind.1.symm hpc ⟨rfl, rfl, rfl, rfl⟩) hinv trivial ?_
    rw [hinside.1]
    rfl

theorem recv_effect {msg : NetworkMessage} {pc : RecvPc} (hinv : Inv u)
    (hrun : (Pc.recv pc msg).inside ≤ u.running.toNat)
    (hs : recv packetSize u msg pc = some (u', pc')) : Effect u (.recv pc msg) u' pc' := by
  cases pc with
  | initial | reading | completed result => cases hs
  | test =>
    obtain ⟨rfl, rfl⟩ := Prod.mk.inj (Option.some.inj hs)
    exact whileOpen_effect hinv ⟨rfl, rfl⟩ ⟨rfl, rfl, rfl, rfl⟩ ⟨rfl, rfl, rfl, rfl⟩ ⟨rfl, rfl⟩
      trivial
  | use =>
    obtain ⟨rfl, rfl⟩ := Prod.mk.inj (Option.some.inj hs)
    exact await_effect hinv ⟨rfl, rfl⟩ ⟨rfl, rfl, rfl, rfl⟩ ⟨rfl, rfl, rfl, rfl⟩ ⟨rfl, rfl⟩ hrun
      trivial
  | decode =>
    rw [recv] at hs
    split at hs
    all_goals obtain ⟨rfl, rfl⟩ := Prod.mk.inj (Option.some.inj hs)
    all_goals exact (same_refl u).effect ⟨rfl, rfl, rfl, le_rfl, rfl⟩ hinv trivial rfl
  | onRead packet =>
    obtain ⟨rfl, rfl⟩ := Prod.mk.inj (Option.some.inj hs)
    exact (same_fireOnRead u packet).effect ⟨rfl, rfl, rfl, le_rfl, rfl⟩ hinv trivial rfl

theorem send_effect {sendingPacket : Option AnySendPacket} {helper : PacketHelper} {pc : SendPc}
    (hinv : Inv u) (hrun : (Pc.send pc sendingPacket helper).inside ≤ u.running.toNat)
    (hs : send u sendingPacket helper pc = some (u', pc')) :
    Effect u (.send pc sendingPacket helper) u' pc' := by
  cases pc with
  | suspended | writing | completed result => cases hs
  | test =>
    obtain ⟨rfl, rfl⟩ := Prod.mk.inj (Option.some.inj hs)
    cases sendingPacket with
    | none | some packet =>
      exact whileOpen_effect hinv ⟨rfl, rfl⟩ ⟨rfl, rfl, rfl, rfl⟩ ⟨rfl, rfl, rfl, rfl⟩ ⟨rfl, rfl⟩
        trivial
  | use =>
    obtain ⟨rfl, rfl⟩ := Prod.mk.inj (Option.some.inj hs)
    exact await_effect hinv ⟨rfl, rfl⟩ ⟨rfl, rfl, rfl, rfl⟩ ⟨rfl, rfl, rfl, rfl⟩ ⟨rfl, rfl⟩ hrun
      trivial
  | pop =>
    rw [send] at hs
    split at hs
    · obtain ⟨rfl, rfl⟩ := Prod.mk.inj (Option.some.inj hs)
      refine (same_queues u _ _ _ _).effect
        ⟨rfl, rfl, rfl, le_rfl, rfl⟩ hinv trivial ?_
      have hle := Bool.toNat_le u.running
      change 1 ≤ u.running.toNat at hrun
      change 0 + 1 = u.running.toNat + 0
      omega
    · obtain ⟨rfl, rfl⟩ := Prod.mk.inj (Option.some.inj hs)
      exact (same_queues u _ _ _ _).effect
        ⟨rfl, rfl, rfl, le_rfl, rfl⟩ hinv trivial rfl

theorem resumed_alike {r : Resumption} (hs : resumed packetSize pc = some (r, pc')) :
    Alike pc pc' ∧ pc.inside = 0 ∧ pc'.inside = 1 ∧ ∀ u, PcOk u pc' := by
  rw [resumed.eq_def] at hs
  split at hs
  case h_6 sendingPacket helper transfer =>
    dsimp only at hs
    split at hs
    all_goals obtain ⟨rfl, rfl⟩ := Prod.mk.inj (Option.some.inj hs)
    all_goals exact ⟨⟨rfl, rfl, rfl, le_rfl, rfl⟩, rfl, rfl, fun _ => trivial⟩
  case h_7 => cases hs
  all_goals obtain ⟨rfl, rfl⟩ := Prod.mk.inj (Option.some.inj hs)
  case h_2 | h_5 => exact ⟨⟨rfl, rfl, rfl, le_rfl, rfl⟩, rfl, rfl, fun _ => rfl⟩
  all_goals exact ⟨⟨rfl, rfl, rfl, le_rfl, rfl⟩, rfl, rfl, fun _ => trivial⟩

theorem resume_effect (hinv : Inv u) (hs : resume packetSize u pc = some (u', pc')) :
    Effect u pc u' pc' := by
  obtain ⟨r, tasks, hresumed, htasks, hrunning, rfl⟩ := resume_cases hs
  obtain ⟨halike, hout, hin, hpc⟩ := resumed_alike hresumed
  refine (same_queues u _ _ _ _).effect halike hinv (hpc _) ?_
  rw [hout, hin, hrunning]
  rfl

theorem session_effect {pc : SessionPc} (hinv : Inv u) (hok : PcOk u (.session pc))
    (hs : session u pc = some (u', pc')) : Effect u (.session pc) u' pc' := by
  cases pc with
  | idle =>
    rw [session] at hs
    split at hs
    · cases hs
    · rename_i tasks htasks
      obtain ⟨rfl, rfl⟩ := Prod.mk.inj (Option.some.inj hs)
      refine ⟨⟨hinv.lifecycle, hinv.returned, hinv.connection, hinv.sessionOnClose⟩, trivial,
        ⟨fun _ => rfl, id, id, id⟩, rfl, rfl, rfl, le_rfl, ?_, rfl⟩
      rw [htasks, List.count_cons_self]
      simp only [Pc.sessionClosing, Pc.closing]
      omega
    · rename_i packet tasks htasks
      obtain ⟨rfl, rfl⟩ := Prod.mk.inj (Option.some.inj hs)
      refine Same.effect ⟨rfl, rfl, rfl, rfl, rfl, rfl, rfl, rfl, rfl, rfl, ?_⟩
        ⟨rfl, rfl, rfl, le_rfl, rfl⟩ hinv trivial rfl
      rw [htasks, List.count_cons_of_ne SessionTask.noConfusion]
  | handle packet =>
    obtain ⟨rfl, rfl⟩ := Prod.mk.inj (Option.some.inj hs)
    exact (same_refl u).effect ⟨rfl, rfl, rfl, le_rfl, rfl⟩ hinv trivial rfl
  | test =>
    rw [session] at hs
    obtain ⟨rfl, rfl⟩ := Prod.mk.inj (Option.some.inj hs)
    split
    · exact (same_refl u).effect ⟨rfl, rfl, rfl, le_rfl, rfl⟩ hinv rfl rfl
    · rename_i hconnection
      exact (same_refl u).effect ⟨rfl, rfl, rfl, le_rfl, rfl⟩ hinv
        (Bool.eq_false_of_not_eq_true hconnection) rfl
  | release =>
    obtain ⟨rfl, rfl⟩ := Prod.mk.inj (Option.some.inj hs)
    exact ⟨⟨hinv.lifecycle, hinv.returned, fun _ => hok, fun _ => rfl⟩, rfl,
      ⟨fun _ => rfl, id, id, fun _ => rfl⟩, rfl, rfl, rfl, le_rfl, rfl, rfl⟩
  | onClose =>
    obtain ⟨rfl, rfl⟩ := Prod.mk.inj (Option.some.inj hs)
    refine ⟨⟨hinv.lifecycle, hinv.returned, hinv.connection, fun _ => hok⟩, trivial,
      ⟨fun _ => rfl, id, id, id⟩, rfl, rfl, rfl, le_rfl, ?_, rfl⟩
    simp only [Shared.fireSessionOnClose, Pc.sessionClosing, Pc.closing]
    omega

theorem complete_effect {a : Action} (hinv : Inv u)
    (hs : complete packetSize u pc a = some (u', pc')) : Effect u pc u' pc' := by
  cases complete_cases hs with
  | read result msg | write result sendingPacket helper =>
    exact (same_queues u _ _ _ _).effect
      ⟨rfl, rfl, rfl, le_rfl, rfl⟩ hinv trivial rfl
  | closeFails after =>
    exact (same_queues u _ _ _ _).effect
      ⟨rfl, rfl, rfl, Nat.zero_le _, rfl⟩ hinv trivial rfl

theorem call_effect {a : Action} (hinv : Inv u) (hs : call u a = some (u', pc')) :
    Effect u .idle u' pc' := by
  cases a with
  | callStart =>
    obtain ⟨rfl, rfl⟩ := Prod.mk.inj (Option.some.inj hs)
    exact (same_refl u).effect ⟨rfl, rfl, rfl, le_rfl, rfl⟩ hinv trivial rfl
  | callClose =>
    obtain ⟨rfl, rfl⟩ := Prod.mk.inj (Option.some.inj hs)
    exact (same_refl u).effect ⟨rfl, rfl, rfl, le_rfl, rfl⟩ hinv rfl rfl
  | callSessionClose =>
    obtain ⟨rfl, rfl⟩ := Prod.mk.inj (Option.some.inj hs)
    refine ⟨⟨hinv.lifecycle, hinv.returned, hinv.connection, hinv.sessionOnClose⟩, trivial,
      ⟨fun _ => rfl, id, id, id⟩, rfl, rfl, rfl, le_rfl, ?_, rfl⟩
    have htasks : (u.sessionTasks ++ [SessionTask.close]).count .close =
        u.sessionTasks.count .close + 1 := by
      simp
    simp only [Shared.postClose, htasks]
    omega
  | push packet =>
    obtain ⟨rfl, rfl⟩ := Prod.mk.inj (Option.some.inj hs)
    exact (same_queues u _ _ _ _).effect
      ⟨rfl, rfl, rfl, le_rfl, rfl⟩ hinv trivial rfl
  | resume | readCompletes result | writeCompletes result | go | closeFails => cases hs

theorem act_effect {a : Action} (hinv : Inv u) (hok : PcOk u pc)
    (hrun : pc.inside ≤ u.running.toNat) (hs : act packetSize u pc a = some (u', pc')) :
    Effect u pc u' pc' := by
  cases act_cases hs with
  | call hs => exact call_effect hinv hs
  | start pc => exact start_effect pc hinv
  | close pc after => exact close_effect pc hinv hok hrun
  | recv hs => exact recv_effect hinv hrun hs
  | send hs => exact send_effect hinv hrun hs
  | session hs => exact session_effect hinv hok hs
  | resume hs => exact resume_effect hinv hs
  | complete hs => exact complete_effect hinv hs

section Runs

variable {Tid : Type*} [Fintype Tid] [DecidableEq Tid] {s s' : State Tid}

def kindOf : Tid ⊕ Role → AfterClose
  | .inl _ => .caller
  | .inr .recv | .inr .send => .coroutine
  | .inr .session => .session

structure Reached (s : State Tid) : Prop where
  holds : Threads.Holds (fun _ : Unit => Inv) (fun _ => PcOk) (fun _ _ => True) s
  kind : ∀ i, (s.thread i).kind = kindOf i
  onConnect : s.shared.starts = s.shared.events.count .onConnect + ∑ i, (s.thread i).starting
  onClose : s.shared.wins = s.shared.events.count .onClose + ∑ i, (s.thread i).closing
  resets : s.shared.resets + ∑ i, (s.thread i).resetting ≤ s.shared.wins
  session : s.shared.sessionCloses + s.shared.wins =
    s.shared.sessionTasks.count .close + s.shared.sessionOnClose +
      ∑ i, ((s.thread i).sessionClosing + (s.thread i).closing)
  running : s.shared.running.toNat = 0 + ∑ i, (s.thread i).inside

omit [DecidableEq Tid] in
theorem sum_init (memory : ℕ → DataBlock) (w : Pc → ℕ) (hidle : w .idle = 0)
    (hrecv : ∀ msg, w (.recv .initial msg) = 0)
    (hsend : ∀ packet helper, w (.send .suspended packet helper) = 0)
    (hsession : w (.session .idle) = 0) : ∑ i, w ((init memory : State Tid).thread i) = 0 := by
  refine Finset.sum_eq_zero fun i _ => ?_
  match i with
  | .inl t => exact hidle
  | .inr .recv => exact hrecv _
  | .inr .send => exact hsend _ _
  | .inr .session => exact hsession

omit [DecidableEq Tid] in
theorem init_reached (memory : ℕ → DataBlock) : Reached (init memory : State Tid) where
  holds := by
    refine ⟨⟨(), ⟨⟨rfl, rfl⟩, fun h => absurd h (lt_irrefl 0), fun h => ?_,
      fun h => absurd h (lt_irrefl 0)⟩, ?_⟩, fun _ _ _ => trivial⟩
    · cases h
    · rintro (t | r)
      · trivial
      · cases r <;> trivial
  kind := by
    rintro (t | r)
    · rfl
    · cases r <;> rfl
  onConnect := by
    rw [sum_init memory Pc.starting rfl (fun _ => rfl) (fun _ _ => rfl) rfl]
    rfl
  onClose := by
    rw [sum_init memory Pc.closing rfl (fun _ => rfl) (fun _ _ => rfl) rfl]
    rfl
  resets := by
    rw [sum_init memory Pc.resetting rfl (fun _ => rfl) (fun _ _ => rfl) rfl]
    rfl
  session := by
    rw [sum_init memory (fun pc => pc.sessionClosing + pc.closing) rfl (fun _ => rfl)
      (fun _ _ => rfl) rfl]
    rfl
  running := by
    rw [sum_init memory Pc.inside rfl (fun _ => rfl) (fun _ _ => rfl) rfl]
    rfl

omit [DecidableEq Tid] in
theorem Reached.effect (hr : Reached s) {i : Tid ⊕ Role} {a : Action}
    (hact : act packetSize s.shared (s.thread i) a = some (u, pc)) :
    Effect s.shared (s.thread i) u pc := by
  obtain ⟨-, hinv, hok⟩ := hr.holds.asserted
  refine act_effect hinv (hok i) ?_ hact
  rw [hr.running, Nat.zero_add]
  exact Counting.le_sum s.thread Pc.inside i

theorem Reached.next {l : (Tid ⊕ Role) × Action} (hr : Reached s)
    (hs : step packetSize s l = some s') : Reached s' := by
  obtain ⟨u, pc, hact, rfl⟩ := Threads.step_eq_some.mp hs
  obtain ⟨-, -, hok⟩ := hr.holds.asserted
  have he := hr.effect hact
  refine ⟨hr.holds.update (fun _ _ h => h) fun _ _ _ => ⟨(), he.inv, he.pcOk, fun v _ =>
      ⟨he.guarantee.pcOk (hok v), trivial⟩⟩, fun i => ?_,
    Counting.balance_update hr.onConnect he.onConnect,
    Counting.balance_update hr.onClose he.onClose, ?_,
    Counting.balance_update (w := fun pc : Pc => pc.sessionClosing + pc.closing)
      hr.session he.session,
    Counting.balance_update hr.running he.running⟩
  · by_cases hi : i = l.1
    · subst hi
      simpa using he.kind.trans (hr.kind l.1)
    · simpa [hi] using hr.kind i
  · have hsum := Counting.sum_update s.thread l.1 pc Pc.resetting
    have hle := hr.resets
    have hstep := he.resets
    change u.resets + ∑ i, (Function.update s.thread l.1 pc i).resetting ≤ u.wins
    omega

omit [DecidableEq Tid] in
theorem Reached.attempts_le (hr : Reached s) {i : Tid ⊕ Role} {expect : ConnectionState}
    {attempts : ℕ} (hpc : s.thread i = .close (.exchange expect attempts) after) :
    attempts ≤ 2 := by
  obtain ⟨-, -, hok⟩ := hr.holds.asserted
  have hexpect := hok i
  rw [hpc] at hexpect
  match attempts with
  | 0 | 1 | 2 => decide
  | n + 3 => exact absurd hexpect id

theorem returnClose_closeSteps (u : Shared) (after : AfterClose) :
    (u.returnClose after).2.closeSteps = 0 := by
  cases after <;> rfl

theorem Reached.close_step (hr : Reached s) {i : Tid ⊕ Role} {pc : ClosePc}
    (hpc : s.thread i = .close pc after) : ∃ s', step packetSize s (i, .go) = some s' ∧
      (s'.thread i).closeSteps < (s.thread i).closeSteps := by
  refine ⟨_, Threads.step_eq_some.mpr ⟨_, _, (?_ : act packetSize _ _ _ = some
    ((close s.shared after pc).1, (close s.shared after pc).2)), rfl⟩, ?_⟩
  · rw [hpc]
    rfl
  · simp only [Function.update_self]
    rw [hpc]
    cases pc with
    | exchange expect attempts =>
      have hle := hr.attempts_le hpc
      rw [close]
      split
      · simp only [Pc.closeSteps]
        omega
      · split
        · rw [returnClose_closeSteps]
          simp only [Pc.closeSteps]
          omega
        · simp only [Pc.closeSteps]
          omega
    | testSocket | closeSocket =>
      rw [close]
      dsimp only
      split <;> simp [Pc.closeSteps]
    | resetSocket => simp [close, Pc.closeSteps]
    | onClose =>
      rw [close, returnClose_closeSteps]
      exact Nat.one_pos

structure Once (packetSize : ℤ) (s : State Tid) : Prop where
  start_once : s.shared.starts ≤ 1
  onConnect : s.shared.events.count .onConnect + ∑ i, (s.thread i).starting = s.shared.starts
  close_once : s.shared.wins = if s.shared.state = .disconnected then 1 else 0
  onClose : s.shared.events.count .onClose + ∑ i, (s.thread i).closing = s.shared.wins
  resets : s.shared.resets ≤ s.shared.wins
  attempts : ∀ i expect attempts after,
    s.thread i = .close (.exchange expect attempts) after → attempts ≤ 2
  returns : ∀ i pc after, s.thread i = .close pc after →
    ∃ s', step packetSize s (i, .go) = some s' ∧
      (s'.thread i).closeSteps < (s.thread i).closeSteps
  returned : 0 < s.shared.returned → s.shared.state = .disconnected

theorem Reached.once (hr : Reached s) : Once packetSize s := by
  obtain ⟨-, hinv, -⟩ := hr.holds.asserted
  have hlife := hinv.lifecycle
  have hresets := hr.resets
  rw [Lifecycle] at hlife
  refine ⟨?_, hr.onConnect.symm, ?_, hr.onClose.symm, by omega, fun i expect attempts after =>
    hr.attempts_le, fun i pc after => hr.close_step, hinv.returned⟩
  · split at hlife <;> omega
  · cases hstate : s.shared.state <;> rw [hstate] at hlife <;> exact hlife.2

theorem Reached.absorbing (hr : Reached s) {ls : List ((Tid ⊕ Role) × Action)}
    (hstate : s.shared.state = .disconnected) (hrun : exec (step packetSize) s ls = some s') :
    s'.shared.state = .disconnected ∧ s'.shared.starts = s.shared.starts := by
  have hstep : ∀ (v : State Tid) l w, (Reached v ∧ v.shared.state = .disconnected ∧
      v.shared.starts = s.shared.starts) → step packetSize v l = some w →
      Reached w ∧ w.shared.state = .disconnected ∧ w.shared.starts = s.shared.starts := by
    rintro v l w ⟨hv, hstate, hstarts⟩ hs
    obtain ⟨u, pc, hact, rfl⟩ := Threads.step_eq_some.mp hs
    have hg := (hv.effect hact).guarantee
    exact ⟨hv.next hs, hg.disconnected hstate, (hg.starts hstate).trans hstarts⟩
  exact (Transition.exec_invariant hstep ⟨hr, hstate, rfl⟩ hrun).2

theorem exec_reached {memory : ℕ → DataBlock} {ls : List ((Tid ⊕ Role) × Action)}
    (hrun : exec (step packetSize) (init memory) ls = some s) : Reached s :=
  Transition.exec_invariant (fun _ _ _ hr hs => hr.next hs) (init_reached memory) hrun

theorem opens_and_closes_once (packetSize : ℤ) (memory : ℕ → DataBlock)
    (ls ls' : List ((Tid ⊕ Role) × Action)) (s s' : State Tid)
    (hrun : exec (step packetSize) (init memory) ls = some s)
    (hlater : exec (step packetSize) s ls' = some s') : Once packetSize s ∧
      (s.shared.state = .disconnected →
        s'.shared.state = .disconnected ∧ s'.shared.starts = s.shared.starts) :=
  ⟨(exec_reached hrun).once, fun hstate => (exec_reached hrun).absorbing hstate hlater⟩

def closeWhileConnecting : List ((Bool ⊕ Role) × Action) :=
  [(.inl false, .callStart), (.inl true, .callClose), (.inl true, .go), (.inl false, .go),
    (.inl true, .go), (.inl true, .go), (.inl true, .go), (.inl true, .go), (.inl true, .go),
    (.inl true, .go)]

def closedRest : List ((Bool ⊕ Role) × Action) :=
  [(.inl false, .go), (.inl false, .go), (.inl false, .go), (.inl false, .callStart),
    (.inl false, .go)]

theorem closeWhileConnecting_once : ∃ s s' : State Bool,
    exec (step maxTcpPacketSize) (init RecvLoop.blankMemory) closeWhileConnecting = some s ∧
      exec (step maxTcpPacketSize) s closedRest = some s' ∧ s.shared.state = .disconnected ∧
      s.shared.returned = 1 ∧ Once maxTcpPacketSize s ∧ s'.shared.starts = 1 := by
  have h : ((exec (step maxTcpPacketSize) (init RecvLoop.blankMemory : State Bool)
      closeWhileConnecting).map fun s => decide (s.shared.state = .disconnected ∧
        s.shared.returned = 1 ∧ s.shared.starts = 1 ∧
        (exec (step maxTcpPacketSize) s closedRest).isSome)) = some true := by
    decide
  obtain ⟨s, hrun, hs⟩ := Option.map_eq_some_iff.mp h
  obtain ⟨hstate, hreturned, hstarts, hsome⟩ := of_decide_eq_true hs
  obtain ⟨s', hlater⟩ := Option.isSome_iff_exists.mp hsome
  obtain ⟨honce, habsorbing⟩ :=
    opens_and_closes_once maxTcpPacketSize RecvLoop.blankMemory closeWhileConnecting closedRest s s'
      hrun hlater
  exact ⟨s, s', hrun, hlater, hstate, hreturned, honce, (habsorbing hstate).2.trans hstarts⟩

end Runs

end Bugat.Connection
