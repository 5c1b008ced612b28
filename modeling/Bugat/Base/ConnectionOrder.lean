import Mathlib
import Bugat.Base.ConnectionOnce

/-!
# The order of the events of a connection

`Start` posts `Recv` before it fires `OnConnect`, and `Recv` works off the bytes of a read
without looking at `_state` again. The events come in order in the runs in which no other
agent gets into these two windows.
-/

open scoped BigOperators

namespace Bugat.Connection

open Transition (exec Along)

def Ordered (events : List Event) : Prop :=
  ∀ before e after, events = before ++ e :: after →
    (e ≠ .onConnect → .onConnect ∈ before) ∧ ∀ packet, e = .onRead packet → .onClose ∉ before

namespace Pc

def winsNow (u : Shared) : Pc → Bool
  | .close (.exchange expect _) _ => u.state = expect
  | _ => false

def holdsBytes : Pc → Bool
  | .recv (.completed (some _)) _ => true
  | _ => false

def inLoop : Pc → Bool
  | .recv .decode _ | .recv (.onRead _) _ => true
  | _ => false

end Pc

section Steps

variable {u u' : Shared} {pc pc' : Pc} {packetSize : ℤ} {after : AfterClose}

theorem ordered_append {events : List Event} {e : Event} (hord : Ordered events)
    (hconnect : e ≠ .onConnect → .onConnect ∈ events)
    (hclose : ∀ packet, e = .onRead packet → .onClose ∉ events) : Ordered (events ++ [e]) := by
  intro before e' after heq
  rcases List.eq_nil_or_concat after with rfl | ⟨after, last, rfl⟩
  · obtain ⟨rfl, hlast⟩ := List.append_inj' heq rfl
    obtain rfl := List.head_eq_of_cons_eq hlast
    exact ⟨hconnect, hclose⟩
  · rw [List.concat_eq_append, ← List.cons_append, ← List.append_assoc] at heq
    obtain ⟨rfl, -⟩ := List.append_inj' heq rfl
    exact hord before e' after rfl

structure Fires (u : Shared) (pc : Pc) (a : Action) (u' : Shared) (pc' : Pc) : Prop where
  events : u'.events = u.events ∨
    pc = .start .onConnect ∧ u'.events = u.events ++ [.onConnect] ∨
    (∃ packet, pc.inLoop = true ∧ u'.events = u.events ++ [.onRead packet]) ∨
    pc.closing = 1 ∧ u'.events = u.events ++ [.onClose]
  state : u'.state = u.state ∧ u'.wins = u.wins ∨ a = .go ∧ pc.winsNow u = true ∨
    u.state = .connecting ∧ u'.wins = u.wins
  loop : pc'.inLoop = true → pc.inLoop = true ∨ a = .resume ∧ pc.holdsBytes = true

theorem fires_nothing {a : Action} (hevents : u'.events = u.events) (hstate : u'.state = u.state)
    (hwins : u'.wins = u.wins) (hloop : pc'.inLoop = true → pc.inLoop = true) :
    Fires u pc a u' pc' :=
  ⟨.inl hevents, .inl ⟨hstate, hwins⟩, fun h => .inl (hloop h)⟩

theorem start_fires {pc : StartPc} : Fires u (.start pc) .go (start u pc).1 (start u pc).2 := by
  cases pc with
  | exchange =>
    rw [start]
    split
    · rename_i hstate
      exact ⟨.inl rfl, .inr (.inr ⟨hstate, rfl⟩), fun h => by cases h⟩
    · exact fires_nothing rfl rfl rfl fun h => by cases h
  | spawnSend | spawnRecv => exact fires_nothing rfl rfl rfl fun h => by cases h
  | onConnect => exact ⟨.inr (.inl ⟨rfl, rfl⟩), .inl ⟨rfl, rfl⟩, fun h => by cases h⟩

theorem returnClose_fires (u : Shared) (after : AfterClose) :
    (u.returnClose after).1.events = u.events ∧ (u.returnClose after).1.state = u.state ∧
      (u.returnClose after).1.wins = u.wins ∧ (u.returnClose after).2.inLoop = false := by
  cases after <;> exact ⟨rfl, rfl, rfl, rfl⟩

theorem close_fires {pc : ClosePc} :
    Fires u (.close pc after) .go (close u after pc).1 (close u after pc).2 := by
  cases pc with
  | exchange expect attempts =>
    rw [close]
    split
    · rename_i hwin
      exact ⟨.inl rfl, .inr (.inl ⟨rfl, decide_eq_true hwin⟩), fun h => by cases h⟩
    · split
      · obtain ⟨hevents, hstate, hwins, hloop⟩ := returnClose_fires u after
        exact fires_nothing hevents hstate hwins fun h =>
          absurd (hloop.symm.trans h) Bool.false_ne_true
      · exact fires_nothing rfl rfl rfl fun h => by cases h
  | testSocket =>
    rw [close]
    split <;> exact fires_nothing rfl rfl rfl fun h => by cases h
  | closeSocket =>
    rw [close]
    split <;> exact fires_nothing rfl rfl rfl fun h => by cases h
  | resetSocket => exact fires_nothing rfl rfl rfl fun h => by cases h
  | onClose =>
    obtain ⟨hevents, hstate, hwins, hloop⟩ := returnClose_fires u.fireOnClose after
    exact ⟨.inr (.inr (.inr ⟨rfl, hevents⟩)), .inl ⟨hstate, hwins⟩,
      fun h => absurd (hloop.symm.trans h) Bool.false_ne_true⟩

theorem whileOpen_inLoop (hpc : pc.inLoop = false) : (whileOpen u pc).inLoop = false := by
  rw [whileOpen]
  split
  · rfl
  · exact hpc

theorem await_fires {next : Pc} (hpc : next.inLoop = false) :
    Fires u pc .go (await u next).1 (await u next).2 := by
  rw [await]
  split
  · exact fires_nothing rfl rfl rfl fun h => absurd (hpc.symm.trans h) Bool.false_ne_true
  · exact fires_nothing rfl rfl rfl fun h => by cases h

theorem recv_fires {msg : NetworkMessage} {pc : RecvPc}
    (hs : recv packetSize u msg pc = some (u', pc')) : Fires u (.recv pc msg) .go u' pc' := by
  cases pc with
  | initial | reading | completed result => cases hs
  | test =>
    obtain ⟨rfl, rfl⟩ := Prod.mk.inj (Option.some.inj hs)
    exact fires_nothing rfl rfl rfl fun h =>
      absurd ((whileOpen_inLoop rfl).symm.trans h) Bool.false_ne_true
  | use =>
    obtain ⟨rfl, rfl⟩ := Prod.mk.inj (Option.some.inj hs)
    exact await_fires rfl
  | decode =>
    rw [recv] at hs
    split at hs
    all_goals obtain ⟨rfl, rfl⟩ := Prod.mk.inj (Option.some.inj hs)
    all_goals exact fires_nothing rfl rfl rfl fun _ => rfl
  | onRead packet =>
    obtain ⟨rfl, rfl⟩ := Prod.mk.inj (Option.some.inj hs)
    exact ⟨.inr (.inr (.inl ⟨packet, rfl, rfl⟩)), .inl ⟨rfl, rfl⟩, fun _ => .inl rfl⟩

theorem send_fires {sendingPacket : Option AnySendPacket} {helper : PacketHelper} {pc : SendPc}
    (hs : send u sendingPacket helper pc = some (u', pc')) :
    Fires u (.send pc sendingPacket helper) .go u' pc' := by
  cases pc with
  | suspended | writing | completed result => cases hs
  | test =>
    obtain ⟨rfl, rfl⟩ := Prod.mk.inj (Option.some.inj hs)
    exact fires_nothing rfl rfl rfl fun h =>
      absurd ((whileOpen_inLoop rfl).symm.trans h) Bool.false_ne_true
  | use =>
    obtain ⟨rfl, rfl⟩ := Prod.mk.inj (Option.some.inj hs)
    exact await_fires rfl
  | pop =>
    rw [send] at hs
    split at hs
    all_goals obtain ⟨rfl, rfl⟩ := Prod.mk.inj (Option.some.inj hs)
    all_goals exact fires_nothing rfl rfl rfl fun h => by cases h

theorem resumed_inLoop {r : Resumption} (hs : resumed packetSize pc = some (r, pc'))
    (hloop : pc'.inLoop = true) : pc.holdsBytes = true := by
  rw [resumed.eq_def] at hs
  split at hs
  case h_3 => rfl
  case h_6 sendingPacket helper transfer =>
    dsimp only at hs
    split at hs
    all_goals obtain ⟨-, rfl⟩ := Prod.mk.inj (Option.some.inj hs)
    all_goals cases hloop
  case h_7 => cases hs
  all_goals obtain ⟨-, rfl⟩ := Prod.mk.inj (Option.some.inj hs)
  all_goals cases hloop

theorem resume_fires (hs : resume packetSize u pc = some (u', pc')) :
    Fires u pc .resume u' pc' := by
  obtain ⟨r, tasks, hresumed, -, -, rfl⟩ := resume_cases hs
  exact ⟨.inl rfl, .inl ⟨rfl, rfl⟩, fun h => .inr ⟨rfl, resumed_inLoop hresumed h⟩⟩

theorem session_fires {pc : SessionPc} (hs : session u pc = some (u', pc')) :
    Fires u (.session pc) .go u' pc' := by
  cases pc with
  | idle =>
    rw [session] at hs
    split at hs
    · cases hs
    all_goals obtain ⟨rfl, rfl⟩ := Prod.mk.inj (Option.some.inj hs)
    all_goals exact fires_nothing rfl rfl rfl fun h => by cases h
  | test =>
    rw [session] at hs
    obtain ⟨rfl, rfl⟩ := Prod.mk.inj (Option.some.inj hs)
    split <;> exact fires_nothing rfl rfl rfl fun h => by cases h
  | handle packet | release | onClose =>
    obtain ⟨rfl, rfl⟩ := Prod.mk.inj (Option.some.inj hs)
    exact fires_nothing rfl rfl rfl fun h => by cases h

theorem complete_fires {a a' : Action} (hs : complete packetSize u pc a = some (u', pc')) :
    Fires u pc a' u' pc' := by
  cases complete_cases hs with
  | read result msg | write result sendingPacket helper | closeFails after =>
    exact fires_nothing rfl rfl rfl fun h => by cases h

theorem call_fires {a a' : Action} (hs : call u a = some (u', pc')) :
    Fires u .idle a' u' pc' := by
  cases a with
  | callStart | callClose | callSessionClose | push packet =>
    obtain ⟨rfl, rfl⟩ := Prod.mk.inj (Option.some.inj hs)
    exact fires_nothing rfl rfl rfl fun h => by cases h
  | resume | readCompletes result | writeCompletes result | go | closeFails => cases hs

theorem act_fires {a : Action} (hs : act packetSize u pc a = some (u', pc')) :
    Fires u pc a u' pc' := by
  cases act_cases hs with
  | call hs => exact call_fires hs
  | start pc => exact start_fires
  | close pc after => exact close_fires
  | recv hs => exact recv_fires hs
  | send hs => exact send_fires hs
  | session hs => exact session_fires hs
  | resume hs => exact resume_fires hs
  | complete hs => exact complete_fires hs

end Steps

section Runs

variable {Tid : Type*} [Fintype Tid] [DecidableEq Tid] {s s' : State Tid} {packetSize : ℤ}

def Opened (s : State Tid) : Prop :=
  s.shared.state = .connected ∧ ∀ i, (s.thread i).starting = 0

instance (s : State Tid) : Decidable (Opened s) := inferInstanceAs (Decidable (_ ∧ _))

/-- The exchange that closes the connection falls neither into `Start` nor into the inner loop
of `Recv`, and `Recv` goes on with the bytes of a read only while the connection is open. -/
def InTurn (s : State Tid) (l : (Tid ⊕ Role) × Action) : Prop :=
  match l.2 with
  | .go => (s.thread l.1).winsNow s.shared = true → Opened s ∧ ∀ i, (s.thread i).inLoop = false
  | .resume => (s.thread l.1).holdsBytes = true → Opened s
  | _ => True

instance (s : State Tid) (l : (Tid ⊕ Role) × Action) : Decidable (InTurn s l) := by
  unfold InTurn
  split <;> infer_instance

structure InOrder (s : State Tid) : Prop where
  ordered : Ordered s.shared.events
  closed : s.shared.wins ≠ 0 → .onConnect ∈ s.shared.events
  loop : ∀ i, (s.thread i).inLoop = true →
    s.shared.state = .connected ∧ .onConnect ∈ s.shared.events

omit [DecidableEq Tid] in
theorem Reached.onConnect_mem (hr : Reached s) (hopen : Opened s) :
    .onConnect ∈ s.shared.events := by
  obtain ⟨-, hinv, -⟩ := hr.holds.asserted
  have hlife := hinv.lifecycle
  have hcount := hr.onConnect
  rw [Lifecycle, hopen.1] at hlife
  rw [Finset.sum_eq_zero fun i _ => hopen.2 i, hlife.1] at hcount
  refine List.count_pos_iff.mp ?_
  omega

omit [DecidableEq Tid] in
theorem Reached.onClose_not_mem (hr : Reached s) (hstate : s.shared.state = .connected) :
    .onClose ∉ s.shared.events := by
  obtain ⟨-, hinv, -⟩ := hr.holds.asserted
  have hlife := hinv.lifecycle
  have hcount := hr.onClose
  rw [Lifecycle, hstate] at hlife
  refine List.count_eq_zero.mp ?_
  omega

omit [DecidableEq Tid] in
theorem Reached.wins_ne_zero (hr : Reached s) {i : Tid ⊕ Role}
    (hclosing : (s.thread i).closing = 1) :
    s.shared.wins ≠ 0 := by
  have hle := Counting.le_sum s.thread Pc.closing i
  have hcount := hr.onClose
  omega

theorem InOrder.next {l : (Tid ⊕ Role) × Action} (hr : Reached s) (h : InOrder s)
    (hturn : InTurn s l) (hs : step packetSize s l = some s') : InOrder s' := by
  obtain ⟨u, pc, hact, rfl⟩ := Threads.step_eq_some.mp hs
  have hf := act_fires hact
  have hkept : ∀ e ∈ s.shared.events, e ∈ u.events := by
    rcases hf.events with heq | ⟨-, heq⟩ | ⟨packet, -, heq⟩ | ⟨-, heq⟩
    · exact fun e he => heq ▸ he
    all_goals exact fun e he => heq ▸ List.mem_append_left _ he
  have hcloses : l.2 = .go → (s.thread l.1).winsNow s.shared = true →
      Opened s ∧ ∀ i, (s.thread i).inLoop = false := fun hgo hwins => by
    rw [InTurn, hgo] at hturn
    exact hturn hwins
  have hreads : l.2 = .resume → (s.thread l.1).holdsBytes = true → Opened s := fun hgo hbytes => by
    rw [InTurn, hgo] at hturn
    exact hturn hbytes
  -- the connection stays open for a `Recv` in its inner loop, unless this step closes it
  have hstays : s.shared.state = .connected →
      (l.2 = .go → (s.thread l.1).winsNow s.shared = false) →
      u.state = .connected := fun hstate hnot => by
    rcases hf.state with ⟨hsame, -⟩ | ⟨hgo, hwins⟩ | ⟨hconnecting, -⟩
    · exact hsame.trans hstate
    · exact absurd ((hnot hgo).symm.trans hwins) Bool.false_ne_true
    · rw [hstate] at hconnecting
      cases hconnecting
  refine ⟨?_, fun hwins => hkept _ ?_, fun i hloop => ?_⟩
  · change Ordered u.events
    rcases hf.events with heq | ⟨-, heq⟩ | ⟨packet, hloop, heq⟩ | ⟨hclosing, heq⟩
    · rw [heq]
      exact h.ordered
    · rw [heq]
      exact ordered_append h.ordered (fun hne => absurd rfl hne) fun _ he => by cases he
    · rw [heq]
      obtain ⟨hstate, hmem⟩ := h.loop l.1 hloop
      exact ordered_append h.ordered (fun _ => hmem) fun _ _ => hr.onClose_not_mem hstate
    · rw [heq]
      exact ordered_append h.ordered (fun _ => h.closed (hr.wins_ne_zero hclosing))
        fun _ he => by cases he
  · rcases hf.state with ⟨-, hsame⟩ | ⟨hgo, hnow⟩ | ⟨-, hsame⟩
    · exact h.closed fun hzero => hwins (hsame.trans hzero)
    · exact hr.onConnect_mem (hcloses hgo hnow).1
    · exact h.closed fun hzero => hwins (hsame.trans hzero)
  · have hloop' : (s.thread i).inLoop = true ∨ l.2 = .resume ∧ Opened s := by
      by_cases hi : i = l.1
      · subst hi
        have hpc : pc.inLoop = true := by simpa using hloop
        exact (hf.loop hpc).imp_right fun ⟨hresume, hbytes⟩ => ⟨hresume, hreads hresume hbytes⟩
      · exact .inl (by simpa [hi] using hloop)
    rcases hloop' with hold | ⟨hresume, hopen⟩
    · obtain ⟨hstate, hmem⟩ := h.loop i hold
      refine ⟨hstays hstate fun hgo => ?_, hkept _ hmem⟩
      by_contra hwins
      have hnone := (hcloses hgo (Bool.eq_true_of_not_eq_false hwins)).2 i
      rw [hold] at hnone
      cases hnone
    · refine ⟨hstays hopen.1 fun hgo => ?_, hkept _ (hr.onConnect_mem hopen)⟩
      rw [hgo] at hresume
      cases hresume

theorem events_ordered (packetSize : ℤ) (memory : ℕ → DataBlock)
    (ls : List ((Tid ⊕ Role) × Action)) (s : State Tid)
    (hturn : Along InTurn (step packetSize) (init memory) ls)
    (hrun : exec (step packetSize) (init memory) ls = some s) : Ordered s.shared.events := by
  have hnext : ∀ (v : State Tid) l w, Reached v ∧ InOrder v → InTurn v l →
      step packetSize v l = some w → Reached w ∧ InOrder w := fun v l w h hok hs =>
    ⟨h.1.next hs, h.2.next h.1 hok hs⟩
  have hinit : InOrder (init memory : State Tid) := by
    refine ⟨fun before e after heq => ?_, fun h => absurd rfl h, ?_⟩
    · cases before <;> cases heq
    · rintro (t | r) hloop
      · cases hloop
      · cases r <;> cases hloop
  exact (Transition.exec_invariant_along hnext ⟨init_reached memory, hinit⟩ hturn hrun).2.ordered

def packetBytes : List UInt8 := [0, 0, 0, 0, 0, 0, 0, 0]

/-- The thread that calls `Start` waits in front of `OnConnect`, and `Recv` delivers a packet;
another thread closes the connection, and `Recv` delivers the second packet of the read. -/
def lateRead : List ((Bool ⊕ Role) × Action) :=
  [(.inl false, .callStart), (.inl false, .go), (.inl false, .go), (.inl false, .go),
    (.inr .send, .resume), (.inr .send, .go), (.inr .send, .go), (.inr .recv, .resume),
    (.inr .recv, .go), (.inr .recv, .go),
    (.inr .recv, .readCompletes (some (packetBytes ++ packetBytes))),
    (.inr .send, .resume), (.inr .send, .go), (.inr .send, .go),
    (.inr .recv, .resume), (.inr .recv, .go), (.inr .recv, .go), (.inl false, .go),
    (.inl true, .callClose), (.inl true, .go), (.inl true, .go), (.inl true, .go),
    (.inl true, .go), (.inl true, .go), (.inr .recv, .go), (.inr .recv, .go)]

theorem lateRead_not_ordered : ∃ s : State Bool,
    exec (step maxTcpPacketSize) (init RecvLoop.blankMemory) lateRead = some s ∧
      s.shared.events = [.onRead ⟨0, 0⟩, .onConnect, .onClose, .onRead ⟨0, 8⟩] ∧
      ¬ Ordered s.shared.events := by
  have h : ((exec (step maxTcpPacketSize) (init RecvLoop.blankMemory : State Bool)
      lateRead).map fun s => decide (s.shared.events =
        [.onRead ⟨0, 0⟩, .onConnect, .onClose, .onRead ⟨0, 8⟩])) = some true := by
    decide +kernel
  obtain ⟨s, hrun, hs⟩ := Option.map_eq_some_iff.mp h
  have hevents := of_decide_eq_true hs
  refine ⟨s, hrun, hevents, fun hord => ?_⟩
  have hlast := hord [.onRead ⟨0, 0⟩, .onConnect, .onClose] (.onRead ⟨0, 8⟩) [] hevents
  exact hlast.2 _ rfl (by decide)

def readThenClose : List ((Bool ⊕ Role) × Action) :=
  [(.inl false, .callStart), (.inl false, .go), (.inl false, .go), (.inl false, .go),
    (.inl false, .go), (.inr .send, .resume), (.inr .send, .go), (.inr .send, .go),
    (.inr .recv, .resume), (.inr .recv, .go), (.inr .recv, .go),
    (.inr .recv, .readCompletes (some packetBytes)), (.inr .send, .resume), (.inr .send, .go),
    (.inr .send, .go), (.inr .recv, .resume), (.inr .recv, .go), (.inr .recv, .go),
    (.inr .recv, .go), (.inr .recv, .go), (.inr .recv, .go), (.inl true, .callClose),
    (.inl true, .go), (.inl true, .go), (.inl true, .go), (.inl true, .go), (.inl true, .go)]

theorem readThenClose_ordered : ∃ s : State Bool,
    exec (step maxTcpPacketSize) (init RecvLoop.blankMemory) readThenClose = some s ∧
      s.shared.events = [.onConnect, .onRead ⟨0, 0⟩, .onClose] ∧ Ordered s.shared.events := by
  have h : ((exec (step maxTcpPacketSize) (init RecvLoop.blankMemory : State Bool)
      readThenClose).map fun s => decide (s.shared.events =
        [.onConnect, .onRead ⟨0, 0⟩, .onClose])) = some true := by
    decide +kernel
  obtain ⟨s, hrun, hs⟩ := Option.map_eq_some_iff.mp h
  exact ⟨s, hrun, of_decide_eq_true hs,
    events_ordered _ _ readThenClose s (by decide +kernel) hrun⟩

end Runs

end Bugat.Connection
