import Mathlib
import Bugat.Base.NetworkMessageGrowth
import Bugat.Base.Wire
import Bugat.GameServer.RecvMoves

/-!
# From Session::Send to GameHandler::Handle

One end sends messages; its coroutine writes them to the socket in parts. The other end reads
the bytes in any portions, cuts them into packets, and passes a task for each packet through the
mailbox of the session to its handler, whichever threads run the two mailboxes. The handler gets
the messages that were sent, in their order.
-/

namespace Bugat.Delivery

open GameSession (Recv RecvMoves Flow OneWorker PostInFlight handled)
open NetworkMessage (CurAllocated Grows PacketInside CurValid map_packetBytes)
open Transition (exec Along exec_invariant_along)

variable {Tid Task : Type*}

structure State (Tid Task : Type*) where
  sent : List Message
  sender : SendLoop
  inFlight : List UInt8
  game : GameSession.State Tid Task

inductive Label (Tid Task : Type*)
  | send (m : Message)
  | sender (l : SendLoop.Label)
  | read (t : Tid) (n : ℕ)
  | game (l : GameSession.Label Tid Task)

def init (memory : ℕ → DataBlock) : State Tid Task :=
  ⟨[], SendLoop.init, [], GameSession.init memory⟩

section Steps

variable [DecidableEq Tid]

def onSender (s : State Tid Task) (l : SendLoop.Label) : Option (State Tid Task) :=
  (s.sender.step l).map fun sender =>
    { s with
      sender := sender
      inFlight := s.inFlight ++ sender.accepted.drop s.sender.accepted.length }

def onGame (s : State Tid Task) (l : GameSession.Label Tid Task) (inFlight : List UInt8) :
    Option (State Tid Task) :=
  (GameSession.step maxTcpPacketSize s.game l).map fun game =>
    { s with inFlight := inFlight, game := game }

/-- A read returns the first bytes that are in flight. -/
def step (s : State Tid Task) : Label Tid Task → Option (State Tid Task)
  | .send m => onSender { s with sent := s.sent ++ [m] } (.push m.packet)
  | .sender (.push _) => none
  | .sender l => onSender s l
  | .read t n => onGame s (.readCompletes t (some (s.inFlight.take n))) (s.inFlight.drop n)
  | .game (.readCompletes _ (some _)) => none
  | .game l => onGame s l s.inFlight

end Steps

def SwitchesEmpty (m : NetworkMessage) : Prop :=
  ∀ b ∈ m.cur, b.getRemainSize maxTcpPacketSize < maxTcpPacketSize → b.head = b.tail

def Lossless (s : State Tid Task) : Label Tid Task → Prop
  | .send m => m.Fits
  | .game l => OneWorker s.game l ∧
    ∀ t, l = .recv false → s.game.recv = .running t .test → SwitchesEmpty s.game.msg
  | _ => True

structure Settled (s : State Tid Task) : Prop where
  queue : s.sender.sendQue = []
  sending : s.sender.sendingPacket = none
  inFlight : s.inFlight = []
  reading : s.game.recv = .reading
  mailbox : s.game.session.que = []
  posted : ¬ PostInFlight s.game

def handledMessages (s : State Tid Task) : List Message :=
  (handled s.game).map fun p => Message.ofBytes (s.game.msg.packetBytes p)

def pending : Recv Tid → List UInt8
  | .completed (some bytes) => bytes
  | _ => []

/-- How the loop of `Recv`, taken alone, stands beside the coroutine. Between `GetBufInfo` and
the resumption the loop has not read. -/
def Follows (r : RecvLoop) (msg : NetworkMessage) : Recv Tid → Prop
  | .notStarted | .spawned | .running _ .test => msg = r.msg ∧ r.decoding = false
  | .reading =>
    msg = (r.msg.getBufInfo maxTcpPacketSize).1 ∧ r.decoding = false ∧ SwitchesEmpty r.msg
  | .completed (some bytes) =>
    (msg = (r.msg.getBufInfo maxTcpPacketSize).1 ∧ r.decoding = false ∧ SwitchesEmpty r.msg) ∧
      1 ≤ bytes.length ∧ (bytes.length : ℤ) ≤ maxTcpPacketSize
  | .running _ .decode | .running _ (.onRead _) | .running _ .handed =>
    msg = r.msg ∧ r.decoding = true
  | .completed none | .running _ .close | .finished =>
    msg = r.msg ∨ msg = (r.msg.getBufInfo maxTcpPacketSize).1

structure Held (packets : List RecvPacket) (r : RecvLoop) : Prop where
  yielded : r.yielded = packets.map r.msg.packetBytes
  inside : ∀ p ∈ packets, PacketInside r.msg p ∧ p.block < r.msg.allocated
  current : CurAllocated r.msg

section Invariant

variable [Fintype Tid] [DecidableEq Tid]

structure Inv (s : State Tid Task) (r : RecvLoop) : Prop where
  wire : Wire.Inv ⟨s.sent, s.sender, pending s.game.recv ++ s.inFlight, r⟩
  follows : Follows r s.game.msg s.game.recv
  held : Held s.game.yielded r
  flow : Flow s.game

variable {s s' : State Tid Task} {r : RecvLoop} {l : Label Tid Task}

omit [DecidableEq Tid] in
theorem init_inv (memory : ℕ → DataBlock) :
    Inv (init memory : State Tid Task) (RecvLoop.init memory) where
  wire := Wire.init_inv memory
  follows := ⟨rfl, rfl⟩
  held := by
    refine ⟨rfl, ?_, ?_⟩
    · intro p hp
      cases hp
    · intro id hid
      cases hid
  flow := GameSession.flow_init memory

theorem Held.grows {packets : List RecvPacket} (h : Held packets r) {msg : NetworkMessage}
    {decoding : Bool} {received : List UInt8} (hgrows : Grows r.msg msg)
    (hcurrent : CurAllocated msg) : Held packets ⟨msg, decoding, received, r.yielded⟩ := by
  refine ⟨?_, ?_, hcurrent⟩
  · dsimp only
    rw [map_packetBytes h.inside hgrows]
    exact h.yielded
  · intro p hp
    obtain ⟨hinside, hblock⟩ := h.inside p hp
    refine ⟨(NetworkMessage.packetBytes_of_extends hinside (hgrows.blocks _ hblock)).2, ?_⟩
    exact hblock.trans_le hgrows.allocated

omit [DecidableEq Tid] in
theorem Inv.of_same {game : GameSession.State Tid Task} (h : Inv s r) (hflow : Flow game)
    (hpending : pending game.recv = pending s.game.recv) (hyielded : game.yielded = s.game.yielded)
    (hfollows : Follows r game.msg game.recv) : Inv { s with game := game } r where
  wire := by
    change Wire.Inv ⟨s.sent, s.sender, pending game.recv ++ s.inFlight, r⟩
    rw [hpending]
    exact h.wire
  follows := hfollows
  held := by
    change Held game.yielded r
    rw [hyielded]
    exact h.held
  flow := hflow

omit [DecidableEq Tid] in
theorem Inv.fill {game : GameSession.State Tid Task} {t : Tid} {bytes : List UInt8}
    (h : Inv s r) (hflow : Flow game) (hold : s.game.recv = .completed (some bytes))
    (hrecv : game.recv = .running t .decode)
    (hmsg : game.msg = ((RecvLoop.fill s.game.msg bytes).update maxTcpPacketSize bytes.length).2)
    (hyielded : game.yielded = s.game.yielded) : ∃ r', Inv { s with game := game } r' := by
  have hfollows := h.follows
  rw [hold] at hfollows
  obtain ⟨⟨hinfo, hdecoding, hswitch⟩, hpos, hlen⟩ := hfollows
  have hwire := h.wire
  rw [hold] at hwire
  let r' : RecvLoop :=
    ⟨RecvLoop.receive maxTcpPacketSize r.msg bytes, true, r.received ++ bytes, r.yielded⟩
  have hr' : RecvLoop.step maxTcpPacketSize r (.read bytes) = some r' :=
    RecvLoop.step_read.mpr ⟨⟨hdecoding, hpos, hlen⟩, rfl⟩
  have htake : (pending (.completed (some bytes) : Recv Tid) ++ s.inFlight).take bytes.length =
      bytes := List.take_left
  have hdrop : (pending (.completed (some bytes) : Recv Tid) ++ s.inFlight).drop bytes.length =
      s.inFlight := List.drop_left
  have hstep : Wire.step ⟨s.sent, s.sender, pending (.completed (some bytes) : Recv Tid) ++
      s.inFlight, r⟩ (.read bytes.length) = some ⟨s.sent, s.sender, s.inFlight, r'⟩ := by
    rw [Wire.step, htake, hdrop, Wire.onReceiver, hr']
    rfl
  have hempty : RecvLoop.SwitchEmpty maxTcpPacketSize r (.read bytes) :=
    fun _ _ b hb => hswitch b hb
  refine ⟨r', ?_, ?_, ?_, hflow⟩
  · change Wire.Inv ⟨s.sent, s.sender, pending game.recv ++ s.inFlight, r'⟩
    rw [hrecv]
    exact hwire.read (by rwa [htake]) hstep
  · change Follows r' game.msg game.recv
    rw [hrecv, hmsg, hinfo]
    exact ⟨rfl, rfl⟩
  · change Held game.yielded r'
    rw [hyielded]
    have hvalid := h.wire.receiver.valid
    exact h.held.grows (NetworkMessage.grows_receive tcp_packetSizeOk hvalid hlen)
      (NetworkMessage.curAllocated_receive tcp_packetSizeOk hvalid hlen h.held.current)

omit [DecidableEq Tid] in
theorem Inv.exhausted {game : GameSession.State Tid Task} {t : Tid} (h : Inv s r)
    (hflow : Flow game) (hold : s.game.recv = .running t .decode)
    (hnone : s.game.msg.getNetMessage = none) (hrecv : game.recv = .running t .test)
    (hmsg : game.msg = s.game.msg) (hyielded : game.yielded = s.game.yielded) :
    ∃ r', Inv { s with game := game } r' := by
  have hfollows := h.follows
  rw [hold] at hfollows
  obtain ⟨hsame, hdecoding⟩ := hfollows
  have hwire := h.wire
  rw [hold] at hwire
  rw [hsame] at hnone
  have hr' : RecvLoop.step maxTcpPacketSize r .decode = some { r with decoding := false } :=
    RecvLoop.step_decode.mpr ⟨hdecoding, .inl ⟨hnone, rfl⟩⟩
  have hstep : Wire.step ⟨s.sent, s.sender, pending (.running t .decode) ++ s.inFlight, r⟩
      .decode = some ⟨s.sent, s.sender, pending (.running t .decode) ++ s.inFlight,
        { r with decoding := false }⟩ := by
    rw [Wire.step, Wire.onReceiver, hr']
    rfl
  refine ⟨{ r with decoding := false }, ?_, ?_, ?_, hflow⟩
  · change Wire.Inv ⟨s.sent, s.sender, pending game.recv ++ s.inFlight, _⟩
    rw [hrecv]
    exact hwire.decode hstep
  · change Follows _ game.msg game.recv
    rw [hrecv, hmsg]
    exact ⟨hsame, rfl⟩
  · change Held game.yielded _
    rw [hyielded]
    exact h.held.grows (NetworkMessage.grows_refl r.msg) h.held.current

omit [DecidableEq Tid] in
theorem Inv.cut {game : GameSession.State Tid Task} {t : Tid} {packet : RecvPacket}
    (h : Inv s r) (hflow : Flow game) (hold : s.game.recv = .running t .decode)
    (hcut : s.game.msg.getNetMessage = some (packet, game.msg))
    (hrecv : game.recv = .running t (.onRead packet))
    (hyielded : game.yielded = s.game.yielded ++ [packet]) :
    ∃ r', Inv { s with game := game } r' := by
  have hfollows := h.follows
  rw [hold] at hfollows
  obtain ⟨hsame, hdecoding⟩ := hfollows
  have hwire := h.wire
  rw [hold] at hwire
  rw [hsame] at hcut
  let r' : RecvLoop :=
    { r with msg := game.msg, yielded := r.yielded ++ [game.msg.packetBytes packet] }
  have hr' : RecvLoop.step maxTcpPacketSize r .decode = some r' :=
    RecvLoop.step_decode.mpr ⟨hdecoding, .inr ⟨packet, game.msg, hcut, rfl⟩⟩
  have hstep : Wire.step ⟨s.sent, s.sender, pending (.running t .decode) ++ s.inFlight, r⟩
      .decode = some ⟨s.sent, s.sender, pending (.running t .decode) ++ s.inFlight, r'⟩ := by
    rw [Wire.step, Wire.onReceiver, hr']
    rfl
  obtain ⟨todo, -, -, hheader⟩ := hwire.receiver.header tcp_packetSizeOk fun p hp =>
    hwire.isPacket hp
  obtain ⟨hcur, hcur', halloc, hgrows, hinside⟩ :=
    NetworkMessage.cut_spec tcp_packetSizeOk hwire.receiver.valid hheader hcut
  have hcurrent : CurAllocated game.msg := by
    intro id hid
    rw [halloc]
    exact h.held.current id (hcur' ▸ hid)
  have hgrown : Held s.game.yielded ⟨game.msg, r.decoding, r.received, r.yielded⟩ :=
    h.held.grows hgrows hcurrent
  refine ⟨r', ?_, ?_, ?_, hflow⟩
  · change Wire.Inv ⟨s.sent, s.sender, pending game.recv ++ s.inFlight, r'⟩
    rw [hrecv]
    exact hwire.decode hstep
  · change Follows r' game.msg game.recv
    rw [hrecv]
    exact ⟨rfl, hdecoding⟩
  · change Held game.yielded r'
    rw [hyielded]
    refine ⟨?_, ?_, hcurrent⟩
    · rw [List.map_append]
      exact congrArg (· ++ _) hgrown.yielded
    · intro p hp
      rcases List.mem_append.mp hp with hp | hp
      · exact hgrown.inside p hp
      · obtain rfl := List.mem_singleton.mp hp
        refine ⟨hinside, ?_⟩
        change p.block < game.msg.allocated
        rw [halloc]
        exact h.held.current _ hcur

theorem Inv.game {game : GameSession.State Tid Task} {lg : GameSession.Label Tid Task}
    (h : Inv s r) (hone : OneWorker s.game lg)
    (hswitch : ∀ t, lg = .recv false → s.game.recv = .running t .test → SwitchesEmpty s.game.msg)
    (hlg : ∀ t bytes, lg ≠ .readCompletes t (some bytes))
    (hs : GameSession.step maxTcpPacketSize s.game lg = some game) :
    ∃ r', Inv { s with game := game } r' := by
  have hflow := h.flow.next hone hs
  have hfollows := h.follows
  cases GameSession.recvMoves_of_step hs with
  | stays hrecv hmsg hyielded =>
    exact ⟨r, h.of_same hflow (by rw [hrecv]) hyielded (by rwa [hrecv, hmsg])⟩
  | spawn hold hrecv hmsg hyielded =>
    rw [hold] at hfollows
    exact ⟨r, h.of_same hflow (by rw [hrecv, hold]; rfl) hyielded (by rwa [hrecv, hmsg])⟩
  | complete t result hold hrecv hlength hmsg hyielded =>
    cases result with
    | some bytes => exact absurd rfl (hlg t bytes)
    | none =>
      rw [hold] at hfollows
      refine ⟨r, h.of_same hflow (by rw [hrecv, hold]; rfl) hyielded ?_⟩
      rw [hrecv, hmsg]
      exact .inr hfollows.1
  | start t hold hrecv hmsg hyielded =>
    rw [hold] at hfollows
    exact ⟨r, h.of_same hflow (by rw [hrecv, hold]; rfl) hyielded (by rwa [hrecv, hmsg])⟩
  | fill t bytes hold hrecv hmsg hyielded => exact h.fill hflow hold hrecv hmsg hyielded
  | request t hold hrecv hmsg hyielded =>
    rw [hold] at hfollows
    obtain ⟨hsame, hdecoding⟩ := hfollows
    have hempty := hswitch t rfl hold
    rw [hsame] at hmsg hempty
    refine ⟨r, h.of_same hflow (by rw [hrecv, hold]; rfl) hyielded ?_⟩
    rw [hrecv, hmsg]
    exact ⟨rfl, hdecoding, hempty⟩
  | exhausted t hold hnone hrecv hmsg hyielded =>
    exact h.exhausted hflow hold hnone hrecv hmsg hyielded
  | cut t packet hold hcut hrecv hyielded => exact h.cut hflow hold hcut hrecv hyielded
  | posted t packet hold hrecv hmsg hyielded =>
    rw [hold] at hfollows
    exact ⟨r, h.of_same hflow (by rw [hrecv, hold]; rfl) hyielded (by rwa [hrecv, hmsg])⟩
  | again t hold hrecv hmsg hyielded =>
    rw [hold] at hfollows
    exact ⟨r, h.of_same hflow (by rw [hrecv, hold]; rfl) hyielded (by rwa [hrecv, hmsg])⟩
  | ends t hold hrecv hmsg hyielded =>
    have hpending : pending game.recv = pending s.game.recv := by
      rcases hrecv with hrecv | hrecv <;> rcases hold with hold | hold | hold <;>
        rw [hrecv, hold] <;> rfl
    have hmsgs : s.game.msg = r.msg ∨
        s.game.msg = (r.msg.getBufInfo maxTcpPacketSize).1 := by
      rcases hold with hold | hold | hold
      · rwa [hold] at hfollows
      · rw [hold] at hfollows
        exact .inl hfollows.1
      · rwa [hold] at hfollows
    refine ⟨r, h.of_same hflow hpending hyielded ?_⟩
    rw [hmsg]
    rcases hrecv with hrecv | hrecv <;> rw [hrecv] <;> exact hmsgs

omit [Fintype Tid] [DecidableEq Tid] in
theorem onSender_eq_some {ls : SendLoop.Label} : onSender s ls = some s' ↔
    ∃ sender, s.sender.step ls = some sender ∧ s' = { s with
      sender := sender
      inFlight := s.inFlight ++ sender.accepted.drop s.sender.accepted.length } := by
  simp only [onSender, Option.map_eq_some_iff, eq_comm (a := s')]

theorem Inv.send {m : Message} (h : Inv s r) (hfits : m.Fits)
    (hs : step s (.send m) = some s') : Inv s' r := by
  obtain ⟨sender, hsender, rfl⟩ := onSender_eq_some.mp hs
  have hwire : Wire.Inv ⟨s.sent ++ [m], sender, (pending s.game.recv ++ s.inFlight) ++
      sender.accepted.drop s.sender.accepted.length, r⟩ := by
    refine h.wire.send hfits ?_
    rw [Wire.step, Wire.onSender]
    exact Option.map_eq_some_iff.mpr ⟨sender, hsender, rfl⟩
  rw [List.append_assoc] at hwire
  exact ⟨hwire, h.follows, h.held, h.flow⟩

theorem Inv.sender {ls : SendLoop.Label} (h : Inv s r) (hs : step s (.sender ls) = some s') :
    Inv s' r := by
  have hpush : ∀ p, ls ≠ .push p := by
    rintro p rfl
    cases hs
  have hs' : onSender s ls = some s' := by
    cases ls with
    | push p => exact absurd rfl (hpush p)
    | pop | write _ | update | finish => exact hs
  obtain ⟨sender, hsender, rfl⟩ := onSender_eq_some.mp hs'
  have hwire : Wire.Inv ⟨s.sent, sender, (pending s.game.recv ++ s.inFlight) ++
      sender.accepted.drop s.sender.accepted.length, r⟩ :=
    h.wire.onSender hpush (Wire.onSender_eq_some.mpr ⟨sender, hsender, rfl⟩)
  rw [List.append_assoc] at hwire
  exact ⟨hwire, h.follows, h.held, h.flow⟩

theorem Inv.read {t : Tid} {n : ℕ} (h : Inv s r) (hs : step s (.read t n) = some s') :
    Inv s' r := by
  obtain ⟨game, hgame, rfl⟩ := Option.map_eq_some_iff.mp hs
  have hone : OneWorker s.game (.readCompletes t (some (s.inFlight.take n))) := by
    intro u hu
    cases hu
  have hflow := h.flow.next hone hgame
  obtain ⟨hold, hrecv, hlength, hmsg, hyielded⟩ := GameSession.readCompletes_eq_some hgame
  have hfollows := h.follows
  rw [hold] at hfollows
  refine ⟨?_, ?_, ?_, hflow⟩
  · change Wire.Inv ⟨s.sent, s.sender, pending game.recv ++ s.inFlight.drop n, r⟩
    have hwire := h.wire
    rw [hold] at hwire
    have hbytes : pending game.recv ++ s.inFlight.drop n = s.inFlight := by
      rw [hrecv]
      exact List.take_append_drop n s.inFlight
    rw [hbytes]
    exact hwire
  · change Follows r game.msg game.recv
    rw [hrecv, hmsg]
    exact ⟨hfollows, hlength _ rfl⟩
  · change Held game.yielded r
    rw [hyielded]
    exact h.held

theorem Inv.step (h : Inv s r) (hok : Lossless s l) (hs : step s l = some s') :
    ∃ r', Inv s' r' := by
  cases l with
  | send m => exact ⟨r, h.send hok hs⟩
  | sender ls => exact ⟨r, h.sender hs⟩
  | read t n => exact ⟨r, h.read hs⟩
  | game lg =>
    have hlg : ∀ t bytes, lg ≠ .readCompletes t (some bytes) := by
      rintro t bytes rfl
      cases hs
    have hs' : onGame s lg s.inFlight = some s' := by
      cases lg with
      | readCompletes t result =>
        cases result with
        | some bytes => exact absurd rfl (hlg t bytes)
        | none => exact hs
      | connection _ | session _ | spawnRecv _ | recv _ => exact hs
    obtain ⟨game, hgame, rfl⟩ := Option.map_eq_some_iff.mp hs'
    exact h.game hok.1 hok.2 hlg hgame

omit [DecidableEq Tid] in
theorem Inv.packetBytes (h : Inv s r) :
    s.game.yielded.map s.game.msg.packetBytes = r.yielded := by
  have hmsg : s.game.msg = r.msg ∨ s.game.msg = (r.msg.getBufInfo maxTcpPacketSize).1 := by
    have hfollows := h.follows
    cases hrecv : s.game.recv with
    | notStarted | spawned =>
      rw [hrecv] at hfollows
      exact .inl hfollows.1
    | reading =>
      rw [hrecv] at hfollows
      exact .inr hfollows.1
    | completed result =>
      rw [hrecv] at hfollows
      cases result with
      | none => exact hfollows
      | some bytes => exact .inr hfollows.1.1
    | running t pc =>
      rw [hrecv] at hfollows
      cases pc with
      | test | decode | onRead _ | handed => exact .inl hfollows.1
      | close => exact hfollows
    | finished =>
      rw [hrecv] at hfollows
      exact hfollows
  rw [h.held.yielded]
  rcases hmsg with hmsg | hmsg
  · rw [hmsg]
  · rw [hmsg]
    exact map_packetBytes h.held.inside (NetworkMessage.grows_refill _ r.msg)

structure Delivered (s : State Tid Task) : Prop where
  inOrder : handledMessages s <+: s.sent
  complete : Settled s → handledMessages s = s.sent

omit [DecidableEq Tid] in
theorem Inv.delivered (h : Inv s r) : Delivered s := by
  have hyielded : (s.game.yielded.map fun p => Message.ofBytes (s.game.msg.packetBytes p)) =
      r.yielded.map Message.ofBytes := by
    rw [← h.packetBytes, List.map_map]
    rfl
  refine ⟨?_, ?_⟩
  · have hhandled := h.flow.inOrder.handled_yielded.map fun p =>
      Message.ofBytes (s.game.msg.packetBytes p)
    refine hhandled.trans ?_
    rw [hyielded]
    exact h.wire.inOrder
  · intro hsettled
    have hall := h.flow.inOrder.all_handled hsettled.mailbox hsettled.posted
    have hfollows := h.follows
    rw [hsettled.reading] at hfollows
    have hwire := h.wire.complete
      ⟨hsettled.queue, hsettled.sending, by rw [hsettled.reading, hsettled.inFlight]; rfl,
        hfollows.2.1⟩
    rw [handledMessages, hall, hyielded]
    exact hwire

theorem messages_delivered (memory : ℕ → DataBlock) (ls : List (Label Tid Task))
    (s : State Tid Task) (hok : Along Lossless step (init memory) ls)
    (hrun : exec step (init memory) ls = some s) : Delivered s := by
  have hinv : ∃ r, Inv s r := by
    refine exec_invariant_along (P := fun s => ∃ r, Inv s r) ?_ ⟨_, init_inv memory⟩ hok hrun
    intro s l s' h hok hs
    obtain ⟨r, hr⟩ := h
    exact hr.step hok hs
  obtain ⟨r, hr⟩ := hinv
  exact hr.delivered

end Invariant

section Runs

open TaskSerializer (Caller)

instance (m : NetworkMessage) : Decidable (SwitchesEmpty m) :=
  inferInstanceAs (Decidable (∀ b ∈ m.cur, _ → _))

instance [DecidableEq Tid] [Fintype Tid] [DecidableEq Task] (s : State Tid Task)
    (l : Label Tid Task) : Decidable (Lossless s l) :=
  match l with
  | .send m => inferInstanceAs (Decidable m.Fits)
  | .game lg => inferInstanceAs (Decidable (OneWorker s.game lg ∧
      ∀ t, lg = .recv false → s.game.recv = .running t .test → SwitchesEmpty s.game.msg))
  | .sender _ | .read _ _ => isTrue trivial

def onConnection (l : TaskSerializer.Label Caller (GameSession.ConnectionTask Unit)) :
    Label Caller Unit := .game (.connection l)

def onSession (l : TaskSerializer.Label Caller (GameSession.SessionTask Unit)) :
    Label Caller Unit := .game (.session l)

def recvSteps (n : ℕ) : List (Label Caller Unit) := List.replicate n (.game (.recv false))

def posts (t : Caller) : List (TaskSerializer.Label Caller Task) :=
  [.addSize t, .addTaskCount t, .onPost t]

def resumes (t : Caller) : List (TaskSerializer.Label Caller Task) :=
  [.enter t, .getSize t, .pop t]

def ends (t : Caller) : List (TaskSerializer.Label Caller Task) :=
  [.taskReturns t, .pop t, .subTaskCount t, .onRun t]

def twoReads : List (Label Caller Unit) := List.flatten
  [[.game (.spawnRecv .poster)], (posts .poster).map onConnection,
    (resumes .rival).map onConnection, recvSteps 1, (ends .rival).map onConnection,
    [.send ⟨7, [42]⟩, .sender .pop, .sender (.write 5), .read .poster 5],
    (posts .poster).map onConnection, (resumes .rival).map onConnection, recvSteps 2,
    (ends .rival).map onConnection,
    [.send ⟨-1, []⟩, .sender .update, .sender .finish, .sender (.write 4), .sender .update,
      .sender .finish, .sender .pop, .sender (.write 8), .sender .update, .sender .finish,
      .read .poster 12],
    (posts .poster).map onConnection, (resumes .runner).map onConnection, recvSteps 2,
    (posts .runner).map onSession, recvSteps 3, (posts .runner).map onSession,
    (resumes .rival).map onSession, recvSteps 3,
    [.taskReturns .rival, .pop .rival].map onSession]

theorem twoReads_delivered : ∃ s,
    exec step (init RecvLoop.blankMemory) twoReads = some s ∧ Delivered s ∧
      s.game.recv = .reading ∧ handledMessages s = [⟨7, [42]⟩, ⟨-1, []⟩] := by
  have h : (exec step (init RecvLoop.blankMemory) twoReads).map (fun s =>
      decide (s.game.recv = .reading ∧ handledMessages s = [⟨7, [42]⟩, ⟨-1, []⟩])) =
        some true := by
    decide +kernel
  obtain ⟨s, hrun, hs⟩ := Option.map_eq_some_iff.mp h
  obtain ⟨hreading, hhandled⟩ := of_decide_eq_true hs
  exact ⟨s, hrun, messages_delivered _ twoReads s (by decide +kernel) hrun, hreading, hhandled⟩

end Runs

end Bugat.Delivery
