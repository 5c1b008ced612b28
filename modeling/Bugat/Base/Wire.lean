import Mathlib
import Bugat.Base.NetworkMessageReassembly
import Bugat.Base.SendLoop

/-!
# Messages from one connection to the other

`Session::Send` puts a header in front of the finished buffer and hands both to the connection.
The bytes that its socket accepts arrive at the peer in order, in reads of any length, and the
peer's `Recv` cuts them into packets again.
-/

namespace Bugat

open MachineInt (wrap32 wrap32_of_mem int32LE int32LE_bytesLE bytesLE length_bytesLE int32Max)
open Framing (IsPacket sizeField sizeField_append)
open Transition (exec Along exec_invariant_along)

structure Message where
  type : ℤ
  body : List UInt8
  deriving DecidableEq, Repr

namespace Message

def header (m : Message) : List UInt8 := bytesLE (wrap32 m.body.length) ++ bytesLE m.type

theorem length_header (m : Message) : m.header.length = 8 := by
  rw [header, List.length_append, length_bytesLE, length_bytesLE]

def packet (m : Message) : SendPacket where
  header := m.header
  header_ne_nil := List.ne_nil_of_length_pos (by rw [m.length_header]; decide)
  bufs := [m.body]

def bytes (m : Message) : List UInt8 := m.header ++ m.body

def ofBytes (p : List UInt8) : Message :=
  ⟨int32LE (p.getD 4 0) (p.getD 5 0) (p.getD 6 0) (p.getD 7 0), p.drop 8⟩

structure Fits (m : Message) : Prop where
  length : (m.body.length : ℤ) + headerSize ≤ maxTcpPacketSize
  lower : -2 ^ 31 ≤ m.type
  upper : m.type ≤ int32Max

instance (m : Message) : Decidable m.Fits :=
  decidable_of_iff ((m.body.length : ℤ) + headerSize ≤ maxTcpPacketSize ∧ -2 ^ 31 ≤ m.type ∧
      m.type ≤ int32Max)
    ⟨fun h => ⟨h.1, h.2.1, h.2.2⟩, fun h => ⟨h.length, h.lower, h.upper⟩⟩

variable {m : Message}

theorem packet_bytes (m : Message) (n : ℕ) : (⟨n, m.packet⟩ : AnySendPacket).bytes = m.bytes := by
  simp [AnySendPacket.bytes, AnySendPacket.getBufs, SendPacket.data, packet, bytes]

theorem sizeField_bytes (h : m.Fits) : sizeField m.bytes = m.body.length := by
  have hlength := h.length
  simp only [headerSize, maxTcpPacketSize] at hlength
  rw [bytes, header, List.append_assoc, sizeField_append _ _ (by rw [length_bytesLE]), sizeField,
    wrap32_of_mem (by omega) (by simp only [int32Max]; omega)]
  exact int32LE_bytesLE (by omega) (by simp only [int32Max]; omega)

theorem isPacket_bytes (h : m.Fits) : IsPacket maxTcpPacketSize m.bytes := by
  have hlength : m.bytes.length = 8 + m.body.length := by
    rw [bytes, List.length_append, m.length_header]
  refine ⟨by omega, ?_, ?_⟩
  · rw [sizeField_bytes h, hlength, headerSize]
    omega
  · have hfits := h.length
    rw [headerSize] at hfits
    omega

theorem ofBytes_bytes (h : m.Fits) : ofBytes m.bytes = m := by
  have htype : ∀ k < 4, m.bytes.getD (4 + k) 0 = (bytesLE m.type).getD k 0 := by
    intro k hk
    have hfirst : (bytesLE (wrap32 m.body.length)).length ≤ 4 + k := by
      rw [length_bytesLE]
      omega
    rw [bytes, header, List.append_assoc, List.getD_append_right _ _ _ _ hfirst, length_bytesLE,
      Nat.add_sub_cancel_left, List.getD_append _ _ _ _ (by rw [length_bytesLE]; exact hk)]
  have hbody : m.bytes.drop 8 = m.body := by
    rw [bytes, ← m.length_header, List.drop_left]
  rw [ofBytes, htype 0 (by decide), htype 1 (by decide), htype 2 (by decide),
    htype 3 (by decide), hbody, int32LE_bytesLE h.lower h.upper]

theorem map_ofBytes {ms : List Message} (h : ∀ m ∈ ms, m.Fits) :
    (ms.map bytes).map ofBytes = ms := by
  rw [List.map_map]
  refine (List.map_congr_left fun m hm => ?_).trans ms.map_id
  exact ofBytes_bytes (h m hm)

end Message

/-- One direction of a connection. `sent` records the messages, `inFlight` the bytes that the
sender's socket has accepted and the receiver has not read. -/
structure Wire where
  sent : List Message
  sender : SendLoop
  inFlight : List UInt8
  receiver : RecvLoop

namespace Wire

inductive Label
  | send (m : Message)
  | pop
  | write (transfer : ℕ)
  | update
  | finish
  | read (n : ℕ)
  | decode

def init (memory : ℕ → DataBlock) : Wire := ⟨[], SendLoop.init, [], RecvLoop.init memory⟩

/-- A step of the sender; the socket passes on what it accepts. -/
def onSender (w : Wire) (l : SendLoop.Label) : Option Wire :=
  (w.sender.step l).map fun sender =>
    { w with
      sender := sender
      inFlight := w.inFlight ++ sender.accepted.drop w.sender.accepted.length }

def onReceiver (w : Wire) (l : RecvLoop.Label) (inFlight : List UInt8) : Option Wire :=
  (RecvLoop.step maxTcpPacketSize w.receiver l).map fun receiver =>
    { w with inFlight := inFlight, receiver := receiver }

def step (w : Wire) : Label → Option Wire
  | .send m => { w with sent := w.sent ++ [m] }.onSender (.push m.packet)
  | .pop => w.onSender .pop
  | .write transfer => w.onSender (.write transfer)
  | .update => w.onSender .update
  | .finish => w.onSender .finish
  | .read n => w.onReceiver (.read (w.inFlight.take n)) (w.inFlight.drop n)
  | .decode => w.onReceiver .decode w.inFlight

def received (w : Wire) : List Message := w.receiver.yielded.map Message.ofBytes

/-- Each message fits into a packet, and no read comes with a switch of blocks that drops
buffered bytes. -/
def Lossless (w : Wire) : Label → Prop
  | .send m => m.Fits
  | .read n => RecvLoop.SwitchEmpty maxTcpPacketSize w.receiver (.read (w.inFlight.take n))
  | _ => True

structure Settled (w : Wire) : Prop where
  queue : w.sender.sendQue = []
  sending : w.sender.sendingPacket = none
  inFlight : w.inFlight = []
  decoded : w.receiver.decoding = false

structure Inv (w : Wire) : Prop where
  sender : w.sender.Inv
  packets : w.sender.pushed.map AnySendPacket.packet = w.sent.map Message.packet
  fits : ∀ m ∈ w.sent, m.Fits
  wire : w.sender.accepted = w.receiver.received ++ w.inFlight
  receiver : RecvLoop.Inv (w.sent.map Message.bytes) maxTcpPacketSize w.receiver

instance (s : RecvLoop) (bytes : List UInt8) :
    Decidable (RecvLoop.SwitchEmpty maxTcpPacketSize s (.read bytes)) :=
  decidable_of_iff (∀ b ∈ s.msg.cur, b.getRemainSize maxTcpPacketSize < maxTcpPacketSize →
      b.head = b.tail)
    ⟨fun h _ _ b hb => h b hb, fun h b hb => h bytes rfl b hb⟩

variable {w w' : Wire} {l : Label}

theorem init_inv (memory : ℕ → DataBlock) : Inv (init memory) where
  sender := SendLoop.init_inv
  packets := rfl
  fits m hm := by cases hm
  wire := rfl
  receiver := RecvLoop.inv_init memory

theorem receiver_mono {packets more : List (List UInt8)} {s : RecvLoop}
    (h : RecvLoop.Inv packets maxTcpPacketSize s) :
    RecvLoop.Inv (packets ++ more) maxTcpPacketSize s where
  valid := h.valid
  stream := by
    rw [List.flatten_append]
    exact h.stream.trans (List.prefix_append _ _)
  whole := h.whole
  order := h.order.trans (List.prefix_append _ _)
  idle := h.idle

theorem Inv.flatten (h : Inv w) :
    w.sender.pushed.flatMap AnySendPacket.bytes = (w.sent.map Message.bytes).flatten := by
  have hbytes : ∀ p : AnySendPacket, p.bytes = p.packet.data.flatten := fun _ => rfl
  have hmap : w.sender.pushed.map AnySendPacket.bytes = w.sent.map Message.bytes := by
    calc w.sender.pushed.map AnySendPacket.bytes
        = (w.sender.pushed.map AnySendPacket.packet).map (fun p => p.data.flatten) := by
          rw [List.map_map]
          rfl
      _ = (w.sent.map Message.packet).map (fun p => p.data.flatten) := by rw [h.packets]
      _ = w.sent.map Message.bytes := by
          rw [List.map_map]
          refine List.map_congr_left fun m _ => ?_
          exact m.packet_bytes 0
  rw [List.flatMap_def, hmap]

theorem Inv.accepted_prefix (h : Inv w) :
    w.sender.accepted <+: (w.sent.map Message.bytes).flatten := by
  have haccepted : w.sender.accepted <+: w.sender.taken.flatMap AnySendPacket.bytes :=
    ⟨_, h.sender.accepted_append⟩
  refine haccepted.trans ?_
  rw [← h.flatten, ← h.sender.order, List.flatMap_append]
  exact List.prefix_append _ _

theorem onSender_eq_some {l : SendLoop.Label} : w.onSender l = some w' ↔
    ∃ sender, w.sender.step l = some sender ∧ w' = { w with
      sender := sender
      inFlight := w.inFlight ++ sender.accepted.drop w.sender.accepted.length } := by
  simp only [onSender, Option.map_eq_some_iff, eq_comm (a := w')]

theorem pop_pushed (s : SendLoop) : s.pop.pushed = s.pushed ∧ s.pop.accepted = s.accepted := by
  rw [SendLoop.pop]
  split <;> exact ⟨rfl, rfl⟩

theorem finish_pushed (s : SendLoop) :
    s.finish.pushed = s.pushed ∧ s.finish.accepted = s.accepted := by
  rw [SendLoop.finish]
  split <;> exact ⟨rfl, rfl⟩

theorem sender_frame {s s' : SendLoop} {l : SendLoop.Label} (hl : ∀ p, l ≠ .push p)
    (hs : s.step l = some s') : s'.pushed = s.pushed ∧ s.accepted <+: s'.accepted := by
  cases l with
  | push p => exact absurd rfl (hl p)
  | pop =>
    simp only [SendLoop.step] at hs
    split at hs
    · obtain rfl := Option.some.inj hs
      obtain ⟨hpushed, haccepted⟩ := pop_pushed s
      exact ⟨hpushed, haccepted ▸ List.prefix_rfl⟩
    · cases hs
  | write transfer =>
    simp only [SendLoop.step] at hs
    split at hs
    · split at hs
      · obtain rfl := Option.some.inj hs
        exact ⟨rfl, List.prefix_append _ _⟩
      · cases hs
    · cases hs
  | update =>
    simp only [SendLoop.step] at hs
    split at hs
    · obtain rfl := Option.some.inj hs
      exact ⟨rfl, List.prefix_rfl⟩
    · cases hs
  | finish =>
    simp only [SendLoop.step] at hs
    split at hs
    · obtain rfl := Option.some.inj hs
      obtain ⟨hpushed, haccepted⟩ := finish_pushed s
      exact ⟨hpushed, haccepted ▸ List.prefix_rfl⟩
    · cases hs

theorem Inv.send (h : Inv w) {m : Message} (hfits : m.Fits)
    (hs : step w (.send m) = some w') : Inv w' := by
  obtain ⟨sender, hsender, rfl⟩ := onSender_eq_some.mp hs
  have hinv := h.sender.step hsender
  obtain rfl := Option.some.inj hsender
  refine ⟨hinv, ?_, ?_, ?_, ?_⟩
  · change (w.sender.pushed ++ [_]).map _ = (w.sent ++ [m]).map _
    rw [List.map_append, List.map_append, h.packets]
    rfl
  · intro m' hm'
    rcases List.mem_append.mp hm' with hm' | hm'
    · exact h.fits m' hm'
    · exact List.mem_singleton.mp hm' ▸ hfits
  · change w.sender.accepted = w.receiver.received ++
      (w.inFlight ++ w.sender.accepted.drop w.sender.accepted.length)
    rw [List.drop_length, List.append_nil]
    exact h.wire
  · change RecvLoop.Inv ((w.sent ++ [m]).map _) _ _
    rw [List.map_append]
    exact receiver_mono h.receiver

theorem Inv.onSender (h : Inv w) {l : SendLoop.Label} (hl : ∀ p, l ≠ .push p)
    (hs : w.onSender l = some w') : Inv w' := by
  obtain ⟨sender, hsender, rfl⟩ := onSender_eq_some.mp hs
  obtain ⟨hpushed, more, hmore⟩ := sender_frame hl hsender
  refine ⟨h.sender.step hsender, ?_, h.fits, ?_, h.receiver⟩
  · change sender.pushed.map _ = _
    rw [hpushed]
    exact h.packets
  · change sender.accepted = w.receiver.received ++
      (w.inFlight ++ sender.accepted.drop w.sender.accepted.length)
    rw [← hmore, List.drop_left, ← List.append_assoc, h.wire]

theorem Inv.read (h : Inv w) {n : ℕ}
    (hswitch : RecvLoop.SwitchEmpty maxTcpPacketSize w.receiver (.read (w.inFlight.take n)))
    (hs : step w (.read n) = some w') : Inv w' := by
  obtain ⟨receiver, hreceiver, rfl⟩ := Option.map_eq_some_iff.mp hs
  have hstream : w.receiver.received ++ w.inFlight.take n <+:
      (w.sent.map Message.bytes).flatten := by
    refine List.IsPrefix.trans ?_ h.accepted_prefix
    rw [h.wire]
    exact (List.prefix_append_right_inj _).mpr (List.take_prefix n _)
  have hreassembled := (RecvLoop.read_reassembled_iff tcp_packetSizeOk h.receiver hreceiver).mpr
    hswitch
  have hfeed := RecvLoop.feed_read.mpr ⟨hstream, hreceiver⟩
  have hreceived : receiver.received = w.receiver.received ++ w.inFlight.take n := by
    obtain ⟨-, rfl⟩ := RecvLoop.step_read.mp hreceiver
    rfl
  refine ⟨h.sender, h.packets, h.fits, ?_,
    RecvLoop.read_inv tcp_packetSizeOk h.receiver hfeed hreassembled⟩
  change w.sender.accepted = receiver.received ++ w.inFlight.drop n
  rw [hreceived, List.append_assoc, List.take_append_drop, h.wire]

theorem Inv.isPacket (h : Inv w) {p : List UInt8} (hp : p ∈ w.sent.map Message.bytes) :
    IsPacket maxTcpPacketSize p := by
  obtain ⟨m, hm, rfl⟩ := List.mem_map.mp hp
  exact Message.isPacket_bytes (h.fits m hm)

theorem Inv.decode (h : Inv w) (hs : step w .decode = some w') : Inv w' := by
  obtain ⟨receiver, hreceiver, rfl⟩ := Option.map_eq_some_iff.mp hs
  have hreceived : receiver.received = w.receiver.received := by
    obtain ⟨-, ⟨-, rfl⟩ | ⟨p, msg, -, rfl⟩⟩ := RecvLoop.step_decode.mp hreceiver <;> rfl
  refine ⟨h.sender, h.packets, h.fits, ?_, RecvLoop.decode_inv tcp_packetSizeOk
    (fun p hp => h.isPacket hp) h.receiver hreceiver⟩
  change w.sender.accepted = receiver.received ++ w.inFlight
  rw [hreceived]
  exact h.wire

theorem Inv.step (h : Inv w) (hok : Lossless w l) (hs : step w l = some w') : Inv w' := by
  cases l with
  | send m => exact h.send hok hs
  | pop => exact h.onSender (by simp) hs
  | write transfer => exact h.onSender (by simp) hs
  | update => exact h.onSender (by simp) hs
  | finish => exact h.onSender (by simp) hs
  | read n => exact h.read hok hs
  | decode => exact h.decode hs

structure Delivered (w : Wire) : Prop where
  inOrder : w.received <+: w.sent
  complete : Settled w → w.received = w.sent

theorem Inv.inOrder (h : Inv w) : w.received <+: w.sent := by
  have horder := h.receiver.order.map Message.ofBytes
  rwa [Message.map_ofBytes h.fits] at horder

theorem Inv.complete (h : Inv w) (hw : Settled w) : w.received = w.sent := by
  have hbufs := (h.sender.idle hw.sending).1
  have hpc := (h.sender.idle hw.sending).2
  have hunsent : w.sender.unsent = [] := by
    rw [SendLoop.unsent, hpc]
    change w.sender.helper.rest = []
    rw [PacketHelper.rest, hbufs, List.flatten_nil]
  have htaken : w.sender.taken = w.sender.pushed := by
    rw [← h.sender.order, hw.queue, List.append_nil]
  have haccepted := h.sender.accepted_append
  rw [hunsent, List.append_nil, htaken, h.flatten] at haccepted
  have hreceived : w.receiver.received = (w.sent.map Message.bytes).flatten := by
    rw [← haccepted, h.wire, hw.inFlight, List.append_nil]
  have hyielded := (h.receiver.reassembled fun p hp => h.isPacket hp).2 hreceived hw.decoded
  rw [received, hyielded, Message.map_ofBytes h.fits]

theorem wire_delivers (memory : ℕ → DataBlock) (ls : List Label) (w : Wire)
    (hok : Along Lossless step (init memory) ls) (hrun : exec step (init memory) ls = some w) :
    Delivered w := by
  have hinv : Inv w :=
    exec_invariant_along (fun _ _ _ h hok hs => h.step hok hs) (init_inv memory) hok hrun
  exact ⟨hinv.inOrder, hinv.complete⟩

instance (w : Wire) (l : Label) : Decidable (Lossless w l) :=
  match l with
  | .send m => inferInstanceAs (Decidable m.Fits)
  | .read n => inferInstanceAs (Decidable (RecvLoop.SwitchEmpty _ _ (.read (w.inFlight.take n))))
  | .pop | .write _ | .update | .finish | .decode => isTrue trivial

def twoMessages : List Label :=
  [.send ⟨7, [42]⟩, .pop, .write 5, .update, .finish, .read 5, .decode, .send ⟨-1, []⟩, .write 4,
    .update, .finish, .pop, .write 8, .update, .finish, .read 12, .decode, .decode, .decode]

theorem twoMessages_delivered : ∃ w, exec step (init RecvLoop.blankMemory) twoMessages = some w ∧
    Delivered w ∧ w.received = [⟨7, [42]⟩, ⟨-1, []⟩] := by
  have h : (exec step (init RecvLoop.blankMemory) twoMessages).map received =
      some [⟨7, [42]⟩, ⟨-1, []⟩] := by
    decide +kernel
  obtain ⟨w, hrun, hreceived⟩ := Option.map_eq_some_iff.mp h
  exact ⟨w, hrun, wire_delivers _ twoMessages w (by decide +kernel) hrun, hreceived⟩

end Wire

end Bugat
