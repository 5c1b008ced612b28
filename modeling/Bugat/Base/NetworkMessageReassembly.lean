import Mathlib
import Bugat.Base.NetworkMessageDecode

/-!
# Reassembly of a stream of packets

The peer sends the concatenation of some packets, cut into reads in any way. The
yielded packets followed by the buffered bytes are the bytes received as long as
`GetBufInfo` switches to a new block only when nothing is buffered: the switch
copies the buffered bytes but does not move `_tail` of the new block over them, so
the next read overwrites the copy.
-/

namespace Bugat

open MachineInt (int32Max)
open DataBlock (Valid maxSize)
open Framing (cut cut_of_prefixed nil_of_cut_none headerInRange_of_prefixed HeaderInRange IsPacket)
open Transition (exec Along Throughout throughout_iff_along_of_step exec_cons_eq_some)

variable {P : ℤ}

theorem PacketSizeOk.le_int32Max (hP : PacketSizeOk P) : P ≤ int32Max := by
  obtain ⟨h8, hmax⟩ := hP
  simp only [headerSize, maxSize] at h8 hmax
  omega

namespace NetworkMessage

variable {m : NetworkMessage} {bytes : List UInt8}

def Switches (P : ℤ) (m : NetworkMessage) : Prop :=
  ∃ b, m.cur = some b ∧ b.getRemainSize P < P

theorem refill_buffered (P : ℤ) (m : NetworkMessage) :
    (Switches P m ∧ (m.refill P).buffered = []) ∨
      (¬ Switches P m ∧ (m.refill P).buffered = m.buffered) := by
  have hfresh : ∀ b : DataBlock, b.head = b.tail → (m.useNew b).buffered = [] := fun b hb => by
    rw [buffered_of_curBlock useNew_curBlock, useNew_self, DataBlock.data, hb,
      DataBlock.slice_self]
  cases hcur : m.curBlock with
  | none =>
    refine .inr ⟨?_, ?_⟩
    · rintro ⟨b, hb, -⟩
      simp [cur, hcur] at hb
    · simp only [refill, hcur]
      rw [hfresh _ rfl]
      simp [buffered, cur, hcur]
  | some id =>
    by_cases hlow : (m.blocks id).getRemainSize P < P
    · refine .inl ⟨⟨m.blocks id, by simp [cur, hcur], hlow⟩, ?_⟩
      obtain ⟨hh, ht⟩ := memcpyS_cursors (P := P) (m.poolGet P) (m.blocks id)
      simp only [refill, hcur, if_pos hlow]
      exact hfresh _ (hh.trans ht.symm)
    · refine .inr ⟨?_, ?_⟩
      · rintro ⟨b, hb, hb'⟩
        simp only [cur, hcur, Option.map_some, Option.some.injEq] at hb
        exact hlow (hb ▸ hb')
      · simp only [refill, hcur, if_neg hlow]

theorem receive_buffered (hP : PacketSizeOk P) (h : CurValid P m)
    (hlen : (bytes.length : ℤ) ≤ P) :
    (RecvLoop.receive P m bytes).buffered = (m.refill P).buffered ++ bytes := by
  obtain ⟨id, b, hcur, hb, hv, -, hupd⟩ := RecvLoop.receive_spec hP h hlen
  rw [RecvLoop.receive, hupd, buffered_of_curBlock (m := (m.refill P).setBlock id _) hcur,
    setBlock_self, hv.data_append, buffered_of_curBlock hcur, hb]

end NetworkMessage

namespace RecvLoop

open NetworkMessage

variable {packets : List (List UInt8)} {s t : RecvLoop} {l : Label}

def feed (packets : List (List UInt8)) (P : ℤ) (s : RecvLoop) : Label → Option RecvLoop
  | .read bytes =>
    if s.received ++ bytes <+: packets.flatten then step P s (.read bytes) else none
  | .decode => step P s .decode

def delivered : List Label → List UInt8
  | [] => []
  | .read bytes :: ls => bytes ++ delivered ls
  | .decode :: ls => delivered ls

/-- The yielded packets and the buffered bytes are the bytes received; when everything has
arrived and the inner loop has ended, the yielded packets are the packets sent. -/
def Reassembled (packets : List (List UInt8)) (s : RecvLoop) : Prop :=
  s.yielded.flatten ++ s.msg.buffered = s.received ∧
    (s.received = packets.flatten → s.decoding = false → s.yielded = packets)

def SwitchEmpty (P : ℤ) (s : RecvLoop) (l : Label) : Prop :=
  ∀ bytes, l = .read bytes → ∀ b, s.msg.cur = some b → b.getRemainSize P < P → b.head = b.tail

structure Inv (packets : List (List UInt8)) (P : ℤ) (s : RecvLoop) : Prop where
  valid : CurValid P s.msg
  stream : s.received <+: packets.flatten
  whole : s.yielded.flatten ++ s.msg.buffered = s.received
  order : s.yielded <+: packets
  idle : s.decoding = false → cut s.msg.buffered = none

theorem inv_init (memory : ℕ → DataBlock) : Inv packets P (init memory) where
  valid := curValid_init memory
  stream := List.nil_prefix
  whole := rfl
  order := List.nil_prefix
  idle _ := rfl

theorem feed_read {bytes : List UInt8} : feed packets P s (.read bytes) = some t ↔
    s.received ++ bytes <+: packets.flatten ∧ step P s (.read bytes) = some t := by
  simp only [feed]
  split
  · rename_i h
    simp [h]
  · rename_i h
    simp [h]

theorem init_received (memory : ℕ → DataBlock) : (init memory).received = [] := rfl

theorem exec_feed {ls : List Label} (h : exec (step P) s ls = some t)
    (hpre : s.received ++ delivered ls <+: packets.flatten) :
    exec (feed packets P) s ls = some t := by
  induction ls generalizing s with
  | nil => exact h
  | cons l ls ih =>
    obtain ⟨s', hs, hrest⟩ := exec_cons_eq_some.mp h
    cases l with
    | read bytes =>
      rw [delivered, ← List.append_assoc] at hpre
      refine exec_cons_eq_some.mpr ⟨s', feed_read.mpr ⟨?_, hs⟩, ih hrest ?_⟩
      · exact (List.prefix_append _ _).trans hpre
      · obtain ⟨-, rfl⟩ := step_read.mp hs
        exact hpre
    | decode =>
      refine exec_cons_eq_some.mpr ⟨s', hs, ih hrest ?_⟩
      obtain ⟨-, ⟨-, rfl⟩ | ⟨p, msg, -, rfl⟩⟩ := step_decode.mp hs <;> exact hpre

theorem Inv.reassembled (h : Inv packets P s) (hp : ∀ p ∈ packets, IsPacket P p) :
    Reassembled packets s := by
  refine ⟨h.whole, fun hall hidle => ?_⟩
  obtain ⟨todo, htodo⟩ := h.order
  have hbuf : s.msg.buffered = todo.flatten := by
    have heq := h.whole.trans hall
    rw [← htodo, List.flatten_append] at heq
    exact List.append_cancel_left heq
  have hcut := h.idle hidle
  rw [hbuf] at hcut
  have hnil := nil_of_cut_none (fun q hq => hp q (htodo ▸ List.mem_append_right _ hq)) hcut
  rw [← htodo, hnil, List.append_nil]

theorem Inv.header (hP : PacketSizeOk P) (hp : ∀ p ∈ packets, IsPacket P p)
    (h : Inv packets P s) : ∃ todo, packets = s.yielded ++ todo ∧
      s.msg.buffered <+: todo.flatten ∧ HeaderInRange s.msg.buffered := by
  obtain ⟨todo, htodo⟩ := h.order
  have hbuf := h.stream
  rw [← h.whole, ← htodo, List.flatten_append, List.prefix_append_right_inj] at hbuf
  exact ⟨todo, htodo.symm, hbuf, headerInRange_of_prefixed
    (fun q hq => hp q (htodo ▸ List.mem_append_right _ hq)) hP.le_int32Max hbuf⟩

theorem decode_inv (hP : PacketSizeOk P) (hp : ∀ p ∈ packets, IsPacket P p)
    (h : Inv packets P s) (hs : step P s .decode = some t) : Inv packets P t := by
  obtain ⟨todo, htodo, hbuf, hok⟩ := h.header hP hp
  obtain ⟨hdec, ⟨hnone, rfl⟩ | ⟨p, msg, hg, rfl⟩⟩ := step_decode.mp hs
  · refine ⟨h.valid, h.stream, h.whole, h.order, fun _ => ?_⟩
    cases hcur : s.msg.curBlock with
    | none => simp [buffered, cur, hcur, Framing.cut]
    | some id =>
      obtain ⟨hcut, -⟩ | ⟨p, m', hg, -⟩ :=
        getNetMessage_cut hP.2 hcur (h.valid id hcur) hok
      · exact hcut
      · rw [hnone] at hg
        cases hg
  · obtain ⟨id, hcur, -⟩ := full_of_getNetMessage hg
    obtain ⟨-, hnone⟩ | ⟨p', m', hg', hcur', hv', hcut⟩ :=
      getNetMessage_cut hP.2 hcur (h.valid id hcur) hok
    · rw [hg] at hnone
      cases hnone
    obtain ⟨rfl, rfl⟩ := Prod.mk.inj (Option.some.inj (hg.symm.trans hg'))
    have htodo' : ∀ q ∈ todo, IsPacket P q := fun q hq =>
      hp q (htodo ▸ List.mem_append_right _ hq)
    obtain ⟨todo', rfl, -⟩ := cut_of_prefixed htodo' hbuf hcut
    refine ⟨fun id' hid' => ?_, h.stream, ?_, ?_, fun hd => ?_⟩
    · obtain rfl : id = id' := Option.some.inj (hcur'.symm.trans hid')
      exact hv'
    · obtain ⟨-, happ, -⟩ := Framing.cut_eq_some hcut
      rw [← h.whole, happ]
      simp
    · exact ⟨todo', by rw [htodo]; simp⟩
    · rw [hdec] at hd
      cases hd

theorem read_reassembled_iff (hP : PacketSizeOk P) {bytes : List UInt8} (h : Inv packets P s)
    (hs : step P s (.read bytes) = some t) :
    Reassembled packets t ↔ SwitchEmpty P s (.read bytes) := by
  obtain ⟨⟨-, -, hlen⟩, rfl⟩ := step_read.mp hs
  have hbuf := receive_buffered hP h.valid hlen
  have hkeep : Reassembled packets ⟨receive P s.msg bytes, true, s.received ++ bytes, s.yielded⟩ ↔
      (s.msg.refill P).buffered = s.msg.buffered := by
    simp only [Reassembled, hbuf, ← h.whole, ← List.append_assoc, List.append_cancel_right_eq]
    simp
  rw [hkeep]
  obtain ⟨⟨b, hb, hlow⟩, hnil⟩ | ⟨hsw, hsame⟩ := refill_buffered P s.msg
  · obtain ⟨id, hcur, rfl⟩ := cur_eq_some.mp hb
    have hv := h.valid id hcur
    have hlen := hv.data_length
    have hle := hv.head_le_tail
    rw [hnil, buffered_of_curBlock hcur, eq_comm, ← List.length_eq_zero_iff]
    constructor
    · intro hzero _ _ b' hb' _
      obtain rfl := Option.some.inj (hb.symm.trans hb')
      omega
    · intro hempty
      have := hempty bytes rfl _ hb hlow
      omega
  · exact iff_of_true hsame fun _ _ b hb hlow => absurd ⟨b, hb, hlow⟩ hsw

theorem read_inv (hP : PacketSizeOk P) {bytes : List UInt8} (h : Inv packets P s)
    (hs : feed packets P s (.read bytes) = some t) (ht : Reassembled packets t) :
    Inv packets P t := by
  obtain ⟨hstream, hs⟩ := feed_read.mp hs
  have hsafe := read_safe hP h.valid hs
  obtain ⟨-, rfl⟩ := step_read.mp hs
  exact ⟨hsafe.block _ hs, hstream, ht.1, h.order, fun hd => by cases hd⟩

/-- Reassembly is correct in every state of a run exactly when no switch of blocks happens
with bytes buffered. -/
theorem reassembled_iff_switch_empty (hp : ∀ p ∈ packets, IsPacket maxTcpPacketSize p)
    (memory : ℕ → DataBlock) (ls : List Label) :
    Throughout (Reassembled packets) (feed packets maxTcpPacketSize) (init memory) ls ↔
      Along (SwitchEmpty maxTcpPacketSize) (feed packets maxTcpPacketSize) (init memory) ls := by
  have hP := tcp_packetSizeOk
  have hinit : Inv packets maxTcpPacketSize (init memory) := inv_init memory
  refine throughout_iff_along_of_step (fun s h => h.reassembled hp) (fun s l t h hok hs => ?_)
    (fun s l t h hs => ?_) hinit
  · cases l with
    | read bytes =>
      have hread := read_reassembled_iff hP h (feed_read.mp hs).2
      exact read_inv hP h hs (hread.mpr hok)
    | decode => exact decode_inv hP hp h hs
  · cases l with
    | read bytes => exact read_reassembled_iff hP h (feed_read.mp hs).2
    | decode =>
      exact iff_of_true ((decode_inv hP hp h hs).reassembled hp) fun _ hl => by cases hl

def splitRun : List Label :=
  [.read [1, 0, 0, 0, 7, 0, 0, 0, 42, 0, 0], .decode, .decode, .read [0, 0, 8, 0, 0, 0],
    .decode, .decode]

theorem splitRun_reassembled_iff :
    Throughout (Reassembled [[1, 0, 0, 0, 7, 0, 0, 0, 42], [0, 0, 0, 0, 8, 0, 0, 0]])
      (feed [[1, 0, 0, 0, 7, 0, 0, 0, 42], [0, 0, 0, 0, 8, 0, 0, 0]] maxTcpPacketSize)
      (init blankMemory) splitRun ↔
    Along (SwitchEmpty maxTcpPacketSize)
      (feed [[1, 0, 0, 0, 7, 0, 0, 0, 42], [0, 0, 0, 0, 8, 0, 0, 0]] maxTcpPacketSize)
      (init blankMemory) splitRun :=
  reassembled_iff_switch_empty (by decide +kernel) blankMemory splitRun

def fullPacket : List UInt8 := [0xF8, 0x0F, 0, 0, 0, 0, 0, 0] ++ List.replicate 4088 0

/-- Four whole packets fill the block up to its last window; one byte of the fifth packet
arrives before the switch of blocks and the rest after it. -/
def straddle : List Label :=
  [.read fullPacket, .decode, .decode, .read fullPacket, .decode, .decode,
    .read fullPacket, .decode, .decode, .read fullPacket, .decode, .decode,
    .read (fullPacket.take 1), .decode, .read (fullPacket.drop 1)]

theorem delivered_straddle :
    delivered straddle = (List.replicate 5 fullPacket).flatten := by
  simp only [straddle, delivered, List.append_nil, List.take_append_drop, List.replicate,
    List.flatten_cons, List.flatten_nil]

/-- After the last read one of the bytes received is neither yielded nor buffered. -/
theorem straddle_loses_byte :
    (∀ p ∈ List.replicate 5 fullPacket, IsPacket maxTcpPacketSize p) ∧
    (∃ s, exec (feed (List.replicate 5 fullPacket) maxTcpPacketSize) (init blankMemory) straddle =
      some s ∧ s.received.length = 20480 ∧ s.yielded.flatten.length = 16384 ∧
        s.msg.buffered.length = 4095) ∧
    ¬ Throughout (Reassembled (List.replicate 5 fullPacket))
      (feed (List.replicate 5 fullPacket) maxTcpPacketSize) (init blankMemory) straddle := by
  have hpacket : IsPacket maxTcpPacketSize fullPacket := by decide +kernel
  have hrun : (exec (step maxTcpPacketSize) (init blankMemory) straddle).map
      (fun s => (s.received.length, s.yielded.flatten.length, s.msg.buffered.length)) =
        some (20480, 16384, 4095) := by
    decide +kernel
  obtain ⟨s, hs, hlen⟩ := Option.map_eq_some_iff.mp hrun
  simp only [Prod.mk.injEq] at hlen
  have hpre : (init blankMemory).received ++ delivered straddle <+:
      (List.replicate 5 fullPacket).flatten := by
    refine ⟨[], ?_⟩
    rw [List.append_nil, init_received, List.nil_append, delivered_straddle]
  have hfeed := exec_feed hs hpre
  refine ⟨fun p hp => List.eq_of_mem_replicate hp ▸ hpacket, ⟨s, hfeed, hlen⟩, fun hall => ?_⟩
  obtain ⟨hwhole, -⟩ := hall.last hfeed
  have hcount := congrArg List.length hwhole
  rw [List.length_append] at hcount
  omega

end RecvLoop

end Bugat
