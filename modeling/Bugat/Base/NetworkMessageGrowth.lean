import Mathlib
import Bugat.Base.NetworkMessageReassembly
import Bugat.Base.NetworkMessagePackets

/-!
# Packets keep their bytes while the loop goes on

A block that the pool has handed out is written behind its `_tail` only. So a packet that
`GetNetMessage` has cut off has the same bytes whenever they are read.
-/

namespace Bugat

open DataBlock (Valid maxSize slice_congr)
open Framing (HeaderInRange)

variable {P : ℤ}

namespace DataBlock

theorem extends_refl (b : DataBlock) : b.Extends b := ⟨fun _ _ => rfl, le_rfl⟩

theorem extends_append (b : DataBlock) (xs : List UInt8) : b.Extends (b.append xs) where
  bytes := (extends_write le_rfl xs).bytes
  tail_le := by
    rw [append_tail]
    omega

end DataBlock

namespace NetworkMessage

variable {m m' m'' : NetworkMessage} {p : RecvPacket} {bytes : List UInt8}

structure Grows (m m' : NetworkMessage) : Prop where
  blocks : ∀ id < m.allocated, (m.blocks id).Extends (m'.blocks id)
  allocated : m.allocated ≤ m'.allocated

theorem grows_refl (m : NetworkMessage) : Grows m m :=
  ⟨fun id _ => (m.blocks id).extends_refl, le_rfl⟩

theorem Grows.trans (h : Grows m m') (h' : Grows m' m'') : Grows m m'' where
  blocks id hid := by
    have hfirst := h.blocks id hid
    have hsecond := h'.blocks id (hid.trans_le h.allocated)
    refine ⟨fun pos hpos => ?_, hfirst.tail_le.trans hsecond.tail_le⟩
    rw [hsecond.bytes pos (hpos.trans_le hfirst.tail_le), hfirst.bytes pos hpos]
  allocated := h.allocated.trans h'.allocated

theorem grows_useNew (m : NetworkMessage) (b : DataBlock) : Grows m (m.useNew b) where
  blocks id hid := by
    rw [useNew]
    dsimp only
    rw [Function.update_of_ne hid.ne]
    exact (m.blocks id).extends_refl
  allocated := Nat.le_succ _

theorem grows_setBlock {id : ℕ} {b : DataBlock} (h : (m.blocks id).Extends b) :
    Grows m (m.setBlock id b) where
  blocks other _ := by
    rw [setBlock]
    dsimp only
    by_cases hother : other = id
    · subst hother
      rw [Function.update_self]
      exact h
    · rw [Function.update_of_ne hother]
      exact (m.blocks other).extends_refl
  allocated := le_rfl

theorem grows_refill (P : ℤ) (m : NetworkMessage) : Grows m (m.refill P) := by
  rw [refill]
  split
  · exact grows_useNew m _
  · split
    · exact grows_useNew m _
    · exact grows_refl m

theorem grows_receive (hP : PacketSizeOk P) (h : CurValid P m) (hlen : (bytes.length : ℤ) ≤ P) :
    Grows m (RecvLoop.receive P m bytes) := by
  obtain ⟨id, b, -, hb, -, -, hupdate⟩ := RecvLoop.receive_spec hP h hlen
  rw [RecvLoop.receive, hupdate]
  refine (grows_refill P m).trans (grows_setBlock ?_)
  rw [hb]
  exact b.extends_append bytes

def CurAllocated (m : NetworkMessage) : Prop := ∀ id, m.curBlock = some id → id < m.allocated

theorem curAllocated_refill (h : CurAllocated m) : CurAllocated (m.refill P) := by
  have hnew : ∀ b, CurAllocated (m.useNew b) := by
    intro b id hid
    obtain rfl := Option.some.inj hid
    exact Nat.lt_succ_self _
  rw [refill]
  split
  · exact hnew _
  · split
    · exact hnew _
    · exact h

theorem curAllocated_receive (hP : PacketSizeOk P) (h : CurValid P m)
    (hlen : (bytes.length : ℤ) ≤ P) (hcur : CurAllocated m) :
    CurAllocated (RecvLoop.receive P m bytes) := by
  obtain ⟨id, b, -, -, -, -, hupdate⟩ := RecvLoop.receive_spec hP h hlen
  rw [RecvLoop.receive, hupdate]
  exact curAllocated_refill hcur

theorem packetBytes_of_extends (hp : PacketInside m p)
    (h : (m.blocks p.block).Extends (m'.blocks p.block)) :
    m'.packetBytes p = m.packetBytes p ∧ PacketInside m' p := by
  obtain ⟨h0, hheader, hsize, hbody⟩ := hp
  simp only [headerSize] at hheader hbody
  have hsizeAt : (m'.blocks p.block).sizeAt p.pos = (m.blocks p.block).sizeAt p.pos := by
    rw [DataBlock.sizeAt, DataBlock.sizeAt, h.bytes _ (by omega), h.bytes _ (by omega),
      h.bytes _ (by omega), h.bytes _ (by omega)]
  have htail := h.tail_le
  refine ⟨?_, h0, ?_, ?_, ?_⟩
  · rw [packetBytes, packetBytes, hsizeAt]
    refine slice_congr fun pos _ hpos => h.bytes pos ?_
    rw [headerSize] at hpos
    omega
  · rw [headerSize]
    omega
  · rw [hsizeAt]
    exact hsize
  · rw [hsizeAt, headerSize]
    omega

theorem map_packetBytes {packets : List RecvPacket}
    (hp : ∀ p ∈ packets, PacketInside m p ∧ p.block < m.allocated) (h : Grows m m') :
    packets.map m'.packetBytes = packets.map m.packetBytes := by
  refine List.map_congr_left fun p hmem => ?_
  obtain ⟨hinside, hblock⟩ := hp p hmem
  exact (packetBytes_of_extends hinside (h.blocks _ hblock)).1

theorem cut_spec (hP : PacketSizeOk P) (h : CurValid P m) (hok : HeaderInRange m.buffered)
    (hcut : m.getNetMessage = some (p, m')) :
    m.curBlock = some p.block ∧ m'.curBlock = m.curBlock ∧ m'.allocated = m.allocated ∧
      Grows m m' ∧ PacketInside m' p := by
  obtain ⟨id, hcur, hfull⟩ := full_of_getNetMessage hcut
  have hv := h id hcur
  have hdata : headerSize ≤ (m.blocks id).tail - (m.blocks id).head := by
    rwa [hv.getDataSize hP.2] at hfull
  have hz : SizeOk ((m.blocks id).sizeAt (m.blocks id).head) := by
    rw [← DataBlock.sizeField_data hdata, ← buffered_of_curBlock hcur]
    refine hok ?_
    have hlength := hv.data_length
    rw [buffered_of_curBlock hcur]
    rw [headerSize] at hdata
    omega
  have hinside := packetInside_of_sizeOk hP.2 hcur hv hfull hz hcut
  obtain ⟨-, rfl, rfl⟩ := getNetMessage_spec hP.2 hcur hv hfull hz hcut
  exact ⟨hcur, rfl, rfl, grows_setBlock ⟨fun _ _ => rfl, le_rfl⟩, hinside⟩

end NetworkMessage

end Bugat
