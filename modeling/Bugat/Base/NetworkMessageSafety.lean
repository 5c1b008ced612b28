import Mathlib
import Bugat.Base.NetworkMessage

/-!
# Safety and termination of the receive loop on arbitrary streams

The size field of a header comes from the peer. As long as the sum of that field
and `HeaderSize` is at least `HeaderSize` and does not overflow, the cursors stay
ordered inside the block and every accepted packet consumes at least its header.
A field outside that range always passes the length check.
-/

namespace Bugat

open MachineInt (wrap32 wrap32_of_mem wrap32_overflow int32LE int32LE_lower int32LE_upper int32Max)
open DataBlock (Valid maxSize)
open Transition (exec Along along_congr exec_invariant_along)

variable {P : ℤ}

def PacketSizeOk (P : ℤ) : Prop := headerSize ≤ P ∧ maxSize P ≤ int32Max

theorem tcp_packetSizeOk : PacketSizeOk maxTcpPacketSize := ⟨by decide, by decide⟩

namespace NetworkMessage

variable {m m' : NetworkMessage} {id : ℕ} {b : DataBlock} {p : RecvPacket}

@[simp] theorem setBlock_curBlock : (m.setBlock id b).curBlock = m.curBlock := rfl
@[simp] theorem setBlock_self : (m.setBlock id b).blocks id = b := by simp [setBlock]
@[simp] theorem setBlock_setBlock (c : DataBlock) :
    (m.setBlock id b).setBlock id c = m.setBlock id c := by simp [setBlock]
@[simp] theorem useNew_curBlock : (m.useNew b).curBlock = some m.allocated := rfl
@[simp] theorem useNew_self : (m.useNew b).blocks m.allocated = b := by simp [useNew]

theorem getNetMessage_of_short (hcur : m.curBlock = some id)
    (h : (m.blocks id).getDataSize < headerSize) : m.getNetMessage = none := by
  simp [getNetMessage, hcur, h]

theorem getNetMessage_of_sizeOk (hmax : maxSize P ≤ int32Max) (hcur : m.curBlock = some id)
    (hv : Valid P (m.blocks id)) (hfull : headerSize ≤ (m.blocks id).getDataSize)
    (hz : SizeOk ((m.blocks id).sizeAt (m.blocks id).head)) :
    let b := m.blocks id
    m.getNetMessage = if b.tail - b.head < b.sizeAt b.head + headerSize then none
      else some (⟨id, b.head⟩,
        m.setBlock id { b with head := b.head + (b.sizeAt b.head + headerSize) }) := by
  intro b
  have hds := hv.getDataSize hmax
  simp only [getNetMessage, hcur]
  rw [if_neg (not_lt.mpr hfull), hz.wrap, hds]
  split
  · rfl
  · rename_i hle
    have hnn : 0 ≤ b.sizeAt b.head + headerSize := add_nonneg hz.1 (by decide)
    rw [hv.consume hmax hnn (not_lt.mp hle)]

theorem getNetMessage_of_not_sizeOk (hcur : m.curBlock = some id)
    (hfull : headerSize ≤ (m.blocks id).getDataSize)
    (hz : ¬ SizeOk ((m.blocks id).sizeAt (m.blocks id).head)) :
    let b := m.blocks id
    m.getNetMessage = some (⟨id, b.head⟩,
        m.setBlock id
          { b with head := wrap32 (b.head + wrap32 (b.sizeAt b.head + headerSize)) }) := by
  intro b
  have hlt : wrap32 (b.sizeAt b.head + headerSize) < headerSize :=
    wrap_of_not_sizeOk (int32LE_lower _ _ _ _) (int32LE_upper _ _ _ _) hz
  have hle : ¬ b.getDataSize < wrap32 (b.sizeAt b.head + headerSize) :=
    not_lt.mpr (hlt.le.trans hfull)
  simp only [getNetMessage, hcur]
  rw [if_neg (not_lt.mpr hfull), if_neg hle, DataBlock.consume,
    if_neg (not_lt.mpr (not_lt.mp hle))]

def CurValid (P : ℤ) (m : NetworkMessage) : Prop :=
  ∀ id, m.curBlock = some id → Valid P (m.blocks id)

theorem curValid_init (memory : ℕ → DataBlock) : CurValid P (init memory) := by
  intro id h
  cases h

theorem memcpyS_cursors (dest src : DataBlock) :
    (memcpyS P dest src).head = dest.head ∧ (memcpyS P dest src).tail = dest.tail := by
  unfold memcpyS
  split <;> exact ⟨rfl, rfl⟩

theorem refill_spec (hP : PacketSizeOk P) (h : CurValid P m) :
    ∃ id, (m.refill P).curBlock = some id ∧ Valid P ((m.refill P).blocks id) ∧
      ((m.refill P).blocks id).tail + P ≤ maxSize P := by
  obtain ⟨hP, hmax⟩ := hP
  simp only [headerSize] at hP
  have hfresh : (0 : ℤ) + P ≤ maxSize P := by
    simp only [maxSize]
    omega
  cases hcur : m.curBlock with
  | none =>
    refine ⟨m.allocated, ?_⟩
    simp only [refill, hcur, useNew_curBlock, useNew_self]
    exact ⟨trivial, DataBlock.valid_construct (by omega) _, hfresh⟩
  | some id =>
    have hv := h id hcur
    simp only [refill, hcur]
    split
    · refine ⟨m.allocated, rfl, ?_⟩
      obtain ⟨hh, ht⟩ := memcpyS_cursors (P := P) (m.poolGet P) (m.blocks id)
      rw [useNew_self]
      simp only [poolGet, DataBlock.construct_head, DataBlock.construct_tail] at hh ht
      exact ⟨⟨hh.ge, by rw [poolGet, hh, ht], by rw [poolGet, ht]; simp only [maxSize]; omega⟩,
        by rw [poolGet, ht]; exact hfresh⟩
    · rename_i hroom
      rw [hv.getRemainSize hmax] at hroom
      exact ⟨id, hcur, hv, by omega⟩

theorem update_of_room (hmax : maxSize P ≤ int32Max) (hcur : m.curBlock = some id)
    (hv : Valid P (m.blocks id)) {n : ℤ} (hn : 0 ≤ n)
    (hfit : (m.blocks id).tail + n ≤ maxSize P) :
    m.update P n =
      (true, m.setBlock id { m.blocks id with tail := (m.blocks id).tail + n }) := by
  simp only [update, hcur, hv.update hmax hn hfit]

theorem full_of_getNetMessage (h : m.getNetMessage = some (p, m')) :
    ∃ id, m.curBlock = some id ∧ headerSize ≤ (m.blocks id).getDataSize := by
  cases hcur : m.curBlock with
  | none => simp [getNetMessage, hcur] at h
  | some id =>
    refine ⟨id, rfl, not_lt.mp fun hlt => ?_⟩
    rw [getNetMessage_of_short hcur hlt] at h
    cases h

theorem getNetMessage_spec (hmax : maxSize P ≤ int32Max) (hcur : m.curBlock = some id)
    (hv : Valid P (m.blocks id)) (hfull : headerSize ≤ (m.blocks id).getDataSize)
    (hz : SizeOk ((m.blocks id).sizeAt (m.blocks id).head))
    (hg : m.getNetMessage = some (p, m')) :
    let b := m.blocks id
    b.head + (b.sizeAt b.head + headerSize) ≤ b.tail ∧ p = ⟨id, b.head⟩ ∧
      m' = m.setBlock id { b with head := b.head + (b.sizeAt b.head + headerSize) } := by
  intro b
  rw [getNetMessage_of_sizeOk hmax hcur hv hfull hz] at hg
  split at hg
  · cases hg
  · rename_i hle
    obtain ⟨rfl, rfl⟩ := Prod.mk.inj (Option.some.inj hg)
    exact ⟨le_sub_iff_add_le'.mp (not_lt.mp hle), rfl, rfl⟩

def PacketInside (m : NetworkMessage) (p : RecvPacket) : Prop :=
  let b := m.blocks p.block
  0 ≤ p.pos ∧ p.pos + headerSize ≤ b.tail ∧ 0 ≤ b.sizeAt p.pos ∧
    p.pos + headerSize + b.sizeAt p.pos ≤ b.tail

theorem packetInside_of_sizeOk (hmax : maxSize P ≤ int32Max) (hcur : m.curBlock = some id)
    (hv : Valid P (m.blocks id)) (hfull : headerSize ≤ (m.blocks id).getDataSize)
    (hz : SizeOk ((m.blocks id).sizeAt (m.blocks id).head))
    (hg : m.getNetMessage = some (p, m')) : PacketInside m' p := by
  obtain ⟨hend, rfl, rfl⟩ := getNetMessage_spec hmax hcur hv hfull hz hg
  have h0 := hv.head_nonneg
  have hz0 := hz.1
  simp only [PacketInside, setBlock_self]
  simp only [DataBlock.sizeAt] at hz0 hend ⊢
  refine ⟨h0, ?_, hz0, ?_⟩ <;> omega

theorem curValid_setBlock (hcur : m.curBlock = some id) (hv : Valid P b) :
    CurValid P (m.setBlock id b) := by
  intro id' hid'
  obtain rfl : id = id' := Option.some.inj (hcur.symm.trans hid')
  rw [setBlock_self]
  exact hv

theorem curValid_getNetMessage (hmax : maxSize P ≤ int32Max) (h : CurValid P m)
    (hcur : m.curBlock = some id) (hfull : headerSize ≤ (m.blocks id).getDataSize)
    (hz : SizeOk ((m.blocks id).sizeAt (m.blocks id).head))
    (hg : m.getNetMessage = some (p, m')) : CurValid P m' := by
  have hv := h id hcur
  obtain ⟨hend, -, rfl⟩ := getNetMessage_spec hmax hcur hv hfull hz hg
  have hz0 := hz.1
  simp only [headerSize] at hend
  exact curValid_setBlock hcur
    ⟨by have := hv.head_nonneg; simp only [headerSize]; omega, hend, hv.tail_le⟩

end NetworkMessage

namespace RecvLoop

open NetworkMessage

variable {s s' : RecvLoop} {l : Label} {bytes : List UInt8}

theorem step_read : step P s (.read bytes) = some s' ↔
    (s.decoding = false ∧ 1 ≤ bytes.length ∧ (bytes.length : ℤ) ≤ P) ∧
      s' = ⟨receive P s.msg bytes, true, s.received ++ bytes, s.yielded⟩ := by
  simp only [step]
  split
  · rename_i h
    simp [h, eq_comm]
  · rename_i h
    simp [h]

theorem step_decode : step P s .decode = some s' ↔ s.decoding = true ∧
    ((s.msg.getNetMessage = none ∧ s' = { s with decoding := false }) ∨
      ∃ p msg, s.msg.getNetMessage = some (p, msg) ∧
        s' = { s with msg := msg, yielded := s.yielded ++ [msg.packetBytes p] }) := by
  simp only [step]
  cases hd : s.decoding with
  | false => simp
  | true =>
    cases hg : s.msg.getNetMessage with
    | none => simp [eq_comm]
    | some r =>
      obtain ⟨p, msg⟩ := r
      simp [eq_comm]

structure StepSafe (P : ℤ) (s : RecvLoop) (l : Label) : Prop where
  window : ∀ bytes, l = .read bytes → ∃ info, (s.msg.getBufInfo P).2 = some info ∧
    0 ≤ info.pos ∧ info.pos + info.size ≤ maxSize P ∧ info.size = P
  update : ∀ bytes, l = .read bytes →
    ((fill (s.msg.getBufInfo P).1 bytes).update P bytes.length).1 = true
  packet : ∀ p msg, l = .decode → s.msg.getNetMessage = some (p, msg) → PacketInside msg p
  block : ∀ s', step P s l = some s' → CurValid P s'.msg

def HeaderOk (s : RecvLoop) (l : Label) : Prop :=
  l = .decode → ∀ b, s.msg.cur = some b → headerSize ≤ b.getDataSize → SizeOk (b.sizeAt b.head)

theorem cur_eq_some {m : NetworkMessage} {b : DataBlock} :
    m.cur = some b ↔ ∃ id, m.curBlock = some id ∧ m.blocks id = b := by
  simp [NetworkMessage.cur]

theorem receive_spec (hP : PacketSizeOk P) {m : NetworkMessage} (h : CurValid P m)
    (hlen : (bytes.length : ℤ) ≤ P) :
    ∃ id b, (m.refill P).curBlock = some id ∧ (m.refill P).blocks id = b ∧
      Valid P b ∧ b.tail + P ≤ maxSize P ∧
      (fill (m.getBufInfo P).1 bytes).update P bytes.length =
        (true, (m.refill P).setBlock id (b.append bytes)) := by
  obtain ⟨id, hcur, hv, hroom⟩ := refill_spec hP h
  refine ⟨id, _, hcur, rfl, hv, hroom, ?_⟩
  generalize hb : (m.refill P).blocks id = b at hv hroom
  have hfill : fill (m.getBufInfo P).1 bytes =
      (m.refill P).setBlock id (b.write b.tail bytes) := by
    simp only [fill, getBufInfo, hcur, hb]
  have hself : ((m.refill P).setBlock id (b.write b.tail bytes)).blocks id =
      b.write b.tail bytes := setBlock_self
  have hv' : Valid P (((m.refill P).setBlock id (b.write b.tail bytes)).blocks id) := by
    rw [hself]
    exact hv.write _ _
  have hroom' : (((m.refill P).setBlock id (b.write b.tail bytes)).blocks id).tail +
      (bytes.length : ℤ) ≤ maxSize P := by
    rw [hself, DataBlock.write_tail]
    omega
  have hcur' : ((m.refill P).setBlock id (b.write b.tail bytes)).curBlock = some id := hcur
  rw [hfill, update_of_room hP.2 hcur' hv' (Int.natCast_nonneg _) hroom', hself,
    setBlock_setBlock]
  rfl

theorem read_safe (hP : PacketSizeOk P) (h : CurValid P s.msg)
    (hs : step P s (.read bytes) = some s') : StepSafe P s (.read bytes) := by
  obtain ⟨⟨-, -, hlen⟩, -⟩ := step_read.mp hs
  obtain ⟨id, b, hcur, hb, hv, hroom, hupd⟩ := receive_spec hP h hlen
  refine ⟨?_, ?_, fun p msg hl => (by cases hl), ?_⟩
  · intro bytes' _
    refine ⟨⟨id, b.tail, P⟩, ?_, hv.head_nonneg.trans hv.head_le_tail, hroom, rfl⟩
    simp [getBufInfo, hcur, hb]
  · intro bytes' hl
    cases hl
    rw [hupd]
  · intro s'' hs''
    obtain ⟨-, rfl⟩ := step_read.mp hs''
    simp only [receive, hupd]
    exact curValid_setBlock hcur (hv.append (by omega))

/-- A decoded header in range yields a packet inside the data and keeps the block valid;
a header out of range yields a packet whose announced body is not inside the block. -/
theorem decode_safe_iff (hP : PacketSizeOk P) (h : CurValid P s.msg) :
    StepSafe P s .decode ↔ HeaderOk s .decode := by
  constructor
  · intro hsafe _ b hb hfull
    obtain ⟨id, hcur, rfl⟩ := cur_eq_some.mp hb
    by_contra hz
    have hg := getNetMessage_of_not_sizeOk hcur hfull hz
    obtain ⟨hpos, hhead, hnn, hbody⟩ := hsafe.packet _ _ rfl hg
    simp only [setBlock_self] at hhead hnn hbody
    have hv := h id hcur
    have htail := hv.tail_le
    have hmax := hP.2
    refine hz ⟨hnn, ?_⟩
    have hhn := hv.head_nonneg
    simp only [DataBlock.sizeAt] at hbody ⊢
    omega
  · intro hok
    refine ⟨fun bytes hl => (by cases hl), fun bytes hl => (by cases hl), ?_, ?_⟩
    · intro p msg _ hg
      obtain ⟨id, hcur, hfull⟩ := full_of_getNetMessage hg
      exact packetInside_of_sizeOk hP.2 hcur (h id hcur) hfull
        (hok rfl _ (cur_eq_some.mpr ⟨id, hcur, rfl⟩) hfull) hg
    · intro s'' hs''
      obtain ⟨-, ⟨-, rfl⟩ | ⟨p, msg, hg, rfl⟩⟩ := step_decode.mp hs''
      · exact h
      · obtain ⟨id, hcur, hfull⟩ := full_of_getNetMessage hg
        exact curValid_getNetMessage hP.2 h hcur hfull
          (hok rfl _ (cur_eq_some.mpr ⟨id, hcur, rfl⟩) hfull) hg

theorem step_safe_iff (hP : PacketSizeOk P) (h : CurValid P s.msg)
    (hs : step P s l = some s') : StepSafe P s l ↔ HeaderOk s l := by
  cases l with
  | read bytes => exact iff_of_true (read_safe hP h hs) (by intro hl; cases hl)
  | decode => exact decode_safe_iff hP h

/-- A run of the receive loop is safe in every step exactly when every header that it
inspects announces a size that can be added to `HeaderSize`. -/
theorem safe_iff_headers_ok (memory : ℕ → DataBlock) (ls : List Label) :
    Along (StepSafe maxTcpPacketSize) (step maxTcpPacketSize) (init memory) ls ↔
      Along HeaderOk (step maxTcpPacketSize) (init memory) ls :=
  along_congr (I := fun s => CurValid maxTcpPacketSize s.msg)
    (fun _ _ _ h hs => step_safe_iff tcp_packetSizeOk h hs)
    (fun _ _ t _ hsafe hs => hsafe.block t hs) (curValid_init memory)

theorem curValid_of_safe {ls : List Label} (h : CurValid P s.msg)
    (hsafe : Along (StepSafe P) (step P) s ls) (hs : exec (step P) s ls = some s') :
    CurValid P s'.msg :=
  exec_invariant_along (P := fun s => CurValid P s.msg)
    (fun _ _ t _ hok ht => hok.block t ht) h hsafe hs

def blankMemory (_ : ℕ) : DataBlock := ⟨fun _ => 0, 0, 0⟩

def negativeSize : List Label := [.read [0x9C, 0xFF, 0xFF, 0xFF, 0, 0, 0, 0], .decode]

theorem negativeSize_unsafe :
    ((exec (step maxTcpPacketSize) (init blankMemory) negativeSize).bind
      fun s => s.msg.cur.map DataBlock.head) = some (-92) ∧
    ¬ Along (StepSafe maxTcpPacketSize) (step maxTcpPacketSize) (init blankMemory)
      negativeSize := by
  have hhead : ((exec (step maxTcpPacketSize) (init blankMemory) negativeSize).bind
      fun s => s.msg.cur.map DataBlock.head) = some (-92) := by decide +kernel
  refine ⟨hhead, fun hsafe => ?_⟩
  obtain ⟨s, hs, hcur⟩ := Option.bind_eq_some_iff.mp hhead
  obtain ⟨b, hb, hneg⟩ := Option.map_eq_some_iff.mp hcur
  obtain ⟨id, hid, rfl⟩ := cur_eq_some.mp hb
  have hv := curValid_of_safe (curValid_init blankMemory) hsafe hs id hid
  have := hv.head_nonneg
  omega

end RecvLoop

end Bugat
