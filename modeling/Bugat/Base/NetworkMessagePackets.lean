import Mathlib
import Bugat.Base.NetworkMessageSafety

/-!
# Packets held while the loop goes on reading

A `RecvPacket` is a view into the block that `Connection::Recv` keeps writing. The loop is
taken apart here into `GetBufInfo`, the write of the socket, `Update` and `GetNetMessage`, and
packets are held and dropped between any two of these. The pool may hand out a block again once
nothing refers to it. Nothing is assumed about the headers: a malformed size moves `_head`
anywhere, but writes depend on `_tail` only.
-/

namespace Bugat

open MachineInt (wrap32 wrap32_of_mem int32LE_lower int32Max)
open DataBlock (maxSize slice_congr)
open Transition (exec Throughout throughout_invariant)

namespace DataBlock

def getBuf (size : ℤ) (pos : ℤ) : Option ℤ :=
  if pos < 0 ∨ pos ≥ maxSize size then none else some pos

structure Extends (b b' : DataBlock) : Prop where
  bytes : ∀ pos < b.tail, b'.buf pos = b.buf pos
  tail_le : b.tail ≤ b'.tail

variable {b : DataBlock} {size : ℤ}

theorem getBuf_eq_some {pos q : ℤ} : getBuf size pos = some q ↔
    0 ≤ pos ∧ pos < maxSize size ∧ pos = q := by
  rw [getBuf, ite_eq_iff]
  simp only [reduceCtorEq, and_false, false_or, Option.some.injEq]
  omega

theorem extends_write {pos : ℤ} (h : b.tail ≤ pos) (xs : List UInt8) :
    b.Extends (b.write pos xs) where
  bytes q hq := by
    simp only [write]
    rw [if_neg (by omega)]
  tail_le := le_rfl

theorem extends_consume (b : DataBlock) (n : ℤ) : b.Extends (b.consume n).2 := by
  rw [consume]
  split <;> exact ⟨fun _ _ => rfl, le_rfl⟩

theorem consume_tail (b : DataBlock) (n : ℤ) : (b.consume n).2.tail = b.tail := by
  rw [consume]
  split <;> rfl

theorem consume_buf (b : DataBlock) (n : ℤ) : (b.consume n).2.buf = b.buf := by
  rw [consume]
  split <;> rfl

theorem update_of_fit (hmax : maxSize size ≤ int32Max) {n : ℤ} (hn : 0 ≤ n) (htail : 0 ≤ b.tail)
    (hfit : b.tail + n ≤ maxSize size) : (b.update size n).2 = { b with tail := b.tail + n } := by
  have hw : wrap32 (b.tail + n) = b.tail + n := wrap32_of_mem (by omega) (by omega)
  rw [DataBlock.update, hw, if_neg (by omega)]

end DataBlock

/-- `GetHeader`, where the packet's block is `b`; `none` is a null pointer read. -/
def RecvPacket.getHeader (P : ℤ) (p : RecvPacket) (b : DataBlock) : Option (List UInt8) :=
  (DataBlock.getBuf P p.pos).map fun pos => b.slice pos (pos + headerSize)

def RecvPacket.get (P : ℤ) (p : RecvPacket) (b : DataBlock) (hi : ℤ) : Option (List UInt8) :=
  (DataBlock.getBuf P (p.pos + headerSize)).map fun pos => b.slice pos hi

structure Delivered where
  packet : RecvPacket
  block : DataBlock

structure Delivered.Below (P : ℤ) (d : Delivered) : Prop where
  header : 0 ≤ d.packet.pos → d.packet.pos < maxSize P → d.packet.pos + headerSize ≤ d.block.tail
  body : 0 ≤ d.packet.pos → d.packet.pos < maxSize P → SizeOk (d.block.sizeAt d.packet.pos) →
    d.packet.pos + headerSize + d.block.sizeAt d.packet.pos ≤ d.block.tail

inductive RecvPhase
  | top
  | reading (info : BufInfo)
  | arrived (transfer : ℤ)
  | decoding

structure PacketLoop where
  msg : NetworkMessage
  phase : RecvPhase
  held : List Delivered

namespace PacketLoop

open NetworkMessage

inductive Label
  | getBufInfo (slot : ℕ)
  | read (bytes : List UInt8)
  | update
  | getNetMessage
  | drop (k : ℕ)

def init (memory : ℕ → DataBlock) : PacketLoop := ⟨NetworkMessage.init memory, .top, []⟩

def Refers (s : PacketLoop) (slot : ℕ) : Prop :=
  s.msg.curBlock = some slot ∨ ∃ d ∈ s.held, d.packet.block = slot

instance (s : PacketLoop) (slot : ℕ) : Decidable (s.Refers slot) :=
  inferInstanceAs (Decidable (_ ∨ _))

/-- `GetBufInfo`, with `slot` as the block that the pool would hand out. -/
def getBufInfo (P : ℤ) (s : PacketLoop) (slot : ℕ) : Option PacketLoop :=
  let r := { s.msg with allocated := slot }.getBufInfo P
  r.2.map fun info => { s with msg := r.1, phase := .reading info }

def fill (m : NetworkMessage) (info : BufInfo) (bytes : List UInt8) : NetworkMessage :=
  m.setBlock info.block ((m.blocks info.block).write info.pos bytes)

def deliver (s : PacketLoop) (p : RecvPacket) (msg : NetworkMessage) : PacketLoop :=
  { s with msg := msg, held := s.held ++ [⟨p, msg.blocks p.block⟩] }

def step (P : ℤ) (s : PacketLoop) : Label → Option PacketLoop
  | .getBufInfo slot =>
    match s.phase with
    | .top => if s.Refers slot then none else s.getBufInfo P slot
    | _ => none
  | .read bytes =>
    match s.phase with
    | .reading info =>
      if 1 ≤ bytes.length ∧ (bytes.length : ℤ) ≤ info.size then
        some { s with msg := fill s.msg info bytes, phase := .arrived bytes.length }
      else none
    | _ => none
  | .update =>
    match s.phase with
    | .arrived transfer => some { s with msg := (s.msg.update P transfer).2, phase := .decoding }
    | _ => none
  | .getNetMessage =>
    match s.phase with
    | .decoding =>
      match s.msg.getNetMessage with
      | none => some { s with phase := .top }
      | some (p, msg) => some (s.deliver p msg)
    | _ => none
  | .drop k => some { s with held := s.held.eraseIdx k }

structure Unchanged (P : ℤ) (m : NetworkMessage) (d : Delivered) : Prop where
  bytes : ∀ pos < d.block.tail, (m.blocks d.packet.block).buf pos = d.block.buf pos
  header : d.packet.getHeader P (m.blocks d.packet.block) = d.packet.getHeader P d.block
  message : ∀ hi ≤ d.block.tail,
    d.packet.get P (m.blocks d.packet.block) hi = d.packet.get P d.block hi
  announced : SizeOk (d.block.sizeAt d.packet.pos) → DataBlock.getBuf P d.packet.pos ≠ none →
    m.packetBytes d.packet =
      d.block.slice d.packet.pos (d.packet.pos + headerSize + d.block.sizeAt d.packet.pos)

def Room (P : ℤ) (b : DataBlock) (n : ℤ) : Prop := 0 ≤ b.tail ∧ 0 ≤ n ∧ b.tail + n ≤ maxSize P

def PhaseOk (P : ℤ) (m : NetworkMessage) : RecvPhase → Prop
  | .reading info => ∃ id, m.curBlock = some id ∧ info = ⟨id, (m.blocks id).tail, P⟩ ∧
      Room P (m.blocks id) P
  | .arrived transfer => ∃ id, m.curBlock = some id ∧ Room P (m.blocks id) transfer
  | _ => True

structure Inv (P : ℤ) (s : PacketLoop) : Prop where
  tail : ∀ id, s.msg.curBlock = some id → Room P (s.msg.blocks id) 0
  phase : PhaseOk P s.msg s.phase
  held : ∀ d ∈ s.held, d.block.Extends (s.msg.blocks d.packet.block) ∧ d.Below P

variable {P : ℤ} {s s' : PacketLoop} {l : Label} {m : NetworkMessage} {d : Delivered}

theorem setBlock_of_ne {id other : ℕ} (h : other ≠ id) (b : DataBlock) :
    (m.setBlock id b).blocks other = m.blocks other := Function.update_of_ne h _ _

theorem unchanged_of_extends (h : d.block.Extends (m.blocks d.packet.block)) (hbelow : d.Below P) :
    Unchanged P m d := by
  have hslice : ∀ lo hi, hi ≤ d.block.tail →
      (m.blocks d.packet.block).slice lo hi = d.block.slice lo hi := fun lo hi hhi =>
    slice_congr fun pos _ hpos => h.bytes pos (by omega)
  refine ⟨h.bytes, ?_, fun hi hhi => ?_, fun hsize hinside => ?_⟩
  · refine Option.map_congr fun pos hpos => ?_
    obtain ⟨hlo, hhi, rfl⟩ := DataBlock.getBuf_eq_some.mp hpos
    exact hslice _ _ (hbelow.header hlo hhi)
  · exact Option.map_congr fun pos _ => hslice pos hi hhi
  · obtain ⟨pos, hpos⟩ := Option.ne_none_iff_exists'.mp hinside
    obtain ⟨hlo, hhi, rfl⟩ := DataBlock.getBuf_eq_some.mp hpos
    have hheader := hbelow.header hlo hhi
    have hsame : (m.blocks d.packet.block).sizeAt d.packet.pos = d.block.sizeAt d.packet.pos := by
      simp only [headerSize] at hheader
      simp only [DataBlock.sizeAt]
      rw [h.bytes _ (by omega), h.bytes _ (by omega), h.bytes _ (by omega), h.bytes _ (by omega)]
    rw [packetBytes, hsame]
    exact hslice _ _ (hbelow.body hlo hhi hsize)

theorem Inv.extends_setBlock (h : Inv P s) {id : ℕ} {b : DataBlock}
    (hgrow : (s.msg.blocks id).Extends b) :
    ∀ d ∈ s.held, d.block.Extends ((s.msg.setBlock id b).blocks d.packet.block) ∧ d.Below P := by
  intro d hd
  obtain ⟨hext, hbelow⟩ := h.held d hd
  refine ⟨?_, hbelow⟩
  by_cases hid : d.packet.block = id
  · rw [hid] at hext ⊢
    rw [setBlock_self]
    exact ⟨fun pos hpos => (hgrow.bytes pos (by have := hext.tail_le; omega)).trans
      (hext.bytes pos hpos), hext.tail_le.trans hgrow.tail_le⟩
  · rwa [PacketLoop.setBlock_of_ne hid]

theorem init_inv (memory : ℕ → DataBlock) : Inv P (init memory) where
  tail id hid := by cases hid
  phase := trivial
  held d hd := by cases hd

theorem refill_at (hP : PacketSizeOk P) (htail : ∀ id, m.curBlock = some id →
    Room P (m.blocks id) 0) (slot : ℕ) :
    ∃ id, ({ m with allocated := slot }.refill P).curBlock = some id ∧
      Room P (({ m with allocated := slot }.refill P).blocks id) P ∧
      ∀ other ≠ slot, ({ m with allocated := slot }.refill P).blocks other = m.blocks other := by
  obtain ⟨hP, hmax⟩ := hP
  simp only [headerSize] at hP
  have hfits : P ≤ maxSize P := by
    simp only [maxSize]
    omega
  cases hcur : m.curBlock with
  | none =>
    simp only [refill]
    refine ⟨slot, rfl, ?_, fun other hother => Function.update_of_ne hother _ _⟩
    rw [useNew_self, poolGet, Room, DataBlock.construct_tail]
    omega
  | some id =>
    obtain ⟨hlo, -, hhi⟩ := htail id hcur
    simp only [refill]
    split
    · refine ⟨slot, rfl, ?_, fun other hother => Function.update_of_ne hother _ _⟩
      have hzero := (memcpyS_cursors (P := P) (poolGet P { m with allocated := slot })
        (m.blocks id)).2
      rw [poolGet, DataBlock.construct_tail] at hzero
      rw [useNew_self, Room, poolGet, hzero]
      omega
    · rename_i hroom
      rw [DataBlock.getRemainSize, wrap32_of_mem (by omega) (by omega)] at hroom
      exact ⟨id, rfl, ⟨hlo, by omega, by dsimp only; omega⟩, fun _ _ => rfl⟩

theorem Inv.getBufInfo (h : Inv P s) (hP : PacketSizeOk P) {slot : ℕ} (hfree : ¬ s.Refers slot)
    (hs : s.getBufInfo P slot = some s') : Inv P s' := by
  obtain ⟨id, hcur, hroom, hother⟩ := refill_at hP h.tail slot
  simp only [PacketLoop.getBufInfo, NetworkMessage.getBufInfo, hcur, Option.map_some,
    Option.some.injEq] at hs
  subst hs
  refine ⟨fun id' hid' => ?_, ⟨id, hcur, rfl, hroom⟩, fun d hd => ?_⟩
  · obtain rfl := Option.some.inj (hcur.symm.trans hid')
    obtain ⟨hlo, hP, hhi⟩ := hroom
    exact ⟨hlo, le_rfl, by dsimp only; omega⟩
  · have hne : d.packet.block ≠ slot := fun heq => hfree (.inr ⟨d, hd, heq⟩)
    rw [hother _ hne]
    exact h.held d hd

theorem Inv.read (h : Inv P s) {info : BufInfo} (hphase : s.phase = .reading info)
    {bytes : List UInt8} (hlen : (bytes.length : ℤ) ≤ info.size) :
    Inv P { s with msg := fill s.msg info bytes, phase := .arrived bytes.length } := by
  have hok := h.phase
  rw [hphase] at hok
  obtain ⟨id, hcur, rfl, hlo, -, hhi⟩ := hok
  refine ⟨fun id' hid' => ?_, ⟨id, hcur, ?_⟩, ?_⟩
  · obtain rfl := Option.some.inj (hcur.symm.trans hid')
    dsimp only [fill]
    rw [setBlock_self]
    exact h.tail id hcur
  · dsimp only [fill]
    rw [setBlock_self]
    refine ⟨hlo, Int.natCast_nonneg _, ?_⟩
    dsimp only [DataBlock.write_tail] at hlen ⊢
    omega
  · exact h.extends_setBlock (DataBlock.extends_write le_rfl bytes)

theorem Inv.update (h : Inv P s) (hmax : maxSize P ≤ int32Max) {transfer : ℤ}
    (hphase : s.phase = .arrived transfer) :
    Inv P { s with msg := (s.msg.update P transfer).2, phase := .decoding } := by
  have hok := h.phase
  rw [hphase] at hok
  obtain ⟨id, hcur, hlo, hn, hhi⟩ := hok
  simp only [NetworkMessage.update, hcur, DataBlock.update_of_fit hmax hn hlo hhi]
  refine ⟨fun id' hid' => ?_, trivial, h.extends_setBlock ⟨fun _ _ => rfl, by dsimp only; omega⟩⟩
  obtain rfl := Option.some.inj (hcur.symm.trans hid')
  rw [setBlock_self]
  exact ⟨by dsimp only; omega, le_rfl, by dsimp only; omega⟩

theorem getNetMessage_eq_some {p : RecvPacket} {msg : NetworkMessage}
    (hg : m.getNetMessage = some (p, msg)) : ∃ id, m.curBlock = some id ∧
      p = ⟨id, (m.blocks id).head⟩ ∧ headerSize ≤ (m.blocks id).getDataSize ∧
      wrap32 ((m.blocks id).sizeAt (m.blocks id).head + headerSize) ≤ (m.blocks id).getDataSize ∧
      ∃ n, msg = m.setBlock id ((m.blocks id).consume n).2 := by
  cases hcur : m.curBlock with
  | none => simp [getNetMessage, hcur] at hg
  | some id =>
    simp only [getNetMessage, hcur] at hg
    split_ifs at hg with hshort htotal
    obtain ⟨rfl, rfl⟩ := Prod.mk.inj (Option.some.inj hg)
    exact ⟨id, rfl, rfl, not_lt.mp hshort, not_lt.mp htotal, _, rfl⟩

theorem below_of_tests {b : DataBlock} (hmax : maxSize P ≤ int32Max) (htail : b.tail ≤ maxSize P)
    (htail0 : 0 ≤ b.tail) (hheader : headerSize ≤ b.getDataSize)
    (htotal : wrap32 (b.sizeAt b.head + headerSize) ≤ b.getDataSize) (id : ℕ) (n : ℤ) :
    (Delivered.mk ⟨id, b.head⟩ (b.consume n).2).Below P := by
  have hsize : 0 ≤ b.head → b.head < maxSize P → b.getDataSize = b.tail - b.head := fun hlo hhi =>
    wrap32_of_mem (by simp only [int32Max] at hmax; omega) (by omega)
  refine ⟨fun hlo hhi => ?_, fun hlo hhi hok => ?_⟩
  · rw [hsize hlo hhi] at hheader
    dsimp only
    rw [DataBlock.consume_tail]
    omega
  · dsimp only at hok ⊢
    rw [DataBlock.consume_tail]
    simp only [DataBlock.sizeAt, DataBlock.consume_buf] at hok htotal ⊢
    rw [hok.wrap, hsize hlo hhi] at htotal
    omega

theorem Inv.deliver (h : Inv P s) (hmax : maxSize P ≤ int32Max) (hphase : s.phase = .decoding)
    {p : RecvPacket} {msg : NetworkMessage} (hg : s.msg.getNetMessage = some (p, msg)) :
    Inv P (s.deliver p msg) := by
  obtain ⟨id, hcur, rfl, hheader, htotal, n, rfl⟩ := getNetMessage_eq_some hg
  obtain ⟨hlo, -, hhi⟩ := h.tail id hcur
  refine ⟨fun id' hid' => ?_, ?_, fun d hd => ?_⟩
  · obtain rfl := Option.some.inj (hcur.symm.trans hid')
    dsimp only [PacketLoop.deliver]
    rw [setBlock_self, Room, DataBlock.consume_tail]
    exact ⟨hlo, le_rfl, hhi⟩
  · change PhaseOk P _ s.phase
    rw [hphase]
    trivial
  · rcases List.mem_append.mp hd with hold | hnew
    · exact h.extends_setBlock (DataBlock.extends_consume _ n) d hold
    · obtain rfl := List.mem_singleton.mp hnew
      dsimp only [PacketLoop.deliver]
      rw [setBlock_self]
      exact ⟨⟨fun _ _ => rfl, le_rfl⟩,
        below_of_tests hmax (by omega) hlo hheader htotal id n⟩

theorem Inv.step (h : Inv P s) (hP : PacketSizeOk P) (hs : step P s l = some s') : Inv P s' := by
  cases l with
  | getBufInfo slot =>
    simp only [PacketLoop.step] at hs
    split at hs
    · split_ifs at hs with hrefers
      exact h.getBufInfo hP hrefers hs
    · cases hs
  | read bytes =>
    simp only [PacketLoop.step] at hs
    split at hs
    · rename_i info hphase
      split_ifs at hs with hlen
      obtain rfl := Option.some.inj hs
      exact h.read hphase hlen.2
    · cases hs
  | update =>
    simp only [PacketLoop.step] at hs
    split at hs
    · rename_i transfer hphase
      obtain rfl := Option.some.inj hs
      exact h.update hP.2 hphase
    · cases hs
  | getNetMessage =>
    simp only [PacketLoop.step] at hs
    split at hs
    · rename_i hphase
      split at hs
      · obtain rfl := Option.some.inj hs
        exact ⟨h.tail, trivial, h.held⟩
      · rename_i p msg hg
        obtain rfl := Option.some.inj hs
        exact h.deliver hP.2 hphase hg
    · cases hs
  | drop k =>
    obtain rfl := Option.some.inj hs
    exact ⟨h.tail, h.phase, fun d hd => h.held d (List.mem_of_mem_eraseIdx hd)⟩

/-- For every stream and segmentation, and whichever packets are held, what has been below
`_tail` when a packet was produced stays as it was. -/
theorem delivered_immutable (hP : PacketSizeOk P) (memory : ℕ → DataBlock) (ls : List Label) :
    Throughout (fun s => ∀ d ∈ s.held, Unchanged P s.msg d) (step P) (init memory) ls := by
  have hinv : Throughout (Inv P) (step P) (init memory) ls :=
    throughout_invariant (fun _ _ _ h hs => h.step hP hs) (init_inv memory) ls
  refine hinv.mono fun s h d hd => ?_
  obtain ⟨hextends, hbelow⟩ := h.held d hd
  exact unchanged_of_extends hextends hbelow

def readBehindPacket : List Label :=
  [.getBufInfo 0, .read [4, 0, 0, 0, 1, 0, 0, 0, 9, 9, 9, 9], .update, .getNetMessage,
    .getNetMessage, .getBufInfo 1, .read [4, 0, 0], .update]

theorem readBehindPacket_immutable :
    ((exec (step maxTcpPacketSize) (init RecvLoop.blankMemory) readBehindPacket).map
      fun s => s.held.map Delivered.packet) = some [⟨0, 0⟩] ∧
    Throughout (fun s => ∀ d ∈ s.held, Unchanged maxTcpPacketSize s.msg d)
      (step maxTcpPacketSize) (init RecvLoop.blankMemory) readBehindPacket :=
  ⟨by decide +kernel, delivered_immutable tcp_packetSizeOk _ _⟩

end PacketLoop

end Bugat
