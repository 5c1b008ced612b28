import Mathlib
import Bugat.Base.DataBlock
import Bugat.Base.Framing
import Bugat.Lib.Transition

/-!
# NetworkMessage: cutting the received bytes into packets

`GetBufInfo` hands out the window for the next read and switches to a new block
when less than `PacketSize` is left, `Update` counts the bytes read, and
`GetNetMessage` cuts one packet off the front. `Connection::Recv` repeats this
cycle. Blocks are numbered in the order in which the pool constructs them; a
block that was never constructed holds arbitrary memory.
-/

namespace Bugat

open MachineInt (wrap32 wrap32_of_mem int32LE int32Max)

structure BufInfo where
  block : ℕ
  pos : ℤ
  size : ℤ

structure RecvPacket where
  block : ℕ
  pos : ℤ
  deriving DecidableEq, Repr

/-- `blocks` is the memory of the pool, `allocated` the number of blocks it has constructed. -/
structure NetworkMessage where
  blocks : ℕ → DataBlock
  allocated : ℕ
  curBlock : Option ℕ

namespace NetworkMessage

def init (memory : ℕ → DataBlock) : NetworkMessage := ⟨memory, 0, none⟩

def cur (m : NetworkMessage) : Option DataBlock := m.curBlock.map m.blocks

def setBlock (m : NetworkMessage) (id : ℕ) (b : DataBlock) : NetworkMessage :=
  { m with blocks := Function.update m.blocks id b }

/-- `_dataBlockPool.Get()`: a block not handed out before. -/
def poolGet (packetSize : ℤ) (m : NetworkMessage) : DataBlock :=
  DataBlock.construct packetSize (m.blocks m.allocated).buf

def useNew (m : NetworkMessage) (newBlock : DataBlock) : NetworkMessage :=
  { blocks := Function.update m.blocks m.allocated newBlock
    allocated := m.allocated + 1
    curBlock := some m.allocated }

/-- `memcpy_s(dest->GetRemainBuf(), dest->GetRemainSize(), src->GetData(), src->GetDataSize())`:
a count that does not fit leaves the destination zeroed. -/
def memcpyS (packetSize : ℤ) (dest src : DataBlock) : DataBlock :=
  if 0 ≤ src.getDataSize ∧ src.getDataSize ≤ dest.getRemainSize packetSize then
    dest.write dest.tail (src.slice src.head (src.head + src.getDataSize))
  else dest.write dest.tail (List.replicate (dest.getRemainSize packetSize).toNat 0)

def refill (packetSize : ℤ) (m : NetworkMessage) : NetworkMessage :=
  match m.curBlock with
  | none => m.useNew (m.poolGet packetSize)
  | some id =>
    if (m.blocks id).getRemainSize packetSize < packetSize then
      m.useNew (memcpyS packetSize (m.poolGet packetSize) (m.blocks id))
    else m

def getBufInfo (packetSize : ℤ) (m : NetworkMessage) : NetworkMessage × Option BufInfo :=
  let m' := m.refill packetSize
  (m', m'.curBlock.map fun id => ⟨id, (m'.blocks id).tail, packetSize⟩)

/-- `Update`; the result of `DataBlock::Update` is dropped by the source and kept here. -/
def update (packetSize : ℤ) (m : NetworkMessage) (size : ℤ) : Bool × NetworkMessage :=
  match m.curBlock with
  | none => (false, m)
  | some id =>
    let r := (m.blocks id).update packetSize size
    (r.1, m.setBlock id r.2)

def getNetMessage (m : NetworkMessage) : Option (RecvPacket × NetworkMessage) :=
  match m.curBlock with
  | none => none
  | some id =>
    let b := m.blocks id
    if b.getDataSize < headerSize then none
    else
      let total := wrap32 (b.sizeAt b.head + headerSize)
      if b.getDataSize < total then none
      else some (⟨id, b.head⟩, m.setBlock id (b.consume total).2)

def packetBytes (m : NetworkMessage) (p : RecvPacket) : List UInt8 :=
  let b := m.blocks p.block
  b.slice p.pos (p.pos + headerSize + b.sizeAt p.pos)

def buffered (m : NetworkMessage) : List UInt8 :=
  match m.cur with
  | none => []
  | some b => b.data

end NetworkMessage

structure RecvLoop where
  msg : NetworkMessage
  decoding : Bool
  received : List UInt8
  yielded : List (List UInt8)

namespace RecvLoop

open NetworkMessage

inductive Label
  | read (bytes : List UInt8)
  | decode
  deriving DecidableEq, Repr

def init (memory : ℕ → DataBlock) : RecvLoop := ⟨NetworkMessage.init memory, false, [], []⟩

def fill (m : NetworkMessage) (bytes : List UInt8) : NetworkMessage :=
  match m.curBlock with
  | none => m
  | some id => m.setBlock id ((m.blocks id).write (m.blocks id).tail bytes)

def receive (packetSize : ℤ) (m : NetworkMessage) (bytes : List UInt8) : NetworkMessage :=
  ((fill (m.getBufInfo packetSize).1 bytes).update packetSize bytes.length).2

def step (packetSize : ℤ) (s : RecvLoop) : Label → Option RecvLoop
  | .read bytes =>
    if s.decoding = false ∧ 1 ≤ bytes.length ∧ (bytes.length : ℤ) ≤ packetSize then
      some { s with
        msg := receive packetSize s.msg bytes
        decoding := true
        received := s.received ++ bytes }
    else none
  | .decode =>
    if s.decoding then
      match s.msg.getNetMessage with
      | none => some { s with decoding := false }
      | some (p, msg) => some { s with msg := msg, yielded := s.yielded ++ [msg.packetBytes p] }
    else none

end RecvLoop

end Bugat
