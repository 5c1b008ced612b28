import Mathlib
import Bugat.Lib.LinkedChain
import Bugat.Lib.MachineInt
import Bugat.Lib.Transition

/-!
# MemoryPool: blocks of one size cut from chunks

A thread has one pool for each size bucket. A pool carves chunks from `malloc` into
blocks and keeps the free ones in a list threaded through their first words. Memory
is a function from the addresses of words to their values; every store is logged, so
that what an operation writes can be stated. A word that holds a pointer is `0` for
`nullptr`. All accesses are to aligned words of 8 bytes.
-/

namespace Bugat.MemoryPool

open LinkedChain (Chain walkLast)
open MachineInt (int32Max)

structure Memory where
  word : ℕ → ℕ
  written : List ℕ

def chunkHeader : ℕ := 16

def toPtr (w : ℕ) : Option ℕ := if w = 0 then none else some w

namespace Memory

def store (m : Memory) (a v : ℕ) : Memory := ⟨Function.update m.word a v, a :: m.written⟩

def zero (m : Memory) (a : ℕ) : ℕ → Memory
  | 0 => m
  | n + 1 => (m.zero a n).store (a + 8 * n) 0

def link (m : Memory) (a : ℕ) : Option ℕ := toPtr (m.word a)

end Memory

def bitWidth (x : ℕ) : ℕ := if x = 0 then 0 else x.log2 + 1

def bitCeil (x : ℕ) : ℕ := if x ≤ 1 then 1 else 2 ^ bitWidth (x - 1)

def bucketSize (sizeofT : ℕ) : ℕ := bitCeil (max sizeofT 8)

def getSizeIndexBitwise (size : ℕ) : ℕ := bitWidth (max size 8 - 1) - 2

def poolIndex (sizeofT : ℕ) : ℕ := getSizeIndexBitwise (bucketSize sizeofT)

/-- `MemoryPool<SIZE, COUNT>`, with the template arguments of the instance. -/
structure Pool where
  size : ℕ
  count : ℕ
  chunkList : ℕ
  head : ℕ
  deriving DecidableEq, Repr

namespace Pool

def new (size count : ℕ) : Pool := ⟨size, count, 0, 0⟩

def chunkBytes (p : Pool) : ℕ := p.size * p.count + chunkHeader

def blocksOf (p : Pool) (c : ℕ) : List ℕ :=
  (List.range p.count).map fun k => c + chunkHeader + k * p.size

def allocChunk (p : Pool) (m : Memory) (c : ℕ) : Memory :=
  ((m.zero c (p.chunkBytes / 8)).store c 0).store (c + 8) (c + chunkHeader)

def linkChunk (fuel : ℕ) (p : Pool) (m : Memory) (c : ℕ) : Option (Memory × ℕ) :=
  match toPtr p.chunkList with
  | none => some (m, c)
  | some first => (walkLast m.link fuel first).map fun cur => (m.store cur c, p.chunkList)

/-- The loop of `Alloc` with `n` iterations to go, `_head` and `pre_head` being equal. -/
def linkBlocks (size : ℕ) : ℕ → ℕ → Memory → ℕ × Memory
  | 0, head, m => (head, m)
  | n + 1, head, m => linkBlocks size n (head + size) (m.store (head + size) head)

def alloc (fuel : ℕ) (p : Pool) (m : Memory) (c : ℕ) : Option (Pool × Memory) :=
  (linkChunk fuel p (p.allocChunk m c) c).map fun (m₁, chunkList) =>
    let (head, m₂) := linkBlocks p.size (p.count - 1) (m₁.word (c + 8)) m₁
    ({ p with chunkList := chunkList, head := head }, m₂)

def take (p : Pool) (m : Memory) : Pool × Memory × ℕ :=
  ({ p with head := m.word p.head }, m, p.head)

def get (fuel : ℕ) (p : Pool) (m : Memory) (c : ℕ) : Option (Pool × Memory × ℕ) :=
  if p.head = 0 then (alloc fuel p m c).map fun r => take r.1 r.2 else some (take p m)

def release (p : Pool) (m : Memory) (ptr : ℕ) : Pool × Memory :=
  ({ p with head := ptr }, m.store ptr p.head)

end Pool

structure Chunk where
  index : ℕ
  addr : ℕ
  bytes : ℕ
  deriving DecidableEq, Repr

def Chunk.Apart (c d : Chunk) : Prop := c.addr + c.bytes ≤ d.addr ∨ d.addr + d.bytes ≤ c.addr

instance (c d : Chunk) : Decidable (c.Apart d) := inferInstanceAs (Decidable (_ ∨ _))

variable {Ty : Type*}

/-- The memory of one thread, its `tls_memorypool_map`, the chunks that `malloc` has
returned and the blocks that are handed out, with their types. -/
structure State (Ty : Type*) where
  mem : Memory
  pools : ℕ → Option Pool
  chunks : List Chunk
  live : List (Ty × ℕ)

def init (word : ℕ → ℕ) : State Ty := ⟨⟨word, []⟩, fun _ => none, [], []⟩

inductive Label (Ty : Type*)
  | get (T : Ty) (count c : ℕ)
  | release (T : Ty) (ptr : ℕ)
  | write (T : Ty) (ptr offset value : ℕ)
  deriving DecidableEq, Repr

section Step

variable [DecidableEq Ty] (sizeof : Ty → ℕ)

def poolFor (s : State Ty) (T : Ty) (count : ℕ) : Pool :=
  (s.pools (poolIndex (sizeof T))).getD (Pool.new (bucketSize (sizeof T)) count)

def Legal (s : State Ty) : Label Ty → Prop
  | .get T count c =>
    let p := poolFor sizeof s T count
    1 ≤ count ∧ ((Pool.new (bucketSize (sizeof T)) count).chunkBytes : ℤ) ≤ int32Max ∧
      (p.head = 0 → 0 < c ∧ 8 ∣ c ∧ c + p.chunkBytes ≤ 2 ^ 64 ∧
        ∀ d ∈ s.chunks, Chunk.Apart ⟨poolIndex (sizeof T), c, p.chunkBytes⟩ d)
  | .release T ptr => (T, ptr) ∈ s.live
  | .write T ptr offset _ => (T, ptr) ∈ s.live ∧ 8 ∣ offset ∧ offset + 8 ≤ bucketSize (sizeof T)

instance (s : State Ty) : (l : Label Ty) → Decidable (Legal sizeof s l)
  | .get _ _ _ => inferInstanceAs (Decidable (_ ∧ _ ∧ (_ → _)))
  | .release _ _ => inferInstanceAs (Decidable (_ ∈ _))
  | .write _ _ _ _ => inferInstanceAs (Decidable (_ ∧ _))

namespace State

/-- `TLSMemoryPool<T>::Get`, with the block it returns. The chunk list is walked with as
much fuel as there are chunks. -/
def get (s : State Ty) (T : Ty) (count c : ℕ) : Option (State Ty × ℕ) :=
  let i := poolIndex (sizeof T)
  let p := poolFor sizeof s T count
  (p.get s.chunks.length ⟨s.mem.word, []⟩ c).map fun (p', m', ptr) =>
    ({ mem := m'
       pools := Function.update s.pools i (some p')
       chunks := if p.head = 0 then s.chunks ++ [⟨i, c, p.chunkBytes⟩] else s.chunks
       live := (T, ptr) :: s.live }, ptr)

def release (s : State Ty) (T : Ty) (ptr : ℕ) : Option (State Ty) :=
  let i := poolIndex (sizeof T)
  (s.pools i).map fun p =>
    let r := p.release ⟨s.mem.word, []⟩ ptr
    { s with
      mem := r.2
      pools := Function.update s.pools i (some r.1)
      live := s.live.erase (T, ptr) }

end State

def step (s : State Ty) (l : Label Ty) : Option (State Ty) :=
  if Legal sizeof s l then
    match l with
    | .get T count c => (s.get sizeof T count c).map Prod.fst
    | .release T ptr => s.release sizeof T ptr
    | .write _ ptr offset value =>
      some { s with mem := (Memory.mk s.mem.word []).store (ptr + offset) value }
  else none

end Step

end Bugat.MemoryPool
