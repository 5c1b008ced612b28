import Mathlib
import Bugat.Core.MemoryPool

/-!
# TLSMemoryPool: one map of pools for each thread

A block may be released on another thread than the one that got it, and then joins the
free list of the pool that the releasing thread has for its bucket. `Release` takes for
granted that there is such a pool: `operator[]` inserts a null pointer otherwise. The
words that an operation reads and writes belong to its thread, so an operation is one step.
-/

namespace Bugat.TLSMemoryPool

open LinkedChain (Chain)
open MachineInt (int32Max)
open MemoryPool (Memory Pool Chunk chunkHeader toPtr bucketSize poolIndex)

variable {Tid Ty : Type*}

/-- The memory, the `tls_memorypool_map` of each thread, the chunks with the threads that
allocated them and the blocks that are handed out, with their types. `gets` lists the calls
of `Get`, `crashed` says that a `Release` has called through a null pointer. -/
structure State (Tid Ty : Type*) where
  mem : Memory
  pools : Tid → ℕ → Option Pool
  chunks : List (Tid × Chunk)
  live : List (Ty × ℕ)
  gets : List (Tid × ℕ)
  crashed : Bool

def init (word : ℕ → ℕ) : State Tid Ty := ⟨⟨word, []⟩, fun _ _ => none, [], [], [], false⟩

inductive Label (Tid Ty : Type*)
  | get (t : Tid) (T : Ty) (count c : ℕ)
  | release (t : Tid) (T : Ty) (ptr : ℕ)
  | write (T : Ty) (ptr offset value : ℕ)
  deriving DecidableEq, Repr

section Step

variable [DecidableEq Tid] [DecidableEq Ty] (sizeof : Ty → ℕ)

def State.setPool (s : State Tid Ty) (t : Tid) (i : ℕ) (p : Pool) : State Tid Ty :=
  { s with pools := fun u j => if u = t ∧ j = i then some p else s.pools u j }

def poolFor (s : State Tid Ty) (t : Tid) (T : Ty) (count : ℕ) : Pool :=
  (s.pools t (poolIndex (sizeof T))).getD (Pool.new (bucketSize (sizeof T)) count)

def Legal (s : State Tid Ty) : Label Tid Ty → Prop
  | .get t T count c =>
    let p := poolFor sizeof s t T count
    1 ≤ count ∧ ((Pool.new (bucketSize (sizeof T)) count).chunkBytes : ℤ) ≤ int32Max ∧
      (p.head = 0 → 0 < c ∧ 8 ∣ c ∧ c + p.chunkBytes ≤ 2 ^ 64 ∧
        ∀ x ∈ s.chunks, Chunk.Apart ⟨poolIndex (sizeof T), c, p.chunkBytes⟩ x.2)
  | .release _ T ptr => (T, ptr) ∈ s.live
  | .write T ptr offset _ => (T, ptr) ∈ s.live ∧ 8 ∣ offset ∧ offset + 8 ≤ bucketSize (sizeof T)

instance (s : State Tid Ty) : (l : Label Tid Ty) → Decidable (Legal sizeof s l)
  | .get _ _ _ _ => inferInstanceAs (Decidable (_ ∧ _ ∧ (_ → _)))
  | .release _ _ _ => inferInstanceAs (Decidable (_ ∈ _))
  | .write _ _ _ _ => inferInstanceAs (Decidable (_ ∧ _))

namespace State

def emplace (s : State Tid Ty) (t : Tid) (T : Ty) (count : ℕ) : State Tid Ty :=
  { s.setPool t (poolIndex (sizeof T)) (poolFor sizeof s t T count) with
    gets := (t, poolIndex (sizeof T)) :: s.gets }

def refill (s : State Tid Ty) (t : Tid) (i c : ℕ) : Option (State Tid Ty) :=
  (s.pools t i).bind fun p =>
    if p.head = 0 then
      (p.alloc s.chunks.length s.mem c).map fun (p', m') =>
        { s.setPool t i p' with
          mem := m'
          chunks := s.chunks ++ [(t, ⟨i, c, p.chunkBytes⟩)] }
    else some s

def take (s : State Tid Ty) (t : Tid) (T : Ty) : Option (State Tid Ty) :=
  (s.pools t (poolIndex (sizeof T))).map fun p =>
    let r := p.take s.mem
    { s.setPool t (poolIndex (sizeof T)) r.1 with
      mem := r.2.1
      live := (T, r.2.2) :: s.live }

def get (s : State Tid Ty) (t : Tid) (T : Ty) (count c : ℕ) : Option (State Tid Ty) :=
  ((s.emplace sizeof t T count).refill t (poolIndex (sizeof T)) c).bind fun s =>
    s.take sizeof t T

def release (s : State Tid Ty) (t : Tid) (T : Ty) (ptr : ℕ) : State Tid Ty :=
  match s.pools t (poolIndex (sizeof T)) with
  | some p =>
    let r := p.release s.mem ptr
    { s.setPool t (poolIndex (sizeof T)) r.1 with
      mem := r.2
      live := s.live.erase (T, ptr) }
  | none => { s with crashed := true }

end State

def step (s : State Tid Ty) (l : Label Tid Ty) : Option (State Tid Ty) :=
  if s.crashed = false ∧ Legal sizeof s l then
    match l with
    | .get t T count c => s.get sizeof t T count c
    | .release t T ptr => some (s.release sizeof t T ptr)
    | .write _ ptr offset value => some { s with mem := s.mem.store (ptr + offset) value }
  else none

end Step

def blocksOf (c : Chunk) : List ℕ :=
  (List.range ((c.bytes - chunkHeader) / 2 ^ (c.index + 2))).map fun k =>
    c.addr + chunkHeader + k * 2 ^ (c.index + 2)

namespace State

variable (s : State Tid Ty)

def Block (i a : ℕ) : Prop := ∃ x ∈ s.chunks, x.2.index = i ∧ a ∈ blocksOf x.2

def Live (sizeof : Ty → ℕ) (i a : ℕ) : Prop := ∃ T, (T, a) ∈ s.live ∧ poolIndex (sizeof T) = i

def headOf (t : Tid) (i : ℕ) : Option ℕ := (s.pools t i).bind fun p => toPtr p.head

end State

/-- `free t i` is the free list of thread `t` for bucket `i`. Each block is live once or on one
free list once: a list that ends visits no block twice. -/
structure Placed (sizeof : Ty → ℕ) (s : State Tid Ty) (free : Tid → ℕ → List ℕ) : Prop where
  list : ∀ t i, Chain s.mem.link (s.headOf t i) (free t i)
  live : (s.live.map Prod.snd).Nodup
  apart : ∀ t i u j a, a ∈ free t i → a ∈ free u j → t = u ∧ i = j
  not_live : ∀ t i a, a ∈ free t i → a ∉ s.live.map Prod.snd
  blocks : ∀ i a, s.Block i a ↔ s.Live sizeof i a ∨ ∃ t, a ∈ free t i

structure Sound (sizeof : Ty → ℕ) (s : State Tid Ty) : Prop where
  found : s.crashed = false
  placed : ∃ free, Placed sizeof s free

/-- The thread of a `Release` has called `Get` for the bucket before. -/
def GotBefore (sizeof : Ty → ℕ) (s : State Tid Ty) : Label Tid Ty → Prop
  | .release t T _ => (t, poolIndex (sizeof T)) ∈ s.gets
  | _ => True

instance [DecidableEq Tid] (sizeof : Ty → ℕ) (s : State Tid Ty) :
    (l : Label Tid Ty) → Decidable (GotBefore sizeof s l)
  | .release _ _ _ => inferInstanceAs (Decidable (_ ∈ _))
  | .get _ _ _ _ => isTrue trivial
  | .write _ _ _ _ => isTrue trivial

end Bugat.TLSMemoryPool
