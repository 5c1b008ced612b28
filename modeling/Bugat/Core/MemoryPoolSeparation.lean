import Mathlib
import Bugat.Core.MemoryPoolBlocks

/-!
# Separation of the blocks of all pools of a thread

The chunks are pairwise apart, and the blocks of a chunk are apart from its header
and from each other, so the blocks of all pools are. Each pool's free list and the
live blocks of its types are together the blocks of its chunks.
-/

namespace Bugat.MemoryPool

open LinkedChain (Chain chain_cons chain_nil)
open MachineInt (int32Max)
open Memory (Writes)
open Transition (exec exec_invariant)

variable {Ty : Type*}

namespace State

def chunksOf (s : State Ty) (i : ℕ) : List ℕ :=
  (s.chunks.filter fun c => c.index = i).map Chunk.addr

def blocks (s : State Ty) (i : ℕ) (p : Pool) : List ℕ := (s.chunksOf i).flatMap p.blocksOf

def liveOf (sizeof : Ty → ℕ) (s : State Ty) (i : ℕ) : List ℕ :=
  (s.live.filter fun x => poolIndex (sizeof x.1) = i).map Prod.snd

end State

structure PoolInv (sizeof : Ty → ℕ) (s : State Ty) (i : ℕ) (p : Pool) : Prop where
  size : p.size = 2 ^ (i + 2)
  dvd : 8 ∣ p.size
  count : 1 ≤ p.count
  chunks : Chain s.mem.link (toPtr p.chunkList) (s.chunksOf i)
  free : ∃ free, Chain s.mem.link (toPtr p.head) free ∧
    (free ++ s.liveOf sizeof i).Perm (s.blocks i p)

structure ChunkInv (s : State Ty) (c : Chunk) : Prop where
  pos : 0 < c.addr
  dvd : 8 ∣ c.addr
  pool : ∃ p, s.pools c.index = some p ∧ c.bytes = p.chunkBytes

structure Inv (sizeof : Ty → ℕ) (s : State Ty) : Prop where
  apart : s.chunks.Pairwise Chunk.Apart
  chunk : ∀ c ∈ s.chunks, ChunkInv s c
  pool : ∀ i p, s.pools i = some p → PoolInv sizeof s i p
  live : ∀ x ∈ s.live, s.pools (poolIndex (sizeof x.1)) ≠ none

section Geometry

variable {sizeof : Ty → ℕ} {s : State Ty} {i j a b : ℕ} {p q : Pool}

theorem mem_chunksOf : a ∈ s.chunksOf i ↔ ∃ c ∈ s.chunks, c.index = i ∧ c.addr = a := by
  simp [State.chunksOf, and_assoc]

theorem mem_blocks : a ∈ s.blocks i p ↔
    ∃ c ∈ s.chunks, c.index = i ∧ a ∈ p.blocksOf c.addr := by
  simp [State.blocks, State.chunksOf, List.mem_flatMap, and_assoc]

theorem mem_liveOf : a ∈ s.liveOf sizeof i ↔ ∃ T, (T, a) ∈ s.live ∧ poolIndex (sizeof T) = i := by
  simp [State.liveOf]

theorem chunksOf_snoc {s' : State Ty} {c : Chunk} (hs : s'.chunks = s.chunks ++ [c])
    (hi : c.index = i) : s'.chunksOf i = s.chunksOf i ++ [c.addr] := by
  simp [State.chunksOf, hs, hi]

theorem chunksOf_snoc_other {s' : State Ty} {c : Chunk} (hs : s'.chunks = s.chunks ++ [c])
    (hi : c.index ≠ i) : s'.chunksOf i = s.chunksOf i := by
  simp [State.chunksOf, hs, hi]

theorem PoolInv.eight_le (h : PoolInv sizeof s i p) : 8 ≤ p.size :=
  Nat.le_of_dvd (by rw [h.size]; exact Nat.two_pow_pos _) h.dvd

theorem Inv.bytes_eq (h : Inv sizeof s) (hp : s.pools i = some p) {c : Chunk}
    (hc : c ∈ s.chunks) (hi : c.index = i) : c.bytes = p.chunkBytes := by
  obtain ⟨p', hp', hbytes⟩ := (h.chunk c hc).pool
  rw [hi, hp] at hp'
  rw [hbytes, Option.some.inj hp']

theorem Inv.chunk_apart (h : Inv sizeof s) {c d : Chunk} (hc : c ∈ s.chunks) (hd : d ∈ s.chunks)
    (hne : c ≠ d) : c.Apart d := by
  have hsymm : Std.Symm Chunk.Apart := ⟨fun _ _ hcd => hcd.symm⟩
  exact h.apart.forall hc hd hne

theorem Inv.block_in_chunk (h : Inv sizeof s) (hp : s.pools i = some p) (ha : a ∈ s.blocks i p) :
    ∃ c ∈ s.chunks, c.index = i ∧ a ∈ p.blocksOf c.addr ∧ c.addr + chunkHeader ≤ a ∧
      a + p.size ≤ c.addr + c.bytes := by
  obtain ⟨c, hc, hi, hac⟩ := mem_blocks.mp ha
  obtain ⟨hlo, hhi⟩ := Pool.block_inside hac
  exact ⟨c, hc, hi, hac, hlo, by rwa [h.bytes_eq hp hc hi]⟩

theorem Inv.blocks_apart (h : Inv sizeof s) (hp : s.pools i = some p) (hq : s.pools j = some q)
    (ha : a ∈ s.blocks i p) (hb : b ∈ s.blocks j q) (hne : i ≠ j ∨ a ≠ b) :
    a + p.size ≤ b ∨ b + q.size ≤ a := by
  obtain ⟨c, hc, hi, hac, haLo, haHi⟩ := h.block_in_chunk hp ha
  obtain ⟨d, hd, hj, hbd, hbLo, hbHi⟩ := h.block_in_chunk hq hb
  by_cases hcd : c = d
  · subst hcd
    obtain rfl : i = j := hi.symm.trans hj
    obtain rfl := Option.some.inj (hp.symm.trans hq)
    obtain ⟨k, -, rfl⟩ := Pool.mem_blocksOf.mp hac
    obtain ⟨l, -, rfl⟩ := Pool.mem_blocksOf.mp hbd
    have hkl : k ≠ l := by
      rintro rfl
      simp at hne
    rcases Nat.lt_or_gt_of_ne hkl with hlt | hlt
    · have := Nat.mul_le_mul_right p.size hlt
      rw [Nat.succ_mul] at this
      omega
    · have := Nat.mul_le_mul_right p.size hlt
      rw [Nat.succ_mul] at this
      omega
  · rcases h.chunk_apart hc hd hcd with hle | hle <;> omega

theorem Inv.header_apart (h : Inv sizeof s) (hp : s.pools i = some p) (ha : a ∈ s.blocks i p)
    (hb : b ∈ s.chunksOf j) : a + p.size ≤ b ∨ b + chunkHeader ≤ a := by
  obtain ⟨c, hc, hi, -, hlo, hhi⟩ := h.block_in_chunk hp ha
  obtain ⟨d, hd, hj, rfl⟩ := mem_chunksOf.mp hb
  by_cases hcd : c = d
  · subst hcd
    exact .inr hlo
  · obtain ⟨q, -, hbytes⟩ := (h.chunk d hd).pool
    have hheader : chunkHeader ≤ d.bytes := hbytes ▸ Nat.le_add_left _ _
    rcases h.chunk_apart hc hd hcd with hle | hle <;> omega

theorem Inv.blocks_nodup (h : Inv sizeof s) (hp : s.pools i = some p) : (s.blocks i p).Nodup := by
  have hsize := (h.pool i p hp).eight_le
  refine List.nodup_flatMap.mpr ⟨fun c _ => ?_, ?_⟩
  · refine List.Nodup.map (fun k l hkl => ?_) List.nodup_range
    have hkl : c + chunkHeader + k * p.size = c + chunkHeader + l * p.size := hkl
    exact Nat.eq_of_mul_eq_mul_right (by omega : 0 < p.size) (Nat.add_left_cancel hkl)
  · refine List.pairwise_map.mpr ((h.apart.filter _).imp_of_mem fun {c d} hc hd hcd => ?_)
    intro a hac had
    obtain ⟨hc, hci⟩ := List.mem_filter.mp hc
    obtain ⟨hd, hdi⟩ := List.mem_filter.mp hd
    have hcb := h.bytes_eq hp hc (of_decide_eq_true hci)
    have hdb := h.bytes_eq hp hd (of_decide_eq_true hdi)
    obtain ⟨hcLo, hcHi⟩ := Pool.block_inside hac
    obtain ⟨hdLo, hdHi⟩ := Pool.block_inside had
    rcases hcd with hle | hle <;> omega

theorem Inv.live_block (h : Inv sizeof s) {x : Ty × ℕ} (hx : x ∈ s.live) :
    ∃ p, s.pools (poolIndex (sizeof x.1)) = some p ∧
      x.2 ∈ s.blocks (poolIndex (sizeof x.1)) p ∧ p.size = bucketSize (sizeof x.1) := by
  obtain ⟨p, hp⟩ := Option.ne_none_iff_exists'.mp (h.live x hx)
  have hpool := h.pool _ p hp
  obtain ⟨free, -, hperm⟩ := hpool.free
  refine ⟨p, hp, hperm.mem_iff.mp ?_, by rw [hpool.size, bucketSize_eq]⟩
  exact List.mem_append_right _ (mem_liveOf.mpr ⟨x.1, hx, rfl⟩)

theorem free_not_live {free : List ℕ} (hnd : (s.blocks i p).Nodup)
    (hperm : (free ++ s.liveOf sizeof i).Perm (s.blocks i p)) (ha : a ∈ free) :
    a ∈ s.blocks i p ∧ a ∉ s.liveOf sizeof i := by
  refine ⟨hperm.mem_iff.mp (List.mem_append_left _ ha), fun hl => ?_⟩
  exact (List.nodup_append.mp (hperm.nodup_iff.mpr hnd)).2.2 a ha a hl rfl

theorem PoolInv.frame {s' : State Ty} (h : PoolInv sizeof s i p) (hnd : (s.blocks i p).Nodup)
    (hchunks : s'.chunksOf i = s.chunksOf i)
    (hlive : (s'.liveOf sizeof i).Perm (s.liveOf sizeof i))
    (hlink : ∀ a, a ∈ s.chunksOf i ∨ a ∈ s.blocks i p ∧ a ∉ s.liveOf sizeof i →
      s'.mem.link a = s.mem.link a) : PoolInv sizeof s' i p := by
  obtain ⟨free, hfree, hperm⟩ := h.free
  refine ⟨h.size, h.dvd, h.count, ?_, free, hfree.congr fun a ha => hlink a (.inr ?_), ?_⟩
  · rw [hchunks]
    exact h.chunks.congr fun a ha => hlink a (.inl ha)
  · exact free_not_live hnd hperm ha
  · rw [State.blocks, hchunks]
    exact (hlive.append_left free).trans hperm

theorem Inv.liveOf_nodup (h : Inv sizeof s) (hp : s.pools i = some p) :
    (s.liveOf sizeof i).Nodup := by
  obtain ⟨free, -, hperm⟩ := (h.pool i p hp).free
  exact (hperm.nodup_iff.mpr (h.blocks_nodup hp)).of_append_right

theorem live_pair_ne (hnd : (s.liveOf sizeof i).Nodup) {x y : Ty × ℕ}
    (hsub : List.Sublist [x, y] s.live) (hx : poolIndex (sizeof x.1) = i)
    (hy : poolIndex (sizeof y.1) = i) : x.2 ≠ y.2 := by
  have hsub' : List.Sublist
      (([x, y].filter fun z => poolIndex (sizeof z.1) = i).map Prod.snd) (s.liveOf sizeof i) :=
    (hsub.filter _).map _
  have hboth : ([x, y].filter fun z => poolIndex (sizeof z.1) = i) = [x, y] :=
    List.filter_eq_self.mpr (by simp [hx, hy])
  rw [hboth] at hsub'
  simpa using hsub'.nodup hnd

theorem Inv.header_live (h : Inv sizeof s) (ha : a ∈ s.chunksOf i) {x : Ty × ℕ}
    (hx : x ∈ s.live) : a + 8 ≤ x.2 ∨ x.2 + bucketSize (sizeof x.1) ≤ a := by
  obtain ⟨p, hp, hmem, hsize⟩ := h.live_block hx
  have := h.header_apart hp hmem ha
  simp only [chunkHeader] at this
  omega

theorem Inv.header_in_chunk (h : Inv sizeof s) (ha : a ∈ s.chunksOf i) :
    ∃ c ∈ s.chunks, c.index = i ∧ c.addr = a ∧ chunkHeader ≤ c.bytes := by
  obtain ⟨c, hc, hi, rfl⟩ := mem_chunksOf.mp ha
  obtain ⟨p, -, hbytes⟩ := (h.chunk c hc).pool
  exact ⟨c, hc, hi, rfl, hbytes ▸ Nat.le_add_left _ _⟩

theorem chunksOf_length (s : State Ty) (i : ℕ) : (s.chunksOf i).length ≤ s.chunks.length := by
  rw [State.chunksOf, List.length_map]
  exact List.length_filter_le _ _

/-- Neither `Alloc` of pool `i` nor the link to its new chunk writes a header or the first word
of a block of another pool. -/
theorem Inv.untouched (h : Inv sizeof s) {c : Chunk} (hc : ∀ d ∈ s.chunks, c.Apart d)
    (hj : j ≠ i) (hq : s.pools j = some q) (ha : a ∈ s.chunksOf j ∨ a ∈ s.blocks j q) :
    ¬ (a ∈ s.chunksOf i ∨ OnWord c.addr c.bytes a) := by
  obtain ⟨d, hd, hdj, hlo, hhi⟩ : ∃ d ∈ s.chunks, d.index = j ∧ d.addr ≤ a ∧
      a + 8 ≤ d.addr + d.bytes := by
    rcases ha with ha | ha
    · obtain ⟨d, hd, hdj, rfl, hheader⟩ := h.header_in_chunk ha
      simp only [chunkHeader] at hheader
      exact ⟨d, hd, hdj, le_rfl, by omega⟩
    · obtain ⟨d, hd, hdj, -, hlo, hhi⟩ := h.block_in_chunk hq ha
      have := (h.pool j q hq).eight_le
      exact ⟨d, hd, hdj, by omega, by omega⟩
  rintro (hi | hw)
  · obtain ⟨e, he, hei, rfl, hheader⟩ := h.header_in_chunk hi
    have hne : d ≠ e := fun heq => hj (hdj.symm.trans (heq ▸ hei))
    simp only [chunkHeader] at hheader
    rcases h.chunk_apart hd he hne with hle | hle <;> omega
  · obtain ⟨hwLo, hwHi⟩ := hw.inside
    rcases hc d hd with hle | hle <;> omega

theorem Inv.region_live (h : Inv sizeof s) {c : Chunk} (hc : ∀ d ∈ s.chunks, c.Apart d)
    (ha : OnWord c.addr c.bytes a) {x : Ty × ℕ} (hx : x ∈ s.live) :
    a + 8 ≤ x.2 ∨ x.2 + bucketSize (sizeof x.1) ≤ a := by
  obtain ⟨p, hp, hmem, hsize⟩ := h.live_block hx
  obtain ⟨d, hd, -, -, hlo, hhi⟩ := h.block_in_chunk hp hmem
  obtain ⟨haLo, haHi⟩ := ha.inside
  rcases hc d hd with hle | hle <;> omega

structure Separated (sizeof : Ty → ℕ) (s : State Ty) : Prop where
  inside : ∀ x ∈ s.live, sizeof x.1 ≤ bucketSize (sizeof x.1) ∧ ∃ c ∈ s.chunks,
    c.addr + chunkHeader ≤ x.2 ∧ x.2 + bucketSize (sizeof x.1) ≤ c.addr + c.bytes
  disjoint : s.live.Pairwise fun x y =>
    x.2 + bucketSize (sizeof x.1) ≤ y.2 ∨ y.2 + bucketSize (sizeof y.1) ≤ x.2
  partition : ∀ i p, s.pools i = some p → (s.blocks i p).Nodup ∧
    ∃ free, Chain s.mem.link (toPtr p.head) free ∧
      (free ++ s.liveOf sizeof i).Perm (s.blocks i p)

theorem Inv.separated (h : Inv sizeof s) : Separated sizeof s := by
  refine ⟨fun x hx => ⟨le_bucketSize _, ?_⟩, List.pairwise_iff_forall_sublist.mpr ?_,
    fun i p hp => ⟨h.blocks_nodup hp, (h.pool i p hp).free⟩⟩
  · obtain ⟨p, hp, hmem, hsize⟩ := h.live_block hx
    obtain ⟨c, hc, -, -, hlo, hhi⟩ := h.block_in_chunk hp hmem
    exact ⟨c, hc, hlo, hsize ▸ hhi⟩
  · intro x y hsub
    have hx : x ∈ s.live := hsub.subset (by simp)
    have hy : y ∈ s.live := hsub.subset (by simp)
    obtain ⟨p, hp, hxp, hxsize⟩ := h.live_block hx
    obtain ⟨q, hq, hyq, hysize⟩ := h.live_block hy
    rw [← hxsize, ← hysize]
    by_cases hij : poolIndex (sizeof y.1) = poolIndex (sizeof x.1)
    · exact h.blocks_apart hp hq hxp hyq (.inr (live_pair_ne (h.liveOf_nodup hp) hsub rfl hij))
    · exact h.blocks_apart hp hq hxp hyq (.inl (Ne.symm hij))

end Geometry

section Steps

variable {sizeof : Ty → ℕ} {s s' : State Ty}

theorem Inv.poolFor (h : Inv sizeof s) (T : Ty) {count : ℕ} (hcount : 1 ≤ count) :
    PoolInv sizeof s (poolIndex (sizeof T)) (poolFor sizeof s T count) := by
  cases hp : s.pools (poolIndex (sizeof T)) with
  | some p =>
    rw [MemoryPool.poolFor, hp]
    exact h.pool _ p hp
  | none =>
    have hchunks : s.chunksOf (poolIndex (sizeof T)) = [] := by
      refine List.eq_nil_iff_forall_not_mem.mpr fun a ha => ?_
      obtain ⟨c, hc, hi, -⟩ := mem_chunksOf.mp ha
      obtain ⟨q, hq, -⟩ := (h.chunk c hc).pool
      rw [hi, hp] at hq
      cases hq
    have hlive : s.liveOf sizeof (poolIndex (sizeof T)) = [] := by
      refine List.eq_nil_iff_forall_not_mem.mpr fun a ha => ?_
      obtain ⟨U, hU, hi⟩ := mem_liveOf.mp ha
      exact h.live _ hU (hi.symm ▸ hp)
    rw [MemoryPool.poolFor, hp]
    refine ⟨bucketSize_eq _, eight_dvd_bucketSize _, hcount, ?_, [], rfl, ?_⟩
    · rw [hchunks]
      rfl
    · rw [hlive, State.blocks, hchunks]
      exact List.Perm.refl []

theorem poolFor_of_some {T : Ty} {count : ℕ} {p : Pool}
    (hp : s.pools (poolIndex (sizeof T)) = some p) : poolFor sizeof s T count = p := by
  rw [MemoryPool.poolFor, hp]
  rfl

theorem Inv.update_pool {i : ℕ} {p' : Pool} (h : Inv sizeof s)
    (hpools : s'.pools = Function.update s.pools i (some p'))
    (hapart : s'.chunks.Pairwise Chunk.Apart)
    (hchunk : ∀ c ∈ s'.chunks, c ∉ s.chunks →
      c.index = i ∧ 0 < c.addr ∧ 8 ∣ c.addr ∧ c.bytes = p'.chunkBytes)
    (hsame : ∀ p, s.pools i = some p → p'.chunkBytes = p.chunkBytes)
    (hpool : PoolInv sizeof s' i p')
    (hothers : ∀ j p, j ≠ i → s.pools j = some p → PoolInv sizeof s' j p)
    (hlive : ∀ x ∈ s'.live, x ∈ s.live ∨ poolIndex (sizeof x.1) = i) : Inv sizeof s' := by
  have hself : s'.pools i = some p' := by rw [hpools, Function.update_self]
  have hother : ∀ j, j ≠ i → s'.pools j = s.pools j := fun j hj => by
    rw [hpools, Function.update_of_ne hj]
  refine ⟨hapart, fun c hc => ?_, fun j q hq => ?_, fun x hx => ?_⟩
  · by_cases hold : c ∈ s.chunks
    · obtain ⟨hpos, hdvd, p, hp, hbytes⟩ := h.chunk c hold
      refine ⟨hpos, hdvd, ?_⟩
      by_cases hi : c.index = i
      · rw [hi] at hp ⊢
        exact ⟨p', hself, hbytes.trans (hsame p hp).symm⟩
      · exact ⟨p, (hother _ hi).trans hp, hbytes⟩
    · obtain ⟨hi, hpos, hdvd, hbytes⟩ := hchunk c hc hold
      exact ⟨hpos, hdvd, p', hi ▸ hself, hbytes⟩
  · by_cases hj : j = i
    · subst hj
      obtain rfl := Option.some.inj (hself.symm.trans hq)
      exact hpool
    · exact hothers j q hj ((hother j hj).symm.trans hq)
  · by_cases hj : poolIndex (sizeof x.1) = i
    · rw [hj, hself]
      exact Option.some_ne_none _
    · rw [hother _ hj]
      exact h.live x ((hlive x hx).resolve_right hj)

theorem inv_init (word : ℕ → ℕ) : Inv sizeof (init word : State Ty) :=
  ⟨List.Pairwise.nil, fun _ hc => (nomatch hc), fun _ _ hp => (nomatch hp),
    fun _ hx => (nomatch hx)⟩

theorem liveOf_perm {T : Ty} {b : ℕ} (hlive : s'.live.Perm ((T, b) :: s.live)) :
    (s'.liveOf sizeof (poolIndex (sizeof T))).Perm
      (b :: s.liveOf sizeof (poolIndex (sizeof T))) := by
  have h := (hlive.filter fun x => poolIndex (sizeof x.1) = poolIndex (sizeof T)).map Prod.snd
  rwa [List.filter_cons_of_pos (by simp)] at h

theorem liveOf_perm_other {i : ℕ} {T : Ty} {b : ℕ} (hlive : s'.live.Perm ((T, b) :: s.live))
    (hi : i ≠ poolIndex (sizeof T)) : (s'.liveOf sizeof i).Perm (s.liveOf sizeof i) := by
  have h := (hlive.filter fun x => poolIndex (sizeof x.1) = i).map Prod.snd
  rwa [List.filter_cons_of_neg (by simpa using Ne.symm hi)] at h

/-- What one operation does: `Get` hands out one more block, `Get` and `Release` write no word
of a block that stays live, nothing changes but the words written, and a chunk is allocated
only when every block of the pool is live. -/
structure StepOk (sizeof : Ty → ℕ) (s : State Ty) (l : Label Ty) (s' : State Ty) : Prop where
  returns : ∀ T count c, l = .get T count c →
    ∃ b, s.get sizeof T count c = some (s', b) ∧ s'.live = (T, b) :: s.live
  written : (∀ T ptr offset value, l ≠ .write T ptr offset value) → ∀ w ∈ s'.mem.written,
    8 ∣ w ∧ ∀ x ∈ s.live, x ∈ s'.live → w + 8 ≤ x.2 ∨ x.2 + bucketSize (sizeof x.1) ≤ w
  frame : ∀ a, a ∉ s'.mem.written → s'.mem.word a = s.mem.word a
  newChunk : s'.chunks ≠ s.chunks → ∃ T count c, l = .get T count c ∧
    ∀ p, s.pools (poolIndex (sizeof T)) = some p →
      ∀ b ∈ s.blocks (poolIndex (sizeof T)) p, b ∈ s.liveOf sizeof (poolIndex (sizeof T))

theorem get_free_spec (h : Inv sizeof s) {T : Ty} {count c : ℕ} (hcount : 1 ≤ count)
    (hhead : (poolFor sizeof s T count).head ≠ 0) :
    ∃ s' b, s.get sizeof T count c = some (s', b) ∧ Inv sizeof s' ∧
      StepOk sizeof s (.get T count c) s' := by
  have hpool := h.poolFor T hcount
  have hbytes : ∀ q, s.pools (poolIndex (sizeof T)) = some q →
      (poolFor sizeof s T count).chunkBytes = q.chunkBytes := fun q hq => by
    rw [poolFor_of_some hq]
  generalize hp : poolFor sizeof s T count = p at hhead hpool hbytes
  obtain ⟨free, hfree, hperm⟩ := hpool.free
  have hptr := toPtr_of_pos (Nat.pos_of_ne_zero hhead)
  obtain ⟨rest, rfl, hrest⟩ : ∃ rest, free = p.head :: rest ∧
      Chain s.mem.link (s.mem.link p.head) rest := by
    rw [hptr] at hfree
    cases free with
    | nil => cases hfree
    | cons a rest =>
      obtain ⟨ha, hrest⟩ := hfree
      obtain rfl := Option.some.inj ha
      exact ⟨rest, rfl, hrest⟩
  refine ⟨_, p.head, by simp only [State.get, hp, Pool.get, if_neg hhead]; rfl, ?_, ?_⟩
  · refine h.update_pool rfl h.apart (fun c hc hold => absurd hc hold) hbytes ?_
      (fun j q hj hq => ?_) fun x hx => ?_
    · exact ⟨hpool.size, hpool.dvd, hpool.count, hpool.chunks, rest, hrest,
        ((liveOf_perm (List.Perm.refl _)).append_left rest).trans
          (List.perm_middle.trans hperm)⟩
    · exact (h.pool j q hq).frame (h.blocks_nodup hq) rfl
        (liveOf_perm_other (List.Perm.refl _) hj) fun _ _ => rfl
    · rcases List.mem_cons.mp hx with rfl | hx
      · exact .inr rfl
      · exact .inl hx
  · refine ⟨fun T' count' c' hl => ?_, fun _ w hw => (nomatch hw), fun _ _ => rfl,
      fun hne => absurd rfl hne⟩
    cases hl
    exact ⟨p.head, by simp only [State.get, hp, Pool.get, if_neg hhead]; rfl, rfl⟩

structure Refilled (sizeof : Ty → ℕ) (s s' : State Ty) (T : Ty) (c : ℕ) (p p' : Pool) (b : ℕ)
    (rest : List ℕ) : Prop where
  pools : s'.pools = Function.update s.pools (poolIndex (sizeof T)) (some p')
  chunks : s'.chunks = s.chunks ++ [⟨poolIndex (sizeof T), c, p.chunkBytes⟩]
  live : s'.live = (T, b) :: s.live
  size : p'.size = p.size
  count : p'.count = p.count
  blocks : (p.blocksOf c).reverse = b :: rest
  chunkList : Chain s'.mem.link (toPtr p'.chunkList) (s.chunksOf (poolIndex (sizeof T)) ++ [c])
  free : Chain s'.mem.link (toPtr p'.head) rest
  writes : Writes (fun w => w ∈ s.chunksOf (poolIndex (sizeof T)) ∨ OnWord c p.chunkBytes w)
    ⟨s.mem.word, []⟩ s'.mem

theorem refilled (h : Inv sizeof s) {T : Ty} {count c : ℕ} (hcount : 1 ≤ count)
    (hhead : (poolFor sizeof s T count).head = 0) (hc : 0 < c)
    (hfresh : ∀ d ∈ s.chunks, Chunk.Apart
      ⟨poolIndex (sizeof T), c, (poolFor sizeof s T count).chunkBytes⟩ d) :
    ∃ s' p' b rest, s.get sizeof T count c = some (s', b) ∧
      Refilled sizeof s s' T c (poolFor sizeof s T count) p' b rest := by
  have hpool := h.poolFor T hcount
  generalize hp : poolFor sizeof s T count = p at hhead hpool hfresh
  generalize hi : poolIndex (sizeof T) = i at hpool hfresh
  obtain ⟨p', m', halloc, hsize, hcount', hchain, hfree, hwrites⟩ :=
    Pool.alloc_spec (m := ⟨s.mem.word, []⟩) hpool.chunks (chunksOf_length s i) hc hpool.count
      hpool.eight_le hpool.dvd fun a ha => by
        obtain ⟨d, hd, -, rfl, hheader⟩ := h.header_in_chunk ha
        rcases hfresh d hd with hle | hle
        · exact .inr hle
        · exact .inl ((Nat.add_le_add_left hheader _).trans hle)
  have hne : (p.blocksOf c).reverse ≠ [] := by
    rw [Pool.blocksOf_eq hpool.count]
    simp
  obtain ⟨b, rest, hblocks⟩ := List.exists_cons_of_ne_nil hne
  rw [hblocks] at hfree
  obtain ⟨hb, hrest⟩ := hfree
  have hhead' : p'.head = b := (toPtr_eq_some.mp hb).1
  refine ⟨⟨m', Function.update s.pools i (some { p' with head := m'.word b }),
    s.chunks ++ [⟨i, c, p.chunkBytes⟩], (T, b) :: s.live⟩, { p' with head := m'.word b }, b, rest,
    ?_, ?_⟩
  · simp only [State.get, hp, hi, Pool.get, if_pos hhead, halloc, Option.map_some, Pool.take,
      hhead']
  · subst hi
    exact ⟨rfl, rfl, rfl, hsize, hcount', hblocks, hchain, hrest, hwrites⟩

namespace Refilled

variable {T : Ty} {c b : ℕ} {p p' q : Pool} {rest : List ℕ}

theorem chunkBytes (hf : Refilled sizeof s s' T c p p' b rest) : p'.chunkBytes = p.chunkBytes := by
  simp only [Pool.chunkBytes, hf.size, hf.count]

theorem chunksOf (hf : Refilled sizeof s s' T c p p' b rest) :
    s'.chunksOf (poolIndex (sizeof T)) = s.chunksOf (poolIndex (sizeof T)) ++ [c] :=
  chunksOf_snoc hf.chunks rfl

theorem blocks_eq (hf : Refilled sizeof s s' T c p p' b rest) :
    s'.blocks (poolIndex (sizeof T)) p' = s.blocks (poolIndex (sizeof T)) p ++ p.blocksOf c := by
  have hof : p'.blocksOf = p.blocksOf := by
    funext a
    simp only [Pool.blocksOf, hf.size, hf.count]
  rw [State.blocks, hf.chunksOf, hof, List.flatMap_append, State.blocks]
  simp

theorem poolInv (hf : Refilled sizeof s s' T c p p' b rest)
    (hpool : PoolInv sizeof s (poolIndex (sizeof T)) p) (hhead : p.head = 0) :
    PoolInv sizeof s' (poolIndex (sizeof T)) p' := by
  obtain ⟨free, hfree, hperm⟩ := hpool.free
  rw [hhead] at hfree
  obtain rfl := hfree.head_eq_none.mp rfl
  refine ⟨hf.size.trans hpool.size, hf.size ▸ hpool.dvd, hf.count ▸ hpool.count, ?_, rest,
    hf.free, ?_⟩
  · rw [hf.chunksOf]
    exact hf.chunkList
  · have hlive : (s'.liveOf sizeof (poolIndex (sizeof T))).Perm
        (b :: s.liveOf sizeof (poolIndex (sizeof T))) := liveOf_perm (List.Perm.of_eq hf.live)
    have hmiddle : (rest ++ b :: s.liveOf sizeof (poolIndex (sizeof T))).Perm
        (b :: rest ++ s.liveOf sizeof (poolIndex (sizeof T))) := List.perm_middle
    have hreverse : (b :: rest ++ s.liveOf sizeof (poolIndex (sizeof T))).Perm
        (p.blocksOf c ++ s.blocks (poolIndex (sizeof T)) p) := by
      rw [← hf.blocks]
      exact (List.reverse_perm _).append hperm
    rw [hf.blocks_eq]
    exact ((hlive.append_left rest).trans hmiddle).trans (hreverse.trans List.perm_append_comm)

theorem inv (hf : Refilled sizeof s s' T c p p' b rest) (h : Inv sizeof s)
    (hpool : PoolInv sizeof s (poolIndex (sizeof T)) p) (hhead : p.head = 0)
    (hsame : ∀ q, s.pools (poolIndex (sizeof T)) = some q → p.chunkBytes = q.chunkBytes)
    (hc : 0 < c) (hdvd : 8 ∣ c)
    (hfresh : ∀ d ∈ s.chunks, Chunk.Apart ⟨poolIndex (sizeof T), c, p.chunkBytes⟩ d) :
    Inv sizeof s' := by
  refine h.update_pool hf.pools ?_ ?_ (fun q hq => hf.chunkBytes.trans (hsame q hq))
    (hf.poolInv hpool hhead) ?_ ?_
  · rw [hf.chunks]
    exact List.pairwise_append.mpr ⟨h.apart, List.pairwise_singleton _ _, fun d hd e he => by
      rw [List.mem_singleton.mp he]
      exact (hfresh d hd).symm⟩
  · intro d hd hold
    rw [hf.chunks] at hd
    rcases List.mem_append.mp hd with hd | hd
    · exact absurd hd hold
    · rw [List.mem_singleton.mp hd]
      exact ⟨rfl, hc, hdvd, hf.chunkBytes.symm⟩
  · intro j q hj hq
    refine (h.pool j q hq).frame (h.blocks_nodup hq) (chunksOf_snoc_other hf.chunks hj.symm)
      (liveOf_perm_other (List.Perm.of_eq hf.live) hj) ?_
    intro a ha
    exact hf.writes.link_eq (h.untouched hfresh hj hq (ha.imp id And.left))
  · intro x hx
    rw [hf.live] at hx
    rcases List.mem_cons.mp hx with rfl | hx
    · exact .inr rfl
    · exact .inl hx

theorem written (hf : Refilled sizeof s s' T c p p' b rest) (h : Inv sizeof s) (hdvd : 8 ∣ c)
    (hfresh : ∀ d ∈ s.chunks, Chunk.Apart ⟨poolIndex (sizeof T), c, p.chunkBytes⟩ d) {w : ℕ}
    (hw : w ∈ s'.mem.written) : 8 ∣ w ∧ ∀ x ∈ s.live, x ∈ s'.live →
      w + 8 ≤ x.2 ∨ x.2 + bucketSize (sizeof x.1) ≤ w := by
  rcases hf.writes.of_mem hw with hw | hw
  · obtain ⟨d, hd, -, rfl⟩ := mem_chunksOf.mp hw
    exact ⟨(h.chunk d hd).dvd, fun x hx _ => h.header_live hw hx⟩
  · refine ⟨?_, fun x hx _ => h.region_live hfresh hw hx⟩
    obtain ⟨k, rfl, -⟩ := hw
    omega

end Refilled

theorem get_empty_spec (h : Inv sizeof s) {T : Ty} {count c : ℕ}
    (hl : Legal sizeof s (.get T count c)) (hhead : (poolFor sizeof s T count).head = 0) :
    ∃ s' b, s.get sizeof T count c = some (s', b) ∧ Inv sizeof s' ∧
      StepOk sizeof s (.get T count c) s' := by
  obtain ⟨hcount, -, hmalloc⟩ := hl
  obtain ⟨hc, hdvd, -, hfresh⟩ := hmalloc hhead
  have hpool := h.poolFor T hcount
  obtain ⟨s', p', b, rest, hrun, hf⟩ := refilled h hcount hhead hc hfresh
  refine ⟨s', b, hrun, hf.inv h hpool hhead ?_ hc hdvd hfresh, ?_⟩
  · intro q hq
    rw [poolFor_of_some hq]
  · refine ⟨?_, fun _ w hw => hf.written h hdvd hfresh hw, fun a ha => hf.writes.of_notMem ha, ?_⟩
    · intro T' count' c' hl
      cases hl
      exact ⟨b, hrun, hf.live⟩
    · intro _
      refine ⟨T, count, c, rfl, ?_⟩
      intro q hq a ha
      -- all blocks of the pool are live, since none is free
      obtain ⟨free, hfree, hperm⟩ := hpool.free
      rw [hhead] at hfree
      obtain rfl := hfree.head_eq_none.mp rfl
      rw [poolFor_of_some hq] at hperm
      exact hperm.mem_iff.mpr ha

variable [DecidableEq Ty]

theorem release_spec (h : Inv sizeof s) {T : Ty} {ptr : ℕ} (hx : (T, ptr) ∈ s.live) :
    ∃ s', s.release sizeof T ptr = some s' ∧ Inv sizeof s' ∧
      StepOk sizeof s (.release T ptr) s' := by
  obtain ⟨p, hp, hmem, hsize⟩ := h.live_block hx
  have hpool := h.pool _ p hp
  have hnd := h.blocks_nodup hp
  have hsize8 := hpool.eight_le
  obtain ⟨c, hc, -, hac, hlo, -⟩ := h.block_in_chunk hp hmem
  have hpos : 0 < ptr := by
    simp only [chunkHeader] at hlo
    omega
  have hnotHeader : ∀ j, ptr ∉ s.chunksOf j := fun j hj => by
    have := h.header_apart hp hmem hj
    simp only [chunkHeader] at this
    omega
  have hlive : s.live.Perm ((T, ptr) :: s.live.erase (T, ptr)) := List.perm_cons_erase hx
  have hmemLive : ptr ∈ s.liveOf sizeof (poolIndex (sizeof T)) := mem_liveOf.mpr ⟨T, hx, rfl⟩
  have hgone : ∀ U, (U, ptr) ∈ s.live.erase (T, ptr) →
      poolIndex (sizeof U) ≠ poolIndex (sizeof T) := fun U hU hi => by
    have hperm : (s.liveOf sizeof (poolIndex (sizeof T))).Perm (ptr ::
        State.liveOf sizeof { s with live := s.live.erase (T, ptr) } (poolIndex (sizeof T))) :=
      liveOf_perm hlive
    exact (List.nodup_cons.mp (hperm.nodup_iff.mp (h.liveOf_nodup hp))).1
      (mem_liveOf.mpr ⟨U, hU, hi⟩)
  refine ⟨_, by rw [State.release, hp]; rfl, ?_, ?_⟩
  · refine h.update_pool rfl h.apart (fun c hc hold => absurd hc hold)
      (fun q hq => by rw [Option.some.inj (hp.symm.trans hq)]; rfl) ?_ (fun j q hj hq => ?_)
      fun x hx' => .inl (List.mem_of_mem_erase hx')
    · obtain ⟨free, hfree, hperm⟩ := hpool.free
      refine ⟨hpool.size, hpool.dvd, hpool.count, ?_, ptr :: free, ⟨toPtr_of_pos hpos, ?_⟩, ?_⟩
      · exact hpool.chunks.congr fun a ha =>
          Memory.store_link_of_ne (ne_of_mem_of_not_mem ha (hnotHeader _)) _
      · change Chain _ (toPtr ((Memory.store _ ptr p.head).word ptr)) free
        rw [Memory.store_word_self]
        exact hfree.congr fun a ha => Memory.store_link_of_ne
          (ne_of_mem_of_not_mem hmemLive (free_not_live hnd hperm ha).2).symm _
      · exact List.perm_middle.symm.trans (((liveOf_perm hlive).symm.append_left free).trans hperm)
    · refine (h.pool j q hq).frame (h.blocks_nodup hq) rfl (liveOf_perm_other hlive hj).symm
        fun a ha => Memory.store_link_of_ne ?_ _
      rintro rfl
      rcases ha with ha | ⟨ha, -⟩
      · exact hnotHeader j ha
      · have := (h.pool j q hq).eight_le
        rcases h.blocks_apart hp hq hmem ha (.inl hj.symm) with hle | hle <;> omega
  · refine ⟨fun _ _ _ hl => (by cases hl), fun _ w hw => ?_, fun a ha => ?_,
      fun hne => absurd rfl hne⟩
    · obtain rfl := List.mem_singleton.mp hw
      refine ⟨?_, fun x hx' hkeep => ?_⟩
      · obtain ⟨k, hk, -⟩ := Pool.block_onWord hsize8 hpool.dvd hac
        have := (h.chunk c hc).dvd
        omega
      · obtain ⟨q, hq, hxq, hxsize⟩ := h.live_block hx'
        have happart : w + p.size ≤ x.2 ∨ x.2 + q.size ≤ w := by
          refine h.blocks_apart hp hq hmem hxq ?_
          by_cases hi : poolIndex (sizeof x.1) = poolIndex (sizeof T)
          · exact .inr fun heq => hgone x.1 (heq ▸ hkeep) hi
          · exact .inl (Ne.symm hi)
        omega
    · exact Memory.store_word_of_ne (fun heq => ha (List.mem_singleton.mpr heq)) _

theorem write_spec (h : Inv sizeof s) {T : Ty} {ptr offset value : ℕ}
    (hl : Legal sizeof s (.write T ptr offset value)) :
    ∃ s', step sizeof s (.write T ptr offset value) = some s' ∧ Inv sizeof s' ∧
      StepOk sizeof s (.write T ptr offset value) s' := by
  obtain ⟨hx, -, hoffset⟩ := id hl
  obtain ⟨p, hp, hmem, hsize⟩ := h.live_block hx
  have hsize' : p.size = bucketSize (sizeof T) := hsize
  refine ⟨_, by rw [step, if_pos hl], ?_, ?_⟩
  · refine ⟨h.apart, fun c hc => ⟨(h.chunk c hc).pos, (h.chunk c hc).dvd, (h.chunk c hc).pool⟩,
      fun j q hq => (h.pool j q hq).frame (h.blocks_nodup hq) rfl (List.Perm.refl _)
        fun a ha => Memory.store_link_of_ne ?_ _, h.live⟩
    rcases ha with ha | ⟨ha, hfree⟩
    · have := h.header_apart hp hmem ha
      simp only [chunkHeader] at this
      omega
    · have hne : poolIndex (sizeof T) ≠ j ∨ ptr ≠ a := by
        by_contra hboth
        simp only [not_or, not_not] at hboth
        exact hfree (mem_liveOf.mpr ⟨T, hboth.2 ▸ hx, hboth.1⟩)
      have := (h.pool j q hq).eight_le
      rcases h.blocks_apart hp hq hmem ha hne with hle | hle
      · have hle' : ptr + p.size ≤ a := hle
        omega
      · have hle' : a + q.size ≤ ptr := hle
        omega
  · refine ⟨fun _ _ _ hl => (by cases hl), fun hnot => absurd rfl (hnot _ _ _ _), fun a ha => ?_,
      fun hne => absurd rfl hne⟩
    exact Memory.store_word_of_ne (fun heq => ha (List.mem_singleton.mpr heq)) _

theorem step_spec (h : Inv sizeof s) {l : Label Ty} (hl : Legal sizeof s l) :
    ∃ s', step sizeof s l = some s' ∧ Inv sizeof s' ∧ StepOk sizeof s l s' := by
  cases l with
  | get T count c =>
    obtain ⟨s', b, hrun, hinv, hok⟩ : ∃ s' b, s.get sizeof T count c = some (s', b) ∧
        Inv sizeof s' ∧ StepOk sizeof s (.get T count c) s' := by
      by_cases hhead : (poolFor sizeof s T count).head = 0
      · exact get_empty_spec h hl hhead
      · exact get_free_spec h hl.1 hhead
    exact ⟨s', by rw [step, if_pos hl]; simp only [hrun, Option.map_some], hinv, hok⟩
  | release T ptr =>
    obtain ⟨s', hrun, hinv, hok⟩ := release_spec h hl
    exact ⟨s', by rw [step, if_pos hl]; exact hrun, hinv, hok⟩
  | write T ptr offset value => exact write_spec h hl

theorem legal_of_step {l : Label Ty} (h : step sizeof s l = some s') : Legal sizeof s l := by
  by_contra hl
  unfold step at h
  rw [if_neg hl] at h
  cases h

theorem inv_exec {word : ℕ → ℕ} {ls : List (Label Ty)}
    (h : exec (step sizeof) (init word) ls = some s) : Inv sizeof s := by
  refine exec_invariant (fun s l t hs ht => ?_) (inv_init word) h
  obtain ⟨s', hs', hinv, -⟩ := step_spec hs (legal_of_step ht)
  obtain rfl := Option.some.inj (hs'.symm.trans ht)
  exact hinv

/-- After any operations the blocks of all pools are separated, and every further operation that
its callers and `malloc` allow succeeds and respects the live blocks. -/
theorem pool_separation (sizeof : Ty → ℕ) (word : ℕ → ℕ) (ls : List (Label Ty)) (s : State Ty)
    (h : exec (step sizeof) (init word) ls = some s) :
    Separated sizeof s ∧ ∀ l, Legal sizeof s l →
      ∃ s', step sizeof s l = some s' ∧ StepOk sizeof s l s' := by
  refine ⟨(inv_exec h).separated, fun l hl => ?_⟩
  obtain ⟨s', hs', -, hok⟩ := step_spec (inv_exec h) hl
  exact ⟨s', hs', hok⟩

def threeTypes : List (Label (Fin 3)) :=
  [.get 0 2 1024, .get 1 2 2048, .get 2 1 4096, .write 0 1048 0 77, .release 0 1048,
    .get 1 2 2048, .get 0 2 2048]

theorem threeTypes_separation : ∃ s : State (Fin 3),
    exec (step ![5, 8, 20]) (init fun _ => 0) threeTypes = some s ∧
    s.live = [(0, 2072), (1, 1048), (2, 4112), (1, 1040)] ∧ Separated ![5, 8, 20] s ∧
    ∀ l, Legal ![5, 8, 20] s l →
      ∃ s', step ![5, 8, 20] s l = some s' ∧ StepOk ![5, 8, 20] s l s' := by
  have hlive : (exec (step ![5, 8, 20]) (init fun _ => 0) threeTypes).map State.live =
      some [(0, 2072), (1, 1048), (2, 4112), (1, 1040)] := by decide +kernel
  obtain ⟨s, hrun, hs⟩ := Option.map_eq_some_iff.mp hlive
  exact ⟨s, hrun, hs, pool_separation _ _ _ _ hrun⟩

end Steps

end Bugat.MemoryPool
