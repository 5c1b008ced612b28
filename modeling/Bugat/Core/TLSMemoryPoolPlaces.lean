import Mathlib
import Bugat.Core.MemoryPoolBlocks
import Bugat.Core.TLSMemoryPool

/-!
# The places of the blocks of all threads

The chunks of all threads are apart, so what one operation writes is no header and no free
block of another pool, and blocks move between the lists one at a time. The only thing that
can go wrong is a `Release` on a thread that has no pool for the bucket.
-/

namespace Bugat.TLSMemoryPool

open LinkedChain (Chain)
open MachineInt (int32Max)
open MemoryPool (Memory Pool Chunk chunkHeader toPtr toPtr_of_pos toPtr_eq_some bucketSize
  bucketSize_eq poolIndex OnWord)
open MemoryPool.Memory (Writes)
open Transition (exec Along Throughout throughout_iff_along_of_step)

variable {Tid Ty : Type*}

namespace State

def chunksOf [DecidableEq Tid] (s : State Tid Ty) (t : Tid) (i : ℕ) : List ℕ :=
  (s.chunks.filter fun x => x.1 = t ∧ x.2.index = i).map fun x => x.2.addr

end State

structure ChunkInv (s : State Tid Ty) (x : Tid × Chunk) : Prop where
  pos : 0 < x.2.addr
  index : 1 ≤ x.2.index
  header : chunkHeader ≤ x.2.bytes
  pool : s.pools x.1 x.2.index ≠ none

structure PoolInv [DecidableEq Tid] (s : State Tid Ty) (t : Tid) (i : ℕ) (p : Pool) : Prop where
  index : 1 ≤ i
  size : p.size = 2 ^ (i + 2)
  count : 1 ≤ p.count
  chunks : Chain s.mem.link (toPtr p.chunkList) (s.chunksOf t i)

structure Inv [DecidableEq Tid] (sizeof : Ty → ℕ) (s : State Tid Ty) : Prop where
  apart : s.chunks.Pairwise fun x y => x.2.Apart y.2
  chunk : ∀ x ∈ s.chunks, ChunkInv s x
  pool : ∀ t i p, s.pools t i = some p → PoolInv s t i p
  gets : ∀ t i, (t, i) ∈ s.gets ↔ s.pools t i ≠ none
  sound : Sound sizeof s

section Geometry

variable [DecidableEq Tid] {sizeof : Ty → ℕ} {s s' : State Tid Ty} {t : Tid} {i j a b : ℕ}
  {p p' : Pool} {free : Tid → ℕ → List ℕ}

theorem one_le_poolIndex (n : ℕ) : 1 ≤ poolIndex n := by
  have hlow : 8 ≤ bucketSize n :=
    Nat.le_of_dvd (by rw [bucketSize_eq]; exact Nat.two_pow_pos _)
      (MemoryPool.eight_dvd_bucketSize n)
  rw [bucketSize_eq] at hlow
  by_contra hlt
  have hzero : poolIndex n = 0 := by omega
  rw [hzero] at hlow
  omega

theorem eight_le_size (h : 1 ≤ i) : 8 ≤ 2 ^ (i + 2) := by
  calc 8 = 2 ^ 3 := rfl
    _ ≤ 2 ^ (i + 2) := Nat.pow_le_pow_right (by decide) (by omega)

theorem mem_chunksOf : a ∈ s.chunksOf t i ↔
    ∃ x ∈ s.chunks, x.1 = t ∧ x.2.index = i ∧ x.2.addr = a := by
  simp [State.chunksOf, and_assoc]

theorem mem_blocksOf {c : Chunk} : a ∈ blocksOf c ↔
    ∃ k < (c.bytes - chunkHeader) / 2 ^ (c.index + 2),
      c.addr + chunkHeader + k * 2 ^ (c.index + 2) = a := by
  simp [blocksOf]

theorem block_inside {c : Chunk} (hheader : chunkHeader ≤ c.bytes) (ha : a ∈ blocksOf c) :
    c.addr + chunkHeader ≤ a ∧ a + 2 ^ (c.index + 2) ≤ c.addr + c.bytes := by
  obtain ⟨k, hk, rfl⟩ := mem_blocksOf.mp ha
  have hle : (k + 1) * 2 ^ (c.index + 2) ≤ c.bytes - chunkHeader :=
    (Nat.mul_le_mul_right _ hk).trans (Nat.div_mul_le_self _ _)
  rw [Nat.succ_mul] at hle
  omega

namespace Inv

variable (h : Inv sizeof s)
include h

theorem chunk_apart {x y : Tid × Chunk} (hx : x ∈ s.chunks) (hy : y ∈ s.chunks) (hne : x ≠ y) :
    x.2.Apart y.2 := by
  have hsymm : Std.Symm fun x y : Tid × Chunk => x.2.Apart y.2 := ⟨fun _ _ hxy => hxy.symm⟩
  exact h.apart.forall hx hy hne

theorem block_in_chunk (ha : s.Block i a) : ∃ x ∈ s.chunks, x.2.index = i ∧ a ∈ blocksOf x.2 ∧
    x.2.addr + chunkHeader ≤ a ∧ a + 2 ^ (i + 2) ≤ x.2.addr + x.2.bytes ∧ 8 ≤ 2 ^ (i + 2) := by
  obtain ⟨x, hx, rfl, hmem⟩ := ha
  have hchunk := h.chunk x hx
  obtain ⟨hlo, hhi⟩ := block_inside hchunk.header hmem
  exact ⟨x, hx, rfl, hmem, hlo, hhi, eight_le_size hchunk.index⟩

theorem block_pos (ha : s.Block i a) : 0 < a := by
  obtain ⟨x, hx, -, -, hlo, -⟩ := h.block_in_chunk ha
  have hpos := (h.chunk x hx).pos
  omega

theorem blocks_apart (ha : s.Block i a) (hb : s.Block j b) (hne : a ≠ b) :
    a + 2 ^ (i + 2) ≤ b ∨ b + 2 ^ (j + 2) ≤ a := by
  obtain ⟨x, hx, hi, hax, haLo, haHi, -⟩ := h.block_in_chunk ha
  obtain ⟨y, hy, hj, hby, hbLo, hbHi, -⟩ := h.block_in_chunk hb
  by_cases hxy : x = y
  · subst hxy
    obtain ⟨k, -, rfl⟩ := mem_blocksOf.mp hax
    obtain ⟨l, -, rfl⟩ := mem_blocksOf.mp hby
    rw [← hi, ← hj]
    have hkl : k ≠ l := by
      rintro rfl
      exact hne rfl
    rcases Nat.lt_or_gt_of_ne hkl with hlt | hlt
    · have hle := Nat.mul_le_mul_right (2 ^ (x.2.index + 2)) hlt
      rw [Nat.succ_mul] at hle
      omega
    · have hle := Nat.mul_le_mul_right (2 ^ (x.2.index + 2)) hlt
      rw [Nat.succ_mul] at hle
      omega
  · rcases h.chunk_apart hx hy hxy with hle | hle <;> omega

theorem header_apart (ha : s.Block i a) {x : Tid × Chunk} (hx : x ∈ s.chunks) :
    a + 2 ^ (i + 2) ≤ x.2.addr ∨ x.2.addr + chunkHeader ≤ a := by
  obtain ⟨y, hy, -, -, hlo, hhi, -⟩ := h.block_in_chunk ha
  have hheader := (h.chunk x hx).header
  by_cases hxy : x = y
  · subst hxy
    exact .inr hlo
  · rcases h.chunk_apart hx hy hxy with hle | hle <;> omega

theorem eight_le (ha : s.Block i a) : 8 ≤ 2 ^ (i + 2) := by
  obtain ⟨x, -, -, -, -, -, hsize⟩ := h.block_in_chunk ha
  exact hsize

theorem region_apart {c : Chunk} (hc : ∀ x ∈ s.chunks, c.Apart x.2) (hw : OnWord c.addr c.bytes a) :
    ¬ s.Block i a ∧ ∀ x ∈ s.chunks, a ≠ x.2.addr := by
  obtain ⟨hlo, hhi⟩ := hw.inside
  constructor
  · intro ha
    obtain ⟨x, hx, -, -, haLo, haHi, hsize⟩ := h.block_in_chunk ha
    rcases hc x hx with hle | hle <;> omega
  · rintro x hx rfl
    have hheader := (h.chunk x hx).header
    simp only [chunkHeader] at hheader
    rcases hc x hx with hle | hle <;> omega

theorem block_ne_header (ha : s.Block i a) {x : Tid × Chunk} (hx : x ∈ s.chunks) :
    a ≠ x.2.addr := by
  rintro rfl
  have hsize := h.eight_le ha
  have happart := h.header_apart ha hx
  simp only [chunkHeader] at happart
  omega

theorem header_not_mem {x : Tid × Chunk} (hx : x ∈ s.chunks) (hne : ¬ (x.1 = t ∧ x.2.index = i)) :
    x.2.addr ∉ s.chunksOf t i := by
  intro hmem
  obtain ⟨y, hy, ht, hi, haddr⟩ := mem_chunksOf.mp hmem
  have hxy : x ≠ y := by
    rintro rfl
    exact hne ⟨ht, hi⟩
  have hxheader := (h.chunk x hx).header
  have hyheader := (h.chunk y hy).header
  simp only [chunkHeader] at hxheader hyheader
  rcases h.chunk_apart hx hy hxy with hle | hle <;> omega

end Inv

omit [DecidableEq Tid] in
theorem Placed.block_of_free (h : Placed sizeof s free) (ha : a ∈ free t i) : s.Block i a :=
  (h.blocks i a).mpr (.inr ⟨t, ha⟩)

omit [DecidableEq Tid] in
theorem Placed.block_of_live (h : Placed sizeof s free) {T : Ty} (ha : (T, a) ∈ s.live) :
    s.Block (poolIndex (sizeof T)) a :=
  (h.blocks _ a).mpr (.inl ⟨T, ha, rfl⟩)

end Geometry

section Moves

variable [DecidableEq Tid] {sizeof : Ty → ℕ} {s s' : State Tid Ty} {t : Tid} {i a b : ℕ}
  {free : Tid → ℕ → List ℕ} {as rest : List ℕ}

def put (free : Tid → ℕ → List ℕ) (t : Tid) (i : ℕ) (as : List ℕ) : Tid → ℕ → List ℕ :=
  fun u j => if u = t ∧ j = i then as else free u j

theorem put_self : put free t i as t i = as := if_pos ⟨rfl, rfl⟩

theorem put_other {u : Tid} {j : ℕ} (hne : ¬ (u = t ∧ j = i)) : put free t i as u j = free u j :=
  if_neg hne

theorem forall_put {P : Tid → ℕ → List ℕ → Prop} (hself : P t i as)
    (hother : ∀ u j, ¬ (u = t ∧ j = i) → P u j (free u j)) (u : Tid) (j : ℕ) :
    P u j (put free t i as u j) := by
  by_cases huj : u = t ∧ j = i
  · obtain ⟨rfl, rfl⟩ := huj
    rwa [put_self]
  · rw [put_other huj]
    exact hother u j huj

theorem apart_put (happart : ∀ u j v k a, a ∈ free u j → a ∈ free v k → u = v ∧ j = k)
    (hnew : ∀ a ∈ as, a ∈ free t i ∨ ∀ u j, a ∉ free u j) (u : Tid) (j : ℕ) (v : Tid) (k a : ℕ)
    (hu : a ∈ put free t i as u j) (hv : a ∈ put free t i as v k) : u = v ∧ j = k := by
  have hcases : ∀ w l, a ∈ put free t i as w l →
      (w = t ∧ l = i ∧ ∀ w' l', a ∉ free w' l') ∨ a ∈ free w l := by
    apply forall_put (P := fun w l bs => a ∈ bs →
      (w = t ∧ l = i ∧ ∀ w' l', a ∉ free w' l') ∨ a ∈ free w l)
    · intro ha
      rcases hnew a ha with hold | hnone
      · exact .inr hold
      · exact .inl ⟨rfl, rfl, hnone⟩
    · exact fun w l _ ha => .inr ha
  rcases hcases u j hu with ⟨rfl, rfl, hnone⟩ | hu
  · rcases hcases v k hv with ⟨rfl, rfl, -⟩ | hv
    · exact ⟨rfl, rfl⟩
    · exact absurd hv (hnone v k)
  · rcases hcases v k hv with ⟨-, -, hnone⟩ | hv
    · exact absurd hu (hnone u j)
    · exact happart u j v k a hu hv

theorem Placed.take (h : Placed sizeof s free) {T : Ty} (hi : poolIndex (sizeof T) = i)
    (hfree : free t i = b :: rest) (hchunks : s'.chunks = s.chunks) (hmem : s'.mem = s.mem)
    (hlive : s'.live = (T, b) :: s.live) (hself : s'.headOf t i = s.mem.link b)
    (hother : ∀ u j, ¬ (u = t ∧ j = i) → s'.headOf u j = s.headOf u j) :
    Placed sizeof s' (put free t i rest) := by
  have hb : b ∈ free t i := by simp [hfree]
  have hlist := h.list t i
  rw [hfree] at hlist
  have hnodup := List.nodup_cons.mp hlist.nodup
  -- what is left on a free list was there before and is not the block taken
  have hold : ∀ u j a, a ∈ put free t i rest u j → a ∈ free u j ∧ a ≠ b := by
    intro u j a
    apply forall_put (P := fun u j as => a ∈ as → a ∈ free u j ∧ a ≠ b)
    · intro ha
      rw [hfree]
      exact ⟨List.mem_cons_of_mem b ha, ne_of_mem_of_not_mem ha hnodup.1⟩
    · intro u j huj ha
      refine ⟨ha, ?_⟩
      rintro rfl
      exact huj (h.apart u j t i a ha hb)
  have hblock : ∀ j a, s'.Block j a ↔ s.Block j a := by
    intro j a
    rw [State.Block, hchunks, State.Block]
  constructor
  · rw [hmem]
    apply forall_put
    · rw [hself]
      exact hlist.2
    · intro u j huj
      rw [hother u j huj]
      exact h.list u j
  · rw [hlive, List.map_cons]
    exact List.nodup_cons.mpr ⟨h.not_live t i b hb, h.live⟩
  · apply apart_put h.apart
    intro a ha
    exact .inl (hfree ▸ List.mem_cons_of_mem b ha)
  · intro u j a ha hmem'
    rw [hlive, List.map_cons] at hmem'
    obtain ⟨hfree', hne⟩ := hold u j a ha
    exact h.not_live u j a hfree' ((List.mem_cons.mp hmem').resolve_left hne)
  · intro j a
    rw [hblock, h.blocks]
    constructor
    · rintro (⟨U, hU, hj⟩ | ⟨u, hu⟩)
      · exact .inl ⟨U, hlive ▸ List.mem_cons_of_mem _ hU, hj⟩
      · by_cases huj : u = t ∧ j = i
        · obtain ⟨rfl, rfl⟩ := huj
          rw [hfree] at hu
          rcases List.mem_cons.mp hu with rfl | hu
          · exact .inl ⟨T, hlive ▸ List.mem_cons_self, hi⟩
          · exact .inr ⟨u, by rwa [put_self]⟩
        · exact .inr ⟨u, by rwa [put_other huj]⟩
    · rintro (⟨U, hU, hj⟩ | ⟨u, hu⟩)
      · rw [hlive] at hU
        rcases List.mem_cons.mp hU with heq | hU
        · obtain ⟨rfl, rfl⟩ := Prod.mk.inj heq
          obtain rfl : i = j := hi.symm.trans hj
          exact .inr ⟨t, hb⟩
        · exact .inl ⟨U, hU, hj⟩
      · exact .inr ⟨u, (hold u j a hu).1⟩

/-- `Release` puts a live block in front of a free list of the thread it runs on. -/
theorem Placed.give [DecidableEq Ty] (h : Placed sizeof s free) {T : Ty} {ptr : ℕ}
    (hi : poolIndex (sizeof T) = i) (hx : (T, ptr) ∈ s.live) (hchunks : s'.chunks = s.chunks)
    (hlive : s'.live = s.live.erase (T, ptr)) (hself : s'.headOf t i = some ptr)
    (hlinkSelf : s'.mem.link ptr = s.headOf t i)
    (hother : ∀ u j, ¬ (u = t ∧ j = i) → s'.headOf u j = s.headOf u j)
    (hlink : ∀ a, a ≠ ptr → s'.mem.link a = s.mem.link a) :
    Placed sizeof s' (put free t i (ptr :: free t i)) := by
  have hptr : ptr ∈ s.live.map Prod.snd := List.mem_map.mpr ⟨_, hx, rfl⟩
  have hnot : ∀ u j, ptr ∉ free u j := fun u j ha => h.not_live u j ptr ha hptr
  have hchain : ∀ u j, Chain s'.mem.link (s.headOf u j) (free u j) := by
    intro u j
    exact (h.list u j).congr fun a ha => hlink a (ne_of_mem_of_not_mem ha (hnot u j))
  have hperm : (s.live.map Prod.snd).Perm (ptr :: s'.live.map Prod.snd) := by
    rw [hlive]
    exact (List.perm_cons_erase hx).map Prod.snd
  have hnodup := List.nodup_cons.mp (hperm.nodup_iff.mp h.live)
  have hnew : ∀ u j a, a ∈ put free t i (ptr :: free t i) u j ↔
      (a = ptr ∧ u = t ∧ j = i) ∨ a ∈ free u j := by
    intro u j a
    by_cases huj : u = t ∧ j = i
    · obtain ⟨rfl, rfl⟩ := huj
      simp [put_self]
    · simp [put_other huj, huj]
  constructor
  · apply forall_put
    · rw [hself]
      exact ⟨rfl, hlinkSelf ▸ hchain t i⟩
    · intro u j huj
      rw [hother u j huj]
      exact hchain u j
  · exact hnodup.2
  · apply apart_put h.apart
    intro a ha
    rcases List.mem_cons.mp ha with rfl | ha
    · exact .inr hnot
    · exact .inl ha
  · intro u j a ha hmem
    rcases (hnew u j a).mp ha with ⟨rfl, -, -⟩ | ha
    · exact hnodup.1 hmem
    · exact h.not_live u j a ha (hperm.mem_iff.mpr (List.mem_cons_of_mem ptr hmem))
  · intro j a
    rw [State.Block, hchunks]
    refine (h.blocks j a).trans ⟨?_, ?_⟩
    · rintro (⟨U, hU, hj⟩ | ⟨u, hu⟩)
      · by_cases heq : (U, a) = (T, ptr)
        · obtain ⟨rfl, rfl⟩ := Prod.mk.inj heq
          obtain rfl : j = i := hj.symm.trans hi
          exact .inr ⟨t, (hnew t j a).mpr (.inl ⟨rfl, rfl, rfl⟩)⟩
        · exact .inl ⟨U, hlive ▸ (List.mem_erase_of_ne heq).mpr hU, hj⟩
      · exact .inr ⟨u, (hnew u j a).mpr (.inr hu)⟩
    · rintro (⟨U, hU, hj⟩ | ⟨u, hu⟩)
      · exact .inl ⟨U, List.mem_of_mem_erase (hlive ▸ hU), hj⟩
      · rcases (hnew u j a).mp hu with ⟨rfl, rfl, rfl⟩ | hu
        · exact .inl ⟨T, hx, hi⟩
        · exact .inr ⟨u, hu⟩

theorem Placed.refill (h : Placed sizeof s free) {c : Chunk} (hempty : free t i = [])
    (hi : c.index = i) (hchunks : s'.chunks = s.chunks ++ [(t, c)]) (hlive : s'.live = s.live)
    (hnew : ∀ a, a ∈ as ↔ a ∈ blocksOf c) (hfresh : ∀ j a, a ∈ blocksOf c → ¬ s.Block j a)
    (hself : Chain s'.mem.link (s'.headOf t i) as)
    (hother : ∀ u j, ¬ (u = t ∧ j = i) → s'.headOf u j = s.headOf u j)
    (hlink : ∀ j a, s.Block j a → s'.mem.link a = s.mem.link a) :
    Placed sizeof s' (put free t i as) := by
  have hmem : ∀ u j a, a ∈ put free t i as u j ↔
      (a ∈ blocksOf c ∧ u = t ∧ j = i) ∨ a ∈ free u j := by
    intro u j a
    by_cases huj : u = t ∧ j = i
    · obtain ⟨rfl, rfl⟩ := huj
      simp [put_self, hempty, hnew]
    · simp [put_other huj, huj]
  have hblock : ∀ j a, s'.Block j a ↔ s.Block j a ∨ (j = i ∧ a ∈ blocksOf c) := by
    intro j a
    simp only [State.Block, hchunks, List.mem_append, List.mem_singleton]
    constructor
    · rintro ⟨x, hx | rfl, hj, ha⟩
      · exact .inl ⟨x, hx, hj, ha⟩
      · exact .inr ⟨hj.symm.trans hi, ha⟩
    · rintro (⟨x, hx, hj, ha⟩ | ⟨rfl, ha⟩)
      · exact ⟨x, .inl hx, hj, ha⟩
      · exact ⟨(t, c), .inr rfl, hi, ha⟩
  constructor
  · apply forall_put
    · exact hself
    · intro u j huj
      rw [hother u j huj]
      exact (h.list u j).congr fun a ha => hlink j a (h.block_of_free ha)
  · exact hlive ▸ h.live
  · apply apart_put h.apart
    intro a ha
    exact .inr fun u j hu => hfresh j a ((hnew a).mp ha) (h.block_of_free hu)
  · intro u j a ha hl
    rw [hlive] at hl
    rcases (hmem u j a).mp ha with ⟨ha, -, -⟩ | ha
    · obtain ⟨x, hx, rfl⟩ := List.mem_map.mp hl
      exact hfresh _ _ ha (h.block_of_live (T := x.1) hx)
    · exact h.not_live u j a ha hl
  · intro j a
    have hlive' : s'.Live sizeof j a ↔ s.Live sizeof j a := by
      rw [State.Live, hlive, State.Live]
    rw [hblock, h.blocks, hlive']
    constructor
    · rintro ((hl | ⟨u, hu⟩) | ⟨rfl, ha⟩)
      · exact .inl hl
      · exact .inr ⟨u, (hmem u j a).mpr (.inr hu)⟩
      · exact .inr ⟨t, (hmem t j a).mpr (.inl ⟨ha, rfl, rfl⟩)⟩
    · rintro (hl | ⟨u, hu⟩)
      · exact .inl (.inl hl)
      · rcases (hmem u j a).mp hu with ⟨ha, rfl, rfl⟩ | hu
        · exact .inr ⟨rfl, ha⟩
        · exact .inl (.inr ⟨u, hu⟩)

end Moves

section Steps

variable [DecidableEq Tid] {sizeof : Ty → ℕ} {s s' : State Tid Ty} {t : Tid} {i : ℕ}
  {p p' : Pool} {T : Ty}

def shape (p : Pool) : ℕ × ℕ × ℕ := (p.size, p.count, p.chunkList)

@[simp] theorem setPool_self : (s.setPool t i p).pools t i = some p := if_pos ⟨rfl, rfl⟩

theorem setPool_other {u : Tid} {j : ℕ} (hne : ¬ (u = t ∧ j = i)) :
    (s.setPool t i p).pools u j = s.pools u j :=
  if_neg hne

theorem setPool_shape (hp : s.pools t i = some p) (hshape : shape p' = shape p) (u : Tid) (j : ℕ) :
    ((s.setPool t i p').pools u j).map shape = (s.pools u j).map shape := by
  by_cases huj : u = t ∧ j = i
  · obtain ⟨rfl, rfl⟩ := huj
    rw [setPool_self, hp, Option.map_some, Option.map_some, hshape]
  · rw [setPool_other huj]

theorem Inv.frame (h : Inv sizeof s) (hchunks : s'.chunks = s.chunks) (hgets : s'.gets = s.gets)
    (hpools : ∀ u j, (s'.pools u j).map shape = (s.pools u j).map shape)
    (hlink : ∀ x ∈ s.chunks, s'.mem.link x.2.addr = s.mem.link x.2.addr)
    (hsound : Sound sizeof s') : Inv sizeof s' := by
  have hnone : ∀ u j, s'.pools u j = none ↔ s.pools u j = none := by
    intro u j
    rw [← Option.map_eq_none_iff (f := shape), hpools, Option.map_eq_none_iff]
  refine ⟨hchunks ▸ h.apart, fun x hx => ?_, fun u j p' hp' => ?_, fun u j => ?_, hsound⟩
  · obtain ⟨hpos, hindex, hheader, hpool⟩ := h.chunk x (hchunks ▸ hx)
    exact ⟨hpos, hindex, hheader, fun heq => hpool ((hnone _ _).mp heq)⟩
  · have hmap := hpools u j
    rw [hp', Option.map_some] at hmap
    obtain ⟨p, hp, hshape⟩ := Option.map_eq_some_iff.mp hmap.symm
    simp only [shape, Prod.mk.injEq] at hshape
    obtain ⟨hsize, hcount, hchunkList⟩ := hshape
    obtain ⟨hindex, hsize', hcount', hchain⟩ := h.pool u j p hp
    have hsame : s'.chunksOf u j = s.chunksOf u j := by
      rw [State.chunksOf, hchunks, State.chunksOf]
    refine ⟨hindex, hsize ▸ hsize', hcount ▸ hcount', ?_⟩
    rw [hsame, ← hchunkList]
    refine hchain.congr fun a ha => ?_
    obtain ⟨x, hx, -, -, rfl⟩ := mem_chunksOf.mp ha
    exact hlink x hx
  · rw [hgets, h.gets u j, not_iff_not, hnone]

theorem inv_init (word : ℕ → ℕ) : Inv sizeof (init word : State Tid Ty) where
  apart := List.Pairwise.nil
  chunk _ hx := absurd hx List.not_mem_nil
  pool _ _ _ hp := absurd hp (by simp [init])
  gets _ _ := by simp [init]
  sound := by
    refine ⟨rfl, fun _ _ => [], fun _ _ => rfl, List.nodup_nil, ?_, ?_, ?_⟩
    · intro t i u j a ha
      exact absurd ha List.not_mem_nil
    · intro t i a ha
      exact absurd ha List.not_mem_nil
    · intro i a
      simp [State.Block, State.Live, init]

omit [DecidableEq Tid] in
theorem poolFor_of_some {count : ℕ} (hp : s.pools t (poolIndex (sizeof T)) = some p) :
    poolFor sizeof s t T count = p := by
  rw [poolFor, hp, Option.getD_some]

theorem Inv.emplace (h : Inv sizeof s) {count : ℕ} (hcount : 1 ≤ count) :
    Inv sizeof (s.emplace sizeof t T count) := by
  set i := poolIndex (sizeof T) with hi
  set p := poolFor sizeof s t T count with hpdef
  have hpool : PoolInv s t i p := by
    cases hp : s.pools t i with
    | some q =>
      rw [hpdef, poolFor_of_some hp]
      exact h.pool t i q hp
    | none =>
      have hnil : s.chunksOf t i = [] := by
        apply List.eq_nil_iff_forall_not_mem.mpr
        intro a ha
        obtain ⟨x, hx, rfl, hxi, -⟩ := mem_chunksOf.mp ha
        exact (h.chunk x hx).pool (hxi ▸ hp)
      rw [hpdef, poolFor, hp, Option.getD_none]
      refine ⟨one_le_poolIndex _, bucketSize_eq _, hcount, ?_⟩
      rw [hnil]
      rfl
  have hhead : ∀ u j, (s.emplace sizeof t T count).headOf u j = s.headOf u j := by
    intro u j
    by_cases huj : u = t ∧ j = i
    · obtain ⟨rfl, rfl⟩ := huj
      have hself : (s.emplace sizeof u T count).headOf u i = toPtr p.head :=
        congrArg (fun q => q.bind fun p => toPtr p.head) setPool_self
      rw [hself, State.headOf]
      cases hp : s.pools u i with
      | some q =>
        rw [hpdef, poolFor_of_some hp]
        rfl
      | none =>
        rw [hpdef, poolFor, hp]
        rfl
    · exact congrArg (fun q => q.bind fun p => toPtr p.head) (setPool_other huj)
  refine ⟨h.apart, fun x hx => ?_, fun u j q hq => ?_, fun u j => ?_, h.sound.found, ?_⟩
  · obtain ⟨hpos, hindex, hheader, hold⟩ := h.chunk x hx
    refine ⟨hpos, hindex, hheader, ?_⟩
    by_cases huj : x.1 = t ∧ x.2.index = i
    · change (s.setPool t i p).pools _ _ ≠ none
      rw [huj.1, huj.2, setPool_self]
      exact Option.some_ne_none p
    · exact (setPool_other huj).trans_ne hold
  · by_cases huj : u = t ∧ j = i
    · obtain ⟨rfl, rfl⟩ := huj
      obtain rfl : p = q := Option.some.inj (setPool_self.symm.trans hq)
      exact ⟨hpool.index, hpool.size, hpool.count, hpool.chunks⟩
    · obtain ⟨hindex, hsize, hcount', hchain⟩ := h.pool u j q ((setPool_other huj).symm.trans hq)
      exact ⟨hindex, hsize, hcount', hchain⟩
  · by_cases huj : u = t ∧ j = i
    · obtain ⟨rfl, rfl⟩ := huj
      have hself : (s.emplace sizeof u T count).pools u i = some p := setPool_self
      rw [hself]
      exact iff_of_true List.mem_cons_self (Option.some_ne_none p)
    · have hother : (s.emplace sizeof t T count).pools u j = s.pools u j := setPool_other huj
      have hne : (u, j) ≠ (t, i) := fun heq => huj (Prod.mk.inj heq)
      rw [hother, ← h.gets u j]
      exact List.mem_cons.trans (or_iff_right hne)
  · obtain ⟨free, hplaced⟩ := h.sound.placed
    exact ⟨free, fun u j => (hhead u j).symm ▸ hplaced.list u j, hplaced.live, hplaced.apart,
      hplaced.not_live, hplaced.blocks⟩

omit [DecidableEq Tid] in
theorem headOf_eq (hp : s.pools t i = some p) : s.headOf t i = toPtr p.head := by
  rw [State.headOf, hp]
  rfl

omit [DecidableEq Tid] in
theorem headOf_congr {u : Tid} {j : ℕ} (hp : s'.pools u j = s.pools u j) :
    s'.headOf u j = s.headOf u j := by
  rw [State.headOf, hp, State.headOf]

theorem Inv.take (h : Inv sizeof s) (hp : s.pools t (poolIndex (sizeof T)) = some p)
    (hhead : p.head ≠ 0) : ∃ s', s.take sizeof t T = some s' ∧ Inv sizeof s' := by
  obtain ⟨free, hplaced⟩ := h.sound.placed
  obtain ⟨rest, hrest⟩ : ∃ rest, free t (poolIndex (sizeof T)) = p.head :: rest := by
    have hlist := hplaced.list t (poolIndex (sizeof T))
    rw [headOf_eq hp, toPtr_of_pos (Nat.pos_of_ne_zero hhead)] at hlist
    cases hfree : free t (poolIndex (sizeof T)) with
    | nil =>
      rw [hfree] at hlist
      cases hlist
    | cons a rest =>
      rw [hfree] at hlist
      exact ⟨rest, by rw [Option.some.inj hlist.1]⟩
  refine ⟨_, by rw [State.take, hp, Option.map_some], ?_⟩
  refine h.frame rfl rfl (setPool_shape hp rfl) (fun _ _ => rfl) ⟨h.sound.found,
    put free t (poolIndex (sizeof T)) rest, ?_⟩
  exact hplaced.take rfl hrest rfl rfl rfl (headOf_eq setPool_self)
    fun u j huj => headOf_congr (setPool_other huj)

theorem blocksOf_chunk (hpool : PoolInv s t i p) (c : ℕ) :
    blocksOf ⟨i, c, p.chunkBytes⟩ = p.blocksOf c := by
  have hcount : (p.chunkBytes - chunkHeader) / 2 ^ (i + 2) = p.count := by
    rw [Pool.chunkBytes, Nat.add_sub_cancel, hpool.size, Nat.mul_comm]
    exact Nat.mul_div_cancel _ (Nat.two_pow_pos _)
  simp only [blocksOf, Pool.blocksOf, hcount, hpool.size]

theorem chunksOf_length (s : State Tid Ty) (t : Tid) (i : ℕ) :
    (s.chunksOf t i).length ≤ s.chunks.length := by
  rw [State.chunksOf, List.length_map]
  exact List.length_filter_le _ _

theorem Inv.grow (h : Inv sizeof s) (hp : s.pools t i = some p) {c : Chunk} (hi : c.index = i)
    (hpos : 0 < c.addr) (hheader : chunkHeader ≤ c.bytes) (hfresh : ∀ x ∈ s.chunks, c.Apart x.2)
    (hself : s'.pools t i = some p')
    (hother : ∀ u j, ¬ (u = t ∧ j = i) → s'.pools u j = s.pools u j)
    (hchunks : s'.chunks = s.chunks ++ [(t, c)]) (hgets : s'.gets = s.gets)
    (hsize : p'.size = p.size) (hcount : p'.count = p.count)
    (hchain : Chain s'.mem.link (toPtr p'.chunkList) (s.chunksOf t i ++ [c.addr]))
    (hlink : ∀ x ∈ s.chunks, ¬ (x.1 = t ∧ x.2.index = i) →
      s'.mem.link x.2.addr = s.mem.link x.2.addr)
    (hsound : Sound sizeof s') : Inv sizeof s' := by
  have hpool := h.pool t i p hp
  have hnone : ∀ u j, s'.pools u j = none ↔ s.pools u j = none := by
    intro u j
    by_cases huj : u = t ∧ j = i
    · simp [huj.1, huj.2, hself, hp]
    · rw [hother u j huj]
  refine ⟨?_, fun x hx => ?_, fun u j q hq => ?_, fun u j => ?_, hsound⟩
  · rw [hchunks]
    refine List.pairwise_append.mpr ⟨h.apart, List.pairwise_singleton _ _, fun x hx y hy => ?_⟩
    rw [List.mem_singleton.mp hy]
    exact (hfresh x hx).symm
  · rw [hchunks] at hx
    rcases List.mem_append.mp hx with hx | hx
    · obtain ⟨hpos, hindex, hhdr, hold⟩ := h.chunk x hx
      exact ⟨hpos, hindex, hhdr, fun heq => hold ((hnone _ _).mp heq)⟩
    · rw [List.mem_singleton.mp hx]
      refine ⟨hpos, hi ▸ hpool.index, hheader, fun heq => ?_⟩
      have hgone := (hnone t c.index).mp heq
      rw [hi, hp] at hgone
      cases hgone
  · by_cases huj : u = t ∧ j = i
    · obtain ⟨rfl, rfl⟩ := huj
      obtain rfl : p' = q := Option.some.inj (hself.symm.trans hq)
      have hsnoc : s'.chunksOf u j = s.chunksOf u j ++ [c.addr] := by
        simp [State.chunksOf, hchunks, hi]
      exact ⟨hpool.index, hsize.trans hpool.size, hcount ▸ hpool.count, hsnoc ▸ hchain⟩
    · obtain ⟨hindex, hsz, hct, hold⟩ := h.pool u j q ((hother u j huj).symm.trans hq)
      have hsame : s'.chunksOf u j = s.chunksOf u j := by
        have hne : ¬ (t = u ∧ i = j) := fun heq => huj ⟨heq.1.symm, heq.2.symm⟩
        simp [State.chunksOf, hchunks, hi, hne]
      refine ⟨hindex, hsz, hct, ?_⟩
      rw [hsame]
      refine hold.congr fun a ha => ?_
      obtain ⟨x, hx, rfl, rfl, rfl⟩ := mem_chunksOf.mp ha
      exact hlink x hx huj
  · rw [hgets, h.gets u j, not_iff_not, hnone]

theorem Inv.pool_alloc (h : Inv sizeof s) (hp : s.pools t i = some p) {c : ℕ} (hc : 0 < c)
    (hfresh : ∀ x ∈ s.chunks, Chunk.Apart ⟨i, c, p.chunkBytes⟩ x.2) :
    ∃ p' m', p.alloc s.chunks.length s.mem c = some (p', m') ∧ p'.size = p.size ∧
      p'.count = p.count ∧ Chain m'.link (toPtr p'.chunkList) (s.chunksOf t i ++ [c]) ∧
      Chain m'.link (toPtr p'.head) (p.blocksOf c).reverse ∧
      Writes (fun w => w ∈ s.chunksOf t i ∨ OnWord c p.chunkBytes w) s.mem m' := by
  have hpool := h.pool t i p hp
  have hsize : 8 ≤ p.size := hpool.size ▸ eight_le_size hpool.index
  have hdvd : 8 ∣ p.size := by
    have hthree : 3 ≤ i + 2 := Nat.add_le_add_right hpool.index 2
    rw [hpool.size]
    exact pow_dvd_pow 2 hthree
  have hout : ∀ a ∈ s.chunksOf t i, a + chunkHeader ≤ c ∨ c + p.chunkBytes ≤ a := by
    intro a ha
    obtain ⟨x, hx, -, -, rfl⟩ := mem_chunksOf.mp ha
    rcases hfresh x hx with hle | hle
    · exact .inr hle
    · exact .inl ((Nat.add_le_add_left (h.chunk x hx).header _).trans hle)
  exact Pool.alloc_spec hpool.chunks (chunksOf_length s t i) hc hpool.count hsize hdvd hout

theorem Inv.alloc (h : Inv sizeof s) (hp : s.pools t i = some p) (hempty : p.head = 0) {c : ℕ}
    (hc : 0 < c) (hfresh : ∀ x ∈ s.chunks, Chunk.Apart ⟨i, c, p.chunkBytes⟩ x.2) :
    ∃ s' p', s.refill t i c = some s' ∧ Inv sizeof s' ∧ s'.pools t i = some p' ∧ p'.head ≠ 0 := by
  obtain ⟨free, hplaced⟩ := h.sound.placed
  have hpool := h.pool t i p hp
  have hsize : 8 ≤ p.size := hpool.size ▸ eight_le_size hpool.index
  have hdvd : 8 ∣ p.size := by
    have hthree : 3 ≤ i + 2 := Nat.add_le_add_right hpool.index 2
    rw [hpool.size]
    exact pow_dvd_pow 2 hthree
  obtain ⟨p', m', halloc, hsize', hcount', hchain, hfree, hwrites⟩ := h.pool_alloc hp hc hfresh
  have hblocks := blocksOf_chunk hpool c
  have hlink : ∀ j a, s.Block j a → m'.link a = s.mem.link a := by
    intro j a ha
    apply hwrites.link_eq
    rintro (hmem | hw)
    · obtain ⟨x, hx, -, -, heq⟩ := mem_chunksOf.mp hmem
      exact h.block_ne_header ha hx heq.symm
    · exact (h.region_apart hfresh hw).1 ha
  have hheader : ∀ x ∈ s.chunks, ¬ (x.1 = t ∧ x.2.index = i) →
      m'.link x.2.addr = s.mem.link x.2.addr := by
    intro x hx hne
    apply hwrites.link_eq
    rintro (hmem | hw)
    · exact h.header_not_mem hx hne hmem
    · exact (h.region_apart (i := i) hfresh hw).2 x hx rfl
  obtain ⟨s', hrefill, hmem, hself, hother, hchunks, hlive, hgets, hcrashed⟩ : ∃ s',
      s.refill t i c = some s' ∧ s'.mem = m' ∧ s'.pools t i = some p' ∧
        (∀ u j, ¬ (u = t ∧ j = i) → s'.pools u j = s.pools u j) ∧
        s'.chunks = s.chunks ++ [(t, ⟨i, c, p.chunkBytes⟩)] ∧ s'.live = s.live ∧
        s'.gets = s.gets ∧ s'.crashed = s.crashed := by
    refine ⟨{ s.setPool t i p' with
        mem := m', chunks := s.chunks ++ [(t, ⟨i, c, p.chunkBytes⟩)] }, ?_, rfl, setPool_self,
      fun _ _ => setPool_other, rfl, rfl, rfl, rfl⟩
    rw [State.refill, hp, Option.bind_some, if_pos hempty, halloc, Option.map_some]
  have hplaced' : Placed sizeof s' (put free t i (p.blocksOf c).reverse) := by
    have hnil : free t i = [] := by
      have hlist := hplaced.list t i
      rw [headOf_eq hp, hempty] at hlist
      exact hlist.head_eq_none.mp rfl
    apply hplaced.refill hnil rfl hchunks hlive
    · intro a
      rw [hblocks, List.mem_reverse]
    · intro j a ha
      rw [hblocks] at ha
      exact (h.region_apart hfresh (Pool.block_onWord hsize hdvd ha)).1
    · rw [headOf_eq hself, hmem]
      exact hfree
    · exact fun u j huj => headOf_congr (hother u j huj)
    · rwa [hmem]
  refine ⟨s', p', hrefill, ?_, hself, ?_⟩
  · apply h.grow hp rfl hc (Nat.le_add_left _ _) hfresh hself hother hchunks hgets hsize' hcount'
    · rw [hmem]
      exact hchain
    · rwa [hmem]
    · exact ⟨hcrashed.trans h.sound.found, _, hplaced'⟩
  · intro hzero
    rw [hzero] at hfree
    have hnil := hfree.head_eq_none.mp rfl
    rw [Pool.blocksOf_eq hpool.count, List.reverse_eq_nil_iff] at hnil
    exact absurd hnil (List.cons_ne_nil _ _)

theorem Inv.get (h : Inv sizeof s) {count c : ℕ} (hlegal : Legal sizeof s (.get t T count c)) :
    ∃ s', s.get sizeof t T count c = some s' ∧ Inv sizeof s' := by
  obtain ⟨hcount, -, hmalloc⟩ := hlegal
  have hemplace := h.emplace (t := t) (T := T) hcount
  have hself : (s.emplace sizeof t T count).pools t (poolIndex (sizeof T)) =
      some (poolFor sizeof s t T count) := setPool_self
  obtain ⟨s₁, p₁, hrefill, hinv, hp₁, hhead⟩ : ∃ s₁ p₁,
      (s.emplace sizeof t T count).refill t (poolIndex (sizeof T)) c = some s₁ ∧
        Inv sizeof s₁ ∧ s₁.pools t (poolIndex (sizeof T)) = some p₁ ∧ p₁.head ≠ 0 := by
    by_cases hempty : (poolFor sizeof s t T count).head = 0
    · obtain ⟨hc, -, -, hfresh⟩ := hmalloc hempty
      exact hemplace.alloc hself hempty hc hfresh
    · refine ⟨s.emplace sizeof t T count, poolFor sizeof s t T count, ?_, hemplace, hself, hempty⟩
      rw [State.refill, hself, Option.bind_some, if_neg hempty]
  obtain ⟨s₂, htake, hinv₂⟩ := hinv.take hp₁ hhead
  exact ⟨s₂, by rw [State.get, hrefill, Option.bind_some, htake], hinv₂⟩

theorem Inv.store_link (h : Inv sizeof s) {j a : ℕ} (ha : s.Block j a) {offset v : ℕ}
    (hoffset : offset + 8 ≤ 2 ^ (j + 2)) {x : Tid × Chunk} (hx : x ∈ s.chunks) :
    (s.mem.store (a + offset) v).link x.2.addr = s.mem.link x.2.addr := by
  apply Memory.store_link_of_ne
  have happart := h.header_apart ha hx
  simp only [chunkHeader] at happart
  omega

theorem Inv.write (h : Inv sizeof s) {ptr offset value : ℕ} (hx : (T, ptr) ∈ s.live)
    (hoffset : offset + 8 ≤ bucketSize (sizeof T)) :
    Inv sizeof { s with mem := s.mem.store (ptr + offset) value } := by
  obtain ⟨free, hplaced⟩ := h.sound.placed
  have hblock := hplaced.block_of_live hx
  rw [bucketSize_eq] at hoffset
  refine h.frame rfl rfl (fun _ _ => rfl) (fun x hx => h.store_link hblock hoffset hx)
    ⟨h.sound.found, free, ?_⟩
  refine ⟨fun u j => ?_, hplaced.live, hplaced.apart, hplaced.not_live, hplaced.blocks⟩
  refine (hplaced.list u j).congr fun a ha => Memory.store_link_of_ne ?_ _
  have hne : a ≠ ptr := by
    rintro rfl
    exact hplaced.not_live u j a ha (List.mem_map.mpr ⟨_, hx, rfl⟩)
  have hfree := hplaced.block_of_free ha
  have hsize := h.eight_le hfree
  rcases h.blocks_apart hfree hblock hne with hle | hle <;> omega

variable [DecidableEq Ty]

theorem Inv.release (h : Inv sizeof s) (hp : s.pools t (poolIndex (sizeof T)) = some p) {ptr : ℕ}
    (hx : (T, ptr) ∈ s.live) : Inv sizeof (s.release sizeof t T ptr) := by
  obtain ⟨free, hplaced⟩ := h.sound.placed
  have hblock := hplaced.block_of_live hx
  have hsize := h.eight_le hblock
  obtain ⟨s', hrelease, hmem, hself, hother, hchunks, hlive, hgets, hcrashed, hshape⟩ : ∃ s',
      s.release sizeof t T ptr = s' ∧ s'.mem = s.mem.store ptr p.head ∧
        s'.headOf t (poolIndex (sizeof T)) = some ptr ∧
        (∀ u j, ¬ (u = t ∧ j = poolIndex (sizeof T)) → s'.headOf u j = s.headOf u j) ∧
        s'.chunks = s.chunks ∧ s'.live = s.live.erase (T, ptr) ∧ s'.gets = s.gets ∧
        s'.crashed = s.crashed ∧ ∀ u j, (s'.pools u j).map shape = (s.pools u j).map shape := by
    refine ⟨{ s.setPool t (poolIndex (sizeof T)) { p with head := ptr } with
        mem := s.mem.store ptr p.head, live := s.live.erase (T, ptr) }, ?_, rfl, ?_,
      fun u j huj => ?_, rfl, rfl, rfl, rfl, setPool_shape hp rfl⟩
    · rw [State.release, hp]
      rfl
    · exact (headOf_eq setPool_self).trans (toPtr_of_pos (h.block_pos hblock))
    · exact headOf_congr (setPool_other huj)
  have hplaced' := hplaced.give rfl hx hchunks hlive hself
    (by rw [hmem, Memory.link, Memory.store_word_self, headOf_eq hp]) hother
    (fun a ha => by rw [hmem, Memory.store_link_of_ne ha])
  rw [hrelease]
  refine h.frame hchunks hgets hshape (fun x hx => ?_) ⟨hcrashed.trans h.sound.found, _, hplaced'⟩
  rw [hmem]
  have hfits : 0 + 8 ≤ 2 ^ (poolIndex (sizeof T) + 2) := by omega
  exact h.store_link hblock hfits hx

theorem Inv.step (h : Inv sizeof s) {l : Label Tid Ty} (hgot : GotBefore sizeof s l)
    (hs : step sizeof s l = some s') : Inv sizeof s' := by
  unfold TLSMemoryPool.step at hs
  split at hs
  · rename_i hok
    cases l with
    | get t T count c =>
      obtain ⟨s₁, hget, hinv⟩ := h.get hok.2
      obtain rfl : s₁ = s' := Option.some.inj (hget.symm.trans hs)
      exact hinv
    | release t T ptr =>
      obtain rfl := Option.some.inj hs
      obtain ⟨p, hp⟩ := Option.ne_none_iff_exists'.mp ((h.gets t _).mp hgot)
      exact h.release hp hok.2
    | write T ptr offset value =>
      obtain rfl := Option.some.inj hs
      exact h.write hok.2.1 hok.2.2.2
  · cases hs

theorem Inv.sound_step_iff (h : Inv sizeof s) {l : Label Tid Ty}
    (hs : TLSMemoryPool.step sizeof s l = some s') : Sound sizeof s' ↔ GotBefore sizeof s l := by
  refine ⟨fun hsound => ?_, fun hgot => (h.step hgot hs).sound⟩
  unfold TLSMemoryPool.step at hs
  split at hs
  · cases l with
    | get t T count c => trivial
    | write T ptr offset value => trivial
    | release t T ptr =>
      obtain rfl := Option.some.inj hs
      refine (h.gets t _).mpr fun hnone => ?_
      have hcrash := hsound.found
      rw [State.release, hnone] at hcrash
      cases hcrash
  · cases hs

/-- Every `Release` of a run finds a pool and every block stays in one place just when each
`Release` runs on a thread that has called `Get` for the bucket before. -/
theorem sound_iff_got_before (sizeof : Ty → ℕ) (word : ℕ → ℕ) (ls : List (Label Tid Ty)) :
    Throughout (Sound sizeof) (TLSMemoryPool.step sizeof) (init word) ls ↔
      Along (GotBefore sizeof) (TLSMemoryPool.step sizeof) (init word) ls := by
  have hinit : Inv sizeof (init word : State Tid Ty) := inv_init word
  exact throughout_iff_along_of_step (fun s h => h.sound)
    (fun s l t h hgot hs => h.step hgot hs) (fun s l t h hs => h.sound_step_iff hs) hinit

def releasedElsewhere : List (Label Bool Unit) := [.get false () 2 1024, .release true () 1048]

theorem releasedElsewhere_crashes : ∃ s,
    exec (TLSMemoryPool.step fun _ => 8) (init fun _ => 0) releasedElsewhere = some s ∧
      s.crashed = true ∧ ¬ Sound (fun _ => 8) s := by
  have h : (exec (TLSMemoryPool.step fun _ => 8) (init fun _ => 0) releasedElsewhere).map
      State.crashed = some true := by decide +kernel
  obtain ⟨s, hrun, hs⟩ := Option.map_eq_some_iff.mp h
  exact ⟨s, hrun, hs, fun hsound => Bool.false_ne_true (hsound.found.symm.trans hs)⟩

end Steps

end Bugat.TLSMemoryPool
