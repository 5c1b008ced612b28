import Mathlib
import Bugat.Core.TLSMemoryPoolPlaces

/-!
# The alignment of the blocks

The blocks of a chunk follow its header of 16 bytes at distances of whole blocks, and a
block is at least as large as the alignment of each type of its bucket. So all the blocks of
a chunk are aligned for a type or none is, whichever type the chunk was carved for.
-/

namespace Bugat.TLSMemoryPool

open LinkedChain (Chain)
open MemoryPool (Pool Chunk chunkHeader toPtr toPtr_of_pos toPtr_eq_some bucketSize bucketSize_eq
  le_bucketSize poolIndex)
open Transition (exec Along Throughout Along.mono along_congr along_label
  throughout_iff_along_of_step)

variable {Tid Ty : Type*}

structure Layout (sizeof alignof : Ty → ℕ) : Prop where
  pos : ∀ T, 0 < sizeof T
  two_pow : ∀ T, ∃ k, alignof T = 2 ^ k
  dvd : ∀ T, alignof T ∣ sizeof T

def Aligned (alignof : Ty → ℕ) (s : State Tid Ty) : Prop := ∀ x ∈ s.live, alignof x.1 ∣ x.2

instance (alignof : Ty → ℕ) (s : State Tid Ty) : Decidable (Aligned alignof s) :=
  inferInstanceAs (Decidable (∀ x ∈ s.live, alignof x.1 ∣ x.2))

def ChunkFits (align c : ℕ) : Prop := align ∣ c + chunkHeader

/-- `Get` takes its block from a chunk that fits the type: from a new one if the free list is
empty, else from the chunk of the first free block. -/
def FromFittingChunk (sizeof alignof : Ty → ℕ) (s : State Tid Ty) : Label Tid Ty → Prop
  | .get t T count c =>
    let p := poolFor sizeof s t T count
    if p.head = 0 then ChunkFits (alignof T) c
    else ∀ x ∈ s.chunks, p.head ∈ blocksOf x.2 → ChunkFits (alignof T) x.2.addr
  | _ => True

section Blocks

variable {sizeof alignof : Ty → ℕ} {T : Ty} {a : ℕ}

theorem Layout.dvd_bucketSize (hl : Layout sizeof alignof) (T : Ty) :
    alignof T ∣ bucketSize (sizeof T) := by
  obtain ⟨k, hk⟩ := hl.two_pow T
  have hle : alignof T ≤ bucketSize (sizeof T) :=
    (Nat.le_of_dvd (hl.pos T) (hl.dvd T)).trans (le_bucketSize _)
  rw [hk, bucketSize_eq] at hle ⊢
  exact pow_dvd_pow 2 ((Nat.pow_le_pow_iff_right (by decide)).mp hle)

theorem Layout.dvd_block_iff (hl : Layout sizeof alignof) {c : Chunk}
    (hi : c.index = poolIndex (sizeof T)) (ha : a ∈ blocksOf c) :
    alignof T ∣ a ↔ ChunkFits (alignof T) c.addr := by
  obtain ⟨k, -, rfl⟩ := mem_blocksOf.mp ha
  have hsize : alignof T ∣ k * 2 ^ (c.index + 2) := by
    rw [hi, ← bucketSize_eq]
    exact (hl.dvd_bucketSize T).mul_left k
  exact Nat.dvd_add_left hsize

theorem Layout.chunkFits (hl : Layout sizeof alignof) (hle : alignof T ≤ 16) (ha : 16 ∣ a) :
    ChunkFits (alignof T) a := by
  obtain ⟨k, hk⟩ := hl.two_pow T
  have hdvd : alignof T ∣ 16 := by
    rw [hk] at hle ⊢
    exact pow_dvd_pow 2 ((Nat.pow_le_pow_iff_right (by decide)).mp (show 2 ^ k ≤ 2 ^ 4 from hle))
  exact (hdvd.trans ha).add hdvd

end Blocks

section Steps

variable [DecidableEq Tid] {sizeof alignof : Ty → ℕ} {s s' : State Tid Ty} {t : Tid} {T : Ty}
  {count c : ℕ}

theorem Inv.head_block (h : Inv sizeof s) {i : ℕ} {p : Pool} (hp : s.pools t i = some p)
    (hhead : p.head ≠ 0) : s.Block i p.head := by
  obtain ⟨free, hplaced⟩ := h.sound.placed
  have hlist := hplaced.list t i
  rw [headOf_eq hp, toPtr_of_pos (Nat.pos_of_ne_zero hhead)] at hlist
  apply hplaced.block_of_free (t := t)
  exact hlist.head_mem

theorem Inv.get_live (h : Inv sizeof s) (hlegal : Legal sizeof s (.get t T count c))
    (hget : s.get sizeof t T count c = some s') :
    ∃ x a, a ∈ blocksOf x ∧ x.index = poolIndex (sizeof T) ∧ s'.live = (T, a) :: s.live ∧
      if (poolFor sizeof s t T count).head = 0 then
        x.addr = c ∧ s'.chunks = s.chunks ++ [(t, x)]
      else a = (poolFor sizeof s t T count).head ∧ s'.chunks = s.chunks ∧
        ∃ u, (u, x) ∈ s.chunks := by
  obtain ⟨hcount, -, hmalloc⟩ := hlegal
  have hinv := h.emplace (t := t) (T := T) hcount
  have hself : (s.emplace sizeof t T count).pools t (poolIndex (sizeof T)) =
      some (poolFor sizeof s t T count) := setPool_self
  by_cases hempty : (poolFor sizeof s t T count).head = 0
  · obtain ⟨hc, -, -, hfresh⟩ := hmalloc hempty
    obtain ⟨p', m', halloc, -, -, -, hfree, -⟩ := hinv.pool_alloc hself hc hfresh
    have hpool := hinv.pool _ _ _ hself
    have hmem : p'.head ∈ (poolFor sizeof s t T count).blocksOf c := by
      have hne : ((poolFor sizeof s t T count).blocksOf c).reverse ≠ [] := by
        rw [Pool.blocksOf_eq hpool.count]
        simp
      obtain ⟨b, rest, hblocks⟩ := List.exists_cons_of_ne_nil hne
      rw [hblocks] at hfree
      rw [(toPtr_eq_some.mp hfree.1).1, ← List.mem_reverse, hblocks]
      exact List.mem_cons_self
    rw [State.get, State.refill, hself, Option.bind_some, if_pos hempty, halloc,
      Option.map_some, Option.bind_some, State.take, setPool_self] at hget
    obtain rfl := Option.some.inj hget
    refine ⟨⟨_, c, (poolFor sizeof s t T count).chunkBytes⟩, p'.head, ?_, rfl, rfl, ?_⟩
    · exact (blocksOf_chunk hpool c).symm ▸ hmem
    · rw [if_pos hempty]
      exact ⟨rfl, rfl⟩
  · obtain ⟨x, hx, hi, ha⟩ := hinv.head_block hself hempty
    rw [State.get, State.refill, hself, Option.bind_some, if_neg hempty, Option.bind_some,
      State.take, hself] at hget
    obtain rfl := Option.some.inj hget
    refine ⟨x.2, _, ha, hi, rfl, ?_⟩
    rw [if_neg hempty]
    exact ⟨rfl, rfl, x.1, hx⟩

theorem Inv.chunk_unique (h : Inv sizeof s) {x y : Tid × Chunk} {a : ℕ} (hx : x ∈ s.chunks)
    (hy : y ∈ s.chunks) (hax : a ∈ blocksOf x.2) (hay : a ∈ blocksOf y.2) : x = y := by
  by_contra hne
  have hxIn := block_inside (h.chunk x hx).header hax
  have hyIn := block_inside (h.chunk y hy).header hay
  have hxPos := Nat.two_pow_pos (x.2.index + 2)
  have hyPos := Nat.two_pow_pos (y.2.index + 2)
  rcases h.chunk_apart hx hy hne with hle | hle <;> omega

theorem Inv.aligned_get_iff (h : Inv sizeof s) (hl : Layout sizeof alignof)
    (hlegal : Legal sizeof s (.get t T count c)) (ha : Aligned alignof s)
    (hget : s.get sizeof t T count c = some s') :
    Aligned alignof s' ↔ FromFittingChunk sizeof alignof s (.get t T count c) := by
  obtain ⟨x, a, hblock, hi, hlive, hsource⟩ := h.get_live hlegal hget
  have hnew : Aligned alignof s' ↔ alignof T ∣ a := by
    rw [Aligned, hlive, List.forall_mem_cons]
    exact and_iff_left ha
  rw [hnew, FromFittingChunk]
  split at hsource
  · rename_i hempty
    rw [if_pos hempty, hl.dvd_block_iff hi hblock, hsource.1]
  · rename_i hhead
    obtain ⟨rfl, -, u, hx⟩ := hsource
    rw [if_neg hhead]
    constructor
    · intro hdvd y hy hmem
      have hxy : y = (u, x) := h.chunk_unique hy hx hmem hblock
      rw [hxy]
      exact (hl.dvd_block_iff hi hblock).mp hdvd
    · intro hfits
      exact (hl.dvd_block_iff hi hblock).mpr (hfits _ hx hblock)

variable [DecidableEq Ty] {l : Label Tid Ty}

theorem inv_step_of_uncrashed (h : s.crashed = false → Inv sizeof s)
    (hs : step sizeof s l = some s') (hcrashed : s'.crashed = false) : Inv sizeof s' := by
  have hok : s.crashed = false := by
    unfold TLSMemoryPool.step at hs
    split at hs
    · rename_i hok
      exact hok.1
    · cases hs
  have hgot : GotBefore sizeof s l := by
    cases l with
    | release t T ptr =>
      apply ((h hok).gets t _).mpr
      intro hp
      unfold TLSMemoryPool.step at hs
      split at hs
      · obtain rfl := Option.some.inj hs
        rw [State.release, hp] at hcrashed
        cases hcrashed
      · cases hs
    | get t T count c => trivial
    | write T ptr offset value => trivial
  exact (h hok).step hgot hs

theorem aligned_step_iff (hl : Layout sizeof alignof) (h : s.crashed = false → Inv sizeof s)
    (ha : Aligned alignof s) (hs : step sizeof s l = some s') :
    Aligned alignof s' ↔ FromFittingChunk sizeof alignof s l := by
  unfold TLSMemoryPool.step at hs
  split at hs
  · rename_i hok
    cases l with
    | get t T count c => exact (h hok.1).aligned_get_iff hl hok.2 ha hs
    | release t T ptr =>
      obtain rfl := Option.some.inj hs
      refine iff_of_true ?_ trivial
      rw [State.release]
      split
      · exact fun x hx => ha x (List.mem_of_mem_erase hx)
      · exact ha
    | write T ptr offset value =>
      obtain rfl := Option.some.inj hs
      exact iff_of_true ha trivial
  · cases hs

/-- `malloc` returns multiples of 16, and no type asks for more. -/
def Fundamental (alignof : Ty → ℕ) : Label Tid Ty → Prop
  | .get _ T _ c => 16 ∣ c ∧ alignof T ≤ 16
  | _ => True

theorem chunks_sixteen_step (h : ∀ x ∈ s.chunks, 16 ∣ x.2.addr)
    (hinv : s.crashed = false → Inv sizeof s) (hf : Fundamental alignof l)
    (hs : step sizeof s l = some s') :
    ∀ x ∈ s'.chunks, 16 ∣ x.2.addr := by
  unfold TLSMemoryPool.step at hs
  split at hs
  · rename_i hok
    cases l with
    | get t T count c =>
      obtain ⟨y, a, -, -, -, hsource⟩ := (hinv hok.1).get_live hok.2 hs
      split at hsource
      · rw [hsource.2]
        intro x hx
        rcases List.mem_append.mp hx with hx | hx
        · exact h x hx
        · rw [List.mem_singleton.mp hx, hsource.1]
          exact hf.1
      · exact hsource.2.1 ▸ h
    | release t T ptr =>
      obtain rfl := Option.some.inj hs
      rw [State.release]
      split
      · exact h
      · exact h
    | write T ptr offset value =>
      obtain rfl := Option.some.inj hs
      exact h
  · cases hs

omit [DecidableEq Tid] [DecidableEq Ty] in
theorem fromFittingChunk_of_fundamental (hl : Layout sizeof alignof)
    (h : ∀ x ∈ s.chunks, 16 ∣ x.2.addr) (hf : Fundamental alignof l) :
    FromFittingChunk sizeof alignof s l := by
  cases l with
  | get t T count c =>
    rw [FromFittingChunk]
    split
    · exact hl.chunkFits hf.2 hf.1
    · exact fun x hx _ => hl.chunkFits hf.2 (h x hx)
  | release t T ptr => trivial
  | write T ptr offset value => trivial

theorem along_fromFittingChunk (hl : Layout sizeof alignof) (word : ℕ → ℕ)
    {ls : List (Label Tid Ty)} (hf : ∀ l ∈ ls, Fundamental alignof l) :
    Along (FromFittingChunk sizeof alignof) (TLSMemoryPool.step sizeof) (init word) ls := by
  have hlabels : Along (fun _ l => Fundamental alignof l) (TLSMemoryPool.step sizeof)
      (init word) ls := along_label hf
  have hboth : Along (fun s l => Fundamental alignof l ∧ FromFittingChunk sizeof alignof s l)
      (TLSMemoryPool.step sizeof) (init word) ls := by
    refine (along_congr (I := fun s : State Tid Ty =>
      (s.crashed = false → Inv sizeof s) ∧ ∀ x ∈ s.chunks, 16 ∣ x.2.addr) ?_ ?_ ?_).mp hlabels
    · intro s l s' hs _
      exact (and_iff_left_of_imp fun hf => fromFittingChunk_of_fundamental hl hs.2 hf).symm
    · intro s l s' hs hf hstep
      exact ⟨inv_step_of_uncrashed hs.1 hstep, chunks_sixteen_step hs.2 hs.1 hf hstep⟩
    · exact ⟨fun _ => inv_init word, fun x hx => absurd hx List.not_mem_nil⟩
  exact hboth.mono fun s l h => h.2

/-- The blocks that `Get` returns are aligned for their types in a run just when each comes
from a chunk that fits its type, which is no condition for the alignments up to 16. -/
theorem aligned_iff_from_fitting_chunk (hl : Layout sizeof alignof) (word : ℕ → ℕ)
    (ls : List (Label Tid Ty)) :
    (Throughout (Aligned alignof) (TLSMemoryPool.step sizeof) (init word) ls ↔
      Along (FromFittingChunk sizeof alignof) (TLSMemoryPool.step sizeof) (init word) ls) ∧
    ((∀ l ∈ ls, Fundamental alignof l) →
      Throughout (Aligned alignof) (TLSMemoryPool.step sizeof) (init word) ls) := by
  have hiff : Throughout (Aligned alignof) (TLSMemoryPool.step sizeof) (init word) ls ↔
      Along (FromFittingChunk sizeof alignof) (TLSMemoryPool.step sizeof) (init word) ls := by
    apply throughout_iff_along_of_step
      (I := fun s : State Tid Ty => (s.crashed = false → Inv sizeof s) ∧ Aligned alignof s)
    · exact fun s h => h.2
    · intro s l s' h hok hs
      exact ⟨inv_step_of_uncrashed h.1 hs, (aligned_step_iff hl h.1 h.2 hs).mpr hok⟩
    · exact fun s l s' h hs => aligned_step_iff hl h.1 h.2 hs
    · exact ⟨fun _ => inv_init word, fun x hx => absurd hx List.not_mem_nil⟩
  exact ⟨hiff, fun hf => hiff.mpr (along_fromFittingChunk hl word hf)⟩

def sharedBucket : List (Label Unit Bool) :=
  [.get () false 2 1024, .release () false 1072, .get () true 2 4096]

theorem sharedBucket_aligned :
    (exec (TLSMemoryPool.step fun T => cond T 32 24) (init fun _ => 0) sharedBucket).map
      State.live = some [(true, 1072)] ∧
    Throughout (Aligned fun T => cond T 16 8) (TLSMemoryPool.step fun T => cond T 32 24)
      (init fun _ => 0) sharedBucket := by
  have hl : Layout (fun T => cond T 32 24) (fun T => cond T 16 8) := by
    refine ⟨by decide, fun T => ?_, by decide⟩
    cases T with
    | false => exact ⟨3, rfl⟩
    | true => exact ⟨4, rfl⟩
  have hf : ∀ l ∈ sharedBucket, Fundamental (fun T => cond T 16 8) l := by
    simp [sharedBucket, Fundamental]
  exact ⟨by decide +kernel, (aligned_iff_from_fitting_chunk hl (fun _ => 0) sharedBucket).2 hf⟩

def cacheLine : List (Label Unit Unit) := [.get () () 1 64]

theorem cacheLine_misaligned : ∃ s,
    exec (TLSMemoryPool.step fun _ => 64) (init fun _ => 0) cacheLine = some s ∧
      Layout (fun _ : Unit => 64) (fun _ => 64) ∧ 16 ∣ 64 ∧ s.live = [((), 80)] ∧
      ¬ Aligned (fun _ => 64) s := by
  have h : (exec (TLSMemoryPool.step fun _ => 64) (init fun _ => 0) cacheLine).map
      State.live = some [((), 80)] := by decide +kernel
  obtain ⟨s, hrun, hlive⟩ := Option.map_eq_some_iff.mp h
  refine ⟨s, hrun, ⟨by decide, fun _ => ⟨6, rfl⟩, by decide⟩, by decide, hlive, ?_⟩
  rw [Aligned, hlive]
  decide

end Steps

end Bugat.TLSMemoryPool
