import Mathlib
import Bugat.Core.MemoryPool

/-!
# One pool: the chunk list and the free list

What `Alloc`, `Get` and `Release` of one pool do to its two lists, which words they
write and which they leave as they are. The loop of `Alloc` links each block of the
new chunk to the block below it, so the free list runs through the chunk downwards.
-/

namespace Bugat.MemoryPool

open LinkedChain (Chain walkLast walkLast_eq chain_cons chain_nil)

variable {m : Memory} {p p' : Pool} {a c w fuel : ℕ} {chunks free : List ℕ}

section Buckets

theorem lt_two_pow_bitWidth (x : ℕ) : x < 2 ^ bitWidth x := by
  simp only [bitWidth]
  split
  · rename_i h
    simp [h]
  · exact Nat.lt_log2_self

theorem bitWidth_two_pow_sub_one {k : ℕ} (hk : 1 ≤ k) : bitWidth (2 ^ k - 1) = k := by
  have hpow : 2 ^ k = 2 * 2 ^ (k - 1) := by
    rw [← Nat.pow_succ', Nat.succ_eq_add_one, Nat.sub_add_cancel hk]
  have hpos : 0 < 2 ^ (k - 1) := Nat.two_pow_pos _
  have hne : 2 ^ k - 1 ≠ 0 := by omega
  have hlog : (2 ^ k - 1).log2 = k - 1 := by
    rw [Nat.log2_eq_iff hne, Nat.sub_add_cancel hk]
    omega
  rw [bitWidth, if_neg hne, hlog, Nat.sub_add_cancel hk]

theorem three_le_bitWidth {x : ℕ} (h : 7 ≤ x) : 3 ≤ bitWidth x := by
  by_contra hlt
  have hup := lt_two_pow_bitWidth x
  have hpow : 2 ^ bitWidth x ≤ 2 ^ 2 := Nat.pow_le_pow_right (by decide) (by omega)
  omega

theorem bucketSize_eq_two_pow (n : ℕ) : bucketSize n = 2 ^ bitWidth (max n 8 - 1) := by
  rw [bucketSize, bitCeil, if_neg (by omega)]

/-- The two bit tricks agree: the index of a bucket determines its size. -/
theorem bucketSize_eq (n : ℕ) : bucketSize n = 2 ^ (poolIndex n + 2) := by
  have hk : 3 ≤ bitWidth (max n 8 - 1) := three_le_bitWidth (by omega)
  have height : 2 ^ 3 ≤ 2 ^ bitWidth (max n 8 - 1) := Nat.pow_le_pow_right (by decide) hk
  have hmax : max (2 ^ bitWidth (max n 8 - 1)) 8 = 2 ^ bitWidth (max n 8 - 1) := max_eq_left height
  rw [poolIndex, getSizeIndexBitwise, bucketSize_eq_two_pow, hmax,
    bitWidth_two_pow_sub_one (by omega), Nat.sub_add_cancel (by omega)]

theorem le_bucketSize (n : ℕ) : n ≤ bucketSize n := by
  have hlt := lt_two_pow_bitWidth (max n 8 - 1)
  rw [bucketSize_eq_two_pow]
  omega

theorem eight_dvd_bucketSize (n : ℕ) : 8 ∣ bucketSize n := by
  rw [bucketSize_eq_two_pow]
  exact pow_dvd_pow 2 (three_le_bitWidth (by omega) : 3 ≤ _)

end Buckets

theorem toPtr_of_pos (h : 0 < a) : toPtr a = some a := if_neg h.ne'

theorem toPtr_eq_some : toPtr w = some a ↔ w = a ∧ 0 < a := by
  by_cases hw : w = 0
  · subst hw
    simp only [toPtr, if_true, reduceCtorEq, false_iff, not_and, not_lt]
    rintro rfl
    exact le_rfl
  · simp only [toPtr, if_neg hw, Option.some.injEq, iff_self_and]
    rintro rfl
    exact Nat.pos_of_ne_zero hw

theorem toPtr_eq_none : toPtr w = none ↔ w = 0 := by
  simp [toPtr]

def OnWord (c bytes w : ℕ) : Prop := ∃ k, w = c + 8 * k ∧ 8 * k + 8 ≤ bytes

theorem OnWord.inside {bytes : ℕ} (h : OnWord c bytes w) : c ≤ w ∧ w + 8 ≤ c + bytes := by
  obtain ⟨k, rfl, hk⟩ := h
  omega

namespace Memory

@[simp] theorem store_word_self (m : Memory) (a v : ℕ) : (m.store a v).word a = v := by
  simp [store]

theorem store_word_of_ne {b : ℕ} (h : b ≠ a) (v : ℕ) : (m.store a v).word b = m.word b := by
  simp [store, h]

theorem store_link_of_ne {b : ℕ} (h : b ≠ a) (v : ℕ) : (m.store a v).link b = m.link b := by
  rw [link, store_word_of_ne h, link]

def Writes (P : ℕ → Prop) (m m' : Memory) : Prop :=
  ∃ new, m'.written = new ++ m.written ∧ (∀ w ∈ new, P w) ∧ ∀ a, a ∉ new → m'.word a = m.word a

variable {P Q : ℕ → Prop} {m₁ m₂ : Memory}

theorem Writes.refl (P : ℕ → Prop) (m : Memory) : Writes P m m :=
  ⟨[], rfl, by simp, fun _ _ => rfl⟩

theorem writes_store (h : P a) (v : ℕ) : Writes P m (m.store a v) :=
  ⟨[a], rfl, by simpa using h, fun b hb => store_word_of_ne (by simpa using hb) v⟩

theorem Writes.trans (h₁ : Writes P m m₁) (h₂ : Writes P m₁ m₂) : Writes P m m₂ := by
  obtain ⟨new₁, hlog₁, hP₁, hframe₁⟩ := h₁
  obtain ⟨new₂, hlog₂, hP₂, hframe₂⟩ := h₂
  refine ⟨new₂ ++ new₁, by rw [hlog₂, hlog₁, List.append_assoc], fun w hw => ?_, fun a ha => ?_⟩
  · exact (List.mem_append.mp hw).elim (hP₂ w) (hP₁ w)
  · rw [List.mem_append, not_or] at ha
    rw [hframe₂ a ha.1, hframe₁ a ha.2]

theorem Writes.mono (h : Writes P m m₁) (hPQ : ∀ w, P w → Q w) : Writes Q m m₁ := by
  obtain ⟨new, hlog, hP, hframe⟩ := h
  exact ⟨new, hlog, fun w hw => hPQ w (hP w hw), hframe⟩

theorem Writes.word_eq (h : Writes P m m₁) (ha : ¬ P a) : m₁.word a = m.word a := by
  obtain ⟨new, -, hP, hframe⟩ := h
  exact hframe a fun hmem => ha (hP a hmem)

theorem Writes.link_eq (h : Writes P m m₁) (ha : ¬ P a) : m₁.link a = m.link a := by
  rw [link, h.word_eq ha, link]

theorem Writes.chain (h : Writes P m m₁) {q : Option ℕ} {as : List ℕ} (hc : Chain m.link q as)
    (has : ∀ a ∈ as, ¬ P a) : Chain m₁.link q as :=
  hc.congr fun a ha => h.link_eq (has a ha)

theorem Writes.of_mem {word : ℕ → ℕ} (h : Writes P ⟨word, []⟩ m₁) (hw : w ∈ m₁.written) :
    P w := by
  obtain ⟨new, hlog, hP, -⟩ := h
  rw [hlog, List.append_nil] at hw
  exact hP w hw

theorem Writes.of_notMem {word : ℕ → ℕ} (h : Writes P ⟨word, []⟩ m₁) (hw : w ∉ m₁.written) :
    m₁.word w = word w := by
  obtain ⟨new, hlog, -, hframe⟩ := h
  rw [hlog, List.append_nil] at hw
  exact hframe w hw

theorem zero_word {n k : ℕ} (hk : k < n) : (m.zero a n).word (a + 8 * k) = 0 := by
  induction n with
  | zero => omega
  | succ n ih =>
    by_cases heq : k = n
    · rw [zero, heq, store_word_self]
    · rw [zero, store_word_of_ne (by omega), ih (by omega)]

theorem writes_zero (m : Memory) (a bytes : ℕ) :
    Writes (OnWord a bytes) m (m.zero a (bytes / 8)) := by
  have hloop : ∀ n, 8 * n ≤ bytes → Writes (OnWord a bytes) m (m.zero a n) := by
    intro n
    induction n with
    | zero => exact fun _ => Writes.refl _ m
    | succ n ih => exact fun hn => (ih (by omega)).trans (writes_store ⟨n, rfl, by omega⟩ 0)
  exact hloop _ (Nat.mul_div_le bytes 8)

end Memory

open Memory (Writes)

namespace Pool

def upward (size n head : ℕ) : List ℕ := (List.range n).map fun k => head + (k + 1) * size

theorem upward_succ (size n head : ℕ) :
    upward size (n + 1) head = (head + size) :: upward size n (head + size) := by
  simp only [upward, List.range_succ_eq_map, List.map_cons, List.map_map, zero_add, one_mul]
  congr 1
  apply List.map_congr_left
  intro k _
  simp only [Function.comp, Nat.succ_eq_add_one]
  ring

theorem blocksOf_eq (h : 1 ≤ p.count) (c : ℕ) :
    p.blocksOf c = (c + chunkHeader) :: upward p.size (p.count - 1) (c + chunkHeader) := by
  obtain ⟨n, hn⟩ := Nat.exists_eq_add_of_le' h
  simp only [blocksOf, upward, hn, Nat.add_sub_cancel, List.range_succ_eq_map, List.map_cons,
    List.map_map, zero_mul, add_zero]
  rfl

theorem linkBlocks_spec {size n head : ℕ} (hsize : 0 < size) (hpos : 0 < head)
    (hfree : Chain m.link (some head) free) (hbelow : ∀ a ∈ free, a ≤ head) :
    ∃ head' m', linkBlocks size n head m = (head', m') ∧
      Chain m'.link (toPtr head') ((upward size n head).reverse ++ free) ∧
      Writes (fun w => w ∈ upward size n head) m m' := by
  induction n generalizing head m free with
  | zero =>
    refine ⟨head, m, rfl, ?_, Writes.refl _ m⟩
    rw [toPtr_of_pos hpos]
    exact hfree
  | succ n ih =>
    have hstore : Writes (fun w => w ∈ upward size (n + 1) head) m (m.store (head + size) head) :=
      Memory.writes_store (by rw [upward_succ]; exact List.mem_cons_self) head
    have hchain : Chain (m.store (head + size) head).link (some (head + size))
        ((head + size) :: free) := by
      refine ⟨rfl, ?_⟩
      rw [Memory.link, Memory.store_word_self, toPtr_of_pos hpos]
      refine hfree.congr fun a ha => Memory.store_link_of_ne ?_ head
      have := hbelow a ha
      omega
    obtain ⟨head', m', hrun, hchain', hwrites⟩ := ih (by omega) hchain fun a ha => by
      rcases List.mem_cons.mp ha with rfl | ha
      · exact le_rfl
      · exact (hbelow a ha).trans (Nat.le_add_right _ _)
    refine ⟨head', m', hrun, ?_, hstore.trans (hwrites.mono fun w hw => ?_)⟩
    · rw [upward_succ, List.reverse_cons, List.append_assoc]
      exact hchain'
    · rw [upward_succ]
      exact List.mem_cons_of_mem _ hw

theorem mem_blocksOf : a ∈ p.blocksOf c ↔ ∃ k < p.count, c + chunkHeader + k * p.size = a := by
  simp [blocksOf]

theorem block_inside (h : a ∈ p.blocksOf c) :
    c + chunkHeader ≤ a ∧ a + p.size ≤ c + p.chunkBytes := by
  obtain ⟨k, hk, rfl⟩ := mem_blocksOf.mp h
  have hle : (k + 1) * p.size ≤ p.count * p.size := Nat.mul_le_mul_right _ hk
  have hcomm : p.size * p.count = p.count * p.size := Nat.mul_comm _ _
  rw [Nat.succ_mul] at hle
  simp only [chunkBytes]
  omega

theorem block_onWord (hsize : 8 ≤ p.size) (hdvd : 8 ∣ p.size) (h : a ∈ p.blocksOf c) :
    OnWord c p.chunkBytes a := by
  obtain ⟨-, hend⟩ := block_inside h
  obtain ⟨k, -, rfl⟩ := mem_blocksOf.mp h
  obtain ⟨j, hj⟩ := hdvd
  have heq : c + chunkHeader + k * p.size = c + 8 * (2 + k * j) := by
    rw [hj, chunkHeader]
    ring
  exact ⟨2 + k * j, heq, by omega⟩

theorem allocChunk_spec (hfirst : chunkHeader + 8 ≤ p.chunkBytes) (m : Memory) (c : ℕ) :
    (p.allocChunk m c).word c = 0 ∧ (p.allocChunk m c).word (c + 8) = c + chunkHeader ∧
    (p.allocChunk m c).word (c + chunkHeader) = 0 ∧
    Writes (OnWord c p.chunkBytes) m (p.allocChunk m c) := by
  simp only [chunkHeader] at hfirst ⊢
  have hzero := Memory.zero_word (m := m) (a := c) (by omega : 2 < p.chunkBytes / 8)
  refine ⟨?_, by rw [allocChunk, Memory.store_word_self, chunkHeader], ?_, ?_⟩
  · rw [allocChunk, Memory.store_word_of_ne (by omega), Memory.store_word_self]
  · rw [allocChunk, Memory.store_word_of_ne (by omega), Memory.store_word_of_ne (by omega)]
    exact hzero
  · exact ((Memory.writes_zero m c p.chunkBytes).trans
      (Memory.writes_store ⟨0, rfl, by omega⟩ 0)).trans
      (Memory.writes_store ⟨1, rfl, by omega⟩ _)

theorem linkChunk_spec (hchunks : Chain m.link (toPtr p.chunkList) chunks)
    (hfuel : chunks.length ≤ fuel) (hc : 0 < c) (hnew : m.word c = 0) (hout : c ∉ chunks) :
    ∃ m' first, linkChunk fuel p m c = some (m', first) ∧
      Chain m'.link (toPtr first) (chunks ++ [c]) ∧ Writes (fun w => w ∈ chunks) m m' := by
  have hend : m.link c = none := toPtr_eq_none.mpr hnew
  cases hfirst : toPtr p.chunkList with
  | none =>
    rw [hfirst] at hchunks
    obtain rfl := hchunks.head_eq_none.mp rfl
    refine ⟨m, c, by rw [linkChunk, hfirst], ?_, Writes.refl _ m⟩
    rw [toPtr_of_pos hc]
    exact ⟨rfl, hend⟩
  | some first =>
    rw [hfirst] at hchunks
    have hne : chunks ≠ [] := fun hnil => Option.some_ne_none _ (hchunks.head_eq_none.mpr hnil)
    have hlast := walkLast_eq hchunks hne hfuel
    have hmem := List.getLast_mem hne
    refine ⟨m.store (chunks.getLast hne) c, p.chunkList, by rw [linkChunk, hfirst]; simp [hlast],
      ?_, Memory.writes_store hmem c⟩
    rw [hfirst]
    refine hchunks.snoc hne ?_ ?_ fun b _ hb => Memory.store_link_of_ne hb c
    · rw [Memory.link, Memory.store_word_self, toPtr_of_pos hc]
    · rw [Memory.store_link_of_ne (ne_of_mem_of_not_mem hmem hout).symm, hend]

theorem alloc_spec (hchunks : Chain m.link (toPtr p.chunkList) chunks)
    (hfuel : chunks.length ≤ fuel) (hc : 0 < c) (hcount : 1 ≤ p.count) (hsize : 8 ≤ p.size)
    (hdvd : 8 ∣ p.size) (hout : ∀ a ∈ chunks, a + chunkHeader ≤ c ∨ c + p.chunkBytes ≤ a) :
    ∃ p' m', alloc fuel p m c = some (p', m') ∧ p'.size = p.size ∧ p'.count = p.count ∧
      Chain m'.link (toPtr p'.chunkList) (chunks ++ [c]) ∧
      Chain m'.link (toPtr p'.head) (p.blocksOf c).reverse ∧
      Writes (fun w => w ∈ chunks ∨ OnWord c p.chunkBytes w) m m' := by
  have hfirst : c + chunkHeader ∈ p.blocksOf c := by
    rw [blocksOf_eq hcount]
    exact List.mem_cons_self
  obtain ⟨-, hend⟩ := block_inside hfirst
  have hblocks : ∀ a ∈ upward p.size (p.count - 1) (c + chunkHeader), a ∈ p.blocksOf c :=
    fun a ha => by
      rw [blocksOf_eq hcount]
      exact List.mem_cons_of_mem _ ha
  have hnot : ∀ a, c ≤ a → a < c + p.chunkBytes → a ∉ chunks := fun a hlo hhi ha => by
    have := hout a ha
    simp only [chunkHeader] at this
    omega
  obtain ⟨hnext, hptr, hzero, hwrites₀⟩ := allocChunk_spec (p := p) (by omega) m c
  have hchain₀ := hwrites₀.chain hchunks fun a ha hw => by
    obtain ⟨hlo, hhi⟩ := hw.inside
    exact hnot a hlo (by omega) ha
  simp only [chunkHeader] at hptr hzero hend
  obtain ⟨m₁, first, hlink, hchain₁, hwrites₁⟩ :=
    linkChunk_spec hchain₀ hfuel hc hnext (hnot c le_rfl (by omega))
  have hptr₁ : m₁.word (c + 8) = c + chunkHeader := by
    rw [hwrites₁.word_eq (hnot _ (by omega) (by omega)), hptr, chunkHeader]
  have hfree₁ : Chain m₁.link (some (c + chunkHeader)) [c + chunkHeader] := by
    refine ⟨rfl, toPtr_eq_none.mpr ?_⟩
    rw [chunkHeader, hwrites₁.word_eq (hnot _ (by omega) (by omega)), hzero]
  obtain ⟨head, m₂, hrun, hfree₂, hwrites₂⟩ :=
    linkBlocks_spec (n := p.count - 1) (by omega : 0 < p.size) (by omega) hfree₁
      fun a ha => (List.mem_singleton.mp ha).le
  refine ⟨{ p with chunkList := first, head := head }, m₂, ?_, rfl, rfl, ?_, ?_, ?_⟩
  · rw [alloc, hlink, Option.map_some]
    simp only [hptr₁, hrun]
  · refine hwrites₂.chain hchain₁ fun a ha hup => ?_
    obtain ⟨hlo, hhi⟩ := block_inside (hblocks a hup)
    simp only [chunkHeader] at hlo
    rcases List.mem_append.mp ha with ha | ha
    · exact hnot a (by omega) (by omega) ha
    · rw [List.mem_singleton] at ha
      omega
  · rw [blocksOf_eq hcount, List.reverse_cons]
    exact hfree₂
  · exact ((hwrites₀.mono fun w hw => .inr hw).trans (hwrites₁.mono fun w hw => .inl hw)).trans
      (hwrites₂.mono fun w hw => .inr (block_onWord hsize hdvd (hblocks w hw)))

end Pool

end Bugat.MemoryPool
