import Mathlib
import Bugat.Lib.MachineInt

/-!
# DataBlock: the receive buffer

`DataBlock<Size>` is an array of `Size * 5` bytes with two `int` cursors. Reads
through `&_buf[pos]` are not checked by the code, so the bytes are modelled as the
memory around the array: positions outside `[0, MaxSize)` hold whatever lies there.
Additions on the cursors wrap at 32 bits.
-/

namespace Bugat

open MachineInt (wrap32 wrap32_of_mem int32LE int32Max)

structure DataBlock where
  buf : ℤ → UInt8
  head : ℤ
  tail : ℤ

namespace DataBlock

def maxSize (size : ℤ) : ℤ := size * 5

def construct (size : ℤ) (memory : ℤ → UInt8) : DataBlock :=
  ⟨fun p => if 0 ≤ p ∧ p < maxSize size then 0 else memory p, 0, 0⟩

def getRemainSize (size : ℤ) (b : DataBlock) : ℤ := wrap32 (maxSize size - b.tail)

def getDataSize (b : DataBlock) : ℤ := wrap32 (b.tail - b.head)

def consume (b : DataBlock) (size : ℤ) : Bool × DataBlock :=
  if size > b.getDataSize then (false, b) else (true, { b with head := wrap32 (b.head + size) })

def update (maxBytes : ℤ) (b : DataBlock) (size : ℤ) : Bool × DataBlock :=
  if wrap32 (b.tail + size) > maxSize maxBytes then (false, b)
  else (true, { b with tail := wrap32 (b.tail + size) })

def write (b : DataBlock) (pos : ℤ) (xs : List UInt8) : DataBlock :=
  { b with buf := fun p =>
      if pos ≤ p ∧ p < pos + xs.length then xs.getD (p - pos).toNat 0 else b.buf p }

def append (b : DataBlock) (xs : List UInt8) : DataBlock :=
  { b.write b.tail xs with tail := b.tail + xs.length }

def slice (b : DataBlock) (lo hi : ℤ) : List UInt8 :=
  (List.range (hi - lo).toNat).map fun k : ℕ => b.buf (lo + k)

def data (b : DataBlock) : List UInt8 := b.slice b.head b.tail

def sizeAt (b : DataBlock) (pos : ℤ) : ℤ :=
  int32LE (b.buf pos) (b.buf (pos + 1)) (b.buf (pos + 2)) (b.buf (pos + 3))

structure Valid (size : ℤ) (b : DataBlock) : Prop where
  head_nonneg : 0 ≤ b.head
  head_le_tail : b.head ≤ b.tail
  tail_le : b.tail ≤ maxSize size

instance (size : ℤ) (b : DataBlock) : Decidable (Valid size b) :=
  decidable_of_iff (0 ≤ b.head ∧ b.head ≤ b.tail ∧ b.tail ≤ maxSize size)
    ⟨fun h => ⟨h.1, h.2.1, h.2.2⟩, fun h => ⟨h.head_nonneg, h.head_le_tail, h.tail_le⟩⟩

variable {size : ℤ} {b : DataBlock}

@[simp] theorem construct_head (memory : ℤ → UInt8) : (construct size memory).head = 0 := rfl
@[simp] theorem construct_tail (memory : ℤ → UInt8) : (construct size memory).tail = 0 := rfl
@[simp] theorem write_head (pos : ℤ) (xs : List UInt8) : (b.write pos xs).head = b.head := rfl
@[simp] theorem append_head (xs : List UInt8) : (b.append xs).head = b.head := rfl
@[simp] theorem append_tail (xs : List UInt8) : (b.append xs).tail = b.tail + xs.length := rfl
@[simp] theorem write_tail (pos : ℤ) (xs : List UInt8) : (b.write pos xs).tail = b.tail := rfl

theorem valid_construct (hsize : 0 ≤ size) (memory : ℤ → UInt8) :
    Valid size (construct size memory) :=
  ⟨le_rfl, le_rfl, by simp only [construct_tail, maxSize]; omega⟩

theorem Valid.write (h : Valid size b) (pos : ℤ) (xs : List UInt8) :
    Valid size (b.write pos xs) :=
  ⟨h.head_nonneg, h.head_le_tail, h.tail_le⟩

theorem Valid.append (h : Valid size b) {xs : List UInt8}
    (hfit : b.tail + xs.length ≤ maxSize size) : Valid size (b.append xs) :=
  ⟨h.head_nonneg, h.head_le_tail.trans (by simp), hfit⟩

theorem Valid.getDataSize (h : Valid size b) (hmax : maxSize size ≤ int32Max) :
    b.getDataSize = b.tail - b.head := by
  have h0 := h.head_nonneg
  have h1 := h.head_le_tail
  have h2 := h.tail_le
  exact wrap32_of_mem (by omega) (by omega)

theorem Valid.getRemainSize (h : Valid size b) (hmax : maxSize size ≤ int32Max) :
    b.getRemainSize size = maxSize size - b.tail := by
  have h0 := h.head_nonneg
  have h1 := h.head_le_tail
  have h2 := h.tail_le
  exact wrap32_of_mem (by omega) (by omega)

theorem Valid.update (h : Valid size b) (hmax : maxSize size ≤ int32Max) {n : ℤ} (hn : 0 ≤ n)
    (hfit : b.tail + n ≤ maxSize size) :
    b.update size n = (true, { b with tail := b.tail + n }) := by
  have h0 := h.head_nonneg
  have h1 := h.head_le_tail
  have hw : wrap32 (b.tail + n) = b.tail + n := wrap32_of_mem (by omega) (by omega)
  simp only [DataBlock.update, hw]
  rw [if_neg (by omega)]

theorem Valid.consume (h : Valid size b) (hmax : maxSize size ≤ int32Max) {n : ℤ} (hn : 0 ≤ n)
    (hfit : n ≤ b.tail - b.head) :
    b.consume n = (true, { b with head := b.head + n }) := by
  have h0 := h.head_nonneg
  have h1 := h.head_le_tail
  have h2 := h.tail_le
  have hw : wrap32 (b.head + n) = b.head + n := wrap32_of_mem (by omega) (by omega)
  simp only [DataBlock.consume, h.getDataSize hmax, hw]
  rw [if_neg (by omega)]

@[simp] theorem length_slice (b : DataBlock) (lo hi : ℤ) :
    (b.slice lo hi).length = (hi - lo).toNat := by
  simp [slice]

theorem slice_getD (b : DataBlock) {lo hi : ℤ} {k : ℕ} (hk : lo + k < hi) :
    (b.slice lo hi).getD k 0 = b.buf (lo + k) := by
  have hlt : k < (hi - lo).toNat := by omega
  simp [slice, List.getD, hlt]

theorem slice_append (b : DataBlock) {lo mid hi : ℤ} (h₁ : lo ≤ mid) (h₂ : mid ≤ hi) :
    b.slice lo mid ++ b.slice mid hi = b.slice lo hi := by
  have hlen : (hi - lo).toNat = (mid - lo).toNat + (hi - mid).toNat := by omega
  simp only [slice, hlen, List.range_add, List.map_append, List.map_map]
  congr 1
  apply List.map_congr_left
  intro k _
  simp only [Function.comp, Nat.cast_add]
  congr 1
  omega

theorem slice_self (b : DataBlock) (lo : ℤ) : b.slice lo lo = [] := by
  simp [slice]

theorem slice_congr {b b' : DataBlock} {lo hi : ℤ}
    (h : ∀ p, lo ≤ p → p < hi → b.buf p = b'.buf p) : b.slice lo hi = b'.slice lo hi := by
  apply List.map_congr_left
  intro k hk
  rw [List.mem_range] at hk
  exact h _ (by omega) (by omega)

theorem slice_write_below (b : DataBlock) {lo hi pos : ℤ} (xs : List UInt8) (h : hi ≤ pos) :
    (b.write pos xs).slice lo hi = b.slice lo hi := by
  apply slice_congr
  intro p _ hp
  simp only [write]
  rw [if_neg (by omega)]

theorem slice_write_self (b : DataBlock) (pos : ℤ) (xs : List UInt8) :
    (b.write pos xs).slice pos (pos + xs.length) = xs := by
  apply List.ext_getElem
  · simp
  · intro k hk hk'
    simp only [slice, write, List.getElem_map, List.getElem_range]
    rw [if_pos (by omega), show (pos + (k : ℤ) - pos).toNat = k by omega]
    simp [List.getD, hk']

theorem Valid.data_append (h : Valid size b) (xs : List UInt8) :
    (b.append xs).data = b.data ++ xs := by
  have hmid : (b.append xs).slice b.head b.tail ++
      (b.append xs).slice b.tail (b.tail + xs.length) = (b.append xs).data :=
    slice_append _ h.head_le_tail (by simp)
  have hlow : (b.append xs).slice b.head b.tail = b.data :=
    (slice_congr fun _ _ _ => rfl).trans (b.slice_write_below xs le_rfl)
  have hhigh : (b.append xs).slice b.tail (b.tail + xs.length) = xs :=
    (slice_congr fun _ _ _ => rfl).trans (b.slice_write_self b.tail xs)
  rw [← hmid, hlow, hhigh]

end DataBlock

end Bugat
