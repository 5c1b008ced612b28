import Mathlib
import Bugat.Core.LockFreeMemory
import Bugat.Lib.BitParts

/-!
# tagged_ptr, the word behind a handle

`tagged_ptr` keeps a 48-bit address and a 16-bit tag in one 64-bit word. The tag is written
and read through a union, as the part `_tag[3]` of the word, the address through a mask. The
view of a word is the pair of address and tag that the model of the memory works with.
-/

namespace Bugat.LockFree

open BitParts

structure TaggedWord where
  compressedPtr : BitVec 64
  deriving DecidableEq, Repr

namespace TaggedWord

def tagIdx : ℕ := 3

def ptrMask : BitVec 64 := (1#64 <<< 48) - 1#64

def maxTag : BitVec 16 := BitVec.ofNat 16 (2 ^ 16 - 1)

def packPtr (ptr : BitVec 64) (tag : BitVec 16) : BitVec 64 := setPart ptr tagIdx tag

def extractTag (ptr : BitVec 64) : BitVec 16 := part 16 ptr tagIdx

def pack (ptr : BitVec 64) (tag : BitVec 16) : TaggedWord := ⟨packPtr ptr tag⟩

def getPtr (p : TaggedWord) : BitVec 64 := p.compressedPtr &&& ptrMask

def getTag (p : TaggedWord) : BitVec 16 := extractTag p.compressedPtr

/-- The sum and the remainder are taken in `int`, the result in `uint16_t`. -/
def getNextTag (p : TaggedWord) : BitVec 16 :=
  BitVec.ofNat 16 (((extractTag p.compressedPtr).toNat + 1) % maxTag.toNat)

def equal (p q : TaggedWord) : Bool := p.compressedPtr == q.compressedPtr

/-- `operator!=`. -/
def unequal (p q : TaggedWord) : Bool := p.compressedPtr != q.compressedPtr

def toBool (p : TaggedWord) : Bool := p.getPtr != 0

/-- A word packed with the next tag of another, as each exchange of the lists writes it. -/
def packNext (p : TaggedWord) (ptr : BitVec 64) : TaggedWord := pack ptr p.getNextTag

def packedAfter (p : TaggedWord) (ptrs : ℕ → BitVec 64) : ℕ → TaggedWord
  | 0 => p
  | n + 1 => (packedAfter p ptrs n).packNext (ptrs n)

variable {p q : TaggedWord} {ptr : BitVec 64} {tag : BitVec 16}

theorem getPtr_eq (p : TaggedWord) : p.getPtr = p.compressedPtr &&& lowMask 64 (16 * tagIdx) := rfl

@[simp] theorem getTag_pack (ptr : BitVec 64) (tag : BitVec 16) : (pack ptr tag).getTag = tag :=
  part_setPart ptr tag (by decide)

theorem getPtr_pack_eq_mask (ptr : BitVec 64) (tag : BitVec 16) :
    (pack ptr tag).getPtr = ptr &&& ptrMask :=
  setPart_and_lowMask ptr tag (by decide) (by decide)

theorem getPtr_pack (h : ptr.toNat < 2 ^ 48) (tag : BitVec 16) : (pack ptr tag).getPtr = ptr := by
  rw [getPtr_pack_eq_mask]
  exact and_lowMask_of_lt (by decide) h

theorem eq_iff : p = q ↔ p.getPtr = q.getPtr ∧ p.getTag = q.getTag := by
  have hword : p = q ↔ p.compressedPtr = q.compressedPtr := by
    cases p
    cases q
    simp
  rw [hword, getPtr_eq, getPtr_eq]
  exact eq_iff_low_and_part (i := tagIdx) (by decide) (by decide)

theorem equal_iff : p.equal q = true ↔ p.getPtr = q.getPtr ∧ p.getTag = q.getTag := by
  rw [← eq_iff]
  cases p
  cases q
  simp [equal]

theorem unequal_eq (p q : TaggedWord) : p.unequal q = !p.equal q := rfl

theorem toNat_maxTag : maxTag.toNat = LockFree.maxTag := rfl

theorem toNat_getNextTag (p : TaggedWord) :
    p.getNextTag.toNat = (p.getTag.toNat + 1) % LockFree.maxTag := by
  have hlt : (p.getTag.toNat + 1) % LockFree.maxTag < LockFree.maxTag :=
    Nat.mod_lt _ (by decide)
  have hmax : LockFree.maxTag < 2 ^ 16 := by decide
  rw [getNextTag, toNat_maxTag, BitVec.toNat_ofNat]
  exact Nat.mod_eq_of_lt (hlt.trans hmax)

/-- The handle of the model of the memory that a word stands for. -/
def view (p : TaggedWord) : TaggedPtr := ⟨p.getPtr.toNat, p.getTag.toNat⟩

theorem view_pack (h : ptr.toNat < 2 ^ 48) (tag : BitVec 16) :
    (pack ptr tag).view = ⟨ptr.toNat, tag.toNat⟩ := by
  rw [view, getPtr_pack h, getTag_pack]

theorem view_injective : Function.Injective view := by
  intro p q h
  obtain ⟨hptr, htag⟩ := (TaggedPtr.mk.injEq _ _ _ _).mp h
  exact eq_iff.mpr ⟨BitVec.eq_of_toNat_eq hptr, BitVec.eq_of_toNat_eq htag⟩

theorem equal_iff_view : p.equal q = true ↔ p.view = q.view := by
  rw [equal_iff, ← eq_iff]
  exact view_injective.eq_iff.symm

theorem view_packNext (p : TaggedWord) (h : ptr.toNat < 2 ^ 48) :
    (p.packNext ptr).view = ⟨ptr.toNat, p.view.nextTag⟩ := by
  rw [packNext, view_pack h, toNat_getNextTag]
  rfl

theorem toBool_eq_false_iff_view : p.toBool = false ↔ Memory.start p.view = none := by
  have hzero : p.getPtr = 0#64 ↔ p.view.ptr = 0 := by
    rw [← BitVec.toNat_inj]
    rfl
  simp [toBool, Memory.start, hzero]

variable {ptrs : ℕ → BitVec 64}

theorem getTag_packNext (p : TaggedWord) (ptr : BitVec 64) :
    (p.packNext ptr).getTag.toNat = (p.getTag.toNat + 1) % LockFree.maxTag := by
  rw [packNext, getTag_pack, toNat_getNextTag]

theorem getTag_packedAfter (h : p.getTag.toNat < LockFree.maxTag) (n : ℕ) :
    (p.packedAfter ptrs n).getTag.toNat = (p.getTag.toNat + n) % LockFree.maxTag := by
  induction n with
  | zero => exact (Nat.mod_eq_of_lt h).symm
  | succ n ih =>
    rw [packedAfter, getTag_packNext, ih, Nat.mod_add_mod]
    rfl

theorem getTag_packedAfter_lt (h : p.getTag.toNat < LockFree.maxTag) (n : ℕ) :
    (p.packedAfter ptrs n).getTag.toNat < LockFree.maxTag := by
  rw [getTag_packedAfter h]
  exact Nat.mod_lt _ (by decide)

/-- The tags of two sequences that start with one tag meet exactly where their lengths agree
modulo the number of tags in use. -/
theorem getTag_packedAfter_eq_iff {qtrs : ℕ → BitVec 64} (h : p.getTag.toNat < LockFree.maxTag)
    (hq : q.getTag = p.getTag) {m n : ℕ} :
    (p.packedAfter ptrs m).getTag = (q.packedAfter qtrs n).getTag ↔
      m ≡ n [MOD LockFree.maxTag] := by
  rw [← BitVec.toNat_inj, getTag_packedAfter h, getTag_packedAfter (hq ▸ h), hq]
  exact Nat.ModEq.add_iff_left rfl

/-- What is packed is recovered, words compare as their two parts do, and the tags of
successive exchanges run through a cycle of `MAX_TAG` different values. -/
theorem pack_faithful_and_tag_cycle {ptr ptr' : BitVec 64} (hptr : ptr.toNat < 2 ^ 48)
    (hptr' : ptr'.toNat < 2 ^ 48) (tag tag' : BitVec 16) {s s' : TaggedWord}
    (hs : s.getTag.toNat < maxTag.toNat) (hs' : s'.getTag = s.getTag)
    (ptrs ptrs' : ℕ → BitVec 64) :
    (pack ptr tag).getPtr = ptr ∧ (pack ptr tag).getTag = tag ∧
    ((pack ptr tag).equal (pack ptr' tag') = true ↔ ptr = ptr' ∧ tag = tag') ∧
    (∀ p q : TaggedWord, p.equal q = true ↔ p.getPtr = q.getPtr ∧ p.getTag = q.getTag) ∧
    (∀ p q : TaggedWord, p.unequal q = true ↔ ¬(p.getPtr = q.getPtr ∧ p.getTag = q.getTag)) ∧
    (∀ n, (s.packedAfter ptrs n).getTag.toNat < maxTag.toNat) ∧
    (∀ m n, m % 65535 = n % 65535 →
      (s.packedAfter ptrs m).getTag = (s'.packedAfter ptrs' n).getTag) ∧
    (∀ m n, m < n → n < m + 65535 →
      (s.packedAfter ptrs m).getTag ≠ (s.packedAfter ptrs n).getTag) := by
  refine ⟨getPtr_pack hptr tag, getTag_pack ptr tag, ?_, fun p q => equal_iff, fun p q => ?_,
    getTag_packedAfter_lt hs, fun m n hmn => (getTag_packedAfter_eq_iff hs hs').mpr hmn, ?_⟩
  · rw [equal_iff, getPtr_pack hptr, getPtr_pack hptr', getTag_pack, getTag_pack]
  · rw [unequal_eq, Bool.not_eq_true', ← Bool.not_eq_true, equal_iff]
  · intro m n hlt hdist htag
    have hmod : m % 65535 = n % 65535 := (getTag_packedAfter_eq_iff hs rfl).mp htag
    omega

theorem pack_faithful_and_tag_cycle_example :
    let s := pack 0xffff_0123_4567_89ab#64 65534
    s.getTag.toNat < maxTag.toNat ∧
    (pack 0x7fff_0000_1000#64 65535).getPtr = 0x7fff_0000_1000#64 ∧
    (s.packedAfter (fun n => BitVec.ofNat 64 (16 * n)) 65535).getTag =
      (s.packedAfter (fun _ => 0) 0).getTag := by
  have hs : (pack 0xffff_0123_4567_89ab#64 65534).getTag.toNat < maxTag.toNat := by
    rw [getTag_pack]
    decide
  have hptr : (0x7fff_0000_1000#64).toNat < 2 ^ 48 := by decide
  have hnull : (0#64).toNat < 2 ^ 48 := by decide
  have hall := pack_faithful_and_tag_cycle hptr hnull 65535 0 hs rfl
    (fun n => BitVec.ofNat 64 (16 * n)) (fun _ => 0)
  exact ⟨hs, hall.1, hall.2.2.2.2.2.2.1 65535 0 (by decide)⟩

end TaggedWord

end Bugat.LockFree
