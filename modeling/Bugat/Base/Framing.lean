import Mathlib
import Bugat.Lib.MachineInt

/-!
# The packet format

A packet is a header of two 32-bit fields, `size` and `type`, followed by `size`
body bytes. `cut` is the format read on a list of bytes: it splits the first packet
off, or says that the packet is not complete yet. The field comes from the peer, so
the sum of the field and `HeaderSize` may leave the `int` range.
-/

namespace Bugat

open MachineInt (wrap32 wrap32_of_mem wrap32_overflow int32LE int32Max)

/-- `HeaderSize`, the size of the packed struct `{ int size; int type; }`. -/
def headerSize : ℤ := 8

/-- `MAX_TCP_PACKET_SIZE`, which is `PacketSize` for a `TCPRecvPacket`. -/
def maxTcpPacketSize : ℤ := 4096

def SizeOk (z : ℤ) : Prop := 0 ≤ z ∧ z + headerSize ≤ int32Max

instance (z : ℤ) : Decidable (SizeOk z) := inferInstanceAs (Decidable (_ ∧ _))

theorem SizeOk.wrap {z : ℤ} (h : SizeOk z) : wrap32 (z + headerSize) = z + headerSize := by
  obtain ⟨h0, hmax⟩ := h
  refine wrap32_of_mem ?_ hmax
  simp only [headerSize]
  omega

theorem wrap_of_not_sizeOk {z : ℤ} (hlo : -2 ^ 31 ≤ z) (hhi : z ≤ int32Max) (h : ¬ SizeOk z) :
    wrap32 (z + headerSize) < headerSize := by
  simp only [SizeOk, not_and_or, not_le, headerSize] at *
  rcases h with hneg | hbig
  · rw [wrap32_of_mem (by omega) (by simp only [int32Max]; omega)]
    omega
  · rw [wrap32_overflow hbig (by simp only [int32Max] at hhi; omega)]
    simp only [int32Max] at hhi
    omega

namespace Framing

def sizeField (bytes : List UInt8) : ℤ :=
  int32LE (bytes.getD 0 0) (bytes.getD 1 0) (bytes.getD 2 0) (bytes.getD 3 0)

def packetLength (bytes : List UInt8) : ℕ := (sizeField bytes + headerSize).toNat

def cut (bytes : List UInt8) : Option (List UInt8 × List UInt8) :=
  if bytes.length < 8 then none
  else if bytes.length < packetLength bytes then none
  else some (bytes.take (packetLength bytes), bytes.drop (packetLength bytes))

def HeaderInRange (bytes : List UInt8) : Prop := 8 ≤ bytes.length → SizeOk (sizeField bytes)

/-- Every header met while cutting packets off the bytes announces a usable size. -/
inductive WellFramed : List UInt8 → Prop
  | last {bytes : List UInt8} (hok : HeaderInRange bytes) (h : cut bytes = none) :
      WellFramed bytes
  | packet {bytes p rest : List UInt8} (hok : HeaderInRange bytes)
      (h : cut bytes = some (p, rest)) (hrest : WellFramed rest) : WellFramed bytes

structure IsPacket (maxLength : ℤ) (p : List UInt8) : Prop where
  header : 8 ≤ p.length
  size : sizeField p + headerSize = p.length
  fits : (p.length : ℤ) ≤ maxLength

instance (maxLength : ℤ) (p : List UInt8) : Decidable (IsPacket maxLength p) :=
  decidable_of_iff (8 ≤ p.length ∧ sizeField p + headerSize = p.length ∧
      (p.length : ℤ) ≤ maxLength)
    ⟨fun h => ⟨h.1, h.2.1, h.2.2⟩, fun h => ⟨h.header, h.size, h.fits⟩⟩

variable {bytes p rest : List UInt8} {maxLength : ℤ}

theorem packetLength_cast (hz : SizeOk (sizeField bytes)) :
    (packetLength bytes : ℤ) = sizeField bytes + headerSize :=
  Int.toNat_of_nonneg (add_nonneg hz.1 (by decide))

theorem eight_le_packetLength (hz : SizeOk (sizeField bytes)) : 8 ≤ packetLength bytes := by
  have hcast := packetLength_cast hz
  have h0 := hz.1
  simp only [headerSize] at hcast
  omega

theorem IsPacket.sizeOk (hp : IsPacket maxLength p) (hmax : maxLength ≤ int32Max) :
    SizeOk (sizeField p) := by
  have hhead := hp.header
  have hsize := hp.size
  have hfits := hp.fits
  refine ⟨?_, by omega⟩
  simp only [headerSize] at hsize
  omega

theorem IsPacket.packetLength_eq (hp : IsPacket maxLength p) : packetLength p = p.length := by
  rw [packetLength, hp.size]
  rfl

theorem sizeField_append (xs ys : List UInt8) (h : 4 ≤ xs.length) :
    sizeField (xs ++ ys) = sizeField xs := by
  have hget : ∀ k < 4, (xs ++ ys).getD k 0 = xs.getD k 0 := fun k hk => by
    rw [List.getD_append _ _ _ _ (by omega)]
  simp only [sizeField, hget 0 (by decide), hget 1 (by decide), hget 2 (by decide),
    hget 3 (by decide)]

theorem sizeField_of_prefixed (h : bytes <+: p) (hlen : 4 ≤ bytes.length) :
    sizeField bytes = sizeField p := by
  obtain ⟨ys, rfl⟩ := h
  exact (sizeField_append bytes ys hlen).symm

theorem cut_of_short (h : bytes.length < 8) : cut bytes = none := by
  rw [cut, if_pos h]

theorem cut_eq_some (h : cut bytes = some (p, rest)) : 8 ≤ bytes.length ∧ bytes = p ++ rest ∧
    p.length = packetLength bytes := by
  unfold cut at h
  split at h
  · cases h
  split at h
  · cases h
  · rename_i hfull hle
    obtain ⟨rfl, rfl⟩ := Prod.mk.inj (Option.some.inj h)
    refine ⟨not_lt.mp hfull, (List.take_append_drop _ _).symm, ?_⟩
    rw [List.length_take, min_eq_left (not_lt.mp hle)]

theorem eight_le_of_cut (hok : HeaderInRange bytes) (h : cut bytes = some (p, rest)) :
    8 ≤ p.length := by
  obtain ⟨hfull, -, hlen⟩ := cut_eq_some h
  rw [hlen]
  exact eight_le_packetLength (hok hfull)

theorem cut_packet (hp : IsPacket maxLength p) : cut (p ++ rest) = some (p, rest) := by
  have hlen : packetLength (p ++ rest) = p.length := by
    rw [packetLength, sizeField_append p rest (by have := hp.header; omega)]
    exact hp.packetLength_eq
  have hhead := hp.header
  rw [cut, hlen, if_neg (by simp; omega), if_neg (by simp), List.take_left, List.drop_left]

theorem cut_unfinished (hp : IsPacket maxLength p) (h : bytes <+: p)
    (hlt : bytes.length < p.length) : cut bytes = none := by
  rw [cut]
  split
  · rfl
  · rename_i hfull
    have hlen : packetLength bytes = p.length := by
      rw [packetLength, sizeField_of_prefixed h (by omega)]
      exact hp.packetLength_eq
    rw [hlen, if_pos hlt]

theorem headerInRange_of_prefixed {todo : List (List UInt8)}
    (hp : ∀ q ∈ todo, IsPacket maxLength q) (hmax : maxLength ≤ int32Max)
    (h : bytes <+: todo.flatten) : HeaderInRange bytes := by
  intro hfull
  cases todo with
  | nil =>
    have hnil := List.prefix_nil.mp h
    simp [hnil] at hfull
  | cons q todo =>
    have hq := hp q List.mem_cons_self
    rw [List.flatten_cons] at h
    rw [sizeField_of_prefixed h (by omega), sizeField_append q _ (by have := hq.header; omega)]
    exact hq.sizeOk hmax

theorem cut_of_prefixed {todo : List (List UInt8)} (hp : ∀ q ∈ todo, IsPacket maxLength q)
    (h : bytes <+: todo.flatten) (hcut : cut bytes = some (p, rest)) :
    ∃ todo', todo = p :: todo' ∧ rest <+: todo'.flatten := by
  cases todo with
  | nil =>
    rw [List.prefix_nil.mp h, cut_of_short (by decide)] at hcut
    cases hcut
  | cons q todo =>
    have hq := hp q List.mem_cons_self
    rw [List.flatten_cons] at h
    by_cases hlt : bytes.length < q.length
    · have hle := List.prefix_of_prefix_length_le h (List.prefix_append q todo.flatten) hlt.le
      rw [cut_unfinished hq hle hlt] at hcut
      cases hcut
    · obtain ⟨ys, rfl⟩ := List.prefix_of_prefix_length_le (List.prefix_append q todo.flatten) h
        (not_lt.mp hlt)
      rw [cut_packet hq] at hcut
      obtain ⟨rfl, rfl⟩ := Prod.mk.inj (Option.some.inj hcut)
      exact ⟨todo, rfl, (List.prefix_append_right_inj q).mp h⟩

theorem nil_of_cut_none {todo : List (List UInt8)} (hp : ∀ q ∈ todo, IsPacket maxLength q)
    (hcut : cut todo.flatten = none) : todo = [] := by
  cases todo with
  | nil => rfl
  | cons q todo =>
    rw [List.flatten_cons, cut_packet (hp q List.mem_cons_self)] at hcut
    cases hcut

end Framing

end Bugat
