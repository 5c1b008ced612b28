import Mathlib

/-!
# Two's complement 32-bit integers

Values of the 32-bit type are integers in `[-2^31, 2^31)`; `wrap32` is the
reduction that an addition on that type performs. Little-endian bytes decode to
such a value.
-/

namespace MachineInt

def int32Max : ℤ := 2 ^ 31 - 1

def wrap32 (x : ℤ) : ℤ := (x + 2 ^ 31) % 2 ^ 32 - 2 ^ 31

theorem wrap32_of_mem {x : ℤ} (hlo : -2 ^ 31 ≤ x) (hhi : x ≤ int32Max) : wrap32 x = x := by
  simp only [wrap32, int32Max] at *
  omega

theorem wrap32_lower (x : ℤ) : -2 ^ 31 ≤ wrap32 x := by
  simp only [wrap32]
  omega

theorem wrap32_upper (x : ℤ) : wrap32 x ≤ int32Max := by
  simp only [wrap32, int32Max]
  omega

theorem wrap32_overflow {x : ℤ} (hlo : int32Max < x) (hhi : x < 2 ^ 32) :
    wrap32 x = x - 2 ^ 32 := by
  simp only [wrap32, int32Max] at *
  omega

theorem wrap32_eq_iff (x : ℤ) : wrap32 x = x ↔ -2 ^ 31 ≤ x ∧ x ≤ int32Max := by
  constructor
  · intro h
    exact ⟨h ▸ wrap32_lower x, h ▸ wrap32_upper x⟩
  · exact fun h => wrap32_of_mem h.1 h.2

theorem wrap32_add_one_ne (x : ℤ) : wrap32 x + 1 ≠ x := by
  simp only [wrap32]
  omega

def int32LE (b₀ b₁ b₂ b₃ : UInt8) : ℤ :=
  wrap32 (b₀.toNat + b₁.toNat * 2 ^ 8 + b₂.toNat * 2 ^ 16 + b₃.toNat * 2 ^ 24)

theorem int32LE_lower (b₀ b₁ b₂ b₃ : UInt8) : -2 ^ 31 ≤ int32LE b₀ b₁ b₂ b₃ := wrap32_lower _

theorem int32LE_upper (b₀ b₁ b₂ b₃ : UInt8) : int32LE b₀ b₁ b₂ b₃ ≤ int32Max := wrap32_upper _

def bytesLE (x : ℤ) : List UInt8 :=
  let n := (x % 2 ^ 32).toNat
  [UInt8.ofNat n, UInt8.ofNat (n / 2 ^ 8), UInt8.ofNat (n / 2 ^ 16), UInt8.ofNat (n / 2 ^ 24)]

theorem length_bytesLE (x : ℤ) : (bytesLE x).length = 4 := rfl

theorem int32LE_bytesLE {x : ℤ} (hlo : -2 ^ 31 ≤ x) (hhi : x ≤ int32Max) :
    int32LE ((bytesLE x).getD 0 0) ((bytesLE x).getD 1 0) ((bytesLE x).getD 2 0)
      ((bytesLE x).getD 3 0) = x := by
  simp only [bytesLE, List.getD_cons_zero, List.getD_cons_succ, int32LE, UInt8.toNat_ofNat']
  simp only [wrap32, int32Max] at *
  omega

end MachineInt
