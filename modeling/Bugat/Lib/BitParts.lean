import Mathlib

/-!
# Parts of a word

A union of a `w`-bit word and an array of `n`-bit parts, in little-endian order: part `i` is
bits `n * i` to `n * i + n - 1` of the word.
-/

namespace BitParts

variable {w n : ℕ}

def part (n : ℕ) (x : BitVec w) (i : ℕ) : BitVec n := x.extractLsb' (n * i) n

def setPart (x : BitVec w) (i : ℕ) (v : BitVec n) : BitVec w :=
  (x &&& ~~~((BitVec.allOnes n).setWidth w <<< (n * i))) ||| (v.setWidth w <<< (n * i))

def lowMask (w k : ℕ) : BitVec w := (1#w <<< k) - 1#w

theorem getLsbD_part (x : BitVec w) (i j : ℕ) :
    (part n x i).getLsbD j = (decide (j < n) && x.getLsbD (n * i + j)) := by
  simp only [part, BitVec.getLsbD_extractLsb']

theorem getLsbD_setPart (x : BitVec w) (i : ℕ) (v : BitVec n) {j : ℕ} (hj : j < w) :
    (setPart x i v).getLsbD j =
      if n * i ≤ j ∧ j < n * i + n then v.getLsbD (j - n * i) else x.getLsbD j := by
  simp only [setPart, BitVec.getLsbD_or, BitVec.getLsbD_and, BitVec.getLsbD_not,
    BitVec.getLsbD_shiftLeft, BitVec.getLsbD_setWidth, BitVec.getLsbD_allOnes, hj]
  have hw : j - n * i < w := by omega
  by_cases hlow : n * i ≤ j
  · by_cases hhigh : j < n * i + n
    · have hn : j - n * i < n := by omega
      simp [hlow, hhigh, hn, hw, not_lt.mpr hlow]
    · have hn : ¬j - n * i < n := by omega
      have hv : v.getLsbD (j - n * i) = false := BitVec.getLsbD_of_ge v _ (by omega)
      simp [hhigh, hn, hv, not_lt.mpr hlow]
  · simp [hlow, not_le.mp hlow]

theorem lowMask_eq {k : ℕ} (hk : k < w) : lowMask w k = BitVec.ofNat w (2 ^ k - 1) := by
  apply BitVec.eq_of_toNat_eq
  have hw : 0 < w := by omega
  have hlt : 2 ^ k < 2 ^ w := Nat.pow_lt_pow_right (by omega) hk
  have hone : 1 ≤ 2 ^ k := Nat.one_le_two_pow
  have hpow : (1 : ℕ) % 2 ^ w = 1 := Nat.mod_eq_of_lt (by omega)
  simp only [lowMask, BitVec.toNat_sub, BitVec.toNat_shiftLeft, BitVec.toNat_ofNat, hpow,
    Nat.shiftLeft_eq, one_mul, Nat.mod_eq_of_lt hlt]
  rw [Nat.mod_eq_of_lt (show 2 ^ k - 1 < 2 ^ w by omega),
    show 2 ^ w - 1 + 2 ^ k = 2 ^ k - 1 + 2 ^ w by omega, Nat.add_mod_right,
    Nat.mod_eq_of_lt (by omega)]

theorem getLsbD_and_lowMask {k : ℕ} (hk : k < w) (x : BitVec w) {j : ℕ} (hj : j < w) :
    (x &&& lowMask w k).getLsbD j = (x.getLsbD j && decide (j < k)) := by
  rw [BitVec.getLsbD_and, lowMask_eq hk, BitVec.getLsbD_ofNat, Nat.testBit_two_pow_sub_one]
  simp [hj]

theorem part_setPart (x : BitVec w) {i : ℕ} (v : BitVec n) (h : n * i + n ≤ w) :
    part n (setPart x i v) i = v := by
  apply BitVec.eq_of_getLsbD_eq
  intro j hj
  rw [getLsbD_part, getLsbD_setPart x i v (by omega), if_pos (by omega)]
  simp [hj]

theorem setPart_and_lowMask (x : BitVec w) {i k : ℕ} (v : BitVec n) (hk : k ≤ n * i)
    (hw : k < w) : setPart x i v &&& lowMask w k = x &&& lowMask w k := by
  apply BitVec.eq_of_getLsbD_eq
  intro j hj
  rw [getLsbD_and_lowMask hw _ hj, getLsbD_and_lowMask hw _ hj]
  by_cases hjk : j < k
  · rw [getLsbD_setPart x i v hj, if_neg (by omega)]
  · simp [hjk]

theorem and_lowMask_of_lt {k : ℕ} (hk : k < w) {x : BitVec w} (hx : x.toNat < 2 ^ k) :
    x &&& lowMask w k = x := by
  apply BitVec.eq_of_getLsbD_eq
  intro j hj
  rw [getLsbD_and_lowMask hk x hj]
  by_cases hjk : j < k
  · simp [hjk]
  · have hbit : x.getLsbD j = false :=
      Nat.testBit_lt_two_pow (hx.trans_le (Nat.pow_le_pow_right (by omega) (not_lt.mp hjk)))
    simp [hbit]

theorem eq_iff_low_and_part {i : ℕ} (h : n * i + n = w) (hn : 0 < n) {x y : BitVec w} :
    x = y ↔ x &&& lowMask w (n * i) = y &&& lowMask w (n * i) ∧ part n x i = part n y i := by
  constructor
  · rintro rfl
    exact ⟨rfl, rfl⟩
  · intro ⟨hlow, hpart⟩
    apply BitVec.eq_of_getLsbD_eq
    intro j hj
    by_cases hjk : j < n * i
    · have hbit := congrArg (fun z : BitVec w => z.getLsbD j) hlow
      simpa [getLsbD_and_lowMask (show n * i < w by omega) _ hj, hjk] using hbit
    · have hbit := congrArg (fun z : BitVec n => z.getLsbD (j - n * i)) hpart
      have hjn : j - n * i < n := by omega
      simpa only [getLsbD_part, hjn, decide_true, Bool.true_and,
        show n * i + (j - n * i) = j by omega] using hbit

end BitParts
