import Mathlib
import Bugat.Lib.MachineInt
import Bugat.Lib.Transition

/-!
# Param: fixed-point numbers with four decimals

A Param holds its number times 10000 in an `int`. The operators form the result, clamp it to
`[MIN, MAX]` and store it in their left operand, also where the source calls them `+` and not
`+=`. An addition is done in 32 bits. The values of type `float` and `double` are read as exact
rational numbers.
-/

namespace Bugat

open MachineInt (int32Max wrap32 wrap32_of_mem wrap32_overflow)
open Transition (Along along_congr)

namespace Param

def maxValue : ℤ := 2 ^ 30

def minValue : ℤ := -maxValue

def decimal : ℤ := 10000

def InRange (v : ℤ) : Prop := minValue ≤ v ∧ v ≤ maxValue

def clamp (v : ℤ) : ℤ := if v > maxValue then maxValue else if v < minValue then minValue else v

/-- `static_cast<int64_t>` of a floating-point value. -/
def truncate (q : ℚ) : ℤ := if 0 ≤ q then ⌊q⌋ else ⌈q⌉

theorem clamp_inRange (v : ℤ) : InRange (clamp v) := by
  simp only [InRange, clamp, minValue, maxValue]
  omega

theorem clamp_neg (v : ℤ) : clamp (-v) = -clamp v := by
  simp only [clamp, minValue, maxValue]
  omega

end Param

structure Param where
  value : ℤ
  inRange : Param.InRange value

namespace Param

def add (a delta : Param) : Param :=
  ⟨clamp (wrap32 (a.value + delta.value)), clamp_inRange _⟩

def sub (a delta : Param) : Param :=
  ⟨clamp (wrap32 (a.value - delta.value)), clamp_inRange _⟩

def getValue (a : Param) : ℚ := a.value / decimal

def mul (a delta : Param) : Param :=
  ⟨clamp (truncate (a.value * delta.getValue / decimal)), clamp_inRange _⟩

def div (a delta : Param) : Param :=
  let v := delta.getValue
  let v := if v = 0 then 1 else v
  ⟨clamp (truncate (a.value / v / decimal)), clamp_inRange _⟩

/-! ## Addition and subtraction -/

inductive Update
  | add (delta : Param)
  | sub (delta : Param)

def apply (a : Param) : Update → Param
  | .add delta => a.add delta
  | .sub delta => a.sub delta

def step (a : Param) (u : Update) : Option Param := some (a.apply u)

def exact (a : Param) : Update → ℤ
  | .add delta => a.value + delta.value
  | .sub delta => a.value - delta.value

structure Saturates (a : Param) (u : Update) : Prop where
  clamped : (a.apply u).value = clamp (a.exact u)
  inRange : InRange (a.apply u).value
  add_le : ∀ delta, u = .add delta → 0 ≤ delta.value → a.value ≤ (a.apply u).value
  sub_le : ∀ delta, u = .sub delta → 0 ≤ delta.value → (a.apply u).value ≤ a.value

/-- The exact result is not `2 ^ 31`. -/
def OffCorner (a : Param) : Update → Prop
  | .add delta => ¬ (a.value = maxValue ∧ delta.value = maxValue)
  | .sub delta => ¬ (a.value = maxValue ∧ delta.value = minValue)

variable {a delta : Param} {u : Update}

theorem apply_value (a : Param) (u : Update) : (a.apply u).value = clamp (wrap32 (a.exact u)) := by
  cases u with
  | add delta => rfl
  | sub delta => rfl

theorem exact_lower (a : Param) (u : Update) : -2 ^ 31 ≤ a.exact u := by
  have ha := a.inRange
  cases u with
  | add delta | sub delta =>
    have hdelta := delta.inRange
    simp only [InRange, minValue, maxValue] at ha hdelta
    simp only [exact]
    omega

theorem offCorner_iff (a : Param) (u : Update) : a.OffCorner u ↔ a.exact u ≤ int32Max := by
  have ha := a.inRange
  cases u with
  | add delta | sub delta =>
    have hdelta := delta.inRange
    simp only [InRange, minValue, maxValue] at ha hdelta
    simp only [OffCorner, exact, minValue, maxValue, int32Max]
    omega

theorem apply_corner (h : ¬ a.OffCorner u) :
    (a.apply u).value = minValue ∧ clamp (a.exact u) = maxValue := by
  rw [offCorner_iff, not_le] at h
  have hupper : a.exact u = 2 ^ 31 := by
    have ha := a.inRange
    cases u with
    | add delta | sub delta =>
      have hdelta := delta.inRange
      simp only [InRange, minValue, maxValue] at ha hdelta
      simp only [exact, int32Max] at h ⊢
      omega
  rw [apply_value, hupper]
  decide

theorem saturates_of_offCorner (h : a.OffCorner u) : a.Saturates u := by
  have hclamped : (a.apply u).value = clamp (a.exact u) := by
    rw [apply_value, wrap32_of_mem (a.exact_lower u) ((offCorner_iff a u).mp h)]
  have ha := a.inRange
  simp only [InRange, minValue, maxValue] at ha
  refine ⟨hclamped, (a.apply u).inRange, fun delta hu hnonneg => ?_, fun delta hu hnonneg => ?_⟩
  · subst hu
    rw [hclamped]
    simp only [exact, clamp, minValue, maxValue]
    omega
  · subst hu
    rw [hclamped]
    simp only [exact, clamp, minValue, maxValue]
    omega

theorem saturates_iff : a.Saturates u ↔ a.OffCorner u := by
  refine ⟨fun h => ?_, saturates_of_offCorner⟩
  by_contra hcorner
  obtain ⟨hvalue, hexact⟩ := apply_corner hcorner
  have hclamped := h.clamped
  rw [hvalue, hexact] at hclamped
  exact absurd hclamped (by decide)

/-- A sequence of `+=` and `-=` saturates in each of its updates just when none forms the
number `2 ^ 31`. -/
theorem saturate_iff_off_corner (a : Param) (us : List Update) :
    Along Saturates step a us ↔ Along OffCorner step a us :=
  along_congr (I := fun _ => True) (fun _ _ _ _ _ => saturates_iff) (fun _ _ _ h _ _ => h) trivial

def greatest : Param := ⟨maxValue, by decide, by decide⟩

theorem greatest_add_greatest : (greatest.add greatest).value = minValue ∧
    clamp (greatest.value + greatest.value) = maxValue ∧
    ¬ Along Saturates step greatest [.add greatest] := by
  refine ⟨by decide, by decide, fun h => ?_⟩
  obtain ⟨hsat, -⟩ := h
  exact saturates_iff.mp hsat ⟨rfl, rfl⟩

/-! ## Multiplication and division -/

theorem truncate_neg (q : ℚ) : truncate (-q) = -truncate q := by
  rcases lt_trichotomy q 0 with h | rfl | h
  · rw [truncate, truncate, if_pos (by linarith), if_neg (by linarith), Int.floor_neg]
  · rfl
  · rw [truncate, truncate, if_neg (by linarith), if_pos h.le, Int.ceil_neg]

theorem truncate_natCast_div (n d : ℕ) : truncate ((n : ℚ) / d) = (n / d : ℕ) := by
  have h : (0 : ℚ) ≤ (n : ℚ) / d := by positivity
  rw [truncate, if_pos h]
  exact Rat.floor_intCast_div_natCast n d

theorem truncate_div (n d : ℤ) : truncate ((n : ℚ) / d) = n.tdiv d := by
  obtain ⟨x, hx⟩ := n.eq_nat_or_neg
  obtain ⟨y, hy⟩ := d.eq_nat_or_neg
  have hquotient : (x : ℤ).tdiv y = (x / y : ℕ) := rfl
  rcases hx with rfl | rfl <;> rcases hy with rfl | rfl <;> push_cast
  · exact truncate_natCast_div x y
  · rw [div_neg, truncate_neg, truncate_natCast_div, Int.tdiv_neg, hquotient]
  · rw [neg_div, truncate_neg, truncate_natCast_div, Int.neg_tdiv, hquotient]
  · rw [neg_div_neg_eq, truncate_natCast_div, Int.neg_tdiv, Int.tdiv_neg, neg_neg, hquotient]

theorem clamp_natCast_eq_iff (x : ℕ) {y : ℕ} (hy : 0 < y) :
    clamp (x / y : ℕ) = clamp (10000 * x / y : ℕ) ↔ 10000 * x < y ∨ 2 ^ 30 * y ≤ x := by
  have hscaled : 10000 * (x / y) ≤ 10000 * x / y := Nat.mul_div_le_mul_div_assoc _ _ _
  have hzero : 10000 * x / y = 0 ↔ 10000 * x < y := by
    rw [Nat.div_eq_zero_iff]
    omega
  have hmax : 2 ^ 30 ≤ x / y ↔ 2 ^ 30 * y ≤ x := Nat.le_div_iff_mul_le hy
  rw [← hzero, ← hmax]
  generalize x / y = q at *
  generalize 10000 * x / y = r at *
  simp only [clamp, minValue, maxValue]
  omega

theorem clamp_tdiv_eq_iff (n : ℤ) {d : ℤ} (hd : d ≠ 0) :
    clamp (n.tdiv d) = clamp ((decimal * n).tdiv d) ↔
      decimal * |n| < |d| ∨ maxValue * |d| ≤ |n| := by
  obtain ⟨x, hx⟩ := n.eq_nat_or_neg
  obtain ⟨y, hy⟩ := d.eq_nat_or_neg
  have hpos : 0 < y := by omega
  have hnat := clamp_natCast_eq_iff x hpos
  have habs : decimal * |n| < |d| ∨ maxValue * |d| ≤ |n| ↔
      10000 * x < y ∨ 2 ^ 30 * y ≤ x := by
    have hn : |n| = x := by rcases hx with rfl | rfl <;> simp
    have hd : |d| = y := by rcases hy with rfl | rfl <;> simp
    rw [hn, hd, decimal, maxValue]
    omega
  have hquotient : ((x : ℤ)).tdiv y = (x / y : ℕ) := rfl
  have hscaled : (decimal * (x : ℤ)).tdiv y = (10000 * x / y : ℕ) := rfl
  rw [habs, ← hnat]
  rcases hx with rfl | rfl <;> rcases hy with rfl | rfl
  · rw [hquotient, hscaled]
  · rw [Int.tdiv_neg, Int.tdiv_neg, clamp_neg, clamp_neg, neg_inj, hquotient, hscaled]
  · rw [mul_neg, Int.neg_tdiv, Int.neg_tdiv, clamp_neg, clamp_neg, neg_inj, hquotient, hscaled]
  · rw [mul_neg, Int.neg_tdiv, Int.neg_tdiv, Int.tdiv_neg, Int.tdiv_neg, neg_neg, neg_neg,
      hquotient, hscaled]

def MulOk (a b : Param) : Prop :=
  (a.mul b).value = clamp (truncate (a.getValue * b.getValue * decimal))

def DivOk (a b : Param) : Prop :=
  (a.div b).value = clamp (truncate (a.getValue / b.getValue * decimal))

variable {b : Param}

theorem mul_value (a b : Param) :
    (a.mul b).value = clamp (truncate (a.value * b.getValue / decimal)) := rfl

theorem div_value (a : Param) (hb : b.getValue ≠ 0) :
    (a.div b).value = clamp (truncate (a.value / b.getValue / decimal)) := by
  simp only [div, if_neg hb]

theorem mulOk_iff : a.MulOk b ↔
    |a.value * b.value| < 10 ^ 4 ∨ 2 ^ 30 * 10 ^ 8 ≤ |a.value * b.value| := by
  have hcode : (a.value : ℚ) * b.getValue / decimal =
      ((a.value * b.value : ℤ) : ℚ) / ((10 ^ 8 : ℤ) : ℚ) := by
    simp only [getValue, decimal]
    push_cast
    ring
  have hexact : a.getValue * b.getValue * (decimal : ℚ) =
      ((decimal * (a.value * b.value) : ℤ) : ℚ) / ((10 ^ 8 : ℤ) : ℚ) := by
    simp only [getValue, decimal]
    push_cast
    ring
  have hpos : (0 : ℤ) < 10 ^ 8 := by decide
  rw [MulOk, mul_value, hcode, hexact, truncate_div, truncate_div, clamp_tdiv_eq_iff _ hpos.ne',
    abs_of_pos hpos]
  simp only [decimal, maxValue]
  omega

theorem divOk_iff (hb : b.value ≠ 0) : a.DivOk b ↔
    10 ^ 4 * |a.value| < |b.value| ∨ (|a.value| = 2 ^ 30 ∧ |b.value| = 1) := by
  have hcast : (b.value : ℚ) ≠ 0 := Int.cast_ne_zero.mpr hb
  have hvalue : b.getValue ≠ 0 := by
    rw [getValue, decimal]
    positivity
  have hcode : (a.value : ℚ) / b.getValue / decimal = (a.value : ℚ) / b.value := by
    simp only [getValue, decimal]
    field_simp
  have hexact : a.getValue / b.getValue * (decimal : ℚ) =
      ((decimal * a.value : ℤ) : ℚ) / b.value := by
    simp only [getValue, decimal]
    push_cast
    field_simp
  have ha := a.inRange
  simp only [InRange, minValue, maxValue] at ha
  have hpos := abs_pos.mpr hb
  have hle : |a.value| ≤ 2 ^ 30 := abs_le.mpr ha
  rw [DivOk, div_value a hvalue, hcode, hexact, truncate_div, truncate_div, clamp_tdiv_eq_iff _ hb]
  simp only [decimal, maxValue]
  omega

/-- `operator*` is right just where the missing factor of 10000 is lost in the truncation or in
the clamping, and so is `operator/`. -/
theorem mul_div_ok_iff (a b : Param) :
    (a.MulOk b ↔
      |a.value * b.value| < 10 ^ 4 ∨ 2 ^ 30 * 10 ^ 8 ≤ |a.value * b.value|) ∧
    (b.value ≠ 0 → (a.DivOk b ↔
      10 ^ 4 * |a.value| < |b.value| ∨ (|a.value| = 2 ^ 30 ∧ |b.value| = 1))) :=
  ⟨mulOk_iff, divOk_iff⟩

def one : Param := ⟨decimal, by decide, by decide⟩

def least : Param := ⟨1, by decide, by decide⟩

theorem greatest_div_least : greatest.DivOk least ∧ ¬ greatest.MulOk one := by
  obtain ⟨-, hdiv⟩ := mul_div_ok_iff greatest least
  obtain ⟨hmul, -⟩ := mul_div_ok_iff greatest one
  exact ⟨(hdiv (by decide)).mpr (by decide), fun h => absurd (hmul.mp h) (by decide)⟩

theorem one_mul_one : (one.mul one).value = 1 ∧ (one.div one).value = 1 ∧
    clamp (truncate (one.getValue * one.getValue * decimal)) = 10000 ∧
    clamp (truncate (one.getValue / one.getValue * decimal)) = 10000 ∧
    ¬ one.MulOk one ∧ ¬ one.DivOk one := by
  refine ⟨by decide +kernel, by decide +kernel, by decide +kernel, by decide +kernel, ?_, ?_⟩
  · rw [mulOk_iff]
    decide
  · rw [divOk_iff (by decide)]
    decide

end Param

end Bugat
