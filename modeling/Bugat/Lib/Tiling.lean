import Mathlib

/-!
# Tilings of the integers

A tiling cuts the integers into consecutive intervals: interval `i` runs from `start i` up
to `start (i + 1)`, the latter not included. Each integer lies in one interval, and `index`
computes which. Intervals of a coarser unit are scaled and shifted to a finer one.
-/

structure Tiling where
  start : ℤ → ℤ
  index : ℤ → ℤ
  mono : StrictMono start
  start_index_le : ∀ x, start (index x) ≤ x
  lt_start_next : ∀ x, x < start (index x + 1)

namespace Tiling

variable (T : Tiling) {i j x y : ℤ}

def first (x : ℤ) : ℤ := T.start (T.index x)

/-- The last member of the interval of `x`. -/
def last (x : ℤ) : ℤ := T.start (T.index x + 1) - 1

theorem first_le (x : ℤ) : T.first x ≤ x := T.start_index_le x

theorem le_last (x : ℤ) : x ≤ T.last x := Int.le_sub_one_of_lt (T.lt_start_next x)

theorem last_add_one (x : ℤ) : T.last x + 1 = T.start (T.index x + 1) := Int.sub_add_cancel _ 1

variable {T}

theorem index_eq (hlo : T.start i ≤ x) (hhi : x < T.start (i + 1)) : T.index x = i := by
  have hle : i < T.index x + 1 := T.mono.lt_iff_lt.mp (hlo.trans_lt (T.lt_start_next x))
  have hge : T.index x < i + 1 := T.mono.lt_iff_lt.mp ((T.start_index_le x).trans_lt hhi)
  omega

theorem index_start (T : Tiling) (i : ℤ) : T.index (T.start i) = i :=
  index_eq le_rfl (T.mono (Int.lt_succ i))

theorem index_congr (hlo : T.first x ≤ y) (hhi : y ≤ T.last x) : T.index y = T.index x :=
  index_eq hlo (Int.lt_of_le_sub_one hhi)

theorem first_congr (h : T.index y = T.index x) : T.first y = T.first x := congrArg T.start h

theorem last_congr (h : T.index y = T.index x) : T.last y = T.last x := by
  rw [last, h, last]

theorem first_last_add_one (T : Tiling) (x : ℤ) : T.first (T.last x + 1) = T.last x + 1 := by
  rw [last_add_one, first, index_start]

theorem same_or_apart (T : Tiling) (x y : ℤ) :
    T.index x = T.index y ∨ T.last x < T.first y ∨ T.last y < T.first x := by
  rcases lt_trichotomy (T.index x) (T.index y) with hlt | heq | hgt
  · exact .inr (.inl (Int.sub_one_lt_of_le (T.mono.monotone (Int.add_one_le_of_lt hlt))))
  · exact .inl heq
  · exact .inr (.inr (Int.sub_one_lt_of_le (T.mono.monotone (Int.add_one_le_of_lt hgt))))

def uniform (k c : ℤ) (hk : 0 < k) : Tiling where
  start i := k * i + c
  index x := (x - c) / k
  mono i j hij := by
    have hmul := Int.mul_lt_mul_of_pos_left hij hk
    simpa using hmul
  start_index_le x := by
    have hle := Int.mul_ediv_self_le (x := x - c) hk.ne'
    omega
  lt_start_next x := by
    have hlt := Int.lt_mul_ediv_self_add (x := x - c) hk
    rw [Int.mul_add, Int.mul_one]
    omega

def scale (T : Tiling) (k c : ℤ) (hk : 0 < k) : Tiling where
  start i := k * T.start i - c
  index x := T.index ((x + c) / k)
  mono i j hij := by
    have hmul := Int.mul_lt_mul_of_pos_left (T.mono hij) hk
    exact Int.sub_lt_sub_right hmul c
  start_index_le x := by
    have hle := (Int.le_ediv_iff_mul_le hk).mp (T.start_index_le ((x + c) / k))
    rw [Int.mul_comm]
    omega
  lt_start_next x := by
    have hlt := (Int.ediv_lt_iff_lt_mul hk).mp (T.lt_start_next ((x + c) / k))
    rw [Int.mul_comm]
    omega

theorem start_scale (T : Tiling) (k c : ℤ) (hk : 0 < k) (i : ℤ) :
    (T.scale k c hk).start i = k * T.start i - c := rfl

theorem index_scale (T : Tiling) (k c : ℤ) (hk : 0 < k) (x : ℤ) :
    (T.scale k c hk).index x = T.index ((x + c) / k) := rfl

end Tiling
