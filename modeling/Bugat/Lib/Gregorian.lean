import Mathlib
import Bugat.Lib.Tiling

/-!
# The proleptic Gregorian calendar

Days are numbered from 1 January of the year 0, which is day `0`, months from that January
on, which is month `0`. The months tile the days, and so do the weeks, which start on Sunday.
-/

namespace Gregorian

def isLeap (y : ℤ) : Bool := y % 4 = 0 ∧ (y % 100 ≠ 0 ∨ y % 400 = 0)

def yearStart (y : ℤ) : ℤ := 365 * y + (y + 3) / 4 - (y + 99) / 100 + (y + 399) / 400

def monthLengths (leap : Bool) : List ℕ :=
  [31, if leap then 29 else 28, 31, 30, 31, 30, 31, 31, 30, 31, 30, 31]

theorem yearStart_succ (y : ℤ) :
    yearStart (y + 1) = yearStart y + (monthLengths (isLeap y)).sum := by
  have hleap : (monthLengths true).sum = 366 := rfl
  have hcommon : (monthLengths false).sum = 365 := rfl
  cases hy : isLeap y with
  | true =>
    simp only [isLeap, decide_eq_true_eq] at hy
    simp only [yearStart, hleap]
    omega
  | false =>
    simp only [isLeap, decide_eq_false_iff_not] at hy
    simp only [yearStart, hcommon]
    omega

/-- The year of a day, from the mean length of a year, which is off by one at most. -/
def yearOf (d : ℤ) : ℤ :=
  let y := 400 * d / 146097
  if d < yearStart y then y - 1 else if d < yearStart (y + 1) then y else y + 1

theorem yearOf_spec (d : ℤ) : yearStart (yearOf d) ≤ d ∧ d < yearStart (yearOf d + 1) := by
  simp only [yearOf]
  split
  · rename_i hbefore
    rw [Int.sub_add_cancel]
    refine ⟨?_, hbefore⟩
    simp only [yearStart]
    omega
  · split
    · rename_i hge hlt
      exact ⟨not_lt.mp hge, hlt⟩
    · rename_i hge
      refine ⟨not_lt.mp hge, ?_⟩
      simp only [yearStart]
      omega

def daysBefore (leap : Bool) (m : ℕ) : ℕ := ((monthLengths leap).take m).sum

/-- The month of a year that has the day `r` of the year, found by counting down the lengths. -/
def monthOfYear : List ℕ → ℕ → ℕ
  | [], _ => 0
  | n :: ns, r => if r < n then 0 else monthOfYear ns (r - n) + 1

theorem monthOfYear_spec {ns : List ℕ} {r : ℕ} (h : r < ns.sum) :
    monthOfYear ns r < ns.length ∧ (ns.take (monthOfYear ns r)).sum ≤ r ∧
      r < (ns.take (monthOfYear ns r + 1)).sum := by
  induction ns generalizing r with
  | nil => simp at h
  | cons n ns ih =>
    rw [List.sum_cons] at h
    rw [monthOfYear]
    split
    · rename_i hlt
      simpa using hlt
    · rename_i hge
      obtain ⟨hlen, hlo, hhi⟩ := ih (r := r - n) (by omega)
      simp only [List.length_cons, List.take_succ_cons, List.sum_cons]
      omega

theorem daysBefore_year (leap : Bool) : daysBefore leap 12 = (monthLengths leap).sum := rfl

theorem daysBefore_succ (leap : Bool) {m : ℕ} (hm : m < 12) :
    daysBefore leap (m + 1) = daysBefore leap m + (monthLengths leap).getD m 0 := by
  have hlen : m < (monthLengths leap).length := hm
  rw [daysBefore, daysBefore, List.sum_take_succ _ _ hlen, List.getD_eq_getElem _ _ hlen]

theorem monthLengths_bounds (leap : Bool) {m : ℕ} (hm : m < 12) :
    28 ≤ (monthLengths leap).getD m 0 ∧ (monthLengths leap).getD m 0 ≤ 31 := by
  cases leap <;> interval_cases m <;> decide

def monthStart (M : ℤ) : ℤ :=
  yearStart (M / 12) + daysBefore (isLeap (M / 12)) (M % 12).toNat

def monthLength (M : ℤ) : ℤ := (monthLengths (isLeap (M / 12))).getD (M % 12).toNat 0

def monthOf (d : ℤ) : ℤ :=
  let y := yearOf d
  12 * y + monthOfYear (monthLengths (isLeap y)) (d - yearStart y).toNat

theorem monthLength_bounds (M : ℤ) : 28 ≤ monthLength M ∧ monthLength M ≤ 31 := by
  have hm : (M % 12).toNat < 12 := by omega
  obtain ⟨hlo, hhi⟩ := monthLengths_bounds (isLeap (M / 12)) hm
  rw [monthLength]
  omega

theorem monthStart_year (y : ℤ) {m : ℕ} (hm : m < 12) :
    monthStart (12 * y + m) = yearStart y + daysBefore (isLeap y) m := by
  have hdiv : (12 * y + m) / 12 = y := by omega
  have hmod : ((12 * y + m) % 12).toNat = m := by omega
  rw [monthStart, hdiv, hmod]

theorem monthStart_succ (M : ℤ) : monthStart (M + 1) = monthStart M + monthLength M := by
  set y := M / 12 with hy
  set m := (M % 12).toNat with hm
  have hlt : m < 12 := by omega
  have hM : M = 12 * y + m := by omega
  have hlength : monthLength M = (monthLengths (isLeap y)).getD m 0 := rfl
  have hsucc := daysBefore_succ (isLeap y) hlt
  rw [hlength, hM, monthStart_year y hlt]
  by_cases hlast : m + 1 < 12
  · have hnext := monthStart_year y hlast
    push_cast at hnext
    rw [Int.add_assoc, hnext, hsucc]
    push_cast
    omega
  · -- the month behind December is the January of the next year
    have hnext := monthStart_year (y + 1) (show 0 < 12 by decide)
    have hfirst : daysBefore (isLeap (y + 1)) 0 = 0 := rfl
    have htwelve : m + 1 = 12 := by omega
    rw [htwelve, daysBefore_year] at hsucc
    rw [show 12 * y + (m : ℤ) + 1 = 12 * (y + 1) + ((0 : ℕ) : ℤ) by omega, hnext, hfirst,
      yearStart_succ, hsucc]
    push_cast
    omega

theorem monthStart_strictMono : StrictMono monthStart := by
  apply strictMono_int_of_lt_succ
  intro M
  rw [monthStart_succ]
  have hpos := (monthLength_bounds M).1
  omega

theorem monthOf_spec (d : ℤ) : monthStart (monthOf d) ≤ d ∧ d < monthStart (monthOf d + 1) := by
  obtain ⟨hlo, hhi⟩ := yearOf_spec d
  set y := yearOf d with hy
  have hM : monthOf d =
      12 * y + monthOfYear (monthLengths (isLeap y)) (d - yearStart y).toNat := rfl
  have hsum : (d - yearStart y).toNat < (monthLengths (isLeap y)).sum := by
    rw [yearStart_succ] at hhi
    omega
  obtain ⟨hlen, hbefore, hafter⟩ := monthOfYear_spec hsum
  set m := monthOfYear (monthLengths (isLeap y)) (d - yearStart y).toNat with hm
  have hlt : m < 12 := hlen
  change daysBefore (isLeap y) m ≤ _ at hbefore
  change _ < daysBefore (isLeap y) (m + 1) at hafter
  rw [monthStart_succ, hM, monthStart_year y hlt]
  have hlength : monthLength (12 * y + m) = (monthLengths (isLeap y)).getD m 0 := by
    have hdiv : (12 * y + (m : ℤ)) / 12 = y := by omega
    have hmod : ((12 * y + (m : ℤ)) % 12).toNat = m := by omega
    rw [monthLength, hdiv, hmod]
  rw [hlength]
  rw [daysBefore_succ (isLeap y) hlt] at hafter
  omega

def months : Tiling where
  start := monthStart
  index := monthOf
  mono := monthStart_strictMono
  start_index_le d := (monthOf_spec d).1
  lt_start_next d := (monthOf_spec d).2

theorem monthOf_eq {M d : ℤ} (hlo : monthStart M ≤ d) (hhi : d < monthStart (M + 1)) :
    monthOf d = M := months.index_eq hlo hhi

/-- A day counted from the first of a month falls into it or, at the end of a longer one, into
the next. -/
theorem monthOf_add {M n : ℤ} (hn : 0 ≤ n) (hle : n < 31) :
    monthOf (monthStart M + n) = if n < monthLength M then M else M + 1 := by
  have hnext := monthStart_succ M
  split
  · exact monthOf_eq (by omega) (by omega)
  · have hafter := monthStart_succ (M + 1)
    have hlow := (monthLength_bounds M).1
    have hlow' := (monthLength_bounds (M + 1)).1
    exact monthOf_eq (by omega) (by omega)

theorem monthOf_offset (d : ℤ) : 0 ≤ d - monthStart (monthOf d) ∧
    d - monthStart (monthOf d) < monthLength (monthOf d) := by
  obtain ⟨hlo, hhi⟩ := monthOf_spec d
  rw [monthStart_succ] at hhi
  omega

def weekday (d : ℤ) : ℤ := (d + 6) % 7

/-- The days by their weeks. -/
def weeks : Tiling := Tiling.uniform 7 1 (by decide)

def days : Tiling := Tiling.uniform 1 0 (by decide)

theorem weeks_first (d : ℤ) : weeks.first d = d - weekday d := by
  simp only [Tiling.first, weeks, Tiling.uniform, weekday]
  omega

theorem days_first (d : ℤ) : days.first d = d := by
  simp only [Tiling.first, days, Tiling.uniform]
  omega

end Gregorian
