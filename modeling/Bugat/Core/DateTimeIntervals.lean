import Mathlib
import Bugat.Core.DateTime

/-!
# The intervals of DateTime tile the time line

In local time the days, weeks and months are tilings of the days, and in milliseconds they
are the same tilings scaled. The six functions compute the first and the last member of the
interval of a count in these tilings.
-/

namespace Bugat.DateTime

open Gregorian (monthStart monthLength monthOf weekday days weeks months weeks_first days_first)

inductive Interval
  | day
  | week
  | month
  deriving DecidableEq, Repr

def Interval.ofDays : Interval → Tiling
  | .day => days
  | .week => weeks
  | .month => months

namespace Zone

variable (z : Zone) (u : Interval)

def startFromCount (count : ℤ) : ℤ :=
  match u with
  | .day => z.dayStartFromCount count
  | .week => z.weekStartFromCount count
  | .month => z.monthStartFromCount count

def endFromCount (count : ℤ) : ℤ :=
  match u with
  | .day => z.dayEndFromCount count
  | .week => z.weekEndFromCount count
  | .month => z.monthEndFromCount count

def midnight (d : ℤ) : ℤ := 1000 * (86400 * (d - epochDay) - z.offset)

/-- The intervals of a kind as a tiling of the counts. -/
def tiling : Tiling := u.ofDays.scale 86400000 (-z.midnight 0) (by decide)

def Representable (count : ℤ) : Prop := 1000 * z.earliest ≤ count

instance (count : ℤ) : Decidable (z.Representable count) :=
  inferInstanceAs (Decidable (_ ≤ _))

end Zone

variable {z : Zone} {u : Interval} {count x d t : ℤ}

theorem start_tiling (i : ℤ) : (z.tiling u).start i = z.midnight (u.ofDays.start i) := by
  rw [Zone.tiling, Tiling.start_scale, Zone.midnight, Zone.midnight]
  omega

theorem index_tiling (t : ℤ) : (z.tiling u).index (1000 * t) = u.ofDays.index (z.localDay t) := by
  rw [Zone.tiling, Tiling.index_scale, Zone.localDay, Zone.midnight]
  congr 1
  omega

theorem first_tiling (t : ℤ) :
    (z.tiling u).first (1000 * t) = z.midnight (u.ofDays.first (z.localDay t)) := by
  rw [Tiling.first, index_tiling, start_tiling, Tiling.first]

theorem last_tiling (t : ℤ) :
    (z.tiling u).last (1000 * t) =
      z.midnight (u.ofDays.start (u.ofDays.index (z.localDay t) + 1)) - 1 := by
  rw [Tiling.last, index_tiling, start_tiling]

theorem tmToCount_midnight {tm : Tm} (htime : tm.timeOfDay = 0)
    (h : z.Representable (z.midnight tm.day)) : z.tmToCount tm = z.midnight tm.day := by
  rw [Zone.Representable, Zone.midnight] at h
  rw [Zone.tmToCount, mktime_of_le (by omega), htime, Zone.midnight]
  omega

theorem startFromCount_eq (ht : z.earliest ≤ count.tdiv 1000)
    (h : z.Representable ((z.tiling u).first (1000 * count.tdiv 1000))) :
    z.startFromCount u count = (z.tiling u).first (1000 * count.tdiv 1000) := by
  rw [first_tiling] at h ⊢
  set t := count.tdiv 1000 with htdef
  have hday := day_localtime ht
  cases u with
  | day =>
    rw [Interval.ofDays, days_first, ← hday] at h ⊢
    exact tmToCount_midnight rfl h
  | week =>
    rw [Interval.ofDays, weeks_first, ← wday_localtime ht, ← hday] at h ⊢
    have hsame : (z.localtime t).day - (z.localtime t).wday =
        Tm.day { z.localtime t with mday := (z.localtime t).mday - (z.localtime t).wday } := by
      simp only [Tm.day, Tm.month]
      omega
    rw [hsame] at h ⊢
    exact tmToCount_midnight rfl h
  | month =>
    have hsame : months.first (z.localDay t) = Tm.day { z.localtime t with mday := 1 } := by
      have hmonth := month_localtime ht
      simp only [Tm.day, Tm.month] at hmonth ⊢
      rw [hmonth, Int.sub_self, Int.add_zero]
      rfl
    rw [Interval.ofDays, hsame] at h ⊢
    exact tmToCount_midnight rfl h

theorem endFromCount_eq (ht : z.earliest ≤ count.tdiv 1000)
    (h : z.Representable ((z.tiling u).last (1000 * count.tdiv 1000) + 1)) :
    z.endFromCount u count = (z.tiling u).last (1000 * count.tdiv 1000) := by
  rw [last_tiling, Int.sub_add_cancel] at h
  rw [last_tiling]
  set t := count.tdiv 1000 with htdef
  have hday := day_localtime ht
  cases u with
  | day =>
    have hsame : days.start (days.index (z.localDay t) + 1) =
        Tm.day { z.localtime t with mday := (z.localtime t).mday + 1 } := by
      have hnext := days_first (z.localDay t)
      rw [← hday] at hnext ⊢
      simp only [Tm.day, Tm.month, Tiling.first, days, Tiling.uniform] at hnext ⊢
      omega
    rw [Interval.ofDays, hsame] at h ⊢
    exact congrArg (· - 1) (tmToCount_midnight rfl h)
  | week =>
    have hsame : weeks.start (weeks.index (z.localDay t) + 1) =
        Tm.day { z.localtime t with
          mday := (z.localtime t).mday - (z.localtime t).wday + 7 } := by
      have hnext := weeks_first (z.localDay t)
      rw [← wday_localtime ht, ← hday] at hnext
      rw [← hday]
      simp only [Tm.day, Tm.month, Tiling.first, weeks, Tiling.uniform] at hnext ⊢
      omega
    rw [Interval.ofDays, hsame] at h ⊢
    exact congrArg (· - 1) (tmToCount_midnight rfl h)
  | month =>
    have hsame : months.start (months.index (z.localDay t) + 1) =
        Tm.day { z.localtime t with mday := 1, mon := (z.localtime t).mon + 1 } := by
      have hmonth := month_localtime ht
      simp only [Tm.day, Tm.month] at hmonth ⊢
      rw [← Int.add_assoc, hmonth, Int.sub_self, Int.add_zero]
      rfl
    rw [Interval.ofDays, hsame] at h ⊢
    exact congrArg (· - 1) (tmToCount_midnight rfl h)

theorem tdiv_mem {lo hi : ℤ} (hlo : lo ≤ x) (hhi : x ≤ hi) (hpos : 0 ≤ hi)
    (hlow : lo % 1000 = 0) (hhigh : (hi + 1) % 1000 = 0) :
    lo ≤ 1000 * x.tdiv 1000 ∧ 1000 * x.tdiv 1000 ≤ hi := by
  rw [Int.tdiv_eq_ediv]
  split
  · omega
  · simp only [Int.sign]
    omega

theorem midnight_emod (z : Zone) (d : ℤ) : z.midnight d % 1000 = 0 := Int.mul_emod_right _ _

theorem index_tdiv (hpos : 0 ≤ (z.tiling u).last count) (hlo : (z.tiling u).first count ≤ x)
    (hhi : x ≤ (z.tiling u).last count) :
    (z.tiling u).first count ≤ 1000 * x.tdiv 1000 ∧
      (z.tiling u).index (1000 * x.tdiv 1000) = (z.tiling u).index count := by
  have hlow : (z.tiling u).first count % 1000 = 0 := by
    rw [Tiling.first, start_tiling]
    exact midnight_emod z _
  have hhigh : ((z.tiling u).last count + 1) % 1000 = 0 := by
    rw [Tiling.last_add_one, start_tiling]
    exact midnight_emod z _
  obtain ⟨hge, hle⟩ := tdiv_mem hlo hhi hpos hlow hhigh
  exact ⟨hge, Tiling.index_congr hge hle⟩

theorem fromCount_of_mem (hpos : 0 ≤ (z.tiling u).last count)
    (hrep : z.Representable ((z.tiling u).first count)) (hlo : (z.tiling u).first count ≤ x)
    (hhi : x ≤ (z.tiling u).last count) :
    z.startFromCount u x = (z.tiling u).first count ∧
      z.endFromCount u x = (z.tiling u).last count := by
  obtain ⟨hge, hindex⟩ := index_tdiv hpos hlo hhi
  have ht : z.earliest ≤ x.tdiv 1000 := by
    rw [Zone.Representable] at hrep
    omega
  have hfirst := Tiling.first_congr hindex
  have hlast := Tiling.last_congr hindex
  have hnext : z.Representable ((z.tiling u).last count + 1) := by
    rw [Zone.Representable] at hrep ⊢
    have hcount := (z.tiling u).first_le count
    have hend := (z.tiling u).le_last count
    omega
  constructor
  · rw [startFromCount_eq ht (hfirst ▸ hrep), hfirst]
  · rw [endFromCount_eq ht (hlast ▸ hnext), hlast]

section Fields

theorem countToTm_midnight (h : z.Representable (z.midnight d)) :
    (z.countToTm (z.midnight d)).day = d ∧ (z.countToTm (z.midnight d)).hour = 0 ∧
      (z.countToTm (z.midnight d)).min = 0 ∧ (z.countToTm (z.midnight d)).sec = 0 ∧
      (z.countToTm (z.midnight d)).wday = weekday d ∧
      (z.countToTm (z.midnight d)).mday = d - monthStart (monthOf d) + 1 ∧
      (z.countToTm (z.midnight d)).month = monthOf d := by
  rw [Zone.Representable, Zone.midnight] at h
  have ht : z.earliest ≤ 86400 * (d - epochDay) - z.offset := by omega
  have hday : z.localDay (86400 * (d - epochDay) - z.offset) = d := by
    rw [Zone.localDay]
    omega
  rw [Zone.midnight, countToTm_mul, day_localtime ht, wday_localtime ht, mday_localtime ht,
    month_localtime ht, hday]
  refine ⟨rfl, ?_, ?_, ?_, rfl, rfl, rfl⟩ <;> simp only [Zone.localtime, if_pos ht] <;> omega

def Interval.Opens (u : Interval) (start tm : Tm) : Prop :=
  start.hour = 0 ∧ start.min = 0 ∧ start.sec = 0 ∧
    match u with
    | .day => start.day = tm.day
    | .week => start.wday = 0 ∧ start.day ≤ tm.day ∧ tm.day < start.day + 7
    | .month => start.mday = 1 ∧ start.month = tm.month

theorem opens_start (ht : z.earliest ≤ t)
    (h : z.Representable ((z.tiling u).first (1000 * t))) :
    u.Opens (z.countToTm ((z.tiling u).first (1000 * t))) (z.localtime t) := by
  rw [first_tiling] at h ⊢
  obtain ⟨hday, hhour, hmin, hsec, hwday, hmday, hmonth⟩ := countToTm_midnight h
  refine ⟨hhour, hmin, hsec, ?_⟩
  cases u with
  | day =>
    simp only [Interval.ofDays, days_first] at hday ⊢
    rw [hday, day_localtime ht]
  | week =>
    simp only [Interval.ofDays, weeks_first] at hday hwday ⊢
    rw [hday, hwday, day_localtime ht]
    simp only [weekday]
    omega
  | month =>
    have hindex : monthOf (months.first (z.localDay t)) = monthOf (z.localDay t) :=
      months.index_start _
    simp only [Interval.ofDays] at hmday hmonth ⊢
    rw [hmday, hmonth, month_localtime ht, hindex]
    refine ⟨?_, rfl⟩
    have hstart : months.first (z.localDay t) = monthStart (monthOf (z.localDay t)) := rfl
    rw [hstart, Int.sub_self]
    rfl

def Interval.Lasts (u : Interval) (length : ℤ) : Prop :=
  match u with
  | .day => length = 86400000
  | .week => length = 7 * 86400000
  | .month => True

theorem lasts_tiling (z : Zone) (u : Interval) (count : ℤ) :
    u.Lasts ((z.tiling u).last count + 1 - (z.tiling u).first count) := by
  rw [Tiling.last_add_one, Tiling.first, start_tiling, start_tiling, Zone.midnight, Zone.midnight]
  cases u with
  | day =>
    simp only [Interval.Lasts, Interval.ofDays, days, Tiling.uniform]
    omega
  | week =>
    simp only [Interval.Lasts, Interval.ofDays, weeks, Tiling.uniform]
    omega
  | month => trivial

end Fields

end Bugat.DateTime
