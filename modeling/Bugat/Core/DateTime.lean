import Mathlib
import Bugat.Lib.Gregorian
import Bugat.Lib.MachineInt

/-!
# DateTime: days, weeks and months of a millisecond count

A count is a number of milliseconds since the epoch. The functions of `DateTime` break it down
into the fields of a `tm` in local time, change some fields, possibly out of their ranges, and
let `mktime` put them together again. `localtime_s` and `mktime` follow the Gregorian calendar
at a fixed offset from UTC and fail for times that they cannot represent.
-/

namespace Bugat.DateTime

open Gregorian (monthStart monthLength monthOf weekday days weeks months weeks_first days_first)
open MachineInt (wrap32)

structure Tm where
  sec : ℤ
  min : ℤ
  hour : ℤ
  mday : ℤ
  mon : ℤ
  year : ℤ
  wday : ℤ
  deriving DecidableEq, Repr

/-- The offset of local time from UTC in seconds, and the first time that can be represented. -/
structure Zone where
  offset : ℤ
  earliest : ℤ
  earliest_le : earliest ≤ 0

def epochDay : ℤ := monthStart (12 * 1970)

/-- What `localtime_s` leaves in the `tm` when it fails. -/
def invalidTm : Tm := ⟨-1, -1, -1, -1, -1, -1, -1⟩

def Tm.month (tm : Tm) : ℤ := 12 * (tm.year + 1900) + tm.mon

/-- The day of the fields, normalised. -/
def Tm.day (tm : Tm) : ℤ := monthStart tm.month + (tm.mday - 1)

def Tm.timeOfDay (tm : Tm) : ℤ := 3600 * tm.hour + 60 * tm.min + tm.sec

namespace Zone

variable (z : Zone)

def localDay (t : ℤ) : ℤ := epochDay + (t + z.offset) / 86400

/-- `localtime_s`. -/
def localtime (t : ℤ) : Tm :=
  if z.earliest ≤ t then
    let s := t + z.offset
    let d := z.localDay t
    { sec := s % 60
      min := s / 60 % 60
      hour := s / 3600 % 24
      mday := d - monthStart (monthOf d) + 1
      mon := monthOf d % 12
      year := monthOf d / 12 - 1900
      wday := weekday d }
  else invalidTm

/-- `mktime`, which returns `-1` when it fails. -/
def mktime (tm : Tm) : ℤ :=
  let t := 86400 * (tm.day - epochDay) + tm.timeOfDay - z.offset
  if z.earliest ≤ t then t else -1

def tmToCount (tm : Tm) : ℤ := z.mktime tm * 1000

/-- `to_time_t` drops the milliseconds, toward zero. -/
def countToTm (count : ℤ) : Tm := z.localtime (count.tdiv 1000)

def monthStartFromCount (count : ℤ) : ℤ :=
  z.tmToCount { z.countToTm count with mday := 1, hour := 0, min := 0, sec := 0 }

def monthEndFromCount (count : ℤ) : ℤ :=
  let tm := { z.countToTm count with mday := 1, hour := 0, min := 0, sec := 0 }
  z.tmToCount { tm with mon := tm.mon + 1 } - 1

def weekStartFromCount (count : ℤ) : ℤ :=
  let tm := z.countToTm count
  z.tmToCount { tm with mday := tm.mday - tm.wday, hour := 0, min := 0, sec := 0 }

def weekEndFromCount (count : ℤ) : ℤ :=
  let tm := z.countToTm count
  let tm := { tm with mday := tm.mday - tm.wday, hour := 0, min := 0, sec := 0 }
  z.tmToCount { tm with mday := tm.mday + 7 } - 1

def dayStartFromCount (count : ℤ) : ℤ :=
  z.tmToCount { z.countToTm count with hour := 0, min := 0, sec := 0 }

def dayEndFromCount (count : ℤ) : ℤ :=
  let tm := { z.countToTm count with hour := 0, min := 0, sec := 0 }
  z.tmToCount { tm with mday := tm.mday + 1 } - 1

def moveYear (count year : ℤ) : ℤ :=
  let tm := z.countToTm count
  z.tmToCount { tm with year := wrap32 (tm.year + year) } + count.tmod 1000

def moveMonth (count month : ℤ) : ℤ :=
  let tm := z.countToTm count
  z.tmToCount { tm with mon := wrap32 (tm.mon + month) } + count.tmod 1000

end Zone

section Fields

variable {z : Zone} {t : ℤ}

theorem month_localtime (h : z.earliest ≤ t) : (z.localtime t).month = monthOf (z.localDay t) := by
  simp only [Zone.localtime, if_pos h, Tm.month]
  omega

theorem day_localtime (h : z.earliest ≤ t) : (z.localtime t).day = z.localDay t := by
  rw [Tm.day, month_localtime h]
  simp only [Zone.localtime, if_pos h]
  omega

theorem wday_localtime (h : z.earliest ≤ t) : (z.localtime t).wday = weekday (z.localDay t) := by
  rw [Zone.localtime, if_pos h]

theorem mday_localtime (h : z.earliest ≤ t) :
    (z.localtime t).mday = z.localDay t - monthStart (monthOf (z.localDay t)) + 1 := by
  rw [Zone.localtime, if_pos h]

theorem timeOfDay_localtime (h : z.earliest ≤ t) :
    (z.localtime t).timeOfDay = (t + z.offset) % 86400 := by
  simp only [Zone.localtime, if_pos h, Tm.timeOfDay]
  omega

theorem mktime_of_le {tm : Tm}
    (h : z.earliest ≤ 86400 * (tm.day - epochDay) + tm.timeOfDay - z.offset) :
    z.mktime tm = 86400 * (tm.day - epochDay) + tm.timeOfDay - z.offset := if_pos h

theorem countToTm_mul (z : Zone) (t : ℤ) : z.countToTm (1000 * t) = z.localtime t := by
  rw [Zone.countToTm, Int.mul_tdiv_cancel_left t (by decide)]

end Fields

end Bugat.DateTime
