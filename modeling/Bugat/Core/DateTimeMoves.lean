import Mathlib
import Bugat.Core.DateTime

/-!
# Moves by months and years

`MoveMonth` and `MoveYear` change one field and leave the day of the month as it is. If the
month they move to is shorter, `mktime` carries the days that are left over into the next.
-/

namespace Bugat.DateTime

open Gregorian (monthStart monthLength monthOf monthLength_bounds monthOf_add monthOf_offset)
open MachineInt (wrap32 int32Max wrap32_eq_iff wrap32_add_one_ne)

/-- The count `moved` is in month `M`, at the time of day of `count`. -/
def Zone.Lands (z : Zone) (count moved M : ℤ) : Prop :=
  (z.countToTm moved).month = M ∧
    (z.countToTm moved).hour = (z.countToTm count).hour ∧
    (z.countToTm moved).min = (z.countToTm count).min ∧
    (z.countToTm moved).sec = (z.countToTm count).sec ∧
    moved.tmod 1000 = count.tmod 1000

instance (z : Zone) (count moved M : ℤ) : Decidable (z.Lands count moved M) :=
  inferInstanceAs (Decidable (_ ∧ _ ∧ _ ∧ _ ∧ _))

def FitsInt (x : ℤ) : Prop := -2 ^ 31 ≤ x ∧ x ≤ int32Max

instance (x : ℤ) : Decidable (FitsInt x) := inferInstanceAs (Decidable (_ ∧ _))

variable {z : Zone} {count k M : ℤ} {tm : Tm}

theorem countToTm_add {t ms : ℤ} (ht : 0 ≤ t) (hlo : 0 ≤ ms) (hhi : ms < 1000) :
    z.countToTm (1000 * t + ms) = z.localtime t ∧ (1000 * t + ms).tmod 1000 = ms := by
  have hdiv : (1000 * t + ms) / 1000 = t := by omega
  rw [Zone.countToTm, Int.tdiv_eq_ediv_of_nonneg (by omega), hdiv,
    Int.tmod_eq_emod_of_nonneg (by omega)]
  exact ⟨rfl, by omega⟩

theorem tmToCount_of_nonneg {ms : ℤ} (hms : ms < 1000) (h : 0 ≤ z.tmToCount tm + ms) :
    z.tmToCount tm = 1000 * (86400 * (tm.day - epochDay) + tm.timeOfDay - z.offset) := by
  rw [Zone.tmToCount, Zone.mktime] at h ⊢
  split at h
  · rename_i hle
    rw [if_pos hle]
    omega
  · omega

theorem moved_fields (tm : Tm) (hcount : 0 ≤ count) (hmday : tm.mday = (z.countToTm count).mday)
    (htime : tm.timeOfDay = (z.countToTm count).timeOfDay)
    (hmoved : 0 ≤ z.tmToCount tm + count.tmod 1000) :
    z.Lands count (z.tmToCount tm + count.tmod 1000)
      (if (z.countToTm count).mday ≤ monthLength tm.month then tm.month else tm.month + 1) := by
  obtain ⟨t, ms, rfl, ht, hlo, hhi⟩ : ∃ t ms, count = 1000 * t + ms ∧ 0 ≤ t ∧ 0 ≤ ms ∧ ms < 1000 :=
    ⟨count / 1000, count % 1000, by omega, by omega, by omega, by omega⟩
  have hle : z.earliest ≤ t := z.earliest_le.trans ht
  rw [Zone.Lands, (countToTm_add (z := z) ht hlo hhi).1, (countToTm_add (z := z) ht hlo hhi).2] at *
  rw [timeOfDay_localtime hle] at htime
  obtain ⟨t', ht'⟩ : ∃ t', t' = 86400 * (tm.day - epochDay) + tm.timeOfDay - z.offset := ⟨_, rfl⟩
  have hvalue := tmToCount_of_nonneg hhi hmoved
  rw [← ht'] at hvalue
  rw [hvalue] at hmoved ⊢
  have ht'pos : 0 ≤ t' := by omega
  have hle' : z.earliest ≤ t' := z.earliest_le.trans ht'pos
  rw [(countToTm_add (z := z) ht'pos hlo hhi).1, (countToTm_add (z := z) ht'pos hlo hhi).2]
  -- the time of day comes through, the day is counted from the first of the new month
  have hday : z.localDay t' = monthStart tm.month + ((z.localtime t).mday - 1) := by
    rw [Zone.localDay, ht', htime, ← hmday, Tm.day]
    omega
  obtain ⟨hmdayLo, hmdayHi⟩ := monthOf_offset (z.localDay t)
  have hlength := (monthLength_bounds (monthOf (z.localDay t))).2
  have hmdayEq := mday_localtime hle
  refine ⟨?_, ?_, ?_, ?_, rfl⟩
  · rw [month_localtime hle', hday, monthOf_add (by omega) (by omega)]
    simp only [Int.sub_one_lt_iff]
  all_goals
    simp only [Zone.localtime, if_pos hle, if_pos hle']
    omega

theorem lands_iff_of_moved {moved M' x : ℤ}
    (h : z.Lands count moved
      (if (z.countToTm count).mday ≤ monthLength M' then M' else M' + 1))
    (hsame : wrap32 x = x → M' = M) (hwrap : wrap32 x ≠ x → M' ≠ M ∧ M' + 1 ≠ M) :
    z.Lands count moved M ↔ FitsInt x ∧ (z.countToTm count).mday ≤ monthLength M := by
  have hmonth : z.Lands count moved M ↔
      (if (z.countToTm count).mday ≤ monthLength M' then M' else M' + 1) = M := by
    constructor
    · exact fun hlands => h.1.symm.trans hlands.1
    · exact fun heq => heq ▸ h
  rw [hmonth, FitsInt, ← wrap32_eq_iff]
  by_cases hx : wrap32 x = x
  · obtain rfl := hsame hx
    rw [and_iff_right hx]
    split
    · rename_i hle
      exact iff_of_true rfl hle
    · rename_i hgt
      exact iff_of_false (by omega) hgt
  · obtain ⟨hne, hne'⟩ := hwrap hx
    refine iff_of_false ?_ fun hand => hx hand.1
    split
    · exact hne
    · exact hne'

end Bugat.DateTime
