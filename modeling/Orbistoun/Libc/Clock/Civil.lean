import Mathlib.Tactic
import Orbistoun.Lib.Gregorian
import Orbistoun.Lib.Signed

/-! # Dates from day counts and back

The era arithmetic of a day count: eras of four centuries from March of year zero, divided
truncating. For the days of any time it forms the calendar's dates, and day counts from dates,
with no overflow.
-/

namespace Orbistoun.Libc.Clock

open Orbistoun.Lib Signed Gregorian

/-- A date's year, month and day, the last two cut to thirty-two bits. -/
def civilFromDays (days : Int) : Option (Int × Int × Int) := do
  let z ← add I64 days 719468
  let below ← (if z ≥ 0 then some z else sub I64 z 146096 : Option Int)
  let era := below.tdiv 146097
  let doe ← sub I64 z (← mul I64 era 146097)
  let yoe := (← sub I64 (← add I64 (← sub I64 doe (doe.tdiv 1460)) (doe.tdiv 36524))
    (doe.tdiv 146096)).tdiv 365
  let year ← add I64 yoe (← mul I64 era 400)
  let doy ← sub I64 doe
    (← sub I64 (← add I64 (← mul I64 365 yoe) (yoe.tdiv 4)) (yoe.tdiv 100))
  let mp := (← add I64 (← mul I64 5 doy) 2).tdiv 153
  let day ← add I64 (← sub I64 doy ((← add I64 (← mul I64 153 mp) 2).tdiv 5)) 1
  let month ← (if mp < 10 then add I64 mp 3 else sub I64 mp 9 : Option Int)
  let month := asI32 month
  let year ← (if month ≤ 2 then add I64 year 1 else some year : Option Int)
  return (year, month, asI32 day)

def daysFromCivil (year month day : Int) : Option Int := do
  let year ← (if month ≤ 2 then sub I64 year 1 else some year : Option Int)
  let below ← (if year ≥ 0 then some year else sub I64 year 399 : Option Int)
  let era := below.tdiv 400
  let yoe ← sub I64 year (← mul I64 era 400)
  let mp := (← add I64 month 9).tmod 12
  let doy ← sub I64 (← add I64 ((← add I64 (← mul I64 153 mp) 2).tdiv 5) day) 1
  let doe ← add I64 (← sub I64 (← add I64 (← mul I64 yoe 365) (yoe.tdiv 4)) (yoe.tdiv 100)) doy
  sub I64 (← add I64 (← mul I64 era 146097) doe) 719468

variable {days doe : Int}

/-! ## Years of an era -/

/-- The century of a day of an era; the era's last day is in its last century. -/
theorem century (h : 0 ≤ doe) (h' : doe ≤ 146096) :
    ∃ c r, 0 ≤ c ∧ c ≤ 3 ∧ 0 ≤ r ∧ r ≤ 36524 ∧ (r = 36524 → c = 3) ∧ doe = 36524 * c + r ∧
      doe / 36524 - doe / 146096 = c :=
  ⟨doe / 36524 - doe / 146096, doe - 36524 * (doe / 36524 - doe / 146096), by omega⟩

/-- The four-year cycle and the year of a day of a century; a leap day is in a cycle's last. -/
theorem cycle {r : Int} (h : 0 ≤ r) (h' : r ≤ 36524) :
    ∃ q s doy, 0 ≤ q ∧ q ≤ 24 ∧ 0 ≤ s ∧ s ≤ 3 ∧ 0 ≤ doy ∧ doy ≤ 365 ∧ (doy = 365 → s = 3) ∧
      r = 1461 * q + 365 * s + doy :=
  ⟨r / 1461, r % 1461 / 365 - r % 1461 / 1460,
    r % 1461 - 365 * (r % 1461 / 365 - r % 1461 / 1460), by omega⟩

theorem yearOfEra {c q s doy : Int} (hc : 0 ≤ c) (hc' : c ≤ 3) (hq : 0 ≤ q) (hq' : q ≤ 24)
    (hs : 0 ≤ s) (hs' : s ≤ 3) (hdoy : 0 ≤ doy) (hdoy' : doy ≤ 365) (hleap : doy = 365 → s = 3)
    (hdoe : doe = 36524 * c + (1461 * q + 365 * s + doy))
    (hcentury : doe / 36524 - doe / 146096 = c) :
    (doe - doe / 1460 + doe / 36524 - doe / 146096) / 365 = 100 * c + 4 * q + s := by
  have hyears : doe / 1460 = 25 * c + q + (24 * c + q + 365 * s + doy) / 1460 := by omega
  have hdays : doe - doe / 1460 + doe / 36524 - doe / 146096 =
      365 * (100 * c + 4 * q + s) + (doy - (24 * c + q + 365 * s + doy) / 1460) := by omega
  rw [hdays]
  clear hdoe hcentury hyears hdays
  -- A leap cycle is one day short of its quarters only from the cycle's last day.
  have hnone : 0 ≤ (24 * c + q + 365 * s + doy) / 1460 :=
    Int.ediv_nonneg (by omega) (by decide)
  have hshort : (24 * c + q + 365 * s + doy) / 1460 ≤ doy := by omega
  have hlast : doy = 365 → 1 ≤ (24 * c + q + 365 * s + doy) / 1460 :=
    fun hend => Int.le_ediv_of_mul_le (by decide) (by have := hleap hend; omega)
  generalize (24 * c + q + 365 * s + doy) / 1460 = turn at *
  have hhigh : doy - turn < 365 := by
    clear hleap
    omega
  rw [add_comm, Int.add_mul_ediv_left _ _ (by decide), Int.ediv_eq_zero_of_lt (by omega) hhigh,
    zero_add]

/-- The year of an era starts at or before its days and the next after them. -/
theorem yoe_bounds {yoe : Int} (h : 0 ≤ doe) (h' : doe ≤ 146096)
    (hyoe : yoe = (doe - doe / 1460 + doe / 36524 - doe / 146096) / 365) :
    0 ≤ yoe ∧ yoe ≤ 399 ∧ 365 * yoe + yoe / 4 - yoe / 100 ≤ doe ∧
      doe < yearStart (yoe + 1) := by
  obtain ⟨c, r, hc, hc', hr, hr', hlast, hdoe, hcentury⟩ := century h h'
  obtain ⟨q, s, doy, hq, hq', hs, hs', hdoy, hdoy', hleap, rfl⟩ := cycle hr hr'
  rw [yearOfEra hc hc' hq hq' hs hs' hdoy hdoy' hleap hdoe hcentury] at hyoe
  have hend : s = 3 → q = 24 → doy = 365 → c = 3 := by omega
  clear hcentury hr hr' hlast
  have hquarters : yoe / 4 = 25 * c + q := by omega
  have hcenturies : yoe / 100 = c := by omega
  have hstart : 365 * yoe + yoe / 4 - yoe / 100 = 36524 * c + (1461 * q + 365 * s) := by
    rw [hquarters, hcenturies]
    omega
  refine ⟨by omega, by omega, by omega, ?_⟩
  unfold yearStart
  by_cases hlong : s = 3
  · by_cases hturn : q = 24
    · have hnext : (yoe + 1) / 4 = 25 * (c + 1) := by omega
      have hcentury : (yoe + 1) / 100 = c + 1 := by omega
      have hera : (yoe + 1) / 400 = (c + 1) / 4 := by omega
      rw [hnext, hcentury, hera]
      clear hnext hcentury hera hquarters hcenturies hstart
      omega
    · have hnext : (yoe + 1) / 4 = 25 * c + q + 1 := by omega
      have hcentury : (yoe + 1) / 100 = c := by omega
      have hera : (yoe + 1) / 400 = 0 := by omega
      rw [hnext, hcentury, hera]
      clear hnext hcentury hera hquarters hcenturies hstart
      omega
  · have hnext : (yoe + 1) / 4 = 25 * c + q := by omega
    have hcentury : (yoe + 1) / 100 = c := by omega
    have hera : (yoe + 1) / 400 = 0 := by omega
    rw [hnext, hcentury, hera]
    clear hnext hcentury hera hquarters hcenturies hstart
    omega

/-! ## The dates formed -/

theorem yearStart_era (yoe era : Int) (h : 0 ≤ yoe) (h' : yoe ≤ 399) :
    yearStart (yoe + era * 400) = era * 146097 + (365 * yoe + yoe / 4 - yoe / 100) := by
  unfold yearStart
  omega

theorem yearStart_next (yoe era : Int) :
    yearStart (yoe + era * 400 + 1) = era * 146097 + yearStart (yoe + 1) := by
  unfold yearStart
  omega

theorem civilFromDays_eq (h : -4611686018427387904 ≤ days) (h' : days < 4611686018427387904) :
    ∃ year doy, civilFromDays days = some ((marchDate year doy).year, (marchDate year doy).month,
        (marchDate year doy).day) ∧ 0 ≤ doy ∧ yearStart year + doy < yearStart (year + 1) ∧
      yearStart year + doy = days + 719468 := by
  unfold civilFromDays
  rw [add_I64 (by omega) (by omega), Option.bind_eq_bind, Option.bind_some]
  generalize hz : days + 719468 = z
  have hfloor : (if z ≥ 0 then z else z - 146096).tdiv 146097 = z / 146097 :=
    @tdiv_floor 146097 (by decide) z
  rw [lower_eq (fits_I64 (by omega) (by omega)), Option.bind_some, hfloor]
  generalize hera : z / 146097 = era
  dsimp only
  rw [mul_I64 (by omega) (by omega), Option.bind_some, sub_I64 (by omega) (by omega),
    Option.bind_some]
  generalize hdoe : z - era * 146097 = doe
  have hpos : 0 ≤ doe := by omega
  have hle : doe ≤ 146096 := by omega
  rw [Int.tdiv_eq_ediv_of_nonneg hpos, Int.tdiv_eq_ediv_of_nonneg hpos,
    Int.tdiv_eq_ediv_of_nonneg hpos, sub_I64 (by omega) (by omega), Option.bind_some,
    add_I64 (by omega) (by omega), Option.bind_some, sub_I64 (by omega) (by omega),
    Option.bind_some, Int.tdiv_eq_ediv_of_nonneg (by omega)]
  generalize hyoe : (doe - doe / 1460 + doe / 36524 - doe / 146096) / 365 = yoe
  obtain ⟨hlow, hhigh, hstart, hend⟩ := yoe_bounds hpos hle hyoe.symm
  rw [mul_I64 (by omega) (by omega), Option.bind_some, add_I64 (by omega) (by omega),
    Option.bind_some, mul_I64 (by omega) (by omega), Option.bind_some,
    Int.tdiv_eq_ediv_of_nonneg hlow, Int.tdiv_eq_ediv_of_nonneg hlow,
    add_I64 (by omega) (by omega), Option.bind_some, sub_I64 (by omega) (by omega),
    Option.bind_some, sub_I64 (by omega) (by omega), Option.bind_some]
  have hyear := yearStart_era yoe era hlow hhigh
  have hnext := yearStart_next yoe era
  generalize hdoy : doe - (365 * yoe + yoe / 4 - yoe / 100) = doy
  generalize hwhole : yoe + era * 400 = year at hyear hnext
  have hdoy' : 0 ≤ doy := by omega
  have hlast : yearStart year + doy < yearStart (year + 1) := by omega
  have hdoyle : doy ≤ 365 := by
    rw [yearStart_succ] at hlast
    split at hlast <;> omega
  rw [mul_I64 (by omega) (by omega), Option.bind_some, add_I64 (by omega) (by omega),
    Option.bind_some, Int.tdiv_eq_ediv_of_nonneg (by omega)]
  have hcount : yearStart year + doy = z := by
    rw [hyear, ← hdoy, ← hdoe]
    ring
  refine ⟨year, doy, ?_, hdoy', hlast, hcount⟩
  clear hyear hnext hcount hlast hyoe hdoe hdoy hend
  unfold marchDate
  generalize hmp : (5 * doy + 2) / 153 = mp
  dsimp only
  rw [mul_I64 (by omega) (by omega), Option.bind_some, add_I64 (by omega) (by omega),
    Option.bind_some, Int.tdiv_eq_ediv_of_nonneg (by omega), sub_I64 (by omega) (by omega),
    Option.bind_some, add_I64 (by omega) (by omega), Option.bind_some,
    add_I64 (by omega) (by omega), sub_I64 (by omega) (by omega)]
  have hday : asI32 (doy - (153 * mp + 2) / 5 + 1) = doy - (153 * mp + 2) / 5 + 1 :=
    asI32_eq (fits_I32 (by omega) (by omega))
  rw [hday]
  by_cases hearly : mp < 10
  · have hmonth : asI32 (mp + 3) = mp + 3 := asI32_eq (fits_I32 (by omega) (by omega))
    rw [if_pos hearly, if_pos hearly, if_pos hearly, Option.bind_some, hmonth,
      if_neg (by omega), Option.bind_some]
    rfl
  · have hmonth : asI32 (mp - 9) = mp - 9 := asI32_eq (fits_I32 (by omega) (by omega))
    rw [if_neg hearly, if_neg hearly, if_neg hearly, Option.bind_some, hmonth,
      if_pos (by omega), add_I64 (by omega) (by omega), Option.bind_some]
    rfl

/-- Day counts formed from valid dates are the calendar's, where the year is not too far off. -/
theorem daysFromCivil_eq {date : Date} (hvalid : date.Valid)
    (h : -549755813888 ≤ date.year) (h' : date.year < 549755813888) :
    daysFromCivil date.year date.month date.day = some (number date) := by
  have hbounds := monthLength_bounds date.year date.month
  obtain ⟨hpos, hle, hday, hlast⟩ := hvalid
  unfold daysFromCivil number marchDay marchMonth
  have hyear : (if date.month ≤ 2 then sub I64 date.year 1 else some date.year) =
      some (marchYear date) := by
    unfold marchYear
    rw [sub_I64 (by omega) (by omega)]
    split <;> rfl
  have hrange : -549755813889 ≤ marchYear date ∧ marchYear date < 549755813888 := by
    unfold marchYear
    split <;> omega
  rw [hyear, Option.bind_eq_bind, Option.bind_some]
  generalize marchYear date = year at hrange
  have hfloor : (if year ≥ 0 then year else year - 399).tdiv 400 = year / 400 :=
    @tdiv_floor 400 (by decide) year
  rw [lower_eq (fits_I64 (by omega) (by omega)), Option.bind_some, hfloor]
  dsimp only
  rw [mul_I64 (by omega) (by omega), Option.bind_some, sub_I64 (by omega) (by omega),
    Option.bind_some, add_I64 (by omega) (by omega), Option.bind_some,
    Int.tmod_eq_emod_of_nonneg (by omega), mul_I64 (by omega) (by omega), Option.bind_some,
    add_I64 (by omega) (by omega), Option.bind_some, Int.tdiv_eq_ediv_of_nonneg (by omega)]
  have hstart : 0 ≤ (153 * ((date.month + 9) % 12) + 2) / 5 ∧
      (153 * ((date.month + 9) % 12) + 2) / 5 ≤ 337 := by omega
  generalize (153 * ((date.month + 9) % 12) + 2) / 5 = start at hstart
  rw [add_I64 (by omega) (by omega), Option.bind_some, sub_I64 (by omega) (by omega),
    Option.bind_some]
  generalize hdoy : start + date.day - 1 = doy
  have hdoy' : -1 ≤ doy ∧ doy ≤ 400 := by omega
  have hera : year = year / 400 * 400 + (year - year / 400 * 400) := by omega
  have hyoe : 0 ≤ year - year / 400 * 400 ∧ year - year / 400 * 400 ≤ 399 := by omega
  have hyears := yearStart_era _ (year / 400) hyoe.1 hyoe.2
  rw [sub_add_cancel] at hyears
  rw [hyears]
  have heras : -1374389535 ≤ year / 400 ∧ year / 400 < 1374389535 := by omega
  generalize year / 400 = era at heras hyoe
  generalize year - era * 400 = yoe at hyoe
  rw [Int.tdiv_eq_ediv_of_nonneg hyoe.1, Int.tdiv_eq_ediv_of_nonneg hyoe.1,
    mul_I64 (by omega) (by omega), Option.bind_some, add_I64 (by omega) (by omega),
    Option.bind_some, sub_I64 (by omega) (by omega), Option.bind_some,
    add_I64 (by omega) (by omega), Option.bind_some, mul_I64 (by omega) (by omega),
    Option.bind_some, add_I64 (by omega) (by omega), Option.bind_some,
    sub_I64 (by omega) (by omega)]
  congr 1
  ring

theorem civilFromDays_dateOf (h : -4611686018427387904 ≤ days) (h' : days < 4611686018427387904) :
    civilFromDays days =
      some ((dateOf days).year, (dateOf days).month, (dateOf days).day) := by
  obtain ⟨year, doy, heq, hpos, hlt, hcount⟩ := civilFromDays_eq h h'
  have hvalid := marchDate_valid hpos hlt
  have hle : doy ≤ 365 := by
    rw [yearStart_succ] at hlt
    split at hlt <;> omega
  have hnumber : number (marchDate year doy) = days := by
    rw [number_marchDate hpos hle]
    omega
  rw [heq, eq_dateOf hvalid hnumber]

theorem year_bounds (h : -140737488355328 ≤ days) (h' : days < 140737488355328) :
    -549755813888 ≤ (dateOf days).year ∧ (dateOf days).year < 549755813888 := by
  obtain ⟨hvalid, hnumber⟩ := dateOf_counted days
  have hbounds := marchDay_bounds hvalid
  have hyears : marchYear (dateOf days) ≤ (dateOf days).year ∧
      (dateOf days).year ≤ marchYear (dateOf days) + 1 := by
    unfold marchYear
    split <;> omega
  unfold number at hnumber
  unfold yearStart at *
  omega

theorem daysFromCivil_dateOf (h : -140737488355328 ≤ days) (h' : days < 140737488355328) :
    daysFromCivil (dateOf days).year (dateOf days).month (dateOf days).day = some days := by
  obtain ⟨hvalid, hnumber⟩ := dateOf_counted days
  obtain ⟨hlow, hhigh⟩ := year_bounds h h'
  rw [daysFromCivil_eq hvalid hlow hhigh, hnumber]

end Orbistoun.Libc.Clock
