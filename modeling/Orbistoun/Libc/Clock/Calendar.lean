import Mathlib.Tactic
import Orbistoun.Libc.Clock.Tm

/-! # The calendar of broken-down times

Every time breaks down into fields in their ranges that denote it, and every structure's fields
carry into the time it denotes; a structure a time broke down into counts to that time again.
-/

namespace Orbistoun.Libc.Clock

open Orbistoun.Lib Signed Gregorian

variable {secs days : Int} {fields : Fields} {date : Date}

/-- The fields of a count of seconds whose days lead to a date. -/
structure Breaks (secs days : Int) (fields : Fields) : Prop where
  carried : secs = days * 86400 + fields.hour.toInt * 3600 + fields.min.toInt * 60 +
    fields.sec.toInt
  date : dateOf days = ⟨1900 + fields.year.toInt, fields.mon.toInt + 1, fields.mday.toInt⟩
  wday : fields.wday.toInt = weekday days
  yday : fields.yday.toInt = (dateOf days).dayOfYear
  isdst : fields.isdst = 0

/-- The time six fields denote: months carry into years, and days, hours, minutes and seconds into
days from the first of the month. -/
structure Denotes (fields : Fields) (first secs : Int) : Prop where
  month : dateOf first =
    ⟨1900 + fields.year.toInt + fields.mon.toInt / 12, fields.mon.toInt % 12 + 1, 1⟩
  carried : secs = (((first + (fields.mday.toInt - 1)) * 24 + fields.hour.toInt) * 60 +
    fields.min.toInt) * 60 + fields.sec.toInt

/-- Every field but the year in the range the standard gives it. -/
structure Fields.InRange (fields : Fields) : Prop where
  sec : 0 ≤ fields.sec.toInt ∧ fields.sec.toInt ≤ 59
  min : 0 ≤ fields.min.toInt ∧ fields.min.toInt ≤ 59
  hour : 0 ≤ fields.hour.toInt ∧ fields.hour.toInt ≤ 23
  mday : 1 ≤ fields.mday.toInt ∧ fields.mday.toInt ≤ 31
  mon : 0 ≤ fields.mon.toInt ∧ fields.mon.toInt ≤ 11
  wday : 0 ≤ fields.wday.toInt ∧ fields.wday.toInt ≤ 6
  yday : 0 ≤ fields.yday.toInt ∧ fields.yday.toInt ≤ 365

/-- The year of the date so many days on is one the structure's field can hold. -/
def YearFits (days : Int) : Prop := Fits I32 ((dateOf days).year - 1900)

instance (days : Int) : Decidable (YearFits days) := by
  unfold YearFits
  infer_instance

/-! ## Days of the year -/

theorem monthLength_congr {year other : Int} (h : Leap year ↔ Leap other) :
    monthLength year = monthLength other := by
  funext month
  unfold monthLength
  simp only [h]

theorem before_of {year month : Int} (hyear : year = 4 ∨ year = 1) (h : 1 ≤ month)
    (h' : month ≤ 12) : ∃ before, index BEFORE (month - 1) = some before ∧ 0 ≤ before ∧
      before ≤ 334 ∧
      before + (if Leap year ∧ 2 < month then 1 else 0) + monthLength year month ≤ 366 ∧
      ((List.range (month - 1).toNat).map (fun earlier : Nat =>
        monthLength year (earlier + 1))).sum = before + if Leap year ∧ 2 < month then 1 else 0 := by
  rcases hyear with rfl | rfl <;> interval_cases month <;>
    exact ⟨_, rfl, by decide, by decide, by decide, by decide⟩

theorem before_eq {year month : Int} (h : 1 ≤ month) (h' : month ≤ 12) :
    ∃ before, index BEFORE (month - 1) = some before ∧ 0 ≤ before ∧ before ≤ 334 ∧
      before + (if Leap year ∧ 2 < month then 1 else 0) + monthLength year month ≤ 366 ∧
      ((List.range (month - 1).toNat).map (fun earlier : Nat =>
        monthLength year (earlier + 1))).sum = before + if Leap year ∧ 2 < month then 1 else 0 := by
  by_cases hleap : Leap year
  · have hiff : Leap year ↔ Leap 4 := iff_of_true hleap (by decide)
    simp only [monthLength_congr hiff, hiff]
    exact before_of (Or.inl rfl) h h'
  · have hiff : Leap year ↔ Leap 1 := iff_of_false hleap (by decide)
    simp only [monthLength_congr hiff, hiff]
    exact before_of (Or.inr rfl) h h'

theorem leap_iff (year : Int) :
    year.tmod 4 = 0 ∧ year.tmod 100 ≠ 0 ∨ year.tmod 400 = 0 ↔ Leap year := by
  unfold Leap
  rw [← Int.dvd_iff_tmod_eq_zero, ← Int.dvd_iff_tmod_eq_zero, Ne, ← Int.dvd_iff_tmod_eq_zero,
    Int.dvd_iff_emod_eq_zero, Int.dvd_iff_emod_eq_zero, Int.dvd_iff_emod_eq_zero]

theorem yday_eq (hvalid : date.Valid) :
    yday date.year date.month date.day = some date.dayOfYear ∧
      0 ≤ date.dayOfYear ∧ date.dayOfYear ≤ 365 := by
  have hbounds := monthLength_bounds date.year date.month
  obtain ⟨hpos, hle, hday, hlast⟩ := hvalid
  obtain ⟨before, hbefore, hlow, hhigh, hlength, hsum⟩ := @before_eq date.year _ hpos hle
  have hcount : date.dayOfYear =
      before + (if Leap date.year ∧ 2 < date.month then 1 else 0) + date.day - 1 := by
    unfold Date.dayOfYear
    rw [hsum]
  have hadded : 0 ≤ (if Leap date.year ∧ 2 < date.month then (1 : Int) else 0) ∧
      (if Leap date.year ∧ 2 < date.month then (1 : Int) else 0) ≤ 1 := by
    split <;> decide
  refine ⟨?_, by omega, by omega⟩
  unfold yday
  rw [sub_eq (fits_I32 (by omega) (by omega)), Option.bind_eq_bind, Option.bind_some, hbefore,
    Option.bind_some, sub_eq (fits_I32 (by omega) (by omega)), Option.bind_some,
    add_eq (fits_I32 (by omega) (by omega)), Option.bind_some,
    add_eq (fits_I32 (by omega) (by omega)), hcount]
  by_cases hleap : Leap date.year
  · rw [decide_eq_true ((leap_iff _).mpr hleap)]
    by_cases hlate : 2 < date.month
    · rw [if_pos (show (true && decide (date.month > 2)) = true by simpa using hlate),
        if_pos ⟨hleap, hlate⟩]
      congr 1
      omega
    · rw [if_neg (show ¬ (true && decide (date.month > 2)) = true by simpa using hlate),
        if_neg (fun h => hlate h.2)]
      congr 1
      omega
  · rw [decide_eq_false (fun h => hleap ((leap_iff _).mp h)), Bool.false_and,
      if_neg Bool.false_ne_true, if_neg (fun h => hleap h.1)]
    congr 1
    omega

/-! ## Breaking down -/

/-- A field of a small integer holds it. -/
theorem toInt_ofInt {x : Int} (h : Fits I32 x) : (Int32.ofInt x).toInt = x :=
  Int32.toInt_ofInt_of_le h.1 h.2

theorem brokenDown_eq (h : Fits I64 secs) :
    ∃ fields, brokenDown secs = some fields ∧ fields.InRange ∧
      (YearFits (secs / 86400) → Breaks secs (secs / 86400) fields) := by
  unfold Fits I64 at h
  have hdays : -140737488355328 ≤ secs / 86400 ∧ secs / 86400 < 140737488355328 := by omega
  obtain ⟨hvalid, hnumber⟩ := dateOf_counted (secs / 86400)
  have hyears := year_bounds hdays.1 hdays.2
  obtain ⟨hyday, hlow, hhigh⟩ := yday_eq hvalid
  have hlength := monthLength_bounds (dateOf (secs / 86400)).year (dateOf (secs / 86400)).month
  have hmonth := hvalid.month_pos
  have hmonth' := hvalid.month_le
  have hday := hvalid.day_pos
  have hday' := hvalid.day_le
  have hrem : 0 ≤ secs % 86400 ∧ secs % 86400 < 86400 := by omega
  have hsplit : secs = secs / 86400 * 86400 + secs % 86400 := by omega
  unfold brokenDown
  dsimp only
  generalize secs / 86400 = days at *
  generalize secs % 86400 = rem at *
  rw [add_I64 (by omega) (by omega), Option.bind_eq_bind, Option.bind_some,
    civilFromDays_dateOf (by omega) (by omega), Option.bind_eq_bind, Option.bind_some]
  dsimp only
  rw [sub_eq (fits_I32 (by omega) (by omega)), Option.bind_some,
    sub_I64 (by omega) (by omega), Option.bind_some, hyday, Option.bind_some,
    Int.tmod_eq_emod_of_nonneg hrem.1, Int.tmod_eq_emod_of_nonneg hrem.1,
    Int.tdiv_eq_ediv_of_nonneg hrem.1, Int.tdiv_eq_ediv_of_nonneg (by omega)]
  have hsec : (Int32.ofInt (rem % 60)).toInt = rem % 60 :=
    toInt_ofInt (fits_I32 (by omega) (by omega))
  have hmin : (Int32.ofInt (rem % 3600 / 60)).toInt = rem % 3600 / 60 :=
    toInt_ofInt (fits_I32 (by omega) (by omega))
  have hhour : (Int32.ofInt (rem / 3600)).toInt = rem / 3600 :=
    toInt_ofInt (fits_I32 (by omega) (by omega))
  have hmday : (Int32.ofInt (dateOf days).day).toInt = (dateOf days).day :=
    toInt_ofInt (fits_I32 (by omega) (by omega))
  have hmon : (Int32.ofInt ((dateOf days).month - 1)).toInt = (dateOf days).month - 1 :=
    toInt_ofInt (fits_I32 (by omega) (by omega))
  have hwday : (Int32.ofInt ((days + 4) % 7)).toInt = (days + 4) % 7 :=
    toInt_ofInt (fits_I32 (by omega) (by omega))
  have hyday' : (Int32.ofInt (dateOf days).dayOfYear).toInt = (dateOf days).dayOfYear :=
    toInt_ofInt (fits_I32 (by omega) (by omega))
  refine ⟨_, rfl, ?_, ?_⟩
  · constructor <;> dsimp only <;> omega
  · intro hfits
    have hyear := toInt_ofInt hfits
    constructor
    · dsimp only
      omega
    · dsimp only
      rw [hyear, hmon, hmday]
      ext <;> dsimp only <;> omega
    · exact hwday
    · exact hyday'
    · rfl

/-! ## Counting -/

theorem first_bounds {year month : Int} (hmonth : 1 ≤ month) (hmonth' : month ≤ 12)
    (hyear : -4294967296 ≤ year) (hyear' : year ≤ 4294967296) :
    daysFromCivil year month 1 = some (number ⟨year, month, 1⟩) ∧
      dateOf (number ⟨year, month, 1⟩) = ⟨year, month, 1⟩ ∧
      -2000000000000 ≤ number ⟨year, month, 1⟩ ∧ number ⟨year, month, 1⟩ ≤ 2000000000000 := by
  have hlength := monthLength_bounds year month
  have hvalid : Date.Valid ⟨year, month, 1⟩ := ⟨hmonth, hmonth', le_refl 1, by simp only; omega⟩
  have hdays := daysFromCivil_eq hvalid (by simp only; omega) (by simp only; omega)
  refine ⟨hdays, (eq_dateOf hvalid rfl).symm, ?_⟩
  rw [number_mk]
  unfold yearStart
  split <;> omega

/-- Every structure's fields count to the time they denote, and leave the structure the breakdown of
that time. -/
theorem mktime_eq (tm : Tm) : ∃ first secs fields, Denotes tm.toFields first secs ∧
    Fits I64 secs ∧ brokenDown secs = some fields ∧
    mktime (some tm) = some ((Int64.ofInt secs).toUInt64, some (writeTm tm fields)) := by
  have hsec := tm.sec.le_toInt
  have hsec' := tm.sec.toInt_lt
  have hmin := tm.min.le_toInt
  have hmin' := tm.min.toInt_lt
  have hhour := tm.hour.le_toInt
  have hhour' := tm.hour.toInt_lt
  have hmday := tm.mday.le_toInt
  have hmday' := tm.mday.toInt_lt
  have hmon := tm.mon.le_toInt
  have hmon' := tm.mon.toInt_lt
  have hyear := tm.year.le_toInt
  have hyear' := tm.year.toInt_lt
  norm_num at hsec hsec' hmin hmin' hhour hhour' hmday hmday' hmon hmon' hyear hyear'
  have hwhole : -4294967296 ≤ 1900 + tm.year.toInt + tm.mon.toInt / 12 ∧
      1900 + tm.year.toInt + tm.mon.toInt / 12 ≤ 4294967296 := by omega
  have hmonth : 1 ≤ tm.mon.toInt % 12 + 1 ∧ tm.mon.toInt % 12 + 1 ≤ 12 := by omega
  obtain ⟨hfirst, hdate, hlow, hhigh⟩ := first_bounds hmonth.1 hmonth.2 hwhole.1 hwhole.2
  unfold mktime
  dsimp only
  rw [add_I64 (by omega) (by omega), Option.bind_eq_bind, Option.bind_some,
    add_I64 (by omega) (by omega), Option.bind_some, add_I64 (by omega) (by omega),
    Option.bind_some, hfirst, Option.bind_some]
  generalize number ⟨1900 + tm.year.toInt + tm.mon.toInt / 12, tm.mon.toInt % 12 + 1, 1⟩ = first at *
  rw [add_I64 (by omega) (by omega), Option.bind_some, sub_I64 (by omega) (by omega),
    Option.bind_some, mul_I64 (by omega) (by omega), Option.bind_some,
    mul_I64 (by omega) (by omega), Option.bind_some, add_I64 (by omega) (by omega),
    Option.bind_some, mul_I64 (by omega) (by omega), Option.bind_some,
    add_I64 (by omega) (by omega), Option.bind_some, add_I64 (by omega) (by omega),
    Option.bind_some]
  generalize hsecs : (first + tm.mday.toInt - 1) * 86400 + tm.hour.toInt * 3600 +
    tm.min.toInt * 60 + tm.sec.toInt = secs
  have hfits : Fits I64 secs := fits_I64 (by omega) (by omega)
  obtain ⟨fields, hfields, -⟩ := brokenDown_eq hfits
  rw [hfields, Option.bind_eq_bind, Option.bind_some]
  exact ⟨first, secs, fields, ⟨hdate, by omega⟩, hfits, hfields, rfl⟩

theorem Breaks.denotes (h : Breaks secs days fields) (hin : fields.InRange) {first later : Int}
    (hdenotes : Denotes fields first later) : later = secs := by
  obtain ⟨hlow, hhigh⟩ := hin.mon
  have hdate := h.date
  have hcarried := h.carried
  obtain ⟨hmonth, hlater⟩ := hdenotes
  have hyears : fields.mon.toInt / 12 = 0 := by omega
  have hmonths : fields.mon.toInt % 12 = fields.mon.toInt := by omega
  rw [hyears, hmonths, add_zero] at hmonth
  have hfirst := (dateOf_counted first).2
  have hdays := (dateOf_counted days).2
  rw [hmonth, number_mk] at hfirst
  rw [hdate, number_mk] at hdays
  omega

/-! ## What the calls answer -/

/-- Every time breaks down with no overflow, into fields in range that denote it where the year's
field can, and its day count comes back from its date. -/
theorem localtime_breaks (t : Int64) : ∃ fields, localtime (some t) = some (some (fillTm fields)) ∧
    (∀ result, breakdownS (some t) (some result) = some (some (writeTm result fields))) ∧
    fields.InRange ∧ (YearFits (t.toInt / 86400) → Breaks t.toInt (t.toInt / 86400) fields) ∧
    ∃ year month day, civilFromDays (t.toInt / 86400) = some (year, month, day) ∧
      daysFromCivil year month day = some (t.toInt / 86400) := by
  have hlow := t.le_toInt
  have hhigh := t.toInt_lt
  norm_num at hlow hhigh
  obtain ⟨fields, hfields, hin, hbreaks⟩ := brokenDown_eq (fits_I64 hlow hhigh)
  refine ⟨fields, ?_, ?_, hin, hbreaks, _, _, _, civilFromDays_dateOf (by omega) (by omega),
    daysFromCivil_dateOf (by omega) (by omega)⟩
  · unfold localtime
    dsimp only
    rw [hfields]
    rfl
  · intro result
    unfold breakdownS
    dsimp only
    rw [hfields]
    rfl

/-- Every structure counts, with no overflow, to the time its fields denote as they carry, and is
left the breakdown of that time, whether or not its year's field can hold the year. -/
theorem mktime_carries (tm : Tm) : ∃ secs fields, (∃ first, Denotes tm.toFields first secs) ∧
    mktime (some tm) = some ((Int64.ofInt secs).toUInt64, some (writeTm tm fields)) ∧
    (Int64.ofInt secs).toInt = secs ∧
    localtime (some (Int64.ofInt secs)) = some (some (fillTm fields)) ∧
    fields.InRange ∧ (YearFits (secs / 86400) → Breaks secs (secs / 86400) fields) := by
  obtain ⟨first, secs, fields, hdenotes, hfits, hfields, hmktime⟩ := mktime_eq tm
  obtain ⟨again, hagain, hin, hbreaks⟩ := brokenDown_eq hfits
  rw [hfields] at hagain
  rw [← Option.some.inj hagain] at hin hbreaks
  have hword : (Int64.ofInt secs).toInt = secs := by
    obtain ⟨hlow, hhigh⟩ := hfits
    unfold I64 at hlow hhigh
    exact Int64.toInt_ofInt_of_le (by omega) (by omega)
  have hlocal : localtime (some (Int64.ofInt secs)) = some (some (fillTm fields)) := by
    unfold localtime
    dsimp only
    rw [hword, hfields]
    rfl
  exact ⟨secs, fields, ⟨first, hdenotes⟩, hmktime, hword, hlocal, hin, hbreaks⟩

/-- A structure a time broke down into counts to that time, and is left as it was. -/
theorem mktime_localtime (t : Int64) (h : YearFits (t.toInt / 86400)) :
    ∃ tm, localtime (some t) = some (some tm) ∧ Breaks t.toInt (t.toInt / 86400) tm.toFields ∧
      mktime (some tm) = some (t.toUInt64, some tm) := by
  have hlow := t.le_toInt
  have hhigh := t.toInt_lt
  norm_num at hlow hhigh
  obtain ⟨fields, hfields, hin, hbreaks⟩ := brokenDown_eq (fits_I64 hlow hhigh)
  obtain ⟨first, secs, again, hdenotes, -, hagain, hmktime⟩ := mktime_eq (fillTm fields)
  have hsecs := (hbreaks h).denotes hin hdenotes
  refine ⟨fillTm fields, ?_, hbreaks h, ?_⟩
  · unfold localtime
    dsimp only
    rw [hfields]
    rfl
  · rw [hsecs, hfields] at hagain
    rw [hmktime, hsecs, Int64.ofInt_toInt, ← Option.some.inj hagain]
    rfl

/-- The leap day of 1968, before the epoch. -/
theorem mktime_localtime_leapDay : YearFits ((-58015504 : Int64).toInt / 86400) ∧
    ∃ tm, localtime (some (-58015504)) = some (some tm) ∧ Breaks (-58015504 : Int64).toInt
      ((-58015504 : Int64).toInt / 86400) tm.toFields ∧
      mktime (some tm) = some ((-58015504 : Int64).toUInt64, some tm) :=
  ⟨by decide +kernel, mktime_localtime (-58015504) (by decide +kernel)⟩

theorem index_isSome {table : List α} {i : Int} (h : 0 ≤ i) (h' : i < table.length) :
    ∃ entry, index table i = some entry := by
  unfold index
  rw [if_neg (not_lt.mpr h)]
  exact ⟨_, List.getElem?_eq_getElem (by omega)⟩

/-- Of all structures, only those of a year past the last a word holds are not rendered. -/
theorem asctime_renders (tm : Tm) :
    (asctime (some tm)).isSome ↔ tm.year.toInt + 1900 < 2147483648 := by
  have hlow := tm.year.le_toInt
  norm_num at hlow
  obtain ⟨day, hday⟩ := @index_isSome _ DAY_NAME (tm.wday.toInt % 7) (by omega)
    (by unfold DAY_NAME; simp only [List.length_cons, List.length_nil]; omega)
  obtain ⟨month, hmonth⟩ := @index_isSome _ MONTH_NAME (tm.mon.toInt % 12) (by omega)
    (by unfold MONTH_NAME; simp only [List.length_cons, List.length_nil]; omega)
  unfold asctime
  dsimp only
  rw [hday, Option.bind_eq_bind, Option.bind_some, hmonth, Option.bind_eq_bind, Option.bind_some,
    Option.isSome_bind]
  unfold add
  by_cases h : tm.year.toInt + 1900 < 2147483648
  · rw [checked, if_pos (fits_I32 (by omega) h)]
    exact iff_of_true rfl h
  · rw [checked, if_neg (fun hfits => h hfits.2)]
    exact iff_of_false Bool.false_ne_true h

end Orbistoun.Libc.Clock
