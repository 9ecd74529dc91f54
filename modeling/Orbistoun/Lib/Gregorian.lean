import Mathlib.Tactic

/-! # The proleptic Gregorian calendar

Dates go on day by day from the epoch, forwards and backwards, with leap centuries every fourth. A
date's number of days since the epoch is counted in years that start in March, so that the leap day
is a year's last.
-/

namespace Orbistoun.Lib.Gregorian

def Leap (year : Int) : Prop := year % 4 = 0 ∧ year % 100 ≠ 0 ∨ year % 400 = 0

instance (year : Int) : Decidable (Leap year) := by
  unfold Leap
  infer_instance

def monthLength (year month : Int) : Int :=
  if month = 2 then if Leap year then 29 else 28
  else if month = 4 ∨ month = 6 ∨ month = 9 ∨ month = 11 then 30
  else 31

@[ext]
structure Date where
  year : Int
  month : Int
  day : Int
  deriving DecidableEq

namespace Date

structure Valid (date : Date) : Prop where
  month_pos : 1 ≤ date.month
  month_le : date.month ≤ 12
  day_pos : 1 ≤ date.day
  day_le : date.day ≤ monthLength date.year date.month

def next (date : Date) : Date :=
  if date.day < monthLength date.year date.month then ⟨date.year, date.month, date.day + 1⟩
  else if date.month < 12 then ⟨date.year, date.month + 1, 1⟩
  else ⟨date.year + 1, 1, 1⟩

def prev (date : Date) : Date :=
  if 1 < date.day then ⟨date.year, date.month, date.day - 1⟩
  else if 1 < date.month then ⟨date.year, date.month - 1, monthLength date.year (date.month - 1)⟩
  else ⟨date.year - 1, 12, 31⟩

def dayOfYear (date : Date) : Int :=
  ((List.range (date.month - 1).toNat).map (fun earlier : Nat =>
    monthLength date.year (earlier + 1))).sum + date.day - 1

end Date

def epoch : Date := ⟨1970, 1, 1⟩

def dateOf : Int → Date
  | .ofNat days => Date.next^[days] epoch
  | .negSucc days => Date.prev^[days + 1] epoch

theorem dateOf_ofNat (days : Nat) : dateOf (.ofNat days) = Date.next^[days] epoch := rfl

theorem dateOf_negSucc (days : Nat) : dateOf (.negSucc days) = Date.prev^[days + 1] epoch := rfl

/-- Days of the week from Sunday; the epoch was a Thursday. -/
def weekday (days : Int) : Int := (days + 4) % 7

theorem monthLength_bounds (year month : Int) :
    28 ≤ monthLength year month ∧ monthLength year month ≤ 31 := by
  unfold monthLength
  split_ifs <;> decide

variable {date other : Date}

theorem Date.Valid.next (h : date.Valid) : date.next.Valid := by
  obtain ⟨hpos, hle, hday, hlast⟩ := h
  unfold Date.next
  split
  · constructor <;> simp only <;> omega
  · split
    · have hbounds := monthLength_bounds date.year (date.month + 1)
      constructor <;> simp only <;> omega
    · have hbounds := monthLength_bounds (date.year + 1) 1
      constructor <;> simp only <;> omega

theorem Date.Valid.prev (h : date.Valid) : date.prev.Valid := by
  obtain ⟨hpos, hle, hday, hlast⟩ := h
  unfold Date.prev
  split
  · constructor <;> simp only <;> omega
  · split
    · have hbounds := monthLength_bounds date.year (date.month - 1)
      constructor <;> simp only <;> omega
    · have hlength : monthLength (date.year - 1) 12 = 31 := rfl
      constructor <;> simp only <;> omega

theorem next_prev (h : date.Valid) : date.prev.next = date := by
  obtain ⟨hpos, hle, hday, hlast⟩ := h
  unfold Date.prev
  split
  · unfold Date.next
    rw [if_pos (by simp only; omega)]
    ext <;> simp
  · have hfirst : date.day = 1 := by omega
    split
    · unfold Date.next
      rw [if_neg (by simp only; omega), if_pos (by simp only; omega)]
      ext <;> simp [hfirst]
    · have hjan : date.month = 1 := by omega
      have hlength : monthLength (date.year - 1) 12 = 31 := rfl
      unfold Date.next
      rw [if_neg (by simp only; omega), if_neg (by simp only; omega)]
      ext <;> simp [hfirst, hjan]

/-! ## Counting days -/

/-- The days before March of a year, from March of year zero. -/
def yearStart (year : Int) : Int := 365 * year + year / 4 - year / 100 + year / 400

def marchYear (date : Date) : Int := if date.month ≤ 2 then date.year - 1 else date.year

def marchMonth (date : Date) : Int := (date.month + 9) % 12

def marchDay (date : Date) : Int := (153 * marchMonth date + 2) / 5 + date.day - 1

def number (date : Date) : Int := yearStart (marchYear date) + marchDay date - 719468

theorem yearStart_succ (year : Int) :
    yearStart (year + 1) = yearStart year + if Leap (year + 1) then 366 else 365 := by
  unfold yearStart Leap
  split_ifs <;> omega

theorem yearStart_le {year later : Int} (h : year ≤ later) : yearStart year ≤ yearStart later := by
  unfold yearStart
  omega

/-- Every month but February is as long as the starts of months since March are apart. -/
theorem monthLength_eq {year month : Int} (hpos : 1 ≤ month) (hle : month ≤ 12)
    (hfeb : month ≠ 2) : monthLength year month =
      (153 * ((month + 9) % 12 + 1) + 2) / 5 - (153 * ((month + 9) % 12) + 2) / 5 := by
  interval_cases month <;> first | rfl | exact absurd rfl hfeb

theorem monthLength_le (h : date.Valid) : monthLength date.year date.month ≤
    (153 * (marchMonth date + 1) + 2) / 5 - (153 * marchMonth date + 2) / 5 := by
  by_cases hfeb : date.month = 2
  · unfold monthLength marchMonth
    rw [if_pos hfeb, hfeb]
    split <;> decide
  · exact (monthLength_eq h.month_pos h.month_le hfeb).le

theorem marchDay_bounds (h : date.Valid) :
    0 ≤ marchDay date ∧ yearStart (marchYear date) + marchDay date <
      yearStart (marchYear date + 1) := by
  obtain ⟨hpos, hle, hday, hlast⟩ := h
  rw [yearStart_succ]
  by_cases hfeb : date.month = 2
  · unfold monthLength at hlast
    unfold marchDay marchMonth marchYear
    rw [if_pos hfeb] at hlast
    rw [if_pos hfeb.le, sub_add_cancel, hfeb]
    split at hlast
    · next hleap =>
      rw [if_pos hleap]
      omega
    · next hcommon =>
      rw [if_neg hcommon]
      omega
  · rw [monthLength_eq hpos hle hfeb] at hlast
    have hmonth : 0 ≤ marchMonth date ∧ marchMonth date ≤ 10 := by
      unfold marchMonth
      omega
    unfold marchDay
    rw [show (date.month + 9) % 12 = marchMonth date from rfl] at hlast
    generalize marchMonth date = month at *
    split <;> omega

theorem marchMonth_eq (h : date.Valid) : (5 * marchDay date + 2) / 153 = marchMonth date := by
  have hpos := h.day_pos
  have hle := h.day_le.trans (monthLength_le h)
  unfold marchDay
  omega

theorem number_mk (year month day : Int) : number ⟨year, month, day⟩ =
    yearStart (if month ≤ 2 then year - 1 else year) +
      ((153 * ((month + 9) % 12) + 2) / 5 + day - 1) - 719468 := rfl

theorem number_next (h : date.Valid) : number date.next = number date + 1 := by
  have hpos := h.month_pos
  have hle := h.month_le
  have hlast := h.day_le
  cases date with
  | mk year month day =>
    unfold Date.next
    simp only at *
    rw [number_mk year month day]
    split
    · rw [number_mk]
      omega
    · next hend =>
      have hday : day = monthLength year month := by omega
      rw [hday]
      by_cases hfeb : month = 2
      · have hyear := yearStart_succ (year - 1)
        rw [sub_add_cancel] at hyear
        rw [hfeb, if_pos (show (2 : Int) < 12 by decide), number_mk,
          if_neg (show ¬ (2 + 1 : Int) ≤ 2 by decide), if_pos (le_refl 2), hyear]
        unfold monthLength
        rw [if_pos rfl]
        split_ifs <;> omega
      · rw [monthLength_eq hpos hle hfeb]
        split
        · have hmarch : (month + 1 + 9) % 12 = (month + 9) % 12 + 1 := by omega
          rw [number_mk, hmarch]
          split_ifs <;> omega
        · have hdec : month = 12 := by omega
          rw [number_mk, hdec, if_neg (show ¬ (12 : Int) ≤ 2 by decide),
            if_pos (show (1 : Int) ≤ 2 by decide), add_sub_cancel_right]
          omega

theorem number_inj (h : date.Valid) (hother : other.Valid) (heq : number date = number other) :
    date = other := by
  have hbounds := marchDay_bounds h
  have hbounds' := marchDay_bounds hother
  have hyear : marchYear date = marchYear other := by
    rcases lt_trichotomy (marchYear date) (marchYear other) with hlt | hsame | hgt
    · have hle := yearStart_le hlt
      unfold number at heq
      omega
    · exact hsame
    · have hle := yearStart_le hgt
      unfold number at heq
      omega
  have hday : marchDay date = marchDay other := by
    unfold number at heq
    rw [hyear] at heq
    omega
  have hmonth : marchMonth date = marchMonth other := by
    rw [← marchMonth_eq h, ← marchMonth_eq hother, hday]
  have hsame : date.month = other.month := by
    have hpos := h.month_pos
    have hle := h.month_le
    have hpos' := hother.month_pos
    have hle' := hother.month_le
    unfold marchMonth at hmonth
    omega
  unfold marchYear at hyear
  unfold marchDay at hday
  rw [hmonth] at hday
  rw [hsame] at hyear
  apply Date.ext
  · split at hyear <;> omega
  · exact hsame
  · omega

theorem number_prev (h : date.Valid) : number date.prev = number date - 1 := by
  have hnext := number_next h.prev
  rw [next_prev h] at hnext
  omega

theorem dateOf_counted (days : Int) : (dateOf days).Valid ∧ number (dateOf days) = days := by
  cases days with
  | ofNat days =>
    induction days with
    | zero => exact ⟨⟨by decide, by decide, by decide, by decide⟩, rfl⟩
    | succ days ih =>
      rw [dateOf_ofNat, Function.iterate_succ_apply', ← dateOf_ofNat]
      exact ⟨ih.1.next, by rw [number_next ih.1, ih.2]; rfl⟩
  | negSucc days =>
    induction days with
    | zero => exact ⟨⟨by decide, by decide, by decide, by decide⟩, rfl⟩
    | succ days ih =>
      rw [dateOf_negSucc, Function.iterate_succ_apply', ← dateOf_negSucc]
      exact ⟨ih.1.prev, by rw [number_prev ih.1, ih.2]; rfl⟩

theorem eq_dateOf (h : date.Valid) {days : Int} (hnumber : number date = days) :
    date = dateOf days :=
  number_inj h (dateOf_counted days).1 (hnumber.trans (dateOf_counted days).2.symm)

/-! ## Dates from March years -/

def marchDate (year doy : Int) : Date :=
  let month := (5 * doy + 2) / 153
  ⟨if month < 10 then year else year + 1, if month < 10 then month + 3 else month - 9,
    doy - (153 * month + 2) / 5 + 1⟩

theorem marchDate_valid {year doy : Int} (hpos : 0 ≤ doy)
    (hlt : yearStart year + doy < yearStart (year + 1)) : (marchDate year doy).Valid := by
  rw [yearStart_succ] at hlt
  have hdoy : doy ≤ 365 := by split at hlt <;> omega
  unfold marchDate
  simp only
  constructor
  · simp only
    split <;> omega
  · simp only
    split <;> omega
  · simp only
    omega
  · simp only
    by_cases hfeb : (5 * doy + 2) / 153 = 11
    · rw [hfeb, if_neg (by decide), if_neg (by decide)]
      unfold monthLength
      rw [if_pos (by decide)]
      split at hlt
      · next hleap =>
        rw [if_pos hleap]
        omega
      · next hcommon =>
        rw [if_neg hcommon]
        omega
    · have hmarch : ((if (5 * doy + 2) / 153 < 10 then (5 * doy + 2) / 153 + 3
          else (5 * doy + 2) / 153 - 9) + 9) % 12 = (5 * doy + 2) / 153 := by
        split <;> omega
      rw [monthLength_eq (by split <;> omega) (by split <;> omega) (by split <;> omega), hmarch]
      omega

theorem number_marchDate {year doy : Int} (hpos : 0 ≤ doy) (hle : doy ≤ 365) :
    number (marchDate year doy) = yearStart year + doy - 719468 := by
  have hmonth : (5 * doy + 2) / 153 < 12 := by omega
  unfold marchDate
  simp only
  rw [number_mk]
  by_cases hearly : (5 * doy + 2) / 153 < 10
  · rw [if_pos hearly, if_pos hearly, if_neg (by omega)]
    omega
  · rw [if_neg hearly, if_neg hearly, if_pos (by omega), add_sub_cancel_right]
    omega

end Orbistoun.Lib.Gregorian
