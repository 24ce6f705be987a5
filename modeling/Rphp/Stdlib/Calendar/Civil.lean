import Mathlib.Tactic.IntervalCases
import Rphp.Machine

namespace Rphp.Stdlib.Calendar
set_option autoImplicit true

def i32Min : Int := -2147483648

def i32Max : Int := 2147483647

def i64TryFrom (x : Int) : Option Int := if i64Min ≤ x ∧ x ≤ i64Max then some x else none

def i32TryFrom (x : Int) : Option Int := if i32Min ≤ x ∧ x ≤ i32Max then some x else none

structure CivilDate where
  month : Int
  day : Int
  year : Int
  deriving DecidableEq, Repr

namespace CivilDate

def invalid : CivilDate := ⟨0, 0, 0⟩

def isValid (date : CivilDate) : Bool := date.month != 0

end CivilDate

def phpYearToAstronomical (year : Int) : Int := if year < 0 then year + 1 else year

def astronomicalYearToPhp (year : Int) : Option Int :=
  i64TryFrom (if year ≤ 0 then year - 1 else year)

/-- The day number of a date, given the days in front of the year that starts in March. -/
def civilToJd (yearStart : Int → Int) (month day year : Int) : Int :=
  if year = 0 ∨ ¬ (1 ≤ month ∧ month ≤ 12) ∨ ¬ (1 ≤ day ∧ day ≤ 31) then 0
  else
    let astronomical := phpYearToAstronomical year
    let adjustment := (14 - month).tdiv 12
    let y := astronomical + 4800 - adjustment
    let m := month + 12 * adjustment - 3
    let jd := day + (153 * m + 2).tdiv 5 + yearStart y
    ((i64TryFrom jd).filter (0 < ·)).getD 0

def gregorianYearStart (y : Int) : Int :=
  365 * y + y.tdiv 4 - y.tdiv 100 + y.tdiv 400 - 32045

def julianYearStart (y : Int) : Int := 365 * y + y.tdiv 4 - 32083

def gregorianToJd : Int → Int → Int → Int := civilToJd gregorianYearStart

def julianToJd : Int → Int → Int → Int := civilToJd julianYearStart

/-- The date on day `e` of the year `y` that starts in March. -/
def civilDate (y e : Int) : CivilDate :=
  let m := (5 * e + 2).tdiv 153
  let day := e - (153 * m + 2).tdiv 5 + 1
  let month := m + 3 - 12 * m.tdiv 10
  let year := y - 4800 + m.tdiv 10
  match (astronomicalYearToPhp year).bind i32TryFrom with
  | some year => ⟨month, day, year⟩
  | none => .invalid

def gregorianFromJd (jd : Int) : CivilDate :=
  if jd ≤ 0 ∨ (i64Max - 128179).tdiv 4 < jd then .invalid
  else
    let a := jd + 32044
    let b := (4 * a + 3).tdiv 146097
    let c := a - (146097 * b).tdiv 4
    let d := (4 * c + 3).tdiv 1461
    let e := c - (1461 * d).tdiv 4
    civilDate (100 * b + d) e

def julianFromJd (jd : Int) : CivilDate :=
  if jd ≤ 0 ∨ (i64Max - 128331).tdiv 4 < jd then .invalid
  else
    let c := jd + 32082
    let d := (4 * c + 3).tdiv 1461
    let e := c - (1461 * d).tdiv 4
    civilDate d e

/-- The length of a month under a leap-year rule on astronomical years. -/
def monthLength (leap : Int → Bool) (year month : Int) : Int :=
  if month = 2 then if leap year then 29 else 28
  else if month = 4 ∨ month = 6 ∨ month = 9 ∨ month = 11 then 30
  else 31

def gregorianLeap (year : Int) : Bool := year % 4 = 0 ∧ (year % 100 ≠ 0 ∨ year % 400 = 0)

def julianLeap (year : Int) : Bool := year % 4 = 0

/-- A date that the calendar has: there is no year zero, and the day is in its month. -/
structure IsDate (leap : Int → Bool) (date : CivilDate) : Prop where
  year_ne : date.year ≠ 0
  month_pos : 1 ≤ date.month
  month_le : date.month ≤ 12
  day_pos : 1 ≤ date.day
  day_le : date.day ≤ monthLength leap (phpYearToAstronomical date.year) date.month

/-- The date of the day after. -/
def nextDate (leap : Int → Bool) (date : CivilDate) : CivilDate :=
  if date.day < monthLength leap (phpYearToAstronomical date.year) date.month then
    { date with day := date.day + 1 }
  else if date.month < 12 then ⟨date.month + 1, 1, date.year⟩
  else ⟨1, 1, if date.year = -1 then 1 else date.year + 1⟩

section MarchYears

/-- The number of the year that starts in March and of the day in it. -/
def marchYear (date : CivilDate) : Int :=
  phpYearToAstronomical date.year + 4800 - (14 - date.month).tdiv 12

def marchDay (date : CivilDate) : Int :=
  date.day - 1 + (153 * (date.month + 12 * (14 - date.month).tdiv 12 - 3) + 2).tdiv 5

/-- The days of a year that starts in March: the leap day ends it. -/
def marchLength (leap : Int → Bool) (y : Int) : Int := if leap (y + 1 - 4800) then 366 else 365

theorem monthLength_le (leap : Int → Bool) (year month : Int) : monthLength leap year month ≤ 31 := by
  unfold monthLength
  split
  · split <;> omega
  · split <;> omega

theorem civilToJd_of_isDate (h : IsDate leap date) :
    civilToJd yearStart date.month date.day date.year =
      ((i64TryFrom (yearStart (marchYear date) + marchDay date + 1)).filter (0 < ·)).getD 0 := by
  have hday := h.day_le.trans (monthLength_le _ _ _)
  have hok : ¬ (date.year = 0 ∨ ¬ (1 ≤ date.month ∧ date.month ≤ 12) ∨
      ¬ (1 ≤ date.day ∧ date.day ≤ 31)) := by
    rintro (hzero | hmonth | hrange)
    · exact h.year_ne hzero
    · exact hmonth ⟨h.month_pos, h.month_le⟩
    · exact hrange ⟨h.day_pos, hday⟩
  have hsum : ∀ x y : Int, date.day + x + y = y + (date.day - 1 + x) + 1 := by
    intro x y
    omega
  simp only [civilToJd, if_neg hok, marchYear, marchDay, hsum]

theorem marchDay_bounds (h : IsDate leap date) :
    0 ≤ marchDay date ∧ marchDay date < marchLength leap (marchYear date) := by
  obtain ⟨hyear, hlow, hhigh, hday, hlength⟩ := h
  obtain ⟨month, day, year⟩ := date
  simp only [marchDay, marchLength, marchYear] at *
  interval_cases month
  all_goals simp only [monthLength] at hlength
  all_goals simp [add_sub_cancel_right] at hlength ⊢
  all_goals split_ifs at * <;> omega

theorem phpYearToAstronomical_astronomical (year : Int) :
    phpYearToAstronomical (if year ≤ 0 then year - 1 else year) = year := by
  unfold phpYearToAstronomical
  split_ifs <;> omega

theorem astronomical_phpYearToAstronomical (hyear : year ≠ 0) :
    (if phpYearToAstronomical year ≤ 0 then phpYearToAstronomical year - 1
      else phpYearToAstronomical year) = year := by
  unfold phpYearToAstronomical
  split_ifs <;> omega

theorem bind_i32TryFrom (x : Int) : (i64TryFrom x).bind i32TryFrom = i32TryFrom x := by
  unfold i64TryFrom
  split
  · rfl
  · rename_i hrange
    have hsmall : ¬ (i32Min ≤ x ∧ x ≤ i32Max) := by
      unfold i32Min i32Max
      unfold i64Min i64Max at hrange
      omega
    rw [i32TryFrom, if_neg hsmall]
    rfl

/-- Which month a day of the year lies in. -/
theorem marchMonth (h : IsDate leap date) :
    (5 * marchDay date + 2).tdiv 153 = date.month + 12 * (14 - date.month).tdiv 12 - 3 := by
  obtain ⟨hyear, hlow, hhigh, hday, hlength⟩ := h
  obtain ⟨month, day, year⟩ := date
  simp only [marchDay] at *
  interval_cases month
  all_goals simp [monthLength] at hlength ⊢
  all_goals rw [Int.tdiv_eq_ediv_of_nonneg (by omega)]
  all_goals omega

/-- The month carries the date of the year that starts in January. -/
theorem marchMonth_year (h : IsDate leap date) {m : Int}
    (hm : m = date.month + 12 * (14 - date.month).tdiv 12 - 3) :
    m + 3 - 12 * m.tdiv 10 = date.month ∧
      marchYear date - 4800 + m.tdiv 10 = phpYearToAstronomical date.year := by
  obtain ⟨hyear, hlow, hhigh, hday, hlength⟩ := h
  obtain ⟨month, day, year⟩ := date
  simp only [marchYear] at *
  subst m
  interval_cases month
  all_goals simp
  all_goals omega

theorem civilDate_march (h : IsDate leap date) :
    civilDate (marchYear date) (marchDay date) =
      if i32Min ≤ date.year ∧ date.year ≤ i32Max then date else .invalid := by
  obtain ⟨hmonth, hyear⟩ := marchMonth_year h rfl
  have hday : marchDay date -
      (153 * (date.month + 12 * (14 - date.month).tdiv 12 - 3) + 2).tdiv 5 + 1 = date.day := by
    unfold marchDay
    omega
  have hphp : (astronomicalYearToPhp (phpYearToAstronomical date.year)).bind i32TryFrom =
      i32TryFrom date.year := by
    rw [astronomicalYearToPhp, astronomical_phpYearToAstronomical h.year_ne, bind_i32TryFrom]
  simp only [civilDate, marchMonth h, hmonth, hyear, hday, hphp, i32TryFrom]
  split
  · rename_i hrange
    split at hrange
    · cases hrange
      rw [if_pos ‹_›]
    · cases hrange
  · rename_i hrange
    split at hrange
    · cases hrange
    · rw [if_neg ‹_›]

theorem year_of_astronomical
    (h : (astronomicalYearToPhp astronomical).bind i32TryFrom = some year) :
    year ≠ 0 ∧ phpYearToAstronomical year = astronomical := by
  rw [astronomicalYearToPhp, bind_i32TryFrom, i32TryFrom] at h
  obtain ⟨-, hyear⟩ := Option.ite_none_right_eq_some.mp h
  obtain rfl := Option.some.inj hyear
  refine ⟨?_, phpYearToAstronomical_astronomical _⟩
  split <;> omega

/-- A day of a year that starts in March has a date, unless the year leaves its range. -/
theorem civilDate_isDate (he : 0 ≤ e ∧ e < marchLength leap y)
    (hvalid : (civilDate y e).isValid = true) :
    IsDate leap (civilDate y e) ∧ marchYear (civilDate y e) = y ∧
      marchDay (civilDate y e) = e := by
  obtain ⟨m, hm⟩ : ∃ m, (5 * e + 2).tdiv 153 = m := ⟨_, rfl⟩
  have hspan : 0 ≤ m ∧ 153 * m ≤ 5 * e + 2 ∧ 5 * e + 2 < 153 * m + 153 := by
    rw [Int.tdiv_eq_ediv_of_nonneg (by omega)] at hm
    omega
  obtain ⟨hlow, hfirst, hlast⟩ := hspan
  have hhigh : m ≤ 11 := by
    unfold marchLength at he
    split at he <;> omega
  simp only [civilDate, hm] at hvalid ⊢
  cases hyear : (astronomicalYearToPhp (y - 4800 + m.tdiv 10)).bind i32TryFrom with
  | none =>
    rw [hyear] at hvalid
    cases hvalid
  | some year =>
    obtain ⟨hne, hphp⟩ := year_of_astronomical hyear
    have hshift : y - 4800 + 1 = y + 1 - 4800 := by omega
    unfold marchLength at he
    interval_cases m
    all_goals simp [hshift] at hphp hfirst hlast
    all_goals refine ⟨⟨hne, ?_, ?_, ?_, ?_⟩, ?_, ?_⟩
    all_goals simp [monthLength, marchYear, marchDay, hphp]
    all_goals split_ifs at * <;> omega

end MarchYears

section Conversions

/-- How a calendar numbers its days: the days in front of each year that starts in March, and
the year and day of a number. -/
structure YearSplit (leap : Int → Bool) (yearStart fromYear fromDay : Int → Int) : Prop where
  early : ∀ y < 0, yearStart y + 366 ≤ 0
  bound : ∀ y, 0 ≤ y → yearStart y ≤ 366 * y
  start : ∀ y, 0 ≤ y → yearStart (y + 1) = yearStart y + marchLength leap y
  split : ∀ jd, 0 < jd → 0 ≤ fromYear jd ∧ 0 ≤ fromDay jd ∧
    fromDay jd < marchLength leap (fromYear jd) ∧ jd = yearStart (fromYear jd) + fromDay jd + 1
  join : ∀ y e, 0 ≤ y → 0 ≤ e → e < marchLength leap y → 0 < yearStart y + e + 1 →
    fromYear (yearStart y + e + 1) = y ∧ fromDay (yearStart y + e + 1) = e

def gregorianCentury (jd : Int) : Int := (4 * (jd + 32044) + 3) / 146097

def gregorianYear (jd : Int) : Int :=
  100 * gregorianCentury jd +
    (4 * (jd + 32044 - 146097 * gregorianCentury jd / 4) + 3) / 1461

def gregorianDay (jd : Int) : Int :=
  jd + 32044 - 146097 * gregorianCentury jd / 4 -
    1461 * ((4 * (jd + 32044 - 146097 * gregorianCentury jd / 4) + 3) / 1461) / 4

def julianYear (jd : Int) : Int := (4 * (jd + 32082) + 3) / 1461

def julianDay (jd : Int) : Int := jd + 32082 - 1461 * julianYear jd / 4

theorem gregorianYearStart_eq (hy : 0 ≤ y) :
    gregorianYearStart y = 365 * y + y / 4 - y / 100 + y / 400 - 32045 := by
  simp only [gregorianYearStart, Int.tdiv_eq_ediv_of_nonneg hy]

theorem julianYearStart_eq (hy : 0 ≤ y) : julianYearStart y = 365 * y + y / 4 - 32083 := by
  simp only [julianYearStart, Int.tdiv_eq_ediv_of_nonneg hy]

theorem marchLength_julian (y : Int) :
    marchLength julianLeap y = if (y + 1) % 4 = 0 then 366 else 365 := by
  have hshift : (y + 1 - 4800) % 4 = (y + 1) % 4 := by omega
  simp only [marchLength, julianLeap, hshift, decide_eq_true_eq]

theorem marchLength_gregorian (y : Int) :
    marchLength gregorianLeap y =
      if (y + 1) % 4 = 0 ∧ ((y + 1) % 100 ≠ 0 ∨ (y + 1) % 400 = 0) then 366 else 365 := by
  have hfour : (y + 1 - 4800) % 4 = (y + 1) % 4 := by omega
  have hcentury : (y + 1 - 4800) % 100 = (y + 1) % 100 := by omega
  have hcycle : (y + 1 - 4800) % 400 = (y + 1) % 400 := by omega
  simp only [marchLength, gregorianLeap, hfour, hcentury, hcycle, decide_eq_true_eq]

theorem tdiv_bounds {y k : Int} (hy : y < 0) (hk : 0 < k) : y ≤ y.tdiv k ∧ y.tdiv k ≤ 0 := by
  obtain ⟨z, rfl⟩ : ∃ z, y = -z := ⟨-y, by omega⟩
  rw [Int.neg_tdiv, Int.tdiv_eq_ediv_of_nonneg (by omega)]
  have hle := Int.ediv_le_self k (show 0 ≤ z by omega)
  have hnonneg := Int.ediv_nonneg (show 0 ≤ z by omega) hk.le
  omega

theorem four_years {n : Int} (hn : 0 ≤ n) {y : Int} (hy : y = (4 * n + 3) / 1461) :
    0 ≤ y ∧ 0 ≤ n - 1461 * y / 4 ∧
      n - 1461 * y / 4 < (if y % 4 = 3 then 366 else 365) ∧
      n = 365 * y + y / 4 + (n - 1461 * y / 4) := by
  obtain ⟨k, r, hr, hkr⟩ : ∃ k r, (0 ≤ r ∧ r < 4) ∧ y = 4 * k + r :=
    ⟨y / 4, y % 4, by omega, by omega⟩
  obtain ⟨hlow, hhigh⟩ := hr
  have hbound : 1461 * y ≤ 4 * n + 3 ∧ 4 * n + 3 < 1461 * y + 1461 := by omega
  clear hy
  subst hkr
  interval_cases r
  all_goals split_ifs <;> omega

theorem four_years_inv {y e : Int} (hy : 0 ≤ y) (he : 0 ≤ e)
    (hlt : e < (if y % 4 = 3 then 366 else 365)) :
    (4 * (365 * y + y / 4 + e) + 3) / 1461 = y ∧ 1461 * y / 4 = 365 * y + y / 4 := by
  obtain ⟨k, r, hr, hkr⟩ : ∃ k r, (0 ≤ r ∧ r < 4) ∧ y = 4 * k + r :=
    ⟨y / 4, y % 4, by omega, by omega⟩
  obtain ⟨hlow, hhigh⟩ := hr
  subst hkr
  interval_cases r
  all_goals split_ifs at hlt <;> omega

theorem four_centuries {n : Int} (hn : 0 ≤ n) {b : Int} (hb : b = (4 * n + 3) / 146097) :
    0 ≤ b ∧ 0 ≤ n - 146097 * b / 4 ∧
      n - 146097 * b / 4 < (if b % 4 = 3 then 36525 else 36524) ∧
      n = 36524 * b + b / 4 + (n - 146097 * b / 4) := by
  obtain ⟨k, r, hr, hkr⟩ : ∃ k r, (0 ≤ r ∧ r < 4) ∧ b = 4 * k + r :=
    ⟨b / 4, b % 4, by omega, by omega⟩
  obtain ⟨hlow, hhigh⟩ := hr
  have hbound : 146097 * b ≤ 4 * n + 3 ∧ 4 * n + 3 < 146097 * b + 146097 := by omega
  clear hb
  subst hkr
  interval_cases r
  all_goals split_ifs <;> omega

theorem four_centuries_inv {b c : Int} (hb : 0 ≤ b) (hc : 0 ≤ c)
    (hlt : c < (if b % 4 = 3 then 36525 else 36524)) :
    (4 * (36524 * b + b / 4 + c) + 3) / 146097 = b ∧
      146097 * b / 4 = 36524 * b + b / 4 := by
  obtain ⟨k, r, hr, hkr⟩ : ∃ k r, (0 ≤ r ∧ r < 4) ∧ b = 4 * k + r :=
    ⟨b / 4, b % 4, by omega, by omega⟩
  obtain ⟨hlow, hhigh⟩ := hr
  subst hkr
  interval_cases r
  all_goals split_ifs at hlt <;> omega

/-- A year is one of the hundred of its century. -/
theorem century_year {b d : Int} (hd : 0 ≤ d ∧ d ≤ 99) :
    (100 * b + d) / 4 = 25 * b + d / 4 ∧ (100 * b + d) / 100 = b ∧
      (100 * b + d) / 400 = b / 4 := by
  omega

theorem marchLength_century {b d : Int} (hd : 0 ≤ d ∧ d ≤ 99) :
    marchLength gregorianLeap (100 * b + d) =
      if d = 99 then if b % 4 = 3 then 366 else 365 else if d % 4 = 3 then 366 else 365 := by
  rw [marchLength_gregorian]
  split_ifs <;> omega

theorem julian_split : YearSplit julianLeap julianYearStart julianYear julianDay where
  early y hy := by
    have hfour := tdiv_bounds (k := 4) hy (by omega)
    unfold julianYearStart
    omega
  bound y hy := by
    rw [julianYearStart_eq hy]
    omega
  start y hy := by
    rw [julianYearStart_eq hy, julianYearStart_eq (by omega), marchLength_julian]
    split <;> omega
  split jd hjd := by
    obtain ⟨hyear, hlow, hhigh, hsum⟩ := four_years (n := jd + 32082) (by omega) rfl
    unfold julianDay julianYear
    rw [julianYearStart_eq hyear, marchLength_julian]
    refine ⟨hyear, hlow, ?_, ?_⟩
    · split_ifs at * <;> omega
    · omega
  join y e hy he hlt hjd := by
    rw [julianYearStart_eq hy] at *
    rw [marchLength_julian] at hlt
    obtain ⟨hyear, hdays⟩ := four_years_inv hy he (by split_ifs at * <;> omega)
    have hnumber : 365 * y + y / 4 - 32083 + e + 1 + 32082 = 365 * y + y / 4 + e := by omega
    unfold julianDay julianYear
    rw [hnumber, hyear, hdays]
    omega

theorem gregorian_split :
    YearSplit gregorianLeap gregorianYearStart gregorianYear gregorianDay where
  early y hy := by
    have hfour := tdiv_bounds (k := 4) hy (by omega)
    have hcentury := tdiv_bounds (k := 100) hy (by omega)
    have hcycle := tdiv_bounds (k := 400) hy (by omega)
    unfold gregorianYearStart
    omega
  bound y hy := by
    rw [gregorianYearStart_eq hy]
    omega
  start y hy := by
    rw [gregorianYearStart_eq hy, gregorianYearStart_eq (by omega), marchLength_gregorian]
    split <;> omega
  split jd hjd := by
    obtain ⟨hb, hclow, hchigh, hcsum⟩ := four_centuries (n := jd + 32044) (by omega) rfl
    obtain ⟨hd, hlow, hhigh, hsum⟩ := four_years hclow rfl
    unfold gregorianYear gregorianDay gregorianCentury
    generalize (4 * (jd + 32044) + 3) / 146097 = b at *
    generalize jd + 32044 - 146097 * b / 4 = c at *
    generalize (4 * c + 3) / 1461 = d at *
    have hlast : d ≤ 99 := by
      split_ifs at * <;> omega
    obtain ⟨hfour, hcentury, hcycle⟩ := century_year (b := b) ⟨hd, hlast⟩
    rw [gregorianYearStart_eq (by omega), marchLength_century ⟨hd, hlast⟩, hfour, hcentury, hcycle]
    refine ⟨by omega, hlow, ?_, ?_⟩
    · split_ifs at * <;> omega
    · omega
  join y e hy he hlt hjd := by
    obtain ⟨b, d, hd, rfl⟩ : ∃ b d, (0 ≤ d ∧ d ≤ 99) ∧ y = 100 * b + d :=
      ⟨y / 100, y % 100, by omega, by omega⟩
    obtain ⟨hfour, hcentury, hcycle⟩ := century_year (b := b) hd
    rw [gregorianYearStart_eq hy, hfour, hcentury, hcycle] at *
    rw [marchLength_century hd] at hlt
    obtain ⟨hb, hbdays⟩ := four_centuries_inv (b := b) (c := 365 * d + d / 4 + e) (by omega)
      (by omega) (by split_ifs at * <;> omega)
    obtain ⟨hyear, hdays⟩ := four_years_inv hd.1 he (by split_ifs at * <;> omega)
    have hnumber : 365 * (100 * b + d) + (25 * b + d / 4) - b + b / 4 - 32045 + e + 1 + 32044 =
        36524 * b + b / 4 + (365 * d + d / 4 + e) := by
      omega
    have hrest : 36524 * b + b / 4 + (365 * d + d / 4 + e) - (36524 * b + b / 4) =
        365 * d + d / 4 + e := by
      omega
    unfold gregorianYear gregorianDay gregorianCentury
    rw [hnumber, hb, hbdays, hrest, hyear, hdays]
    omega

theorem julianFromJd_eq (jd : Int) :
    julianFromJd jd = if jd ≤ 0 ∨ (i64Max - 128331).tdiv 4 < jd then .invalid
      else civilDate (julianYear jd) (julianDay jd) := by
  unfold julianFromJd
  split
  · rfl
  · have hyear : 0 ≤ julianYear jd := by
      unfold julianYear
      omega
    have hd : (4 * (jd + 32082) + 3).tdiv 1461 = julianYear jd :=
      Int.tdiv_eq_ediv_of_nonneg (by omega)
    have he : (1461 * julianYear jd).tdiv 4 = 1461 * julianYear jd / 4 :=
      Int.tdiv_eq_ediv_of_nonneg (by omega)
    simp only [hd, he, julianDay]

theorem gregorianFromJd_eq (jd : Int) :
    gregorianFromJd jd = if jd ≤ 0 ∨ (i64Max - 128179).tdiv 4 < jd then .invalid
      else civilDate (gregorianYear jd) (gregorianDay jd) := by
  unfold gregorianFromJd
  split
  · rfl
  · obtain ⟨hb, hc, -, -⟩ := four_centuries (n := jd + 32044) (by omega) rfl
    obtain ⟨hd, -, -, -⟩ := four_years hc rfl
    have hcentury : (4 * (jd + 32044) + 3).tdiv 146097 = gregorianCentury jd :=
      Int.tdiv_eq_ediv_of_nonneg (by omega)
    have hdays : (146097 * gregorianCentury jd).tdiv 4 = 146097 * gregorianCentury jd / 4 :=
      Int.tdiv_eq_ediv_of_nonneg (by unfold gregorianCentury; omega)
    simp only [hcentury, hdays, gregorianYear, gregorianDay]
    unfold gregorianCentury
    rw [Int.tdiv_eq_ediv_of_nonneg (a := 4 * _ + 3) (by omega),
      Int.tdiv_eq_ediv_of_nonneg (a := 1461 * _) (by omega)]

/-- What the two conversions of a calendar owe each other. -/
structure CivilConversions (leap : Int → Bool) (toJd : Int → Int → Int → Int)
    (fromJd : Int → CivilDate) : Prop where
  from_isDate : ∀ jd, (fromJd jd).isValid = true → IsDate leap (fromJd jd)
  to_from : ∀ jd, (fromJd jd).isValid = true →
    toJd (fromJd jd).month (fromJd jd).day (fromJd jd).year = jd
  from_to : ∀ date, IsDate leap date → 0 < toJd date.month date.day date.year →
    i32Min ≤ date.year ∧ date.year ≤ i32Max →
    fromJd (toJd date.month date.day date.year) = date
  consecutive : ∀ jd, (fromJd jd).isValid = true → (fromJd (jd + 1)).isValid = true →
    fromJd (jd + 1) = nextDate leap (fromJd jd)

end Conversions

section Laws

variable {leap : Int → Bool} {yearStart fromYear fromDay : Int → Int} {fromJd : Int → CivilDate}
  {limit : Int}

theorem nextDate_isDate (h : IsDate leap date) : IsDate leap (nextDate leap date) := by
  have hmonth := h.month_pos
  have hday := h.day_pos
  unfold nextDate
  split
  · exact ⟨h.year_ne, h.month_pos, h.month_le, by simp only; omega, by simp only; omega⟩
  · split
    · refine ⟨h.year_ne, by simp only; omega, by simp only; omega, le_rfl, ?_⟩
      simp only [monthLength]
      split_ifs <;> omega
    · have hyear := h.year_ne
      refine ⟨?_, by simp, by simp, by simp, by simp [monthLength]⟩
      simp only
      split <;> omega

/-- The day after is the next one of its year, or the first one of the next year. -/
theorem nextDate_march (h : IsDate leap date) :
    marchYear (nextDate leap date) = marchYear date ∧
        marchDay (nextDate leap date) = marchDay date + 1 ∨
      marchYear (nextDate leap date) = marchYear date + 1 ∧
        marchDay (nextDate leap date) = 0 ∧
        marchDay date + 1 = marchLength leap (marchYear date) := by
  obtain ⟨hyear, hlow, hhigh, hday, hlength⟩ := h
  obtain ⟨month, day, year⟩ := date
  simp only at hyear hlow hhigh hday hlength
  by_cases hlast : day < monthLength leap (phpYearToAstronomical year) month
  · left
    simp only [nextDate, if_pos hlast, marchYear, marchDay]
    exact ⟨trivial, by omega⟩
  · have hfull : day = monthLength leap (phpYearToAstronomical year) month := by omega
    by_cases hmonth : month < 12
    · simp only [nextDate, if_neg hlast, if_pos hmonth, marchYear, marchDay, marchLength]
      clear hlast hlength
      interval_cases month
      all_goals simp [monthLength] at hmonth hfull ⊢
      case «2» => split_ifs at * <;> omega
      all_goals omega
    · have hdecember : month = 12 := by omega
      left
      simp only [nextDate, if_neg hlast, if_neg hmonth, marchYear, marchDay]
      subst month
      simp [monthLength] at hfull
      simp [hfull]
      unfold phpYearToAstronomical
      split_ifs <;> omega

/-- A date whose day number is known to be in range. -/
theorem civilToJd_of_number (h : IsDate leap date)
    (hnumber : yearStart (marchYear date) + marchDay date + 1 = jd)
    (hjd : 0 < jd ∧ jd ≤ i64Max) :
    civilToJd yearStart date.month date.day date.year = jd := by
  have hfits : i64Min ≤ jd ∧ jd ≤ i64Max := by
    unfold i64Min
    omega
  have hpos : decide (0 < jd) = true := decide_eq_true hjd.1
  rw [civilToJd_of_isDate h, hnumber, i64TryFrom, if_pos hfits, Option.filter_some, hpos]
  rfl

theorem to_from_isDate (hsplit : YearSplit leap yearStart fromYear fromDay)
    (hlimit : limit ≤ i64Max)
    (hfrom : ∀ jd, fromJd jd = if jd ≤ 0 ∨ limit < jd then .invalid
      else civilDate (fromYear jd) (fromDay jd)) (hvalid : (fromJd jd).isValid = true) :
    IsDate leap (fromJd jd) ∧
      civilToJd yearStart (fromJd jd).month (fromJd jd).day (fromJd jd).year = jd := by
  rw [hfrom] at hvalid ⊢
  split at hvalid
  · cases hvalid
  · rename_i hrange
    rw [if_neg hrange]
    obtain ⟨hyear, hday, hlength, hjd⟩ := hsplit.split jd (by omega)
    obtain ⟨hdate, hmarch, hoffset⟩ := civilDate_isDate ⟨hday, hlength⟩ hvalid
    refine ⟨hdate, civilToJd_of_number hdate ?_ ⟨by omega, by omega⟩⟩
    rw [hmarch, hoffset]
    exact hjd.symm

/-- A positive day number is that of its year and day. -/
theorem civilToJd_pos (hsplit : YearSplit leap yearStart fromYear fromDay)
    (h : IsDate leap date) (hpos : 0 < civilToJd yearStart date.month date.day date.year) :
    0 ≤ marchYear date ∧ 0 < yearStart (marchYear date) + marchDay date + 1 ∧
      civilToJd yearStart date.month date.day date.year =
        yearStart (marchYear date) + marchDay date + 1 := by
  obtain ⟨hlow, hhigh⟩ := marchDay_bounds h
  rw [civilToJd_of_isDate h] at hpos ⊢
  have hlength : marchLength leap (marchYear date) ≤ 366 := by
    unfold marchLength
    split <;> omega
  cases hfilter : (i64TryFrom (yearStart (marchYear date) + marchDay date + 1)).filter (0 < ·) with
  | none =>
    rw [hfilter] at hpos
    exact absurd hpos (by simp)
  | some jd =>
    rw [Option.filter_eq_some_iff, i64TryFrom, Option.ite_none_right_eq_some] at hfilter
    obtain ⟨⟨-, hjd⟩, hjdpos⟩ := hfilter
    obtain rfl := Option.some.inj hjd
    have hjdpos := of_decide_eq_true hjdpos
    refine ⟨?_, hjdpos, rfl⟩
    by_contra hneg
    have hearly := hsplit.early (marchYear date) (by omega)
    omega

theorem fromJd_civilToJd (hsplit : YearSplit leap yearStart fromYear fromDay)
    (hfrom : ∀ jd, fromJd jd = if jd ≤ 0 ∨ limit < jd then .invalid
      else civilDate (fromYear jd) (fromDay jd)) (h : IsDate leap date)
    (hpos : 0 < civilToJd yearStart date.month date.day date.year)
    (hle : civilToJd yearStart date.month date.day date.year ≤ limit) :
    fromJd (civilToJd yearStart date.month date.day date.year) =
      if i32Min ≤ date.year ∧ date.year ≤ i32Max then date else .invalid := by
  obtain ⟨hlow, hhigh⟩ := marchDay_bounds h
  obtain ⟨hyear, hjd, heq⟩ := civilToJd_pos hsplit h hpos
  obtain ⟨hfromYear, hfromDay⟩ := hsplit.join _ _ hyear hlow hhigh hjd
  rw [heq] at hle ⊢
  rw [hfrom, if_neg (by omega), hfromYear, hfromDay]
  exact civilDate_march h

theorem civilToJd_le (hsplit : YearSplit leap yearStart fromYear fromDay)
    (h : IsDate leap date) (hpos : 0 < civilToJd yearStart date.month date.day date.year)
    (hyear : date.year ≤ i32Max) :
    civilToJd yearStart date.month date.day date.year ≤ 366 * (i32Max + 4802) := by
  obtain ⟨hmarch, hjd, heq⟩ := civilToJd_pos hsplit h hpos
  obtain ⟨hlow, hhigh⟩ := marchDay_bounds h
  have hbound := hsplit.bound _ hmarch
  have hlength : marchLength leap (marchYear date) ≤ 366 := by
    unfold marchLength
    split <;> omega
  have hadjustment : 0 ≤ (14 - date.month).tdiv 12 :=
    Int.tdiv_nonneg (by have := h.month_le; omega) (by omega)
  have hlast : marchYear date ≤ i32Max + 4801 := by
    unfold marchYear phpYearToAstronomical
    unfold i32Max at *
    split <;> omega
  omega

theorem civilToJd_nextDate (hsplit : YearSplit leap yearStart fromYear fromDay)
    (h : IsDate leap date) (hpos : 0 < civilToJd yearStart date.month date.day date.year)
    (hle : civilToJd yearStart date.month date.day date.year + 1 ≤ i64Max) :
    civilToJd yearStart (nextDate leap date).month (nextDate leap date).day
      (nextDate leap date).year = civilToJd yearStart date.month date.day date.year + 1 := by
  obtain ⟨hmarch, hjd, heq⟩ := civilToJd_pos hsplit h hpos
  apply civilToJd_of_number (nextDate_isDate h)
  · obtain ⟨hy, hd⟩ | ⟨hy, hd, hend⟩ := nextDate_march h
    · rw [hy, hd]
      omega
    · rw [hy, hd, hsplit.start _ hmarch]
      omega
  · exact ⟨by omega, hle⟩

theorem conversions (hsplit : YearSplit leap yearStart fromYear fromDay)
    (hlimit : limit ≤ i64Max) (hlarge : 366 * (i32Max + 4802) ≤ limit)
    (hfrom : ∀ jd, fromJd jd = if jd ≤ 0 ∨ limit < jd then .invalid
      else civilDate (fromYear jd) (fromDay jd)) :
    CivilConversions leap (civilToJd yearStart) fromJd where
  from_isDate jd hvalid := (to_from_isDate hsplit hlimit hfrom hvalid).1
  to_from jd hvalid := (to_from_isDate hsplit hlimit hfrom hvalid).2
  from_to date h hpos hyear := by
    have hle := civilToJd_le hsplit h hpos hyear.2
    rw [fromJd_civilToJd hsplit hfrom h hpos (by omega), if_pos hyear]
  consecutive jd hvalid hnext := by
    obtain ⟨hdate, hto⟩ := to_from_isDate hsplit hlimit hfrom hvalid
    have hrange : ¬ (jd + 1 ≤ 0 ∨ limit < jd + 1) := by
      intro hrange
      rw [hfrom, if_pos hrange] at hnext
      cases hnext
    have hrange' : ¬ (jd ≤ 0 ∨ limit < jd) := by
      intro hrange
      rw [hfrom, if_pos hrange] at hvalid
      cases hvalid
    have hsucc := civilToJd_nextDate hsplit hdate (by omega) (by omega)
    have hround := fromJd_civilToJd hsplit hfrom (nextDate_isDate hdate) (by omega) (by omega)
    rw [hsucc, hto] at hround
    rw [hround] at hnext ⊢
    split
    · rfl
    · rw [if_neg ‹_›] at hnext
      cases hnext

/-- Both civil calendars convert back and forth, and count their dates day by day. -/
theorem civil_conversions :
    CivilConversions gregorianLeap gregorianToJd gregorianFromJd ∧
      CivilConversions julianLeap julianToJd julianFromJd := by
  constructor
  · exact conversions gregorian_split (by decide) (by decide) gregorianFromJd_eq
  · exact conversions julian_split (by decide) (by decide) julianFromJd_eq

end Laws

end Rphp.Stdlib.Calendar
