import Rphp.Stdlib.Calendar.Hebrew

namespace Rphp.Stdlib.Calendar
set_option autoImplicit true

open Rphp.Lib

def frenchEpochJd : Int := 2375840

def frenchLastJd : Int := 2380952

def frenchLeapYear (year : Int) : Bool := year = 3 ∨ year = 7 ∨ year = 11

def frenchToJd (month day year : Int) : Int :=
  if ¬ (1 ≤ year ∧ year ≤ 14) ∨ ¬ (1 ≤ month ∧ month ≤ 13) ∨ ¬ (1 ≤ day ∧ day ≤ 30) then 0
  else
    let completedYears := year - 1
    let leapDays := (completedYears + 1).tdiv 4
    frenchEpochJd + completedYears * 365 + leapDays + (month - 1) * 30 + day - 1

def frenchYearDays (year : Int) : Int := 365 + if frenchLeapYear year then 1 else 0

/-- The loop of `french_from_jd` over the years that are left. -/
def frenchYearOf : List Int → Int → CivilDate
  | [], _ => .invalid
  | year :: years, offset =>
    let yearDays := frenchYearDays year
    if offset < yearDays then ⟨offset.tdiv 30 + 1, offset.tmod 30 + 1, year⟩
    else frenchYearOf years (offset - yearDays)

def frenchFromJd (jd : Int) : CivilDate :=
  if ¬ (frenchEpochJd ≤ jd ∧ jd ≤ frenchLastJd) then .invalid
  else frenchYearOf (numbersBelow 15) (jd - frenchEpochJd)

/-- A cast that keeps the low 32 bits. -/
def directCalendarInt (value : Int) : Int := value.bmod 4294967296

def calendarFromJd (jd calendar : Int) : CivilDate :=
  match calendar with
  | 0 => gregorianFromJd jd
  | 1 => julianFromJd jd
  | 2 => hebrewFromJd jd
  | 3 => frenchFromJd jd
  | _ => .invalid

def calendarToJd (calendar month day year : Int) : Int :=
  let month := directCalendarInt month
  let day := directCalendarInt day
  let year := directCalendarInt year
  match calendar with
  | 0 => gregorianToJd month day year
  | 1 => julianToJd month day year
  | 2 => hebrewToJd month day year
  | 3 => frenchToJd month day year
  | _ => 0

/-- The day number behind the month that begins at a day number. -/
def monthEnd (calendar month year : Int) : Int :=
  let next := calendarToJd calendar (month + 1) 1 year
  if next = 0 then
    let nextYear := if year = -1 then 1 else year + 1
    let next := calendarToJd calendar 1 1 nextYear
    if calendar = 3 ∧ next = 0 then frenchLastJd + 1 else next
  else next

def calDaysInMonth (calendar month year : Int) : Except String Int :=
  if ¬ (0 ≤ calendar ∧ calendar < 4) then
    .error "cal_days_in_month(): Argument #1 ($calendar) must be a valid calendar ID"
  else if ¬ (1 ≤ month ∧ month ≤ 2147483646) then
    .error "cal_days_in_month(): Argument #2 ($month) must be between 1 and 2147483646"
  else if 2147483646 < year then
    .error "cal_days_in_month(): Argument #3 ($year) must be less than 2147483646"
  else
    let start := calendarToJd calendar month 1 year
    if start = 0 then .error "Invalid date"
    else .ok (monthEnd calendar month year - start)

/-- The day numbers from the start of a month on that have a date in it. -/
def daysOfMonth (calendar month year : Int) : Set Int :=
  {jd | calendarToJd calendar month 1 year ≤ jd ∧ (calendarFromJd jd calendar).month = month ∧
    (calendarFromJd jd calendar).year = year}

theorem directCalendarInt_eq (h : i32Min ≤ value ∧ value ≤ i32Max) :
    directCalendarInt value = value := by
  unfold i32Min i32Max at h
  unfold directCalendarInt
  rw [Int.bmod_eq_of_le] <;> omega

/-- The days of a month are counted when its dates follow one another from its start. -/
theorem ncard_month {fromJd : Int → CivilDate} {start length : Int}
    (hinside : ∀ k, 0 ≤ k → k < length →
      (fromJd (start + k)).month = month ∧ (fromJd (start + k)).year = year)
    (hbehind : ∀ jd, start + length ≤ jd →
      ¬ ((fromJd jd).month = month ∧ (fromJd jd).year = year)) :
    {jd | start ≤ jd ∧ (fromJd jd).month = month ∧ (fromJd jd).year = year}.ncard =
      length.toNat := by
  have hset : {jd | start ≤ jd ∧ (fromJd jd).month = month ∧ (fromJd jd).year = year} =
      {jd | start ≤ jd ∧ jd < start + length} := by
    ext jd
    constructor
    · rintro ⟨hstart, hdate⟩
      refine ⟨hstart, ?_⟩
      by_contra hend
      exact hbehind jd (by omega) hdate
    · rintro ⟨hstart, hend⟩
      have hday := hinside (jd - start) (by omega) (by omega)
      rw [add_sub_cancel] at hday
      exact ⟨hstart, hday⟩
  have hlength : start + length - start = length := by omega
  rw [hset, ncard_days, hlength]

section Civil

variable {leap : Int → Bool} {yearStart fromYear fromDay : Int → Int} {fromJd : Int → CivilDate}
  {limit : Int}

/-- The first of a month, from its day number alone. -/
theorem isDate_first (hpos : civilToJd yearStart month 1 year ≠ 0) :
    IsDate leap ⟨month, 1, year⟩ := by
  by_cases hok : year = 0 ∨ ¬ (1 ≤ month ∧ month ≤ 12) ∨ ¬ (1 ≤ (1 : Int) ∧ (1 : Int) ≤ 31)
  · rw [civilToJd, if_pos hok] at hpos
    exact absurd rfl hpos
  · have hlength : 1 ≤ monthLength leap (phpYearToAstronomical year) month := by
      unfold monthLength
      split_ifs <;> omega
    exact ⟨by simp only; omega, by simp only; omega, by simp only; omega, le_rfl, hlength⟩

theorem civilToJd_nonneg (yearStart : Int → Int) (month day year : Int) :
    0 ≤ civilToJd yearStart month day year := by
  unfold civilToJd
  split
  · exact le_rfl
  · simp only
    cases h : (i64TryFrom _).filter (0 < ·) with
    | none => exact le_rfl
    | some jd =>
      have hpos := (Option.filter_eq_some_iff.mp h).2
      exact (of_decide_eq_true hpos).le

/-- The days of a month are numbered on from its first. -/
theorem civilToJd_day (hsplit : YearSplit leap yearStart fromYear fromDay)
    (hpos : civilToJd yearStart month 1 year ≠ 0) (hyear : year ≤ i32Max)
    (hday : 1 ≤ day ∧ day ≤ monthLength leap (phpYearToAstronomical year) month) :
    IsDate leap ⟨month, day, year⟩ ∧
      civilToJd yearStart month day year = civilToJd yearStart month 1 year + (day - 1) := by
  have hfirst : IsDate leap ⟨month, 1, year⟩ := isDate_first hpos
  have hdate : IsDate leap ⟨month, day, year⟩ :=
    ⟨hfirst.year_ne, hfirst.month_pos, hfirst.month_le, hday.1, hday.2⟩
  have hstart : 0 < civilToJd yearStart month 1 year := by
    have hnonneg := civilToJd_nonneg yearStart month 1 year
    omega
  obtain ⟨hmarch, hjd, heq⟩ := civilToJd_pos hsplit hfirst hstart
  have hle := civilToJd_le hsplit hfirst hstart hyear
  have hlength := monthLength_le leap (phpYearToAstronomical year) month
  refine ⟨hdate, civilToJd_of_number hdate ?_ ⟨?_, ?_⟩⟩
  · simp only at heq
    rw [heq]
    simp only [marchYear, marchDay]
    omega
  · omega
  · unfold i32Max at hle
    unfold i64Max
    simp only at hle
    omega

theorem civil_month (hsplit : YearSplit leap yearStart fromYear fromDay)
    (hconv : CivilConversions leap (civilToJd yearStart) fromJd)
    (hmonth : 1 ≤ month) (hyear : i32Min ≤ year ∧ year < i32Max)
    (hpos : civilToJd yearStart month 1 year ≠ 0) :
    {jd | civilToJd yearStart month 1 year ≤ jd ∧ (fromJd jd).month = month ∧
        (fromJd jd).year = year}.ncard =
      (monthLength leap (phpYearToAstronomical year) month).toNat := by
  apply ncard_month
  · intro k hk hlt
    have hday : 1 ≤ k + 1 ∧ k + 1 ≤ monthLength leap (phpYearToAstronomical year) month := by
      omega
    obtain ⟨hdate, hjd⟩ := civilToJd_day hsplit hpos hyear.2.le hday
    have hnonneg := civilToJd_nonneg yearStart month 1 year
    have hsum : civilToJd yearStart month (k + 1) year = civilToJd yearStart month 1 year + k := by
      omega
    have hround := hconv.from_to ⟨month, k + 1, year⟩ hdate (by simp only; omega)
      ⟨hyear.1, hyear.2.le⟩
    simp only [hsum] at hround
    rw [hround]
    exact ⟨rfl, rfl⟩
  · rintro jd hend ⟨hm, hy⟩
    have hvalid : (fromJd jd).isValid = true := by
      simp only [CivilDate.isValid, hm, bne_iff_ne, ne_eq]
      omega
    have hdate := hconv.from_isDate jd hvalid
    have hto := hconv.to_from jd hvalid
    have hday := hdate.day_le
    rw [hm, hy] at hto hday
    obtain ⟨-, hnumber⟩ := civilToJd_day hsplit hpos hyear.2.le ⟨hdate.day_pos, hday⟩
    omega

/-- The next month begins right behind the last day, also in the next year. -/
theorem civil_monthEnd (hsplit : YearSplit leap yearStart fromYear fromDay)
    (hyear : year < i32Max) (hpos : civilToJd yearStart month 1 year ≠ 0) :
    (if civilToJd yearStart (month + 1) 1 year = 0 then
        civilToJd yearStart 1 1 (if year = -1 then 1 else year + 1)
      else civilToJd yearStart (month + 1) 1 year) =
      civilToJd yearStart month 1 year +
        monthLength leap (phpYearToAstronomical year) month := by
  have hfirst : IsDate leap ⟨month, 1, year⟩ := isDate_first hpos
  have hlength : 1 ≤ monthLength leap (phpYearToAstronomical year) month := hfirst.day_le
  obtain ⟨hlast, hjd⟩ := civilToJd_day hsplit hpos hyear.le ⟨hlength, le_rfl⟩
  have hnonneg := civilToJd_nonneg yearStart month 1 year
  have hpositive : 0 < civilToJd yearStart month
      (monthLength leap (phpYearToAstronomical year) month) year := by
    omega
  have hle := civilToJd_le hsplit hlast hpositive hyear.le
  have hnext := civilToJd_nextDate hsplit hlast hpositive (by
    unfold i32Max at hle
    unfold i64Max
    simp only at hle ⊢
    omega)
  simp only [nextDate, lt_irrefl, if_false] at hnext
  by_cases hdecember : month < 12
  · rw [if_pos hdecember] at hnext
    simp only at hnext
    rw [if_neg (by omega)]
    omega
  · rw [if_neg hdecember] at hnext
    simp only at hnext
    have hthirteen : civilToJd yearStart (month + 1) 1 year = 0 := by
      rw [civilToJd, if_pos (by omega)]
    rw [if_pos hthirteen]
    omega

end Civil

section Hebrew

theorem hebrewToJd_first (hyear : 1 ≤ year ∧ year ≤ hebrewLastYear)
    (hmonth : 1 ≤ month ∧ month ≤ 13) :
    hebrewToJd month 1 year =
      if hebrewLastJd < hebrewNumber ⟨month, 1, year⟩ then 0
      else hebrewNumber ⟨month, 1, year⟩ := by
  have hok : ¬ (¬ (1 ≤ year ∧ year ≤ hebrewLastYear) ∨ ¬ (1 ≤ month ∧ month ≤ 13) ∨
      ¬ (1 ≤ (1 : Int) ∧ (1 : Int) ≤ 30)) := by
    omega
  have hmonths : ∀ m ∈ numbersBelow month, 1 ≤ m ∧ m ≤ 13 :=
    fun m hm => have hm := mem_numbersBelow.mp hm; ⟨hm.1, by omega⟩
  rw [hebrewToJd, if_neg hok, foldlM_hebrewMonths hyear _ hmonths]
  rfl

/-- The calendar ends inside the twelfth month of its last year. -/
theorem hebrewFromJd_last : hebrewFromJd hebrewLastJd = ⟨12, 13, hebrewLastYear⟩ := by
  have hdate : IsHebrewDate ⟨12, 13, hebrewLastYear⟩ :=
    ⟨by decide, by decide, by decide⟩
  have hnumber : hebrewNumber ⟨12, 13, hebrewLastYear⟩ = hebrewLastJd := by decide
  rw [← hnumber]
  exact hebrewFromJd_number hdate (by decide)

theorem hebrew_month (hyear : 1 ≤ year ∧ year ≤ hebrewLastYear)
    (hmonth : 1 ≤ month ∧ month ≤ 13)
    (hlast : hebrewNumber ⟨month, 1, year⟩ + hebrewMonthSize year month ≤ hebrewLastJd + 1) :
    {jd | hebrewNumber ⟨month, 1, year⟩ ≤ jd ∧ (hebrewFromJd jd).month = month ∧
        (hebrewFromJd jd).year = year}.ncard = (hebrewMonthSize year month).toNat := by
  apply ncard_month
  · intro k hk hlt
    have hdate : IsHebrewDate ⟨month, k + 1, year⟩ :=
      ⟨hyear, hmonth, by simp only; omega⟩
    have hnumber : hebrewNumber ⟨month, 1, year⟩ + k = hebrewNumber ⟨month, k + 1, year⟩ := by
      simp only [hebrewNumber]
      omega
    rw [hnumber, hebrewFromJd_number hdate (by omega)]
    exact ⟨rfl, rfl⟩
  · rintro jd hend ⟨hm, hy⟩
    have hrange : hebrewEpochJd ≤ jd ∧ jd ≤ hebrewLastJd := by
      by_contra hrange
      rw [hebrewFromJd, if_pos hrange] at hm
      simp only [CivilDate.invalid] at hm
      omega
    obtain ⟨hdate, hnumber⟩ := hebrewFromJd_isDate hrange
    have hday := hdate.day
    rw [hy, hm] at hday
    simp only [hebrewNumber, hm, hy] at hnumber hend
    omega

theorem hebrewNumber_nextMonth (hmonth : 1 ≤ month) :
    hebrewNumber ⟨month + 1, 1, year⟩ =
      hebrewNumber ⟨month, 1, year⟩ + hebrewMonthSize year month := by
  simp only [hebrewNumber, numbersBelow_succ hmonth, totalSize_append, totalSize_cons, totalSize_nil]
  omega

theorem hebrewNumber_nextYear (hyear : 1 ≤ year ∧ year ≤ hebrewLastYear) :
    hebrewNumber ⟨1, 1, year + 1⟩ =
      hebrewNumber ⟨13, 1, year⟩ + hebrewMonthSize year 13 := by
  have htotal := totalSize_hebrewMonths hyear
  have hempty : numbersBelow 1 = [] := rfl
  rw [show (14 : Int) = 13 + 1 from rfl, numbersBelow_succ (by omega), totalSize_append,
    totalSize_cons, totalSize_nil] at htotal
  simp only [hebrewNumber, hebrewNewYear_succ, hempty, totalSize_nil]
  omega

/-- Only one month reaches past the end of the calendar. -/
theorem hebrew_lastMonth (hyear : 1 ≤ year ∧ year ≤ hebrewLastYear)
    (hmonth : 1 ≤ month ∧ month ≤ 13) (hstart : hebrewNumber ⟨month, 1, year⟩ ≤ hebrewLastJd) :
    hebrewLastJd < hebrewNumber ⟨month, 1, year⟩ + hebrewMonthSize year month ↔
      month = 12 ∧ year = hebrewLastYear := by
  constructor
  · intro hover
    have hdate : IsHebrewDate
        ⟨month, hebrewLastJd - hebrewNumber ⟨month, 1, year⟩ + 1, year⟩ :=
      ⟨hyear, hmonth, by simp only; omega⟩
    have hnumber : hebrewNumber
        ⟨month, hebrewLastJd - hebrewNumber ⟨month, 1, year⟩ + 1, year⟩ = hebrewLastJd := by
      simp only [hebrewNumber]
      omega
    have hround := hebrewFromJd_number hdate hnumber.le
    rw [hnumber, hebrewFromJd_last] at hround
    injection hround with hm hd hy
    exact ⟨hm.symm, hy.symm⟩
  · rintro ⟨rfl, rfl⟩
    decide

/-- Only the month in which the calendar ends has no month behind it. -/
theorem hebrew_monthEnd (hyear : 1 ≤ year ∧ year ≤ hebrewLastYear)
    (hmonth : 1 ≤ month ∧ month ≤ 13) (hstart : hebrewNumber ⟨month, 1, year⟩ ≤ hebrewLastJd) :
    (if hebrewToJd (month + 1) 1 year = 0 then hebrewToJd 1 1 (year + 1)
      else hebrewToJd (month + 1) 1 year) =
      if month = 12 ∧ year = hebrewLastYear then 0
      else hebrewNumber ⟨month, 1, year⟩ + hebrewMonthSize year month := by
  have hlast := hebrew_lastMonth hyear hmonth hstart
  have hsize := hebrewMonthSize_bounds year month
  by_cases hend : month = 12 ∧ year = hebrewLastYear
  · obtain ⟨rfl, rfl⟩ := hend
    decide
  · have hfits : hebrewNumber ⟨month, 1, year⟩ + hebrewMonthSize year month ≤ hebrewLastJd := by
      by_contra hover
      exact hend (hlast.mp (by omega))
    have hpositive : 0 < hebrewNumber ⟨month, 1, year⟩ := by
      have hle := hebrewNewYear_le le_rfl hyear.1
      have hnonneg : 0 ≤ totalSize (hebrewMonthSize year) (numbersBelow month) :=
        totalSize_nonneg fun m _ => (hebrewMonthSize_bounds year m).1
      rw [hebrewNewYear_one] at hle
      unfold hebrewEpochJd at hle
      simp only [hebrewNumber]
      omega
    rw [if_neg hend]
    by_cases hthirteen : month = 13
    · subst month
      have hbehind : hebrewToJd (13 + 1) 1 year = 0 := by
        rw [hebrewToJd, if_pos (by omega)]
      have hnumber := hebrewNumber_nextYear hyear
      have hnext : year + 1 ≤ hebrewLastYear := by
        by_contra hover
        have hle := hebrewNewYear_le (show 1 ≤ hebrewLastYear + 1 by decide)
          (show hebrewLastYear + 1 ≤ year + 1 by omega)
        have hafter := lt_hebrewNewYear_last
        have hempty : numbersBelow 1 = [] := rfl
        simp only [hebrewNumber, hempty, totalSize_nil] at hnumber hfits
        omega
      rw [if_pos hbehind, hebrewToJd_first ⟨by omega, hnext⟩ ⟨by omega, by omega⟩, hnumber,
        if_neg (by omega)]
    · have hnext := hebrewToJd_first hyear (show 1 ≤ month + 1 ∧ month + 1 ≤ 13 by omega)
      rw [hebrewNumber_nextMonth hmonth.1, if_neg (by omega)] at hnext
      rw [hnext, if_neg (by omega)]

end Hebrew

section French

theorem frenchYearDays_total (hyear : 1 ≤ year ∧ year ≤ 14) :
    totalSize frenchYearDays (numbersBelow year) = (year - 1) * 365 + (year - 1 + 1).tdiv 4 := by
  obtain ⟨hlow, hhigh⟩ := hyear
  interval_cases year
  all_goals decide

theorem frenchYearOf_eq (years : List Int) (offset : Int) :
    frenchYearOf years offset =
      match locate frenchYearDays years offset with
      | some (year, rest) => ⟨rest.tdiv 30 + 1, rest.tmod 30 + 1, year⟩
      | none => .invalid := by
  induction years generalizing offset with
  | nil => rfl
  | cons year years ih =>
    simp only [frenchYearOf, locate]
    split
    · rfl
    · exact ih _

def frenchMonthSize (year month : Int) : Int :=
  if month = 13 then frenchYearDays year - 360 else 30

/-- The day number of the first of a month. -/
def frenchStart (month year : Int) : Int :=
  frenchEpochJd + totalSize frenchYearDays (numbersBelow year) + (month - 1) * 30

theorem frenchToJd_first (hyear : 1 ≤ year ∧ year ≤ 14) (hmonth : 1 ≤ month ∧ month ≤ 13) :
    frenchToJd month 1 year = frenchStart month year := by
  rw [frenchToJd, if_neg (by omega), frenchStart, frenchYearDays_total hyear]
  simp only
  omega

theorem frenchYearDays_bounds (year : Int) :
    365 ≤ frenchYearDays year ∧ frenchYearDays year ≤ 366 := by
  unfold frenchYearDays
  split <;> omega

theorem totalSize_frenchYears :
    frenchEpochJd + totalSize frenchYearDays (numbersBelow 15) = frenchLastJd + 1 := by
  decide

theorem totalSize_frenchYears_succ (hyear : 1 ≤ year) :
    totalSize frenchYearDays (numbersBelow (year + 1)) =
      totalSize frenchYearDays (numbersBelow year) + frenchYearDays year := by
  rw [numbersBelow_succ hyear, totalSize_append, totalSize_cons, totalSize_nil, add_zero]

theorem french_month (hyear : 1 ≤ year ∧ year ≤ 14) (hmonth : 1 ≤ month ∧ month ≤ 13) :
    {jd | frenchStart month year ≤ jd ∧ (frenchFromJd jd).month = month ∧
        (frenchFromJd jd).year = year}.ncard = (frenchMonthSize year month).toNat := by
  have hdays := frenchYearDays_bounds year
  have hbefore : 0 ≤ totalSize frenchYearDays (numbersBelow year) :=
    totalSize_nonneg fun y _ => by
      have hbounds := frenchYearDays_bounds y
      omega
  obtain ⟨after, hsplit⟩ := numbersBelow_split ⟨hyear.1, (by omega : year < 15)⟩
  have htotal := totalSize_frenchYears
  rw [hsplit, totalSize_append, totalSize_cons] at htotal
  have hafter : 0 ≤ totalSize frenchYearDays after :=
    totalSize_nonneg fun y _ => by
      have hbounds := frenchYearDays_bounds y
      omega
  apply ncard_month
  · intro k hk hlt
    have hrest : (month - 1) * 30 + k < frenchYearDays year := by
      unfold frenchMonthSize at hlt
      split at hlt <;> omega
    have hoffset : frenchStart month year + k - frenchEpochJd =
        totalSize frenchYearDays (numbersBelow year) + ((month - 1) * 30 + k) := by
      unfold frenchStart
      omega
    have hrange : frenchEpochJd ≤ frenchStart month year + k ∧
        frenchStart month year + k ≤ frenchLastJd := by
      unfold frenchStart
      omega
    have hk30 : k < 30 := by
      unfold frenchMonthSize at hlt
      split at hlt <;> omega
    rw [frenchFromJd, if_neg (not_not.mpr hrange), frenchYearOf_eq, hoffset, hsplit,
      locate_total (fun y _ => by have := frenchYearDays_bounds y; omega) (by omega) hrest]
    simp only [and_true]
    rw [Int.tdiv_eq_ediv_of_nonneg (by omega)]
    omega
  · rintro jd hend ⟨hm, hy⟩
    by_cases hrange : frenchEpochJd ≤ jd ∧ jd ≤ frenchLastJd
    · rw [frenchFromJd, if_neg (not_not.mpr hrange), frenchYearOf_eq] at hm hy
      cases hlocate : locate frenchYearDays (numbersBelow 15) (jd - frenchEpochJd) with
      | none =>
        rw [hlocate] at hm
        simp only [CivilDate.invalid] at hm
        omega
      | some found =>
        obtain ⟨found, rest⟩ := found
        rw [hlocate] at hm hy
        simp only at hm hy
        subst hy
        obtain ⟨before, behind, hfound, hoffset, hrest, hlt⟩ :=
          locate_eq_some hlocate (by omega)
        obtain ⟨rfl, -⟩ := eq_numbersBelow hfound
        rw [Int.tdiv_eq_ediv_of_nonneg hrest] at hm
        unfold frenchStart frenchMonthSize at hend
        split at hend <;> omega
    · rw [frenchFromJd, if_pos hrange] at hm
      simp only [CivilDate.invalid] at hm
      omega

theorem frenchStart_pos (year : Int) (hmonth : 1 ≤ month) : 0 < frenchStart month year := by
  have htotal : 0 ≤ totalSize frenchYearDays (numbersBelow year) :=
    totalSize_nonneg fun y _ => by
      have hbounds := frenchYearDays_bounds y
      omega
  unfold frenchStart frenchEpochJd
  omega

/-- The last month of the last year ends with the calendar. -/
theorem french_monthEnd (hyear : 1 ≤ year ∧ year ≤ 14) (hmonth : 1 ≤ month ∧ month ≤ 13) :
    (if frenchToJd (month + 1) 1 year = 0 then
        if (3 : Int) = 3 ∧ frenchToJd 1 1 (year + 1) = 0 then frenchLastJd + 1
        else frenchToJd 1 1 (year + 1)
      else frenchToJd (month + 1) 1 year) = frenchStart month year + frenchMonthSize year month := by
  by_cases hthirteen : month = 13
  · subst month
    have hbehind : frenchToJd (13 + 1) 1 year = 0 := by
      rw [frenchToJd, if_pos (by omega)]
    have hyears := totalSize_frenchYears_succ hyear.1
    rw [if_pos hbehind]
    by_cases hlast : year = 14
    · subst year
      decide
    · have hnext := frenchToJd_first (show 1 ≤ year + 1 ∧ year + 1 ≤ 14 by omega)
        (show 1 ≤ (1 : Int) ∧ (1 : Int) ≤ 13 by omega)
      have hpos := frenchStart_pos (year + 1) (show 1 ≤ (1 : Int) by omega)
      rw [hnext, if_neg (by omega)]
      unfold frenchStart frenchMonthSize
      rw [hyears, if_pos rfl]
      omega
  · have hnext := frenchToJd_first hyear (show 1 ≤ month + 1 ∧ month + 1 ≤ 13 by omega)
    have hpos := frenchStart_pos year (show 1 ≤ month + 1 by omega)
    rw [hnext, if_neg (by omega)]
    unfold frenchStart frenchMonthSize
    rw [if_neg hthirteen]
    omega

end French

section Calendars

/-- What a month length promises: it counts the days that have a date in the month. -/
def CountsMonth (calendar month year days : Int) : Prop :=
  0 ≤ days ∧ days = (daysOfMonth calendar month year).ncard

theorem calDaysInMonth_ok (h : calDaysInMonth calendar month year = .ok days) :
    (0 ≤ calendar ∧ calendar < 4) ∧ (1 ≤ month ∧ month ≤ 2147483646) ∧ year ≤ 2147483646 ∧
      calendarToJd calendar month 1 year ≠ 0 ∧
      days = monthEnd calendar month year - calendarToJd calendar month 1 year := by
  unfold calDaysInMonth at h
  split at h
  · cases h
  · split at h
    · cases h
    · split at h
      · cases h
      · simp only at h
        split at h
        · cases h
        · cases h
          exact ⟨not_not.mp ‹_›, not_not.mp ‹_›, by omega, ‹_›, rfl⟩

theorem countsMonth_of_length {length : Int} (hlength : 0 ≤ length)
    (hcount : (daysOfMonth calendar month year).ncard = length.toNat)
    (hend : monthEnd calendar month year = calendarToJd calendar month 1 year + length) :
    CountsMonth calendar month year
      (monthEnd calendar month year - calendarToJd calendar month 1 year) := by
  have hdays : monthEnd calendar month year - calendarToJd calendar month 1 year = length := by
    omega
  rw [CountsMonth, hcount, hdays]
  omega

/-- The day numbers that a month length is computed from lie in the range of the casts. -/
theorem calendarToJd_months {toJd : Int → Int → Int → Int}
    (hmonth : 1 ≤ month ∧ month ≤ 2147483646) (hyear : i32Min ≤ year ∧ year ≤ 2147483646)
    (hto : ∀ month day year, calendarToJd calendar month day year =
      toJd (directCalendarInt month) (directCalendarInt day) (directCalendarInt year)) :
    calendarToJd calendar month 1 year = toJd month 1 year ∧
      monthEnd calendar month year =
        if toJd (month + 1) 1 year = 0 then
          if calendar = 3 ∧ toJd 1 1 (if year = -1 then 1 else year + 1) = 0 then frenchLastJd + 1
          else toJd 1 1 (if year = -1 then 1 else year + 1)
        else toJd (month + 1) 1 year := by
  have hone : directCalendarInt 1 = 1 := rfl
  have hmonth' : directCalendarInt month = month :=
    directCalendarInt_eq (by unfold i32Min i32Max; omega)
  have hnext : directCalendarInt (month + 1) = month + 1 :=
    directCalendarInt_eq (by unfold i32Min i32Max; omega)
  have hyear' : directCalendarInt year = year :=
    directCalendarInt_eq (by unfold i32Max; omega)
  have hnextYear : directCalendarInt (if year = -1 then 1 else year + 1) =
      if year = -1 then 1 else year + 1 := by
    apply directCalendarInt_eq
    unfold i32Min i32Max at *
    split <;> omega
  simp only [monthEnd, hto, hone, hmonth', hnext, hyear', hnextYear]
  exact ⟨trivial, trivial⟩

theorem civil_countsMonth (hsplit : YearSplit leap yearStart fromYear fromDay)
    (hconv : CivilConversions leap (civilToJd yearStart) fromJd)
    (hto : ∀ month day year, calendarToJd calendar month day year =
      civilToJd yearStart (directCalendarInt month) (directCalendarInt day)
        (directCalendarInt year))
    (hfrom : ∀ jd, calendarFromJd jd calendar = fromJd jd) (hcalendar : calendar ≠ 3)
    (hmonth : 1 ≤ month ∧ month ≤ 2147483646) (hyear : i32Min ≤ year ∧ year ≤ 2147483646)
    (hstart : calendarToJd calendar month 1 year ≠ 0) :
    CountsMonth calendar month year
      (monthEnd calendar month year - calendarToJd calendar month 1 year) := by
  obtain ⟨hfirst, hend⟩ := calendarToJd_months hmonth hyear hto
  have hlt : i32Min ≤ year ∧ year < i32Max := by
    unfold i32Max
    omega
  rw [hfirst] at hstart
  have hdate : IsDate leap ⟨month, 1, year⟩ := isDate_first hstart
  apply countsMonth_of_length (zero_le_one.trans hdate.day_le)
  · rw [daysOfMonth]
    simp only [hfrom, hfirst]
    exact civil_month hsplit hconv hmonth.1 hlt hstart
  · rw [hend, hfirst]
    simp only [hcalendar, false_and, if_false]
    exact civil_monthEnd hsplit hlt.2 hstart

theorem hebrew_countsMonth_iff (hmonth : 1 ≤ month ∧ month ≤ 2147483646)
    (hyear : i32Min ≤ year ∧ year ≤ 2147483646) (hstart : calendarToJd 2 month 1 year ≠ 0) :
    CountsMonth 2 month year (monthEnd 2 month year - calendarToJd 2 month 1 year) ↔
      ¬ (month = 12 ∧ year = hebrewLastYear) := by
  have hto : ∀ month day year, calendarToJd 2 month day year = hebrewToJd
      (directCalendarInt month) (directCalendarInt day) (directCalendarInt year) :=
    fun _ _ _ => rfl
  obtain ⟨hfirst, hend⟩ := calendarToJd_months hmonth hyear hto
  have hother : ¬ (2 : Int) = 3 := by decide
  simp only [hother, false_and, if_false] at hend
  rw [hfirst] at hstart
  have hok : (1 ≤ year ∧ year ≤ hebrewLastYear) ∧ 1 ≤ month ∧ month ≤ 13 := by
    by_contra hnot
    rw [hebrewToJd, if_pos (by omega)] at hstart
    exact hstart rfl
  obtain ⟨hinside, hmonths⟩ := hok
  have hsize := hebrewMonthSize_bounds year month
  have hnumber := hebrewToJd_first hinside hmonths
  have hlast : hebrewNumber ⟨month, 1, year⟩ ≤ hebrewLastJd := by
    by_contra hover
    rw [hnumber, if_pos (by omega)] at hstart
    exact hstart rfl
  rw [if_neg (by omega)] at hnumber
  have hpositive : ¬ year = -1 := by omega
  have hmonthEnd := hebrew_monthEnd hinside hmonths hlast
  rw [if_neg hpositive, hmonthEnd] at hend
  by_cases hfinal : month = 12 ∧ year = hebrewLastYear
  · rw [if_pos hfinal] at hend
    refine iff_of_false (fun hcounts => ?_) (not_not.mpr hfinal)
    have hnonneg := hcounts.1
    have hnewYear := hebrewNewYear_le le_rfl hinside.1
    rw [hebrewNewYear_one] at hnewYear
    have htotal : 0 ≤ totalSize (hebrewMonthSize year) (numbersBelow month) :=
      totalSize_nonneg fun m _ => (hebrewMonthSize_bounds year m).1
    rw [hend, hfirst, hnumber] at hnonneg
    unfold hebrewEpochJd at hnewYear
    simp only [hebrewNumber] at hnonneg
    omega
  · rw [if_neg hfinal] at hend
    refine iff_of_true (countsMonth_of_length hsize.1 ?_ ?_) hfinal
    · have hbound := hebrew_lastMonth hinside hmonths hlast
      rw [daysOfMonth, hfirst, hnumber]
      apply hebrew_month hinside hmonths
      by_contra hover
      exact hfinal (hbound.mp (by omega))
    · rw [hend, hfirst, hnumber]

theorem french_countsMonth (hmonth : 1 ≤ month ∧ month ≤ 2147483646)
    (hyear : i32Min ≤ year ∧ year ≤ 2147483646) (hstart : calendarToJd 3 month 1 year ≠ 0) :
    CountsMonth 3 month year (monthEnd 3 month year - calendarToJd 3 month 1 year) := by
  have hto : ∀ month day year, calendarToJd 3 month day year = frenchToJd
      (directCalendarInt month) (directCalendarInt day) (directCalendarInt year) :=
    fun _ _ _ => rfl
  obtain ⟨hfirst, hend⟩ := calendarToJd_months hmonth hyear hto
  rw [hfirst] at hstart
  have hok : (1 ≤ year ∧ year ≤ 14) ∧ 1 ≤ month ∧ month ≤ 13 := by
    by_contra hnot
    rw [frenchToJd, if_pos (by omega)] at hstart
    exact hstart rfl
  obtain ⟨hinside, hmonths⟩ := hok
  have hdays := frenchYearDays_bounds year
  have hsize : 0 ≤ frenchMonthSize year month := by
    unfold frenchMonthSize
    split <;> omega
  have hpositive : ¬ year = -1 := by omega
  have hnumber := frenchToJd_first hinside hmonths
  apply countsMonth_of_length hsize
  · rw [daysOfMonth, hfirst, hnumber]
    exact french_month hinside hmonths
  · rw [hend, hfirst, hnumber, if_neg hpositive]
    exact french_monthEnd hinside hmonths

/-- A month length that is returned counts the days of the month, but for the month in which the
Hebrew calendar ends. -/
theorem calDaysInMonth_counts_iff (hyear : i32Min ≤ year ∧ year ≤ i32Max)
    (h : calDaysInMonth calendar month year = .ok days) :
    CountsMonth calendar month year days ↔
      ¬ (calendar = 2 ∧ month = 12 ∧ year = hebrewLastYear) := by
  obtain ⟨⟨hlow, hhigh⟩, hmonth, hlast, hstart, rfl⟩ := calDaysInMonth_ok h
  have hrange : i32Min ≤ year ∧ year ≤ 2147483646 := ⟨hyear.1, hlast⟩
  interval_cases calendar
  · exact iff_of_true (civil_countsMonth gregorian_split civil_conversions.1 (fun _ _ _ => rfl)
      (fun _ => rfl) (by decide) hmonth hrange hstart) (by simp)
  · exact iff_of_true (civil_countsMonth julian_split civil_conversions.2 (fun _ _ _ => rfl)
      (fun _ => rfl) (by decide) hmonth hrange hstart) (by simp)
  · simpa using hebrew_countsMonth_iff hmonth hrange hstart
  · exact iff_of_true (french_countsMonth hmonth hrange hstart) (by simp)

theorem calDaysInMonth_february :
    CountsMonth 0 2 (-1) 29 :=
  (calDaysInMonth_counts_iff ⟨by decide, by decide⟩
    (show calDaysInMonth 0 2 (-1) = .ok 29 by decide)).mpr (by decide)

theorem calDaysInMonth_end_negative :
    calDaysInMonth 2 12 hebrewLastYear = .ok (-324542834) ∧
      ¬ CountsMonth 2 12 hebrewLastYear (-324542834) := by
  refine ⟨by decide, fun h => ?_⟩
  exact absurd h.1 (by decide)

end Calendars

end Rphp.Stdlib.Calendar
