import Mathlib.Tactic.IntervalCases
import Rphp.Stdlib.Calendar.Civil
import Rphp.Lib.DayCount

namespace Rphp.Stdlib.Calendar
open Rphp.Lib
set_option autoImplicit true

def hebrewEpochJd : Int := 347998

def hebrewLastJd : Int := 324542846

def hebrewLastYear : Int := 887605

def hebrewIsLeapYear (year : Int) : Bool := (7 * year + 1) % 19 < 7

def hebrewElapsedDays (year : Int) : Int :=
  let months := (235 * year - 234).tdiv 19
  let parts := 12084 + 13753 * months
  let day := 29 * months + parts.tdiv 25920
  if (3 * (day + 1)) % 7 < 3 then day + 1 else day

def hebrewNewYearDelay (year : Int) : Int :=
  let previous := hebrewElapsedDays (year - 1)
  let current := hebrewElapsedDays year
  let next := hebrewElapsedDays (year + 1)
  if next - current = 356 then 2
  else if current - previous = 382 then 1
  else 0

def hebrewNewYear (year : Int) : Int :=
  hebrewEpochJd + hebrewElapsedDays year + hebrewNewYearDelay year

def hebrewYearDays (year : Int) : Int := hebrewNewYear (year + 1) - hebrewNewYear year

section Molad

/-- The months in front of a year. -/
def moladMonths (year : Int) : Int := (235 * year - 234) / 19

/-- The day of the new moon that begins a year. -/
def moladDay (year : Int) : Int :=
  29 * moladMonths year + (12084 + 13753 * moladMonths year) / 25920

/-- The parts of that day that have passed at the new moon. -/
def moladParts (year : Int) : Int := (12084 + 13753 * moladMonths year) % 25920

/-- A new year does not begin on three days of the week. -/
theorem postponed_iff (day : Int) :
    (3 * (day + 1)) % 7 < 3 ↔ day % 7 = 2 ∨ day % 7 = 4 ∨ day % 7 = 6 := by
  obtain ⟨week, rest, ⟨hlow, hhigh⟩, rfl⟩ : ∃ week rest, (0 ≤ rest ∧ rest < 7) ∧
      day = 7 * week + rest :=
    ⟨day / 7, day % 7, by omega, by omega⟩
  interval_cases rest
  all_goals omega

theorem hebrewElapsedDays_eq (hyear : 1 ≤ year) :
    hebrewElapsedDays year =
      if moladDay year % 7 = 2 ∨ moladDay year % 7 = 4 ∨ moladDay year % 7 = 6 then
        moladDay year + 1
      else moladDay year := by
  have hmonths : (235 * year - 234).tdiv 19 = moladMonths year :=
    Int.tdiv_eq_ediv_of_nonneg (by omega)
  have hnonneg : 0 ≤ moladMonths year := by
    unfold moladMonths
    omega
  have hparts : (12084 + 13753 * moladMonths year).tdiv 25920 =
      (12084 + 13753 * moladMonths year) / 25920 :=
    Int.tdiv_eq_ediv_of_nonneg (by omega)
  simp only [hebrewElapsedDays, hmonths, hparts, postponed_iff]
  rfl

theorem year_of_cycle (year : Int) :
    ∃ cycle rest, (0 ≤ rest ∧ rest < 19) ∧ year = 19 * cycle + rest :=
  ⟨year / 19, year % 19, by omega, by omega⟩

theorem moladMonths_succ (year : Int) :
    moladMonths (year + 1) = moladMonths year + if hebrewIsLeapYear year then 13 else 12 := by
  unfold moladMonths hebrewIsLeapYear
  simp only [decide_eq_true_eq]
  obtain ⟨cycle, rest, ⟨hlow, hhigh⟩, rfl⟩ := year_of_cycle year
  interval_cases rest
  all_goals split_ifs <;> omega

/-- A year of twelve months moves the new moon by 354 days and 9516 parts, one of thirteen months
by 383 days and 23269 parts. -/
theorem molad_succ (year : Int) :
    ∃ carry, (carry = 0 ∨ carry = 1) ∧
      moladDay (year + 1) =
        moladDay year + (if hebrewIsLeapYear year then 383 else 354) + carry ∧
      moladParts (year + 1) =
        moladParts year + (if hebrewIsLeapYear year then 23269 else 9516) - 25920 * carry := by
  have hmonths := moladMonths_succ year
  unfold moladDay moladParts
  generalize moladMonths year = months at *
  generalize moladMonths (year + 1) = next at *
  split_ifs at *
  · refine ⟨((12084 + 13753 * months) % 25920 + 23269) / 25920, ?_, ?_, ?_⟩ <;> omega
  · refine ⟨((12084 + 13753 * months) % 25920 + 9516) / 25920, ?_, ?_, ?_⟩ <;> omega

theorem moladParts_bounds (year : Int) : 0 ≤ moladParts year ∧ moladParts year < 25920 := by
  unfold moladParts
  omega

theorem not_leap_succ (h : hebrewIsLeapYear year = true) : hebrewIsLeapYear (year + 1) = false := by
  simp only [hebrewIsLeapYear, decide_eq_true_eq, decide_eq_false_iff_not] at *
  obtain ⟨cycle, rest, ⟨hlow, hhigh⟩, rfl⟩ := year_of_cycle year
  interval_cases rest
  all_goals omega

end Molad

section YearLength

theorem elapsed_356 (hyear : 1 ≤ year)
    (h : hebrewElapsedDays (year + 1) - hebrewElapsedDays year = 356) :
    hebrewIsLeapYear year = false ∧ moladDay year % 7 = 1 ∧ 16404 ≤ moladParts year := by
  obtain ⟨carry, hcarry, hday, hparts⟩ := molad_succ year
  have hbounds := moladParts_bounds (year + 1)
  have hbounds' := moladParts_bounds year
  rw [hebrewElapsedDays_eq hyear, hebrewElapsedDays_eq (by omega)] at h
  cases hleap : hebrewIsLeapYear year with
  | true =>
    simp only [hleap, if_true] at hday hparts
    split_ifs at h <;> omega
  | false =>
    simp only [hleap, Bool.false_eq_true, if_false] at hday hparts
    refine ⟨rfl, ?_, ?_⟩ <;> split_ifs at h <;> omega

theorem elapsed_382 (hyear : 1 ≤ year)
    (h : hebrewElapsedDays (year + 1) - hebrewElapsedDays year = 382) :
    hebrewIsLeapYear year = true ∧ moladDay (year + 1) % 7 = 0 ∧
      23269 ≤ moladParts (year + 1) := by
  obtain ⟨carry, hcarry, hday, hparts⟩ := molad_succ year
  have hbounds := moladParts_bounds (year + 1)
  have hbounds' := moladParts_bounds year
  rw [hebrewElapsedDays_eq hyear, hebrewElapsedDays_eq (by omega)] at h
  cases hleap : hebrewIsLeapYear year with
  | true =>
    simp only [hleap, if_true] at hday hparts
    refine ⟨rfl, ?_, ?_⟩ <;> split_ifs at h <;> omega
  | false =>
    simp only [hleap, Bool.false_eq_true, if_false] at hday hparts
    split_ifs at h <;> omega

/-- Why a year begins late: it would have 356 days, or the year before it 382. -/
theorem hebrewNewYearDelay_cases (hyear : 1 ≤ year) :
    (hebrewNewYearDelay year = 2 ∧
        hebrewElapsedDays (year + 1) - hebrewElapsedDays year = 356 ∧
        hebrewIsLeapYear year = false ∧ moladDay year % 7 = 1 ∧ 16404 ≤ moladParts year) ∨
      (hebrewNewYearDelay year = 1 ∧
        hebrewElapsedDays (year + 1) - hebrewElapsedDays year ≠ 356 ∧
        hebrewElapsedDays year - hebrewElapsedDays (year - 1) = 382 ∧
        hebrewIsLeapYear year = false ∧ moladDay year % 7 = 0 ∧ 23269 ≤ moladParts year) ∨
      (hebrewNewYearDelay year = 0 ∧
        hebrewElapsedDays (year + 1) - hebrewElapsedDays year ≠ 356 ∧
        hebrewElapsedDays year - hebrewElapsedDays (year - 1) ≠ 382) := by
  by_cases hlong : hebrewElapsedDays (year + 1) - hebrewElapsedDays year = 356
  · left
    exact ⟨by simp only [hebrewNewYearDelay, if_pos hlong], hlong, elapsed_356 hyear hlong⟩
  · right
    by_cases hshort : hebrewElapsedDays year - hebrewElapsedDays (year - 1) = 382
    · left
      have hsecond : 2 ≤ year := by
        by_contra hfirst
        obtain rfl : year = 1 := by omega
        exact absurd hshort (by decide)
      have hprevious : year - 1 + 1 = year := by omega
      obtain ⟨hleap, hday, hparts⟩ := elapsed_382 (show 1 ≤ year - 1 by omega)
        (by rw [hprevious]; exact hshort)
      have hcommon := not_leap_succ hleap
      rw [hprevious] at hday hparts hcommon
      exact ⟨by simp only [hebrewNewYearDelay, if_neg hlong, if_pos hshort], hlong, hshort,
        hcommon, hday, hparts⟩
    · right
      exact ⟨by simp only [hebrewNewYearDelay, if_neg hlong, if_neg hshort], hlong, hshort⟩

/-- A common year has 353 to 355 days, and a leap year 383 to 385. -/
theorem hebrewYearDays_cases (hyear : 1 ≤ year) :
    if hebrewIsLeapYear year then 383 ≤ hebrewYearDays year ∧ hebrewYearDays year ≤ 385
    else 353 ≤ hebrewYearDays year ∧ hebrewYearDays year ≤ 355 := by
  have hnext : 1 ≤ year + 1 := by omega
  have hprevious : year + 1 - 1 = year := by omega
  have hdelay := hebrewNewYearDelay_cases hyear
  have hdelay' := hebrewNewYearDelay_cases hnext
  obtain ⟨carry, hcarry, hday, hparts⟩ := molad_succ year
  have hbounds := moladParts_bounds (year + 1)
  have hbounds' := moladParts_bounds year
  have helapsed := hebrewElapsedDays_eq hyear
  have helapsed' := hebrewElapsedDays_eq hnext
  rw [hprevious] at hdelay'
  unfold hebrewYearDays hebrewNewYear
  generalize hebrewElapsedDays (year + 1 + 1) = after at *
  generalize hebrewElapsedDays (year - 1) = before at *
  generalize hebrewElapsedDays (year + 1) = next at *
  generalize hebrewElapsedDays year = current at *
  generalize hebrewNewYearDelay (year + 1) = delay' at *
  generalize hebrewNewYearDelay year = delay at *
  cases hleap : hebrewIsLeapYear year with
  | true =>
    have hcommon := not_leap_succ hleap
    simp only [hleap, hcommon, if_true] at *
    obtain ⟨rfl, hdiff, hdelay⟩ | ⟨rfl, hdiff, hshort, hdelay⟩ | ⟨rfl, hdiff, hshort⟩ := hdelay
    · exact absurd hdelay.1 (by decide)
    · exact absurd hdelay.1 (by decide)
    · obtain ⟨rfl, hdiff', hdelay'⟩ | ⟨rfl, hdiff', hshort', hdelay'⟩ | ⟨rfl, hdiff', hshort'⟩ :=
        hdelay'
      all_goals split_ifs at helapsed helapsed' <;> omega
  | false =>
    simp only [hleap, Bool.false_eq_true, if_false] at *
    obtain ⟨rfl, hdiff, hdelay⟩ | ⟨rfl, hdiff, hshort, hdelay⟩ | ⟨rfl, hdiff, hshort⟩ := hdelay
    all_goals
      obtain ⟨rfl, hdiff', hdelay'⟩ | ⟨rfl, hdiff', hshort', hdelay'⟩ | ⟨rfl, hdiff', hshort'⟩ :=
        hdelay'
    all_goals split_ifs at helapsed helapsed' <;> omega

end YearLength

def hebrewDaysInMonth (month year : Int) : Option Int :=
  if ¬ (1 ≤ year ∧ year ≤ hebrewLastYear) then none
  else
    let yearDays := hebrewYearDays year
    match month with
    | 1 => some 30
    | 2 => some (if yearDays % 10 = 5 then 30 else 29)
    | 3 => some (if yearDays % 10 = 3 then 29 else 30)
    | 4 => some 29
    | 5 => some 30
    | 6 => some (if hebrewIsLeapYear year then 30 else 0)
    | 7 => some 29
    | 8 => some 30
    | 9 => some 29
    | 10 => some 30
    | 11 => some 29
    | 12 => some 30
    | 13 => some 29
    | _ => none

def hebrewToJd (month day year : Int) : Int :=
  if ¬ (1 ≤ year ∧ year ≤ hebrewLastYear) ∨ ¬ (1 ≤ month ∧ month ≤ 13) ∨
      ¬ (1 ≤ day ∧ day ≤ 30) then 0
  else
    match (numbersBelow month).foldlM
        (fun jd current => (hebrewDaysInMonth current year).map (jd + ·)) (hebrewNewYear year) with
    | none => 0
    | some jd =>
      let jd := jd + (day - 1)
      if hebrewLastJd < jd then 0 else jd

/-- The loop of `hebrew_from_jd` over the months that are left. -/
def hebrewMonthOf (year : Int) : List Int → Int → CivilDate
  | [], _ => .invalid
  | month :: months, offset =>
    let days := (hebrewDaysInMonth month year).getD 0
    if days = 0 then hebrewMonthOf year months offset
    else if offset < days then ⟨month, offset + 1, year⟩
    else hebrewMonthOf year months (offset - days)

def hebrewFromJd (jd : Int) : CivilDate :=
  if ¬ (hebrewEpochJd ≤ jd ∧ jd ≤ hebrewLastJd) then .invalid
  else
    let year := bisect (fun middle => hebrewNewYear middle ≤ jd) 1 (hebrewLastYear + 1)
    hebrewMonthOf year (numbersBelow 14) (jd - hebrewNewYear year)

/-- The length of a month, nothing where the calendar has none. -/
def hebrewMonthSize (year month : Int) : Int := (hebrewDaysInMonth month year).getD 0

section Months

theorem hebrewDaysInMonth_bounds (h : hebrewDaysInMonth month year = some days) :
    0 ≤ days ∧ days ≤ 30 := by
  unfold hebrewDaysInMonth at h
  split at h
  · cases h
  · dsimp only at h
    split at h
    all_goals cases h
    all_goals first
      | decide
      | split <;> decide

theorem hebrewMonthSize_bounds (year month : Int) :
    0 ≤ hebrewMonthSize year month ∧ hebrewMonthSize year month ≤ 30 := by
  unfold hebrewMonthSize
  cases h : hebrewDaysInMonth month year with
  | none => decide
  | some days => exact hebrewDaysInMonth_bounds h

variable {year : Int} (hyear : 1 ≤ year ∧ year ≤ hebrewLastYear)

include hyear

theorem hebrewDaysInMonth_eq (hmonth : 1 ≤ month ∧ month ≤ 13) :
    hebrewDaysInMonth month year = some (hebrewMonthSize year month) := by
  obtain ⟨hlow, hhigh⟩ := hmonth
  unfold hebrewMonthSize hebrewDaysInMonth
  rw [if_neg (not_not.mpr hyear)]
  interval_cases month
  all_goals rfl

/-- The thirteen months make up the year. -/
theorem totalSize_hebrewMonths :
    totalSize (hebrewMonthSize year) (numbersBelow 14) = hebrewYearDays year := by
  have hmonths : numbersBelow 14 = [1, 2, 3, 4, 5, 6, 7, 8, 9, 10, 11, 12, 13] := by decide
  have hcases := hebrewYearDays_cases hyear.1
  rw [hmonths]
  simp only [totalSize_cons, totalSize_nil, hebrewMonthSize, hebrewDaysInMonth, if_neg (not_not.mpr hyear)]
  generalize hebrewYearDays year = days at *
  simp
  split_ifs at * <;> omega

/-- Only a common year has an empty month, its sixth. -/
theorem hebrewMonthSize_pos (hmonth : 1 ≤ month ∧ month ≤ 13)
    (hleap : month = 6 → hebrewIsLeapYear year = true) : 1 ≤ hebrewMonthSize year month := by
  obtain ⟨hlow, hhigh⟩ := hmonth
  unfold hebrewMonthSize hebrewDaysInMonth
  rw [if_neg (not_not.mpr hyear)]
  interval_cases month
  case «6» => simp [hleap rfl]
  case «2» => simp only; split <;> decide
  case «3» => simp only; split <;> decide
  all_goals simp

theorem hebrewMonthSize_six (hleap : hebrewIsLeapYear year = false) :
    hebrewMonthSize year 6 = 0 := by
  unfold hebrewMonthSize hebrewDaysInMonth
  rw [if_neg (not_not.mpr hyear)]
  simp [hleap]

theorem foldlM_hebrewMonths (months : List Int) (hmonths : ∀ month ∈ months, 1 ≤ month ∧ month ≤ 13)
    (jd : Int) :
    months.foldlM (fun jd current => (hebrewDaysInMonth current year).map (jd + ·)) jd =
      some (jd + totalSize (hebrewMonthSize year) months) := by
  induction months generalizing jd with
  | nil => simp
  | cons month months ih =>
    have hmonth := hebrewDaysInMonth_eq hyear (hmonths month List.mem_cons_self)
    rw [List.foldlM_cons, hmonth, totalSize_cons, ← add_assoc]
    exact ih (fun m hm => hmonths m (List.mem_cons_of_mem _ hm)) _

omit hyear in
theorem hebrewMonthOf_eq (months : List Int) (hoffset : 0 ≤ offset) :
    hebrewMonthOf year months offset =
      match locate (hebrewMonthSize year) months offset with
      | some (month, rest) => ⟨month, rest + 1, year⟩
      | none => .invalid := by
  induction months generalizing offset with
  | nil => rfl
  | cons month months ih =>
    have hsize := hebrewMonthSize_bounds year month
    simp only [hebrewMonthOf, locate]
    rw [← hebrewMonthSize]
    split
    · rename_i hzero
      rw [if_neg (by omega), ih hoffset, hzero, sub_zero]
    · split
      · rfl
      · exact ih (by omega)

end Months

/-- A date that the calendar has. -/
structure IsHebrewDate (date : CivilDate) : Prop where
  year : 1 ≤ date.year ∧ date.year ≤ hebrewLastYear
  month : 1 ≤ date.month ∧ date.month ≤ 13
  day : 1 ≤ date.day ∧ date.day ≤ hebrewMonthSize date.year date.month

/-- The day number of a date. -/
def hebrewNumber (date : CivilDate) : Int :=
  hebrewNewYear date.year + totalSize (hebrewMonthSize date.year) (numbersBelow date.month) +
    (date.day - 1)

/-- The date of the day after; a common year has no sixth month. -/
def hebrewNextDate (date : CivilDate) : CivilDate :=
  if date.day < hebrewMonthSize date.year date.month then { date with day := date.day + 1 }
  else if date.month = 13 then ⟨1, 1, date.year + 1⟩
  else if date.month = 5 ∧ hebrewIsLeapYear date.year = false then ⟨7, 1, date.year⟩
  else ⟨date.month + 1, 1, date.year⟩

section Years

theorem hebrewNewYear_succ (year : Int) :
    hebrewNewYear (year + 1) = hebrewNewYear year + hebrewYearDays year := by
  unfold hebrewYearDays
  omega

theorem hebrewYearDays_pos (hyear : 1 ≤ year) : 353 ≤ hebrewYearDays year := by
  have hcases := hebrewYearDays_cases hyear
  split at hcases <;> omega

theorem hebrewNewYear_lt {year later : Int} (hyear : 1 ≤ year) (hlt : year < later) :
    hebrewNewYear year < hebrewNewYear later := by
  induction later, hlt using Int.leInduction with
  | base =>
    have hpos := hebrewYearDays_pos hyear
    rw [hebrewNewYear_succ]
    omega
  | succ later hle ih =>
    have hpos := hebrewYearDays_pos (show 1 ≤ later by omega)
    rw [hebrewNewYear_succ]
    omega

theorem hebrewNewYear_le {year later : Int} (hyear : 1 ≤ year) (hle : year ≤ later) :
    hebrewNewYear year ≤ hebrewNewYear later := by
  obtain rfl | hlt := hle.eq_or_lt
  · exact le_rfl
  · exact (hebrewNewYear_lt hyear hlt).le

/-- No two years share a day. -/
theorem hebrewYear_unique {year other : Int} (hyear : 1 ≤ year) (hother : 1 ≤ other)
    (h : hebrewNewYear year ≤ jd ∧ jd < hebrewNewYear (year + 1))
    (h' : hebrewNewYear other ≤ jd ∧ jd < hebrewNewYear (other + 1)) : year = other := by
  obtain hlt | heq | hgt := lt_trichotomy year other
  · have hle := hebrewNewYear_le (show 1 ≤ year + 1 by omega) (show year + 1 ≤ other by omega)
    omega
  · exact heq
  · have hle := hebrewNewYear_le (show 1 ≤ other + 1 by omega) (show other + 1 ≤ year by omega)
    omega

theorem hebrewNewYear_one : hebrewNewYear 1 = hebrewEpochJd := by decide

theorem lt_hebrewNewYear_last : hebrewLastJd < hebrewNewYear (hebrewLastYear + 1) := by decide

/-- The search finds the year that holds the day. -/
theorem hebrewYear_spec (hjd : hebrewEpochJd ≤ jd ∧ jd ≤ hebrewLastJd) {year : Int}
    (hyear : year = bisect (fun middle => hebrewNewYear middle ≤ jd) 1 (hebrewLastYear + 1)) :
    (1 ≤ year ∧ year ≤ hebrewLastYear) ∧
      hebrewNewYear year ≤ jd ∧ jd < hebrewNewYear (year + 1) := by
  have hfirst : hebrewNewYear 1 ≤ jd := hebrewNewYear_one ▸ hjd.1
  have hlast : jd < hebrewNewYear (hebrewLastYear + 1) := hjd.2.trans_lt lt_hebrewNewYear_last
  obtain ⟨hlow, hhigh, hstart, hend⟩ := bisect_starts (by decide) ⟨hfirst, hlast⟩
  rw [← hyear] at *
  exact ⟨⟨hlow, by omega⟩, hstart, hend⟩

end Years

section Conversions

theorem hebrewToJd_eq (h : IsHebrewDate date) :
    hebrewToJd date.month date.day date.year =
      if hebrewLastJd < hebrewNumber date then 0 else hebrewNumber date := by
  obtain ⟨hyear, hmonth, hday⟩ := h
  have hsize := hebrewMonthSize_bounds date.year date.month
  have hok : ¬ (¬ (1 ≤ date.year ∧ date.year ≤ hebrewLastYear) ∨
      ¬ (1 ≤ date.month ∧ date.month ≤ 13) ∨ ¬ (1 ≤ date.day ∧ date.day ≤ 30)) := by
    omega
  have hmonths : ∀ m ∈ numbersBelow date.month, 1 ≤ m ∧ m ≤ 13 :=
    fun m hm => have hm := mem_numbersBelow.mp hm; ⟨hm.1, by omega⟩
  rw [hebrewToJd, if_neg hok, foldlM_hebrewMonths hyear _ hmonths]
  rfl

/-- A date lies in its year. -/
theorem hebrewNumber_bounds (h : IsHebrewDate date) :
    hebrewNewYear date.year ≤ hebrewNumber date ∧
      hebrewNumber date < hebrewNewYear (date.year + 1) := by
  obtain ⟨hyear, hmonth, hday⟩ := h
  obtain ⟨after, hsplit⟩ := numbersBelow_split ⟨hmonth.1, (by omega : date.month < 14)⟩
  have htotal := totalSize_hebrewMonths hyear
  have hbefore : 0 ≤ totalSize (hebrewMonthSize date.year) (numbersBelow date.month) :=
    totalSize_nonneg fun m _ => (hebrewMonthSize_bounds date.year m).1
  have hafter : 0 ≤ totalSize (hebrewMonthSize date.year) after :=
    totalSize_nonneg fun m _ => (hebrewMonthSize_bounds date.year m).1
  rw [hsplit, totalSize_append, totalSize_cons] at htotal
  rw [hebrewNewYear_succ]
  unfold hebrewNumber
  omega

theorem hebrewFromJd_number (h : IsHebrewDate date) (hlast : hebrewNumber date ≤ hebrewLastJd) :
    hebrewFromJd (hebrewNumber date) = date := by
  obtain ⟨hstart, hend⟩ := hebrewNumber_bounds h
  have hfirst : hebrewEpochJd ≤ hebrewNumber date := by
    rw [← hebrewNewYear_one]
    exact (hebrewNewYear_le le_rfl h.year.1).trans hstart
  obtain ⟨hyear, hfound⟩ := hebrewYear_spec ⟨hfirst, hlast⟩ rfl
  have hunique := hebrewYear_unique hyear.1 h.year.1 hfound ⟨hstart, hend⟩
  obtain ⟨after, hsplit⟩ := numbersBelow_split (show 1 ≤ date.month ∧ date.month < 14 by have := h.month; omega)
  have hoffset : hebrewNumber date - hebrewNewYear date.year =
      totalSize (hebrewMonthSize date.year) (numbersBelow date.month) + (date.day - 1) := by
    unfold hebrewNumber
    omega
  have hday := h.day
  simp only [hebrewFromJd, not_not.mpr (And.intro hfirst hlast), if_false, hunique]
  rw [hebrewMonthOf_eq _ (by omega), hoffset, hsplit,
    locate_total (fun m _ => (hebrewMonthSize_bounds date.year m).1) (by omega) (by omega)]
  simp

theorem hebrewFromJd_isDate (hjd : hebrewEpochJd ≤ jd ∧ jd ≤ hebrewLastJd) :
    IsHebrewDate (hebrewFromJd jd) ∧ hebrewNumber (hebrewFromJd jd) = jd := by
  obtain ⟨hyear, hstart, hend⟩ := hebrewYear_spec hjd rfl
  simp only [hebrewFromJd, not_not.mpr hjd, if_false]
  generalize bisect (fun middle => hebrewNewYear middle ≤ jd) 1 (hebrewLastYear + 1) = year at *
  have htotal := totalSize_hebrewMonths hyear
  rw [hebrewNewYear_succ] at hend
  rw [hebrewMonthOf_eq _ (by omega)]
  have hfound :
      (locate (hebrewMonthSize year) (numbersBelow 14) (jd - hebrewNewYear year)).isSome :=
    locate_isSome (by omega) (by omega)
  obtain ⟨⟨month, rest⟩, hlocate⟩ := Option.isSome_iff_exists.mp hfound
  obtain ⟨before, after, hsplit, hoffset, hrest, hlt⟩ := locate_eq_some hlocate (by omega)
  obtain ⟨rfl, hmonth⟩ := eq_numbersBelow hsplit
  rw [hlocate]
  refine ⟨⟨hyear, ⟨hmonth.1, by simp only; omega⟩, ?_⟩, ?_⟩
  · simp only
    omega
  · simp only [hebrewNumber]
    omega

theorem hebrewNextDate_spec (h : IsHebrewDate date)
    (hlast : hebrewNumber date + 1 ≤ hebrewLastJd) :
    IsHebrewDate (hebrewNextDate date) ∧
      hebrewNumber (hebrewNextDate date) = hebrewNumber date + 1 := by
  obtain ⟨hyear, hmonth, hday⟩ := h
  obtain ⟨month, day, year⟩ := date
  simp only at hyear hmonth hday
  by_cases hend : day < hebrewMonthSize year month
  · simp only [hebrewNextDate, if_pos hend]
    refine ⟨⟨hyear, hmonth, by simp only; omega⟩, ?_⟩
    simp only [hebrewNumber]
    omega
  · have hfull : day = hebrewMonthSize year month := by omega
    simp only [hebrewNumber] at hlast
    by_cases hthirteen : month = 13
    · subst month
      have htotal := totalSize_hebrewMonths hyear
      rw [show (14 : Int) = 13 + 1 from rfl, numbersBelow_succ (by omega), totalSize_append,
        totalSize_cons, totalSize_nil] at htotal
      have hnumber : hebrewNewYear (year + 1) =
          hebrewNewYear year + totalSize (hebrewMonthSize year) (numbersBelow 13) + (day - 1) + 1 := by
        rw [hebrewNewYear_succ]
        omega
      have hnext : year + 1 ≤ hebrewLastYear := by
        by_contra hover
        have hle := hebrewNewYear_le (show 1 ≤ hebrewLastYear + 1 by decide)
          (show hebrewLastYear + 1 ≤ year + 1 by omega)
        have hafter := lt_hebrewNewYear_last
        omega
      have hfirst : 1 ≤ year + 1 := by omega
      simp only [hebrewNextDate, if_neg hend, if_true]
      refine ⟨⟨⟨hfirst, hnext⟩, by simp, le_rfl, ?_⟩, ?_⟩
      · exact hebrewMonthSize_pos ⟨hfirst, hnext⟩ (by simp) (by simp)
      · simp only [hebrewNumber, ← hnumber]
        simp [numbersBelow]
    · by_cases hskip : month = 5 ∧ hebrewIsLeapYear year = false
      · obtain ⟨rfl, hcommon⟩ := hskip
        simp only [hebrewNextDate, if_neg hend, if_neg hthirteen, hcommon, and_self, if_true]
        refine ⟨⟨hyear, by simp, le_rfl, ?_⟩, ?_⟩
        · exact hebrewMonthSize_pos hyear (by simp) (by simp)
        · have hsix : hebrewMonthSize year (5 + 1) = 0 := hebrewMonthSize_six hyear hcommon
          simp only [hebrewNumber]
          rw [show (7 : Int) = 5 + 1 + 1 from rfl, numbersBelow_succ (by omega),
            numbersBelow_succ (by omega), totalSize_append, totalSize_append]
          simp only [totalSize_cons, totalSize_nil]
          omega
      · simp only [hebrewNextDate, if_neg hend, if_neg hthirteen, if_neg hskip]
        refine ⟨⟨hyear, by simp only; omega, le_rfl, ?_⟩, ?_⟩
        · apply hebrewMonthSize_pos hyear (by simp only; omega)
          intro hsix
          simp only at hsix
          by_contra hcommon
          exact hskip ⟨by omega, by simpa using hcommon⟩
        · simp only [hebrewNumber]
          rw [numbersBelow_succ hmonth.1, totalSize_append]
          simp only [totalSize_cons, totalSize_nil]
          omega

end Conversions

/-- What the Hebrew calendar promises about its years and its days. -/
structure HebrewCalendar : Prop where
  valid : ∀ jd, hebrewEpochJd ≤ jd → jd ≤ hebrewLastJd →
    (hebrewFromJd jd).isValid = true ∧ 1 ≤ (hebrewFromJd jd).day ∧
      ∃ days, hebrewDaysInMonth (hebrewFromJd jd).month (hebrewFromJd jd).year = some days ∧
        (hebrewFromJd jd).day ≤ days
  to_from : ∀ jd, hebrewEpochJd ≤ jd → jd ≤ hebrewLastJd →
    hebrewToJd (hebrewFromJd jd).month (hebrewFromJd jd).day (hebrewFromJd jd).year = jd
  consecutive : ∀ jd, hebrewEpochJd ≤ jd → jd + 1 ≤ hebrewLastJd →
    hebrewFromJd (jd + 1) = hebrewNextDate (hebrewFromJd jd)
  year_days : ∀ year, 1 ≤ year → year ≤ hebrewLastYear →
    hebrewYearDays year ∈ [353, 354, 355, 383, 384, 385]
  year_total : ∀ year, 1 ≤ year → year ≤ hebrewLastYear →
    (numbersBelow 14).foldlM (fun sum month => (hebrewDaysInMonth month year).map (sum + ·)) 0 =
      some (hebrewYearDays year)
  new_year_lt : ∀ year later, 1 ≤ year → year < later →
    hebrewNewYear year < hebrewNewYear later

theorem hebrewCalendar : HebrewCalendar where
  valid jd hfirst hlast := by
    obtain ⟨hdate, -⟩ := hebrewFromJd_isDate ⟨hfirst, hlast⟩
    have hmonth := hdate.month
    refine ⟨?_, hdate.day.1, _, hebrewDaysInMonth_eq hdate.year hmonth, hdate.day.2⟩
    simp only [CivilDate.isValid, bne_iff_ne, ne_eq]
    omega
  to_from jd hfirst hlast := by
    obtain ⟨hdate, hnumber⟩ := hebrewFromJd_isDate ⟨hfirst, hlast⟩
    rw [hebrewToJd_eq hdate, hnumber, if_neg (by omega)]
  consecutive jd hfirst hlast := by
    obtain ⟨hdate, hnumber⟩ := hebrewFromJd_isDate ⟨hfirst, (by omega : jd ≤ hebrewLastJd)⟩
    obtain ⟨hnext, hsucc⟩ := hebrewNextDate_spec hdate (by omega)
    rw [← hebrewFromJd_number hnext (by omega), hsucc, hnumber]
  year_days year hfirst hlast := by
    have hcases := hebrewYearDays_cases hfirst
    simp only [List.mem_cons, List.not_mem_nil, or_false]
    split at hcases <;> omega
  year_total year hfirst hlast := by
    have hmonths : ∀ m ∈ numbersBelow 14, 1 ≤ m ∧ m ≤ 13 :=
      fun m hm => have hm := mem_numbersBelow.mp hm; ⟨hm.1, by omega⟩
    rw [foldlM_hebrewMonths ⟨hfirst, hlast⟩ _ hmonths, totalSize_hebrewMonths ⟨hfirst, hlast⟩, zero_add]
  new_year_lt year later hfirst hlt := hebrewNewYear_lt hfirst hlt

end Rphp.Stdlib.Calendar
