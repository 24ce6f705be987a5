import Rphp.Stdlib.Date.UnixTime

namespace Rphp.Stdlib.Date
set_option autoImplicit true

def isoWeeksInYear (year : Int) : Int :=
  let januaryFirst := (unixToParts (partsToUnix year 1 1 0 0 0)).weekday
  if januaryFirst = 4 ∨ (januaryFirst = 3 ∧ isLeapYear year) then 53 else 52

def isoWeekAndYear (year _month _day weekday yearDay : Int) : Int × Int :=
  let isoWeekday := if weekday = 0 then 7 else weekday
  let week := (yearDay + 11 - isoWeekday).tdiv 7
  if week < 1 then (year - 1, isoWeeksInYear (year - 1))
  else if week > isoWeeksInYear year then (year + 1, 1)
  else (year, week)

/-- The days from 1 January 1970 to 1 January of a year. -/
def januaryFirst (year : Int) : Int := marchDays (year - 1) + 306 - 719468

def yearLength (year : Int) : Int := if isLeapYear year then 366 else 365

example : januaryFirst 1970 = 0 := by decide

theorem isLeapYear_iff (year : Int) :
    isLeapYear year = true ↔ (year % 4 = 0 ∧ year % 100 ≠ 0) ∨ year % 400 = 0 := by
  have hzero : ∀ n, year.tmod n = 0 ↔ year % n = 0 := fun n => by
    rw [← Int.dvd_iff_tmod_eq_zero, Int.dvd_iff_emod_eq_zero]
  rw [isLeapYear, decide_eq_true_eq, ne_eq, hzero, hzero, hzero]

theorem januaryFirst_succ (year : Int) :
    januaryFirst (year + 1) = januaryFirst year + yearLength year := by
  have hleap := isLeapYear_iff year
  unfold januaryFirst marchDays yearLength
  by_cases h : isLeapYear year = true
  · rw [if_pos h]
    have h4 := hleap.mp h
    omega
  · rw [if_neg h]
    have h4 := mt hleap.mpr h
    omega

theorem yearLength_cases (year : Int) :
    (isLeapYear year = true ∧ yearLength year = 366) ∨
      (isLeapYear year = false ∧ yearLength year = 365) := by
  unfold yearLength
  cases isLeapYear year with
  | true => exact .inl ⟨rfl, rfl⟩
  | false => exact .inr ⟨rfl, rfl⟩

/-- A date by its year and its day of the year, which counts from zero. -/
structure OrdinalDate where
  year : Int
  yearDay : Int
  nonneg : 0 ≤ yearDay
  lt : yearDay < yearLength year

namespace OrdinalDate

/-- The days from 1 January 1970. -/
def dayNumber (date : OrdinalDate) : Int := januaryFirst date.year + date.yearDay

/-- The day of the week, Sunday first; 1 January 1970 was a Thursday. -/
def weekday (date : OrdinalDate) : Int := (date.dayNumber + 4) % 7

/-- The Thursday of the week, which begins on Monday, as a day number. -/
def thursday (date : OrdinalDate) : Int := 7 * ((date.dayNumber + 3) / 7)

end OrdinalDate

/-- A day number lies in a year. -/
def InYear (day year : Int) : Prop := januaryFirst year ≤ day ∧ day < januaryFirst (year + 1)

/-- The two conversions give the weekday of 1 January. -/
def KnowsJanuaryFirst (year : Int) : Prop :=
  (unixToParts (partsToUnix year 1 1 0 0 0)).weekday = (januaryFirst year + 4) % 7

/-- The days of a year that are Thursdays. -/
def thursdays (year : Int) : Int := (januaryFirst (year + 1) + 6) / 7 - (januaryFirst year + 6) / 7

/-- The year and the week after a week of a year. -/
def nextWeek (week : Int × Int) : Int × Int :=
  if week.2 < thursdays week.1 then (week.1, week.2 + 1) else (week.1 + 1, 1)

/-- A year has a week for each of its Thursdays. -/
theorem isoWeeksInYear_eq (h : KnowsJanuaryFirst year) : isoWeeksInYear year = thursdays year := by
  unfold KnowsJanuaryFirst at h
  unfold isoWeeksInYear thursdays
  rw [h, januaryFirst_succ]
  rcases yearLength_cases year with ⟨hleap, hlength⟩ | ⟨hleap, hlength⟩
  · rw [hleap, hlength]
    simp only [and_true]
    split <;> omega
  · rw [hleap, hlength]
    simp only [Bool.false_eq_true, and_false, or_false]
    split <;> omega

/-- The day number less the Thursday of the week is what the day of the week says. -/
theorem isoWeekday_eq (date : OrdinalDate) :
    (if date.weekday = 0 then 7 else date.weekday) = date.dayNumber - date.thursday + 4 := by
  unfold OrdinalDate.weekday OrdinalDate.thursday
  split <;> omega

/-- Before the corrections at the ends of the year, the week counts the Thursdays from
1 January on. -/
theorem uncorrectedWeek (date : OrdinalDate) :
    (date.yearDay + 11 - (date.dayNumber - date.thursday + 4)).tdiv 7 =
      1 + (date.thursday - januaryFirst date.year) / 7 := by
  have hnonneg := date.nonneg
  have hday : date.dayNumber = januaryFirst date.year + date.yearDay := rfl
  have hnear : date.dayNumber - 3 ≤ date.thursday := by
    unfold OrdinalDate.thursday
    omega
  rw [Int.tdiv_eq_ediv_of_nonneg (by omega)]
  omega

/-- The Thursday of the week lies in the year of the date, or in the year before or after it, and
the corrections tell which. -/
theorem isoWeekAndYear_eq (date : OrdinalDate) (month day : Int)
    (hprevious : KnowsJanuaryFirst (date.year - 1)) (hyear : KnowsJanuaryFirst date.year) :
    ∃ year, InYear date.thursday year ∧
      isoWeekAndYear date.year month day date.weekday date.yearDay =
        (year, 1 + (date.thursday - januaryFirst year) / 7) := by
  obtain ⟨k, hk⟩ : ∃ k, date.thursday = 7 * k := ⟨_, rfl⟩
  have hnear : date.dayNumber - 3 ≤ date.thursday ∧ date.thursday ≤ date.dayNumber + 3 := by
    unfold OrdinalDate.thursday
    omega
  have hday : date.dayNumber = januaryFirst date.year + date.yearDay := rfl
  have hnonneg := date.nonneg
  have hlt := date.lt
  have hnext := januaryFirst_succ date.year
  have hfirst := januaryFirst_succ (date.year - 1)
  rw [Int.sub_add_cancel] at hfirst
  have hprevLength : 365 ≤ yearLength (date.year - 1) := by
    rcases yearLength_cases (date.year - 1) with h | h <;> omega
  have hnextLength : 365 ≤ yearLength (date.year + 1) := by
    rcases yearLength_cases (date.year + 1) with h | h <;> omega
  have hafter := januaryFirst_succ (date.year + 1)
  simp only [isoWeekAndYear, isoWeekday_eq, uncorrectedWeek, isoWeeksInYear_eq hprevious,
    isoWeeksInYear_eq hyear]
  rw [hk] at hnear ⊢
  split
  · rename_i hbefore
    refine ⟨date.year - 1, ⟨by omega, by rw [Int.sub_add_cancel]; omega⟩, ?_⟩
    rw [thursdays, Int.sub_add_cancel, Prod.mk.injEq]
    exact ⟨rfl, by omega⟩
  · split
    · rename_i hbefore hbehind
      unfold thursdays at hbehind
      refine ⟨date.year + 1, ⟨by omega, by omega⟩, ?_⟩
      rw [Prod.mk.injEq]
      exact ⟨rfl, by omega⟩
    · rename_i hbefore hbehind
      unfold thursdays at hbehind
      exact ⟨date.year, ⟨by omega, by omega⟩, rfl⟩

section Timestamps

theorem tmod_seven (n : Int) : n.tmod 7 = if 0 ≤ n ∨ 7 ∣ n then n % 7 else n % 7 - 7 := by
  rw [Int.tmod_eq_emod]
  split
  · exact Int.sub_zero _
  · rfl

/-- Three remainders, none of them of the floored division, leave the day of the week. -/
theorem unixToParts_weekday (ts : Int) :
    (unixToParts ts).weekday = (ts / 60 / 60 / 24 + 4) % 7 := by
  obtain ⟨days, hdays⟩ : ∃ days, days = ts / 60 / 60 / 24 := ⟨_, rfl⟩
  have hweekday : (unixToParts ts).weekday = ((days.tmod 7 + 4).tmod 7 + 7).tmod 7 := by
    rw [hdays]
    rfl
  rw [hweekday, ← hdays, tmod_seven ((days.tmod 7 + 4).tmod 7 + 7),
    tmod_seven (days.tmod 7 + 4), tmod_seven days]
  split_ifs <;> omega

theorem partsToUnix_januaryFirst
    (hrange : i64Min ≤ januaryFirst year * 86400 ∧ januaryFirst year * 86400 ≤ i64Max) :
    partsToUnix year 1 1 0 0 0 = januaryFirst year * 86400 := by
  unfold partsToUnix
  split
  · rename_i hfields
    have htdiv : ∀ n, (year - 1).tdiv n = (year - 1) / n :=
      fun n => Int.tdiv_eq_ediv_of_nonneg (by omega)
    have hmonth : (153 * ((1 : Int) + 12 - 3) + 2).tdiv 5 = 306 := by decide
    simp only [Int.reduceLT, reduceIte, htdiv, hmonth, januaryFirst, marchDays]
    omega
  · have htdiv : ∀ n, (year - 1 - (year - 1) / 400 * 400).tdiv n =
        (year - 1 - (year - 1) / 400 * 400) / n :=
      fun n => Int.tdiv_eq_ediv_of_nonneg (by omega)
    have htimestamp : ((year - 1) / 400 * 146097 + ((year - 1 - (year - 1) / 400 * 400) * 365 +
        (year - 1 - (year - 1) / 400 * 400) / 4 - (year - 1 - (year - 1) / 400 * 400) / 100 +
        (306 + 1 - 1)) - 719468) * 86400 + 0 * 3600 + 0 * 60 + 0 = januaryFirst year * 86400 := by
      unfold januaryFirst marchDays
      omega
    have hmonth : (153 * ((1 : Int) + 9) + 2).tdiv 5 = 306 := by decide
    simp only [Int.reduceLT, Int.reduceLE, reduceIte, htdiv, hmonth, htimestamp, if_pos hrange]

/-- The assumption about the two conversions holds of every year whose first second is a Long. -/
theorem knowsJanuaryFirst
    (hrange : i64Min ≤ januaryFirst year * 86400 ∧ januaryFirst year * 86400 ≤ i64Max) :
    KnowsJanuaryFirst year := by
  unfold KnowsJanuaryFirst
  rw [partsToUnix_januaryFirst hrange, unixToParts_weekday]
  omega

/-- The days in front of a month, for the months in the order of a year that starts in March. -/
theorem daysBeforeMonth {mp : Int} (hmp : 0 ≤ mp ∧ mp ≤ 11) (year : Int) :
    ((monthDays year).take ((if mp < 10 then mp + 3 else mp - 9) - 1).toNat).sum =
      if mp < 10 then (153 * mp + 2) / 5 + 59 + (if isLeapYear year then 1 else 0)
      else (153 * mp + 2) / 5 - 306 := by
  obtain ⟨hlow, hhigh⟩ := hmp
  unfold monthDays
  interval_cases mp <;> cases isLeapYear year <;> rfl

/-- The day of the year, from a day of a year that starts in March. -/
theorem yearDay_civil {y doy : Int} (hdoy : 0 ≤ doy ∧ doy ≤ 365)
    (hcivil : (year, month, day) = civilOf y doy) :
    day - 1 + ((monthDays year).take (month - 1).toNat).sum =
      if doy < 306 then doy + 59 + (if isLeapYear y then 1 else 0) else doy - 306 := by
  have hmp : (5 * doy + 2).tdiv 153 = (5 * doy + 2) / 153 :=
    Int.tdiv_eq_ediv_of_nonneg (by omega)
  obtain ⟨mp, hmonthOf⟩ : ∃ mp, mp = (5 * doy + 2) / 153 := ⟨_, rfl⟩
  have hstart : (153 * mp + 2).tdiv 5 = (153 * mp + 2) / 5 :=
    Int.tdiv_eq_ediv_of_nonneg (by omega)
  simp only [civilOf, hmp, ← hmonthOf, hstart, Prod.mk.injEq] at hcivil
  obtain ⟨hyear, hmonth, hday⟩ := hcivil
  rw [hmonth, daysBeforeMonth (by omega), hday]
  by_cases h : mp < 10
  · have hy : year = y := by
      rw [hyear, if_neg (by rw [if_pos h]; omega)]
    rw [if_pos h, if_pos (show doy < 306 by omega), hy]
    omega
  · rw [if_neg h, if_neg (show ¬ doy < 306 by omega)]
    omega

/-- The parts of a timestamp are those of a date: its year, the day of the year and the day of the
week. -/
theorem unixToParts_ordinal (ts : Int) : ∃ date : OrdinalDate,
    date.dayNumber = ts / 60 / 60 / 24 ∧ date.year = (unixToParts ts).year ∧
      date.yearDay = (unixToParts ts).yearDay ∧ date.weekday = (unixToParts ts).weekday := by
  obtain ⟨y, doy, hdoy, hdays, hcivil⟩ := unixToParts_civil ts
  have hyear : (unixToParts ts).year = if doy < 306 then y else y + 1 :=
    (congrArg Prod.fst hcivil).trans (civilOf_year hdoy)
  have hyearDay : (unixToParts ts).yearDay =
      if doy < 306 then doy + 59 + (if isLeapYear y then 1 else 0) else doy - 306 :=
    yearDay_civil hdoy hcivil
  have hnumber : januaryFirst (unixToParts ts).year + (unixToParts ts).yearDay =
      ts / 60 / 60 / 24 := by
    have hlength := januaryFirst_succ y
    rw [januaryFirst, Int.add_sub_cancel, yearLength] at hlength
    rw [hyear, hyearDay]
    by_cases h : doy < 306
    · rw [if_pos h, if_pos h]
      split_ifs at * <;> omega
    · rw [if_neg h, if_neg h, januaryFirst, Int.add_sub_cancel]
      omega
  have hlt : ts / 60 / 60 / 24 < januaryFirst ((unixToParts ts).year + 1) := by
    rw [hyear]
    unfold januaryFirst marchDays at *
    split_ifs <;> omega
  have hnonneg : 0 ≤ (unixToParts ts).yearDay := by
    rw [hyearDay]
    split_ifs <;> omega
  rw [januaryFirst_succ] at hlt
  refine ⟨⟨(unixToParts ts).year, (unixToParts ts).yearDay, hnonneg, by omega⟩, hnumber, rfl, rfl,
    ?_⟩
  rw [OrdinalDate.weekday, unixToParts_weekday, OrdinalDate.dayNumber, hnumber]

end Timestamps

section Weeks

theorem januaryFirst_lt {first second : Int} (h : first < second) :
    januaryFirst first < januaryFirst second := by
  unfold januaryFirst marchDays
  omega

theorem InYear.unique (hfirst : InYear day first) (hsecond : InYear day second) :
    first = second := by
  obtain ⟨hlow, hhigh⟩ := hfirst
  obtain ⟨hlow', hhigh'⟩ := hsecond
  rcases lt_trichotomy first second with h | h | h
  · have hle : januaryFirst (first + 1) ≤ januaryFirst second := by
      rcases (Int.add_one_le_of_lt h).lt_or_eq with hlt | heq
      · exact (januaryFirst_lt hlt).le
      · rw [heq]
    omega
  · exact h
  · have hle : januaryFirst (second + 1) ≤ januaryFirst first := by
      rcases (Int.add_one_le_of_lt h).lt_or_eq with hlt | heq
      · exact (januaryFirst_lt hlt).le
      · rw [heq]
    omega

/-- The Monday of the week, as a day number. -/
def OrdinalDate.monday (date : OrdinalDate) : Int := date.dayNumber - (date.dayNumber + 3) % 7

/-- A Thursday and the Thursday after it are in the same year, or the later one is the first of
the next year. -/
theorem nextWeek_eq {k : Int} (hfirst : InYear (7 * k) first)
    (hsecond : InYear (7 * k + 7) second) :
    nextWeek (first, 1 + (7 * k - januaryFirst first) / 7) =
      (second, 1 + (7 * k + 7 - januaryFirst second) / 7) := by
  obtain ⟨hlow, hhigh⟩ := hfirst
  have hlength : 365 ≤ yearLength (first + 1) := by
    rcases yearLength_cases (first + 1) with h | h <;> omega
  have hafter := januaryFirst_succ (first + 1)
  unfold nextWeek thursdays
  dsimp only
  split
  · have hsame : InYear (7 * k + 7) first := ⟨by omega, by omega⟩
    rw [hsecond.unique hsame, Prod.mk.injEq]
    exact ⟨rfl, by omega⟩
  · have hnext : InYear (7 * k + 7) (first + 1) := ⟨by omega, by omega⟩
    rw [hsecond.unique hnext, Prod.mk.injEq]
    exact ⟨rfl, by omega⟩

/-- The pair of a date belongs to the Thursday of its week; the seven days of a week have one pair
and the next Monday has the next one. -/
theorem isoWeekAndYear_correct (date : OrdinalDate) (month day : Int)
    (hprevious : KnowsJanuaryFirst (date.year - 1)) (hyear : KnowsJanuaryFirst date.year) :
    (∃ year, InYear date.thursday year ∧
      isoWeekAndYear date.year month day date.weekday date.yearDay =
        (year, 1 + (date.thursday - januaryFirst year) / 7)) ∧
    ∀ (other : OrdinalDate) (otherMonth otherDay : Int),
      KnowsJanuaryFirst (other.year - 1) → KnowsJanuaryFirst other.year →
      (date.monday ≤ other.dayNumber → other.dayNumber ≤ date.monday + 6 →
        isoWeekAndYear other.year otherMonth otherDay other.weekday other.yearDay =
          isoWeekAndYear date.year month day date.weekday date.yearDay) ∧
      (other.dayNumber = date.monday + 7 →
        isoWeekAndYear other.year otherMonth otherDay other.weekday other.yearDay =
          nextWeek (isoWeekAndYear date.year month day date.weekday date.yearDay)) := by
  obtain ⟨year, hin, hpair⟩ := isoWeekAndYear_eq date month day hprevious hyear
  refine ⟨⟨year, hin, hpair⟩, fun other otherMonth otherDay hprevious' hyear' => ?_⟩
  obtain ⟨otherYear, hotherIn, hotherPair⟩ :=
    isoWeekAndYear_eq other otherMonth otherDay hprevious' hyear'
  constructor
  · intro hlow hhigh
    have hthursday : other.thursday = date.thursday := by
      unfold OrdinalDate.thursday OrdinalDate.monday at *
      omega
    rw [hthursday] at hotherIn hotherPair
    rw [hpair, hotherPair, hotherIn.unique hin]
  · intro hmonday
    obtain ⟨k, hk⟩ : ∃ k, date.thursday = 7 * k := ⟨_, rfl⟩
    have hthursday : other.thursday = 7 * k + 7 := by
      rw [← hk]
      unfold OrdinalDate.thursday OrdinalDate.monday at *
      omega
    rw [hthursday] at hotherIn hotherPair
    rw [hk] at hin hpair
    rw [hpair, hotherPair, nextWeek_eq hin hotherIn]

/-- 1 January 2021 was a Friday in the last week of 2020, and Monday began the first of 2021. -/
theorem isoWeekAndYear_newYear2021 :
    (∃ year, InYear 18627 year ∧
      isoWeekAndYear 2021 1 1 5 0 = (year, 1 + (18627 - januaryFirst year) / 7)) ∧
    isoWeekAndYear 2021 1 4 1 3 = nextWeek (isoWeekAndYear 2021 1 1 5 0) := by
  have hprevious : KnowsJanuaryFirst 2020 := knowsJanuaryFirst (by decide)
  have hyear : KnowsJanuaryFirst 2021 := knowsJanuaryFirst (by decide)
  obtain ⟨hpair, hothers⟩ := isoWeekAndYear_correct ⟨2021, 0, by decide, by decide⟩ 1 1
    hprevious hyear
  exact ⟨hpair, (hothers ⟨2021, 3, by decide, by decide⟩ 1 4 hprevious hyear).2 (by decide)⟩

/-- What the formatters pass: the parts of a timestamp give the week of its day. -/
theorem isoWeekAndYear_unixToParts (ts : Int)
    (hfirst : i64Min ≤ januaryFirst ((unixToParts ts).year - 1) * 86400)
    (hlast : januaryFirst (unixToParts ts).year * 86400 ≤ i64Max) :
    ∃ year, InYear (7 * ((ts / 60 / 60 / 24 + 3) / 7)) year ∧
      isoWeekAndYear (unixToParts ts).year (unixToParts ts).month (unixToParts ts).day
          (unixToParts ts).weekday (unixToParts ts).yearDay =
        (year, 1 + (7 * ((ts / 60 / 60 / 24 + 3) / 7) - januaryFirst year) / 7) := by
  obtain ⟨date, hnumber, hyear, hyearDay, hweekday⟩ := unixToParts_ordinal ts
  have hle : januaryFirst ((unixToParts ts).year - 1) ≤ januaryFirst (unixToParts ts).year :=
    (januaryFirst_lt (by omega)).le
  rw [← hyear] at hfirst hlast hle
  have hweek := isoWeekAndYear_eq date (unixToParts ts).month (unixToParts ts).day
    (knowsJanuaryFirst ⟨hfirst, by omega⟩) (knowsJanuaryFirst ⟨by omega, hlast⟩)
  rwa [OrdinalDate.thursday, hnumber, hyear, hyearDay, hweekday] at hweek

end Weeks

end Rphp.Stdlib.Date
