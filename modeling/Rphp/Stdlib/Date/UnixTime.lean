import Mathlib.Tactic.IntervalCases
import Rphp.Machine

namespace Rphp.Stdlib.Date
set_option autoImplicit true

def isLeapYear (y : Int) : Bool := (y.tmod 4 = 0 ∧ y.tmod 100 ≠ 0) ∨ y.tmod 400 = 0

/-- A point of time in the parts of its date and clock; the days of the week and of the year
count from zero. -/
structure UnixParts where
  year : Int
  month : Int
  day : Int
  hour : Int
  minute : Int
  second : Int
  weekday : Int
  yearDay : Int
  deriving DecidableEq, Repr

def monthDays (year : Int) : List Int :=
  [31, if isLeapYear year then 29 else 28, 31, 30, 31, 30, 31, 31, 30, 31, 30, 31]

def eraOf (days : Int) : Int := (if 0 ≤ days then days else days - 146096).tdiv 146097

def yearOfEra (doe : Int) : Int :=
  (doe - doe.tdiv 1460 + doe.tdiv 36524 - doe.tdiv 146096).tdiv 365

def dayOfYear (doe yoe : Int) : Int := doe - (365 * yoe + yoe.tdiv 4 - yoe.tdiv 100)

/-- Year, month and day of a day of a year that starts in March. -/
def civilOf (y doy : Int) : Int × Int × Int :=
  let mp := (5 * doy + 2).tdiv 153
  let d := doy - (153 * mp + 2).tdiv 5 + 1
  let m := if mp < 10 then mp + 3 else mp - 9
  (if m ≤ 2 then y + 1 else y, m, d)

def unixToParts (ts : Int) : UnixParts :=
  let sec := ts % 60
  let totalMin := ts / 60
  let min := totalMin % 60
  let totalHours := totalMin / 60
  let hour := totalHours % 24
  let epochDays := totalHours / 24
  let wday := ((epochDays.tmod 7 + 4).tmod 7 + 7).tmod 7
  let days := epochDays + 719468
  let era := eraOf days
  let doe := days - era * 146097
  let yoe := yearOfEra doe
  let y := yoe + era * 400
  let doy := dayOfYear doe yoe
  let (year, m, d) := civilOf y doy
  let yday := d - 1 + ((monthDays year).take (m - 1).toNat).sum
  ⟨year, m, d, hour, min, sec, wday, yday⟩

def partsToUnix (year month day hour min sec : Int) : Int :=
  if (1 ≤ year ∧ year ≤ 10000000) ∧ (1 ≤ month ∧ month ≤ 12) ∧
      ∀ part ∈ [day, hour, min, sec], part.natAbs ≤ 1000000000 then
    let adjustedMonth := if 2 < month then month else month + 12
    let adjustedYear := if 2 < month then year else year - 1
    let days := 365 * adjustedYear + adjustedYear.tdiv 4 - adjustedYear.tdiv 100
      + adjustedYear.tdiv 400 + (153 * (adjustedMonth - 3) + 2).tdiv 5 + day - 719469
    days * 86400 + hour * 3600 + min * 60 + sec
  else
    let year := year - if month ≤ 2 then 1 else 0
    let era := year / 400
    let yearOfEra := year - era * 400
    let adjustedMonth := if 2 < month then month - 3 else month + 9
    let dayOfYear := (153 * adjustedMonth + 2).tdiv 5 + day - 1
    let dayOfEra := yearOfEra * 365 + yearOfEra.tdiv 4 - yearOfEra.tdiv 100 + dayOfYear
    let days := era * 146097 + dayOfEra - 719468
    let timestamp := days * 86400 + hour * 3600 + min * 60 + sec
    if i64Min ≤ timestamp ∧ timestamp ≤ i64Max then timestamp
    else if timestamp < 0 then i64Min else i64Max

/-- The days in front of a year that starts in March. -/
def marchDays (y : Int) : Int := 365 * y + y / 4 - y / 100 + y / 400

/-- The place of a day in its era: century, group of four years, year and day of the year. -/
theorem era_parts {doe : Int} (hdoe : 0 ≤ doe ∧ doe < 146097) :
    ∃ c q t u, (0 ≤ c ∧ c ≤ 3) ∧ (0 ≤ q ∧ q ≤ 24) ∧ (0 ≤ t ∧ t ≤ 3) ∧ (0 ≤ u ∧ u ≤ 365) ∧
      (u = 365 → t = 3) ∧ (u = 365 → q = 24 → c = 3) ∧
      doe = 36524 * c + 1461 * q + 365 * t + u := by
  obtain ⟨c, r, hc, hr, rfl⟩ : ∃ c r, (0 ≤ c ∧ c ≤ 3) ∧
      (0 ≤ r ∧ (r < 36524 ∨ r = 36524 ∧ c = 3)) ∧ doe = 36524 * c + r := by
    by_cases hlast : doe = 146096
    · exact ⟨3, 36524, by omega, by omega, by omega⟩
    · exact ⟨doe / 36524, doe % 36524, by omega, by omega, by omega⟩
  obtain ⟨q, s, hq, hs, rfl⟩ : ∃ q s, 0 ≤ q ∧ (0 ≤ s ∧ s < 1461) ∧ r = 1461 * q + s :=
    ⟨r / 1461, r % 1461, by omega, by omega, by omega⟩
  by_cases hleap : s = 1460
  · exact ⟨c, q, 3, 365, hc, by omega, by omega, by omega, by omega, by omega, by omega⟩
  · exact ⟨c, q, s / 365, s % 365, hc, by omega, by omega, by omega, by omega, by omega, by omega⟩

/-- The closed form of the year of the era. -/
theorem yearOfEra_eq {c q t u : Int} (hc : 0 ≤ c ∧ c ≤ 3) (hq : 0 ≤ q ∧ q ≤ 24)
    (ht : 0 ≤ t ∧ t ≤ 3) (hu : 0 ≤ u ∧ u ≤ 365) (hleap : u = 365 → t = 3)
    (hcentury : u = 365 → q = 24 → c = 3)
    (hdoe : doe = 36524 * c + 1461 * q + 365 * t + u) :
    yearOfEra doe = 100 * c + 4 * q + t := by
  have htdiv : ∀ k, doe.tdiv k = doe / k :=
    fun k => Int.tdiv_eq_ediv_of_nonneg (by omega)
  obtain ⟨r, hr⟩ : ∃ r, r = 24 * c + q + 365 * t + u := ⟨_, rfl⟩
  have hcarry : 0 ≤ u - r / 1460 ∧ u - r / 1460 < 365 := by
    by_cases hlong : r < 1460
    · rw [Int.ediv_eq_zero_of_lt (by omega) hlong]
      have hne : u ≠ 365 := fun hlong => by
        have hthird := hleap hlong
        omega
      omega
    · have hone : r / 1460 = 1 := by
        rw [Int.ediv_eq_iff_of_pos (by decide)]
        omega
      rw [hone]
      omega
  have hcycle : doe / 1460 = 25 * c + q + r / 1460 := by
    have hdoe' : doe = r + 1460 * (25 * c + q) := by omega
    rw [hdoe', Int.add_mul_ediv_left _ _ (by decide), Int.add_comm]
  have hcenturies : doe / 36524 - doe / 146096 = c := by
    by_cases hend : doe = 146096
    · have hc3 : c = 3 := by omega
      rw [hend, hc3]
      decide
    · have hrest : 1461 * q + 365 * t + u < 36524 := by
        by_cases hlong : u = 365
        · have hthird := hleap hlong
          have hlast := hcentury hlong
          clear hleap hcentury
          by_cases hgroup : q = 24
          · have hfourth := hlast hgroup
            omega
          · clear hlast
            omega
        · clear hleap hcentury
          omega
      have hcenturyOf : doe / 36524 = c := by
        clear hleap hcentury
        rw [Int.ediv_eq_iff_of_pos (by decide)]
        omega
      have hera : doe / 146096 = 0 := Int.ediv_eq_zero_of_lt (by omega) (by omega)
      rw [hcenturyOf, hera, Int.sub_zero]
  have hsum : doe - doe / 1460 + doe / 36524 - doe / 146096 =
      (u - r / 1460) + 365 * (100 * c + 4 * q + t) := by
    rw [Int.add_sub_assoc, hcenturies, hcycle]
    clear hcarry hcycle hcenturies
    omega
  rw [yearOfEra, htdiv, htdiv, htdiv, hsum, Int.tdiv_eq_ediv_of_nonneg (by omega),
    Int.add_mul_ediv_left _ _ (by decide), Int.ediv_eq_zero_of_lt hcarry.1 hcarry.2, Int.zero_add]

theorem dayOfYear_eq {c q t u : Int} (hc : 0 ≤ c ∧ c ≤ 3) (hq : 0 ≤ q ∧ q ≤ 24)
    (ht : 0 ≤ t ∧ t ≤ 3) (hdoe : doe = 36524 * c + 1461 * q + 365 * t + u) :
    dayOfYear doe (100 * c + 4 * q + t) = u := by
  rw [dayOfYear, Int.tdiv_eq_ediv_of_nonneg (by omega), Int.tdiv_eq_ediv_of_nonneg (by omega)]
  omega

theorem marchDays_era {c q t : Int} (hc : 0 ≤ c ∧ c ≤ 3) (hq : 0 ≤ q ∧ q ≤ 24)
    (ht : 0 ≤ t ∧ t ≤ 3) (era : Int) :
    marchDays (100 * c + 4 * q + t + era * 400) =
      146097 * era + 36524 * c + 1461 * q + 365 * t := by
  have hfour : (100 * c + 4 * q + t + era * 400) / 4 = 25 * c + q + 100 * era := by omega
  have hcentury : (100 * c + 4 * q + t + era * 400) / 100 = c + 4 * era := by omega
  have hcycle : (100 * c + 4 * q + t + era * 400) / 400 = era := by omega
  rw [marchDays, hfour, hcentury, hcycle]
  omega

theorem eraOf_eq (days : Int) : eraOf days = days / 146097 := by
  unfold eraOf
  split
  · exact Int.tdiv_eq_ediv_of_nonneg ‹_›
  · obtain ⟨n, hn⟩ : ∃ n, days - 146096 = -n := ⟨-(days - 146096), by omega⟩
    rw [hn, Int.neg_tdiv, Int.tdiv_eq_ediv_of_nonneg (by omega)]
    omega

/-- Every day is a day of one of the years that start in March. -/
theorem unixToParts_civil (ts : Int) :
    ∃ y doy, (0 ≤ doy ∧ doy ≤ 365) ∧ ts / 60 / 60 / 24 + 719468 = marchDays y + doy ∧
      ((unixToParts ts).year, (unixToParts ts).month, (unixToParts ts).day) = civilOf y doy := by
  obtain ⟨days, hdays⟩ : ∃ days, days = ts / 60 / 60 / 24 + 719468 := ⟨_, rfl⟩
  obtain ⟨doe, hdoe⟩ : ∃ doe, doe = days - days / 146097 * 146097 := ⟨_, rfl⟩
  obtain ⟨c, q, t, u, hc, hq, ht, hu, hleap, hcentury, hparts⟩ :=
    era_parts (show 0 ≤ doe ∧ doe < 146097 by omega)
  have hyoe := yearOfEra_eq hc hq ht hu hleap hcentury hparts
  have hdoy := dayOfYear_eq hc hq ht hparts
  refine ⟨100 * c + 4 * q + t + days / 146097 * 400, u, hu, ?_, ?_⟩
  · rw [marchDays_era hc hq ht]
    omega
  · simp only [unixToParts, ← hdays, eraOf_eq, ← hdoe, hyoe, hdoy]

/-- A date in fields that the fast path takes, from its year that starts in March. -/
theorem partsToUnix_civil {y doy k hour minute second : Int} (hdoy : 0 ≤ doy ∧ doy ≤ 365)
    (hcivil : (year, month, day) = civilOf y doy)
    (hyear : 2 ≤ year - 400 * k ∧ year - 400 * k ≤ 10000000)
    (hhour : 0 ≤ hour ∧ hour < 24) (hminute : 0 ≤ minute ∧ minute < 60)
    (hsecond : 0 ≤ second ∧ second < 60) :
    partsToUnix (year - 400 * k) month day hour minute second =
      (marchDays y - 146097 * k + doy - 719468) * 86400 + hour * 3600 + minute * 60 + second := by
  have hmp : (5 * doy + 2).tdiv 153 = (5 * doy + 2) / 153 :=
    Int.tdiv_eq_ediv_of_nonneg (by omega)
  obtain ⟨mp, hmonthOf⟩ : ∃ mp, mp = (5 * doy + 2) / 153 := ⟨_, rfl⟩
  have hstart : (153 * mp + 2).tdiv 5 = (153 * mp + 2) / 5 :=
    Int.tdiv_eq_ediv_of_nonneg (by omega)
  simp only [civilOf, hmp, ← hmonthOf, hstart, Prod.mk.injEq] at hcivil
  obtain ⟨hy, hm, hd⟩ := hcivil
  have hfields : (1 ≤ year - 400 * k ∧ year - 400 * k ≤ 10000000) ∧ (1 ≤ month ∧ month ≤ 12) ∧
      ∀ part ∈ [day, hour, minute, second], part.natAbs ≤ 1000000000 := by
    refine ⟨by omega, by omega, ?_⟩
    simp only [List.mem_cons, List.not_mem_nil, or_false]
    rintro part (rfl | rfl | rfl | rfl) <;> omega
  have hmp9 : mp ≤ 11 ∧ 0 ≤ mp := by omega
  clear hmp hmonthOf
  have hadjusted : (if 2 < month then year - 400 * k else year - 400 * k - 1) = y - 400 * k := by
    clear hfields
    split_ifs at * <;> omega
  have hmonth : (if 2 < month then month else month + 12) - 3 = mp := by
    clear hfields hadjusted
    split_ifs at * <;> omega
  have hnonneg : 0 ≤ y - 400 * k := by
    clear hfields hadjusted hmonth
    split_ifs at * <;> omega
  have htdiv : ∀ n, (y - 400 * k).tdiv n = (y - 400 * k) / n :=
    fun n => Int.tdiv_eq_ediv_of_nonneg hnonneg
  have hmarch : marchDays y - 146097 * k = 365 * (y - 400 * k) + (y - 400 * k) / 4 -
      (y - 400 * k) / 100 + (y - 400 * k) / 400 := by
    unfold marchDays
    omega
  rw [partsToUnix, if_pos hfields]
  simp only [hadjusted, hmonth, hstart, htdiv, hmarch]
  omega

/-- The first second of the year 2500, and of the cycle of 400 years in front of it. -/
def farStart : Int := 16725225600

def cycleStart : Int := 4102444800

def cycleLength : Int := 12622780800

example : partsToUnix 2500 1 1 0 0 0 = farStart := by decide

example : partsToUnix 2100 1 1 0 0 0 = cycleStart := by decide

theorem civilOf_year (hdoy : 0 ≤ doy ∧ doy ≤ 365) :
    (civilOf y doy).1 = if doy < 306 then y else y + 1 := by
  have hmp : (5 * doy + 2).tdiv 153 = (5 * doy + 2) / 153 :=
    Int.tdiv_eq_ediv_of_nonneg (by omega)
  simp only [civilOf, hmp]
  split_ifs <;> omega

/-- The days of a year come in front of the days of the later years. -/
theorem civilOf_year_lt {y doy year : Int} (hdoy : 0 ≤ doy ∧ doy ≤ 365) :
    (civilOf y doy).1 < year ↔ marchDays y + doy < marchDays (year - 1) + 306 := by
  have hlater : ∀ a b, a < b → marchDays a + 364 ≤ marchDays b := by
    intro a b hab
    unfold marchDays
    omega
  rw [civilOf_year hdoy]
  obtain hlt | rfl | hgt := lt_trichotomy y (year - 1)
  · have hle := hlater _ _ hlt
    split_ifs <;> omega
  · split_ifs <;> omega
  · have hle := hlater _ _ hgt
    split_ifs <;> omega

theorem unixToParts_year_lt_cycle (ts k : Int) :
    (unixToParts ts).year < 2100 + 400 * k ↔ ts < cycleStart + cycleLength * k := by
  obtain ⟨y, doy, hdoy, hdays, hcivil⟩ := unixToParts_civil ts
  have hyear : (unixToParts ts).year = (civilOf y doy).1 := congrArg Prod.fst hcivil
  have hmarch : marchDays (2100 + 400 * k - 1) + 306 = 47482 + 719468 + 146097 * k := by
    unfold marchDays
    omega
  rw [hyear, civilOf_year_lt hdoy, ← hdays, hmarch]
  unfold cycleStart cycleLength
  omega

theorem unixToParts_year_lt (ts : Int) : (unixToParts ts).year < 2500 ↔ ts < farStart :=
  unixToParts_year_lt_cycle ts 1

/-- Shifting a point of time by cycles keeps it between the same years. -/
theorem partsToUnix_shift (ts k : Int) (hyear : 2 ≤ (unixToParts ts).year - 400 * k ∧
    (unixToParts ts).year - 400 * k ≤ 10000000) :
    partsToUnix ((unixToParts ts).year - 400 * k) (unixToParts ts).month (unixToParts ts).day
        (unixToParts ts).hour (unixToParts ts).minute (unixToParts ts).second =
      ts - cycleLength * k := by
  obtain ⟨y, doy, hdoy, hdays, hcivil⟩ := unixToParts_civil ts
  have hhour : (unixToParts ts).hour = ts / 60 / 60 % 24 := rfl
  have hminute : (unixToParts ts).minute = ts / 60 % 60 := rfl
  have hsecond : (unixToParts ts).second = ts % 60 := rfl
  rw [partsToUnix_civil hdoy hcivil hyear (by omega) (by omega) (by omega), hhour, hminute,
    hsecond]
  unfold cycleLength
  omega

end Rphp.Stdlib.Date
