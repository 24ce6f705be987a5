import Mathlib.Tactic.IntervalCases
import Rphp.Stdlib.Calendar.Civil

namespace Rphp.Stdlib.Calendar
set_option autoImplicit true

/-- Sunday is zero. -/
def weekday (jd : Int) : Int := (jd % 7 + 1) % 7

def calEasterDefault : Int := 0

def calEasterRoman : Int := 1

def calEasterAlwaysGregorian : Int := 2

def calEasterAlwaysJulian : Int := 3

/-- How the year in which the reckoning changes is chosen. -/
def selectsGregorian (year mode : Int) : Bool :=
  if mode = calEasterAlwaysGregorian then true
  else if mode = calEasterAlwaysJulian then false
  else if mode = calEasterRoman then 1582 < year
  else 1752 < year

def gregorianPacked (year : Int) : Int :=
  let golden := year % 19
  let century := year.tdiv 100
  let yearsInCycle := year % 100
  let leapCenturies := century.tdiv 4
  let centuryRemainder := century % 4
  let solarCorrection := (century + 8).tdiv 25
  let lunarCorrection := (century - solarCorrection + 1).tdiv 3
  let epact := (19 * golden + century - leapCenturies - lunarCorrection + 15) % 30
  let leapQuarters := yearsInCycle.tdiv 4
  let yearRemainder := yearsInCycle % 4
  let weekday := (32 + 2 * centuryRemainder + 2 * leapQuarters - epact - yearRemainder) % 7
  let adjust := (golden + 11 * epact + 22 * weekday).tdiv 451
  epact + weekday - 7 * adjust + 114

def julianPacked (year : Int) : Int :=
  let golden := year % 19
  let epact := (19 * golden + 15) % 30
  let weekday := (2 * (year % 4) + 4 * (year % 7) - epact + 34) % 7
  epact + weekday + 114

def easterDaysFor (year mode : Int) : Int :=
  let packed := if selectsGregorian year mode then gregorianPacked year else julianPacked year
  let month := packed.tdiv 31
  let day := packed % 31 + 1
  if month = 3 then day - 21 else day + 10

/-- March and April are counted on from the twenty-first of March. -/
theorem days_of_packed {packed : Int} (h : 114 ≤ packed ∧ packed ≤ 148) :
    (if packed.tdiv 31 = 3 then packed % 31 + 1 - 21 else packed % 31 + 1 + 10) = packed - 113 := by
  rw [Int.tdiv_eq_ediv_of_nonneg (by omega)]
  split <;> omega

/-- Four centuries of years, each of them of groups of four years. -/
theorem year_parts (year : Int) :
    ∃ q r s t, (0 ≤ r ∧ r ≤ 3) ∧ (0 ≤ t ∧ t ≤ 3) ∧ (0 ≤ s ∧ s ≤ 24) ∧
      year = 400 * q + 100 * r + 4 * s + t :=
  ⟨year / 400, year / 100 % 4, year % 100 / 4, year % 4, by omega, by omega, by omega, by omega⟩

/-- The correction keeps the full moon and its Sunday in range. -/
theorem correction_bounds {golden epact weekday : Int} (hgolden : 0 ≤ golden ∧ golden ≤ 18)
    (hepact : 0 ≤ epact ∧ epact ≤ 29) (hweekday : 0 ≤ weekday ∧ weekday ≤ 6) :
    0 ≤ epact + weekday - 7 * (golden + 11 * epact + 22 * weekday).tdiv 451 ∧
      epact + weekday - 7 * (golden + 11 * epact + 22 * weekday).tdiv 451 ≤ 34 := by
  rw [Int.tdiv_eq_ediv_of_nonneg (by omega)]
  omega

theorem gregorianPacked_spec (hyear : 1 ≤ year) :
    (114 ≤ gregorianPacked year ∧ gregorianPacked year ≤ 148) ∧
      (gregorianYearStart (year + 4800) + 21 + (gregorianPacked year - 113)) % 7 = 6 := by
  obtain ⟨q, r, s, t, hr, ht, hs, rfl⟩ := year_parts year
  have hcentury : (400 * q + 100 * r + 4 * s + t).tdiv 100 = 4 * q + r := by
    rw [Int.tdiv_eq_ediv_of_nonneg (by omega)]
    omega
  have hcycle : (400 * q + 100 * r + 4 * s + t) % 100 = 4 * s + t := by omega
  have hquarters : (4 * s + t).tdiv 4 = s := by
    rw [Int.tdiv_eq_ediv_of_nonneg (by omega)]
    omega
  have hremainder : (4 * s + t) % 4 = t := by omega
  have hcenturies : (4 * q + r) % 4 = r := by omega
  have hfour : (400 * q + 100 * r + 4 * s + t + 4800) / 4 = 100 * q + 25 * r + s + 1200 := by
    omega
  have hhundred : (400 * q + 100 * r + 4 * s + t + 4800) / 100 = 4 * q + r + 48 := by omega
  have hfourHundred : (400 * q + 100 * r + 4 * s + t + 4800) / 400 = q + 12 := by omega
  rw [gregorianYearStart_eq (by omega), hfour, hhundred, hfourHundred]
  simp only [gregorianPacked, hcentury, hcycle, hquarters, hremainder, hcenturies]
  generalize (19 * ((400 * q + 100 * r + 4 * s + t) % 19) + (4 * q + r) - (4 * q + r).tdiv 4 -
    (4 * q + r - (4 * q + r + 8).tdiv 25 + 1).tdiv 3 + 15) = moon
  have hepact : 0 ≤ moon % 30 ∧ moon % 30 ≤ 29 := by omega
  generalize moon % 30 = epact at *
  have hgolden : 0 ≤ (400 * q + 100 * r + 4 * s + t) % 19 ∧
      (400 * q + 100 * r + 4 * s + t) % 19 ≤ 18 := by
    omega
  generalize (400 * q + 100 * r + 4 * s + t) % 19 = golden at *
  obtain ⟨weekday, hweekday⟩ : ∃ w, w = (32 + 2 * r + 2 * s - epact - t) % 7 := ⟨_, rfl⟩
  rw [← hweekday]
  have hbounds := correction_bounds hgolden hepact (show 0 ≤ weekday ∧ weekday ≤ 6 by omega)
  generalize (golden + 11 * epact + 22 * weekday).tdiv 451 = adjust at *
  constructor
  · omega
  · omega

theorem julianEpact_bounds {golden : Int} (hgolden : 0 ≤ golden ∧ golden ≤ 18) :
    0 ≤ (19 * golden + 15) % 30 ∧ (19 * golden + 15) % 30 ≤ 28 := by
  obtain ⟨hlow, hhigh⟩ := hgolden
  interval_cases golden
  all_goals decide

theorem julianPacked_spec (hyear : 1 ≤ year) :
    (114 ≤ julianPacked year ∧ julianPacked year ≤ 148) ∧
      (julianYearStart (year + 4800) + 21 + (julianPacked year - 113)) % 7 = 6 := by
  have hquarter : (year + 4800) / 4 = year / 4 + 1200 := by omega
  rw [julianYearStart_eq (by omega), hquarter]
  simp only [julianPacked]
  have hepact := julianEpact_bounds (show 0 ≤ year % 19 ∧ year % 19 ≤ 18 by omega)
  generalize (19 * (year % 19) + 15) % 30 = epact at *
  obtain ⟨weekday, hweekday⟩ : ∃ w, w = (2 * (year % 4) + 4 * (year % 7) - epact + 34) % 7 :=
    ⟨_, rfl⟩
  rw [← hweekday]
  have hyear : year = 4 * (year / 4) + year % 4 := by omega
  constructor
  · omega
  · omega

/-- The twenty-first of March is a day of every year that Easter is asked for. -/
theorem march_toJd {yearStart : Int → Int} (hyear : 1 ≤ year)
    (hrange : 0 ≤ yearStart (year + 4800) ∧ yearStart (year + 4800) + 21 ≤ i64Max) :
    civilToJd yearStart 3 21 year = yearStart (year + 4800) + 21 := by
  have hdate : IsDate gregorianLeap ⟨3, 21, year⟩ :=
    ⟨by simp only; omega, by simp, by simp, by simp, by simp [monthLength]⟩
  have hmarch : marchYear ⟨3, 21, year⟩ = year + 4800 := by
    have hpositive : ¬ year < 0 := by omega
    simp [marchYear, phpYearToAstronomical, hpositive]
  have hday : marchDay ⟨3, 21, year⟩ = 20 := rfl
  exact civilToJd_of_number hdate (by rw [hmarch, hday]; omega) ⟨by omega, hrange.2⟩

/-- Easter is the Sunday that lies one to thirty-five days behind the twenty-first of March, in
the calendar that the mode selects. -/
theorem easterDaysFor_sunday (hyear : 1 ≤ year ∧ year ≤ i32Max) (mode : Int) :
    (1 ≤ easterDaysFor year mode ∧ easterDaysFor year mode ≤ 35) ∧
      (selectsGregorian year mode = true →
        weekday (gregorianToJd 3 21 year + easterDaysFor year mode) = 0) ∧
      (selectsGregorian year mode = false →
        weekday (julianToJd 3 21 year + easterDaysFor year mode) = 0) := by
  cases hselect : selectsGregorian year mode with
  | true =>
    obtain ⟨hpacked, hsunday⟩ := gregorianPacked_spec hyear.1
    have hdays : easterDaysFor year mode = gregorianPacked year - 113 := by
      simp only [easterDaysFor, hselect, if_true]
      exact days_of_packed hpacked
    have hjd : gregorianToJd 3 21 year = gregorianYearStart (year + 4800) + 21 := by
      apply march_toJd hyear.1
      rw [gregorianYearStart_eq (by omega)]
      unfold i32Max at hyear
      unfold i64Max
      omega
    rw [hdays, hjd]
    refine ⟨by omega, fun _ => ?_, nofun⟩
    unfold weekday
    omega
  | false =>
    obtain ⟨hpacked, hsunday⟩ := julianPacked_spec hyear.1
    have hdays : easterDaysFor year mode = julianPacked year - 113 := by
      simp only [easterDaysFor, hselect, Bool.false_eq_true, if_false]
      exact days_of_packed hpacked
    have hjd : julianToJd 3 21 year = julianYearStart (year + 4800) + 21 := by
      apply march_toJd hyear.1
      rw [julianYearStart_eq (by omega)]
      unfold i32Max at hyear
      unfold i64Max
      omega
    rw [hdays, hjd]
    refine ⟨by omega, nofun, fun _ => ?_⟩
    unfold weekday
    omega

theorem easter_2025_sunday :
    weekday (gregorianToJd 3 21 2025 + easterDaysFor 2025 calEasterDefault) = 0 :=
  (@easterDaysFor_sunday 2025 ⟨by decide, by decide⟩ calEasterDefault).2.1 (by decide)

end Rphp.Stdlib.Calendar
