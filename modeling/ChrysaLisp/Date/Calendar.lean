import ChrysaLisp.Crypto.X509
import Mathlib.Tactic.IntervalCases
import Mathlib.Tactic.Ring

set_option autoImplicit false

/-! # The calendar

`lib/date/date.inc`: days since the first of January 1970 and the date of a day, a second and the
fields of its date in a time zone. The division of numbers rounds to 0 (`Int.tdiv`), the remainder has
the sign of what is divided (`Int.tmod`). `days-from-civil` is there already, for the certificates. No number
on the way is more than a small multiple of what was given, so the 64 bits are left out. -/

namespace ChrysaLisp.Calendar

open Tls (daysFromCivil)

/-- `(elem-get list idx)`: an index below 0 counts from the end, one past it. -/
def elemGet (l : List ℤ) (idx : ℤ) : Option ℤ :=
  let idx := if idx < 0 then idx + l.length + 1 else idx
  if 0 ≤ idx then l[idx.toNat]? else none

/-- `(leapyear? y)`. -/
def leapyear (y : ℤ) : Bool :=
  decide (y.tmod 4 = 0) && (decide (y.tmod 100 ≠ 0) || decide (y.tmod 400 = 0))

/-- `(days-in-month m y)`. -/
def daysInMonth (m y : ℤ) : Option ℤ :=
  let mo := m.tmod 12
  if mo = 1 ∧ leapyear y then some 29
  else elemGet [31, 28, 31, 30, 31, 30, 31, 31, 30, 31, 30, 31] mo

/-- `(year month day)`, the month from 0 and the day from 1. -/
structure Civil where
  yr : ℤ
  mo : ℤ
  d : ℤ
deriving DecidableEq

/-- `(civil-from-days days)`. -/
def civilFromDays (days : ℤ) : Civil :=
  let z := days + 719468
  let era := if 0 ≤ z then z.tdiv 146097 else (z - 146096).tdiv 146097
  let doe := z - era * 146097
  let yoe := (doe - doe.tdiv 1460 + doe.tdiv 36524 - doe.tdiv 146096).tdiv 365
  let y := yoe + era * 400
  let doy := doe - (365 * yoe + yoe.tdiv 4 - yoe.tdiv 100)
  let mp := (5 * doy + 2).tdiv 153
  let d := doy - (153 * mp + 2).tdiv 5 + 1
  let m := if mp < 10 then mp + 3 else mp - 9
  let yr := if m ≤ 2 then y + 1 else y
  ⟨yr, m - 1, d⟩

/-- `+tz_offset` of a time zone: hours, a `:num` or a `:fixed` by its 65536ths. -/
inductive Offset where
  | num (hours : ℤ)
  | fixed (raw : ℤ)
deriving DecidableEq

/-- `(timezone-offset-seconds tz)`: a product of fixeds and `n2i` both drop the low 16 bits. -/
def Offset.seconds : Offset → ℤ
  | num hours => hours * 3600
  | fixed raw => raw * (3600 * 65536) / 65536 / 65536

/-- The fields of a `td`. -/
structure Td where
  s : ℤ
  m : ℤ
  h : ℤ
  dy : ℤ
  mo : ℤ
  yr : ℤ
  wk : ℤ
deriving DecidableEq

/-- `(date [secs])`, at `now` microseconds. -/
def date (tz : Offset) (now : ℤ) (secs : Option ℤ) : Td :=
  let s := secs.getD (now.tdiv 1000000)
  let localS := s + tz.seconds
  let days := if 0 ≤ localS then localS.tdiv 86400 else (localS - 86399).tdiv 86400
  let remS := localS - days * 86400
  let sec := remS.tmod 60
  let min := (remS.tdiv 60).tmod 60
  let hour := remS.tdiv 3600
  let dotw := ((days + 4).tmod 7 + 7).tmod 7
  let c := civilFromDays days
  ⟨sec, min, hour, c.d, c.mo, c.yr, dotw⟩

/-- `(check-date td)`: the month is looked up only if it is one. -/
def checkDate (td : Td) : Option Bool :=
  if (0 ≤ td.s ∧ td.s ≤ 59) ∧ (0 ≤ td.m ∧ td.m ≤ 59) ∧ (0 ≤ td.h ∧ td.h ≤ 23) ∧
    (0 ≤ td.mo ∧ td.mo ≤ 11) then do
    let days ← daysInMonth td.mo td.yr
    return decide (1 ≤ td.dy ∧ td.dy ≤ days)
  else return false

/-- `(time-from-date td)`. -/
def timeFromDate (tz : Offset) (td : Td) : ℤ :=
  let days := daysFromCivil td.yr td.mo td.dy
  let localS := days * 86400 + td.h * 3600 + td.m * 60 + td.s
  localS - tz.seconds

/-! ## Division that rounds to 0 -/

theorem tdiv_of_nonneg {a : ℤ} (b : ℤ) (ha : 0 ≤ a) : a.tdiv b = a / b :=
  Int.tdiv_eq_ediv_of_nonneg ha

/-- The correction for numbers below 0 makes it a division that rounds down. -/
theorem floor_tdiv {a b : ℤ} (hb : 0 < b) :
    (if 0 ≤ a then a.tdiv b else (a - (b - 1)).tdiv b) = a / b := by
  split_ifs with ha
  · exact tdiv_of_nonneg b ha
  · have hneg : (a - (b - 1)).tdiv b = -((b - 1 - a) / b) := by
      rw [← neg_sub, Int.neg_tdiv, tdiv_of_nonneg b (by omega)]
    have hdiv := Int.mul_ediv_add_emod a b
    have hlow := Int.emod_nonneg a hb.ne'
    have hhigh := Int.emod_lt_of_pos a hb
    have hrest : b - 1 - a = (b - 1 - a % b) + b * -(a / b) := by linarith
    rw [hneg, hrest, Int.add_mul_ediv_left _ _ hb.ne', Int.ediv_eq_zero_of_lt (by omega) (by omega)]
    ring

/-- A remainder brought into range is the one of a division that rounds down. -/
theorem tmod_cycle (a : ℤ) {b : ℤ} (hb : 0 < b) : (a.tmod b + b).tmod b = a % b := by
  have hlow := Int.lt_tmod_of_pos a hb
  have hsum : a.tmod b + b = a + b * (1 - a.tdiv b) := by
    rw [Int.tmod_def]
    ring
  rw [Int.tmod_eq_emod_of_nonneg (by omega), hsum, Int.add_mul_emod_self_left]

theorem leapyear_iff {y : ℤ} : leapyear y = true ↔ y % 4 = 0 ∧ (y % 100 ≠ 0 ∨ y % 400 = 0) := by
  have h (n : ℤ) : y.tmod n = 0 ↔ y % n = 0 := by
    rw [← Int.dvd_iff_tmod_eq_zero, Int.dvd_iff_emod_eq_zero]
  simp [leapyear, h]

/-! ## Years that start in March -/

/-- The days up to the first of March of a year, from that of the year 0. -/
def marchDays (y : ℤ) : ℤ :=
  365 * y + y / 4 - y / 100 + y / 400

/-- The year that starts in March ends with the February of the next one. -/
theorem marchDays_succ (y : ℤ) :
    marchDays (y + 1) = marchDays y + if leapyear (y + 1) then 366 else 365 := by
  simp only [marchDays, leapyear_iff]
  split_ifs with h <;> omega

theorem marchDays_lt_iff {y y' : ℤ} : marchDays y < marchDays y' ↔ y < y' := by
  refine (strictMono_int_of_lt_succ fun y => ?_).lt_iff_lt
  rw [marchDays_succ]
  split_ifs <;> omega

/-- A day is in one year only. -/
theorem march_year_unique {y y' z : ℤ} (hlow : marchDays y ≤ z) (hhigh : z < marchDays (y + 1))
    (hlow' : marchDays y' ≤ z) (hhigh' : z < marchDays (y' + 1)) : y = y' := by
  have h := marchDays_lt_iff.mp (hlow.trans_lt hhigh')
  have h' := marchDays_lt_iff.mp (hlow'.trans_lt hhigh)
  omega

/-- An era is 400 years. -/
theorem marchDays_era (e y : ℤ) : marchDays (y + e * 400) = marchDays y + e * 146097 := by
  simp only [marchDays]
  omega

/-- A day of an era is in its century, in four years of that and in one of these; what is left is the day
of the year, 365 only where the four years end with a leap year. -/
theorem exists_year {doe : ℤ} (h0 : 0 ≤ doe) (h1 : doe < 146097) :
    ∃ c q r doy : ℤ, (0 ≤ c ∧ c ≤ 3) ∧ (0 ≤ q ∧ q ≤ 24) ∧ (0 ≤ r ∧ r ≤ 3) ∧ (0 ≤ doy ∧ doy ≤ 365) ∧
      (doy = 365 → r = 3 ∧ (q = 24 → c = 3)) ∧ doe = 36524 * c + 1461 * q + 365 * r + doy := by
  obtain ⟨c, hc, hc'⟩ : ∃ c : ℤ, (0 ≤ c ∧ c ≤ 3) ∧ 0 ≤ doe - 36524 * c ∧
      (doe - 36524 * c < 36524 ∨ c = 3 ∧ doe - 36524 * c = 36524) := ⟨min (doe / 36524) 3, by omega, by omega⟩
  obtain ⟨q, hq, hq'⟩ : ∃ q : ℤ, (0 ≤ q ∧ q ≤ 24) ∧ 0 ≤ doe - 36524 * c - 1461 * q ∧
      doe - 36524 * c - 1461 * q < 1461 := ⟨(doe - 36524 * c) / 1461, by omega, by omega⟩
  obtain ⟨r, hr, hr'⟩ : ∃ r : ℤ, (0 ≤ r ∧ r ≤ 3) ∧ 0 ≤ doe - 36524 * c - 1461 * q - 365 * r ∧
      (doe - 36524 * c - 1461 * q - 365 * r < 365 ∨ r = 3 ∧ doe - 36524 * c - 1461 * q - 365 * r = 365) :=
    ⟨min ((doe - 36524 * c - 1461 * q) / 365) 3, by omega, by omega⟩
  exact ⟨c, q, r, doe - 36524 * c - 1461 * q - 365 * r, hc, hq, hr, by omega, by omega, by omega⟩

/-- One leap day a century is not there, but for the last of the era. -/
theorem century_of_era {doe c n : ℤ} (hc : 0 ≤ c ∧ c ≤ 3) (hn : 0 ≤ n ∧ n ≤ 36524) (hlast : n = 36524 → c = 3)
    (hdoe : doe = 36524 * c + n) : doe / 36524 - doe / 146096 = c := by
  rcases eq_or_ne doe 146096 with rfl | h
  · omega
  · have hera : doe / 146096 = 0 := Int.ediv_eq_zero_of_lt (by omega) (by omega)
    omega

/-- What `civil-from-days` has for the year of an era: the days less one for each leap year, by 365. -/
theorem year_of_era {c q r doy doe : ℤ} (hc : 0 ≤ c ∧ c ≤ 3) (hq : 0 ≤ q ∧ q ≤ 24) (hr : 0 ≤ r ∧ r ≤ 3)
    (hdoy : 0 ≤ doy ∧ doy ≤ 365) (hlast : doy = 365 → r = 3 ∧ (q = 24 → c = 3))
    (hdoe : doe = 36524 * c + 1461 * q + 365 * r + doy) :
    (doe - doe / 1460 + doe / 36524 - doe / 146096) / 365 = 100 * c + 4 * q + r := by
  have hcentury : doe / 36524 - doe / 146096 = c :=
    century_of_era (n := 1461 * q + 365 * r + doy) hc (by omega) (by omega) (by omega)
  obtain ⟨leap, hleap⟩ : ∃ leap, leap = (24 * c + q + 365 * r + doy) / 1460 := ⟨_, rfl⟩
  have hfours : doe / 1460 = 25 * c + q + leap := by omega
  have hdays : 0 ≤ doy - leap ∧ doy - leap < 365 := by omega
  have hless : doe - doe / 1460 + doe / 36524 - doe / 146096 = doy - leap + 365 * (100 * c + 4 * q + r) := by
    linarith
  rw [hless, Int.add_mul_ediv_left _ _ (by norm_num), Int.ediv_eq_zero_of_lt hdays.1 hdays.2, zero_add]

theorem marchDays_of_era {c q r : ℤ} (hc : 0 ≤ c ∧ c ≤ 3) (hq : 0 ≤ q ∧ q ≤ 24) (hr : 0 ≤ r ∧ r ≤ 3) :
    marchDays (100 * c + 4 * q + r) = 36524 * c + 1461 * q + 365 * r := by
  simp only [marchDays]
  omega

theorem year_of_era_spec {doe : ℤ} (h0 : 0 ≤ doe) (h1 : doe < 146097) :
    let yoe := (doe - doe / 1460 + doe / 36524 - doe / 146096) / 365
    (0 ≤ yoe ∧ yoe ≤ 399) ∧ marchDays yoe ≤ doe ∧ doe < marchDays (yoe + 1) := by
  obtain ⟨c, q, r, doy, hc, hq, hr, hdoy, hlast, hdoe⟩ := exists_year h0 h1
  have hleap : doy = 365 → leapyear (100 * c + 4 * q + r + 1) = true := fun h => by
    rw [leapyear_iff]
    omega
  dsimp only
  rw [year_of_era hc hq hr hdoy hlast hdoe, marchDays_succ, marchDays_of_era hc hq hr]
  refine ⟨by omega, by omega, ?_⟩
  split_ifs with h
  · omega
  · have hne : doy ≠ 365 := fun hdoy => h (hleap hdoy)
    omega

/-! ## Months

The months are counted on from that of January of the year 0: month `mo` of year `yr` is `12 * yr + mo`. -/

/-- The days up to the first of a month, from the first of March of the year 0: months from March on have 31
and 30 days in turn, five of them 153. -/
def firstDay (k : ℤ) : ℤ :=
  marchDays ((k - 2) / 12) + (153 * ((k - 2) % 12) + 2) / 5

theorem firstDay_march {y mp : ℤ} (h0 : 0 ≤ mp) (h1 : mp ≤ 11) :
    firstDay (12 * y + mp + 2) = marchDays y + (153 * mp + 2) / 5 := by
  have hy : (12 * y + mp + 2 - 2) / 12 = y := by omega
  have hmp : (12 * y + mp + 2 - 2) % 12 = mp := by omega
  rw [firstDay, hy, hmp]

theorem daysInMonth_february (y : ℤ) : daysInMonth 1 y = some (if leapyear y then 29 else 28) := by
  simp only [daysInMonth]
  split_ifs <;> simp_all [elemGet]

/-- `days-in-month` has the days up to the first of the next month. -/
theorem daysInMonth_eq (k : ℤ) : daysInMonth (k % 12) (k / 12) = some (firstDay (k + 1) - firstDay k) := by
  obtain ⟨y, mp, h0, h1, rfl⟩ : ∃ y mp : ℤ, 0 ≤ mp ∧ mp ≤ 11 ∧ k = 12 * y + mp + 2 :=
    ⟨(k - 2) / 12, (k - 2) % 12, by omega, by omega, by omega⟩
  rw [firstDay_march h0 h1]
  rcases eq_or_ne mp 11 with rfl | hne
  · -- February, the last month of the year
    have hnext : 12 * y + 11 + 2 + 1 = 12 * (y + 1) + 0 + 2 := by ring
    have hmo : (12 * y + 11 + 2) % 12 = 1 := by omega
    have hyr : (12 * y + 11 + 2) / 12 = y + 1 := by omega
    rw [hnext, firstDay_march le_rfl (by norm_num), marchDays_succ, hmo, hyr, daysInMonth_february]
    split_ifs <;> congr 1 <;> ring
  · have hnext : 12 * y + mp + 2 + 1 = 12 * y + (mp + 1) + 2 := by ring
    rw [hnext, firstDay_march (by omega) (by omega)]
    have hmo : (12 * y + mp + 2) % 12 = (mp + 2) % 12 := by omega
    rw [hmo, add_sub_add_left_eq_sub]
    interval_cases mp <;> first | rfl | exact absurd rfl hne

theorem daysInMonth_bounds {m y n : ℤ} (h0 : 0 ≤ m) (h1 : m ≤ 11) (hn : daysInMonth m y = some n) :
    28 ≤ n ∧ n ≤ 31 := by
  rcases eq_or_ne m 1 with rfl | hne
  · rw [daysInMonth_february, Option.some.injEq] at hn
    split_ifs at hn <;> omega
  · interval_cases m <;> first | exact absurd rfl hne | (injection hn with hn; omega)

theorem firstDay_lt_iff {k k' : ℤ} : firstDay k < firstDay k' ↔ k < k' := by
  refine (strictMono_int_of_lt_succ fun k => ?_).lt_iff_lt
  have hdays := daysInMonth_bounds (by omega) (by omega) (daysInMonth_eq k)
  omega

/-- A day is in one month only. -/
theorem month_unique {k k' z : ℤ} (hlow : firstDay k ≤ z) (hhigh : z < firstDay (k + 1))
    (hlow' : firstDay k' ≤ z) (hhigh' : z < firstDay (k' + 1)) : k = k' := by
  have h := firstDay_lt_iff.mp (hlow.trans_lt hhigh')
  have h' := firstDay_lt_iff.mp (hlow'.trans_lt hhigh)
  omega

/-- A day of the year is in the month `civil-from-days` has for it. -/
theorem month_of_year {doy : ℤ} (h0 : 0 ≤ doy) (h1 : doy ≤ 365) :
    let mp := (5 * doy + 2) / 153
    (0 ≤ mp ∧ mp ≤ 11) ∧ (153 * mp + 2) / 5 ≤ doy ∧ doy < (153 * (mp + 1) + 2) / 5 := by
  dsimp only
  omega

/-! ## Both directions -/

/-- The day is in the month `civil-from-days` gives, counted from its first. -/
theorem civilFromDays_spec (days : ℤ) :
    ∃ k, civilFromDays days = ⟨k / 12, k % 12, days + 719468 - firstDay k + 1⟩ ∧
    firstDay k ≤ days + 719468 ∧ days + 719468 < firstDay (k + 1) := by
  unfold civilFromDays
  extract_lets z era doe yoe y doy mp d m yr
  have hera : era = z / 146097 := floor_tdiv (by norm_num)
  have hdoe : 0 ≤ doe ∧ doe < 146097 := by omega
  have hz : z = doe + era * 146097 := by ring
  have hyoe : yoe = (doe - doe / 1460 + doe / 36524 - doe / 146096) / 365 := by
    simp only [yoe, tdiv_of_nonneg _ hdoe.1]
    exact tdiv_of_nonneg _ (by omega)
  obtain ⟨hyoeBounds, hlow, hhigh⟩ := year_of_era_spec hdoe.1 hdoe.2
  rw [← hyoe] at hyoeBounds hlow hhigh
  have hdoy : doy = doe - marchDays yoe := by
    simp only [doy, marchDays, tdiv_of_nonneg _ hyoeBounds.1]
    omega
  have hdoyBounds : 0 ≤ doy ∧ doy ≤ 365 := by
    rw [marchDays_succ] at hhigh
    split_ifs at hhigh <;> omega
  have hmp : mp = (5 * doy + 2) / 153 := tdiv_of_nonneg _ (by omega)
  obtain ⟨hmpBounds, hfrom, hto⟩ := month_of_year hdoyBounds.1 hdoyBounds.2
  rw [← hmp] at hmpBounds hfrom hto
  have hd : d = doy - (153 * mp + 2) / 5 + 1 := by
    simp only [d]
    rw [tdiv_of_nonneg _ (by omega)]
  have hyear : marchDays y = marchDays yoe + era * 146097 := marchDays_era era yoe
  have hfirst : firstDay (12 * y + mp + 2) = marchDays y + (153 * mp + 2) / 5 :=
    firstDay_march hmpBounds.1 hmpBounds.2
  refine ⟨12 * y + mp + 2, ?_, ?_, ?_⟩
  · rw [Civil.mk.injEq]
    refine ⟨?_, ?_, ?_⟩
    · simp only [yr, m]
      split_ifs <;> omega
    · simp only [m]
      split_ifs <;> omega
    · omega
  · omega
  · rcases eq_or_ne mp 11 with h | h
    · -- the last month goes up to the next year
      have hnext : 12 * y + mp + 2 + 1 = 12 * (y + 1) + 0 + 2 := by rw [h]; ring
      have hyearNext : marchDays (y + 1) = marchDays (yoe + 1) + era * 146097 := by
        rw [← marchDays_era]
        congr 1
        ring
      rw [hnext, firstDay_march le_rfl (by norm_num)]
      omega
    · have hnext : 12 * y + mp + 2 + 1 = 12 * y + (mp + 1) + 2 := by ring
      rw [hnext, firstDay_march (by omega) (by omega)]
      omega

theorem daysFromCivil_eq {mo : ℤ} (h0 : 0 ≤ mo) (h1 : mo ≤ 11) (yr d : ℤ) :
    daysFromCivil yr mo d = firstDay (12 * yr + mo) + (d - 1) - 719468 := by
  unfold Tls.daysFromCivil
  extract_lets m y era yoe doy doe
  have hera : era = y / 400 := floor_tdiv (by norm_num)
  have hyoe : 0 ≤ yoe ∧ yoe < 400 := by omega
  obtain ⟨mp, hmp⟩ : ∃ mp, mp = if 2 < m then m - 3 else m + 9 := ⟨_, rfl⟩
  have hmonth : (0 ≤ mp ∧ mp ≤ 11) ∧ 12 * yr + mo = 12 * y + mp + 2 := by
    simp only [hmp, y, m]
    split_ifs <;> omega
  have hdoy : doy = (153 * mp + 2) / 5 + (d - 1) := by
    simp only [doy]
    rw [← hmp, tdiv_of_nonneg _ (by omega)]
  have hdoe : doe = marchDays yoe + doy := by
    simp only [doe, marchDays, tdiv_of_nonneg _ hyoe.1]
    omega
  have hyear : marchDays y = marchDays yoe + era * 146097 := by
    rw [← marchDays_era]
    congr 1
    ring
  rw [hmonth.2, firstDay_march hmonth.1.1 hmonth.1.2]
  omega

/-- `check-date` of a date alone. -/
def Civil.Valid (c : Civil) : Prop :=
  (0 ≤ c.mo ∧ c.mo ≤ 11) ∧ ∃ n, daysInMonth c.mo c.yr = some n ∧ 1 ≤ c.d ∧ c.d ≤ n

/-- The date after a date, as `leapyear?` and `days-in-month` have it. -/
def Civil.next (c : Civil) : Option Civil := do
  let n ← daysInMonth c.mo c.yr
  return if c.d < n then ⟨c.yr, c.mo, c.d + 1⟩ else if c.mo < 11 then ⟨c.yr, c.mo + 1, 1⟩
    else ⟨c.yr + 1, 0, 1⟩

/-- A valid date is a month and a day of it. -/
theorem Civil.Valid.exists_month {c : Civil} (hc : c.Valid) :
    ∃ k, c.yr = k / 12 ∧ c.mo = k % 12 ∧ 12 * c.yr + c.mo = k ∧
    1 ≤ c.d ∧ c.d ≤ firstDay (k + 1) - firstDay k := by
  obtain ⟨hmo, n, hn, hd⟩ := hc
  have hyr : (12 * c.yr + c.mo) / 12 = c.yr := by omega
  have hmonth : (12 * c.yr + c.mo) % 12 = c.mo := by omega
  have hdays := daysInMonth_eq (12 * c.yr + c.mo)
  rw [hyr, hmonth, hn, Option.some.injEq] at hdays
  exact ⟨12 * c.yr + c.mo, hyr.symm, hmonth.symm, rfl, hd.1, hdays ▸ hd.2⟩

theorem valid_month (k : ℤ) {d : ℤ} (h0 : 1 ≤ d) (h1 : d ≤ firstDay (k + 1) - firstDay k) :
    (⟨k / 12, k % 12, d⟩ : Civil).Valid :=
  ⟨⟨Int.emod_nonneg k (by norm_num), by dsimp only; omega⟩, _, daysInMonth_eq k, h0, h1⟩

theorem civilFromDays_valid (days : ℤ) : (civilFromDays days).Valid := by
  obtain ⟨k, hk, hlow, hhigh⟩ := civilFromDays_spec days
  rw [hk]
  exact valid_month k (by omega) (by omega)

theorem daysFromCivil_civilFromDays (days : ℤ) :
    daysFromCivil (civilFromDays days).yr (civilFromDays days).mo (civilFromDays days).d = days := by
  obtain ⟨k, hk, hlow, hhigh⟩ := civilFromDays_spec days
  have hmonth : 12 * (k / 12) + k % 12 = k := Int.mul_ediv_add_emod k 12
  rw [hk, daysFromCivil_eq (Int.emod_nonneg k (by norm_num)) (by omega), hmonth]
  ring

theorem civilFromDays_daysFromCivil {c : Civil} (hc : c.Valid) :
    civilFromDays (daysFromCivil c.yr c.mo c.d) = c := by
  obtain ⟨k, hyr, hmo, hmonth, h0, h1⟩ := hc.exists_month
  obtain ⟨k', hk', hlow, hhigh⟩ := civilFromDays_spec (daysFromCivil c.yr c.mo c.d)
  rw [daysFromCivil_eq hc.1.1 hc.1.2, hmonth] at hlow hhigh
  have hsame : k' = k := month_unique hlow hhigh (by omega) (by omega)
  rw [hk', hsame, daysFromCivil_eq hc.1.1 hc.1.2, hmonth, ← hyr, ← hmo]
  cases c
  congr 1
  ring

/-- The date after a valid one is valid, and one day later. -/
theorem next_spec {c : Civil} (hc : c.Valid) : ∃ c', c.next = some c' ∧ c'.Valid ∧
    daysFromCivil c'.yr c'.mo c'.d = daysFromCivil c.yr c.mo c.d + 1 := by
  obtain ⟨k, hyr, hmo, hmonth, h0, h1⟩ := hc.exists_month
  have hdays : daysInMonth c.mo c.yr = some (firstDay (k + 1) - firstDay k) := by
    rw [hyr, hmo]
    exact daysInMonth_eq k
  have hlater := firstDay_lt_iff.mpr (lt_add_one (k + 1))
  rw [Civil.next, hdays, Option.bind_eq_bind, Option.bind_some]
  refine ⟨_, rfl, ?_⟩
  split_ifs with hd hmore
  · have hvalid := valid_month k (d := c.d + 1) (by omega) (by omega)
    rw [← hyr, ← hmo] at hvalid
    refine ⟨hvalid, ?_⟩
    rw [daysFromCivil_eq hc.1.1 hc.1.2, daysFromCivil_eq hc.1.1 hc.1.2]
    ring
  · have hvalid := valid_month (k + 1) (d := 1) le_rfl (by omega)
    have hyr' : (k + 1) / 12 = c.yr := by omega
    have hmo' : (k + 1) % 12 = c.mo + 1 := by omega
    rw [hyr', hmo'] at hvalid
    have hmonth' : 12 * c.yr + (c.mo + 1) = k + 1 := by omega
    refine ⟨hvalid, ?_⟩
    dsimp only
    rw [daysFromCivil_eq (by omega) (by omega), daysFromCivil_eq hc.1.1 hc.1.2, hmonth, hmonth']
    omega
  · have hvalid := valid_month (k + 1) (d := 1) le_rfl (by omega)
    have hyr' : (k + 1) / 12 = c.yr + 1 := by omega
    have hmo' : (k + 1) % 12 = 0 := by omega
    rw [hyr', hmo'] at hvalid
    have hmonth' : 12 * (c.yr + 1) + 0 = k + 1 := by omega
    refine ⟨hvalid, ?_⟩
    dsimp only
    rw [daysFromCivil_eq le_rfl (by norm_num), daysFromCivil_eq hc.1.1 hc.1.2, hmonth, hmonth']
    omega

theorem civilFromDays_next (days : ℤ) : (civilFromDays days).next = some (civilFromDays (days + 1)) := by
  obtain ⟨c', hnext, hvalid, hdays⟩ := next_spec (civilFromDays_valid days)
  rw [daysFromCivil_civilFromDays] at hdays
  rw [hnext, ← hdays, civilFromDays_daysFromCivil hvalid]

/-! ## Seconds -/

/-- The day of a local second, and what is left of it. -/
theorem date_spec (tz : Offset) (now : ℤ) (secs : Option ℤ) : ∃ days rest : ℤ,
    secs.getD (now.tdiv 1000000) + tz.seconds = days * 86400 + rest ∧ (0 ≤ rest ∧ rest < 86400) ∧
    date tz now secs = ⟨rest % 60, rest / 60 % 60, rest / 3600, (civilFromDays days).d,
      (civilFromDays days).mo, (civilFromDays days).yr, (days + 4) % 7⟩ := by
  unfold date
  extract_lets s localS days remS sec min hour dotw c
  have hdays : days = localS / 86400 := floor_tdiv (by norm_num)
  have hrem : 0 ≤ remS ∧ remS < 86400 := by omega
  have hweek : dotw = (days + 4) % 7 := tmod_cycle (days + 4) (by norm_num)
  refine ⟨days, remS, by ring, hrem, ?_⟩
  have hsec : sec = remS % 60 := Int.tmod_eq_emod_of_nonneg hrem.1
  have hmin : min = remS / 60 % 60 := by
    simp only [min]
    rw [tdiv_of_nonneg _ hrem.1, Int.tmod_eq_emod_of_nonneg (by omega)]
  have hhour : hour = remS / 3600 := tdiv_of_nonneg _ hrem.1
  rw [hsec, hmin, hhour, hweek]

end ChrysaLisp.Calendar
