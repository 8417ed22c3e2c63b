import Mathlib
import OpenbsdKernel.Lib.Gregorian

/-!
# Unix time and DOS time

`unix2dostime` and `dos2unixtime` of `msdosfs_conv.c`. Both count years by the rule that every
fourth one is a leap year and both remember their last result in static variables. A value of
type `time_t` is an integer; `uint32_t` and `u_short` are naturals cut down to their width.
-/
namespace OpenbsdKernel.Dostime

open Gregorian Finset

def regyear : List ℕ := [31, 28, 31, 30, 31, 30, 31, 31, 30, 31, 30, 31]
def leapyear : List ℕ := [31, 29, 31, 30, 31, 30, 31, 31, 30, 31, 30, 31]

def DD_DAY_MASK : ℕ := 0x1F
def DD_MONTH_MASK : ℕ := 0x1E0
def DD_MONTH_SHIFT : ℕ := 5
def DD_YEAR_MASK : ℕ := 0xFE00
def DD_YEAR_SHIFT : ℕ := 9
def DT_2SECONDS_MASK : ℕ := 0x1F
def DT_MINUTES_MASK : ℕ := 0x7E0
def DT_MINUTES_SHIFT : ℕ := 5
def DT_HOURS_MASK : ℕ := 0xF800
def DT_HOURS_SHIFT : ℕ := 11

def DOSEPOCH : ℤ := 315532800
def DOSENDTIME : ℤ := 4354775999
def SECONDSTO1980 : ℕ := (8 * 365 + 2 * 366) * (24 * 60 * 60)

@[ext]
structure Timespec where
  tv_sec : ℤ
  tv_nsec : ℤ
  deriving DecidableEq

/-- What `unix2dostime` stores through its pointers. -/
structure DosStamp where
  ddate : ℕ
  dtime : ℕ
  dhundredth : ℕ
  deriving DecidableEq

/-- The static variables of both functions. -/
structure Statics where
  lasttime : ℤ
  lastday : ℕ
  lastddate : ℕ
  lastdtime : ℕ
  lastdosdate : ℕ
  lastseconds : ℕ
  deriving DecidableEq

def Statics.boot : Statics := ⟨0, 0, 0, 0, 0, 0⟩

/-- `year & 0x03 ? 365 : 366` -/
def fourYear (year : ℕ) : ℕ := if year &&& 3 ≠ 0 then 365 else 366

def monthsOf (year : ℕ) : List ℕ := if year &&& 3 ≠ 0 then regyear else leapyear

theorem fourYear_pos (year : ℕ) : 0 < fourYear year := by
  unfold fourYear
  split_ifs <;> omega

/-- `for (year = 1970;; year++)` -/
def yearLoop (year days : ℕ) : ℕ × ℕ :=
  if days < fourYear year then (year, days) else yearLoop (year + 1) (days - fourYear year)
termination_by days
decreasing_by
  have := fourYear_pos year
  omega

/-- `for (month = 0; month < 12; month++)`, with the rest of the table. -/
def monthLoop (month days : ℕ) : List ℕ → ℕ × ℕ
  | [] => (month, days)
  | len :: months =>
    if days < len then (month, days) else monthLoop (month + 1) (days - len) months

/-- The date that `unix2dostime` computes for a day since 1970. -/
def dosDate (days : ℕ) : ℕ :=
  let y := yearLoop 1970 days
  let m := monthLoop 0 y.2 (monthsOf y.1)
  let ddate := ((m.2 + 1) + ((m.1 + 1) <<< DD_MONTH_SHIFT)) % 2 ^ 16
  if 1980 < y.1 then (ddate + ((y.1 - 1980) <<< DD_YEAR_SHIFT)) % 2 ^ 16 else ddate

def dosTime (t : ℕ) : ℕ :=
  (t / 2 % 30 + ((t / 60 % 60) <<< DT_MINUTES_SHIFT) + ((t / 3600 % 24) <<< DT_HOURS_SHIFT))
    % 2 ^ 16

/-- The even second that is converted; outside the range it is the epoch. -/
def dosSecond (tz_minuteswest : ℤ) (sec : ℤ) : ℤ :=
  let t := sec - tz_minuteswest * 60
  let t := t - t % 2
  if t < DOSEPOCH ∨ DOSENDTIME < t then DOSEPOCH else t

def unix2dostime (tz_minuteswest : ℤ) (s : Statics) (tsp : Timespec) : DosStamp × Statics :=
  let t := dosSecond tz_minuteswest tsp.tv_sec
  let s :=
    if s.lasttime ≠ t then
      let s := { s with lasttime := t, lastdtime := dosTime t.toNat }
      let days := t.toNat / (24 * 60 * 60) % 2 ^ 32
      if days ≠ s.lastday then { s with lastday := days, lastddate := dosDate days } else s
    else s
  (⟨s.lastddate, s.lastdtime,
    ((tsp.tv_sec % 2 * 100 + tsp.tv_nsec.tdiv 10000000) % 2 ^ 8).toNat⟩, s)

/-- A read of a table of months; `past` is the memory behind it. -/
def monthAt (past : List ℕ → ℕ → ℕ) (months : List ℕ) (m : ℕ) : ℕ :=
  months.getD m (past months m)

/-- The seconds up to a date that `dos2unixtime` computes. -/
def dosSeconds (past : List ℕ → ℕ → ℕ) (dd : ℕ) : ℕ :=
  let year := (dd &&& DD_YEAR_MASK) >>> DD_YEAR_SHIFT
  let month := (dd &&& DD_MONTH_MASK) >>> DD_MONTH_SHIFT
  let month := if month = 0 then 1 else month
  let days := ∑ y ∈ range year, fourYear y
  let days := days + ∑ m ∈ range (month - 1), monthAt past (monthsOf year) m
  let days := (days + (dd &&& DD_DAY_MASK) + (2 ^ 32 - 1)) % 2 ^ 32
  (days * 24 * 60 * 60 + SECONDSTO1980) % 2 ^ 32

/-- The seconds of the day. -/
def daySeconds (dt dh : ℕ) : ℕ :=
  (dt &&& DT_2SECONDS_MASK) * 2 + ((dt &&& DT_MINUTES_MASK) >>> DT_MINUTES_SHIFT) * 60 +
    ((dt &&& DT_HOURS_MASK) >>> DT_HOURS_SHIFT) * 3600 + dh / 100

def dos2unixtime (past : List ℕ → ℕ → ℕ) (tz_minuteswest : ℤ) (s : Statics) (dd dt dh : ℕ) :
    Timespec × Statics :=
  if dd = 0 then (⟨0, 0⟩, s)
  else
    let s :=
      if s.lastdosdate ≠ dd then
        { s with lastdosdate := dd % 2 ^ 16, lastseconds := dosSeconds past dd }
      else s
    (⟨(daySeconds dt dh + s.lastseconds + tz_minuteswest * 60) % 2 ^ 32,
      (dh % 100 * 10000000 : ℕ)⟩, s)

inductive Call where
  | unix2dostime (tsp : Timespec)
  | dos2unixtime (dd dt dh : ℕ)

/-- The static variables after some calls, with the time zone zero. -/
def Statics.run (past : List ℕ → ℕ → ℕ) (s : Statics) (calls : List Call) : Statics :=
  calls.foldl (fun s call =>
    match call with
    | .unix2dostime tsp => (Dostime.unix2dostime 0 s tsp).2
    | .dos2unixtime dd dt dh => (Dostime.dos2unixtime past 0 s dd dt dh).2) s

/-- What is remembered is what would be computed. -/
structure Statics.Cached (past : List ℕ → ℕ → ℕ) (s : Statics) : Prop where
  time : s.lasttime ≠ 0 → s.lastdtime = dosTime s.lasttime.toNat ∧
    s.lastday = s.lasttime.toNat / (24 * 60 * 60) % 2 ^ 32
  day : s.lastday ≠ 0 → s.lastddate = dosDate s.lastday
  dos : s.lastdosdate ≠ 0 → s.lastseconds = dosSeconds past s.lastdosdate

theorem cached_boot (past : List ℕ → ℕ → ℕ) : Statics.boot.Cached past :=
  ⟨fun h => absurd rfl h, fun h => absurd rfl h, fun h => absurd rfl h⟩

theorem dosSecond_range (tz : ℤ) (sec : ℤ) :
    DOSEPOCH ≤ dosSecond tz sec ∧ dosSecond tz sec ≤ DOSENDTIME := by
  unfold dosSecond DOSEPOCH DOSENDTIME
  dsimp only
  split_ifs with h <;> omega

/-- The day of a second in the range is not the initial value of `lastday`. -/
theorem dosDay_ne_zero (tz : ℤ) (sec : ℤ) :
    (dosSecond tz sec).toNat / (24 * 60 * 60) % 2 ^ 32 ≠ 0 := by
  obtain ⟨hlo, hhi⟩ := dosSecond_range tz sec
  unfold DOSEPOCH at hlo
  unfold DOSENDTIME at hhi
  omega

theorem unix2dostime_spec {past : List ℕ → ℕ → ℕ} {s : Statics} (h : s.Cached past) (tz : ℤ)
    (tsp : Timespec) :
    (unix2dostime tz s tsp).1.ddate =
        dosDate ((dosSecond tz tsp.tv_sec).toNat / (24 * 60 * 60) % 2 ^ 32) ∧
      (unix2dostime tz s tsp).1.dtime = dosTime (dosSecond tz tsp.tv_sec).toNat ∧
      (unix2dostime tz s tsp).2.Cached past := by
  have hday := dosDay_ne_zero tz tsp.tv_sec
  have hne : dosSecond tz tsp.tv_sec ≠ 0 := by
    have := (dosSecond_range tz tsp.tv_sec).1
    unfold DOSEPOCH at this
    omega
  unfold unix2dostime
  generalize dosSecond tz tsp.tv_sec = t at hday hne
  dsimp only
  by_cases ht : s.lasttime = t
  · rw [if_neg (not_not.mpr ht)]
    obtain ⟨htime, hlast⟩ := h.time (ht ▸ hne)
    rw [ht] at htime hlast
    exact ⟨hlast ▸ h.day (hlast ▸ hday), htime, h⟩
  · rw [if_pos ht]
    by_cases hd : t.toNat / (24 * 60 * 60) % 2 ^ 32 = s.lastday
    · rw [if_neg (not_not.mpr hd)]
      exact ⟨hd ▸ h.day (hd ▸ hday), rfl, ⟨fun _ => ⟨rfl, hd.symm⟩, h.day, h.dos⟩⟩
    · rw [if_pos hd]
      exact ⟨rfl, rfl, ⟨fun _ => ⟨rfl, rfl⟩, fun _ => rfl, h.dos⟩⟩

theorem field_eq (x k sh : ℕ) :
    (x &&& ((2 ^ k - 1) <<< sh)) >>> sh = x / 2 ^ sh % 2 ^ k := by
  rw [Nat.shiftRight_and_distrib, Nat.shiftLeft_shiftRight, Nat.and_two_pow_sub_one_eq_mod,
    Nat.shiftRight_eq_div_pow]

theorem year_field (dd : ℕ) : (dd &&& DD_YEAR_MASK) >>> DD_YEAR_SHIFT = dd / 512 % 128 :=
  field_eq dd 7 9

theorem month_field (dd : ℕ) : (dd &&& DD_MONTH_MASK) >>> DD_MONTH_SHIFT = dd / 32 % 16 :=
  field_eq dd 4 5

theorem day_field (dd : ℕ) : dd &&& DD_DAY_MASK = dd % 32 :=
  Nat.and_two_pow_sub_one_eq_mod dd 5

theorem dosSeconds_mod (past : List ℕ → ℕ → ℕ) (dd : ℕ) :
    dosSeconds past (dd % 2 ^ 16) = dosSeconds past dd := by
  have hy : dd % 2 ^ 16 / 512 % 128 = dd / 512 % 128 := by omega
  have hm : dd % 2 ^ 16 / 32 % 16 = dd / 32 % 16 := by omega
  have hd : dd % 2 ^ 16 % 32 = dd % 32 := by omega
  simp only [dosSeconds, year_field, month_field, day_field, hy, hm, hd]

theorem dos2unixtime_spec {past : List ℕ → ℕ → ℕ} {s : Statics} (h : s.Cached past) (tz : ℤ)
    (dd dt dh : ℕ) :
    (dd ≠ 0 → (dos2unixtime past tz s dd dt dh).1 =
        ⟨(daySeconds dt dh + dosSeconds past dd + tz * 60) % 2 ^ 32,
          (dh % 100 * 10000000 : ℕ)⟩) ∧
      (dos2unixtime past tz s dd dt dh).2.Cached past := by
  unfold dos2unixtime
  by_cases hdd : dd = 0
  · rw [if_pos hdd]
    exact ⟨fun h => absurd hdd h, h⟩
  · rw [if_neg hdd]
    dsimp only
    by_cases hl : s.lastdosdate = dd
    · rw [if_neg (not_not.mpr hl)]
      have hs := h.dos (hl ▸ hdd)
      rw [hl] at hs
      exact ⟨fun _ => by rw [hs], h⟩
    · rw [if_pos hl]
      exact ⟨fun _ => rfl, ⟨h.time, h.day, fun _ => (dosSeconds_mod past dd).symm⟩⟩

theorem Statics.Cached.run {past : List ℕ → ℕ → ℕ} {s : Statics} (h : s.Cached past)
    (calls : List Call) : (s.run past calls).Cached past := by
  induction calls generalizing s with
  | nil => exact h
  | cons call calls ih =>
    cases call with
    | unix2dostime tsp => exact ih (unix2dostime_spec h 0 tsp).2.2
    | dos2unixtime dd dt dh => exact ih (dos2unixtime_spec h 0 dd dt dh).2

/-- A year of the Gregorian calendar that is as long as the code takes `year` to be. -/
def likeYear (year : ℕ) : ℕ := year % 4 + 4

theorem likeYear_isLeap (year : ℕ) : IsLeap (likeYear year) ↔ year &&& 3 = 0 := by
  have hand : year &&& 3 = year % 4 := Nat.and_two_pow_sub_one_eq_mod year 2
  rw [hand, likeYear, IsLeap]
  omega

theorem fourYear_eq (year : ℕ) : fourYear year = yearDays (likeYear year) := by
  unfold fourYear yearDays
  by_cases h : year &&& 3 = 0
  · rw [if_neg (not_not.mpr h), if_pos ((likeYear_isLeap year).mpr h)]
  · rw [if_pos h, if_neg fun hl => h ((likeYear_isLeap year).mp hl)]

theorem monthsOf_eq (year : ℕ) :
    monthsOf year = (List.range 12).map fun m => monthDays (likeYear year) (m + 1) := by
  unfold monthsOf
  have hl := likeYear_isLeap year
  by_cases h : year &&& 3 = 0
  · simp [h, List.range, List.range.loop, monthDays, hl.mpr h, leapyear]
  · simp [h, List.range, List.range.loop, monthDays, mt hl.mp h, regyear]

theorem monthLoop_spec (month days : ℕ) (months : List ℕ) (h : days < months.sum) :
    ∃ i, i < months.length ∧ (monthLoop month days months).1 = month + i ∧
      days = (months.take i).sum + (monthLoop month days months).2 ∧
      (monthLoop month days months).2 < months.getD i 0 := by
  induction months generalizing month days with
  | nil => exact absurd h (Nat.not_lt_zero _)
  | cons len months ih =>
    unfold monthLoop
    split_ifs with hlt
    · exact ⟨0, by simp, rfl, by simp, hlt⟩
    · rw [List.sum_cons] at h
      obtain ⟨i, hi, hm, hd, hr⟩ := ih (month + 1) (days - len) (by omega)
      refine ⟨i + 1, by simpa using hi, by rw [hm]; omega, ?_, hr⟩
      rw [List.take_succ_cons, List.sum_cons]
      omega

theorem yearLoop_spec (year days : ℕ) :
    year ≤ (yearLoop year days).1 ∧
      days = ∑ y ∈ Ico year (yearLoop year days).1, fourYear y + (yearLoop year days).2 ∧
      (yearLoop year days).2 < fourYear (yearLoop year days).1 := by
  induction year, days using yearLoop.induct with
  | case1 year days h =>
    rw [yearLoop, if_pos h]
    exact ⟨le_rfl, by simp, h⟩
  | case2 year days h ih =>
    rw [yearLoop, if_neg h]
    obtain ⟨hle, hd, hr⟩ := ih
    refine ⟨by omega, ?_, hr⟩
    rw [sum_eq_sum_Ico_succ_bot (by omega)]
    omega

theorem take_sum (year : ℕ) {i : ℕ} (h : i ≤ 12) :
    ((monthsOf year).take i).sum = daysBeforeMonth (likeYear year) (i + 1) := by
  induction i with
  | zero => simp
  | succ i ih =>
    have hlen : i < (monthsOf year).length := by
      rw [monthsOf_eq, List.length_map, List.length_range]
      omega
    have ih := ih (by omega)
    rw [List.sum_take_succ _ i hlen, ih, daysBeforeMonth_succ _ (Nat.le_add_left 1 i)]
    simp [monthsOf_eq]

/-- The number of a date in the calendar of the code. -/
def fourNumber (year month day : ℕ) : ℕ :=
  ∑ y ∈ Ico 1970 year, fourYear y + daysBeforeMonth (likeYear year) month + (day - 1)

def dosEncode (year month day : ℕ) : ℕ := (year - 1980) * 512 + month * 32 + day

theorem fourYears_mono {y z : ℕ} (h : y ≤ z) :
    ∑ i ∈ Ico 1970 y, fourYear i ≤ ∑ i ∈ Ico 1970 z, fourYear i :=
  sum_le_sum_of_subset (Ico_subset_Ico_right h)

/-- The days from 1970 on, a leap year being counted when it is over. -/
theorem fourYears_sum {y : ℕ} (h : 1970 ≤ y) :
    ∑ i ∈ Ico 1970 y, fourYear i = (y - 1970) * 365 + (y - 1969) / 4 := by
  induction y, h using Nat.le_induction with
  | base => simp
  | succ y hy ih =>
    have hlen : fourYear y = if y % 4 = 0 then 366 else 365 := by
      rw [fourYear, (Nat.and_two_pow_sub_one_eq_mod y 2 : y &&& 3 = y % 4), ite_not]
    rw [sum_Ico_succ_top hy, ih, hlen]
    split_ifs <;> omega

theorem fourYears_1980 : ∑ i ∈ Ico 1970 1980, fourYear i = 3652 := fourYears_sum (by decide)

theorem fourYears_2108 : ∑ i ∈ Ico 1970 2108, fourYear i = 50404 := fourYears_sum (by decide)

/-- In the range of DOS dates, the stored date is that of the code's calendar. -/
theorem dosDate_spec {days : ℕ} (hlo : 3652 ≤ days) (hhi : days < 50404) :
    ∃ year month day, (1980 ≤ year ∧ year ≤ 2107) ∧ (1 ≤ month ∧ month ≤ 12) ∧
      (1 ≤ day ∧ day ≤ monthDays (likeYear year) month) ∧
      days = fourNumber year month day ∧ dosDate days = dosEncode year month day := by
  obtain ⟨hle, hdays, hrest⟩ := yearLoop_spec 1970 days
  have hmonths : (monthsOf (yearLoop 1970 days).1).sum = fourYear (yearLoop 1970 days).1 := by
    have h := take_sum (yearLoop 1970 days).1 (le_refl 12)
    rw [daysBeforeMonth_year, ← fourYear_eq] at h
    rw [← h, List.take_of_length_le (by simp [monthsOf_eq])]
  obtain ⟨i, hi, hmonth, hday, hlast⟩ :=
    monthLoop_spec 0 _ (monthsOf (yearLoop 1970 days).1) (hmonths ▸ hrest)
  have hi : i < 12 := by simpa [monthsOf_eq] using hi
  have hsucc : ∑ y ∈ Ico 1970 ((yearLoop 1970 days).1 + 1), fourYear y =
      ∑ y ∈ Ico 1970 (yearLoop 1970 days).1, fourYear y + fourYear (yearLoop 1970 days).1 :=
    sum_Ico_succ_top hle _
  have hmin : 1980 ≤ (yearLoop 1970 days).1 := by
    by_contra hlt
    have := fourYears_mono (show (yearLoop 1970 days).1 + 1 ≤ 1980 by omega)
    rw [fourYears_1980] at this
    omega
  have hmax : (yearLoop 1970 days).1 ≤ 2107 := by
    by_contra hlt
    have := fourYears_mono (show 2108 ≤ (yearLoop 1970 days).1 by omega)
    rw [fourYears_2108] at this
    omega
  rw [take_sum _ (by omega)] at hday
  have hlen : (monthsOf (yearLoop 1970 days).1).getD i 0 =
      monthDays (likeYear (yearLoop 1970 days).1) (i + 1) := by
    simp [monthsOf_eq, hi]
  rw [hlen] at hlast
  have h31 := monthDays_le (likeYear (yearLoop 1970 days).1) (i + 1)
  unfold dosDate
  dsimp only
  rw [hmonth]
  generalize monthLoop 0 (yearLoop 1970 days).2 (monthsOf (yearLoop 1970 days).1) = m at *
  generalize yearLoop 1970 days = y at *
  refine ⟨y.1, i + 1, m.2 + 1, ⟨hmin, hmax⟩, by omega, by omega, ?_, ?_⟩
  · rw [fourNumber]
    omega
  · simp only [DD_MONTH_SHIFT, DD_YEAR_SHIFT, Nat.shiftLeft_eq, dosEncode]
    split_ifs <;> omega

theorem dosSeconds_encode (past : List ℕ → ℕ → ℕ) {year month day : ℕ}
    (hy : 1980 ≤ year ∧ year ≤ 2107) (hm : 1 ≤ month ∧ month ≤ 12)
    (hd : 1 ≤ day ∧ day ≤ monthDays (likeYear year) month) :
    dosSeconds past (dosEncode year month day) = fourNumber year month day * 86400 % 2 ^ 32 := by
  have h31 := monthDays_le (likeYear year) month
  have hyear : dosEncode year month day / 512 % 128 = year - 1980 := by
    unfold dosEncode
    omega
  have hmonth : dosEncode year month day / 32 % 16 = month := by
    unfold dosEncode
    omega
  have hday : dosEncode year month day % 32 = day := by
    unfold dosEncode
    omega
  have hyears : ∑ y ∈ range (year - 1980), fourYear y + 3652 =
      ∑ y ∈ Ico 1970 year, fourYear y := by
    have hshift : ∑ y ∈ range (year - 1980), fourYear y = ∑ y ∈ Ico 1980 year, fourYear y := by
      rw [sum_Ico_eq_sum_range]
      refine sum_congr rfl fun k _ => ?_
      have hlike : likeYear k = likeYear (1980 + k) := by
        unfold likeYear
        omega
      rw [fourYear_eq, fourYear_eq, hlike]
    have hsplit := sum_Ico_consecutive fourYear (by omega : 1970 ≤ 1980) hy.1
    rw [fourYears_1980] at hsplit
    rw [hshift, ← hsplit, Nat.add_comm]
  have hmonths : ∑ m ∈ range (month - 1), monthAt past (monthsOf (year - 1980)) m =
      daysBeforeMonth (likeYear year) month := by
    rw [daysBeforeMonth, sum_Ico_eq_sum_range]
    refine sum_congr rfl fun k hk => ?_
    have hk := mem_range.mp hk
    have hlike : likeYear (year - 1980) = likeYear year := by
      unfold likeYear
      omega
    rw [monthAt, monthsOf_eq, hlike, Nat.add_comm 1 k]
    simp [show k < 12 by omega]
  simp only [dosSeconds, year_field, month_field, day_field, hyear, hmonth, hday]
  rw [if_neg (by omega), hmonths, fourNumber, ← hyears, SECONDSTO1980]
  omega

theorem monthDays_le_four (year month : ℕ) :
    monthDays year month ≤ monthDays (likeYear year) month := by
  have hl : IsLeap year → IsLeap (likeYear year) := fun h => by
    unfold IsLeap likeYear at *
    omega
  unfold monthDays
  split <;> try exact le_rfl
  split_ifs with h h'
  · exact le_rfl
  · exact absurd (hl h) h'
  · omega
  · exact le_rfl

theorem yearDays_le_four (year : ℕ) : yearDays year ≤ fourYear year := by
  rw [← daysBeforeMonth_year, fourYear_eq, ← daysBeforeMonth_year]
  exact sum_le_sum fun m _ => monthDays_le_four year m

/-- Up to the year 2100 the code's leap years are the Gregorian ones. -/
theorem likeYear_isLeap_iff {year : ℕ} (hlo : 1970 ≤ year) (hhi : year < 2100) :
    IsLeap (likeYear year) ↔ IsLeap year := by
  unfold IsLeap likeYear
  omega

theorem monthDays_four {year : ℕ} (hlo : 1970 ≤ year) (hhi : year < 2100) (month : ℕ) :
    monthDays (likeYear year) month = monthDays year month := by
  unfold monthDays
  simp only [likeYear_isLeap_iff hlo hhi]

theorem fourYears_eq {year : ℕ} (h : year ≤ 2100) :
    ∑ y ∈ Ico 1970 year, fourYear y = daysBeforeYear 1970 year := by
  refine sum_congr rfl fun y hy => ?_
  have hy := mem_Ico.mp hy
  rw [fourYear_eq, yearDays, yearDays, if_congr (likeYear_isLeap_iff hy.1 (by omega)) rfl rfl]

theorem fourYears_gt {year : ℕ} (h : 2101 ≤ year) :
    daysBeforeYear 1970 year < ∑ y ∈ Ico 1970 year, fourYear y := by
  refine sum_lt_sum (fun y _ => yearDays_le_four y) ⟨2100, mem_Ico.mpr ⟨by omega, by omega⟩, ?_⟩
  decide

/-- The first of March 2100. -/
def march2100 : Date := ⟨2100, 3, 1, by omega, by omega, Nat.succ_pos 0, by decide⟩

theorem number_march2100 : march2100.number 1970 = 47541 := by
  rw [Date.number, march2100, ← fourYears_eq le_rfl, fourYears_sum (by decide)]
  rfl

/-- Before March 2100 a date of the code's calendar is the Gregorian date of that day. -/
theorem dateOf_of_fourNumber {year month day : ℕ} (hy : 1980 ≤ year)
    (hm : 1 ≤ month ∧ month ≤ 12) (hd : 1 ≤ day ∧ day ≤ monthDays (likeYear year) month)
    (hn : fourNumber year month day < 47541) :
    (dateOf 1970 (fourNumber year month day)).year = year ∧
      (dateOf 1970 (fourNumber year month day)).month = month ∧
      (dateOf 1970 (fourNumber year month day)).day = day := by
  have h2100 : ∑ y ∈ Ico 1970 2100, fourYear y = 47482 := fourYears_sum (by decide)
  have h2101 : ∑ y ∈ Ico 1970 2101, fourYear y = 47848 := fourYears_sum (by decide)
  have hle : year ≤ 2100 := by
    by_contra hlt
    have := fourYears_mono (show 2101 ≤ year by omega)
    unfold fourNumber at hn
    omega
  obtain ⟨hday, hbefore⟩ : day ≤ monthDays year month ∧
      daysBeforeMonth (likeYear year) month = daysBeforeMonth year month := by
    by_cases hlt : year < 2100
    · rw [← monthDays_four (by omega) hlt]
      exact ⟨hd.2, sum_congr rfl fun m _ => monthDays_four (by omega) hlt m⟩
    · obtain rfl : year = 2100 := by omega
      have hlike : likeYear 2100 = 4 := rfl
      rw [fourNumber, h2100, hlike] at hn
      rw [hlike] at hd ⊢
      have h59 : daysBeforeMonth 4 month + (day - 1) < 59 := by omega
      have hm2 : month ≤ 2 := by
        by_contra hlt
        have := daysBeforeMonth_mono (y := 4) (show 3 ≤ month by omega)
        have h3 : daysBeforeMonth 4 3 = 60 := by decide
        omega
      rcases (by omega : month = 1 ∨ month = 2) with rfl | rfl
      · exact ⟨hd.2, rfl⟩
      · have h31 : daysBeforeMonth 4 2 = 31 := by decide
        have h28 : monthDays 2100 2 = 28 := by decide
        exact ⟨by omega, rfl⟩
  have hnum : (⟨year, month, day, hm.1, hm.2, hd.1, hday⟩ : Date).number 1970 =
      fourNumber year month day := by
    rw [fourNumber, fourYears_eq hle, hbefore]
    rfl
  rw [← hnum, dateOf_number (by change 1970 ≤ year; omega)]
  exact ⟨rfl, rfl, rfl⟩

/-- From March 2100 on the Gregorian date of a day is another one. -/
theorem fourNumber_lt_of_dateOf {year month day : ℕ} (hy : 1980 ≤ year)
    (hdate : (dateOf 1970 (fourNumber year month day)).year = year ∧
      (dateOf 1970 (fourNumber year month day)).month = month ∧
      (dateOf 1970 (fourNumber year month day)).day = day) :
    fourNumber year month day < 47541 := by
  obtain ⟨-, hnum⟩ := dateOf_spec 1970 (fourNumber year month day)
  generalize dateOf 1970 (fourNumber year month day) = e at hdate hnum
  obtain ⟨rfl, rfl, rfl⟩ := hdate
  have hmonths : daysBeforeMonth e.year e.month ≤ daysBeforeMonth (likeYear e.year) e.month :=
    sum_le_sum fun m _ => monthDays_le_four e.year m
  rw [← hnum]
  rw [Date.number, fourNumber] at hnum
  by_contra hge
  have hyear : e.year = 2100 := by
    have hlate : march2100.year ≤ e.year :=
      Date.year_le_of_number_le (show 1970 ≤ e.year by omega)
        (number_march2100.trans_le (Nat.not_lt.mp hge))
    change 2100 ≤ e.year at hlate
    by_contra hne
    have := fourYears_gt (show 2101 ≤ e.year by omega)
    omega
  have hmonth : march2100.month ≤ e.month := by
    refine Date.month_le_of_inside hyear ?_
    have h : march2100.number 1970 ≤ e.number 1970 :=
      number_march2100.trans_le (Nat.not_lt.mp hge)
    rw [Date.number, Date.number, hyear, Nat.add_assoc, Nat.add_assoc] at h
    rw [hyear]
    exact Nat.le_of_add_le_add_left h
  have hlt : daysBeforeMonth e.year e.month < daysBeforeMonth (likeYear e.year) e.month := by
    refine sum_lt_sum (fun m _ => monthDays_le_four e.year m)
      ⟨2, mem_Ico.mpr ⟨by omega, hmonth⟩, ?_⟩
    rw [hyear]
    decide
  rw [fourYears_eq hyear.le] at hnum
  omega

/-- The DOS form of the Gregorian date of a second. -/
def gregorianDate (sec : ℤ) : ℕ :=
  let e := dateOf 1970 (sec.toNat / 86400)
  dosEncode e.year e.month e.day

theorem dosEncode_inj {year month day year' month' day' : ℕ} (hy : 1980 ≤ year)
    (hy' : 1980 ≤ year') (hm : month ≤ 12) (hm' : month' ≤ 12) (hd : day ≤ 31) (hd' : day' ≤ 31)
    (h : dosEncode year month day = dosEncode year' month' day') :
    year' = year ∧ month' = month ∧ day' = day := by
  unfold dosEncode at h
  omega

theorem dateOf_year {n : ℕ} (h : 3652 ≤ n) : 1980 ≤ (dateOf 1970 n).year := by
  obtain ⟨hlo, hnum⟩ := dateOf_spec 1970 n
  have hin := (dateOf 1970 n).inside_year hlo
  rw [hnum] at hin
  by_contra hlt
  have : daysBeforeYear 1970 ((dateOf 1970 n).year + 1) ≤ daysBeforeYear 1970 1980 :=
    daysBeforeYear_mono (by omega)
  rw [← fourYears_eq (by omega : 1980 ≤ 2100), fourYears_1980] at this
  omega

theorem dosDate_eq_gregorian {days : ℕ} (hlo : 3652 ≤ days) (hhi : days < 50404) :
    dosDate days = dosEncode (dateOf 1970 days).year (dateOf 1970 days).month
      (dateOf 1970 days).day ↔ days < 47541 := by
  obtain ⟨year, month, day, hy, hm, hd, hdays, hdate⟩ := dosDate_spec hlo hhi
  rw [hdate]
  have hyear := dateOf_year hlo
  rw [hdays] at hyear ⊢
  constructor
  · intro h
    have h31 := monthDays_le (likeYear year) month
    have hd31 := (dateOf 1970 (fourNumber year month day)).day_le.trans (monthDays_le _ _)
    exact fourNumber_lt_of_dateOf hy.1 (dosEncode_inj hy.1 hyear hm.2
      (dateOf 1970 (fourNumber year month day)).month_le (hd.2.trans h31) hd31 h)
  · intro h
    obtain ⟨h1, h2, h3⟩ := dateOf_of_fourNumber hy.1 hm hd h
    rw [h1, h2, h3]

theorem daySeconds_fields {a b c : ℕ} (ha : a < 30) (hb : b < 60) (hc : c < 24) (dh : ℕ) :
    daySeconds ((a + (b <<< DT_MINUTES_SHIFT) + (c <<< DT_HOURS_SHIFT)) % 2 ^ 16) dh =
      a * 2 + b * 60 + c * 3600 + dh / 100 := by
  have hmin : ∀ dt, (dt &&& DT_MINUTES_MASK) >>> DT_MINUTES_SHIFT = dt / 32 % 64 :=
    fun dt => field_eq dt 6 5
  have hhour : ∀ dt, (dt &&& DT_HOURS_MASK) >>> DT_HOURS_SHIFT = dt / 2048 % 32 :=
    fun dt => field_eq dt 5 11
  have hsec : ∀ dt, dt &&& DT_2SECONDS_MASK = dt % 32 :=
    fun dt => Nat.and_two_pow_sub_one_eq_mod dt 5
  rw [daySeconds, hmin, hhour, hsec, DT_MINUTES_SHIFT, DT_HOURS_SHIFT, Nat.shiftLeft_eq,
    Nat.shiftLeft_eq]
  omega

theorem daySeconds_dosTime (t dh : ℕ) :
    daySeconds (dosTime t) dh = t % 86400 - t % 2 + dh / 100 := by
  rw [dosTime, daySeconds_fields (by omega) (by omega) (by omega)]
  omega

theorem dos2unixtime_unix2dostime {past : List ℕ → ℕ → ℕ} {s : Statics} (hs : s.Cached past)
    (between : List Call) {ts : Timespec} (hlo : DOSEPOCH ≤ ts.tv_sec)
    (hhi : ts.tv_sec ≤ DOSENDTIME) (hpos : 0 ≤ ts.tv_nsec) (hlt : ts.tv_nsec < 10 ^ 9)
    (hdvd : 10 ^ 7 ∣ ts.tv_nsec) :
    let r := unix2dostime 0 s ts
    (dos2unixtime past 0 (r.2.run past between) r.1.ddate r.1.dtime r.1.dhundredth).1 =
        ⟨ts.tv_sec % 2 ^ 32, ts.tv_nsec⟩ ∧
      r.1.ddate = dosDate (ts.tv_sec.toNat / 86400) := by
  intro r
  obtain ⟨hdate, htime, hcached⟩ := unix2dostime_spec hs 0 ts
  have heven : dosSecond 0 ts.tv_sec = ts.tv_sec - ts.tv_sec % 2 := by
    unfold dosSecond DOSEPOCH DOSENDTIME at *
    dsimp only
    rw [if_neg (by omega)]
    omega
  obtain ⟨sec, hsec⟩ : ∃ sec : ℕ, ts.tv_sec = sec := Int.eq_ofNat_of_zero_le (by
    unfold DOSEPOCH at hlo
    omega)
  unfold DOSEPOCH at hlo
  unfold DOSENDTIME at hhi
  have ht : (dosSecond 0 ts.tv_sec).toNat = sec - sec % 2 := by
    rw [heven]
    omega
  have hday : (sec - sec % 2) / (24 * 60 * 60) % 2 ^ 32 = sec / 86400 := by omega
  rw [ht, hday] at hdate
  rw [ht] at htime
  have hdh : r.1.dhundredth = sec % 2 * 100 + (ts.tv_nsec / 10 ^ 7).toNat := by
    change ((ts.tv_sec % 2 * 100 + ts.tv_nsec.tdiv 10000000) % 2 ^ 8).toNat = _
    rw [Int.tdiv_eq_ediv_of_nonneg hpos]
    omega
  obtain ⟨year, month, day, hy, hm, hd, hdays, hdos⟩ :=
    dosDate_spec (show 3652 ≤ sec / 86400 by omega) (by omega)
  have hback := (dos2unixtime_spec (hcached.run between) 0 r.1.ddate r.1.dtime r.1.dhundredth).1
  rw [hdate, hdos] at hback
  have hne : dosEncode year month day ≠ 0 := by
    unfold dosEncode
    omega
  rw [hdate, hdos, hback hne, dosSeconds_encode past hy hm hd, ← hdays, htime,
    daySeconds_dosTime, hdh, hsec, ← hdos]
  refine ⟨?_, by rw [Int.toNat_natCast]⟩
  ext
  · dsimp only
    omega
  · dsimp only
    omega

/-- Converting a time to its DOS form and back gives the time again and its Gregorian date,
whatever was converted before and in between, exactly before March 2100. -/
theorem unix2dostime_faithful (past : List ℕ → ℕ → ℕ) (before between : List Call)
    (ts : Timespec) (hlo : DOSEPOCH ≤ ts.tv_sec) (hhi : ts.tv_sec ≤ DOSENDTIME)
    (hpos : 0 ≤ ts.tv_nsec) (hlt : ts.tv_nsec < 10 ^ 9) (hdvd : 10 ^ 7 ∣ ts.tv_nsec) :
    let r := unix2dostime 0 (Statics.boot.run past before) ts
    ((dos2unixtime past 0 (r.2.run past between) r.1.ddate r.1.dtime r.1.dhundredth).1 = ts ∧
      r.1.ddate = gregorianDate ts.tv_sec) ↔ ts.tv_sec < 4107542400 := by
  intro r
  obtain ⟨hback, hdate⟩ := dos2unixtime_unix2dostime ((cached_boot past).run before) between
    hlo hhi hpos hlt hdvd
  unfold DOSEPOCH at hlo
  unfold DOSENDTIME at hhi
  have hgreg := dosDate_eq_gregorian (show 3652 ≤ ts.tv_sec.toNat / 86400 by omega) (by omega)
  rw [hback, hdate]
  constructor
  · rintro ⟨-, h⟩
    have := hgreg.mp h
    omega
  · intro h
    refine ⟨?_, hgreg.mpr (by omega)⟩
    ext
    · dsimp only
      omega
    · rfl

/-- A day before and a day of another century are converted as well. -/
theorem unix2dostime_faithful_1999 :
    let before := [.unix2dostime ⟨946598400, 0⟩, .dos2unixtime 33 0 0]
    let r := unix2dostime 0 (Statics.boot.run (fun _ _ => 0) before) ⟨946684799, 990000000⟩
    (dos2unixtime (fun _ _ => 0) 0 (r.2.run (fun _ _ => 0) [.unix2dostime ⟨951782400, 0⟩])
        r.1.ddate r.1.dtime r.1.dhundredth).1 = ⟨946684799, 990000000⟩ ∧
      r.1.ddate = gregorianDate 946684799 :=
  (unix2dostime_faithful (fun _ _ => 0) [.unix2dostime ⟨946598400, 0⟩, .dos2unixtime 33 0 0]
    [.unix2dostime ⟨951782400, 0⟩] ⟨946684799, 990000000⟩ (by decide) (by decide)
    (by decide) (by decide) (by decide)).mpr (by decide)

/-- Midnight before the first of March 2100 is stored as the 29th of February, and the
second `2 ^ 32` comes back as the epoch. -/
theorem unix2dostime_march2100 :
    (unix2dostime 0 Statics.boot ⟨4107542400, 0⟩).1.ddate = dosEncode 2100 2 29 ∧
      gregorianDate 4107542400 ≠ dosEncode 2100 2 29 ∧
      let r := unix2dostime 0 Statics.boot ⟨2 ^ 32, 0⟩
      (dos2unixtime (fun _ _ => 0) 0 r.2 r.1.ddate r.1.dtime r.1.dhundredth).1 = ⟨0, 0⟩ := by
  refine ⟨by decide +kernel, ?_, by decide +kernel⟩
  have hdate : dateOf 1970 47541 = march2100 := by
    rw [← number_march2100]
    exact dateOf_number (by decide)
  change dosEncode (dateOf 1970 47541).year (dateOf 1970 47541).month (dateOf 1970 47541).day ≠ _
  rw [hdate]
  decide

end OpenbsdKernel.Dostime
