import Mathlib
import OpenbsdKernel.Lib.Gregorian

/-!
# Seconds and calendar fields

`kern/clock_subr.c` against the Gregorian calendar. Values of type `int` are integers, cut
down where they may leave the range. A read outside the table of months gives `none`.
-/
namespace OpenbsdKernel.Clock

open Gregorian

def POSIX_BASE_YEAR : ℕ := 1970
def SECDAY : ℤ := 86400
def FEBRUARY : ℕ := 2

def month_days : List ℤ := [31, 28, 31, 30, 31, 30, 31, 31, 30, 31, 30, 31]

/-- A value stored in an `int`. -/
def cint (x : ℤ) : ℤ := x.bmod (2 ^ 32)

def leapyear (year : ℕ) : ℤ :=
  if year &&& 3 = 0 then
    if year % 100 = 0 then
      if year % 400 = 0 then 1 else 0
    else 1
  else 0

def days_in_year (a : ℕ) : ℤ := if leapyear a ≠ 0 then 366 else 365

structure clock_ymdhms where
  dt_year : BitVec 16
  dt_mon : BitVec 8
  dt_day : BitVec 8
  dt_wday : BitVec 8
  dt_hour : BitVec 8
  dt_min : BitVec 8
  dt_sec : BitVec 8
  deriving DecidableEq

/-- `for (i = POSIX_BASE_YEAR; i < year; i++)`. -/
def addYears (year : ℕ) (days : ℤ) : ℤ :=
  (List.range' POSIX_BASE_YEAR (year - POSIX_BASE_YEAR)).foldl
    (fun days i => days + days_in_year i) days

/-- `for (i = 1; i < dt->dt_mon; i++)`. -/
def addMonths (mon : ℕ) (days : ℤ) : Option ℤ :=
  (List.range' 1 (mon - 1)).foldlM (fun days i => month_days[i - 1]?.map (days + ·)) days

def clock_ymdhms_to_secs (dt : clock_ymdhms) : Option ℤ := do
  let year := dt.dt_year.toNat
  let days := addYears year 0
  let days := if leapyear year ≠ 0 ∧ FEBRUARY < dt.dt_mon.toNat then days + 1 else days
  let days ← addMonths dt.dt_mon.toNat days
  let days := days + (dt.dt_day.toNat - 1)
  some (cint ((days * 24 + dt.dt_hour.toNat) * 60 + dt.dt_min.toNat) * 60 + dt.dt_sec.toNat)

theorem days_in_year_pos (i : ℕ) : 0 < days_in_year i := by
  unfold days_in_year
  split_ifs <;> omega

/-- `for (i = POSIX_BASE_YEAR; days >= days_in_year(i); i++)`. -/
def wholeYears (i : ℕ) (days : ℤ) : ℕ × ℤ :=
  if days_in_year i ≤ days then wholeYears (i + 1) (days - days_in_year i) else (i, days)
termination_by days.toNat
decreasing_by
  have := days_in_year_pos i
  omega

/-- The copy of the table in a year. -/
def mthdays (i : ℕ) : List ℤ :=
  if leapyear i ≠ 0 then month_days.set (FEBRUARY - 1) 29 else month_days

/-- `for (i = 1; days >= days_in_month(i); i++)`, with the rest of the table. -/
def wholeMonths : List ℤ → ℕ → ℤ → Option (ℕ × ℤ)
  | [], _, _ => none
  | a :: table, i, days =>
    if a ≤ days then wholeMonths table (i + 1) (days - a) else some (i, days)

def clock_secs_to_ymdhms (secs : ℤ) : Option clock_ymdhms := do
  let days := cint (secs.tdiv SECDAY)
  let rsec := secs.tmod SECDAY
  let wday := (days + 4).tmod 7
  let (year, days) := wholeYears POSIX_BASE_YEAR days
  let (mon, days) ← wholeMonths (mthdays year) 1 days
  some {
    dt_year := BitVec.ofNat 16 year
    dt_mon := BitVec.ofNat 8 mon
    dt_day := BitVec.ofInt 8 (days + 1)
    dt_wday := BitVec.ofInt 8 wday
    dt_hour := BitVec.ofInt 8 (rsec.tdiv 3600)
    dt_min := BitVec.ofInt 8 ((rsec.tmod 3600).tdiv 60)
    dt_sec := BitVec.ofInt 8 ((rsec.tmod 3600).tmod 60) }

theorem leapyear_ne_zero (y : ℕ) : leapyear y ≠ 0 ↔ IsLeap y := by
  have h3 : y &&& 3 = y % 4 := Nat.and_two_pow_sub_one_eq_mod y 2
  unfold leapyear IsLeap
  rw [h3]
  split_ifs <;> simp <;> omega

theorem days_in_year_eq (y : ℕ) : days_in_year y = yearDays y := by
  simp only [days_in_year, leapyear_ne_zero, yearDays]
  split_ifs <;> rfl

theorem addYears_eq {y : ℕ} (h : POSIX_BASE_YEAR ≤ y) (days : ℤ) :
    addYears y days = days + daysBeforeYear POSIX_BASE_YEAR y := by
  have hrun : ∀ k : ℕ, (List.range' POSIX_BASE_YEAR k).foldl
      (fun days i => days + days_in_year i) days =
        days + daysBeforeYear POSIX_BASE_YEAR (POSIX_BASE_YEAR + k) := by
    intro k
    induction k with
    | zero => simp
    | succ k ih =>
      rw [List.range'_concat, List.foldl_append, ih, ← add_assoc POSIX_BASE_YEAR k 1,
        daysBeforeYear_succ (Nat.le_add_right _ k), List.foldl_cons, List.foldl_nil, one_mul,
        days_in_year_eq]
      push_cast
      ring
  rw [addYears, hrun, Nat.add_sub_cancel' h]

theorem wholeYears_spec (i : ℕ) (days : ℕ) :
    ∃ y r : ℕ, wholeYears i days = (y, (r : ℤ)) ∧ i ≤ y ∧ r < yearDays y ∧
      days = daysBeforeYear i y + r := by
  induction days using Nat.strong_induction_on generalizing i with
  | _ days ih =>
    rw [wholeYears, days_in_year_eq]
    split_ifs with hle
    · have hle' : yearDays i ≤ days := by exact_mod_cast hle
      have hpos := yearDays_pos i
      obtain ⟨y, r, hrun, hi, hr, hsum⟩ := ih (days - yearDays i) (by omega) (i + 1)
      refine ⟨y, r, ?_, by omega, hr, ?_⟩
      · rw [← hrun]
        push_cast [hle']
        rfl
      · rw [daysBeforeYear, Finset.sum_eq_sum_Ico_succ_bot (by omega)]
        rw [daysBeforeYear] at hsum
        omega
    · exact ⟨i, days, rfl, le_rfl, by exact_mod_cast not_le.mp hle, by simp⟩

/-- The table with February patched is the one of the calendar. -/
theorem mthdays_eq (y : ℕ) : mthdays y = (List.range' 1 12).map fun m => (monthDays y m : ℤ) := by
  have hr : List.range' 1 12 = [1, 2, 3, 4, 5, 6, 7, 8, 9, 10, 11, 12] := rfl
  simp only [mthdays, leapyear_ne_zero, hr]
  split_ifs with h <;> simp [month_days, monthDays, FEBRUARY, h]

theorem wholeMonths_spec (y k m : ℕ) (hm : 1 ≤ m) (days : ℕ)
    (h : daysBeforeMonth y m + days < daysBeforeMonth y (m + k)) :
    ∃ m' r : ℕ, wholeMonths ((List.range' m k).map fun m => (monthDays y m : ℤ)) m days =
        some (m', (r : ℤ)) ∧
      m ≤ m' ∧ m' < m + k ∧ r < monthDays y m' ∧
      daysBeforeMonth y m + days = daysBeforeMonth y m' + r := by
  induction k generalizing m days with
  | zero => simp at h
  | succ k ih =>
    rw [List.range'_succ, List.map_cons, wholeMonths]
    split_ifs with hle
    · have hle' : monthDays y m ≤ days := by exact_mod_cast hle
      have hsucc := daysBeforeMonth_succ y hm
      have hk : m + 1 + k = m + (k + 1) := by omega
      obtain ⟨m', r, hrun, hlo, hhi, hr, hsum⟩ :=
        ih (m + 1) (by omega) (days - monthDays y m) (by rw [hk]; omega)
      refine ⟨m', r, ?_, by omega, by omega, hr, by omega⟩
      rw [← hrun]
      push_cast [hle']
      rfl
    · exact ⟨m, days, rfl, le_rfl, by omega, by exact_mod_cast not_le.mp hle, rfl⟩

theorem month_days_eq (y : ℕ) {m : ℕ} (hlo : 1 ≤ m) (hhi : m ≤ 12) :
    month_days[m - 1]? = some ((monthDays y m : ℤ) - if IsLeap y ∧ m = 2 then 1 else 0) := by
  by_cases h : IsLeap y <;> interval_cases m <;> simp [month_days, monthDays, h]

theorem addMonths_eq (y : ℕ) {m : ℕ} (hlo : 1 ≤ m) (hhi : m ≤ 12) (days : ℤ) :
    addMonths m days =
      some (days + daysBeforeMonth y m - if IsLeap y ∧ FEBRUARY < m then 1 else 0) := by
  have hrun : ∀ k : ℕ, k ≤ 11 → (List.range' 1 k).foldlM
      (fun days i => month_days[i - 1]?.map (days + ·)) days =
        some (days + daysBeforeMonth y (1 + k) - if IsLeap y ∧ FEBRUARY < 1 + k then 1 else 0) := by
    intro k
    induction k with
    | zero => intro _; simp [FEBRUARY]
    | succ k ih =>
      intro hk
      have hread := month_days_eq y (m := 1 + k) (by omega) (by omega)
      rw [List.range'_concat, List.foldlM_append, ih (by omega), one_mul]
      simp only [Option.bind_eq_bind, Option.bind_some, List.foldlM_cons, List.foldlM_nil, hread,
        Option.map_some, Option.pure_def, ← add_assoc 1 k 1,
        daysBeforeMonth_succ y (Nat.le_add_right 1 k)]
      push_cast
      congr 1
      by_cases hl : IsLeap y
      · simp only [hl, true_and, FEBRUARY]
        split_ifs <;> omega
      · simp only [hl, false_and, if_false]
        ring
  rw [addMonths, hrun (m - 1) (by omega), Nat.add_sub_cancel' hlo]

theorem neZero_weekdays : NeZero 7 := inferInstance

/-- The first of January 1970 was a Thursday. -/
def thursday : Fin 7 :=
  haveI := neZero_weekdays
  4

/-- The fields show a date with its weekday and a time. -/
structure Shows (dt : clock_ymdhms) (d : Date) (t : Time) : Prop where
  year : dt.dt_year.toNat = d.year
  mon : dt.dt_mon.toNat = d.month
  day : dt.dt_day.toNat = d.day
  wday : dt.dt_wday.toNat = weekday thursday (d.number POSIX_BASE_YEAR)
  hour : dt.dt_hour.toNat = t.hour
  min : dt.dt_min.toNat = t.minute
  sec : dt.dt_sec.toNat = t.second

theorem Shows.unique {dt dt' : clock_ymdhms} {d : Date} {t : Time} (h : Shows dt d t)
    (h' : Shows dt' d t) : dt = dt' := by
  have hy := BitVec.eq_of_toNat_eq (h.year.trans h'.year.symm)
  have hmon := BitVec.eq_of_toNat_eq (h.mon.trans h'.mon.symm)
  have hday := BitVec.eq_of_toNat_eq (h.day.trans h'.day.symm)
  have hw := BitVec.eq_of_toNat_eq (h.wday.trans h'.wday.symm)
  have hh := BitVec.eq_of_toNat_eq (h.hour.trans h'.hour.symm)
  have hmin := BitVec.eq_of_toNat_eq (h.min.trans h'.min.symm)
  have hsec := BitVec.eq_of_toNat_eq (h.sec.trans h'.sec.symm)
  cases dt
  cases dt'
  simp_all

/-- The seconds from the first of January 1970 to a date and time. -/
def secsOf (d : Date) (t : Time) : ℕ := d.number POSIX_BASE_YEAR * 86400 + t.number

theorem cint_of_lt {x : ℤ} (hlo : 0 ≤ x) (hhi : x < 2 ^ 31) : cint x = x :=
  Int.bmod_eq_of_le (by omega) (by omega)

theorem Shows.to_secs {dt : clock_ymdhms} {d : Date} {t : Time} (h : Shows dt d t)
    (hbase : POSIX_BASE_YEAR ≤ d.year) (hlt : secsOf d t < 60 * 2 ^ 31) :
    clock_ymdhms_to_secs dt = some (secsOf d t : ℤ) := by
  have hpos := d.day_pos
  have hmonths : addMonths d.month
      (if IsLeap d.year ∧ FEBRUARY < d.month then addYears d.year 0 + 1 else addYears d.year 0) =
        some (daysBeforeYear POSIX_BASE_YEAR d.year + daysBeforeMonth d.year d.month : ℤ) := by
    rw [addMonths_eq d.year d.month_pos d.month_le, addYears_eq hbase]
    congr 1
    split_ifs <;> ring
  have hdays : (daysBeforeYear POSIX_BASE_YEAR d.year + daysBeforeMonth d.year d.month : ℤ) +
      ((d.day : ℤ) - 1) = d.number POSIX_BASE_YEAR := by
    rw [Date.number]
    omega
  have hsec := t.second.isLt
  unfold secsOf Time.number at hlt ⊢
  have hmin : cint (((d.number POSIX_BASE_YEAR : ℤ) * 24 + t.hour) * 60 + t.minute) =
      ((d.number POSIX_BASE_YEAR : ℤ) * 24 + t.hour) * 60 + t.minute :=
    cint_of_lt (by omega) (by omega)
  simp only [clock_ymdhms_to_secs, h.year, h.mon, h.day, h.hour, h.min, h.sec, leapyear_ne_zero,
    hmonths, Option.bind_eq_bind, Option.bind_some, hdays, hmin, Option.some.injEq]
  push_cast
  ring

theorem toNat_ofInt_of_lt {x w : ℕ} (h : x < 2 ^ w) : (BitVec.ofInt w x).toNat = x := by
  rw [BitVec.ofInt_natCast, BitVec.toNat_ofNat, Nat.mod_eq_of_lt h]

theorem toNat_ofNat_of_lt {x w : ℕ} (h : x < 2 ^ w) : (BitVec.ofNat w x).toNat = x := by
  rw [BitVec.toNat_ofNat, Nat.mod_eq_of_lt h]

section Fields
variable {rsec : ℕ}

theorem tdiv_secday (secs : ℕ) : (secs : ℤ).tdiv SECDAY = (secs / 86400 : ℕ) :=
  (Int.ofNat_tdiv secs 86400).symm

theorem tmod_secday (secs : ℕ) : (secs : ℤ).tmod SECDAY = (secs % 86400 : ℕ) :=
  (Int.ofNat_tmod secs 86400).symm

theorem wday_eq (days : ℕ) :
    (BitVec.ofInt 8 (((days : ℤ) + 4).tmod 7)).toNat = (weekday thursday days).val := by
  have hw : ((days : ℤ) + 4).tmod 7 = ((days + 4) % 7 : ℕ) := (Int.ofNat_tmod (days + 4) 7).symm
  rw [hw, toNat_ofInt_of_lt (by omega), weekday_val]
  rfl

theorem hour_eq (h : rsec < 86400) :
    (BitVec.ofInt 8 ((rsec : ℤ).tdiv 3600)).toNat = (timeOf rsec).hour := by
  have hh : (rsec : ℤ).tdiv 3600 = (rsec / 3600 : ℕ) := (Int.ofNat_tdiv rsec 3600).symm
  rw [hh, toNat_ofInt_of_lt (by omega)]
  simp only [timeOf, Fin.val_ofNat]
  omega

theorem tmod_hour : (rsec : ℤ).tmod 3600 = (rsec % 3600 : ℕ) := (Int.ofNat_tmod rsec 3600).symm

theorem min_eq (rsec : ℕ) :
    (BitVec.ofInt 8 (((rsec : ℤ).tmod 3600).tdiv 60)).toNat = (timeOf rsec).minute := by
  have hm : ((rsec % 3600 : ℕ) : ℤ).tdiv 60 = (rsec % 3600 / 60 : ℕ) :=
    (Int.ofNat_tdiv (rsec % 3600) 60).symm
  rw [tmod_hour, hm, toNat_ofInt_of_lt (by omega)]
  simp only [timeOf, Fin.val_ofNat]
  omega

theorem sec_eq (rsec : ℕ) :
    (BitVec.ofInt 8 (((rsec : ℤ).tmod 3600).tmod 60)).toNat = (timeOf rsec).second := by
  have hs : ((rsec % 3600 : ℕ) : ℤ).tmod 60 = (rsec % 3600 % 60 : ℕ) :=
    (Int.ofNat_tmod (rsec % 3600) 60).symm
  rw [tmod_hour, hs, toNat_ofInt_of_lt (by omega)]
  simp only [timeOf, Fin.val_ofNat]
  omega

end Fields

/-- The loops find the date that many days after the first of January 1970. -/
theorem exists_date (days : ℕ) : ∃ (d : Date) (r r' : ℕ),
    wholeYears POSIX_BASE_YEAR days = (d.year, (r : ℤ)) ∧
      wholeMonths (mthdays d.year) 1 r = some (d.month, (r' : ℤ)) ∧ d.day = r' + 1 ∧
      dateOf POSIX_BASE_YEAR days = d := by
  obtain ⟨y, r, hyears, hbase, hr, hy⟩ := wholeYears_spec POSIX_BASE_YEAR days
  obtain ⟨m, r', hmonths, hm, hm', hr', hrm⟩ := wholeMonths_spec y 12 1 le_rfl r (by
    rw [daysBeforeMonth_one, daysBeforeMonth_year]
    omega)
  rw [daysBeforeMonth_one] at hrm
  let d : Date := ⟨y, m, r' + 1, hm, by omega, by omega, by omega⟩
  have hnum : d.number POSIX_BASE_YEAR = days := by
    simp only [d, Date.number]
    omega
  refine ⟨d, r, r', hyears, ?_, rfl, ?_⟩
  · rw [mthdays_eq]
    exact hmonths
  · rw [← hnum]
    exact dateOf_number hbase

/-- The year fits its field, for every year has at least 365 days. -/
theorem year_lt {days : ℕ} (h : days < 2 ^ 21) : (dateOf POSIX_BASE_YEAR days).year < 2 ^ 16 := by
  obtain ⟨hbase, hnum⟩ := dateOf_spec POSIX_BASE_YEAR days
  set d := dateOf POSIX_BASE_YEAR days
  have hcount : 365 * (d.year - POSIX_BASE_YEAR) ≤ daysBeforeYear POSIX_BASE_YEAR d.year := by
    have hc := Finset.card_nsmul_le_sum (Finset.Ico POSIX_BASE_YEAR d.year) yearDays 365
      fun i _ => yearDays_pos i
    rw [Nat.card_Ico, smul_eq_mul, mul_comm] at hc
    exact hc
  rw [Date.number] at hnum
  unfold POSIX_BASE_YEAR at *
  omega

theorem clock_secs_to_ymdhms_eq {secs days r r' : ℤ} {y m : ℕ}
    (hd : cint (secs.tdiv SECDAY) = days) (hy : wholeYears POSIX_BASE_YEAR days = (y, r))
    (hm : wholeMonths (mthdays y) 1 r = some (m, r')) :
    clock_secs_to_ymdhms secs = some {
      dt_year := BitVec.ofNat 16 y
      dt_mon := BitVec.ofNat 8 m
      dt_day := BitVec.ofInt 8 (r' + 1)
      dt_wday := BitVec.ofInt 8 ((days + 4).tmod 7)
      dt_hour := BitVec.ofInt 8 ((secs.tmod SECDAY).tdiv 3600)
      dt_min := BitVec.ofInt 8 (((secs.tmod SECDAY).tmod 3600).tdiv 60)
      dt_sec := BitVec.ofInt 8 (((secs.tmod SECDAY).tmod 3600).tmod 60) } := by
  subst hd
  simp only [clock_secs_to_ymdhms, hy, hm, Option.bind_eq_bind, Option.bind_some]

/-- The fields that the code computes show the date that many days after the first of January
1970 and the time that is left. -/
theorem clock_secs_to_ymdhms_shows {secs : ℕ} (hlt : secs < 60 * 2 ^ 31) :
    ∃ dt, clock_secs_to_ymdhms secs = some dt ∧
      Shows dt (dateOf POSIX_BASE_YEAR (secs / 86400)) (timeOf (secs % 86400)) := by
  have hyear : (dateOf POSIX_BASE_YEAR (secs / 86400)).year < 2 ^ 16 := year_lt (by omega)
  have hdays : cint ((secs : ℤ).tdiv SECDAY) = (secs / 86400 : ℕ) := by
    rw [tdiv_secday]
    exact cint_of_lt (by omega) (by omega)
  obtain ⟨d, r, r', hyears, hmonths, hday, hd⟩ := exists_date (secs / 86400)
  have hnum := (dateOf_spec POSIX_BASE_YEAR (secs / 86400)).2
  have hr31 := d.day_le.trans (monthDays_le d.year d.month)
  have hmon := d.month_le
  have htod : secs % 86400 < 86400 := Nat.mod_lt _ (by omega)
  rw [hd] at hyear hnum ⊢
  refine ⟨_, clock_secs_to_ymdhms_eq hdays hyears hmonths, ?_⟩
  rw [tmod_secday]
  refine ⟨toNat_ofNat_of_lt hyear, toNat_ofNat_of_lt (by omega), ?_, ?_, hour_eq htod,
    min_eq _, sec_eq _⟩
  · rw [hday]
    exact toNat_ofInt_of_lt (x := r' + 1) (by omega)
  · rw [hnum]
    exact wday_eq (secs / 86400)

/-- The two conversions are inverse to each other as long as the minutes fit an `int`, and the
fields are those of the calendar. -/
theorem clock_roundtrip :
    (∀ secs : ℕ, secs < 60 * 2 ^ 31 → ∃ dt, clock_secs_to_ymdhms secs = some dt ∧
      Shows dt (dateOf POSIX_BASE_YEAR (secs / 86400)) (timeOf (secs % 86400)) ∧
      clock_ymdhms_to_secs dt = some (secs : ℤ)) ∧
    ∀ (dt : clock_ymdhms) (d : Date) (t : Time), POSIX_BASE_YEAR ≤ d.year → Shows dt d t →
      secsOf d t < 60 * 2 ^ 31 → ∃ secs : ℕ, clock_ymdhms_to_secs dt = some (secs : ℤ) ∧
        clock_secs_to_ymdhms secs = some dt := by
  have hsecs : ∀ secs : ℕ, secsOf (dateOf POSIX_BASE_YEAR (secs / 86400))
      (timeOf (secs % 86400)) = secs := by
    intro secs
    rw [secsOf, (dateOf_spec POSIX_BASE_YEAR _).2, number_timeOf (Nat.mod_lt _ (by omega))]
    omega
  refine ⟨fun secs hlt => ?_, fun dt d t hbase hdt hlt => ?_⟩
  · obtain ⟨dt, hrun, hshows⟩ := clock_secs_to_ymdhms_shows hlt
    have hback := hshows.to_secs (dateOf_spec POSIX_BASE_YEAR _).1 (by rwa [hsecs])
    rw [hsecs] at hback
    exact ⟨dt, hrun, hshows, hback⟩
  · have ht := t.number_lt
    obtain ⟨dt', hrun, hshows⟩ := clock_secs_to_ymdhms_shows hlt
    have hdate : secsOf d t / 86400 = d.number POSIX_BASE_YEAR := by
      unfold secsOf
      omega
    have htime : secsOf d t % 86400 = t.number := by
      unfold secsOf
      omega
    rw [hdate, htime, dateOf_number hbase, timeOf_number] at hshows
    exact ⟨secsOf d t, hdt.to_secs hbase hlt, hdt.unique hshows ▸ hrun⟩

/-- The last second of Tuesday, 29 February 2000. -/
def leapDay : clock_ymdhms := ⟨2000#16, 2#8, 29#8, 2#8, 23#8, 59#8, 59#8⟩

theorem clock_roundtrip_leapDay :
    clock_ymdhms_to_secs leapDay = some 951868799 ∧
      clock_secs_to_ymdhms 951868799 = some leapDay ∧
      (dateOf POSIX_BASE_YEAR (951868799 / 86400)).month = 2 := by
  let d : Date := ⟨2000, 2, 29, by decide, by decide, by decide, by decide⟩
  let t : Time := ⟨23, 59, 59⟩
  have hnum : d.number POSIX_BASE_YEAR = 11016 := by decide +kernel
  have hshows : Shows leapDay d t :=
    ⟨rfl, rfl, rfl, by rw [hnum, weekday_val]; rfl, rfl, rfl, rfl⟩
  have hrange : secsOf d t < 60 * 2 ^ 31 := by rw [secsOf, hnum]; decide
  have hto : clock_ymdhms_to_secs leapDay = some 951868799 := by decide +kernel
  obtain ⟨secs, hsecs, hback⟩ := clock_roundtrip.2 leapDay d t (by decide) hshows hrange
  have heq : (secs : ℤ) = 951868799 := Option.some.inj (hsecs.symm.trans hto)
  obtain ⟨dt, hrun, hdt, -⟩ := clock_roundtrip.1 951868799 (by decide)
  rw [heq] at hback
  refine ⟨hto, hback, ?_⟩
  obtain rfl : leapDay = dt := Option.some.inj (hback.symm.trans hrun)
  rw [← hdt.mon]
  rfl

end OpenbsdKernel.Clock
