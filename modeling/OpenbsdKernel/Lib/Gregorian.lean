import Mathlib.Algebra.BigOperators.Intervals
import Mathlib.Tactic

/-!
# The Gregorian calendar

Dates carry the proof that they exist. The calendar is the successor of a date; the number of
a date counts the days since the first of January of a base year, and is what a successor
increases by one. Dates from the base year on are told apart by their numbers.
-/
namespace OpenbsdKernel.Gregorian

open Finset

/-- Every fourth year, of the centuries every fourth. -/
def IsLeap (y : ℕ) : Prop := 4 ∣ y ∧ (¬100 ∣ y ∨ 400 ∣ y)

instance (y : ℕ) : Decidable (IsLeap y) := inferInstanceAs (Decidable (_ ∧ _))

def yearDays (y : ℕ) : ℕ := if IsLeap y then 366 else 365

def monthDays (y : ℕ) : ℕ → ℕ
  | 1 => 31
  | 2 => if IsLeap y then 29 else 28
  | 3 => 31
  | 4 => 30
  | 5 => 31
  | 6 => 30
  | 7 => 31
  | 8 => 31
  | 9 => 30
  | 10 => 31
  | 11 => 30
  | 12 => 31
  | _ => 0

theorem february_pos (y : ℕ) : 0 < monthDays y 2 := by
  rw [monthDays]
  split_ifs <;> omega

theorem monthDays_pos (y : ℕ) {m : ℕ} (hlo : 1 ≤ m) (hhi : m ≤ 12) : 0 < monthDays y m := by
  by_cases hm : m = 2
  · exact hm ▸ february_pos y
  · interval_cases m <;> first | exact absurd rfl hm | exact Nat.zero_lt_succ _

theorem monthDays_le (y m : ℕ) : monthDays y m ≤ 31 := by
  unfold monthDays
  split
  case h_2 => split_ifs <;> omega
  all_goals omega

theorem yearDays_pos (y : ℕ) : 365 ≤ yearDays y := by
  unfold yearDays
  split_ifs <;> omega

@[ext]
structure Date where
  year : ℕ
  month : ℕ
  day : ℕ
  month_pos : 1 ≤ month
  month_le : month ≤ 12
  day_pos : 1 ≤ day
  day_le : day ≤ monthDays year month

/-- The first of January. -/
def newYear (y : ℕ) : Date := ⟨y, 1, 1, by omega, by omega, by omega, by simp [monthDays]⟩

/-- The date of the next day. -/
def Date.next (d : Date) : Date :=
  if hd : d.day < monthDays d.year d.month then
    { d with day := d.day + 1, day_pos := by omega, day_le := hd }
  else if hm : d.month < 12 then
    ⟨d.year, d.month + 1, 1, by omega, hm, le_rfl, monthDays_pos _ (by omega) hm⟩
  else newYear (d.year + 1)

/-- The days of the years from `base` up to `y`. -/
def daysBeforeYear (base y : ℕ) : ℕ := ∑ i ∈ Ico base y, yearDays i

/-- The days of the months of `y` up to month `m`. -/
def daysBeforeMonth (y m : ℕ) : ℕ := ∑ i ∈ Ico 1 m, monthDays y i

/-- The days from the first of January of `base` to a date. -/
def Date.number (base : ℕ) (d : Date) : ℕ :=
  daysBeforeYear base d.year + daysBeforeMonth d.year d.month + (d.day - 1)

theorem daysBeforeYear_succ {base y : ℕ} (h : base ≤ y) :
    daysBeforeYear base (y + 1) = daysBeforeYear base y + yearDays y :=
  sum_Ico_succ_top h _

theorem daysBeforeMonth_succ (y : ℕ) {m : ℕ} (h : 1 ≤ m) :
    daysBeforeMonth y (m + 1) = daysBeforeMonth y m + monthDays y m :=
  sum_Ico_succ_top h _

@[simp] theorem daysBeforeYear_self (base : ℕ) : daysBeforeYear base base = 0 := by
  simp [daysBeforeYear]

@[simp] theorem daysBeforeMonth_one (y : ℕ) : daysBeforeMonth y 1 = 0 := by
  simp [daysBeforeMonth]

theorem daysBeforeYear_mono {base y z : ℕ} (h : y ≤ z) :
    daysBeforeYear base y ≤ daysBeforeYear base z :=
  sum_le_sum_of_subset (Ico_subset_Ico_right h)

theorem daysBeforeMonth_mono {y m n : ℕ} (h : m ≤ n) :
    daysBeforeMonth y m ≤ daysBeforeMonth y n :=
  sum_le_sum_of_subset (Ico_subset_Ico_right h)

theorem daysBeforeMonth_year (y : ℕ) : daysBeforeMonth y 13 = yearDays y := by
  have hI : Ico 1 13 = {1, 2, 3, 4, 5, 6, 7, 8, 9, 10, 11, 12} := by decide
  rw [daysBeforeMonth, hI, yearDays]
  split_ifs with h <;> simp [monthDays, h]

/-- The next day has the next number. -/
theorem Date.number_next {base : ℕ} {d : Date} (h : base ≤ d.year) :
    d.next.number base = d.number base + 1 := by
  have hpos := d.day_pos
  have hlast := d.day_le
  unfold Date.next
  split_ifs with hd hm
  · simp only [Date.number]
    omega
  · simp only [Date.number, daysBeforeMonth_succ _ d.month_pos]
    omega
  · have hdec : d.month = 12 := by
      have := d.month_le
      omega
    have hyear := daysBeforeMonth_year d.year
    rw [daysBeforeMonth_succ _ (by omega), ← hdec] at hyear
    simp only [Date.number, newYear, daysBeforeYear_succ h, daysBeforeMonth_one, ← hyear]
    omega

theorem Date.year_le_next (d : Date) : d.year ≤ d.next.year := by
  unfold Date.next newYear
  split_ifs <;> simp

theorem Date.inside_month (d : Date) :
    daysBeforeMonth d.year d.month + (d.day - 1) < daysBeforeMonth d.year (d.month + 1) := by
  have hpos := d.day_pos
  have hle := d.day_le
  rw [daysBeforeMonth_succ _ d.month_pos]
  omega

theorem Date.inside_year {base : ℕ} {d : Date} (h : base ≤ d.year) :
    d.number base < daysBeforeYear base (d.year + 1) := by
  have hmonth := d.inside_month
  have hmono : daysBeforeMonth d.year (d.month + 1) ≤ daysBeforeMonth d.year 13 :=
    daysBeforeMonth_mono (by have := d.month_le; omega)
  rw [daysBeforeMonth_year] at hmono
  rw [daysBeforeYear_succ h, Date.number]
  omega

theorem Date.year_le_of_number_le {base : ℕ} {d e : Date} (hd : base ≤ d.year)
    (h : e.number base ≤ d.number base) : e.year ≤ d.year := by
  by_contra hlt
  have hin := d.inside_year hd
  have hmono : daysBeforeYear base (d.year + 1) ≤ daysBeforeYear base e.year :=
    daysBeforeYear_mono (by omega)
  have hge : daysBeforeYear base e.year ≤ e.number base := by
    rw [Date.number]
    omega
  omega

theorem Date.month_le_of_inside {d e : Date} (hy : d.year = e.year)
    (h : daysBeforeMonth e.year e.month + (e.day - 1) ≤
      daysBeforeMonth d.year d.month + (d.day - 1)) : e.month ≤ d.month := by
  by_contra hlt
  have hin := d.inside_month
  have hmono : daysBeforeMonth d.year (d.month + 1) ≤ daysBeforeMonth e.year e.month := by
    rw [hy]
    exact daysBeforeMonth_mono (by omega)
  omega

/-- Dates from the base year on with one number are one date. -/
theorem Date.number_injective {base : ℕ} {d e : Date} (hd : base ≤ d.year) (he : base ≤ e.year)
    (h : d.number base = e.number base) : d = e := by
  have hy : d.year = e.year :=
    le_antisymm (year_le_of_number_le he h.le) (year_le_of_number_le hd h.ge)
  have hin : daysBeforeMonth d.year d.month + (d.day - 1) =
      daysBeforeMonth e.year e.month + (e.day - 1) := by
    rw [Date.number, Date.number, hy] at h
    rw [hy]
    omega
  have hm : d.month = e.month :=
    le_antisymm (month_le_of_inside hy.symm hin.le) (month_le_of_inside hy hin.ge)
  have hday : d.day = e.day := by
    have hdpos := d.day_pos
    have hepos := e.day_pos
    rw [hy, hm] at hin
    omega
  exact Date.ext hy hm hday

/-- The date `n` days after the first of January of `base`. -/
def dateOf (base n : ℕ) : Date := Date.next^[n] (newYear base)

theorem dateOf_spec (base n : ℕ) : base ≤ (dateOf base n).year ∧ (dateOf base n).number base = n := by
  induction n with
  | zero => exact ⟨le_rfl, by simp [dateOf, Date.number, newYear]⟩
  | succ n ih =>
    have hnext : dateOf base (n + 1) = (dateOf base n).next := by
      rw [dateOf, Function.iterate_succ_apply']
      rfl
    rw [hnext, Date.number_next ih.1, ih.2]
    exact ⟨ih.1.trans (dateOf base n).year_le_next, rfl⟩

theorem dateOf_number {base : ℕ} {d : Date} (h : base ≤ d.year) : dateOf base (d.number base) = d :=
  Date.number_injective (dateOf_spec base _).1 h (dateOf_spec base _).2

/-- The weekday `n` days after the weekday `first`. -/
def weekday (first : Fin 7) (n : ℕ) : Fin 7 := (· + 1)^[n] first

theorem weekday_val (first : Fin 7) (n : ℕ) : (weekday first n).val = (n + first.val) % 7 := by
  induction n with
  | zero => simp [weekday, Nat.mod_eq_of_lt first.isLt]
  | succ n ih =>
    have hnext : weekday first (n + 1) = weekday first n + 1 := by
      rw [weekday, Function.iterate_succ_apply']
      rfl
    rw [hnext, Fin.val_add, ih]
    simp only [Fin.val_one]
    omega

/-- A time of the day. -/
@[ext]
structure Time where
  hour : Fin 24
  minute : Fin 60
  second : Fin 60
  deriving DecidableEq

/-- The seconds since midnight. -/
def Time.number (t : Time) : ℕ := t.hour * 3600 + t.minute * 60 + t.second

def timeOf (n : ℕ) : Time := ⟨Fin.ofNat 24 (n / 3600), Fin.ofNat 60 (n / 60), Fin.ofNat 60 n⟩

theorem Time.number_lt (t : Time) : t.number < 86400 := by
  have h := t.hour.isLt
  have m := t.minute.isLt
  have s := t.second.isLt
  unfold Time.number
  omega

theorem number_timeOf {n : ℕ} (h : n < 86400) : (timeOf n).number = n := by
  simp only [timeOf, Time.number, Fin.val_ofNat]
  omega

theorem timeOf_number (t : Time) : timeOf t.number = t := by
  have h := t.hour.isLt
  have m := t.minute.isLt
  have s := t.second.isLt
  ext <;> simp only [timeOf, Time.number, Fin.val_ofNat] <;> omega

end OpenbsdKernel.Gregorian
