import Mathlib.Tactic

/-!
# Connection rates

`pf_init_threshold`, `pf_add_threshold` and `pf_check_threshold` of `net/pf.c`. A rate is counted
in thousandths, which decay with the time that has passed. The code counts in 32 bits; what it
means to compute is the same in unbounded integers.
-/
namespace OpenbsdKernel.Pf

def PF_THRESHOLD_MULT : ℕ := 1000

/-- `struct pf_threshold` -/
structure Threshold where
  limit : UInt32
  seconds : UInt32
  count : UInt32
  last : UInt32
  deriving DecidableEq, Repr

/-- `pf_init_threshold` at the time `time_uptime`. -/
def pf_init_threshold (limit seconds : UInt32) (time_uptime : ℕ) : Threshold where
  limit := limit * UInt32.ofNat PF_THRESHOLD_MULT
  seconds := seconds
  count := 0
  last := UInt32.ofNat time_uptime

/-- `pf_add_threshold` at the time `time_uptime`. -/
def pf_add_threshold (threshold : Threshold) (time_uptime : ℕ) : Threshold :=
  let t := UInt32.ofNat time_uptime
  let diff := t - threshold.last
  let count := if threshold.seconds ≤ diff then 0
    else threshold.count - threshold.count * diff / threshold.seconds
  { threshold with count := count + UInt32.ofNat PF_THRESHOLD_MULT, last := t }

def pf_check_threshold (threshold : Threshold) : Bool := decide (threshold.limit < threshold.count)

@[simp] theorem pf_add_threshold_limit (threshold : Threshold) (t : ℕ) :
    (pf_add_threshold threshold t).limit = threshold.limit := by
  simp only [pf_add_threshold]

@[simp] theorem pf_add_threshold_seconds (threshold : Threshold) (t : ℕ) :
    (pf_add_threshold threshold t).seconds = threshold.seconds := by
  simp only [pf_add_threshold]

@[simp] theorem pf_add_threshold_last (threshold : Threshold) (t : ℕ) :
    (pf_add_threshold threshold t).last = UInt32.ofNat t := by
  simp only [pf_add_threshold]

/-- The count after an event in unbounded integers, `elapsed` seconds after the one before it. -/
def exactCount (seconds count elapsed : ℕ) : ℕ :=
  (if seconds ≤ elapsed then 0 else count - count * elapsed / seconds) + 1000

/-- The counts at the events `ts` are exact, up to the event at which the limit is reported to be
exceeded. The last event was at the time `last`, with the exact count `count`. -/
def CountsExactly (threshold : Threshold) (last count : ℕ) : List ℕ → Prop
  | [] => True
  | t :: ts =>
    (pf_add_threshold threshold t).count.toNat =
        exactCount threshold.seconds.toNat count (t - last) ∧
      (pf_check_threshold (pf_add_threshold threshold t) = false →
        CountsExactly (pf_add_threshold threshold t) t
          (exactCount threshold.seconds.toNat count (t - last)) ts)

/-- Events in order of time, with less than `2 ^ 32` seconds from one to the next. -/
def Timed : List ℕ → Prop := List.IsChain fun t t' => t ≤ t' ∧ t' < t + 2 ^ 32

/-- The limit and the counts of a rate are exact, whatever the times of the events are. -/
def RateExact (limit seconds : UInt32) : Prop :=
  (pf_init_threshold limit seconds 0).limit.toNat = 1000 * limit.toNat ∧
    ∀ t₀ ts, Timed (t₀ :: ts) → CountsExactly (pf_init_threshold limit seconds t₀) t₀ 0 ts

/-- The limit in thousandths fits in 32 bits; if there is a period, so does one event more, and the
limit in thousandths times the longest time within the period. -/
def RateFits (limit seconds : UInt32) : Prop :=
  1000 * limit.toNat < 2 ^ 32 ∧
    (seconds ≠ 0 → 1000 * (limit.toNat + 1) < 2 ^ 32 ∧
      1000 * limit.toNat * (seconds.toNat - 1) < 2 ^ 32)

section Event

variable {threshold : Threshold} {last count t : ℕ}

theorem toNat_limit {limit seconds : UInt32} (h : 1000 * limit.toNat < 2 ^ 32) (t₀ : ℕ) :
    (pf_init_threshold limit seconds t₀).limit.toNat = 1000 * limit.toNat := by
  change (limit * UInt32.ofNat 1000).toNat = _
  rw [UInt32.toNat_mul, Nat.mod_eq_of_lt]
  · exact Nat.mul_comm _ _
  · change limit.toNat * 1000 < 2 ^ 32
    omega

/-- The time since the last event. -/
theorem toNat_elapsed (hlast : threshold.last = UInt32.ofNat last) (ht : last ≤ t)
    (hgap : t < last + 2 ^ 32) : (UInt32.ofNat t - threshold.last).toNat = t - last := by
  rw [hlast, UInt32.toNat_sub, UInt32.toNat_ofNat', UInt32.toNat_ofNat']
  omega

theorem toNat_count (hlast : threshold.last = UInt32.ofNat last) (ht : last ≤ t)
    (hgap : t < last + 2 ^ 32) :
    (pf_add_threshold threshold t).count.toNat =
      ((if threshold.seconds.toNat ≤ t - last then 0
        else threshold.count.toNat - threshold.count.toNat * (t - last) % 2 ^ 32 /
          threshold.seconds.toNat) + 1000) % 2 ^ 32 := by
  have hdiff := toNat_elapsed hlast ht hgap
  have hle : threshold.seconds ≤ UInt32.ofNat t - threshold.last ↔
      threshold.seconds.toNat ≤ t - last := by
    rw [UInt32.le_iff_toNat_le, hdiff]
  simp only [pf_add_threshold, UInt32.toNat_add, hle]
  by_cases h : threshold.seconds.toNat ≤ t - last
  · rw [if_pos h, if_pos h]
    rfl
  · have hpart : (threshold.count * (UInt32.ofNat t - threshold.last) / threshold.seconds).toNat =
        threshold.count.toNat * (t - last) % 2 ^ 32 / threshold.seconds.toNat := by
      rw [UInt32.toNat_div, UInt32.toNat_mul, hdiff]
    have hpos : 0 < threshold.seconds.toNat := by omega
    have hsmall : threshold.count.toNat * (t - last) % 2 ^ 32 / threshold.seconds.toNat ≤
        threshold.count.toNat := by
      refine Nat.div_le_of_le_mul ?_
      calc threshold.count.toNat * (t - last) % 2 ^ 32
          ≤ threshold.count.toNat * (t - last) := Nat.mod_le _ _
        _ ≤ threshold.count.toNat * threshold.seconds.toNat := Nat.mul_le_mul_left _ (by omega)
        _ = threshold.seconds.toNat * threshold.count.toNat := Nat.mul_comm _ _
    rw [if_neg h, if_neg h, UInt32.toNat_sub_of_le _ _ ?_, hpart]
    · rfl
    · rw [UInt32.le_iff_toNat_le, hpart]
      exact hsmall

theorem count_exact (hlast : threshold.last = UInt32.ofNat last) (ht : last ≤ t)
    (hgap : t < last + 2 ^ 32) (hcount : threshold.count.toNat = count)
    (hprod : ¬ threshold.seconds.toNat ≤ t - last → count * (t - last) < 2 ^ 32)
    (hsum : exactCount threshold.seconds.toNat count (t - last) < 2 ^ 32) :
    (pf_add_threshold threshold t).count.toNat =
      exactCount threshold.seconds.toNat count (t - last) := by
  rw [toNat_count hlast ht hgap, hcount]
  unfold exactCount at hsum ⊢
  by_cases h : threshold.seconds.toNat ≤ t - last
  · rw [if_pos h, if_pos h]
    rfl
  · rw [if_neg h] at hsum
    rw [if_neg h, if_neg h, Nat.mod_eq_of_lt (hprod h), Nat.mod_eq_of_lt hsum]

end Event

section Run

variable {threshold : Threshold} {limit seconds : UInt32} {last count : ℕ}

theorem countsExactly_of_fits (hfits : RateFits limit seconds)
    (hlimit : threshold.limit.toNat = 1000 * limit.toNat) (hseconds : threshold.seconds = seconds)
    (hlast : threshold.last = UInt32.ofNat last) (hcount : threshold.count.toNat = count)
    (hle : count ≤ 1000 * limit.toNat) (ts : List ℕ) (hts : Timed (last :: ts)) :
    CountsExactly threshold last count ts := by
  obtain ⟨hfits₁, hfits₂⟩ := hfits
  induction ts generalizing threshold last count with
  | nil => trivial
  | cons t ts ih =>
    obtain ⟨⟨ht, hgap⟩, hts⟩ := List.isChain_cons_cons.mp hts
    have hexact : (pf_add_threshold threshold t).count.toNat =
        exactCount threshold.seconds.toNat count (t - last) := by
      refine count_exact hlast ht hgap hcount (fun h => ?_) ?_
      · rw [hseconds] at h
        have hprod := (hfits₂ (by rintro rfl; simp at h)).2
        calc count * (t - last) ≤ 1000 * limit.toNat * (seconds.toNat - 1) :=
              Nat.mul_le_mul hle (by omega)
          _ < 2 ^ 32 := hprod
      · unfold exactCount
        split_ifs with h
        · norm_num
        · rw [hseconds] at h
          have hsum := (hfits₂ (by rintro rfl; simp at h)).1
          have := Nat.sub_le count (count * (t - last) / threshold.seconds.toNat)
          omega
    refine ⟨hexact, fun hcheck => ih (by simpa using hlimit) (by simpa using hseconds)
      (pf_add_threshold_last _ _) hexact ?_ hts⟩
    rw [pf_check_threshold, decide_eq_false_iff_not, UInt32.not_lt, UInt32.le_iff_toNat_le,
      hexact, pf_add_threshold_limit, hlimit] at hcheck
    exact hcheck

theorem countsExactly_replicate (hseconds : threshold.seconds ≠ 0)
    (hlast : threshold.last = UInt32.ofNat last) (hcount : threshold.count.toNat = count)
    (n : ℕ) (hle : count + 1000 * n ≤ threshold.limit.toNat) (ts : List ℕ)
    (h : CountsExactly threshold last count (List.replicate n last ++ ts)) :
    ∃ threshold', threshold'.seconds = threshold.seconds ∧ threshold'.limit = threshold.limit ∧
      threshold'.last = UInt32.ofNat last ∧ threshold'.count.toNat = count + 1000 * n ∧
      CountsExactly threshold' last (count + 1000 * n) ts := by
  induction n generalizing threshold count with
  | zero => exact ⟨threshold, rfl, rfl, hlast, hcount, h⟩
  | succ n ih =>
    obtain ⟨hexact, hrest⟩ := h
    have hpos : 0 < threshold.seconds.toNat := by
      rw [Nat.pos_iff_ne_zero]
      exact fun h => hseconds (UInt32.toNat_inj.mp h)
    have hnext : exactCount threshold.seconds.toNat count (last - last) = count + 1000 := by
      simp [exactCount, hpos.ne']
    rw [hnext] at hexact hrest
    have hsum : count + 1000 + 1000 * n = count + 1000 * (n + 1) := by ring
    have hroom : count + 1000 + 1000 * n ≤ threshold.limit.toNat := by
      rw [hsum]
      exact hle
    have hlimit := pf_add_threshold_limit threshold last
    have hseconds' := pf_add_threshold_seconds threshold last
    have hlast' := pf_add_threshold_last threshold last
    generalize pf_add_threshold threshold last = next at hexact hrest hlimit hseconds' hlast'
    have hcheck : pf_check_threshold next = false := by
      rw [pf_check_threshold, decide_eq_false_iff_not, UInt32.not_lt, UInt32.le_iff_toNat_le,
        hexact, hlimit]
      exact Nat.le_of_add_right_le hroom
    rw [← hlimit] at hroom
    obtain ⟨threshold', h₁, h₂, h₃, h₄, h₅⟩ :=
      ih (hseconds' ▸ hseconds) hlast' hexact hroom (hrest hcheck)
    rw [hsum] at h₄ h₅
    exact ⟨threshold', h₁.trans hseconds', h₂.trans hlimit, h₃, h₄, h₅⟩

theorem timed_replicate {t t' : ℕ} (ht : t ≤ t') (hgap : t' < t + 2 ^ 32) (n : ℕ) :
    Timed (t :: (List.replicate n t ++ [t'])) := by
  induction n with
  | zero => exact .cons_cons ⟨ht, hgap⟩ (.singleton _)
  | succ n ih => exact .cons_cons ⟨le_rfl, by omega⟩ ih

theorem exact_at_limit (h : RateExact limit seconds) (hseconds : seconds ≠ 0) {t : ℕ}
    (ht : t < 2 ^ 32) :
    ((if seconds.toNat ≤ t then 0
      else 1000 * limit.toNat - 1000 * limit.toNat * t % 2 ^ 32 / seconds.toNat) + 1000) % 2 ^ 32 =
      exactCount seconds.toNat (1000 * limit.toNat) t := by
  obtain ⟨hlimit, hruns⟩ := h
  have hrun := hruns 0 (List.replicate limit.toNat 0 ++ [t])
    (timed_replicate (Nat.zero_le t) (by omega) _)
  have hzero : (pf_init_threshold limit seconds 0).count.toNat = 0 := rfl
  obtain ⟨threshold, hs, -, hlast, hcount, hexact⟩ :=
    countsExactly_replicate hseconds rfl hzero limit.toNat (by rw [Nat.zero_add, hlimit]) [t] hrun
  rw [Nat.zero_add] at hcount hexact
  have hvalue := hexact.1
  rw [toNat_count hlast (Nat.zero_le t) (by omega), hcount, hs] at hvalue
  exact hvalue

theorem fits_of_rateExact (h : RateExact limit seconds) : RateFits limit seconds := by
  have hmult : 1000 * limit.toNat < 2 ^ 32 := by
    rw [← h.1]
    exact UInt32.toNat_lt _
  refine ⟨hmult, fun hseconds => ?_⟩
  have hpos : 0 < seconds.toNat := by
    rw [Nat.pos_iff_ne_zero]
    exact fun h => hseconds (UInt32.toNat_inj.mp h)
  have hsum : 1000 * (limit.toNat + 1) < 2 ^ 32 := by
    have hcount := exact_at_limit h hseconds (t := 0) (by norm_num)
    have hlt := Nat.mod_lt ((if seconds.toNat ≤ 0 then 0
      else 1000 * limit.toNat - 1000 * limit.toNat * 0 % 2 ^ 32 / seconds.toNat) + 1000)
      (show 0 < 2 ^ 32 by norm_num)
    rw [hcount, exactCount, if_neg (by omega), Nat.mul_zero, Nat.zero_div] at hlt
    omega
  refine ⟨hsum, ?_⟩
  by_contra hbig
  have hcount := exact_at_limit h hseconds (t := seconds.toNat - 1)
    (lt_of_le_of_lt (Nat.sub_le _ _) (UInt32.toNat_lt _))
  rw [exactCount, if_neg (by omega), if_neg (by omega)] at hcount
  have hsec := UInt32.toNat_lt seconds
  have hroom : 1000 * limit.toNat + 1000 < 2 ^ 32 := by omega
  generalize 1000 * limit.toNat = L at hcount hbig hroom
  generalize seconds.toNat = s at hcount hbig hpos hsec
  -- the product that is lost is worth one whole period at least
  have hlost : L * (s - 1) % 2 ^ 32 / s < L * (s - 1) / s := by
    rw [Nat.lt_iff_add_one_le, Nat.le_div_iff_mul_le hpos, Nat.add_mul, Nat.one_mul]
    have h₁ := Nat.div_mul_le_self (L * (s - 1) % 2 ^ 32) s
    have h₂ : L * (s - 1) % 2 ^ 32 + 2 ^ 32 ≤ L * (s - 1) := by
      have hdiv := Nat.div_add_mod (L * (s - 1)) (2 ^ 32)
      have hone : 1 ≤ L * (s - 1) / 2 ^ 32 := by
        rw [Nat.le_div_iff_mul_le (by norm_num)]
        omega
      have := Nat.mul_le_mul_left (2 ^ 32) hone
      omega
    omega
  have hle : L * (s - 1) / s ≤ L := by
    refine Nat.div_le_of_le_mul ?_
    rw [Nat.mul_comm s]
    exact Nat.mul_le_mul_left L (Nat.sub_le s 1)
  generalize L * (s - 1) % 2 ^ 32 / s = short at hcount hlost
  generalize L * (s - 1) / s = part at hcount hlost hle
  rw [Nat.mod_eq_of_lt (by omega)] at hcount
  omega

/-- The limit and the counts of a rate are exact in every run exactly when the rate fits. -/
theorem pf_threshold_exact (limit seconds : UInt32) :
    RateExact limit seconds ↔ RateFits limit seconds := by
  constructor
  · exact fits_of_rateExact
  · intro hfits
    refine ⟨toNat_limit hfits.1 0, fun t₀ ts hts => ?_⟩
    exact countsExactly_of_fits hfits (toNat_limit hfits.1 t₀) rfl rfl rfl (Nat.zero_le _) ts hts

/-- A hundred connections a day: the product of the count and the time does not fit. -/
theorem pf_threshold_wraps : ¬ RateExact 100 86400 :=
  fun h => absurd (fits_of_rateExact h).2 (by decide)

end Run

end OpenbsdKernel.Pf
