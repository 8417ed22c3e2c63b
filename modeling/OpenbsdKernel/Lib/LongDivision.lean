import Mathlib.Tactic

/-!
# Long division of positional numbers

Digits stand in an array, the most significant first. The quotient of two numbers is
found one digit at a time, and a digit is estimated from the leading digits of the
remainder and of the divisor: with three digits against two the estimate is the digit or
one more.
-/
namespace OpenbsdKernel.LongDivision

/-- The value in base `b` of the `n` digits from position `p` on. -/
def num (b : ℕ) (a : ℕ → ℕ) (p : ℕ) : ℕ → ℕ
  | 0 => 0
  | n + 1 => num b a p n * b + a (p + n)

example : num 10 (fun i => i) 1 3 = 123 := by simp [num]

section Num
variable {b p n k : ℕ} {a a' : ℕ → ℕ}

theorem num_congr (h : ∀ i, p ≤ i → i < p + n → a' i = a i) : num b a' p n = num b a p n := by
  induction n with
  | zero => rfl
  | succ n ih =>
    rw [num, num, ih fun i hi hn => h i hi (by omega), h (p + n) (by omega) (by omega)]

theorem num_add : num b a p (n + k) = num b a p n * b ^ k + num b a (p + n) k := by
  induction k with
  | zero => simp [num]
  | succ k ih =>
    rw [← Nat.add_assoc, num, ih, num, pow_succ, Nat.add_assoc p n k]
    ring

theorem num_succ_left : num b a p (n + 1) = a p * b ^ n + num b a (p + 1) n := by
  rw [Nat.add_comm n 1, num_add]
  simp [num]

theorem num_lt (h : ∀ i, a i < b) : num b a p n < b ^ n := by
  induction n with
  | zero => simp [num]
  | succ n ih =>
    have hn := h (p + n)
    calc num b a p n * b + a (p + n) < (num b a p n + 1) * b := by rw [Nat.add_mul]; omega
      _ ≤ b ^ n * b := Nat.mul_le_mul_right _ ih
      _ = b ^ (n + 1) := (pow_succ b n).symm

theorem num_of_zeros (h : ∀ i, p ≤ i → i < p + n → a i = 0) :
    num b a p (n + k) = num b a (p + n) k := by
  have hz : num b a p n = 0 := by
    rw [num_congr (a := fun _ => 0) h]
    induction n with
    | zero => rfl
    | succ n ih => simp [num, ih fun i hi hn => h i hi (by omega)]
  rw [num_add, hz, Nat.zero_mul, Nat.zero_add]

theorem num_eq_zero (hb : 0 < b) (h : num b a p n = 0) {i : ℕ} (hi : p ≤ i) (hn : i < p + n) :
    a i = 0 := by
  induction n with
  | zero => omega
  | succ n ih =>
    rw [num] at h
    by_cases he : i = p + n
    · subst he
      omega
    · refine ih ?_ (by omega)
      have hmul : num b a p n * b = 0 := by omega
      exact (Nat.mul_eq_zero.mp hmul).resolve_right (by omega)

end Num

theorem div_step {V : ℕ} (hV : 0 < V) (P b d : ℕ) :
    (P * b + d) / V = P / V * b + (P % V * b + d) / V := by
  conv_lhs => rw [← Nat.div_add_mod P V]
  rw [Nat.add_mul, Nat.mul_assoc, Nat.add_assoc, Nat.mul_add_div hV]

theorem mod_step (V P b d : ℕ) : (P * b + d) % V = (P % V * b + d) % V := by
  conv_lhs => rw [← Nat.div_add_mod P V]
  rw [Nat.add_mul, Nat.mul_assoc, Nat.add_assoc, Nat.mul_add_mod]

theorem quotient_digit_lt {V b P d : ℕ} (hV : 0 < V) (hP : P < V) (hd : d < b) :
    (P * b + d) / V < b := by
  rw [Nat.div_lt_iff_lt_mul hV]
  calc P * b + d < (P + 1) * b := by rw [Nat.add_mul]; omega
    _ ≤ V * b := Nat.mul_le_mul_right _ hP
    _ = b * V := Nat.mul_comm _ _

section Estimate
variable {b k u r v s : ℕ}

/-- The quotient of the leading digits is not too small. -/
theorem le_estimate (hv : 0 < v) (hr : r < b ^ k) :
    (u * b ^ k + r) / (v * b ^ k + s) ≤ u / v := by
  have hb : 0 < b ^ k := by omega
  have hvb : 0 < v * b ^ k := Nat.mul_pos hv hb
  calc (u * b ^ k + r) / (v * b ^ k + s) ≤ (u * b ^ k + r) / (v * b ^ k) :=
        Nat.div_le_div_left (by omega) hvb
    _ = (u * b ^ k + r) / b ^ k / v := by rw [Nat.mul_comm v, Nat.div_div_eq_div_mul]
    _ = u / v := by rw [Nat.mul_comm u, Nat.mul_add_div hb, Nat.div_eq_of_lt hr, Nat.add_zero]

/-- An estimate that the leading digits allow is too large by one at most. -/
theorem estimate_le {q : ℕ} (hq : q * v ≤ u) (hs : s < b ^ k) (hqb : q * b ^ k ≤ v * b ^ k + s) :
    q ≤ (u * b ^ k + r) / (v * b ^ k + s) + 1 := by
  obtain rfl | hpos := Nat.eq_zero_or_pos q
  · exact Nat.zero_le _
  have hV : 0 < v * b ^ k + s := lt_of_lt_of_le (Nat.mul_pos hpos (by omega)) hqb
  have hle : (q - 1) * (v * b ^ k + s) ≤ u * b ^ k + r := by
    have hqs : q * s ≤ q * b ^ k := Nat.mul_le_mul_left _ hs.le
    have huv : q * v * b ^ k ≤ u * b ^ k := Nat.mul_le_mul_right _ hq
    rw [Nat.sub_mul, Nat.one_mul, Nat.mul_add, ← Nat.mul_assoc]
    omega
  have := (Nat.le_div_iff_mul_le hV).mpr hle
  omega

end Estimate

end OpenbsdKernel.LongDivision
