import OpenbsdKernel.Lib.LongDivision
import OpenbsdKernel.Libkern.Qdivrem.Basic

/-!
# Digits and their normalization

The numbers that the digits of a work array stand for, and what the preparations of the
division do to them: leading zeros are skipped, and both numbers are multiplied by the
power of two that brings the first digit of the divisor to at least half the base.
-/
namespace OpenbsdKernel.Qdivrem

open LongDivision

/-- A loop over a range that keeps an invariant. -/
theorem foldlM_range {σ : Type*} {f : σ → ℕ → Option σ} {I : ℕ → σ → Prop} {n : ℕ}
    (hstep : ∀ k s, k < n → I k s → ∃ s', f s k = some s' ∧ I (k + 1) s') {s : σ} (h0 : I 0 s) :
    ∃ s', (List.range n).foldlM f s = some s' ∧ I n s' := by
  induction n with
  | zero => exact ⟨s, rfl, h0⟩
  | succ n ih =>
    obtain ⟨s₁, hs₁, hI₁⟩ := ih fun k s hk => hstep k s (by omega)
    obtain ⟨s₂, hs₂, hI₂⟩ := hstep n s₁ (by omega) hI₁
    exact ⟨s₂, by simp [List.range_succ, List.foldlM_append, hs₁, hs₂], hI₂⟩

theorem B_eq : B = 65536 := rfl

theorem HHALF_eq (x : ℕ) : HHALF x = x / 65536 := Nat.shiftRight_eq_div_pow x 16

theorem LHALF_eq (x : ℕ) : LHALF x = x % 65536 := Nat.and_two_pow_sub_one_eq_mod x 16

theorem u_int_of_lt {x : ℕ} (hx : x < 2 ^ 32) : u_int x = x := Nat.mod_eq_of_lt hx

/-- Digits that do not overlap may be combined by addition. -/
theorem or_eq_add {a b k : ℕ} (hb : b < 2 ^ k) : a * 2 ^ k ||| b = a * 2 ^ k + b := by
  rw [← Nat.shiftLeft_eq, Nat.shiftLeft_add_eq_or_of_lt hb]

theorem COMBINE_eq {a b : ℕ} (ha : a < 65536) (hb : b < 65536) :
    COMBINE a b = a * 65536 + b := by
  have hor : a * 2 ^ 16 ||| b = a * 2 ^ 16 + b := or_eq_add hb
  rw [COMBINE, Nat.shiftLeft_eq, u_int_of_lt (by omega), hor]
  norm_num

theorem COMBINE_lt {a b : ℕ} (ha : a < 65536) (hb : b < 65536) : COMBINE a b < 2 ^ 32 := by
  rw [COMBINE_eq ha hb]
  omega

theorem quad_eq {a b c d : ℕ} (ha : a < 65536) (hb : b < 65536) (hc : c < 65536) (hd : d < 65536) :
    quad (COMBINE a b) (COMBINE c d) =
      UInt64.ofNat (((a * 65536 + b) * 65536 + c) * 65536 + d) := by
  have hor : COMBINE a b * 2 ^ 32 ||| COMBINE c d = COMBINE a b * 2 ^ 32 + COMBINE c d :=
    or_eq_add (COMBINE_lt hc hd)
  rw [quad, Nat.shiftLeft_eq, hor]
  refine congrArg UInt64.ofNat ?_
  rw [COMBINE_eq ha hb, COMBINE_eq hc hd]
  ring

/-- The number in the `n` digits from index `p` on. -/
def val (a : Space) (p n : ℕ) : ℕ := num 65536 (fun i => (a i).toNat) p n

theorem digit_lt (a : Space) (i : ℕ) : (a i).toNat < 65536 := UInt16.toNat_lt (a i)

theorem val_lt (a : Space) (p n : ℕ) : val a p n < 65536 ^ n := num_lt (digit_lt a)

theorem val_congr {a b : Space} {p n : ℕ} (h : ∀ i, p ≤ i → i < p + n → b i = a i) :
    val b p n = val a p n :=
  num_congr fun i hi hn => by rw [h i hi hn]

theorem val_succ (a : Space) (p n : ℕ) : val a p (n + 1) = val a p n * 65536 + (a (p + n)).toNat :=
  rfl

theorem val_succ_left (a : Space) (p n : ℕ) :
    val a p (n + 1) = (a p).toNat * 65536 ^ n + val a (p + 1) n :=
  num_succ_left

theorem val_add (a : Space) (p n k : ℕ) :
    val a p (n + k) = val a p n * 65536 ^ k + val a (p + n) k :=
  num_add

theorem val_zero (a : Space) (p : ℕ) : val a p 0 = 0 := rfl

/-- Leading zeros, from the value. -/
theorem val_of_lt {a : Space} {p n k : ℕ} (h : val a p (n + k) < 65536 ^ k) :
    val a p n = 0 ∧ val a p (n + k) = val a (p + n) k := by
  have hz : val a p n = 0 := by
    rw [val_add] at h
    by_contra hne
    have := Nat.mul_le_mul_right (65536 ^ k) (Nat.one_le_iff_ne_zero.mpr hne)
    omega
  exact ⟨hz, by rw [val_add, hz, Nat.zero_mul, Nat.zero_add]⟩

theorem val_eq_zero {a : Space} {p n i : ℕ} (h : val a p n = 0) (hi : p ≤ i) (hn : i < p + n) :
    (a i).toNat = 0 :=
  num_eq_zero (by norm_num) h hi hn

theorem val_zeros {a : Space} {p n : ℕ} (h : ∀ i, p ≤ i → i < p + n → (a i).toNat = 0) :
    val a p n = 0 := by
  have hz : val a p (n + 0) = val a (p + n) 0 := num_of_zeros h
  rwa [Nat.add_zero, val_zero] at hz

theorem val_four (a : Space) : val a 1 4 =
    (((a 1).toNat * 65536 + (a 2).toNat) * 65536 + (a 3).toNat) * 65536 + (a 4).toNat := by
  simp [val, num]

@[simp] theorem get_eq {a : Space} {i : ℕ} (hi : i < 5) : get a i = some (a i).toNat := if_pos hi

@[simp] theorem put_eq {a : Space} {i x : ℕ} (hi : i < 5) :
    put a i x = some (Function.update a i (UInt16.ofNat x)) :=
  if_pos hi

theorem ofNat_digit {x : ℕ} (hx : x < 65536) : (UInt16.ofNat x).toNat = x :=
  UInt16.toNat_ofNat_of_lt' hx

theorem H_eq (x : UInt64) : H x = x.toNat / 2 ^ 32 := by
  simp [H, Nat.shiftRight_eq_div_pow]

/-- Breaking into digits keeps the number. -/
theorem digits_spec (a : Space) (x : UInt64) :
    ∃ a', digits a x = some a' ∧ a' 0 = a 0 ∧ val a' 1 4 = x.toNat := by
  have hx := x.toNat_lt
  refine ⟨_, rfl, rfl, ?_⟩
  rw [val_four]
  simp only [Function.update_apply, HHALF_eq, LHALF_eq, H_eq, L]
  simp
  omega

theorem combined_eq (a : Space) : combined a = some (UInt64.ofNat (val a 1 4)) := by
  simp [combined, quad_eq (digit_lt a 1) (digit_lt a 2) (digit_lt a 3) (digit_lt a 4), val_four]

/-- Over all five digits of a number that fits in four. -/
theorem combined_of_val {a : Space} {x : ℕ} (h : val a 0 5 = x) (hx : x < 65536 ^ 4) :
    combined a = some (UInt64.ofNat x) := by
  have hval : val a 0 (1 + 4) < 65536 ^ 4 := by rw [h]; exact hx
  obtain ⟨-, hv⟩ := val_of_lt hval
  rw [combined_eq, ← h]
  exact congrArg (fun y => some (UInt64.ofNat y)) hv.symm

theorem scanDivisor_spec (vs : Space) :
    ∃ n v, scanDivisor vs 4 0 = some (n, v) ∧
      (n = 1 ∧ v = 2 ∧ val vs 1 4 = (vs 4).toNat ∨
        2 ≤ n ∧ v + n = 4 ∧ (vs (v + 1)).toNat ≠ 0 ∧ val vs 1 4 = val vs (v + 1) n) := by
  by_cases h1 : (vs 1).toNat = 0
  · by_cases h2 : (vs 2).toNat = 0
    · by_cases h3 : (vs 3).toNat = 0
      · exact ⟨1, 2, by simp [scanDivisor, h1, h2, h3], .inl ⟨rfl, rfl, by simp [val_four, *]⟩⟩
      · exact ⟨2, 2, by simp [scanDivisor, h1, h2, h3],
          .inr ⟨le_rfl, rfl, h3, by simp [val, num, *]⟩⟩
    · exact ⟨3, 1, by simp [scanDivisor, h1, h2],
        .inr ⟨by omega, rfl, h2, by simp [val, num, *]⟩⟩
  · exact ⟨4, 0, by simp [scanDivisor, h1], .inr ⟨by omega, rfl, h1, rfl⟩⟩

/-- A dividend of `n` digits and more is found with `m` at least 0. -/
theorem scanDividend_spec {us : Space} {n : ℕ} (hn : 1 ≤ n) (h : 65536 ^ (n - 1) ≤ val us 1 4) :
    ∀ m u, u + m + n = 4 → val us 1 u = 0 →
      ∃ m' u', scanDividend us m u = some (m', u') ∧ u' + m' + n = 4 ∧ val us 1 u' = 0 := by
  intro m
  induction m with
  | zero =>
    intro u hu hz
    have hne : (us (u + 1)).toNat ≠ 0 := by
      intro h0
      have hlong : val us 1 (u + 1) = 0 := by rw [val_succ, hz, Nat.add_comm 1 u, h0]
      have hval : val us 1 (u + 1 + (n - 1)) = val us 1 4 := by congr 1; omega
      rw [val_add, hlong, Nat.zero_mul, Nat.zero_add] at hval
      have := val_lt us (1 + (u + 1)) (n - 1)
      omega
    exact ⟨0, u, by rw [scanDividend]; simp [get_eq (show u + 1 < 5 by omega), hne], hu, hz⟩
  | succ m ih =>
    intro u hu hz
    by_cases h0 : (us (u + 1)).toNat = 0
    · obtain ⟨m', u', hs, hrest⟩ := ih (u + 1) (by omega)
        (by rw [val_succ, hz, Nat.add_comm 1 u, h0])
      exact ⟨m', u', by rw [scanDividend]; simp [get_eq (show u + 1 < 5 by omega), h0, hs], hrest⟩
    · exact ⟨m + 1, u, by rw [scanDividend]; simp [get_eq (show u + 1 < 5 by omega), h0], hu, hz⟩

theorem multiplier_spec : ∀ (f t d : ℕ), 0 < t → t < 65536 → 32768 ≤ t * 2 ^ f →
    ∃ e, multiplier (f + 1) t d = some (d + e) ∧ 32768 ≤ t * 2 ^ e ∧ t * 2 ^ e < 65536 := by
  intro f
  induction f with
  | zero =>
    intro t d h0 hlt hf
    exact ⟨0, by simp [multiplier, B_eq, show ¬ t < 32768 by omega], by omega, by omega⟩
  | succ f ih =>
    intro t d h0 hlt hf
    by_cases ht : t < 32768
    · have hdouble : u_int (t <<< 1) = t * 2 := by
        rw [Nat.shiftLeft_eq, u_int_of_lt (by omega), pow_one]
      obtain ⟨e, he, hlo, hhi⟩ := ih (t * 2) (d + 1) (by omega) (by omega)
        (by rw [Nat.mul_assoc, ← pow_succ']; exact hf)
      have hpow : t * 2 ^ (e + 1) = t * 2 * 2 ^ e := by rw [pow_succ']; ring
      refine ⟨e + 1, ?_, by omega, by omega⟩
      rw [multiplier, B_eq, if_pos ht, hdouble, he]
      congr 1
      omega
    · exact ⟨0, by rw [multiplier, B_eq, if_neg ht, Nat.add_zero], by omega, by omega⟩

/-- The two halves of a digit that is shifted by less than its width. -/
theorem shift_halves {x s : ℕ} (hs : s ≤ 16) :
    x / 2 ^ (16 - s) * 65536 + x * 2 ^ s % 65536 = x * 2 ^ s := by
  have hpow : 65536 = 2 ^ s * 2 ^ (16 - s) := by
    rw [← pow_add, Nat.add_sub_cancel' hs]
    norm_num
  have hdiv : x / 2 ^ (16 - s) = x * 2 ^ s / 65536 := by
    rw [hpow, Nat.mul_comm x, Nat.mul_div_mul_left _ _ (by positivity)]
  rw [hdiv]
  omega

/-- The new digit of a shift to the left. -/
theorem shl_digit {x y s : ℕ} (hx : x < 65536) (hs : s < 16) (hy : y < 65536) :
    LHALF (u_int (x <<< s)) ||| y >>> (16 - s) = x * 2 ^ s % 65536 + y / 2 ^ (16 - s) ∧
      x * 2 ^ s % 65536 + y / 2 ^ (16 - s) < 65536 := by
  have hpow : 65536 = 2 ^ (16 - s) * 2 ^ s := by
    rw [← pow_add, Nat.sub_add_cancel hs.le]
    norm_num
  have hle : 2 ^ s ≤ 2 ^ 16 := Nat.pow_le_pow_right (by omega) hs.le
  have hxs : x * 2 ^ s < 2 ^ 32 := by nlinarith
  have hlow : y / 2 ^ (16 - s) < 2 ^ s := by
    rw [Nat.div_lt_iff_lt_mul (by positivity), Nat.mul_comm, ← hpow]
    exact hy
  have hmod : x * 2 ^ s % 65536 = x % 2 ^ (16 - s) * 2 ^ s := by
    rw [hpow, Nat.mul_mod_mul_right]
  have htop : x % 2 ^ (16 - s) * 2 ^ s + 2 ^ s ≤ 65536 := by
    have := Nat.mul_le_mul_right (2 ^ s) (Nat.mod_lt x (show 0 < 2 ^ (16 - s) by positivity))
    rw [Nat.succ_mul, ← hpow] at this
    exact this
  rw [Nat.shiftLeft_eq, u_int_of_lt hxs, LHALF_eq, Nat.shiftRight_eq_div_pow, hmod, or_eq_add hlow]
  exact ⟨rfl, by omega⟩

/-- A shift to the left multiplies the number, when nothing falls out. -/
theorem shl_spec {a : Space} {p len s : ℕ} (hlen : p + len < 5) (hs : s < 16)
    (htop : (a p).toNat * 2 ^ s < 65536) :
    ∃ a', shl a p len s = some a' ∧ (∀ i, i < p → a' i = a i) ∧
      val a' p (len + 1) = val a p (len + 1) * 2 ^ s := by
  have hzero : (a p).toNat / 2 ^ (16 - s) = 0 := by
    have := shift_halves (x := (a p).toNat) hs.le
    omega
  obtain ⟨a₁, hrun, hsame, hval⟩ := foldlM_range (n := len) (s := a)
    (f := fun a i => do
      put a (p + i) (LHALF (u_int ((← get a (p + i)) <<< s)) |||
        (← get a (p + (i + 1))) >>> (16 - s)))
    (I := fun k a' => (∀ i, i < p ∨ p + k ≤ i → a' i = a i) ∧
      val a' p k = val a p k * 2 ^ s + (a (p + k)).toNat / 2 ^ (16 - s))
    (by
      rintro k a' hk ⟨hsame, hval⟩
      have hdig := shl_digit (digit_lt a (p + k)) hs (digit_lt a (p + (k + 1)))
      refine ⟨Function.update a' (p + k) (UInt16.ofNat ((a (p + k)).toNat * 2 ^ s % 65536 +
        (a (p + (k + 1))).toNat / 2 ^ (16 - s))), ?_, fun i hi => ?_, ?_⟩
      · rw [← hdig.1, ← hsame (p + k) (.inr le_rfl), ← hsame (p + (k + 1)) (.inr (by omega))]
        simp [show p + k < 5 by omega, show p + (k + 1) < 5 by omega]
      · rw [Function.update_of_ne (by omega), hsame i (by omega)]
      · have hkeep : val (Function.update a' (p + k) (UInt16.ofNat ((a (p + k)).toNat * 2 ^ s %
            65536 + (a (p + (k + 1))).toNat / 2 ^ (16 - s)))) p k = val a' p k :=
          val_congr fun i _ hi => Function.update_of_ne (by omega) _ _
        have hhalves := shift_halves (x := (a (p + k)).toNat) hs.le
        rw [val_succ, hkeep, Function.update_self, ofNat_digit hdig.2, hval, val_succ]
        linear_combination hhalves)
    ⟨fun _ _ => rfl, by simp [val_zero, hzero]⟩
  have hlast : (a₁ (p + len)).toNat = (a (p + len)).toNat := by rw [hsame _ (.inr le_rfl)]
  have hle : 2 ^ s ≤ 2 ^ 16 := Nat.pow_le_pow_right (by omega) hs.le
  have hxs : (a (p + len)).toNat * 2 ^ s < 2 ^ 32 := by
    have := digit_lt a (p + len)
    nlinarith
  refine ⟨Function.update a₁ (p + len)
    (UInt16.ofNat ((a (p + len)).toNat * 2 ^ s % 65536)), ?_, fun i hi => ?_, ?_⟩
  · rw [shl, hrun]
    simp [hlen, hlast, Nat.shiftLeft_eq, u_int_of_lt hxs, LHALF_eq]
  · rw [Function.update_of_ne (by omega), hsame i (.inl hi)]
  · have hkeep : val (Function.update a₁ (p + len)
        (UInt16.ofNat ((a (p + len)).toNat * 2 ^ s % 65536))) p len = val a₁ p len :=
      val_congr fun i _ hi => Function.update_of_ne (by omega) _ _
    have hhalves := shift_halves (x := (a (p + len)).toNat) hs.le
    rw [val_succ, hkeep, Function.update_self, ofNat_digit (by omega), hval, val_succ]
    linear_combination hhalves

end OpenbsdKernel.Qdivrem
