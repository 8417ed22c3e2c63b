import OpenbsdKernel.Libkern.Qdivrem.Step

/-!
# Quotient and remainder

The loop over the digits is long division: after each of them the digits read so far are
divided, the quotient standing in one array and the remainder in the other. What is left
at the end is the remainder of the normalized numbers, which is shifted back.
-/
namespace OpenbsdKernel.Qdivrem

open LongDivision

theorem shortDivision_spec (us : Space) {t : ℕ} (ht : 0 < t) (htB : t < 65536) :
    shortDivision us t =
      some (UInt64.ofNat (val us 1 4 / t), UInt64.ofNat (val us 1 4 % t)) := by
  have hstep : ∀ r x, r < t → x < 65536 → COMBINE r x / t < 65536 ∧
      COMBINE r x = r * 65536 + x := by
    intro r x hr hx
    rw [COMBINE_eq (hr.trans htB) hx]
    exact ⟨quotient_digit_lt ht hr hx, rfl⟩
  have hmod : ∀ x, x % t < t := fun x => Nat.mod_lt x ht
  have h1 : (us 1).toNat / t < 65536 := (Nat.div_le_self _ _).trans_lt (digit_lt us 1)
  obtain ⟨h2, e2⟩ := hstep _ _ (hmod (us 1).toNat) (digit_lt us 2)
  obtain ⟨h3, e3⟩ := hstep _ _ (hmod (COMBINE ((us 1).toNat % t) (us 2).toNat)) (digit_lt us 3)
  obtain ⟨h4, e4⟩ := hstep _ _ (hmod (COMBINE (COMBINE ((us 1).toNat % t) (us 2).toNat % t)
    (us 3).toNat)) (digit_lt us 4)
  have hm2 : COMBINE ((us 1).toNat % t) (us 2).toNat % t = val us 1 2 % t := by
    rw [e2, ← mod_step]
    simp [val, num]
  have hm3 : COMBINE (val us 1 2 % t) (us 3).toNat % t = val us 1 3 % t := by
    rw [← hm2, e3, hm2, ← mod_step]
    rfl
  have hm4 : COMBINE (val us 1 3 % t) (us 4).toNat % t = val us 1 4 % t := by
    rw [← hm3, ← hm2, e4, hm2, hm3, ← mod_step]
    rfl
  rw [hm2] at h3 e3 h4 e4
  rw [hm3] at h4 e4
  have hd2 : val us 1 2 / t = (us 1).toNat / t * 65536 + COMBINE ((us 1).toNat % t) (us 2).toNat / t := by
    rw [e2, ← div_step ht]
    simp [val, num]
  have hd3 : val us 1 3 / t = val us 1 2 / t * 65536 + COMBINE (val us 1 2 % t) (us 3).toNat / t := by
    rw [e3, ← div_step ht]
    rfl
  have hd4 : val us 1 4 / t = val us 1 3 / t * 65536 + COMBINE (val us 1 3 % t) (us 4).toNat / t := by
    rw [e4, ← div_step ht]
    rfl
  simp [shortDivision, B_eq, Nat.mod_eq_of_lt, h1, h2, h3, h4, hm2, hm3, hm4, quad_eq, hd4, hd3,
    hd2]

theorem zeroDigits_spec : ∀ (i : ℕ) (q : Space), i ≤ 5 → ∃ q', zeroDigits q i = some q' ∧
    (∀ k, i ≤ k → q' k = q k) ∧ val q' 0 i = 0 := by
  intro i
  induction i with
  | zero => intro q _; exact ⟨q, rfl, fun _ _ => rfl, rfl⟩
  | succ i ih =>
    intro q hi
    obtain ⟨q', hrun, hsame, hval⟩ := ih (Function.update q i (UInt16.ofNat 0)) (by omega)
    refine ⟨q', ?_, fun k hk => ?_, ?_⟩
    · rw [zeroDigits, put_eq (show i < 5 by omega)]
      exact hrun
    · rw [hsame k (by omega), Function.update_of_ne (by omega)]
    · rw [val_succ, hval, Nat.zero_mul, Nat.zero_add, Nat.zero_add, hsame i le_rfl,
        Function.update_self]
      rfl

theorem loopDigits_spec {vs us qs : Space} {v u n m k : ℕ} (hn : n = k + 2)
    (hm : u + m + n = 4) (hv : v + n < 5) (h1 : 0 < (vs (v + 1)).toNat)
    (hW : val us 0 (u + n) < val vs (v + 1) n) (hq : val qs 0 (u + n) = 0) :
    ∃ us' qs', loopDigits vs v u n m (vs (v + 1)).toNat (vs (v + 2)).toNat (u + n) us qs =
        some (us', qs') ∧
      val us' 0 5 = val us 0 5 % val vs (v + 1) n ∧ val qs' 0 5 = val us 0 5 / val vs (v + 1) n := by
  have hVpos : 0 < val vs (v + 1) n := (Nat.zero_le _).trans_lt hW
  have hVlt := val_lt vs (v + 1) n
  obtain ⟨⟨us', qs'⟩, hrun, -, hr, hd⟩ := foldlM_range (n := m + 1) (s := (us, qs))
    (f := fun s j => do
      let d ← quotientDigit vs v u n (vs (v + 1)).toNat (vs (v + 2)).toNat j s.1
      return (d.1, ← put s.2 (u + n + j) d.2))
    (I := fun j s => (∀ i, u + n + j ≤ i → s.1 i = us i) ∧
      val s.1 0 (u + n + j) = val us 0 (u + n + j) % val vs (v + 1) n ∧
      val s.2 0 (u + n + j) = val us 0 (u + n + j) / val vs (v + 1) n)
    (by
      rintro j ⟨us₁, qs₁⟩ hj ⟨hsame, hr, hd⟩
      dsimp only at hsame hr hd
      have hrest : val us₁ 0 (u + j + n) < val vs (v + 1) n := by
        rw [show u + j + n = u + n + j by omega, hr]
        exact Nat.mod_lt _ hVpos
      -- the digits above the window are zero
      obtain ⟨hzero, hwin⟩ := val_of_lt (hrest.trans hVlt)
      rw [Nat.zero_add] at hwin
      obtain ⟨us₂, hdig, hsame₂, hval₂⟩ :=
        quotientDigit_spec hn (show u + (n + j) < 5 by omega) hv h1 (hwin ▸ hrest)
      have hwindow : val us₁ (u + j) (n + 1) =
          val us 0 (u + n + j) % val vs (v + 1) n * 65536 + (us (u + n + j)).toNat := by
        rw [val_succ, ← hwin, show u + j + n = u + n + j by omega, hr, hsame _ le_rfl]
      have hquot : val us₁ (u + j) (n + 1) / val vs (v + 1) n < 65536 := by
        rw [hwindow]
        exact quotient_digit_lt hVpos (Nat.mod_lt _ hVpos) (digit_lt us _)
      refine ⟨(us₂, Function.update qs₁ (u + n + j)
        (UInt16.ofNat (val us₁ (u + j) (n + 1) / val vs (v + 1) n))), ?_, fun i hi => ?_, ?_, ?_⟩
      · simp [hdig, put_eq (show u + n + j < 5 by omega)]
      · exact (hsame₂ i (by omega)).trans (hsame i (by omega))
      · have hlong : val us₂ 0 (u + j + (n + 1)) = val us₂ (u + j) (n + 1) := by
          have hz : val us₂ 0 (u + j) = 0 :=
            (val_congr fun i _ hi => hsame₂ i (.inl (by omega))).trans hzero
          rw [val_add, hz, Nat.zero_mul, Nat.zero_add, Nat.zero_add]
        rw [show u + n + (j + 1) = u + j + (n + 1) by omega, hlong, hval₂, hwindow, ← mod_step,
          show u + j + (n + 1) = u + n + j + 1 by omega, val_succ us, Nat.zero_add]
      · have hkeep : val (Function.update qs₁ (u + n + j)
            (UInt16.ofNat (val us₁ (u + j) (n + 1) / val vs (v + 1) n))) 0 (u + n + j) =
            val qs₁ 0 (u + n + j) := val_put (by omega)
        dsimp only
        rw [show u + n + (j + 1) = u + n + j + 1 by omega, val_succ us, val_succ, hkeep,
          Nat.zero_add, Function.update_self, ofNat_digit hquot, hd, hwindow, ← div_step hVpos])
    ⟨fun _ _ => rfl, by rw [Nat.add_zero, Nat.mod_eq_of_lt hW],
      by rw [Nat.add_zero, hq, Nat.div_eq_of_lt hW]⟩
  rw [show u + n + (m + 1) = 5 by omega] at hr hd
  exact ⟨us', qs', hrun, hr, hd⟩

theorem shift_right_digit {M x d : ℕ} (hd : d ≤ 16) (hx : x < 65536) :
    x >>> d ||| LHALF (u_int ((M % 65536) <<< (16 - d))) =
        M % 2 ^ d * 2 ^ (16 - d) + x / 2 ^ d ∧
      M % 2 ^ d * 2 ^ (16 - d) + x / 2 ^ d < 65536 ∧
      (M * 65536 + x) / 2 ^ d = M / 2 ^ d * 65536 + (M % 2 ^ d * 2 ^ (16 - d) + x / 2 ^ d) := by
  have hpow : 65536 = 2 ^ d * 2 ^ (16 - d) := by
    rw [← pow_add, Nat.add_sub_cancel' hd]
    norm_num
  have hlow : x / 2 ^ d < 2 ^ (16 - d) := by
    rw [Nat.div_lt_iff_lt_mul (by positivity), Nat.mul_comm, ← hpow]
    exact hx
  have hle : 2 ^ (16 - d) ≤ 2 ^ 16 := Nat.pow_le_pow_right (by omega) (by omega)
  have hshift : M % 65536 * 2 ^ (16 - d) < 2 ^ 32 := by
    have hM : M % 65536 < 65536 := Nat.mod_lt _ (by norm_num)
    calc M % 65536 * 2 ^ (16 - d) < 65536 * 2 ^ (16 - d) :=
          Nat.mul_lt_mul_of_pos_right hM (by positivity)
      _ ≤ 65536 * 2 ^ 16 := Nat.mul_le_mul_left _ hle
      _ = 2 ^ 32 := by norm_num
  have hmod : M % 65536 * 2 ^ (16 - d) % 65536 = M % 2 ^ d * 2 ^ (16 - d) := by
    conv_lhs => rw [hpow, Nat.mul_mod_mul_right]
    rw [Nat.mod_mod_of_dvd _ (Dvd.intro _ rfl)]
  refine ⟨?_, ?_, ?_⟩
  · rw [Nat.shiftLeft_eq, u_int_of_lt hshift, LHALF_eq, hmod, Nat.shiftRight_eq_div_pow,
      Nat.or_comm, or_eq_add hlow]
  · have htop := Nat.mul_le_mul_right (2 ^ (16 - d))
      (show M % 2 ^ d + 1 ≤ 2 ^ d from Nat.mod_lt _ (by positivity))
    rw [Nat.add_mul, Nat.one_mul, ← hpow] at htop
    omega
  · have hsplit : M * 65536 + x =
        2 ^ d * (M / 2 ^ d * 65536 + M % 2 ^ d * 2 ^ (16 - d)) + x := by
      have hM := Nat.div_add_mod M (2 ^ d)
      calc M * 65536 + x = (2 ^ d * (M / 2 ^ d) + M % 2 ^ d) * 65536 + x := by rw [hM]
        _ = 2 ^ d * (M / 2 ^ d) * 65536 + M % 2 ^ d * (2 ^ d * 2 ^ (16 - d)) + x := by
          rw [← hpow, Nat.add_mul]
        _ = _ := by ring
    rw [hsplit, Nat.mul_add_div (by positivity), Nat.add_assoc]

/-- A shift to the right divides the number. The bits that come in from the digit above
are counted with it. -/
theorem shiftBack_spec {u m d : ℕ} (hd : d ≤ 16) : ∀ (k : ℕ) (us : Space),
    u + (m + k) < 5 → ∃ us', shiftBack u m d k us = some us' ∧
      (∀ i, i ≤ u + m ∨ u + m + k < i → us' i = us i) ∧
      val us' (u + m + 1) k + (us (u + m)).toNat / 2 ^ d * 65536 ^ k =
        val us (u + m) (k + 1) / 2 ^ d := by
  intro k
  induction k with
  | zero => intro us _; exact ⟨us, rfl, fun _ _ => rfl, by simp [val, num]⟩
  | succ k ih =>
    intro us hu
    have hlast : val us (u + m) (k + 1) % 65536 = (us (u + (m + k))).toNat := by
      have := digit_lt us (u + (m + k))
      rw [val_succ, Nat.add_assoc u m k]
      omega
    obtain ⟨hor, hlt, hdiv⟩ := shift_right_digit (M := val us (u + m) (k + 1)) hd
      (digit_lt us (u + (m + (k + 1))))
    rw [hlast] at hor
    set x := val us (u + m) (k + 1) % 2 ^ d * 2 ^ (16 - d) + (us (u + (m + (k + 1)))).toNat / 2 ^ d
    obtain ⟨us', hrun, hsame, hval⟩ :=
      ih (Function.update us (u + (m + (k + 1))) (UInt16.ofNat x)) (by omega)
    have hkeep : val (Function.update us (u + (m + (k + 1))) (UInt16.ofNat x)) (u + m) (k + 1) =
        val us (u + m) (k + 1) := val_put (by omega)
    refine ⟨us', ?_, fun i hi => ?_, ?_⟩
    · rw [shiftBack, get_eq hu, get_eq (show u + (m + k) < 5 by omega)]
      simp only [Option.bind_eq_bind, Option.bind_some, put_eq hu, hor]
      exact hrun
    · rw [hsame i (by omega), Function.update_of_ne (by omega)]
    · have hlow : (us' (u + m + 1 + k)).toNat = x := by
        rw [hsame _ (by omega), show u + m + 1 + k = u + (m + (k + 1)) by omega,
          Function.update_self, ofNat_digit hlt]
      rw [hkeep, Function.update_of_ne (by omega)] at hval
      rw [val_succ us, show u + m + (k + 1) = u + (m + (k + 1)) by omega, hdiv, ← hval, val_succ,
        hlow, pow_succ]
      ring

theorem remainder_eq {us : Space} {u m n d r : ℕ} (hd : d ≤ 16) (hm : u + m + n = 4)
    (hval : val us 0 5 = r * 2 ^ d) (hr : r * 2 ^ d < 65536 ^ n) (hr4 : r < 65536 ^ 4) :
    remainder us u m n d = some (UInt64.ofNat r) := by
  by_cases h0 : d = 0
  · subst h0
    rw [pow_zero, Nat.mul_one] at hval
    rw [remainder, if_neg (by simp)]
    exact combined_of_val hval hr4
  have hfive : val us 0 5 = val us 0 (u + m + 1 + n) := by congr 1; omega
  rw [hfive] at hval
  obtain ⟨hzero, hlow⟩ := val_of_lt (hval ▸ hr)
  rw [Nat.zero_add] at hlow
  have htop : (us (u + m)).toNat = 0 := val_eq_zero hzero (by omega) (by omega)
  obtain ⟨us', hrun, hsame, hv⟩ := shiftBack_spec (u := u) (m := m) hd n us (by omega)
  rw [val_succ_left, htop, Nat.zero_mul, Nat.zero_add, ← hlow, hval,
    Nat.mul_div_cancel _ (by positivity), Nat.zero_div, Nat.zero_mul, Nat.add_zero] at hv
  have hhead : val (Function.update us' (u + m) (UInt16.ofNat 0)) 0 (u + m + 1) = 0 := by
    refine val_zeros fun i _ hi => ?_
    by_cases he : i = u + m
    · rw [he, Function.update_self]
      rfl
    · rw [Function.update_of_ne he, hsame i (by omega)]
      exact val_eq_zero hzero (by omega) (by omega)
  have htail : val (Function.update us' (u + m) (UInt16.ofNat 0)) (u + m + 1) n =
      val us' (u + m + 1) n := val_put (by omega)
  have hall : val (Function.update us' (u + m) (UInt16.ofNat 0)) 0 5 = r := by
    rw [show 5 = u + m + 1 + n by omega, val_add, hhead, Nat.zero_mul, Nat.zero_add, Nat.zero_add,
      htail, hv]
  rw [remainder, if_pos h0, hrun]
  simp only [Option.bind_eq_bind, Option.bind_some, put_eq (show u + m < 5 by omega)]
  exact combined_of_val hall hr4

theorem normalize_spec {a : Space} {p len d : ℕ} (hlen : p + len < 5) (hd : d < 16)
    (htop : (a p).toNat * 2 ^ d < 65536) :
    ∃ a', normalize a p len d = some a' ∧ (∀ i, i < p → a' i = a i) ∧
      val a' p (len + 1) = val a p (len + 1) * 2 ^ d := by
  rw [normalize]
  split_ifs with h0
  · exact shl_spec hlen hd htop
  · obtain rfl : d = 0 := by omega
    exact ⟨a, rfl, fun _ _ => rfl, by simp⟩

theorem algorithmD_spec {us vs qs : Space} {v u n m : ℕ} (hn : 2 ≤ n) (hm : u + m + n = 4)
    (hv : v + n = 4) (h1 : (vs (v + 1)).toNat ≠ 0) (hz : val us 0 (u + 1) = 0)
    (hq : val qs 0 (4 - m) = 0) :
    ∃ d us₁ vs₁ us₂ qs₂, multiplier 17 (vs (v + 1)).toNat 0 = some d ∧ d < 16 ∧
      normalize us u (m + n) d = some us₁ ∧ normalize vs (v + 1) (n - 1) d = some vs₁ ∧
      loopDigits vs₁ v u n m (vs₁ (v + 1)).toNat (vs₁ (v + 2)).toNat (4 - m) us₁ qs =
        some (us₂, qs₂) ∧
      val qs₂ 0 5 = val us 0 5 / val vs (v + 1) n ∧
      val us₂ 0 5 = val us 0 5 % val vs (v + 1) n * 2 ^ d ∧
      val us 0 5 % val vs (v + 1) n * 2 ^ d < 65536 ^ n := by
  have hvB := digit_lt vs (v + 1)
  obtain ⟨d, hmul, hlo, hhi⟩ := multiplier_spec 16 (vs (v + 1)).toNat 0 (by omega) hvB (by omega)
  rw [Nat.zero_add] at hmul
  have hd : d < 16 := by
    by_contra hge
    have hpow : 2 ^ 16 ≤ 2 ^ d := Nat.pow_le_pow_right (by omega) (by omega)
    have := Nat.mul_le_mul (Nat.one_le_iff_ne_zero.mpr h1) hpow
    omega
  have hu0 : (us u).toNat = 0 := val_eq_zero hz (by omega) (by omega)
  obtain ⟨us₁, hus₁, hsame, hval₁⟩ := normalize_spec (show u + (m + n) < 5 by omega) hd
    (show (us u).toNat * 2 ^ d < 65536 by rw [hu0]; omega)
  obtain ⟨vs₁, hvs₁, -, hval₂⟩ := normalize_spec (show v + 1 + (n - 1) < 5 by omega) hd hhi
  rw [show n - 1 + 1 = n by omega] at hval₂
  set V := val vs (v + 1) n with hV
  have hzu : val us 0 u = 0 := val_zeros fun i hi hlt => val_eq_zero hz hi (by omega)
  have hfive : ∀ a, val a 0 u = 0 → val a 0 5 = val a u (m + n + 1) := by
    intro a ha
    rw [show 5 = u + (m + n + 1) by omega, val_add, ha, Nat.zero_mul, Nat.zero_add, Nat.zero_add]
  have hzu₁ : val us₁ 0 u = 0 := (val_congr fun i _ hi => hsame i (by omega)).trans hzu
  have hU : val us₁ 0 5 = val us 0 5 * 2 ^ d := by rw [hfive us₁ hzu₁, hfive us hzu, hval₁]
  have hVlow : 65536 ^ (n - 1) ≤ V := by
    have hsplit := val_succ_left vs (v + 1) (n - 1)
    have hmul := Nat.mul_le_mul_right (65536 ^ (n - 1)) (Nat.one_le_iff_ne_zero.mpr h1)
    rw [show n - 1 + 1 = n by omega, ← hV] at hsplit
    omega
  have hVpos : 0 < V := (Nat.pow_pos (by norm_num)).trans_le hVlow
  have hlead : (vs₁ (v + 1)).toNat ≠ 0 := by
    intro h0
    have hsplit := val_succ_left vs₁ (v + 1) (n - 1)
    have hrest := val_lt vs₁ (v + 1 + 1) (n - 1)
    have hgrow := Nat.le_mul_of_pos_right V (show 0 < 2 ^ d by positivity)
    rw [show n - 1 + 1 = n by omega, h0, Nat.zero_mul, Nat.zero_add] at hsplit
    omega
  -- the digits before the first window are fewer than those of the divisor
  have hfirst : val us₁ 0 (u + n) < V * 2 ^ d := by
    have hUlt : val us 0 5 < 65536 ^ (m + n) := by
      rw [show 5 = u + 1 + (m + n) by omega, val_add, hz, Nat.zero_mul, Nat.zero_add]
      exact val_lt us _ _
    have hsplit : val us₁ 0 (u + n) * 65536 ^ (m + 1) ≤ val us 0 5 * 2 ^ d := by
      have hadd := val_add us₁ 0 (u + n) (m + 1)
      rw [show u + n + (m + 1) = 5 by omega, hU] at hadd
      exact hadd ▸ Nat.le_add_right _ _
    have hlt : val us₁ 0 (u + n) * 65536 ^ (m + 1) < 65536 ^ (n - 1) * 2 ^ d * 65536 ^ (m + 1) := by
      refine hsplit.trans_lt ((Nat.mul_lt_mul_of_pos_right hUlt (by positivity)).trans_eq ?_)
      rw [show m + n = n - 1 + (m + 1) by omega, pow_add]
      ring
    exact (Nat.lt_of_mul_lt_mul_right hlt).trans_le (Nat.mul_le_mul_right _ hVlow)
  obtain ⟨us₂, qs₂, hrun, hr, hdq⟩ := loopDigits_spec
    (show n = n - 2 + 2 by omega) hm (show v + n < 5 by omega) (Nat.pos_of_ne_zero hlead)
    (by rw [hval₂]; exact hfirst) (by rw [show u + n = 4 - m by omega]; exact hq)
  have hVlt : V * 2 ^ d < 65536 ^ n := by rw [← hval₂]; exact val_lt vs₁ _ _
  rw [show u + n = 4 - m by omega] at hrun
  rw [hval₂, hU, Nat.mul_mod_mul_right] at hr
  rw [hval₂, hU, Nat.mul_div_mul_right _ _ (by positivity)] at hdq
  exact ⟨d, us₁, vs₁, us₂, qs₂, hmul, hd, hus₁, hvs₁, hrun, hdq, hr,
    (Nat.mul_lt_mul_of_pos_right (Nat.mod_lt _ hVpos) (by positivity)).trans hVlt⟩

theorem programD_spec {us vs : Space} {n v : ℕ} (qs : Space) (arq : Bool) (hn : 2 ≤ n)
    (hv : v + n = 4) (h1 : (vs (v + 1)).toNat ≠ 0) (h0 : (us 0).toNat = 0)
    (hle : val vs (v + 1) n ≤ val us 1 4) :
    programD us vs qs n v arq = some (UInt64.ofNat (val us 1 4 / val vs (v + 1) n),
      if arq then some (UInt64.ofNat (val us 1 4 % val vs (v + 1) n)) else none) := by
  have hlow : 65536 ^ (n - 1) ≤ val us 1 4 := by
    have hsplit := val_succ_left vs (v + 1) (n - 1)
    have hmul := Nat.mul_le_mul_right (65536 ^ (n - 1)) (Nat.one_le_iff_ne_zero.mpr h1)
    rw [show n - 1 + 1 = n by omega] at hsplit
    omega
  obtain ⟨m, u, hscan, hm, hz⟩ :=
    scanDividend_spec (show 1 ≤ n by omega) hlow (4 - n) 0 (by omega) rfl
  have hz0 : val us 0 (u + 1) = 0 := by rw [val_succ_left, h0, hz, Nat.zero_mul]
  have hfive : val us 0 5 = val us 1 4 := by
    rw [show 5 = 4 + 1 from rfl, val_succ_left, h0, Nat.zero_mul, Nat.zero_add]
  obtain ⟨qs₁, hqs₁, -, hq⟩ := zeroDigits_spec (4 - m) qs (by omega)
  obtain ⟨d, us₁, vs₁, us₂, qs₂, hmul, hd, hus₁, hvs₁, hrun, hquot, hrem, hlt⟩ :=
    algorithmD_spec hn hm hv h1 hz0 hq
  rw [hfive] at hquot hrem hlt
  have hU := val_lt us 1 4
  have hq4 := combined_of_val hquot ((Nat.div_le_self _ _).trans_lt hU)
  have hr4 := remainder_eq hd.le hm hrem hlt ((Nat.mod_le _ _).trans_lt hU)
  rw [programD, hscan]
  simp only [Option.bind_eq_bind, Option.bind_some, hqs₁, get_eq (show v + 1 < 5 by omega),
    get_eq (show v + 2 < 5 by omega), hmul, hus₁, hvs₁, hrun, hq4, hr4]
  cases arq <;> rfl

/-- For all numbers and whatever the work arrays hold at first. -/
theorem qdivrem_spec (us vs qs : Space) (uq vq : UInt64) (arq : Bool) (hv : vq ≠ 0) :
    qdivrem us vs qs uq vq arq = some (uq / vq, if arq then some (uq % vq) else none) := by
  by_cases hlt : uq < vq
  · have hnat := UInt64.lt_iff_toNat_lt.mp hlt
    have hdiv : uq / vq = 0 := by
      rw [← UInt64.toNat_inj, UInt64.toNat_div, Nat.div_eq_of_lt hnat]
      rfl
    have hmod : uq % vq = uq := by
      rw [← UInt64.toNat_inj, UInt64.toNat_mod, Nat.mod_eq_of_lt hnat]
    rw [qdivrem, if_neg hv, if_pos hlt, hdiv, hmod]
  have hv0 : vq.toNat ≠ 0 := fun h => hv (UInt64.toNat_inj.mp h)
  have hle : vq.toNat ≤ uq.toNat := Nat.le_of_not_lt hlt
  have hquot : UInt64.ofNat (uq.toNat / vq.toNat) = uq / vq := by
    rw [← UInt64.toNat_div, UInt64.ofNat_toNat]
  have hrem : UInt64.ofNat (uq.toNat % vq.toNat) = uq % vq := by
    rw [← UInt64.toNat_mod, UInt64.ofNat_toNat]
  obtain ⟨us₁, hus₁, hus0, hU⟩ := digits_spec (Function.update us 0 (UInt16.ofNat 0)) uq
  obtain ⟨vs₁, hvs₁, -, hV⟩ := digits_spec vs vq
  rw [qdivrem, if_neg hv, if_neg hlt, put_eq (show 0 < 5 by omega)]
  obtain ⟨n, v, hscan, ⟨rfl, rfl, hshort⟩ | ⟨hn, hvn, h1, hlong⟩⟩ := scanDivisor_spec vs₁
  · have hdigit := shortDivision_spec us₁ (show 0 < (vs₁ 4).toNat by omega) (digit_lt vs₁ 4)
    rw [hU, ← hshort, hV, hquot, hrem] at hdigit
    have ht : (vs₁ (2 + 2)).toNat = vq.toNat := by rw [← hV, hshort]
    simp only [Option.bind_eq_bind, Option.bind_some, hus₁, hvs₁, hscan,
      get_eq (show 2 + 2 < 5 by omega), ht, hdigit, if_true]
    rfl
  · have h0 : (us₁ 0).toNat = 0 := by
      rw [hus0, Function.update_self]
      rfl
    have hD := programD_spec qs arq hn hvn h1 h0 (by omega)
    rw [hU, ← hlong, hV, hquot, hrem] at hD
    simp only [Option.bind_eq_bind, Option.bind_some, hus₁, hvs₁, hscan]
    rw [if_neg (by omega), hD]

/-- A division whose first digit is estimated one too large. -/
theorem qdivrem_spec_addBack : (0x8000000143FA : UInt64) ≠ 0 ∧
    qdivrem (fun _ => 7) (fun _ => 7) (fun _ => 7) 0x80000001012344EE 0x8000000143FA true =
      some (0x80000001012344EE / 0x8000000143FA, some (0x80000001012344EE % 0x8000000143FA)) :=
  ⟨by decide, qdivrem_spec _ _ _ _ _ true (by decide)⟩

end OpenbsdKernel.Qdivrem
