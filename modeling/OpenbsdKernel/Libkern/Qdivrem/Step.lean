import OpenbsdKernel.Libkern.Qdivrem.Normalize

/-!
# One digit of the quotient

The estimate of D3 is the quotient of the three leading digits of the window by the two
leading digits of the divisor, at most B - 1. Multiplying and subtracting it leaves the
remainder, or a borrow when the estimate was one too large; then the divisor is added back.
-/
namespace OpenbsdKernel.Qdivrem

open LongDivision

/-- What is left over the two digits is enough for the third. -/
theorem le_of_wide {q v2 r : ℕ} (v1 u2 : ℕ) (hq : q < 65536) (hv2 : v2 < 65536) (hr : 65536 ≤ r) :
    q * (v1 * 65536 + v2) ≤ (q * v1 + r) * 65536 + u2 := by
  have hsmall : q * v2 ≤ 65535 * 65536 := Nat.mul_le_mul (by omega) (by omega)
  nlinarith

/-- The loop corrects to what the leading digits allow. -/
theorem correct_spec {v1 v2 uj2 u3 : ℕ} (hv1 : 0 < v1) (hv1B : v1 < 65536) (hv2 : v2 < 65536)
    (hu2 : uj2 < 65536) : ∀ qhat rhat, qhat < 65536 → rhat < 65536 →
      (qhat * v1 + rhat) * 65536 + uj2 = u3 →
      correct v1 v2 uj2 qhat rhat = min qhat (u3 / (v1 * 65536 + v2)) := by
  have hv : 0 < v1 * 65536 + v2 := by omega
  intro qhat
  induction qhat with
  | zero => intro rhat _ _ _; simp [correct]
  | succ q ih =>
    intro rhat hq hr hu3
    have hprod : v2 * (q + 1) < 2 ^ 32 :=
      (Nat.mul_le_mul (Nat.le_of_lt_succ hv2) (Nat.le_of_lt_succ hq)).trans_lt (by norm_num)
    have hexp : (q + 1) * (v1 * 65536 + v2) = (q + 1) * v1 * 65536 + v2 * (q + 1) := by ring
    rw [correct, u_int_of_lt hprod, COMBINE_eq hr hu2, u_int_of_lt (by omega), B_eq]
    by_cases htest : v2 * (q + 1) > rhat * 65536 + uj2
    · have hlt : u3 / (v1 * 65536 + v2) < q + 1 := by
        rw [Nat.div_lt_iff_lt_mul hv, ← hu3, hexp]
        linarith
      rw [if_pos htest]
      dsimp only
      by_cases hwide : rhat + v1 ≥ 65536
      · have hle : q ≤ u3 / (v1 * 65536 + v2) := by
          rw [Nat.le_div_iff_mul_le hv, ← hu3]
          calc q * (v1 * 65536 + v2) ≤ (q * v1 + (rhat + v1)) * 65536 + uj2 :=
                le_of_wide v1 uj2 (by omega) hv2 hwide
            _ = ((q + 1) * v1 + rhat) * 65536 + uj2 := by ring
        rw [if_pos hwide, Nat.le_antisymm (Nat.le_of_lt_succ hlt) hle, Nat.min_eq_right q.le_succ]
      · rw [if_neg hwide, ih (rhat + v1) (by omega) (by omega) (by rw [← hu3]; ring),
          Nat.min_eq_right (Nat.le_of_lt_succ hlt), Nat.min_eq_right hlt.le]
    · have hle : q + 1 ≤ u3 / (v1 * 65536 + v2) := by
        rw [Nat.le_div_iff_mul_le hv, ← hu3, hexp]
        linarith
      rw [if_neg htest, Nat.min_eq_left hle]

theorem estimate_spec {v1 v2 uj0 uj1 uj2 : ℕ} (hv1 : 0 < v1) (hv1B : v1 < 65536)
    (hv2 : v2 < 65536) (hu0 : uj0 ≤ v1) (hu1 : uj1 < 65536) (hu2 : uj2 < 65536) :
    estimate v1 v2 uj0 uj1 uj2 =
      min 65535 (((uj0 * 65536 + uj1) * 65536 + uj2) / (v1 * 65536 + v2)) := by
  have hv : 0 < v1 * 65536 + v2 := by omega
  have hB1 : B - 1 = 65535 := rfl
  rw [estimate, hB1, B_eq]
  by_cases heq : uj0 = v1
  · subst heq
    rw [if_pos rfl, u_int_of_lt (by omega)]
    dsimp only
    by_cases hwide : uj1 + uj0 ≥ 65536
    · have hle : 65535 ≤ ((uj0 * 65536 + uj1) * 65536 + uj2) / (uj0 * 65536 + v2) := by
        rw [Nat.le_div_iff_mul_le hv]
        calc 65535 * (uj0 * 65536 + v2) ≤ (65535 * uj0 + (uj1 + uj0)) * 65536 + uj2 :=
              le_of_wide uj0 uj2 (by omega) hv2 hwide
          _ = (uj0 * 65536 + uj1) * 65536 + uj2 := by ring
      rw [if_pos hwide, Nat.min_eq_left hle]
    · rw [if_neg hwide]
      exact correct_spec hv1 hv1B hv2 hu2 65535 (uj1 + uj0) (by omega) (by omega) (by omega)
  · have hnn : uj0 * 65536 + uj1 < 65536 * v1 := by omega
    have hq : (uj0 * 65536 + uj1) / v1 < 65536 := by
      rwa [Nat.div_lt_iff_lt_mul hv1]
    have hr : (uj0 * 65536 + uj1) % v1 < 65536 := (Nat.mod_lt _ hv1).trans hv1B
    have hle : ((uj0 * 65536 + uj1) * 65536 + uj2) / (v1 * 65536 + v2) ≤
        (uj0 * 65536 + uj1) / v1 := by
      have h := le_estimate (k := 1) (u := uj0 * 65536 + uj1) (s := v2) hv1
        (show uj2 < 65536 ^ 1 by omega)
      rwa [pow_one] at h
    have hdm := Nat.div_add_mod (uj0 * 65536 + uj1) v1
    rw [if_neg heq, COMBINE_eq (by omega) hu1]
    dsimp only
    rw [correct_spec hv1 hv1B hv2 hu2 _ _ hq hr (by rw [Nat.mul_comm _ v1, hdm]),
      Nat.min_eq_right hle, Nat.min_eq_right (hle.trans (Nat.le_of_lt_succ hq))]

theorem minus_eq {a b : ℕ} (ha : a < 2 ^ 32) (hb : b < 2 ^ 32) :
    minus a b = if b ≤ a then a - b else a + 2 ^ 32 - b := by
  rw [minus, u_int]
  split_ifs <;> omega

theorem subtract_digit {x y q t : ℕ} (hx : x < 65536) (hy : y < 65536) (hq : q < 65536)
    (ht : t < 65536) :
    let w := minus (minus x (u_int (y * q))) t
    (minus B (HHALF w) &&& (B - 1)) < 65536 ∧
      w % 65536 + y * q + t = x + (minus B (HHALF w) &&& (B - 1)) * 65536 := by
  intro w
  have hyq : y * q ≤ 65535 * 65535 := Nat.mul_le_mul (by omega) (by omega)
  have hborrow : (minus B (HHALF w) &&& (B - 1)) = (65536 - w / 65536) % 65536 := by
    have hw : w < 2 ^ 32 := Nat.mod_lt _ (by norm_num)
    have hdiv : w / 65536 < 65536 := by omega
    rw [show (minus B (HHALF w) &&& (B - 1)) = LHALF (minus B (HHALF w)) from rfl, LHALF_eq,
      HHALF_eq, B_eq, minus_eq (by norm_num) (by omega), if_pos (by omega)]
  have hw : w = if y * q + t ≤ x then x - (y * q + t) else x + 2 ^ 32 - (y * q + t) := by
    rw [show w = minus (minus x (u_int (y * q))) t from rfl, u_int_of_lt (by omega)]
    rw [minus, minus, u_int, u_int]
    split_ifs <;> omega
  rw [hborrow]
  refine ⟨Nat.mod_lt _ (by norm_num), ?_⟩
  split_ifs at hw <;> omega

theorem val_put {a : Space} {p n i : ℕ} {x : UInt16} (h : i < p ∨ p + n ≤ i) :
    val (Function.update a i x) p n = val a p n :=
  val_congr fun j hj hn => Function.update_of_ne (by omega) _ _

/-- What is left of the window `x * P + w` after `q` times the divisor: the remainder, or
with a borrow the remainder less the divisor. -/
theorem window_rest {x t w w' P V q : ℕ} (hV : 0 < V) (hw' : w' < P)
    (hsub : w' + q * V = w + t * P) (hlo : (x * P + w) / V ≤ q) (hhi : q ≤ (x * P + w) / V + 1) :
    (t ≤ x → q = (x * P + w) / V ∧ (x - t) * P + w' = (x * P + w) % V) ∧
      (x < t → q = (x * P + w) / V + 1 ∧ w' + V = (x * P + w) % V + (t - x) * P) := by
  have hdm := Nat.div_add_mod (x * P + w) V
  set d := (x * P + w) / V
  set r := (x * P + w) % V
  have hr : r < V := Nat.mod_lt _ hV
  constructor
  · intro hle
    obtain ⟨e, rfl⟩ := Nat.exists_eq_add_of_le hle
    have heq : e * P + w' + q * V = V * d + r := by linear_combination hsub - hdm
    have hqd : q = d := by
      by_contra hne
      have hq1 : q = d + 1 := by omega
      rw [hq1] at heq
      nlinarith
    rw [hqd] at heq
    refine ⟨hqd, ?_⟩
    rw [Nat.add_sub_cancel_left]
    linear_combination heq
  · intro hlt
    obtain ⟨e, rfl⟩ := Nat.exists_eq_add_of_lt hlt
    have heq : w' + q * V = V * d + r + (e + 1) * P := by linear_combination hsub - hdm
    have hq1 : q = d + 1 := by
      by_contra hne
      have hqd : q = d := by omega
      rw [hqd] at heq
      nlinarith
    rw [hq1] at heq
    refine ⟨hq1, ?_⟩
    rw [show x + e + 1 - x = e + 1 by omega]
    linear_combination heq

/-- A carry against a borrow, both out of a number below `P`. -/
theorem carry_one {P x r c e : ℕ} (hx : x < P) (hc : c ≤ 1)
    (h : x + c * P = r + (e + 1) * P) : c = 1 ∧ e = 0 ∧ x = r := by
  rw [Nat.add_mul, Nat.one_mul] at h
  obtain rfl | rfl : c = 0 ∨ c = 1 := by omega
  · omega
  · cases e with
    | zero => omega
    | succ e =>
      rw [Nat.add_mul] at h
      omega

section Window
variable {vs : Space} {v u j n : ℕ}

theorem multiplySubtract_spec {q : ℕ} (hq : q < 65536) : ∀ (i : ℕ) (us : Space) (t : ℕ),
    u + (i + j) < 5 → v + i < 5 → t < 65536 →
    ∃ us' t', multiplySubtract vs v u j q i us t = some (us', t') ∧ t' < 65536 ∧
      (∀ k, k ≤ u + j ∨ u + j + i < k → us' k = us k) ∧
      val us' (u + j + 1) i + q * val vs (v + 1) i + t =
        val us (u + j + 1) i + t' * 65536 ^ i := by
  intro i
  induction i with
  | zero =>
    intro us t _ _ ht
    exact ⟨us, t, rfl, ht, fun _ _ => rfl, by simp [val_zero]⟩
  | succ i ih =>
    intro us t hu hv ht
    have hpos : u + j + 1 + i = u + (i + 1 + j) := by omega
    obtain ⟨hlt, heq⟩ := subtract_digit (digit_lt us (u + (i + 1 + j)))
      (digit_lt vs (v + (i + 1))) hq ht
    set w := minus (minus (us (u + (i + 1 + j))).toNat (u_int ((vs (v + (i + 1))).toNat * q))) t
      with hw
    set us₁ := Function.update us (u + (i + 1 + j)) (UInt16.ofNat (LHALF w)) with hus
    obtain ⟨us', t', hrun, ht', hsame, hval⟩ :=
      ih us₁ (minus B (HHALF w) &&& (B - 1)) (by omega) (by omega) hlt
    refine ⟨us', t', ?_, ht', fun k hk => ?_, ?_⟩
    · rw [multiplySubtract, get_eq hu, get_eq hv]
      simp [put_eq hu, ← hw, ← hus, hrun]
    · rw [hsame k (by omega), hus, Function.update_of_ne (by omega)]
    · have hlow : (us' (u + j + 1 + i)).toNat = w % 65536 := by
        rw [hsame _ (by omega), hus, hpos, Function.update_self, LHALF_eq, ofNat_digit (by omega)]
      have hhigh : val us₁ (u + j + 1) i = val us (u + j + 1) i := val_put (by omega)
      rw [hhigh] at hval
      rw [val_succ, val_succ, val_succ, hlow, hpos, show v + 1 + i = v + (i + 1) by omega, pow_succ]
      linear_combination 65536 * hval + heq

theorem addBack_spec : ∀ (i : ℕ) (us : Space) (t : ℕ),
    u + (i + j) < 5 → v + i < 5 → t ≤ 1 →
    ∃ us' t', addBack vs v u j i us t = some (us', t') ∧ t' ≤ 1 ∧
      (∀ k, k ≤ u + j ∨ u + j + i < k → us' k = us k) ∧
      val us' (u + j + 1) i + t' * 65536 ^ i =
        val us (u + j + 1) i + val vs (v + 1) i + t := by
  intro i
  induction i with
  | zero =>
    intro us t _ _ ht
    exact ⟨us, t, rfl, ht, fun _ _ => rfl, by simp [val_zero]⟩
  | succ i ih =>
    intro us t hu hv ht
    have hpos : u + j + 1 + i = u + (i + 1 + j) := by omega
    have hx := digit_lt us (u + (i + 1 + j))
    have hy := digit_lt vs (v + (i + 1))
    set w := t + ((us (u + (i + 1 + j))).toNat + (vs (v + (i + 1))).toNat) with hw
    set us₁ := Function.update us (u + (i + 1 + j)) (UInt16.ofNat (LHALF w)) with hus
    obtain ⟨us', t', hrun, ht', hsame, hval⟩ :=
      ih us₁ (HHALF w) (by omega) (by omega) (by rw [HHALF_eq]; omega)
    refine ⟨us', t', ?_, ht', fun k hk => ?_, ?_⟩
    · rw [addBack, get_eq hu, get_eq hv]
      simp [put_eq hu, ← hw, u_int_of_lt (show w < 2 ^ 32 by omega), ← hus, hrun]
    · rw [hsame k (by omega), hus, Function.update_of_ne (by omega)]
    · have hlow : (us' (u + j + 1 + i)).toNat = w % 65536 := by
        rw [hsame _ (by omega), hus, hpos, Function.update_self, LHALF_eq, ofNat_digit (by omega)]
      have hhigh : val us₁ (u + j + 1) i = val us (u + j + 1) i := val_put (by omega)
      have hsplit := Nat.div_add_mod w 65536
      rw [hhigh, HHALF_eq] at hval
      rw [val_succ, val_succ, val_succ, hlow, hpos, show v + 1 + i = v + (i + 1) by omega, pow_succ]
      linear_combination 65536 * hval + hsplit + hw

theorem estimate_window {us : Space} {p k : ℕ} (h1 : 0 < (vs (v + 1)).toNat)
    (hW : val us p (k + 2) < val vs (v + 1) (k + 2)) :
    ∃ qhat, estimate (vs (v + 1)).toNat (vs (v + 2)).toNat (us p).toNat (us (p + 1)).toNat
        (us (p + 2)).toNat = qhat ∧ qhat < 65536 ∧
      val us p (k + 3) / val vs (v + 1) (k + 2) ≤ qhat ∧
      qhat ≤ val us p (k + 3) / val vs (v + 1) (k + 2) + 1 := by
  have hV : val vs (v + 1) (k + 2) =
      ((vs (v + 1)).toNat * 65536 + (vs (v + 2)).toNat) * 65536 ^ k + val vs (v + 3) k := by
    rw [Nat.add_comm k 2, val_add]
    simp [val, num]
  have hU : val us p (k + 3) = (((us p).toNat * 65536 + (us (p + 1)).toNat) * 65536 +
      (us (p + 2)).toNat) * 65536 ^ k + val us (p + 3) k := by
    rw [Nat.add_comm k 3, val_add]
    simp [val, num]
  have htop : (us p).toNat ≤ (vs (v + 1)).toNat := by
    by_contra hlt
    rw [show k + 2 = k + 1 + 1 from rfl, val_succ_left us, val_succ_left vs] at hW
    have hmul := Nat.mul_le_mul_right (65536 ^ (k + 1)) (show (vs (v + 1)).toNat + 1 ≤ (us p).toNat by omega)
    have hrest := val_lt vs (v + 1 + 1) (k + 1)
    rw [Nat.add_mul, Nat.one_mul] at hmul
    omega
  have hVpos : 0 < val vs (v + 1) (k + 2) := (Nat.zero_le _).trans_lt hW
  have hq : val us p (k + 3) / val vs (v + 1) (k + 2) < 65536 :=
    quotient_digit_lt hVpos hW (digit_lt us _)
  refine ⟨_, rfl, ?_⟩
  rw [estimate_spec h1 (digit_lt vs _) (digit_lt vs _) htop (digit_lt us _) (digit_lt us _)]
  rw [hU, hV] at hq ⊢
  have hv2 : 0 < (vs (v + 1)).toNat * 65536 + (vs (v + 2)).toNat := by omega
  refine ⟨(min_le_left _ _).trans_lt (by norm_num),
    le_min (Nat.le_of_lt_succ hq) (le_estimate hv2 (val_lt us _ _)), ?_⟩
  refine estimate_le ?_ (val_lt vs (v + 3) k) ?_
  · exact (Nat.le_div_iff_mul_le hv2).mp (min_le_right _ _)
  · have hfits := Nat.mul_le_mul_right (65536 ^ k) (show 65535 ≤
      (vs (v + 1)).toNat * 65536 + (vs (v + 2)).toNat by omega)
    exact (Nat.mul_le_mul_right _ (min_le_left _ _)).trans (hfits.trans (Nat.le_add_right _ _))

theorem quotientDigit_eq {us us₁ : Space} {v1 v2 qhat t w : ℕ} (hn : 2 ≤ n) (hu : u + (n + j) < 5)
    (hqhat : estimate v1 v2 (us (u + j)).toNat (us (u + j + 1)).toNat (us (u + j + 2)).toNat = qhat)
    (hsub : multiplySubtract vs v u j qhat n us 0 = some (us₁, t)) (htop : us₁ (u + j) = us (u + j))
    (hw : minus (us (u + j)).toNat t = w) :
    quotientDigit vs v u n v1 v2 j us =
      if HHALF w ≠ 0 then do
        let (us, t) ← addBack vs v u j n
          (Function.update us₁ (u + j) (UInt16.ofNat (LHALF w))) 0
        let us ← put us (u + j) (LHALF (u_int ((← get us (u + j)) + t)))
        return (us, qhat - 1)
      else some (Function.update us₁ (u + j) (UInt16.ofNat (LHALF w)), qhat) := by
  have hj : u + j < 5 := by omega
  rw [quotientDigit, get_eq hj, get_eq (show u + (j + 1) < 5 by omega),
    get_eq (show u + (j + 2) < 5 by omega)]
  simp [← Nat.add_assoc u j, hqhat, hsub, get_eq hj, htop, put_eq hj, hw]

theorem quotientDigit_spec {us : Space} {k : ℕ} (hn : n = k + 2) (hu : u + (n + j) < 5)
    (hv : v + n < 5) (h1 : 0 < (vs (v + 1)).toNat)
    (hW : val us (u + j) n < val vs (v + 1) n) :
    ∃ us', quotientDigit vs v u n (vs (v + 1)).toNat (vs (v + 2)).toNat j us =
        some (us', val us (u + j) (n + 1) / val vs (v + 1) n) ∧
      (∀ i, i < u + j ∨ u + j + n < i → us' i = us i) ∧
      val us' (u + j) (n + 1) = val us (u + j) (n + 1) % val vs (v + 1) n := by
  have hj : u + j < 5 := by omega
  have hest : ∃ qhat, estimate (vs (v + 1)).toNat (vs (v + 2)).toNat (us (u + j)).toNat
      (us (u + j + 1)).toNat (us (u + j + 2)).toNat = qhat ∧ qhat < 65536 ∧
      val us (u + j) (n + 1) / val vs (v + 1) n ≤ qhat ∧
      qhat ≤ val us (u + j) (n + 1) / val vs (v + 1) n + 1 := by
    subst hn
    exact estimate_window h1 hW
  obtain ⟨qhat, hqhat, hqlt, hqle, hqge⟩ := hest
  obtain ⟨us₁, t, hsub, htlt, hsame, hval⟩ : ∃ us' t',
      multiplySubtract vs v u j qhat n us 0 = some (us', t') ∧ t' < 65536 ∧
      (∀ i, i ≤ u + j ∨ u + j + n < i → us' i = us i) ∧
      val us' (u + j + 1) n + qhat * val vs (v + 1) n + 0 =
        val us (u + j + 1) n + t' * 65536 ^ n :=
    multiplySubtract_spec hqlt n us 0 hu hv (by omega)
  have heq := quotientDigit_eq (by omega) hu hqhat hsub (hsame _ (.inl le_rfl)) rfl
  rw [Nat.add_zero] at hval
  rw [val_succ_left us (u + j) n] at hqle hqge ⊢
  have hVpos : 0 < val vs (v + 1) n := (Nat.zero_le _).trans_lt hW
  have hx := digit_lt us (u + j)
  obtain ⟨hexact, hborrow⟩ := window_rest hVpos (val_lt us₁ (u + j + 1) n) hval hqle hqge
  generalize hw : minus (us (u + j)).toNat t = w at heq
  set us₂ := Function.update us₁ (u + j) (UInt16.ofNat (LHALF w)) with hus₂
  have hlow₂ : val us₂ (u + j + 1) n = val us₁ (u + j + 1) n := val_put (by omega)
  by_cases hle : t ≤ (us (u + j)).toNat
  · obtain ⟨hq, hrest⟩ := hexact hle
    rw [minus_eq (by omega) (by omega), if_pos hle] at hw
    refine ⟨us₂, ?_, fun i hi => ?_, ?_⟩
    · rw [heq, if_neg (by rw [HHALF_eq]; omega), hq]
    · rw [hus₂, Function.update_of_ne (by omega), hsame i (by omega)]
    · rw [val_succ_left, hlow₂, ← hrest, hus₂, Function.update_self, LHALF_eq,
        ofNat_digit (by omega), Nat.mod_eq_of_lt (by omega), hw]
  · obtain ⟨hq, hrest⟩ := hborrow (by omega)
    rw [minus_eq (by omega) (by omega), if_neg hle] at hw
    obtain ⟨us₃, c, hadd, hc, hsame₃, hval₃⟩ : ∃ us' t',
        addBack vs v u j n us₂ 0 = some (us', t') ∧ t' ≤ 1 ∧
        (∀ i, i ≤ u + j ∨ u + j + n < i → us' i = us₂ i) ∧
        val us' (u + j + 1) n + t' * 65536 ^ n =
          val us₂ (u + j + 1) n + val vs (v + 1) n + 0 :=
      addBack_spec n us₂ 0 hu hv (by omega)
    have htop₃ : (us₃ (u + j)).toNat = w % 65536 := by
      rw [hsame₃ _ (.inl le_rfl), hus₂, Function.update_self, LHALF_eq, ofNat_digit (by omega)]
    -- the carry undoes the borrow
    obtain ⟨e, he⟩ : ∃ e, t - (us (u + j)).toNat = e + 1 :=
      ⟨t - (us (u + j)).toNat - 1, by omega⟩
    rw [hlow₂, Nat.add_zero, hrest, he] at hval₃
    obtain ⟨rfl, rfl, hval₃'⟩ := carry_one (val_lt us₃ (u + j + 1) n) hc hval₃
    have hsum : LHALF (u_int ((us₃ (u + j)).toNat + 1)) = 0 := by
      rw [htop₃, LHALF_eq, u_int_of_lt (by omega)]
      omega
    refine ⟨Function.update us₃ (u + j) (UInt16.ofNat 0), ?_, fun i hi => ?_, ?_⟩
    · rw [heq, if_pos (by rw [HHALF_eq]; omega), hadd, hq]
      simp [get_eq hj, put_eq hj, hsum]
    · rw [Function.update_of_ne (by omega), hsame₃ i (by omega), hus₂,
        Function.update_of_ne (by omega), hsame i (by omega)]
    · have hkeep : val (Function.update us₃ (u + j) (UInt16.ofNat 0)) (u + j + 1) n =
          val us₃ (u + j + 1) n := val_put (by omega)
      rw [val_succ_left, hkeep, hval₃', Function.update_self, ofNat_digit (by omega), Nat.zero_mul,
        Nat.zero_add]

end Window

end OpenbsdKernel.Qdivrem
