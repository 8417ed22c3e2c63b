import Mathlib.Data.Nat.ModEq
import Mathlib.Tactic

/-!
# Rounding up to a residue

`alignUp x a s` is the least number at or above `x` that is congruent to `s`
modulo `a`. The machine computes the same thing for a power of two by adding
`a - 1` and masking with `-a`, up to a wrap at the end of the word.
-/
namespace OpenbsdKernel

/-- The least `n ≥ x` with `n ≡ s [MOD a]`. -/
def alignUp (x a s : ℕ) : ℕ := x + (s + (a - x % a)) % a

section AlignUp

variable {x y a s n : ℕ}

theorem le_alignUp (x a s : ℕ) : x ≤ alignUp x a s := Nat.le_add_right _ _

theorem alignUp_lt (ha : 0 < a) : alignUp x a s < x + a :=
  Nat.add_lt_add_left (Nat.mod_lt _ ha) x

theorem alignUp_modEq (ha : 0 < a) : alignUp x a s ≡ s [MOD a] := by
  have hx : x % a ≤ a := (Nat.mod_lt x ha).le
  have hsum : x % a + (s + (a - x % a)) = s + a := by omega
  calc alignUp x a s ≡ x % a + (s + (a - x % a)) [MOD a] :=
        Nat.ModEq.add (Nat.mod_modEq x a).symm (Nat.mod_modEq _ a)
    _ ≡ s [MOD a] := by
        rw [hsum]
        exact Nat.add_modEq_right

theorem eq_of_modEq_of_lt (h : x ≡ y [MOD a]) (h1 : x < y + a) (h2 : y < x + a) : x = y := by
  rcases Nat.le_total x y with hle | hle
  · have hd := (Nat.modEq_iff_dvd' hle).mp h
    have := Nat.eq_zero_of_dvd_of_lt hd (by omega)
    omega
  · have hd := (Nat.modEq_iff_dvd' hle).mp h.symm
    have := Nat.eq_zero_of_dvd_of_lt hd (by omega)
    omega

theorem le_of_modEq_of_lt (h : x ≡ y [MOD a]) (hlt : x < y + a) : x ≤ y := by
  by_contra hgt
  have := eq_of_modEq_of_lt h hlt (by omega)
  omega

theorem alignUp_le (ha : 0 < a) (hle : x ≤ n) (hn : n ≡ s [MOD a]) : alignUp x a s ≤ n := by
  by_contra hlt
  have hn' : n ≡ alignUp x a s [MOD a] := hn.trans (alignUp_modEq ha).symm
  have := alignUp_lt (x := x) (s := s) ha
  have := eq_of_modEq_of_lt hn' (by omega) (by omega)
  omega

theorem alignUp_mono (ha : 0 < a) (h : x ≤ y) : alignUp x a s ≤ alignUp y a s :=
  alignUp_le ha (h.trans (le_alignUp y a s)) (alignUp_modEq ha)

/-- Whatever lies between a number and its alignment is aligned to the same place. -/
theorem alignUp_eq_of_le (ha : 0 < a) (h1 : x ≤ y) (h2 : y ≤ alignUp x a s) :
    alignUp y a s = alignUp x a s :=
  le_antisymm (alignUp_le ha h2 (alignUp_modEq ha)) (alignUp_mono ha h1)

/-- The period divides the size of the word, so that the residue survives a wrap. -/
theorem alignUp_wrap {N : ℕ} (hN : a ∣ N) (ha : 0 < a) (hx : x ≤ N) (h : N ≤ alignUp x a s) :
    alignUp x a s - N = s % a := by
  have hlt := alignUp_lt (x := x) (s := s) ha
  have hmod : alignUp x a s - N ≡ s % a [MOD a] := by
    have hN' : N ≡ 0 [MOD a] := (Nat.modEq_zero_iff_dvd).mpr hN
    have hsum : (alignUp x a s - N) + N ≡ s % a + 0 [MOD a] := by
      rw [Nat.sub_add_cancel h, Nat.add_zero]
      exact (alignUp_modEq ha).trans (Nat.mod_modEq s a).symm
    exact Nat.ModEq.add_right_cancel hN' hsum
  have hs := Nat.mod_lt s ha
  exact eq_of_modEq_of_lt hmod (by omega) (by omega)

end AlignUp

theorem toNat_and_neg_twoPow (y : BitVec 64) {k : ℕ} (hk : k < 64) :
    (y &&& -BitVec.twoPow 64 k).toNat = y.toNat - y.toNat % 2 ^ k := by
  have htwo : (BitVec.twoPow 64 k).toNat = 2 ^ k := BitVec.toNat_twoPow_of_lt hk
  have hmask : (BitVec.twoPow 64 k - 1#64).toNat = 2 ^ k - 1 := by
    have hpos : 0 < 2 ^ k := Nat.two_pow_pos k
    have hlt : 2 ^ k < 2 ^ 64 := Nat.pow_lt_pow_right (by decide) hk
    rw [BitVec.toNat_sub_of_le, htwo]
    · rfl
    · rw [BitVec.le_def, htwo]
      exact hpos
  have hneg : -BitVec.twoPow 64 k = ~~~(BitVec.twoPow 64 k - 1#64) := by
    rw [BitVec.not_eq_neg_add]
    bv_omega
  have hlow : (y &&& (BitVec.twoPow 64 k - 1#64)).toNat = y.toNat % 2 ^ k := by
    rw [BitVec.toNat_and, hmask, Nat.and_two_pow_sub_one_eq_mod]
  have hsplit : (y &&& (BitVec.twoPow 64 k - 1#64)) + (y &&& -BitVec.twoPow 64 k) = y := by
    rw [hneg, BitVec.add_eq_or_of_and_eq_zero]
    · ext i hi
      simp only [BitVec.getElem_or, BitVec.getElem_and, BitVec.getElem_not]
      cases y[i] <;> cases (BitVec.twoPow 64 k - 1#64)[i] <;> rfl
    · ext i hi
      simp only [BitVec.getElem_and, BitVec.getElem_not, BitVec.getElem_zero]
      cases y[i] <;> cases (BitVec.twoPow 64 k - 1#64)[i] <;> rfl
  have hle : (y &&& -BitVec.twoPow 64 k).toNat ≤ y.toNat := by
    rw [BitVec.toNat_and]
    exact Nat.and_le_left
  have hsum := congrArg BitVec.toNat hsplit
  rw [BitVec.toNat_add, hlow] at hsum
  have hrem := Nat.mod_le y.toNat (2 ^ k)
  have hy := y.isLt
  omega

/-- Rounding up in a machine word, with the wrap at its end. -/
theorem toNat_alignUp (x s : BitVec 64) {k : ℕ} (hk : k < 64) :
    ((((x - s) + (BitVec.twoPow 64 k - 1#64)) &&& -BitVec.twoPow 64 k) + s).toNat =
      alignUp x.toNat (2 ^ k) s.toNat % 2 ^ 64 := by
  have hpos : 0 < 2 ^ k := Nat.two_pow_pos k
  have hdvd : 2 ^ k ∣ 2 ^ 64 := Nat.pow_dvd_pow 2 hk.le
  have hmask : (BitVec.twoPow 64 k - 1#64).toNat = 2 ^ k - 1 := by
    rw [BitVec.toNat_sub_of_le, BitVec.toNat_twoPow_of_lt hk]
    · rfl
    · rw [BitVec.le_def, BitVec.toNat_twoPow_of_lt hk]
      exact hpos
  have hdiff : (x - s).toNat + s.toNat ≡ x.toNat [MOD 2 ^ 64] := by
    have hsum := congrArg BitVec.toNat (BitVec.sub_add_cancel x s)
    rw [BitVec.toNat_add] at hsum
    unfold Nat.ModEq
    rw [hsum, Nat.mod_eq_of_lt x.isLt]
  obtain ⟨w, hw⟩ : ∃ w, w = (x - s).toNat + (2 ^ k - 1) := ⟨_, rfl⟩
  have hword : (x - s + (BitVec.twoPow 64 k - 1#64)).toNat = w % 2 ^ 64 := by
    rw [BitVec.toNat_add, hmask, hw]
  have hrem : w % 2 ^ 64 % 2 ^ k = w % 2 ^ k := Nat.mod_mod_of_dvd w hdvd
  -- the rounding of the machine and that of the definition leave the same remainder
  have hround : alignUp x.toNat (2 ^ k) s.toNat + w % 2 ^ k = x.toNat + (2 ^ k - 1) := by
    have hlt := alignUp_lt (x := x.toNat) (s := s.toNat) hpos
    have hle := le_alignUp x.toNat (2 ^ k) s.toNat
    have hr := Nat.mod_lt w hpos
    apply eq_of_modEq_of_lt (a := 2 ^ k) _ (by omega) (by omega)
    calc alignUp x.toNat (2 ^ k) s.toNat + w % 2 ^ k
        ≡ s.toNat + w [MOD 2 ^ k] := Nat.ModEq.add (alignUp_modEq hpos) (Nat.mod_modEq w _)
      _ = (x - s).toNat + s.toNat + (2 ^ k - 1) := by omega
      _ ≡ x.toNat + (2 ^ k - 1) [MOD 2 ^ k] := Nat.ModEq.add_right _ (hdiff.of_dvd hdvd)
  have hlow : w % 2 ^ k ≤ w % 2 ^ 64 := by
    rw [← hrem]
    exact Nat.mod_le _ _
  rw [BitVec.toNat_add, toNat_and_neg_twoPow _ hk, hword, hrem]
  apply Nat.ModEq.add_right_cancel' (w % 2 ^ k)
  calc w % 2 ^ 64 - w % 2 ^ k + s.toNat + w % 2 ^ k = w % 2 ^ 64 + s.toNat := by omega
    _ ≡ w + s.toNat [MOD 2 ^ 64] := Nat.ModEq.add_right _ (Nat.mod_modEq w _)
    _ = (x - s).toNat + s.toNat + (2 ^ k - 1) := by omega
    _ ≡ x.toNat + (2 ^ k - 1) [MOD 2 ^ 64] := Nat.ModEq.add_right _ hdiff
    _ = alignUp x.toNat (2 ^ k) s.toNat + w % 2 ^ k := hround.symm

end OpenbsdKernel
