import Mathlib.Data.Fintype.Basic
import Mathlib.Logic.Function.Basic
import Mathlib.Tactic

/-!
# Bit maps

A map of bits kept in words of `w` bits: testing, setting and clearing a bit, and what
each does to the others.
-/
namespace OpenbsdKernel.Bitmap

variable {w : ℕ}

def test (a : ℕ → BitVec w) (i : ℕ) : Bool := (a (i / w)).getLsbD (i % w)

def set (a : ℕ → BitVec w) (i : ℕ) : ℕ → BitVec w :=
  Function.update a (i / w) (a (i / w) ||| 1#w <<< (i % w))

def clear (a : ℕ → BitVec w) (i : ℕ) : ℕ → BitVec w :=
  Function.update a (i / w) (a (i / w) &&& ~~~(1#w <<< (i % w)))

/-- A word tested against a single bit. -/
theorem and_one_shiftLeft_ne_zero {x : BitVec w} {k : ℕ} (hk : k < w) :
    x &&& 1#w <<< k ≠ 0#w ↔ x.getLsbD k = true := by
  rw [← BitVec.twoPow_eq, BitVec.and_twoPow]
  cases hbit : x.getLsbD k with
  | false => simp
  | true =>
    have hne : BitVec.twoPow w k ≠ 0#w := by
      intro h0
      have := congrArg (fun x => x.getLsbD k) h0
      simp [hk] at this
    simp [hne]

theorem div_mod_inj {i j : ℕ} (hdiv : j / w = i / w) (hmod : j % w = i % w) : j = i := by
  rw [← Nat.div_add_mod j w, hdiv, hmod, Nat.div_add_mod]

theorem test_set (hw : 0 < w) (a : ℕ → BitVec w) (i j : ℕ) :
    test (set a i) j = (test a j || decide (j = i)) := by
  have hi : i % w < w := Nat.mod_lt _ hw
  unfold test set
  rw [← BitVec.twoPow_eq]
  by_cases hb : j / w = i / w
  · have hiff : j = i ↔ i % w = j % w := ⟨fun h => by rw [h], fun h => div_mod_inj hb h.symm⟩
    rw [hb, Function.update_self, BitVec.getLsbD_or, BitVec.getLsbD_twoPow]
    simp [hi, hiff]
  · have hne : j ≠ i := by
      rintro rfl
      exact hb rfl
    rw [Function.update_of_ne hb]
    simp [hne]

theorem test_clear (hw : 0 < w) (a : ℕ → BitVec w) (i j : ℕ) :
    test (clear a i) j = (test a j && decide (j ≠ i)) := by
  have hi : i % w < w := Nat.mod_lt _ hw
  have hj : j % w < w := Nat.mod_lt _ hw
  unfold test clear
  rw [← BitVec.twoPow_eq]
  by_cases hb : j / w = i / w
  · have hiff : j ≠ i ↔ i % w ≠ j % w :=
      not_congr ⟨fun h => by rw [h], fun h => div_mod_inj hb h.symm⟩
    rw [hb, Function.update_self, BitVec.getLsbD_and, BitVec.getLsbD_not, BitVec.getLsbD_twoPow]
    simp [hi, hj, hiff]
  · have hne : j ≠ i := by
      rintro rfl
      exact hb rfl
    rw [Function.update_of_ne hb]
    simp [hne]

/-- The position of the first bit set, counted from 1, or 0. -/
def ffs (x : BitVec w) : ℕ :=
  match (List.range w).find? fun i => x.getLsbD i with
  | some i => i + 1
  | none => 0

theorem ffs_spec {x : BitVec w} (h : x ≠ 0#w) :
    ∃ i < w, ffs x = i + 1 ∧ x.getLsbD i = true ∧ ∀ k < i, x.getLsbD k = false := by
  rw [ffs]
  cases hf : (List.range w).find? fun i => x.getLsbD i with
  | none =>
    refine absurd (BitVec.eq_of_getLsbD_eq fun i hi => ?_) h
    have := List.find?_eq_none.1 hf i (List.mem_range.2 hi)
    simpa using this
  | some i =>
    obtain ⟨hset, hbefore⟩ := List.find?_range_eq_some.1 hf
    exact ⟨i, List.mem_range.1 hbefore.1, rfl, hset, fun k hk => by simpa using hbefore.2 k hk⟩

/-- All bits below `s`. -/
theorem getLsbD_below {s : ℕ} (hs : s < w) (i : ℕ) : (1#w <<< s - 1#w).getLsbD i = decide (i < s) := by
  have hone : (1#w).toNat = 1 := by
    rw [BitVec.toNat_ofNat]
    exact Nat.one_mod_two_pow (by omega)
  have hpow : (1#w <<< s).toNat = 2 ^ s := by
    rw [BitVec.toNat_shiftLeft, hone, Nat.one_shiftLeft]
    exact Nat.mod_eq_of_lt (Nat.pow_lt_pow_right (by omega) hs)
  have hle : 1#w ≤ 1#w <<< s := by
    rw [BitVec.le_def, hone, hpow]
    exact Nat.one_le_two_pow
  rw [BitVec.getLsbD, BitVec.toNat_sub_of_le hle, hone, hpow, Nat.testBit_two_pow_sub_one]

end OpenbsdKernel.Bitmap
