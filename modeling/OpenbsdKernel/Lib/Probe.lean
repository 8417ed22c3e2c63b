import Mathlib.Data.Nat.Prime.Basic
import Mathlib.Data.Finset.Card
import Mathlib.Data.Nat.ModEq
import OpenbsdKernel.Lib.Loop

/-!
# Probing with a displacement

A probe of a table of `n` slots steps on by a displacement that is prime to `n`. In `n`
steps it comes to every slot, and so to a free one where fewer than `n` are taken.
-/
namespace OpenbsdKernel.Probe

variable {n disp : ℕ}

theorem injOn_slots (h : ℕ) (hc : n.Coprime disp) :
    Set.InjOn (fun i => (h + i * disp) % n) (Finset.range n) := by
  intro i hi j hj heq
  rw [Finset.coe_range, Set.mem_Iio] at hi hj
  have hmod : i * disp ≡ j * disp [MOD n] := Nat.ModEq.add_left_cancel' h heq
  have hij := Nat.ModEq.cancel_right_of_coprime hc hmod
  rwa [Nat.ModEq, Nat.mod_eq_of_lt hi, Nat.mod_eq_of_lt hj] at hij

/-- A table in which `taken` maps the taken slots one to one below `m` has a free slot on
the way. -/
theorem exists_free (h : ℕ) (hc : n.Coprime disp) {m : ℕ} (hm : m < n) {key : ℕ → ℕ}
    (hinj : ∀ s < n, ∀ t < n, key s < m → key s = key t → s = t) :
    ∃ i < n, m ≤ key ((h + i * disp) % n) := by
  by_contra hfull
  push Not at hfull
  have hcard := Finset.card_le_card_of_injOn (s := Finset.range n) (t := Finset.range m)
    (fun i => key ((h + i * disp) % n))
    (fun i hi => Finset.mem_range.mpr (hfull i (Finset.mem_range.mp hi)))
    fun i hi j hj heq => injOn_slots h hc hi hj
      (hinj _ (Nat.mod_lt _ (by omega)) _ (Nat.mod_lt _ (by omega))
        (hfull i (Finset.mem_range.mp hi)) heq)
  simp only [Finset.card_range] at hcard
  omega

/-- The slot that is tried after `h`. -/
def next (n disp h : ℕ) : ℕ := if n ≤ h + disp then h + disp - n else h + disp

theorem next_eq {h : ℕ} (hh : h < n) (hd : disp < n) : next n disp h = (h + disp) % n := by
  rw [next]
  split_ifs with hle
  · rw [Nat.mod_eq_sub_mod hle, Nat.mod_eq_of_lt (by omega)]
  · rw [Nat.mod_eq_of_lt (by omega)]

theorem run_returns {ε : Type*} (step : ℕ → Loop.Step ℕ ℕ ε) (free : ℕ → Prop) (hd : disp < n)
    (hfree : ∀ h < n, free h → step h = .done h)
    (htaken : ∀ h < n, ¬free h → step h = .next (next n disp h)) {i fuel : ℕ} :
    ∀ {h : ℕ}, h < n → free ((h + i * disp) % n) → i < fuel →
      ∃ r k, Loop.run step fuel h = .returned r k ∧ r < n ∧ free r := by
  induction i generalizing fuel with
  | zero =>
    intro h hh hf hfuel
    rw [Nat.zero_mul, Nat.add_zero, Nat.mod_eq_of_lt hh] at hf
    obtain ⟨fuel, rfl⟩ := Nat.exists_eq_succ_of_ne_zero (by omega : fuel ≠ 0)
    exact ⟨h, 1, Loop.run_done step (hfree h hh hf) fuel, hh, hf⟩
  | succ i ih =>
    intro h hh hf hfuel
    obtain ⟨fuel, rfl⟩ := Nat.exists_eq_succ_of_ne_zero (by omega : fuel ≠ 0)
    by_cases hnow : free h
    · exact ⟨h, 1, Loop.run_done step (hfree h hh hnow) fuel, hh, hnow⟩
    · have hnext := next_eq hh hd
      have hsum : h + disp + i * disp = h + (i + 1) * disp := by ring
      have hf' : free ((next n disp h + i * disp) % n) := by
        rwa [hnext, Nat.mod_add_mod, hsum]
      obtain ⟨r, k, hrun, hr, hfr⟩ := @ih fuel (next n disp h)
        (by rw [hnext]; exact Nat.mod_lt _ (by omega)) hf' (by omega)
      refine ⟨r, k + 1, ?_, hr, hfr⟩
      rw [Loop.run_next step (htaken h hh hnow), hrun]
      rfl

end OpenbsdKernel.Probe
