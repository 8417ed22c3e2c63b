import Mathlib.Order.Bounds.Basic
import OpenbsdKernel.Kern.Descrip.Ops

/-!
# The smallest free descriptor

`fdalloc` finds the smallest free descriptor from `want` on: the search through the high
map misses no word with a free descriptor, and where the search through the low map gives
up, the descriptors it leaves behind are all allocated.
-/
namespace OpenbsdKernel.Descrip

variable {φ : Type*} {fdp : Filedesc φ} {A : Set ℕ}

theorem scanZero_none {a : ℕ → BitVec 32} {off maxoff : ℕ} (h : scanZero a off maxoff = none) :
    ∀ k, 32 * off ≤ k → k < 32 * maxoff → Bitmap.test a k = true := by
  intro k hk hlt
  unfold scanZero at h
  have hfind := List.find?_eq_none.mp (Option.map_eq_none_iff.mp h) (k / 32)
    (List.mem_range'_1.mpr ⟨by omega, by omega⟩)
  simp only [ne_eq, decide_not, Bool.not_eq_true', decide_eq_false_iff_not, not_not] at hfind
  have hbit := (eq_allOnes_iff a (k / 32)).mp hfind (k % 32) (Nat.mod_lt _ (by decide))
  rwa [Nat.div_add_mod] at hbit

theorem findNextZero_none {a : ℕ → BitVec 32} {want bits : ℕ}
    (h : findNextZero a want bits = none) (hle : want ≤ bits) :
    ∀ k, want ≤ k → k < 32 * NDLOSLOTS bits → Bitmap.test a k = true := by
  intro k hk hlt
  simp only [findNextZero, shiftRight_five, and_mask] at h
  rw [if_neg (by omega)] at h
  by_cases hi : want % 32 ≠ 0
  · rw [if_pos hi] at h
    split_ifs at h with hsub
    by_cases hnext : 32 * (want / 32 + 1) ≤ k
    · exact scanZero_none h k hnext hlt
    · -- the bit lies in the first word, above those that were masked
      have hbit := congrArg (fun x : BitVec 32 => x.getLsbD (k % 32)) (not_not.mp hsub)
      simp only [BitVec.getLsbD_or, BitVec.getLsbD_ushiftRight, BitVec.getLsbD_allOnes] at hbit
      have hmod : k % 32 < 32 := Nat.mod_lt _ (by decide)
      have hword : k / 32 = want / 32 := by omega
      have hhigh : ¬ NDENTRIES - want % 32 + k % 32 < 32 := by
        unfold NDENTRIES
        omega
      simpa [Bitmap.test, hword, hmod, hhigh] using hbit
  · rw [if_neg hi] at h
    exact scanZero_none h k (by omega) hlt

/-- The part of a table's invariant that allocation rests on: the maps describe the
allocated descriptors, and `fd_freefile` is not above a free one. -/
structure Bitmapped (fdp : Filedesc φ) (A : Set ℕ) : Prop where
  maps : Maps fdp A
  free : ∀ fd < fdp.fd_freefile, fd ∈ A

theorem Inv.bitmapped (h : Inv fdp A) : Bitmapped fdp A := ⟨h.maps, h.free⟩

theorem mem_of_test_hi (h : Maps fdp A) {b : Beyond} {k : ℕ} (hk : k < fdp.fd_nfiles)
    (ht : Bitmap.test (fdp.hi b) (k / 32) = true) : k ∈ A := by
  rw [test_hi (by omega), h.hi, eq_allOnes_iff] at ht
  have := ht (k % 32) (Nat.mod_lt _ (by decide))
  rwa [Nat.div_add_mod, h.lo] at this

/-- What is known when a round of `fdalloc` finds no descriptor: the search may go on at
`want'`, or there is nothing below the limit. -/
theorem fdallocStep_missed (h : Bitmapped fdp A) {b : Beyond} {lim want : ℕ} :
    (∀ want', fdallocStep fdp b lim want = .next want' →
      ∀ k, want ≤ k → k < want' → k < fdp.fd_nfiles → k ∈ A) ∧
    ∀ e, fdallocStep fdp b lim want = .done (.error e) →
      ∀ k, want ≤ k → k < min fdp.fd_nfiles lim → k ∈ A := by
  simp only [fdallocStep, shiftRight_five, shiftLeft_five, and_mask]
  generalize hi₀ : (if want < fdp.fd_freefile then fdp.fd_freefile else want) = i₀
  have hfrom : ∀ k, want ≤ k → k ∉ A → i₀ ≤ k := by
    intro k hk hnot
    have hfree : fdp.fd_freefile ≤ k := by
      by_contra hlt
      exact hnot (h.free k (by omega))
    rw [← hi₀]
    split_ifs <;> omega
  cases hnew : findNextZero (fdp.hi b) (i₀ / 32) ((min fdp.fd_nfiles lim + NDENTRIES - 1) / 32) with
  | none =>
    refine ⟨fun want' hs => ?_, fun e _ k hk hlt => ?_⟩
    · split_ifs at hs
    · by_contra hnot
      have hge := hfrom k hk hnot
      have hbits : k / 32 < (min fdp.fd_nfiles lim + NDENTRIES - 1) / 32 := by
        unfold NDENTRIES
        omega
      have hslots := le_NDLOSLOTS ((min fdp.fd_nfiles lim + NDENTRIES - 1) / 32)
      exact hnot (mem_of_test_hi h.maps (by omega)
        (findNextZero_none hnew (by omega) (k / 32) (by omega) (by omega)))
  | some new =>
    obtain ⟨hle, -, hfull⟩ := findNextZero_some hnew
    have hbelow : ∀ k, i₀ ≤ k → k < 32 * new → k < fdp.fd_nfiles → k ∈ A := fun k hk hlt hn =>
      mem_of_test_hi h.maps hn (hfull (k / 32) (by omega) (by omega))
    dsimp only
    cases hj : findNextZero (fun w => fdp.lo b (new + w)) (if i₀ / 32 < new then 0 else i₀ % 32)
        NDENTRIES with
    | none =>
      refine ⟨fun want' hs k hk hlt hn => ?_, fun e hs => by cases hs⟩
      cases hs
      by_contra hnot
      have hge := hfrom k hk hnot
      have hword : ¬ k < 32 * new := fun hlow => hnot (hbelow k hge hlow hn)
      have hstart : (if i₀ / 32 < new then 0 else i₀ % 32) ≤ NDENTRIES := by
        unfold NDENTRIES
        split_ifs <;> omega
      have hslots : (32 : ℕ) ≤ 32 * NDLOSLOTS NDENTRIES := by decide
      have ht := findNextZero_none hj hstart (k - 32 * new) (by split_ifs <;> omega) (by omega)
      rw [test_shift, (by omega : 32 * new + (k - 32 * new) = k), test_lo hn, h.maps.lo] at ht
      exact hnot ht
    | some j =>
      dsimp only
      refine ⟨fun want' hs => by split_ifs at hs, fun e hs k hk hlt => ?_⟩
      obtain ⟨hstart, -, hset⟩ := findNextZero_some hj
      by_contra hnot
      have hge := hfrom k hk hnot
      have hword : ¬ k < 32 * new := fun hlow => hnot (hbelow k hge hlow (by omega))
      have hlast : min fdp.fd_nfiles lim ≤ j + new * 32 := by
        by_contra hin
        rw [if_pos (by omega)] at hs
        cases hs
      have ht := hset (k - 32 * new) (by split_ifs <;> omega) (by omega)
      rw [test_shift, (by omega : 32 * new + (k - 32 * new) = k), test_lo (by omega),
        h.maps.lo] at ht
      exact hnot ht

theorem fdalloc_rounds (h : Bitmapped fdp A) (b : Beyond) (lim want : ℕ) :
    ∃ r n want₀, Loop.run (fdallocStep fdp b lim) (fdallocFuel fdp lim) want = .returned r n ∧
      fdallocStep fdp b lim want₀ = .done r ∧ want ≤ want₀ ∧
      ∀ k, want ≤ k → k < want₀ → k < fdp.fd_nfiles → k ∈ A := by
  obtain ⟨r, n, hrun, -⟩ := fdallocStep_returns fdp b lim want
  have hgrow : ∀ w w', fdallocStep fdp b lim w = .next w' → w ≤ w' := by
    intro w w' hs
    simp only [fdallocStep, shiftRight_five, shiftLeft_five, and_mask] at hs
    split at hs
    · split_ifs at hs
    · next new hnew =>
      have hle := (findNextZero_some hnew).1
      split at hs
      · cases hs
        split_ifs at hle <;> omega
      · split_ifs at hs
  obtain ⟨want₀, hdone, hle, hbelow⟩ := Loop.run_returned (fdallocStep fdp b lim)
    (I := fun w => want ≤ w ∧ ∀ k, want ≤ k → k < w → k < fdp.fd_nfiles → k ∈ A)
    (Q := fun r => ∃ want₀, fdallocStep fdp b lim want₀ = .done r ∧ want ≤ want₀ ∧
      ∀ k, want ≤ k → k < want₀ → k < fdp.fd_nfiles → k ∈ A)
    (fun w w' hI hs => ⟨hI.1.trans (hgrow w w' hs), fun k hk hlt hn => by
      by_cases hkw : k < w
      · exact hI.2 k hk hkw hn
      · exact (fdallocStep_missed h).1 w' hs k (by omega) hlt hn⟩)
    (fun w r hI hs => ⟨w, hs, hI⟩) hrun
    ⟨le_rfl, fun k hk hlt => absurd hk (by omega)⟩
  exact ⟨r, n, want₀, hrun, hdone, hle, hbelow⟩

/-- The descriptors that `fdalloc` may hand out. -/
def Available (fdp : Filedesc φ) (A : Set ℕ) (lim want : ℕ) : Set ℕ :=
  {fd | want ≤ fd ∧ fd ∉ A ∧ fd < min fdp.fd_nfiles lim}

/-- `fdalloc` returns the smallest available descriptor and marks it, or an error that
tells whether the table may grow and leaves it as it is; its loop ends. -/
theorem fdalloc_least (h : Bitmapped fdp A) (b : Beyond) (lim want : ℕ) :
    (∃ r n, Loop.run (fdallocStep fdp b lim) (fdallocFuel fdp lim) want = .returned r n) ∧
    (∀ i, IsLeast (Available fdp A lim want) i →
      (fdalloc fdp b lim want).2 = .ok i ∧ Maps (fdalloc fdp b lim want).1 (insert i A)) ∧
    (Available fdp A lim want = ∅ → fdalloc fdp b lim want =
      (fdp, .error (if lim ≤ fdp.fd_nfiles then .EMFILE else .ENOSPC))) := by
  obtain ⟨r, n, want₀, hrun, hdone, hle, hbelow⟩ := fdalloc_rounds h b lim want
  refine ⟨⟨r, n, hrun⟩, fun i hi => ?_, fun hnone => ?_⟩
  · obtain ⟨⟨hwant, hnot, hlt⟩, hleast⟩ := hi
    cases r with
    | error e =>
      have := (fdallocStep_missed h).2 e hdone i
      by_cases hiw : i < want₀
      · exact absurd (hbelow i hwant hiw (by omega)) hnot
      · exact absurd (this (by omega) hlt) hnot
    | ok r =>
      obtain ⟨j, want'⟩ := r
      obtain ⟨rfl, hj, hjn, hjlim, hjnot, hbetween⟩ := fdallocStep_ok h.maps hdone
      have hij : i ≤ j := hleast ⟨by omega, hjnot, by omega⟩
      have hji : j ≤ i := by
        by_contra hlt'
        apply hnot
        by_cases hiw : i < want'
        · exact hbelow i hwant hiw (by omega)
        · by_cases hfree : i < fdp.fd_freefile
          · exact h.free i hfree
          · exact hbetween i (by omega) (by omega) (by omega)
      obtain rfl := Nat.le_antisymm hij hji
      have heq : fdalloc fdp b lim want = ({ fdUsed fdp i with
          fd_freefile := if want' ≤ fdp.fd_freefile then i else fdp.fd_freefile
          fd_ofileflags := Function.update fdp.fd_ofileflags i 0#8 }, .ok i) := by
        rw [fdalloc, hrun]
        rfl
      have hu := h.maps.used hjn
      rw [heq]
      exact ⟨rfl, hu.lo, hu.hi, hu.bound⟩
  · rcases fdalloc_spec h.maps b lim want with ⟨i, want', -, hwant, hn, hlim, hnot, -⟩ | heq
    · have : i ∈ Available fdp A lim want := ⟨hwant, hnot, by omega⟩
      rw [hnone] at this
      cases this
    · exact heq

theorem fdalloc_least_fdinit :
    (fdalloc (fdinit : Filedesc ℕ) ⟨fun _ => 0#32, fun _ => 0#32⟩ 128 3).2 = .ok 3 := by
  have hleast : IsLeast (Available (fdinit : Filedesc ℕ) ∅ 128 3) 3 :=
    ⟨⟨le_rfl, by simp, by decide⟩, fun _ hk => hk.1⟩
  exact ((fdalloc_least inv_fdinit.1.bitmapped ⟨fun _ => 0#32, fun _ => 0#32⟩ 128 3).2.1 3 hleast).1

end OpenbsdKernel.Descrip
