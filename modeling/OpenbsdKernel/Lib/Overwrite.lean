import Mathlib.Data.Set.Lattice
import Mathlib.Tactic

/-!
# Overwriting a part of a memory

An overwriting operation gives the cells of a set values of its own and leaves the others. A later
one with the same cells makes an earlier one vain.
-/
namespace OpenbsdKernel

variable {ι β : Type*}

/-- The operation gives the cells of `S` values that do not depend on what they held. -/
structure Overwrites (f : (ι → β) → ι → β) (S : Set ι) : Prop where
  inside : ∀ m m' a, a ∈ S → f m a = f m' a
  outside : ∀ m a, a ∉ S → f m a = m a

namespace Overwrites

variable {f g : (ι → β) → ι → β} {S T : Set ι}

theorem id : Overwrites (fun m : ι → β => m) ∅ := ⟨fun _ _ _ h => absurd h (Set.notMem_empty _), fun _ _ _ => rfl⟩

theorem comp (hf : Overwrites f S) (hg : Overwrites g T) : Overwrites (fun m => g (f m)) (S ∪ T) where
  inside m m' a ha := by
    by_cases hT : a ∈ T
    · exact hg.inside _ _ a hT
    · rw [hg.outside _ a hT, hg.outside _ a hT]
      exact hf.inside m m' a (ha.resolve_right hT)
  outside m a ha := by
    rw [Set.mem_union, not_or] at ha
    rw [hg.outside _ a ha.2, hf.outside m a ha.1]

theorem absorb (hf : Overwrites f S) (hg : Overwrites g S) (m : ι → β) : g (f m) = g m := by
  funext a
  by_cases ha : a ∈ S
  · exact hg.inside _ _ a ha
  · rw [hg.outside _ a ha, hg.outside _ a ha, hf.outside m a ha]

end Overwrites

/-- The `size` cells from `base` on hold `data`. -/
def writeCells (base size : ℕ) (data : ℕ → β) (m : ℕ → β) : ℕ → β :=
  fun a => if base ≤ a ∧ a < base + size then data (a - base) else m a

theorem writeCells_of_lt {base size i : ℕ} (data m : ℕ → β) (hi : i < size) :
    writeCells base size data m (base + i) = data i := by
  rw [writeCells, if_pos (by omega), Nat.add_sub_cancel_left]

theorem overwrites_writeCells (base size : ℕ) (data : ℕ → β) :
    Overwrites (writeCells base size data) (Set.Ico base (base + size)) where
  inside _ _ _ ha := (if_pos ha).trans (if_pos ha).symm
  outside _ _ ha := if_neg ha

end OpenbsdKernel
