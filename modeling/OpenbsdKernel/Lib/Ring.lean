import Mathlib.Data.List.Basic
import Mathlib.Tactic

/-!
# Ring buffers

The contents of a ring of `cap` cells, read from an index `f` on, and what the
contents become when a contiguous segment is written behind them or taken off
their front.
-/
namespace OpenbsdKernel.Ring

variable {α : Type*}

/-- The `n` entries from index `f` on. -/
def view (cells : ℕ → α) (cap f n : ℕ) : List α :=
  (List.range n).map fun k => cells ((f + k) % cap)

/-- The `n` cells from index `f` on, which do not wrap. -/
def segment (cells : ℕ → α) (f n : ℕ) : List α := (List.range n).map fun k => cells (f + k)

/-- The cells from index `i` on are overwritten with a list. -/
def fill (cells : ℕ → α) (i : ℕ) (l : List α) : ℕ → α := fun j =>
  if h : i ≤ j ∧ j - i < l.length then l.get ⟨j - i, h.2⟩ else cells j

variable {cells cells' : ℕ → α} {cap f n m : ℕ}

@[simp]
theorem length_view : (view cells cap f n).length = n := by
  simp [view]

@[simp]
theorem length_segment : (segment cells f n).length = n := by
  simp [segment]

@[simp]
theorem view_zero : view cells cap f 0 = [] := rfl

theorem segment_one : segment cells f 1 = [cells f] := rfl

theorem view_congr (h : ∀ k < n, cells' ((f + k) % cap) = cells ((f + k) % cap)) :
    view cells' cap f n = view cells cap f n := by
  unfold view
  apply List.map_congr_left
  intro k hk
  exact h k (List.mem_range.mp hk)

theorem view_add (a b : ℕ) :
    view cells cap f (a + b) = view cells cap f a ++ view cells cap ((f + a) % cap) b := by
  unfold view
  rw [List.range_add, List.map_append, List.map_map]
  congr 1
  apply List.map_congr_left
  intro k _
  simp only [Function.comp_apply, Nat.mod_add_mod, Nat.add_assoc]

theorem view_eq_segment (h : f + n ≤ cap) : view cells cap f n = segment cells f n := by
  unfold view segment
  apply List.map_congr_left
  intro k hk
  have hk := List.mem_range.mp hk
  rw [Nat.mod_eq_of_lt (by omega)]

theorem segment_congr (h : ∀ k < n, cells' (f + k) = cells (f + k)) :
    segment cells' f n = segment cells f n := by
  unfold segment
  apply List.map_congr_left
  intro k hk
  exact h k (List.mem_range.mp hk)

theorem segment_add (a b : ℕ) :
    segment cells f (a + b) = segment cells f a ++ segment cells (f + a) b := by
  unfold segment
  rw [List.range_add, List.map_append, List.map_map]
  congr 1
  apply List.map_congr_left
  intro k _
  simp only [Function.comp_apply, Nat.add_assoc]

theorem fill_of_outside {i j : ℕ} {l : List α} (h : j < i ∨ i + l.length ≤ j) :
    fill cells i l j = cells j := by
  rw [fill, dif_neg]
  omega

theorem segment_fill (i : ℕ) (l : List α) : segment (fill cells i l) i l.length = l := by
  apply List.ext_get
  · simp
  · intro k h₁ h₂
    simp [segment, fill, h₂]

theorem mod_of_lt_two {a : ℕ} (h : a < 2 * cap) : a % cap = if a < cap then a else a - cap := by
  split_ifs with hlt
  · exact Nat.mod_eq_of_lt hlt
  · rw [Nat.mod_eq_sub_mod (by omega), Nat.mod_eq_of_lt (by omega)]

theorem index_ne {a b : ℕ} (hab : a < b) (hb : b < a + cap) : (f + a) % cap ≠ (f + b) % cap := by
  intro heq
  have hdvd : cap ∣ (f + b) - (f + a) := (Nat.modEq_iff_dvd' (by omega)).mp heq
  have hle := Nat.le_of_dvd (by omega) hdvd
  omega

/-- Overwriting free cells behind the contents keeps the contents. -/
theorem view_of_free (hn : n + m ≤ cap)
    (hout : ∀ i, (∀ j < m, i ≠ (f + (n + j)) % cap) → cells' i = cells i) :
    view cells' cap f n = view cells cap f n := by
  apply view_congr
  intro k hk
  apply hout
  intro j hj
  exact index_ne (by omega) (by omega)

/-- Writing a segment into the free cells behind the contents appends it. -/
theorem view_append (hl : (f + n) % cap + m ≤ cap) (hn : n + m ≤ cap)
    (hout : ∀ i, i < (f + n) % cap ∨ (f + n) % cap + m ≤ i → cells' i = cells i) :
    view cells' cap f (n + m) = view cells cap f n ++ segment cells' ((f + n) % cap) m := by
  rw [view_add, view_eq_segment hl]
  congr 1
  apply view_congr
  intro k hk
  apply hout
  by_contra hin
  push Not at hin
  -- inside the segment an index is that of an entry behind the contents
  obtain ⟨j, hj⟩ := Nat.exists_eq_add_of_le hin.1
  have hidx : (f + (n + j)) % cap = (f + n) % cap + j := by
    rw [← Nat.add_assoc, ← Nat.mod_add_mod]
    exact Nat.mod_eq_of_lt (by omega)
  exact index_ne (by omega : k < n + j) (by omega) (hj.trans hidx.symm)

/-- Taking a segment off the front, whatever is written over it. -/
theorem view_remove (hf : f + m ≤ cap) (hm : m ≤ n) (hn : n ≤ cap)
    (hout : ∀ i, i < f ∨ f + m ≤ i → cells' i = cells i) :
    view cells cap f n = segment cells f m ++ view cells' cap ((f + m) % cap) (n - m) := by
  have hsplit : n = m + (n - m) := by omega
  conv_lhs => rw [hsplit]
  rw [view_add, view_eq_segment hf]
  congr 1
  symm
  apply view_congr
  intro k hk
  apply hout
  by_contra hin
  push Not at hin
  obtain ⟨j, hj⟩ := Nat.exists_eq_add_of_le hin.1
  have hlt : f + j < cap := by omega
  have hidx : (f + j) % cap = f + j := Nat.mod_eq_of_lt hlt
  rw [Nat.mod_add_mod, Nat.add_assoc] at hj hin
  exact index_ne (by omega : j < m + k) (by omega) (hidx.trans hj.symm)

theorem view_removeLast (hn : n + 1 ≤ cap)
    (hout : ∀ i, i ≠ (f + n) % cap → cells' i = cells i) :
    view cells cap f (n + 1) = view cells' cap f n ++ [cells ((f + n) % cap)] := by
  rw [view_add]
  congr 1
  · symm
    apply view_congr
    intro k hk
    exact hout _ (index_ne hk (by omega))
  · simp [view]

end OpenbsdKernel.Ring
