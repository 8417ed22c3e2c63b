import Mathlib.Data.List.Range
import Mathlib.Tactic

/-!
# Stores of numbered cells

A store holds a value in every numbered cell of every buffer. A piece of data is
the list of its locations, so that copies, aliases and splits of data are facts
about lists of locations; reading maps the list through the store. Writing puts a
list of values into consecutive cells of one buffer.
-/
namespace OpenbsdKernel

/-- Buffers are named by `κ`; bounds are a matter of the locations, not of the store. -/
def Store (κ β : Type*) := κ → ℕ → β

namespace Store

variable {κ β : Type*}

/-- The `n` cells of buffer `k` from cell `a` on. -/
def region (k : κ) (a n : ℕ) : List (κ × ℕ) :=
  (List.range' a n).map (Prod.mk k)

@[simp] theorem region_zero (k : κ) (a : ℕ) : region k a 0 = [] := rfl

@[simp] theorem length_region (k : κ) (a n : ℕ) : (region k a n).length = n := by
  simp [region]

theorem mem_region {k : κ} {a n : ℕ} {l : κ × ℕ} :
    l ∈ region k a n ↔ l.1 = k ∧ a ≤ l.2 ∧ l.2 < a + n := by
  obtain ⟨j, i⟩ := l
  simp only [region, List.mem_map, List.mem_range'_1, Prod.mk.injEq]
  constructor
  · rintro ⟨i', hi, rfl, rfl⟩
    exact ⟨rfl, hi⟩
  · rintro ⟨rfl, hi⟩
    exact ⟨i, hi, rfl, rfl⟩

theorem nodup_region (k : κ) (a n : ℕ) : (region k a n).Nodup :=
  List.Nodup.map (fun _ _ h => (Prod.mk.inj h).2) List.nodup_range'

theorem region_add (k : κ) (a m n : ℕ) :
    region k a (m + n) = region k a m ++ region k (a + m) n := by
  rw [region, region, region, ← List.map_append, List.range'_append_1]

theorem region_succ (k : κ) (a n : ℕ) : region k a (n + 1) = (k, a) :: region k (a + 1) n := rfl

theorem getElem_region (k : κ) (a n i : ℕ) (h : i < (region k a n).length) :
    (region k a n)[i] = (k, a + i) := by
  simp [region]

theorem take_region (k : κ) (a n m : ℕ) :
    (region k a n).take m = region k a (min m n) := by
  rcases le_total m n with h | h
  · obtain ⟨d, rfl⟩ := Nat.exists_eq_add_of_le h
    rw [region_add, List.take_left' (length_region k a m), min_eq_left (by omega)]
  · rw [List.take_of_length_le (by simpa using h), min_eq_right h]

theorem drop_region (k : κ) (a n m : ℕ) :
    (region k a n).drop m = region k (a + m) (n - m) := by
  rcases le_total m n with h | h
  · obtain ⟨d, rfl⟩ := Nat.exists_eq_add_of_le h
    rw [region_add, List.drop_left' (length_region k a m), Nat.add_sub_cancel_left]
  · rw [List.drop_of_length_le (by simpa using h), Nat.sub_eq_zero_of_le h, region_zero]

/-- The values at a list of locations. -/
def read (s : Store κ β) (ls : List (κ × ℕ)) : List β :=
  ls.map fun l => s l.1 l.2

@[simp] theorem read_nil (s : Store κ β) : s.read [] = [] := rfl

@[simp] theorem length_read (s : Store κ β) (ls : List (κ × ℕ)) :
    (s.read ls).length = ls.length := List.length_map _

@[simp] theorem read_append (s : Store κ β) (ls ls' : List (κ × ℕ)) :
    s.read (ls ++ ls') = s.read ls ++ s.read ls' := List.map_append

theorem read_take (s : Store κ β) (ls : List (κ × ℕ)) (n : ℕ) :
    s.read (ls.take n) = (s.read ls).take n := List.map_take

theorem read_drop (s : Store κ β) (ls : List (κ × ℕ)) (n : ℕ) :
    s.read (ls.drop n) = (s.read ls).drop n := List.map_drop

theorem read_congr {s t : Store κ β} {ls : List (κ × ℕ)}
    (h : ∀ l ∈ ls, t l.1 l.2 = s l.1 l.2) : t.read ls = s.read ls :=
  List.map_congr_left h

/-- The list `us` with `vs` from position `n` on. -/
def overwrite (us : List β) (n : ℕ) (vs : List β) : List β :=
  us.take n ++ vs ++ us.drop (n + vs.length)

theorem length_overwrite {us vs : List β} {n : ℕ} (h : n + vs.length ≤ us.length) :
    (overwrite us n vs).length = us.length := by
  simp [overwrite]
  omega

theorem getElem?_overwrite {us vs : List β} {n : ℕ} (h : n ≤ us.length) (i : ℕ) :
    (overwrite us n vs)[i]? =
      if n ≤ i ∧ i < n + vs.length then vs[i - n]? else us[i]? := by
  have hn : (us.take n).length = n := by
    rw [List.length_take]
    omega
  unfold overwrite
  rw [List.append_assoc]
  split_ifs with hi
  · rw [List.getElem?_append_right (by omega), hn, List.getElem?_append_left (by omega)]
  · rcases lt_or_ge i n with h₁ | h₁
    · rw [List.getElem?_append_left (by omega), List.getElem?_take_of_lt h₁]
    · rw [List.getElem?_append_right (by omega), hn, List.getElem?_append_right (by omega),
        List.getElem?_drop]
      congr 1
      omega

/-- The list `vs` gives every location of `ls` one value. -/
def Uniform (ls : List (κ × ℕ)) (vs : List β) : Prop :=
  ∀ i j : ℕ, i < ls.length → ls[i]? = ls[j]? → vs[i]? = vs[j]?

theorem uniform_read (s : Store κ β) (ls : List (κ × ℕ)) : Uniform ls (s.read ls) := by
  intro i j _ h
  simp only [read, List.getElem?_map, h]

theorem uniform_of_nodup {ls : List (κ × ℕ)} (h : ls.Nodup) (vs : List β) : Uniform ls vs := by
  intro i j hi hij
  rw [(List.getElem?_inj hi h).mp hij]

/-- New locations that occur once need no agreement. -/
theorem uniform_append {ls ls' : List (κ × ℕ)} {vs us : List β} (hnodup : ls'.Nodup)
    (hdisj : ∀ l ∈ ls', l ∉ ls) (hsame : ∀ i < ls.length, vs[i]? = us[i]?) :
    Uniform (ls ++ ls') vs ↔ Uniform ls us := by
  constructor
  · intro h i j hi hij
    have hj : j < ls.length := by
      rw [List.getElem?_eq_getElem hi] at hij
      exact (List.getElem?_eq_some_iff.mp hij.symm).1
    rw [← hsame i hi, ← hsame j hj]
    refine h i j (by rw [List.length_append]; omega) ?_
    rw [List.getElem?_append_left hi, List.getElem?_append_left hj, hij]
  · intro h i j hi hij
    have hj : j < (ls ++ ls').length := by
      rw [List.getElem?_eq_getElem hi] at hij
      exact (List.getElem?_eq_some_iff.mp hij.symm).1
    rw [List.length_append] at hi hj
    rcases lt_or_ge i ls.length with h₁ | h₁ <;> rcases lt_or_ge j ls.length with h₂ | h₂
    · rw [List.getElem?_append_left h₁, List.getElem?_append_left h₂] at hij
      rw [hsame i h₁, hsame j h₂]
      exact h i j h₁ hij
    · rw [List.getElem?_append_left h₁, List.getElem?_append_right h₂] at hij
      rw [List.getElem?_eq_getElem h₁] at hij
      exact absurd (List.mem_of_getElem? (List.getElem?_eq_getElem h₁))
        (hdisj _ (List.mem_of_getElem? hij.symm))
    · rw [List.getElem?_append_right h₁, List.getElem?_append_left h₂] at hij
      rw [List.getElem?_eq_getElem h₂] at hij
      exact absurd (List.mem_of_getElem? (List.getElem?_eq_getElem h₂))
        (hdisj _ (List.mem_of_getElem? hij))
    · rw [List.getElem?_append_right h₁, List.getElem?_append_right h₂] at hij
      have hsub := (List.getElem?_inj (by omega) hnodup).mp hij
      rw [show i = j by omega]

theorem mem_slice {ls : List (κ × ℕ)} {n i m : ℕ} (hi : n ≤ i) (hi' : i < n + m) (h : i < ls.length) :
    ls[i] ∈ (ls.drop n).take m := by
  rw [List.mem_take_iff_getElem]
  refine ⟨i - n, by simp; omega, ?_⟩
  rw [List.getElem_drop]
  congr 1
  omega

variable [DecidableEq κ]

/-- The values `vs` put into consecutive cells of buffer `k` from cell `a` on. -/
def write (s : Store κ β) (k : κ) (a : ℕ) (vs : List β) : Store κ β :=
  fun j i => if j = k ∧ a ≤ i then vs.getD (i - a) (s j i) else s j i

theorem write_of_notMem (s : Store κ β) (k : κ) (a : ℕ) (vs : List β) {l : κ × ℕ}
    (h : l ∉ region k a vs.length) : s.write k a vs l.1 l.2 = s l.1 l.2 := by
  unfold write
  split_ifs with hl
  · obtain ⟨hk, ha⟩ := hl
    have hend : a + vs.length ≤ l.2 := not_lt.mp fun h' => h (mem_region.mpr ⟨hk, ha, h'⟩)
    rw [List.getD_eq_getElem?_getD, List.getElem?_eq_none (Nat.le_sub_of_add_le' hend),
      Option.getD_none]
  · rfl

theorem write_of_ne (s : Store κ β) {k j : κ} (a : ℕ) (vs : List β) (i : ℕ) (h : j ≠ k) :
    s.write k a vs j i = s j i := by
  simp [write, h]

theorem write_at (s : Store κ β) (k : κ) (a : ℕ) (vs : List β) {i : ℕ} (h : i < vs.length) :
    s.write k a vs k (a + i) = vs[i] := by
  simp [write, h]

theorem read_write_self (s : Store κ β) (k : κ) (a : ℕ) (vs : List β) :
    (s.write k a vs).read (region k a vs.length) = vs := by
  refine List.ext_getElem (by simp) fun i h₁ h₂ => ?_
  rw [length_read, length_region] at h₁
  simp only [read, List.getElem_map, getElem_region]
  exact s.write_at k a vs h₁

theorem read_write_of_disjoint (s : Store κ β) (k : κ) (a : ℕ) (vs : List β)
    {ls : List (κ × ℕ)} (h : ∀ l ∈ ls, l ∉ region k a vs.length) :
    (s.write k a vs).read ls = s.read ls :=
  read_congr fun l hl => s.write_of_notMem k a vs (h l hl)

/-- A buffer that is not the written one reads as before. -/
theorem read_write_of_ne (s : Store κ β) (k : κ) (a : ℕ) (vs : List β)
    {ls : List (κ × ℕ)} (h : ∀ l ∈ ls, l.1 ≠ k) : (s.write k a vs).read ls = s.read ls :=
  read_congr fun l hl => s.write_of_ne a vs l.2 (h l hl)

/-- The values `vs` put one after the other into the locations `ls`, which may repeat. -/
def put (s : Store κ β) : List (κ × ℕ) → List β → Store κ β
  | l :: ls, v :: vs => put (s.write l.1 l.2 [v]) ls vs
  | _, _ => s

@[simp] theorem put_nil (s : Store κ β) (vs : List β) : s.put [] vs = s := rfl

theorem put_append (s : Store κ β) {ls : List (κ × ℕ)} {vs : List β} (h : ls.length = vs.length)
    (ls' : List (κ × ℕ)) (vs' : List β) :
    s.put (ls ++ ls') (vs ++ vs') = (s.put ls vs).put ls' vs' := by
  induction ls generalizing s vs with
  | nil =>
    obtain rfl := List.length_eq_zero_iff.mp h.symm
    rfl
  | cons l ls ih =>
    obtain ⟨v, vs, rfl⟩ := List.exists_cons_of_length_eq_add_one h.symm
    exact ih _ (by simpa using h)

theorem write_nil (s : Store κ β) (k : κ) (a : ℕ) : s.write k a [] = s := by
  funext j i
  simp [write]

theorem write_cons (s : Store κ β) (k : κ) (a : ℕ) (v : β) (vs : List β) :
    s.write k a (v :: vs) = (s.write k a [v]).write k (a + 1) vs := by
  funext j i
  unfold write
  by_cases hj : j = k
  · rcases lt_trichotomy i a with h | rfl | h
    · simp [hj, not_le.mpr h, not_le.mpr (Nat.lt_succ_of_lt h)]
    · simp [hj]
    · obtain ⟨d, rfl⟩ := Nat.exists_eq_add_of_le (Nat.succ_le_of_lt h)
      have h₁ : a ≤ a.succ + d := by omega
      have h₂ : a.succ + d - a = d + 1 := by omega
      have h₃ : a.succ + d - (a + 1) = d := by omega
      simp [hj, h₁, h₂]
  · simp [hj]

/-- A write to a buffer is a write through the list of its locations. -/
theorem write_eq_put (s : Store κ β) (k : κ) (a : ℕ) (vs : List β) :
    s.write k a vs = s.put (region k a vs.length) vs := by
  induction vs generalizing s a with
  | nil => exact write_nil s k a
  | cons v vs ih =>
    rw [write_cons, ih, List.length_cons, region_succ]
    rfl

theorem put_of_notMem (s : Store κ β) {ls : List (κ × ℕ)} (vs : List β) {l : κ × ℕ}
    (h : l ∉ ls) : s.put ls vs l.1 l.2 = s l.1 l.2 := by
  induction ls generalizing s vs with
  | nil => rfl
  | cons k ls ih =>
    cases vs with
    | nil => rfl
    | cons v vs =>
      rw [List.mem_cons, not_or] at h
      refine (ih _ vs h.2).trans (s.write_of_notMem k.1 k.2 [v] ?_)
      intro hl
      obtain ⟨h₁, h₂, h₃⟩ := mem_region.mp hl
      simp only [List.length_singleton] at h₃
      exact h.1 (Prod.ext h₁ (by omega))

/-- A location that was written holds one of the values written to it. -/
theorem put_of_mem (s : Store κ β) {ls : List (κ × ℕ)} {vs : List β}
    (hlen : ls.length = vs.length) {l : κ × ℕ} (h : l ∈ ls) :
    ∃ (i : ℕ) (h₁ : i < ls.length) (h₂ : i < vs.length),
      ls[i] = l ∧ s.put ls vs l.1 l.2 = vs[i] := by
  induction ls generalizing s vs with
  | nil => cases h
  | cons k ls ih =>
    obtain ⟨v, vs, rfl⟩ := List.exists_cons_of_length_eq_add_one hlen.symm
    have hlen' : ls.length = vs.length := by simpa using hlen
    by_cases hl : l ∈ ls
    · obtain ⟨i, h₁, h₂, hi, hv⟩ := ih (s.write k.1 k.2 [v]) hlen' hl
      exact ⟨i + 1, by simpa using h₁, by simpa using h₂, hi, hv⟩
    · obtain rfl : l = k := (List.mem_cons.mp h).resolve_right hl
      refine ⟨0, by simp, by simp, rfl, ?_⟩
      rw [put, put_of_notMem _ _ hl]
      exact s.write_at l.1 l.2 [v] (show 0 < [v].length by simp)

/-- A location within the written positions gets the value meant for some position of it. -/
theorem put_slice (s : Store κ β) {ls : List (κ × ℕ)} {n : ℕ} (vs : List β) {i : ℕ}
    (hlen : n + vs.length ≤ ls.length) (hi : i < ls.length)
    (h : ls[i] ∈ (ls.drop n).take vs.length) :
    ∃ j, j < vs.length ∧ ls[n + j]? = ls[i]? ∧
      some (s.put ((ls.drop n).take vs.length) vs ls[i].1 ls[i].2) = vs[j]? := by
  have hsize : ((ls.drop n).take vs.length).length = vs.length := by
    simp
    omega
  obtain ⟨j, h₁, h₂, hj, hv⟩ := s.put_of_mem hsize h
  refine ⟨j, h₂, ?_, ?_⟩
  · rw [List.getElem?_eq_getElem hi, ← hj, List.getElem_take, List.getElem_drop,
      List.getElem?_eq_getElem (by omega)]
  · rw [hv, List.getElem?_eq_getElem h₂]

variable {s : Store κ β} {ls : List (κ × ℕ)} {n : ℕ} {vs : List β}

/-- Writing part of a list of locations shows as the values written in their places exactly when
no location would have to hold two different values. -/
theorem read_put_iff (hlen : n + vs.length ≤ ls.length) :
    (s.put ((ls.drop n).take vs.length) vs).read ls = overwrite (s.read ls) n vs ↔
      Uniform ls (overwrite (s.read ls) n vs) := by
  have hlen' : n + vs.length ≤ (s.read ls).length := by simpa using hlen
  constructor
  · intro h
    rw [← h]
    exact uniform_read _ _
  · intro h
    refine List.ext_getElem? fun i => ?_
    rcases lt_or_ge i ls.length with hi | hi
    · have hget : ((s.put ((ls.drop n).take vs.length) vs).read ls)[i]? =
          some (s.put ((ls.drop n).take vs.length) vs ls[i].1 ls[i].2) := by
        simp [read, List.getElem?_eq_getElem hi]
      rw [hget]
      by_cases hw : ls[i] ∈ (ls.drop n).take vs.length
      · obtain ⟨j, hj, hsame, hv⟩ := put_slice s vs hlen hi hw
        rw [hv, h i (n + j) hi hsame.symm, getElem?_overwrite (Nat.le_of_add_right_le hlen'),
          if_pos (by omega), Nat.add_sub_cancel_left]
      · have hout : ¬ (n ≤ i ∧ i < n + vs.length) := fun hr => hw (mem_slice hr.1 hr.2 hi)
        rw [getElem?_overwrite (Nat.le_of_add_right_le hlen'), if_neg hout, put_of_notMem _ _ hw]
        simp [read, List.getElem?_eq_getElem hi]
    · rw [List.getElem?_eq_none (by simpa using hi),
        List.getElem?_eq_none (by rw [length_overwrite hlen']; simpa using hi)]

end Store

end OpenbsdKernel
