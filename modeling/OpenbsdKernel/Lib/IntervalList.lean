import Mathlib

/-!
# Ordered lists of disjoint closed intervals

A list of closed intervals represents the set it covers. `Sorted` is the usual
canonical shape: every interval is nonempty and each one ends before the next
one begins. The lemmas split both notions along appends, so an edit in the middle
of a list is justified from the edited piece and its two neighbours alone.
-/
namespace OpenbsdKernel

/-- A closed interval by its two ends. -/
structure Ivl (α : Type*) where
  lo : α
  hi : α
  deriving DecidableEq, Repr

namespace Ivl

variable {α : Type*} [LinearOrder α]

/-- The set represented by a list of intervals. -/
def cover (l : List (Ivl α)) : Set α := {a | ∃ x ∈ l, a ∈ Set.Icc x.lo x.hi}

/-- Every interval of `l` ends before every interval of `m` begins. -/
def Below (l m : List (Ivl α)) : Prop := ∀ x ∈ l, ∀ y ∈ m, x.hi < y.lo

/-- Nonempty intervals in strictly increasing, disjoint order. -/
def Sorted (l : List (Ivl α)) : Prop :=
  (∀ x ∈ l, x.lo ≤ x.hi) ∧ l.Pairwise fun x y => x.hi < y.lo

@[simp] theorem mem_cover {l : List (Ivl α)} {a : α} :
    a ∈ cover l ↔ ∃ x ∈ l, x.lo ≤ a ∧ a ≤ x.hi := Iff.rfl

@[simp] theorem cover_nil : cover ([] : List (Ivl α)) = ∅ := by
  ext a
  simp

theorem cover_cons (x : Ivl α) (l : List (Ivl α)) :
    cover (x :: l) = Set.Icc x.lo x.hi ∪ cover l := by
  ext a
  simp

theorem cover_append (l m : List (Ivl α)) : cover (l ++ m) = cover l ∪ cover m := by
  ext a
  simp only [mem_cover, List.mem_append, Set.mem_union, or_and_right, exists_or]

@[simp] theorem sorted_nil : Sorted ([] : List (Ivl α)) := by simp [Sorted]

@[simp] theorem below_nil_left (l : List (Ivl α)) : Below [] l := by simp [Below]

@[simp] theorem below_nil_right (l : List (Ivl α)) : Below l [] := by simp [Below]

theorem below_cons_right {l m : List (Ivl α)} {y : Ivl α} :
    Below l (y :: m) ↔ (∀ x ∈ l, x.hi < y.lo) ∧ Below l m := by
  simp only [Below, List.mem_cons, forall_eq_or_imp]
  constructor
  · intro h
    exact ⟨fun x hx => (h x hx).1, fun x hx => (h x hx).2⟩
  · intro h x hx
    exact ⟨h.1 x hx, h.2 x hx⟩

theorem below_cons_left {l m : List (Ivl α)} {x : Ivl α} :
    Below (x :: l) m ↔ (∀ y ∈ m, x.hi < y.lo) ∧ Below l m := by
  simp only [Below, List.mem_cons, forall_eq_or_imp]

theorem sorted_cons {x : Ivl α} {l : List (Ivl α)} :
    Sorted (x :: l) ↔ x.lo ≤ x.hi ∧ (∀ y ∈ l, x.hi < y.lo) ∧ Sorted l := by
  simp only [Sorted, List.mem_cons, forall_eq_or_imp, List.pairwise_cons]
  tauto

theorem sorted_append {l m : List (Ivl α)} :
    Sorted (l ++ m) ↔ Sorted l ∧ Sorted m ∧ Below l m := by
  simp only [Sorted, Below, List.mem_append, or_imp, forall_and, List.pairwise_append]
  tauto

/-- Exchange the middle of a sorted list for another sorted piece that still fits
between the two sides. -/
theorem Sorted.exchange {l m k n : List (Ivl α)} (h : Sorted (l ++ (m ++ n))) (hm : Sorted k)
    (hl : Below l k) (hn : Below k n) : Sorted (l ++ (k ++ n)) := by
  obtain ⟨hsl, hsmn, hlmn⟩ := sorted_append.mp h
  obtain ⟨-, hsn, -⟩ := sorted_append.mp hsmn
  refine sorted_append.mpr ⟨hsl, sorted_append.mpr ⟨hm, hsn, hn⟩, ?_⟩
  intro x hx y hy
  rcases List.mem_append.mp hy with hy | hy
  · exact hl x hx y hy
  · exact hlmn x hx y (List.mem_append_right m hy)

theorem cover_exchange_union {l m k n : List (Ivl α)} {S : Set α}
    (h : cover k = cover m ∪ S) : cover (l ++ (k ++ n)) = cover (l ++ (m ++ n)) ∪ S := by
  simp only [cover_append, h, Set.union_assoc, Set.union_comm S]

theorem cover_exchange_diff {l m k n : List (Ivl α)} {S : Set α}
    (h : cover k = cover m \ S) (hl : Disjoint (cover l) S) (hn : Disjoint (cover n) S) :
    cover (l ++ (k ++ n)) = cover (l ++ (m ++ n)) \ S := by
  simp only [cover_append, h, Set.union_sdiff_distrib, hl.sdiff_eq_left, hn.sdiff_eq_left]

theorem disjoint_cover_left {l : List (Ivl α)} {a b : α} (h : ∀ x ∈ l, x.hi < a) :
    Disjoint (cover l) (Set.Icc a b) := by
  rw [Set.disjoint_left]
  rintro c ⟨x, hx, -, hc⟩ ⟨hac, -⟩
  exact absurd (hc.trans_lt (h x hx)) (not_lt.mpr hac)

theorem disjoint_cover_right {l : List (Ivl α)} {a b : α} (h : ∀ x ∈ l, b < x.lo) :
    Disjoint (cover l) (Set.Icc a b) := by
  rw [Set.disjoint_left]
  rintro c ⟨x, hx, hc, -⟩ ⟨-, hcb⟩
  exact absurd ((h x hx).trans_le hc) (not_lt.mpr hcb)

/-- A list misses a closed range when each interval lies on one side of it. -/
theorem disjoint_cover {l : List (Ivl α)} {a b : α} (h : ∀ x ∈ l, x.hi < a ∨ b < x.lo) :
    Disjoint (cover l) (Set.Icc a b) := by
  rw [Set.disjoint_left]
  rintro c ⟨x, hx, hlo, hhi⟩ ⟨hac, hcb⟩
  rcases h x hx with h | h
  · exact absurd (hhi.trans_lt h) (not_lt.mpr hac)
  · exact absurd (h.trans_le hlo) (not_lt.mpr hcb)

section Insert

variable {l n : List (Ivl ℕ)} {a b : Ivl ℕ} {lo hi : ℕ}

theorem insert_fresh (h : Sorted (l ++ n)) (hle : lo ≤ hi) (hl : ∀ x ∈ l, x.hi < lo)
    (hn : ∀ x ∈ n, hi < x.lo) :
    Sorted (l ++ ⟨lo, hi⟩ :: n) ∧ cover (l ++ ⟨lo, hi⟩ :: n) = cover (l ++ n) ∪ Set.Icc lo hi := by
  refine ⟨Sorted.exchange (m := []) (k := [⟨lo, hi⟩]) h ?_ ?_ ?_,
    cover_exchange_union (m := []) (k := [⟨lo, hi⟩]) ?_⟩
  · simpa [sorted_cons] using hle
  · simpa [below_cons_right] using hl
  · simpa [below_cons_left] using hn
  · simp [cover_cons]

/-- The range joins the interval that ends right before it. -/
theorem insert_append (h : Sorted (l ++ a :: n)) (hle : lo ≤ hi) (ha : a.hi + 1 = lo)
    (hn : ∀ x ∈ n, hi < x.lo) :
    Sorted (l ++ ⟨a.lo, hi⟩ :: n) ∧
      cover (l ++ ⟨a.lo, hi⟩ :: n) = cover (l ++ a :: n) ∪ Set.Icc lo hi := by
  obtain ⟨-, han, hla⟩ := sorted_append.mp h
  have hale : a.lo ≤ a.hi := (sorted_cons.mp han).1
  refine ⟨Sorted.exchange (m := [a]) (k := [⟨a.lo, hi⟩]) h ?_ ?_ ?_,
    cover_exchange_union (m := [a]) (k := [⟨a.lo, hi⟩]) ?_⟩
  · simp only [sorted_cons, sorted_nil, List.not_mem_nil]
    exact ⟨by omega, by simp, trivial⟩
  · simpa [below_cons_right] using (below_cons_right.mp hla).1
  · simpa [below_cons_left] using hn
  · ext c
    simp only [mem_cover, List.mem_singleton, exists_eq_left, Set.mem_union, Set.mem_Icc]
    omega

/-- The range joins the interval that begins right after it. -/
theorem insert_prepend (h : Sorted (l ++ b :: n)) (hle : lo ≤ hi) (hb : hi + 1 = b.lo)
    (hl : ∀ x ∈ l, x.hi < lo) :
    Sorted (l ++ ⟨lo, b.hi⟩ :: n) ∧
      cover (l ++ ⟨lo, b.hi⟩ :: n) = cover (l ++ b :: n) ∪ Set.Icc lo hi := by
  obtain ⟨-, hbn, -⟩ := sorted_append.mp h
  obtain ⟨hble, hbn, -⟩ := sorted_cons.mp hbn
  refine ⟨Sorted.exchange (m := [b]) (k := [⟨lo, b.hi⟩]) h ?_ ?_ ?_,
    cover_exchange_union (m := [b]) (k := [⟨lo, b.hi⟩]) ?_⟩
  · simp only [sorted_cons, sorted_nil, List.not_mem_nil]
    exact ⟨by omega, by simp, trivial⟩
  · simpa [below_cons_right] using hl
  · simpa [below_cons_left] using hbn
  · ext c
    simp only [mem_cover, List.mem_singleton, exists_eq_left, Set.mem_union, Set.mem_Icc]
    omega

theorem insert_join (h : Sorted (l ++ a :: b :: n)) (hle : lo ≤ hi) (ha : a.hi + 1 = lo)
    (hb : hi + 1 = b.lo) :
    Sorted (l ++ ⟨a.lo, b.hi⟩ :: n) ∧
      cover (l ++ ⟨a.lo, b.hi⟩ :: n) = cover (l ++ a :: b :: n) ∪ Set.Icc lo hi := by
  obtain ⟨-, habn, hla⟩ := sorted_append.mp h
  obtain ⟨hale, -, hbn⟩ := sorted_cons.mp habn
  obtain ⟨hble, hbn, -⟩ := sorted_cons.mp hbn
  refine ⟨Sorted.exchange (m := [a, b]) (k := [⟨a.lo, b.hi⟩]) h ?_ ?_ ?_,
    cover_exchange_union (m := [a, b]) (k := [⟨a.lo, b.hi⟩]) ?_⟩
  · simp only [sorted_cons, sorted_nil, List.not_mem_nil]
    exact ⟨by omega, by simp, trivial⟩
  · simpa [below_cons_right] using (below_cons_right.mp hla).1
  · simpa [below_cons_left] using hbn
  · ext c
    simp only [mem_cover, List.mem_cons, List.not_mem_nil, or_false, exists_eq_or_imp,
      exists_eq_left, Set.mem_union, Set.mem_Icc]
    omega

end Insert

section Remove

variable {l n : List (Ivl ℕ)} {a : Ivl ℕ} {lo hi : ℕ}

/-- Replace one interval by the pieces `m` that remain of it. -/
theorem remove_pieces {m : List (Ivl ℕ)} (h : Sorted (l ++ a :: n)) (hlo : a.lo ≤ lo)
    (hhi : hi ≤ a.hi) (hm : Sorted m) (hmem : ∀ x ∈ m, a.lo ≤ x.lo ∧ x.hi ≤ a.hi)
    (hc : cover m = Set.Icc a.lo a.hi \ Set.Icc lo hi) :
    Sorted (l ++ (m ++ n)) ∧ cover (l ++ (m ++ n)) = cover (l ++ a :: n) \ Set.Icc lo hi := by
  obtain ⟨-, han, hla⟩ := sorted_append.mp h
  obtain ⟨-, hbn, -⟩ := sorted_cons.mp han
  have hla' := (below_cons_right.mp hla).1
  refine ⟨Sorted.exchange (m := [a]) h hm ?_ ?_,
    cover_exchange_diff (m := [a]) (by simpa [cover_cons] using hc) ?_ ?_⟩
  · intro x hx y hy
    exact (hla' x hx).trans_le (hmem y hy).1
  · intro x hx y hy
    exact (hmem x hx).2.trans_lt (hbn y hy)
  · exact disjoint_cover_left fun x hx => (hla' x hx).trans_le hlo
  · exact disjoint_cover_right fun x hx => hhi.trans_lt (hbn x hx)

theorem remove_all (h : Sorted (l ++ a :: n)) :
    Sorted (l ++ n) ∧ cover (l ++ n) = cover (l ++ a :: n) \ Set.Icc a.lo a.hi :=
  remove_pieces (m := []) h le_rfl le_rfl sorted_nil (by simp) (by simp)

theorem remove_front (h : Sorted (l ++ a :: n)) (hle : a.lo ≤ hi) (hhi : hi < a.hi) :
    Sorted (l ++ ⟨hi + 1, a.hi⟩ :: n) ∧
      cover (l ++ ⟨hi + 1, a.hi⟩ :: n) = cover (l ++ a :: n) \ Set.Icc a.lo hi := by
  refine remove_pieces (m := [⟨hi + 1, a.hi⟩]) h le_rfl hhi.le ?_ ?_ ?_
  · simpa [sorted_cons] using hhi
  · simpa using hle.trans (Nat.le_succ hi)
  · ext c
    simp only [mem_cover, List.mem_singleton, exists_eq_left, Set.mem_sdiff, Set.mem_Icc]
    omega

theorem remove_back (h : Sorted (l ++ a :: n)) (hlo : a.lo < lo) (hle : lo ≤ a.hi) :
    Sorted (l ++ ⟨a.lo, lo - 1⟩ :: n) ∧
      cover (l ++ ⟨a.lo, lo - 1⟩ :: n) = cover (l ++ a :: n) \ Set.Icc lo a.hi := by
  refine remove_pieces (m := [⟨a.lo, lo - 1⟩]) h hlo.le le_rfl ?_ ?_ ?_
  · simp only [sorted_cons, sorted_nil, List.not_mem_nil]
    exact ⟨by omega, by simp, trivial⟩
  · simp only [List.mem_singleton, forall_eq]
    omega
  · ext c
    simp only [mem_cover, List.mem_singleton, exists_eq_left, Set.mem_sdiff, Set.mem_Icc]
    omega

theorem remove_middle (h : Sorted (l ++ a :: n)) (hlo : a.lo < lo) (hle : lo ≤ hi)
    (hhi : hi < a.hi) :
    Sorted (l ++ ⟨a.lo, lo - 1⟩ :: ⟨hi + 1, a.hi⟩ :: n) ∧
      cover (l ++ ⟨a.lo, lo - 1⟩ :: ⟨hi + 1, a.hi⟩ :: n) =
        cover (l ++ a :: n) \ Set.Icc lo hi := by
  refine remove_pieces (m := [⟨a.lo, lo - 1⟩, ⟨hi + 1, a.hi⟩]) h hlo.le hhi.le ?_ ?_ ?_
  · simp only [sorted_cons, sorted_nil, List.not_mem_nil, List.mem_singleton, forall_eq]
    exact ⟨by omega, by omega, by omega, by simp, trivial⟩
  · simp only [List.mem_cons, List.not_mem_nil, or_false, forall_eq_or_imp, forall_eq]
    omega
  · ext c
    simp only [mem_cover, List.mem_cons, List.not_mem_nil, or_false, exists_eq_or_imp,
      exists_eq_left, Set.mem_sdiff, Set.mem_Icc]
    omega

end Remove

end Ivl
end OpenbsdKernel
