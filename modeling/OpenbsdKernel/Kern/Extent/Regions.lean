import OpenbsdKernel.Lib.IntervalList
import OpenbsdKernel.Kern.Extent.Basic

/-!
# What the region list represents

An extent represents the set of addresses covered by its regions. This module
follows the two list scans of `subr_extent.c` and shows what each of them does to
that set and to the order of the list. Addresses are read as natural numbers, so
that a region ending at `ULONG_MAX` needs no special treatment in the statements;
the wrapping comparisons are discharged inside the proofs.
-/
namespace OpenbsdKernel.SubrExtent

open Ivl

def Region.ivl (r : Region) : Ivl ℕ := ⟨r.er_start.toNat, r.er_end.toNat⟩

def ivls (l : List Region) : List (Ivl ℕ) := l.map Region.ivl

@[simp] theorem ivls_nil : ivls [] = [] := rfl

@[simp] theorem ivls_cons (r : Region) (l : List Region) : ivls (r :: l) = r.ivl :: ivls l := rfl

@[simp] theorem ivls_append (l m : List Region) : ivls (l ++ m) = ivls l ++ ivls m :=
  List.map_append

/-- The set of allocated addresses. -/
def Extent.allocated (ex : Extent) : Set ℕ := cover (ivls ex.ex_regions)

/-- The addresses of a request. -/
def request (start end_ : BitVec 64) : Set ℕ := Set.Icc start.toNat end_.toNat

/-- The list invariant: sorted, disjoint and inside the extent. -/
structure Extent.WF (ex : Extent) : Prop where
  sorted : Sorted (ivls ex.ex_regions)
  inside : ex.allocated ⊆ request ex.ex_start ex.ex_end

@[simp] theorem free_ex_regions (ex : Extent) (rp : ErFlags) :
    (freeRegionDescriptor ex rp).ex_regions = ex.ex_regions := by
  unfold freeRegionDescriptor
  split_ifs <;> rfl

@[simp] theorem free_ex_start (ex : Extent) (rp : ErFlags) :
    (freeRegionDescriptor ex rp).ex_start = ex.ex_start := by
  unfold freeRegionDescriptor
  split_ifs <;> rfl

@[simp] theorem free_ex_end (ex : Extent) (rp : ErFlags) :
    (freeRegionDescriptor ex rp).ex_end = ex.ex_end := by
  unfold freeRegionDescriptor
  split_ifs <;> rfl

theorem scanRegions_clear {start end_ : BitVec 64} {rev l rev' rest : List Region}
    (h : scanRegions start end_ rev l = .clear rev' rest)
    (hrev : ∀ r ∈ rev, r.er_end < start) :
    rev'.reverse ++ rest = rev.reverse ++ l ∧ (∀ r ∈ rev', r.er_end < start) ∧
      ∀ r ∈ rest.head?, end_ < r.er_start := by
  induction l generalizing rev with
  | nil =>
    cases h
    exact ⟨rfl, hrev, by simp⟩
  | cons rp l ih =>
    unfold scanRegions at h
    split_ifs at h with hend hstart
    · cases h
      exact ⟨rfl, hrev, by simpa using hend⟩
    · obtain ⟨heq, hlast, hhead⟩ := ih h (by
        intro r hr
        rcases List.mem_cons.mp hr with rfl | hr
        · bv_omega
        · exact hrev r hr)
      exact ⟨by simpa using heq, hlast, hhead⟩

theorem scanRegions_conflict {start end_ : BitVec 64} {rev l rev' rest : List Region} {rp : Region}
    (h : scanRegions start end_ rev l = .conflict rev' rp rest) :
    rev'.reverse ++ rp :: rest = rev.reverse ++ l ∧ rp ∈ l ∧
      rp.er_start ≤ end_ ∧ start ≤ rp.er_end := by
  induction l generalizing rev with
  | nil => cases h
  | cons q l ih =>
    unfold scanRegions at h
    split_ifs at h with hend hstart
    · cases h
      exact ⟨rfl, by simp, by bv_omega, hstart⟩
    · obtain ⟨heq, hmem, hrest⟩ := ih h
      exact ⟨by simpa using heq, List.mem_cons_of_mem q hmem, hrest⟩

/-- In a sorted list the first region past the request bounds all later ones. -/
theorem clear_of_head {end_ : BitVec 64} {rest : List Region} (hs : Sorted (ivls rest))
    (hhead : ∀ r ∈ rest.head?, end_ < r.er_start) : ∀ r ∈ rest, end_ < r.er_start := by
  cases rest with
  | nil => simp
  | cons first more =>
    intro r hr
    have hfirst : end_ < first.er_start := hhead first (by simp)
    rcases List.mem_cons.mp hr with rfl | hr
    · exact hfirst
    · obtain ⟨hle, hlt, -⟩ := sorted_cons.mp hs
      have hr' := hlt r.ivl (List.mem_map_of_mem hr)
      simp only [Region.ivl] at hle hr'
      bv_omega

/-- The list splits at a gap that has room for `[start, start + (size - 1#64)]`. -/
structure Gap (start size : BitVec 64) (rev rest : List Region) : Prop where
  sorted : Sorted (ivls (rev.reverse ++ rest))
  fits : start ≤ start + (size - 1#64)
  before : ∀ r ∈ rev, r.er_end < start
  after : ∀ r ∈ rest, start + (size - 1#64) < r.er_start

namespace Gap

variable {start size : BitVec 64} {rev rest before more : List Region} {a b : Region}

theorem le_toNat (h : Gap start size rev rest) :
    start.toNat ≤ (start + (size - 1#64)).toNat := h.fits

theorem lt_ivls (h : Gap start size rev rest) :
    ∀ x ∈ ivls rev.reverse, x.hi < start.toNat := by
  intro x hx
  obtain ⟨r, hr, rfl⟩ := List.mem_map.mp hx
  exact h.before r (List.mem_reverse.mp hr)

theorem ivls_lt (h : Gap start size rev rest) :
    ∀ x ∈ ivls rest, (start + (size - 1#64)).toNat < x.lo := by
  intro x hx
  obtain ⟨r, hr, rfl⟩ := List.mem_map.mp hx
  exact h.after r hr

/-- `er_end + 1#64 == start` cannot be a wrapped comparison: the region ends before `start`. -/
theorem append_iff (h : Gap start size (a :: before) rest) :
    a.er_end + 1#64 = start ↔ a.er_end.toNat + 1 = start.toNat := by
  have ha := h.before a (by simp)
  constructor <;> intro he <;> bv_omega

/-- `start + size == er_start` cannot be a wrapped comparison either. -/
theorem prepend_iff (h : Gap start size rev (b :: more)) :
    start + size = b.er_start ↔ (start + (size - 1#64)).toNat + 1 = b.er_start.toNat := by
  have hb := h.after b (by simp)
  have hs : start + size = start + (size - 1#64) + 1 := by bv_omega
  rw [hs]
  constructor <;> intro he <;> bv_omega

end Gap

/-- The specification shared by all branches of the insertion. -/
def Inserted (start end_ : BitVec 64) (old new : List Region) : Prop :=
  Sorted (ivls new) ∧ cover (ivls new) = cover (ivls old) ∪ request start end_

section Insert

variable {start size : BitVec 64} {rev rest before more : List Region} {a b : Region}

theorem Gap.fresh (h : Gap start size rev rest) (rp : ErFlags) :
    Inserted start (start + (size - 1#64)) (rev.reverse ++ rest)
      (rev.reverse ++ ⟨start, start + (size - 1#64), rp⟩ :: rest) := by
  have hs := h.sorted
  simp only [Inserted, ivls_append, ivls_cons] at hs ⊢
  exact insert_fresh hs h.le_toNat h.lt_ivls h.ivls_lt

theorem Gap.append (h : Gap start size (a :: before) rest) (ha : a.er_end + 1#64 = start) :
    Inserted start (start + (size - 1#64)) ((a :: before).reverse ++ rest)
      (before.reverse ++ { a with er_end := start + (size - 1#64) } :: rest) := by
  have hs := h.sorted
  simp only [Inserted, List.reverse_cons, List.append_assoc, List.singleton_append, ivls_append,
    ivls_cons] at hs ⊢
  exact insert_append hs h.le_toNat (h.append_iff.mp ha) h.ivls_lt

theorem Gap.prepend (h : Gap start size rev (b :: more)) (hb : start + size = b.er_start) :
    Inserted start (start + (size - 1#64)) (rev.reverse ++ b :: more)
      (rev.reverse ++ { b with er_start := start } :: more) := by
  have hs := h.sorted
  simp only [Inserted, ivls_append, ivls_cons] at hs ⊢
  exact insert_prepend hs h.le_toNat (h.prepend_iff.mp hb) h.lt_ivls

theorem Gap.join (h : Gap start size (a :: before) (b :: more)) (ha : a.er_end + 1#64 = start)
    (hb : start + size = b.er_start) :
    Inserted start (start + (size - 1#64)) ((a :: before).reverse ++ b :: more)
      (before.reverse ++ { a with er_end := b.er_end } :: more) := by
  have hs := h.sorted
  simp only [Inserted, List.reverse_cons, List.append_assoc, List.singleton_append, ivls_append,
    ivls_cons] at hs ⊢
  exact insert_join hs h.le_toNat (h.append_iff.mp ha) (h.prepend_iff.mp hb)

/-- Every branch of `extent_insert_and_optimize` adds exactly the requested range. -/
theorem insertAndOptimize_inserted (ex : Extent) (rp : ErFlags) (h : Gap start size rev rest) :
    Inserted start (start + (size - 1#64)) (rev.reverse ++ rest)
      (extentInsertAndOptimize ex start size rev rest rp).ex_regions := by
  have hfresh := h.fresh rp
  unfold extentInsertAndOptimize
  cases rev with
  | nil =>
    cases rest with
    | nil => exact hfresh
    | cons first more =>
      dsimp only
      split_ifs with hc
      · simpa using h.prepend hc.2
      · exact hfresh
  | cons after before =>
    simp only [List.reverse_cons, List.append_assoc, List.singleton_append] at hfresh
    by_cases hnc : ex.nocoalesce = true
    · simpa [hnc] using hfresh
    · by_cases happ : after.er_end + 1#64 = start
      · cases rest with
        | nil => simpa [hnc, happ] using h.append happ
        | cons nextr more =>
          by_cases hnext : start + size = nextr.er_start
          · simpa [hnc, happ, hnext] using h.join happ hnext
          · simpa [hnc, happ, hnext] using h.append happ
      · cases rest with
        | nil => simpa [hnc, happ] using hfresh
        | cons nextr more =>
          by_cases hnext : start + size = nextr.er_start
          · simpa [hnc, happ, hnext] using h.prepend hnext
          · simpa [hnc, happ, hnext] using hfresh

theorem insertAndOptimize_bounds (ex : Extent) (rp : ErFlags) :
    (extentInsertAndOptimize ex start size rev rest rp).ex_start = ex.ex_start ∧
      (extentInsertAndOptimize ex start size rev rest rp).ex_end = ex.ex_end := by
  unfold extentInsertAndOptimize
  cases rev with
  | nil =>
    cases rest with
    | nil => exact ⟨rfl, rfl⟩
    | cons first more => dsimp only; split_ifs <;> simp
  | cons after before =>
    cases rest with
    | nil => dsimp only; split_ifs <;> simp
    | cons nextr more => dsimp only; split_ifs <;> simp

end Insert

/-- A successful search of `extent_free` removes exactly the given range, all of
which was allocated. -/
theorem freeRegions_removed {start end_ : BitVec 64} {nrp : Option ErFlags} (pre : List Region)
    {l new : List Region} {descrs : List ErFlags} (hle : start ≤ end_) (hs : Sorted (ivls (pre ++ l)))
    (h : freeRegions start end_ nrp l = some (new, descrs)) :
    request start end_ ⊆ cover (ivls (pre ++ l)) ∧ Sorted (ivls (pre ++ new)) ∧
      cover (ivls (pre ++ new)) = cover (ivls (pre ++ l)) \ request start end_ := by
  induction l generalizing pre new descrs with
  | nil => simp [freeRegions] at h
  | cons rp rest ih =>
    have hskip : ((freeRegions start end_ nrp rest).map fun r => (rp :: r.1, r.2)) =
        some (new, descrs) → request start end_ ⊆ cover (ivls (pre ++ rp :: rest)) ∧
        Sorted (ivls (pre ++ new)) ∧
        cover (ivls (pre ++ new)) = cover (ivls (pre ++ rp :: rest)) \ request start end_ := by
      intro hk
      obtain ⟨⟨new', descrs'⟩, hrec, heq⟩ := Option.map_eq_some_iff.mp hk
      cases heq
      have hrest := ih (pre ++ [rp]) (by simpa using hs) hrec
      simpa using hrest
    have hs' : Sorted (ivls pre ++ rp.ivl :: ivls rest) := by simpa using hs
    have hsub : rp.er_start ≤ start → end_ ≤ rp.er_end →
        request start end_ ⊆ cover (ivls (pre ++ rp :: rest)) := by
      intro h1 h2 c hc
      obtain ⟨hc1, hc2⟩ := hc
      exact ⟨rp.ivl, by simp, le_trans h1 hc1, le_trans hc2 h2⟩
    have hwhole : start = rp.er_start ∧ end_ = rp.er_end → Sorted (ivls (pre ++ rest)) ∧
        cover (ivls (pre ++ rest)) = cover (ivls (pre ++ rp :: rest)) \ request start end_ := by
      rintro ⟨rfl, rfl⟩
      simpa [request, Region.ivl] using remove_all hs'
    cases nrp with
    | none =>
      simp only [freeRegions] at h
      split_ifs at h with hbefore hafter hexact
      · exact hskip h
      · cases h
        exact ⟨hsub (by bv_omega) (by bv_omega), hwhole hexact⟩
      · exact hskip h
    | some d =>
      simp only [freeRegions] at h
      split_ifs at h with hbefore hafter hexact h2 h3 h4
      · exact hskip h
      · cases h
        exact ⟨hsub (by bv_omega) (by bv_omega), hwhole hexact⟩
      · cases h
        refine ⟨hsub (by bv_omega) (by bv_omega), ?_⟩
        obtain ⟨rfl, hlt⟩ := h2
        have hnw : (end_ + 1#64).toNat = end_.toNat + 1 := by bv_omega
        have hrem := remove_front hs' hle hlt
        simpa [request, Region.ivl, hnw] using hrem
      · cases h
        refine ⟨hsub (by bv_omega) (by bv_omega), ?_⟩
        obtain ⟨hlt, rfl⟩ := h3
        have hnw : (start - 1#64).toNat = start.toNat - 1 := by bv_omega
        have hrem := remove_back hs' hlt hle
        simpa [request, Region.ivl, hnw] using hrem
      · cases h
        refine ⟨hsub (by bv_omega) (by bv_omega), ?_⟩
        have hnw : (start - 1#64).toNat = start.toNat - 1 := by bv_omega
        have hnw' : (end_ + 1#64).toNat = end_.toNat + 1 := by bv_omega
        have hrem := remove_middle hs' h4.1 hle h4.2
        simpa [request, Region.ivl, hnw, hnw'] using hrem
      · exact hskip h

end OpenbsdKernel.SubrExtent
