import OpenbsdKernel.Kern.Extent.Runs

/-!
# Allocations that tolerate conflicts

The retry loop of `extent_alloc_region` under `EX_CONFLICTOK`. Each restart moves
the start past a region, deletes a region inside the request, or moves the end in
front of a region. The loop always ends; whether it leaves exactly the request
added depends on the region that holds the last requested address.
-/
namespace OpenbsdKernel.SubrExtent

open Ivl

/-- The request is answered with zero and its addresses are added to the map. -/
structure Serves (ex : Extent) (start end_ : BitVec 64) (r : Extent × Result) : Prop where
  returned : r.2 = .ret none
  inserted : Inserted start end_ ex.ex_regions r.1.ex_regions

/-- The region that holds the last requested address, if there is one, either
covers the rest of a request that is allocated already and needs no change, or
begins before that address. -/
def EndOk (ex : Extent) (start end_ : BitVec 64) : Prop :=
  ∀ rp ∈ ex.ex_regions, rp.er_start ≤ end_ → end_ ≤ rp.er_end →
    (request start end_ ⊆ ex.allocated →
      rp.er_end = ex.ex_end ∨ (rp.er_end = end_ ∧ ex.nocoalesce = false)) ∧
    (¬ request start end_ ⊆ ex.allocated → rp.er_start ≠ end_)

theorem scanRegions_conflict_before {start end_ : BitVec 64} {rev l rev' rest : List Region}
    {rp : Region} (h : scanRegions start end_ rev l = .conflict rev' rp rest)
    (hrev : ∀ r ∈ rev, r.er_end < start) : ∀ r ∈ rev', r.er_end < start := by
  induction l generalizing rev with
  | nil => cases h
  | cons q l ih =>
    unfold scanRegions at h
    split_ifs at h with hend hstart
    · cases h
      exact hrev
    · apply ih h
      intro r hr
      rcases List.mem_cons.mp hr with rfl | hr
      · bv_omega
      · exact hrev r hr

theorem scanRegions_append {start end_ : BitVec 64} {l : List Region} (rev m : List Region)
    (hl : ∀ r ∈ l, r.er_start ≤ end_ ∧ r.er_end < start) :
    scanRegions start end_ rev (l ++ m) = scanRegions start end_ (l.reverse ++ rev) m := by
  induction l generalizing rev with
  | nil => rfl
  | cons q l ih =>
    have hq := hl q (by simp)
    have hq1 : ¬ end_ < q.er_start := by bv_omega
    have hq2 : ¬ start ≤ q.er_end := by bv_omega
    rw [List.cons_append, scanRegions, if_neg hq1, if_neg hq2,
      ih (q :: rev) fun r hr => hl r (List.mem_cons_of_mem q hr)]
    simp

theorem scanRegions_head {start end_ : BitVec 64} (rev : List Region) {m : List Region}
    (hm : ∀ r ∈ m, end_ < r.er_start) : scanRegions start end_ rev m = .clear rev m := by
  cases m with
  | nil => rfl
  | cons q m => rw [scanRegions, if_pos (hm q (by simp))]

section Order

variable {l m : List Region} {rp r : Region}

theorem Region.start_le_end (hs : Sorted (ivls l)) (hr : r ∈ l) : r.er_start ≤ r.er_end :=
  hs.1 r.ivl (List.mem_map_of_mem hr)

theorem lt_of_before (hs : Sorted (ivls (l ++ rp :: m))) (hr : r ∈ l) :
    r.er_end < rp.er_start := by
  rw [ivls_append, ivls_cons] at hs
  exact (below_cons_right.mp (sorted_append.mp hs).2.2).1 r.ivl (List.mem_map_of_mem hr)

theorem lt_of_after (hs : Sorted (ivls (l ++ rp :: m))) (hr : r ∈ m) :
    rp.er_end < r.er_start := by
  rw [ivls_append, ivls_cons] at hs
  exact (sorted_cons.mp (sorted_append.mp hs).2.1).2.1 r.ivl (List.mem_map_of_mem hr)

theorem mem_allocated {ex : Extent} {a : ℕ} :
    a ∈ ex.allocated ↔ ∃ r ∈ ex.ex_regions, r.er_start.toNat ≤ a ∧ a ≤ r.er_end.toNat := by
  simp [Extent.allocated, ivls, Region.ivl]

theorem eq_of_overlap (hs : Sorted (ivls (l ++ rp :: m))) (hr : r ∈ l ++ rp :: m) {a : BitVec 64}
    (hra : r.er_start ≤ a) (har : a ≤ r.er_end) (hpa : rp.er_start ≤ a) (hap : a ≤ rp.er_end) :
    r = rp := by
  rcases List.mem_append.mp hr with hr | hr
  · have := lt_of_before hs hr
    bv_omega
  · rcases List.mem_cons.mp hr with rfl | hr
    · rfl
    · have := lt_of_after hs hr
      bv_omega

end Order

theorem Sorted.deleted (hs : Sorted (ivls (l ++ rp :: m))) : Sorted (ivls (l ++ m)) := by
  rw [ivls_append] at hs ⊢
  exact (remove_all hs).1

theorem Inserted.of_deleted {start end_ : BitVec 64} {new : List Region}
    (h : Inserted start end_ (l ++ m) new) (h1 : start ≤ rp.er_start) (h2 : rp.er_end ≤ end_) :
    Inserted start end_ (l ++ rp :: m) new := by
  refine ⟨h.1, ?_⟩
  have hsub : Set.Icc rp.ivl.lo rp.ivl.hi ⊆ request start end_ := Set.Icc_subset_Icc h1 h2
  rw [h.2, ivls_append, ivls_append, ivls_cons, cover_append, cover_append, cover_cons,
    Set.union_assoc, Set.union_assoc, Set.union_assoc, Set.union_comm (Set.Icc _ _),
    Set.union_assoc, Set.union_eq_self_of_subset_right hsub]

theorem Inserted.of_covered {start end_ start' end' : BitVec 64} {new : List Region}
    (h : Inserted start' end' l new)
    (hu : cover (ivls l) ∪ request start' end' = cover (ivls l) ∪ request start end_) :
    Inserted start end_ l new := ⟨h.1, h.2.trans hu⟩

section Loop

variable {ex : Extent} {start size end_ : BitVec 64} {fl : Flags} {myrp : ErFlags}

theorem allocStart_clear (n : ℕ) {rev rest : List Region} (hs : Sorted (ivls ex.ex_regions))
    (hle : start ≤ end_) (hsize : start + (size - 1#64) = end_)
    (hscan : scanRegions start end_ [] ex.ex_regions = .clear rev rest) :
    Serves ex start end_ (allocStart (n + 1) ex start size end_ fl myrp) := by
  obtain ⟨heq, hrev, hhead⟩ := scanRegions_clear hscan (by simp)
  simp only [List.reverse_nil, List.nil_append] at heq
  have hsorted : Sorted (ivls (rev.reverse ++ rest)) := heq ▸ hs
  have hrest : Sorted (ivls rest) := by
    rw [ivls_append] at hsorted
    exact (sorted_append.mp hsorted).2.1
  subst hsize
  have hgap : Gap start size rev rest := ⟨hsorted, hle, hrev, clear_of_head hrest hhead⟩
  rw [allocStart, hscan]
  exact ⟨rfl, heq ▸ insertAndOptimize_inserted ex myrp hgap⟩

theorem endOk_clear {rev rest : List Region} (hs : Sorted (ivls ex.ex_regions))
    (hle : start ≤ end_) (hscan : scanRegions start end_ [] ex.ex_regions = .clear rev rest) :
    ∀ rp ∈ ex.ex_regions, rp.er_start ≤ end_ → ¬ end_ ≤ rp.er_end := by
  obtain ⟨heq, hrev, hhead⟩ := scanRegions_clear hscan (by simp)
  simp only [List.reverse_nil, List.nil_append] at heq
  have hrest : Sorted (ivls rest) := by
    rw [← heq, ivls_append] at hs
    exact (sorted_append.mp hs).2.1
  intro rp hrp h1 h2
  rw [← heq] at hrp
  rcases List.mem_append.mp hrp with hrp | hrp
  · have := hrev rp (List.mem_reverse.mp hrp)
    bv_omega
  · have := clear_of_head hrest hhead rp hrp
    bv_omega

/-- The scan in front of a region that begins behind the start finds no conflict. -/
theorem scanRegions_shrunk {rev rest : List Region} {rp : Region}
    (hs : Sorted (ivls (rev.reverse ++ rp :: rest))) (hrev : ∀ r ∈ rev, r.er_end < start)
    (hgt : start < rp.er_start) :
    scanRegions start (rp.er_start - 1#64) [] (rev.reverse ++ rp :: rest) =
      .clear rev (rp :: rest) := by
  rw [scanRegions_append, List.reverse_reverse, List.append_nil, scanRegions_head]
  · intro r hr
    have hrp := Region.start_le_end hs (r := rp) (by simp)
    rcases List.mem_cons.mp hr with rfl | hr
    · bv_omega
    · have := lt_of_after hs hr
      bv_omega
  · intro r hr
    have := hrev r (List.mem_reverse.mp hr)
    have := Region.start_le_end hs (List.mem_append_left _ hr)
    constructor <;> bv_omega

/-- What lies in front of the region that holds the end is all that is missing. -/
theorem union_shrunk {rp : Region} (hmem : rp ∈ ex.ex_regions) (hgt : start < rp.er_start)
    (hend : rp.er_start ≤ end_) (hover : end_ ≤ rp.er_end) :
    ex.allocated ∪ request start (rp.er_start - 1#64) = ex.allocated ∪ request start end_ := by
  have hpred : (rp.er_start - 1#64).toNat = rp.er_start.toNat - 1 := by bv_omega
  have h1 : start.toNat < rp.er_start.toNat := hgt
  have h2 : rp.er_start.toNat ≤ end_.toNat := hend
  have h3 : end_.toNat ≤ rp.er_end.toNat := hover
  ext a
  simp only [Set.mem_union, request, Set.mem_Icc, hpred]
  constructor
  · rintro (h | h)
    · exact .inl h
    · exact .inr (by omega)
  · rintro (h | h)
    · exact .inl h
    · by_cases ha : a < rp.er_start.toNat
      · exact .inr (by omega)
      · exact .inl (mem_allocated.mpr ⟨rp, hmem, by omega, by omega⟩)

theorem allocStart_shrunk (n : ℕ) {rev rest : List Region} {rp : Region}
    (hregs : ex.ex_regions = rev.reverse ++ rp :: rest) (hs : Sorted (ivls ex.ex_regions))
    (hrev : ∀ r ∈ rev, r.er_end < start) (hgt : start < rp.er_start) (hend : rp.er_start ≤ end_)
    (hover : end_ ≤ rp.er_end) :
    Serves ex start end_ (allocStart (n + 1) ex start (rp.er_start - 1#64 - start + 1#64)
      (rp.er_start - 1#64) fl myrp) := by
  have hscan := scanRegions_shrunk (hregs ▸ hs) hrev hgt
  rw [← hregs] at hscan
  have hle : start ≤ rp.er_start - 1#64 := by bv_omega
  have hsize : start + (rp.er_start - 1#64 - start + 1#64 - 1#64) = rp.er_start - 1#64 := by
    bv_omega
  have hdone : Serves ex start (rp.er_start - 1#64) (allocStart (n + 1) ex start
      (rp.er_start - 1#64 - start + 1#64) (rp.er_start - 1#64) fl myrp) :=
    allocStart_clear n hs hle hsize hscan
  have hmem : rp ∈ ex.ex_regions := by simp [hregs]
  exact ⟨hdone.returned, hdone.inserted.of_covered (union_shrunk hmem hgt hend hover)⟩

/-- From a free start the loop deletes the regions inside the request and stops in
front of the one that holds its end. Only a region that begins at the very end
makes it return early. -/
theorem allocStart_free (n : ℕ) (hs : Sorted (ivls ex.ex_regions)) (hlo : ex.ex_start ≤ start)
    (hle : start ≤ end_) (hsize : start + (size - 1#64) = end_)
    (hfree : start.toNat ∉ ex.allocated) (hn : ex.ex_regions.length + 2 ≤ n)
    (hc : fl.conflictok = true) (hw : fl.waitspace = false) :
    ((∃ r ∈ ex.ex_regions, r.er_start = end_) →
      (allocStart n ex start size end_ fl myrp).2 = .ret none ∧
        start.toNat ∉ (allocStart n ex start size end_ fl myrp).1.allocated) ∧
    ((¬ ∃ r ∈ ex.ex_regions, r.er_start = end_) →
      Serves ex start end_ (allocStart n ex start size end_ fl myrp)) := by
  induction n generalizing ex with
  | zero => omega
  | succ n ih =>
    cases hscan : scanRegions start end_ [] ex.ex_regions with
    | clear rev rest =>
      refine ⟨?_, fun _ => allocStart_clear n hs hle hsize hscan⟩
      rintro ⟨r, hr, hre⟩
      have hlast := endOk_clear hs hle hscan r hr (by bv_omega)
      have := Region.start_le_end hs hr
      bv_omega
    | conflict rev rp rest =>
      obtain ⟨heq, hmem, hend, hstart⟩ := scanRegions_conflict hscan
      have hrev := scanRegions_conflict_before hscan (by simp)
      simp only [List.reverse_nil, List.nil_append] at heq
      have hsorted : Sorted (ivls (rev.reverse ++ rp :: rest)) := heq ▸ hs
      have hgt : ¬ rp.er_start ≤ start := fun h => hfree (mem_allocated.mpr ⟨rp, hmem, h, hstart⟩)
      simp only [allocStart, hscan, hw, hc, Bool.false_eq_true, if_false, if_true, if_neg hgt]
      by_cases hin : rp.er_end < end_
      · -- the region lies inside the request and is deleted
        rw [if_pos hin]
        have hregs : (freeRegionDescriptor { ex with ex_regions := rev.reverse ++ rest }
            rp.er_flags).ex_regions = rev.reverse ++ rest := by simp
        have hsub : ∀ r ∈ rev.reverse ++ rest, r ∈ ex.ex_regions := by
          intro r hr
          rw [← heq]
          exact (List.sublist_cons_self rp rest).append_left _ |>.subset hr
        have hlen : ex.ex_regions.length = (rev.reverse ++ rest).length + 1 := by
          rw [← heq, List.length_append, List.length_append, List.length_cons, Nat.add_assoc]
        obtain ⟨hat, hserves⟩ := @ih
          (freeRegionDescriptor { ex with ex_regions := rev.reverse ++ rest } rp.er_flags)
          (by rw [hregs]; exact Sorted.deleted hsorted) (by simpa using hlo)
          (by
            rw [mem_allocated, hregs]
            rintro ⟨r, hr, h⟩
            exact hfree (mem_allocated.mpr ⟨r, hsub r hr, h⟩))
          (by rw [hregs]; omega)
        rw [hregs] at hat hserves
        refine ⟨?_, fun hno => ?_⟩
        · rintro ⟨r, hr, hre⟩
          apply hat
          rw [← heq] at hr
          refine ⟨r, ?_, hre⟩
          rcases List.mem_append.mp hr with hr | hr
          · exact List.mem_append_left rest hr
          · rcases List.mem_cons.mp hr with rfl | hr
            · have := Region.start_le_end hs hmem
              bv_omega
            · exact List.mem_append_right _ hr
        · have hdone := hserves (by
            rintro ⟨r, hr, hre⟩
            exact hno ⟨r, hsub r hr, hre⟩)
          refine ⟨hdone.returned, ?_⟩
          rw [← heq]
          exact Inserted.of_deleted (by simpa [hregs] using hdone.inserted) (by bv_omega)
            (by bv_omega)
      · rw [if_neg hin]
        by_cases hlt : rp.er_start < end_
        · -- the end moves in front of the region, and the next scan is clear
          have hfirst : ex.ex_start < rp.er_start := by bv_omega
          rw [if_pos hlt, if_pos hfirst]
          obtain ⟨k, rfl⟩ : ∃ k, n = k + 1 := ⟨n - 1, by omega⟩
          refine ⟨?_, fun _ => allocStart_shrunk k heq.symm hs hrev (by bv_omega) hend
            (by bv_omega)⟩
          rintro ⟨r, hr, hre⟩
          rw [← heq] at hr
          have hle' := Region.start_le_end hsorted hr
          have hsame := eq_of_overlap hsorted hr (BitVec.le_of_eq hre) (by bv_omega) hend (by bv_omega)
          rw [hsame] at hre
          bv_omega
        · rw [if_neg hlt]
          refine ⟨fun _ => ⟨rfl, hfree⟩, fun hno => absurd ⟨rp, hmem, ?_⟩ hno⟩
          bv_omega

theorem join_adjacent {l m : List Region} {a b : Region} (hs : Sorted (ivls (l ++ a :: b :: m)))
    (hab : a.er_end.toNat + 1 = b.er_start.toNat) :
    Sorted (ivls (l ++ { a with er_end := b.er_end } :: m)) ∧
      cover (ivls (l ++ { a with er_end := b.er_end } :: m)) = cover (ivls (l ++ a :: b :: m)) := by
  simp only [ivls_append, ivls_cons] at hs ⊢
  obtain ⟨-, habm, hlab⟩ := sorted_append.mp hs
  obtain ⟨hale, -, hbm⟩ := sorted_cons.mp habm
  obtain ⟨hble, hbm, hm⟩ := sorted_cons.mp hbm
  obtain ⟨hla, hlbm⟩ := below_cons_right.mp hlab
  have hlm := (below_cons_right.mp hlbm).2
  dsimp only [Region.ivl] at *
  constructor
  · apply sorted_append.mpr
    refine ⟨(sorted_append.mp hs).1, sorted_cons.mpr ⟨by dsimp only; omega, hbm, hm⟩,
      below_cons_right.mpr ⟨hla, hlm⟩⟩
  · have hpair : Set.Icc a.er_start.toNat b.er_end.toNat =
        Set.Icc a.er_start.toNat a.er_end.toNat ∪ Set.Icc b.er_start.toNat b.er_end.toNat := by
      ext c
      simp only [Set.mem_Icc, Set.mem_union]
      omega
    simp only [cover_append, cover_cons, hpair, Set.union_assoc]

/-- Behind a region that holds the end of the request the scan finds no conflict. -/
theorem scanRegions_past {l rest : List Region} {rp : Region} (hs : Sorted (ivls (l ++ rp :: rest)))
    (hbegin : rp.er_start ≤ end_) (hend : end_ ≤ rp.er_end) (hlast : rp.er_end < ex.ex_end) :
    scanRegions (rp.er_end + 1#64) end_ [] (l ++ rp :: rest) = .clear (rp :: l.reverse) rest := by
  have hsplit : l ++ rp :: rest = (l ++ [rp]) ++ rest := by simp
  rw [hsplit, scanRegions_append, scanRegions_head]
  · simp
  · intro r hr
    have := lt_of_after hs hr
    bv_omega
  · intro r hr
    have hr' : r ∈ l ++ rp :: rest := by rw [hsplit]; exact List.mem_append_left rest hr
    have hrle := Region.start_le_end hs hr'
    rcases List.mem_append.mp hr with hr | hr
    · have := lt_of_before hs hr
      constructor <;> bv_omega
    · cases List.mem_singleton.mp hr
      constructor <;> bv_omega

/-- When the first case of the loop meets a region that holds the end of the request,
the start wraps past that end: the region is cut off there, or an empty region is put
behind it. -/
theorem allocStart_past (n : ℕ) {l rest : List Region} {rp : Region}
    (hregs : ex.ex_regions = l ++ rp :: rest) (hs : Sorted (ivls ex.ex_regions))
    (hstart : rp.er_start ≤ start) (hle : start ≤ end_) (hend : end_ ≤ rp.er_end)
    (hlast : rp.er_end < ex.ex_end) :
    Serves ex start end_ (allocStart (n + 1) ex (rp.er_end + 1#64)
      (end_ - (rp.er_end + 1#64) + 1#64) end_ fl myrp) ↔
      rp.er_end = end_ ∧ ex.nocoalesce = false := by
  have hsorted : Sorted (ivls (l ++ rp :: rest)) := hregs ▸ hs
  have hscan := scanRegions_past hsorted (by bv_omega) hend hlast
  rw [← hregs] at hscan
  have hcover : cover (ivls ex.ex_regions) ∪ request start end_ = cover (ivls ex.ex_regions) := by
    apply Set.union_eq_self_of_subset_right
    rintro a ⟨ha1, ha2⟩
    rw [← Extent.allocated, mem_allocated, hregs]
    exact ⟨rp, by simp, le_trans hstart ha1, le_trans ha2 hend⟩
  have hnew : rp.er_end + 1#64 + (end_ - (rp.er_end + 1#64) + 1#64 - 1#64) = end_ := by bv_omega
  have hsize : rp.er_end + 1#64 + (end_ - (rp.er_end + 1#64) + 1#64) = end_ + 1#64 := by bv_omega
  have hcut : end_ < rp.er_end → ∀ m : List Region, (∀ r ∈ m, rp.er_end < r.er_start) →
      ¬ Inserted start end_ ex.ex_regions (l ++ { rp with er_end := end_ } :: m) := by
    -- the last address of the region gets lost
    intro hlt m hm h
    have hold : rp.er_end.toNat ∈ cover (ivls ex.ex_regions) := by
      rw [← Extent.allocated, mem_allocated, hregs]
      exact ⟨rp, by simp, Region.start_le_end hsorted (by simp), le_rfl⟩
    have hmem : rp.er_end.toNat ∈ cover (ivls (l ++ { rp with er_end := end_ } :: m)) := by
      rw [h.2]
      exact .inl hold
    obtain ⟨x, hx, h1, h2⟩ := hmem
    obtain ⟨r, hr, rfl⟩ := List.mem_map.mp hx
    dsimp only [Region.ivl] at h1 h2
    rcases List.mem_append.mp hr with hr | hr
    · have := lt_of_before hsorted hr
      have := Region.start_le_end hsorted (r := rp) (by simp)
      bv_omega
    · rcases List.mem_cons.mp hr with rfl | hr
      · exact absurd h2 (Nat.not_le.mpr hlt)
      · exact absurd h1 (Nat.not_le.mpr (hm r hr))
  have hkept : ∀ {new : List Region}, Sorted (ivls new) →
      cover (ivls new) = cover (ivls ex.ex_regions) → Inserted start end_ ex.ex_regions new :=
    fun hs' hc' => ⟨hs', hc'.trans hcover.symm⟩
  rw [allocStart, hscan]
  dsimp only [extentInsertAndOptimize]
  rw [hnew, hsize, List.reverse_reverse]
  cases hnc : ex.nocoalesce with
  | true =>
    simp only [if_true, Bool.true_eq_false, and_false, iff_false]
    intro h
    have hle' := Region.start_le_end h.inserted.1 (r := ⟨rp.er_end + 1#64, end_, myrp⟩) (by simp)
    bv_omega
  | false =>
    simp only [Bool.false_eq_true, if_false, decide_true, if_true, and_true]
    have hcases : end_ < rp.er_end ∨ rp.er_end = end_ := by bv_omega
    rcases hcases with hlt | heq
    · have hne : ¬ rp.er_end = end_ := by bv_omega
      simp only [hne, iff_false]
      intro h
      have hins := h.inserted
      cases rest with
      | nil => exact hcut hlt [] (by simp) (by simpa using hins)
      | cons nextr more =>
        have hafter := lt_of_after hsorted (r := nextr) (by simp)
        have hnot : ¬ end_ + 1#64 = nextr.er_start := by bv_omega
        dsimp only at hins
        rw [if_neg hnot] at hins
        exact hcut hlt (nextr :: more) (fun r hr => lt_of_after hsorted hr) (by simpa using hins)
    · subst heq
      simp only [iff_true]
      cases rest with
      | nil =>
        refine ⟨rfl, hkept ?_ ?_⟩
        · simpa [hregs] using hs
        · simp [hregs]
      | cons nextr more =>
        by_cases hnext : rp.er_end + 1#64 = nextr.er_start
        · have hadj : rp.er_end.toNat + 1 = nextr.er_start.toNat := by
            have := lt_of_after hsorted (r := nextr) (by simp)
            bv_omega
          obtain ⟨hs', hc'⟩ := join_adjacent hsorted hadj
          simp only [hnext, if_true]
          refine ⟨rfl, hkept ?_ ?_⟩
          · simpa using hs'
          · simpa [hregs] using hc'
        · simp only [hnext, if_false]
          refine ⟨rfl, hkept ?_ ?_⟩
          · simpa [hregs] using hs
          · simp [hregs]

/-- Regions that end at or after an address; each restart in front of the request
drops one of them. -/
def reaching (start : BitVec 64) (l : List Region) : ℕ := l.countP fun r => start ≤ r.er_end

theorem reaching_past {l rest : List Region} {rp : Region} (hstart : start ≤ rp.er_end)
    (hlast : rp.er_end < end_) :
    reaching (rp.er_end + 1#64) (l ++ rp :: rest) < reaching start (l ++ rp :: rest) := by
  have hrp : ¬ rp.er_end + 1#64 ≤ rp.er_end := by bv_omega
  have hmono : ∀ m : List Region, reaching (rp.er_end + 1#64) m ≤ reaching start m := by
    intro m
    apply List.countP_mono_left
    intro r _ hr
    simp only [decide_eq_true_eq] at hr ⊢
    bv_omega
  have h1 := hmono l
  have h2 := hmono rest
  simp only [reaching, List.countP_append, List.countP_cons, hrp, hstart, decide_true,
    decide_false, Bool.false_eq_true, if_true, if_false] at h1 h2 ⊢
  omega

theorem skip_covered {rp : Region} (hmem : rp ∈ ex.ex_regions) (hrp : rp.er_start ≤ start)
    (hstart : start ≤ rp.er_end) (hlast : rp.er_end < end_) :
    ex.allocated ∪ request (rp.er_end + 1#64) end_ = ex.allocated ∪ request start end_ := by
  ext a
  simp only [Set.mem_union, request, Set.mem_Icc]
  constructor
  · rintro (h | h)
    · exact .inl h
    · exact .inr (by bv_omega)
  · rintro (h | h)
    · exact .inl h
    · by_cases ha : rp.er_end.toNat < a
      · exact .inr (by bv_omega)
      · exact .inl (mem_allocated.mpr ⟨rp, hmem, by bv_omega, by omega⟩)

theorem start_free {l rest : List Region} {rp : Region} (hregs : ex.ex_regions = l.reverse ++ rp :: rest)
    (hs : Sorted (ivls ex.ex_regions)) (hbefore : ∀ r ∈ l, r.er_end < start)
    (hstart : start ≤ rp.er_end) (hfirst : ¬ rp.er_start ≤ start) :
    start.toNat ∉ ex.allocated := by
  rw [hregs] at hs
  rw [mem_allocated, hregs]
  rintro ⟨r, hr, h1, h2⟩
  rcases List.mem_append.mp hr with hr | hr
  · have := hbefore r (List.mem_reverse.mp hr)
    bv_omega
  · rcases List.mem_cons.mp hr with rfl | hr
    · exact hfirst h1
    · have := lt_of_after hs hr
      bv_omega

theorem allocStart_conflictok (n : ℕ) (hw : ex.WF) (hlo : ex.ex_start ≤ start)
    (hle : start ≤ end_) (hhi : end_ ≤ ex.ex_end) (hsize : start + (size - 1#64) = end_)
    (hn : reaching start ex.ex_regions + ex.ex_regions.length + 2 ≤ n)
    (hc : fl.conflictok = true) (hws : fl.waitspace = false) :
    Serves ex start end_ (allocStart n ex start size end_ fl myrp) ↔ EndOk ex start end_ := by
  induction n generalizing start size with
  | zero => omega
  | succ n ih =>
    have hs := hw.sorted
    cases hscan : scanRegions start end_ [] ex.ex_regions with
    | clear rev rest =>
      have hnone := endOk_clear hs hle hscan
      refine iff_of_true (allocStart_clear n hs hle hsize hscan) ?_
      intro rp hrp h1 h2
      exact absurd h2 (hnone rp hrp h1)
    | conflict rev rp rest =>
      obtain ⟨heq, hmem, hend, hstart⟩ := scanRegions_conflict hscan
      have hrev := scanRegions_conflict_before hscan (by simp)
      simp only [List.reverse_nil, List.nil_append] at heq
      have hsorted : Sorted (ivls (rev.reverse ++ rp :: rest)) := heq ▸ hs
      by_cases hfirst : rp.er_start ≤ start
      · by_cases hover : rp.er_end < end_
        · -- the region covers the beginning of the request only
          have hlt : rp.er_end < ex.ex_end := by bv_omega
          have hstep : allocStart (n + 1) ex start size end_ fl myrp =
              allocStart n ex (rp.er_end + 1#64) (end_ - (rp.er_end + 1#64) + 1#64) end_ fl
                myrp := by
            simp [allocStart, hscan, hws, hc, hfirst, hlt]
          have hdrop : reaching (rp.er_end + 1#64) ex.ex_regions < reaching start ex.ex_regions := by
            rw [← heq]
            exact reaching_past hstart hover
          have hrec := @ih (rp.er_end + 1#64) (end_ - (rp.er_end + 1#64) + 1#64) (by bv_omega)
            (by bv_omega) (by bv_omega) (by omega)
          have hunion := skip_covered hmem hfirst hstart hover
          have hsub : request (rp.er_end + 1#64) end_ ⊆ ex.allocated ↔
              request start end_ ⊆ ex.allocated := by
            rw [← Set.union_eq_left, hunion, Set.union_eq_left]
          rw [hstep]
          constructor
          · intro h r hr h1 h2
            have hok := hrec.mp ⟨h.returned, h.inserted.of_covered hunion.symm⟩ r hr h1 h2
            rwa [hsub] at hok
          · intro h
            have hdone := hrec.mpr fun r hr h1 h2 => by
              rw [hsub]
              exact h r hr h1 h2
            exact ⟨hdone.returned, hdone.inserted.of_covered hunion⟩
        · -- the region covers the whole request
          have hend' : end_ ≤ rp.er_end := by bv_omega
          have hall : request start end_ ⊆ ex.allocated := by
            rintro a ⟨ha1, ha2⟩
            exact mem_allocated.mpr ⟨rp, hmem, le_trans hfirst ha1, le_trans ha2 hend'⟩
          have hok : EndOk ex start end_ ↔
              rp.er_end = ex.ex_end ∨ (rp.er_end = end_ ∧ ex.nocoalesce = false) := by
            constructor
            · intro h
              exact (h rp hmem hend hend').1 hall
            · intro h r hr h1 h2
              rw [← heq] at hr
              have hsame := eq_of_overlap hsorted hr h1 h2 hend hend'
              subst hsame
              exact ⟨fun _ => h, fun hn => absurd hall hn⟩
          have hinside : rp.er_end ≤ ex.ex_end :=
            (hw.inside (mem_allocated.mpr ⟨rp, hmem, Region.start_le_end hs hmem, le_rfl⟩)).2
          rw [hok]
          by_cases hlt : rp.er_end < ex.ex_end
          · obtain ⟨k, rfl⟩ : ∃ k, n = k + 1 := ⟨n - 1, by omega⟩
            have hstep : allocStart (k + 1 + 1) ex start size end_ fl myrp =
                allocStart (k + 1) ex (rp.er_end + 1#64) (end_ - (rp.er_end + 1#64) + 1#64)
                  end_ fl myrp := by
              rw [allocStart, hscan]
              simp [hws, hc, hfirst, hlt]
            have hne : ¬ rp.er_end = ex.ex_end := by bv_omega
            rw [hstep, allocStart_past k heq.symm hs hfirst hle hend' hlt]
            simp [hne]
          · have hstep : allocStart (n + 1) ex start size end_ fl myrp = (ex, .ret none) := by
              simp [allocStart, hscan, hws, hc, hfirst, hlt]
            rw [hstep]
            refine iff_of_true ⟨rfl, hs, ?_⟩ (.inl (by bv_omega))
            exact (Set.union_eq_self_of_subset_right hall).symm
      · -- every region before ends before the request: its first address is free
        have hfree := start_free heq.symm hs hrev hstart hfirst
        have hreq : start.toNat ∈ request start end_ := ⟨le_rfl, hle⟩
        have hall : ¬ request start end_ ⊆ ex.allocated := fun h => hfree (h hreq)
        obtain ⟨hat, hserves⟩ :=
          @allocStart_free ex start size end_ fl myrp (n + 1) hs hlo hle hsize hfree (by omega) hc
            hws
        by_cases hstarts : ∃ r ∈ ex.ex_regions, r.er_start = end_
        · refine iff_of_false ?_ ?_
          · intro h
            apply (hat hstarts).2
            rw [Extent.allocated, h.inserted.2]
            exact .inr hreq
          · intro h
            obtain ⟨r, hr, hre⟩ := hstarts
            have hle' := Region.start_le_end hs hr
            exact (h r hr (BitVec.le_of_eq hre) (by bv_omega)).2 hall hre
        · refine iff_of_true (hserves hstarts) ?_
          intro r hr _ _
          exact ⟨fun h => absurd h hall, fun _ hre => hstarts ⟨r, hr, hre⟩⟩

end Loop

theorem nocoalesce_got {ex ex' : Extent} {fl : Flags} {pool : Bool} {rp : ErFlags}
    (h : allocRegionDescriptor ex fl pool = .got rp ex') : ex'.nocoalesce = ex.nocoalesce := by
  unfold allocRegionDescriptor at h
  dsimp only at h
  split at h
  · split at h
    · cases h
      rfl
    · split_ifs at h
      cases h
      rfl
  · split_ifs at h
    cases h
    rfl

theorem EndOk.congr {ex ex' : Extent} {start end_ : BitVec 64} (hs : SameRegions ex ex')
    (hnc : ex'.nocoalesce = ex.nocoalesce) : EndOk ex' start end_ ↔ EndOk ex start end_ := by
  unfold EndOk
  rw [hs.allocated, hs.1, hs.2.2, hnc]

/-- A request that tolerates conflicts, made now or resumed after a sleep for a
descriptor, is served exactly when it gets its descriptor and the region that holds
its last address permits it. -/
theorem extentAllocRegion_conflictok {ex : Extent} {start size : BitVec 64} {fl : Flags}
    {pool : Bool} {r : Extent × Result} (hw : ex.WF) (ha : ex.ArgsOk start size)
    (hc : fl.conflictok = true) (hws : fl.waitspace = false)
    (hr : r = extentAllocRegion ex start size fl pool ∨
      r = resume ex (.allocDescr start size fl) none pool) :
    Serves ex start (start + (size - 1#64)) r ↔
      (∃ myrp ex', allocRegionDescriptor ex fl pool = .got myrp ex') ∧
        EndOk ex start (start + (size - 1#64)) := by
  have hchecked : r = allocChecked ex start size fl pool := by
    rcases hr with rfl | rfl
    · have h1 := ha.size_pos
      have h2 := ha.no_wrap
      have h3 := ha.start_le
      have h4 := ha.le_end
      have hargs : ¬ (size < 1#64 ∨ start + (size - 1#64) < start ∨
          (fl.conflictok && fl.waitspace) = true) := by
        rw [hws, Bool.and_false]
        rintro (h | h | h)
        · exact h1 h
        · bv_omega
        · cases h
      have hrange : ¬ (start < ex.ex_start ∨ ex.ex_end < start + (size - 1#64)) := by
        rintro (h | h) <;> bv_omega
      unfold extentAllocRegion
      dsimp only
      rw [if_neg hargs, if_neg hrange]
    · simp [resume]
  rw [hchecked, allocChecked]
  cases hd : allocRegionDescriptor ex fl pool with
  | null =>
    refine iff_of_false (fun h => ?_) ?_
    · cases h.returned
    · rintro ⟨⟨_, _, h⟩, -⟩
      cases h
  | sleep ex' =>
    refine iff_of_false (fun h => ?_) ?_
    · cases h.returned
    · rintro ⟨⟨_, _, h⟩, -⟩
      cases h
  | got myrp ex' =>
    have hs := sameRegions_got hd
    have ha' := ha.congr hs.2
    have hcount : reaching start ex'.ex_regions ≤ ex'.ex_regions.length := List.countP_le_length
    have hloop := @allocStart_conflictok ex' start size _ fl myrp
      (2 * ex'.ex_regions.length + 2) (hs.wf hw) ha'.start_le ha'.no_wrap ha'.le_end rfl
      (by omega) hc hws
    rw [EndOk.congr hs (nocoalesce_got hd)] at hloop
    have hold : ∀ new : List Region, Inserted start (start + (size - 1#64)) ex'.ex_regions new ↔
        Inserted start (start + (size - 1#64)) ex.ex_regions new := by
      intro new
      rw [hs.1]
    constructor
    · intro h
      exact ⟨⟨myrp, ex', rfl⟩, hloop.mp ⟨h.returned, (hold _).mpr h.inserted⟩⟩
    · rintro ⟨-, h⟩
      have hdone := hloop.mpr h
      exact ⟨hdone.returned, (hold _).mp hdone.inserted⟩

/-- Conflicts tolerated, nothing else. -/
def exConflictok : Flags := ⟨false, false, false, false, true⟩

/-- One region in the middle of an extent. -/
def oneRegion : Extent :=
  ⟨0, 99, [⟨10, 20, ⟨true, false⟩⟩], false, false, false, false, []⟩

theorem oneRegion_wf : oneRegion.WF := by
  constructor
  · simp [oneRegion, sorted_cons, Region.ivl]
  · rintro a ⟨x, hx, h1, h2⟩
    simp only [oneRegion, ivls_cons, ivls_nil, List.mem_singleton] at hx
    subst hx
    simp only [Region.ivl, request, oneRegion, Set.mem_Icc] at h1 h2 ⊢
    have h3 : (20#64).toNat ≤ (99#64).toNat := by decide
    exact ⟨Nat.zero_le a, h2.trans h3⟩

/-- The request laps over the beginning of the region. -/
theorem extentAllocRegion_conflictok_front :
    Serves oneRegion 5 15 (extentAllocRegion oneRegion 5 11 exConflictok true) := by
  have h := (@extentAllocRegion_conflictok oneRegion 5 11 exConflictok true _ oneRegion_wf
    ⟨by decide, by decide, by decide, by decide⟩ rfl rfl (.inl rfl)).mpr
    ⟨⟨⟨true, false⟩, oneRegion, by decide⟩, ?_⟩
  · exact h
  · intro rp hrp h1 h2
    simp only [oneRegion, List.mem_singleton] at hrp
    subst hrp
    have hfree : ¬ request 5 (5 + (11 - 1#64)) ⊆ oneRegion.allocated := by
      intro h
      have h5 : 5 ∈ oneRegion.allocated := h ⟨by decide, by decide⟩
      rw [mem_allocated] at h5
      obtain ⟨r, hr, hlo, -⟩ := h5
      simp only [oneRegion, List.mem_singleton] at hr
      subst hr
      exact absurd hlo (by decide)
    exact ⟨fun h => absurd h hfree, fun _ => by decide⟩

/-- A request inside the region returns zero and frees the rest of the region; one that
ends where the region begins returns zero and allocates nothing. -/
theorem extentAllocRegion_conflictok_inside :
    oneRegion.WF ∧ oneRegion.ArgsOk 12 4 ∧
      extentAllocRegion oneRegion 12 4 exConflictok true =
        ({ oneRegion with ex_regions := [⟨10, 15, ⟨true, false⟩⟩] }, .ret none) ∧
      oneRegion.ArgsOk 5 6 ∧
      extentAllocRegion oneRegion 5 6 exConflictok true = (oneRegion, .ret none) ∧
      ¬ Serves oneRegion 12 15 (extentAllocRegion oneRegion 12 4 exConflictok true) ∧
      ¬ Serves oneRegion 5 10 (extentAllocRegion oneRegion 5 6 exConflictok true) := by
  have h1 : extentAllocRegion oneRegion 12 4 exConflictok true =
      ({ oneRegion with ex_regions := [⟨10, 15, ⟨true, false⟩⟩] }, .ret none) := by decide
  have h2 : extentAllocRegion oneRegion 5 6 exConflictok true = (oneRegion, .ret none) := by
    decide
  refine ⟨oneRegion_wf, ⟨by decide, by decide, by decide, by decide⟩, h1,
    ⟨by decide, by decide, by decide, by decide⟩, h2, ?_, ?_⟩
  · intro h
    have hcover := h.inserted.2
    rw [h1] at hcover
    have h20 : 20 ∈ cover (ivls [⟨10, 15, ⟨true, false⟩⟩]) := by
      rw [hcover]
      exact .inl ⟨⟨10, 20⟩, by simp [oneRegion, Region.ivl], by decide, by decide⟩
    simp [Region.ivl] at h20
  · intro h
    have hcover := h.inserted.2
    rw [h2] at hcover
    have h5 : 5 ∈ cover (ivls oneRegion.ex_regions) := by
      rw [hcover]
      exact .inr ⟨by decide, by decide⟩
    simp [oneRegion, Region.ivl] at h5

end OpenbsdKernel.SubrExtent
