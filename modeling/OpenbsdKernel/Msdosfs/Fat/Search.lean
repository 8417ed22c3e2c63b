import OpenbsdKernel.Msdosfs.Fat.Alloc

/-!
# What the allocator finds

The two searches of `clusteralloc` see every run of free clusters, as long as the preferred start
lies in the map.
-/
namespace OpenbsdKernel.Msdosfs

open Bitmap

/-- A free cluster, as the FAT has it. -/
structure Mount.FreeCluster (pmp : Mount) (c : ℕ) : Prop where
  first : CLUST_FIRST ≤ c
  last : c ≤ pmp.pm_maxcluster
  entry : fatEntry pmp.kind pmp.fat c = 0

/-- The map says what the FAT says, and has no other clusters. -/
structure Coherent (pmp : Mount) : Prop where
  inuse : ∀ c, CLUST_FIRST ≤ c → c ≤ pmp.pm_maxcluster →
    (test pmp.pm_inusemap c = true ↔ fatEntry pmp.kind pmp.fat c ≠ 0)
  others : ∀ c, c < N_INUSEBITS * pmp.words → c < CLUST_FIRST ∨ pmp.pm_maxcluster < c →
    test pmp.pm_inusemap c = true

theorem Coherent.clear_iff {pmp : Mount} (h : Coherent pmp) {c : ℕ} : pmp.Clear c ↔ pmp.FreeCluster c := by
  constructor
  · rintro ⟨hrange, hclear⟩
    have hin : CLUST_FIRST ≤ c ∧ c ≤ pmp.pm_maxcluster := by
      by_contra hnot
      have hset := h.others c hrange (by omega)
      rw [hclear] at hset
      cases hset
    refine ⟨hin.1, hin.2, ?_⟩
    by_contra hne
    have hset := (h.inuse c hin.1 hin.2).2 hne
    rw [hclear] at hset
    cases hset
  · rintro ⟨hlo, hhi, hentry⟩
    refine ⟨lt_words hhi, ?_⟩
    by_contra hset
    exact (h.inuse c hlo hhi).1 (Bool.eq_true_of_not_eq_false hset) hentry

section Length

variable {pmp : Mount} {start count : ℕ}

theorem not_clear_of_getLsbD {idx i : ℕ} (hi : i < N_INUSEBITS)
    (h : (pmp.pm_inusemap idx).getLsbD i = true) : ¬pmp.Clear (N_INUSEBITS * idx + i) := by
  rintro ⟨-, hclear⟩
  rw [test_word] at hclear
  simp only [N_INUSEBITS] at hi hclear
  rw [show (32 * idx + i) / 32 = idx by omega, show (32 * idx + i) % 32 = i by omega, h] at hclear
  cases hclear

theorem lengthLoop_end (n idx len : ℕ) {r : ℕ} (hn : idx + n = pmp.words)
    (hlen : start + len = N_INUSEBITS * idx) (hr : lengthLoop pmp count n idx len = .ok r) :
    count ≤ r ∨ ¬pmp.Clear (start + r) := by
  induction n generalizing idx len with
  | zero =>
    rw [lengthLoop] at hr
    obtain rfl : len = r := by injection hr
    right
    rintro ⟨hrange, -⟩
    rw [hlen, ← hn] at hrange
    exact hrange.false
  | succ n ih =>
    rw [lengthLoop] at hr
    split at hr
    next hle =>
      obtain rfl : len = r := by injection hr
      exact .inl hle
    next =>
      rw [word_ok (by omega)] at hr
      by_cases hmap : pmp.pm_inusemap idx ≠ 0
      · obtain ⟨j, hj, hffs, hset, -⟩ := ffs_spec hmap
        obtain rfl : len + ffs (pmp.pm_inusemap idx) - 1 = r := by
          injection ((if_pos hmap).symm.trans hr)
        right
        rw [hffs, show start + (len + (j + 1) - 1) = N_INUSEBITS * idx + j by omega]
        exact not_clear_of_getLsbD hj hset
      · refine ih (idx + 1) (len + N_INUSEBITS) (by omega) ?_ ((if_neg hmap).symm.trans hr)
        rw [Nat.mul_succ]
        omega

theorem chainlength_end {l : ℕ} (hstart : start / N_INUSEBITS < pmp.words)
    (hl : chainlength pmp start count = .ok l) (hlt : l < count) : ¬pmp.Clear (start + l) := by
  set idx := start / N_INUSEBITS with hidx
  set s := start % N_INUSEBITS with hs
  have hs32 : s < 32 := Nat.mod_lt _ (by decide)
  have hpos : start = N_INUSEBITS * idx + s := (Nat.div_add_mod start N_INUSEBITS).symm
  have hmin {len : ℕ} (heq : (if count < len then count else len) = l) : len = l := by
    split at heq
    · omega
    · exact heq
  have hmask (i : ℕ) (hi : i < 32) :
      (pmp.pm_inusemap idx &&& ~~~(1#32 <<< s - 1#32)).getLsbD i =
        ((pmp.pm_inusemap idx).getLsbD i && decide (s ≤ i)) := by
    rw [BitVec.getLsbD_and, BitVec.getLsbD_not, getLsbD_below hs32, decide_eq_true hi, Bool.true_and,
      ← decide_not]
    simp only [not_lt]
  simp only [chainlength, ← hidx, ← hs, word_ok hstart] at hl
  by_cases hmap : pmp.pm_inusemap idx &&& ~~~(1#32 <<< s - 1#32) ≠ 0
  · obtain ⟨j, hj, hffs, hset, -⟩ := ffs_spec hmap
    rw [hmask j hj, Bool.and_eq_true, decide_eq_true_eq] at hset
    have hlen : ffs (pmp.pm_inusemap idx &&& ~~~(1#32 <<< s - 1#32)) - 1 - s = l := by
      refine hmin ?_
      injection ((if_pos hmap).symm.trans hl)
    rw [hffs] at hlen
    rw [show start + l = N_INUSEBITS * idx + j by omega]
    exact not_clear_of_getLsbD hj hset.1
  · replace hl := (if_neg hmap).symm.trans hl
    by_cases hcount : count ≤ N_INUSEBITS - s
    · have : count = l := by injection ((if_pos hcount).symm.trans hl)
      omega
    · replace hl := (if_neg hcount).symm.trans hl
      cases hloop : lengthLoop pmp count (pmp.pm_maxcluster / N_INUSEBITS - idx) (idx + 1) (N_INUSEBITS - s) with
      | error e =>
        rw [hloop] at hl
        cases hl
      | ok r =>
        rw [hloop] at hl
        have hr : r = l := by
          refine hmin ?_
          injection hl
        have hwords := pmp.words_eq
        have hend := @lengthLoop_end pmp start count _ _ _ r (by omega)
          (by rw [Nat.mul_succ]; simp only [N_INUSEBITS] at *; omega) hloop
        rw [hr] at hend
        exact hend.resolve_left (by omega)

end Length

section Search

variable {pmp : Mount} {count bound n cn foundcn foundl : ℕ}

/-- What a round of the search does: there is no free cluster up to the next word, or the first one
begins a run. -/
theorem searchLoop_step (hbound : bound ≤ pmp.pm_maxcluster + 1) (hcn : cn < bound) :
    (∃ next, cn < next ∧ (∀ c, cn ≤ c → c < next → ¬pmp.Clear c) ∧
      searchLoop pmp count bound (n + 1) cn foundcn foundl = searchLoop pmp count bound n next foundcn foundl) ∨
    ∃ p l, cn ≤ p ∧ (∀ c, cn ≤ c → c < p → ¬pmp.Clear c) ∧ pmp.Clear p ∧ FreeRun pmp p count l ∧
      (l < count → ¬pmp.Clear (p + l)) ∧
      searchLoop pmp count bound (n + 1) cn foundcn foundl =
        if count ≤ l then .ok (.enough p)
        else if foundl < l then searchLoop pmp count bound n (p + l + 1) p l
        else searchLoop pmp count bound n (p + l + 1) foundcn foundl := by
  set idx := cn / N_INUSEBITS with hidx
  set s := cn % N_INUSEBITS with hs
  have hs32 : s < 32 := Nat.mod_lt _ (by decide)
  have hpos : cn = N_INUSEBITS * idx + s := (Nat.div_add_mod cn N_INUSEBITS).symm
  have hword : idx < pmp.words := by
    rw [pmp.words_eq]
    exact Nat.lt_succ_of_le (Nat.div_le_div_right (by omega))
  have hmask (i : ℕ) (hi : i < 32) : (pmp.pm_inusemap idx ||| (1#32 <<< s - 1#32)).getLsbD i =
      ((pmp.pm_inusemap idx).getLsbD i || decide (i < s)) := by
    rw [BitVec.getLsbD_or, getLsbD_below hs32]
  -- a set bit from `s` on is a cluster in use
  have hinuse (i : ℕ) (hi : i < 32) (hsi : s ≤ i)
      (hset : (pmp.pm_inusemap idx ||| (1#32 <<< s - 1#32)).getLsbD i = true) :
      ¬pmp.Clear (N_INUSEBITS * idx + i) := by
    rw [hmask i hi, decide_eq_false (by omega), Bool.or_false] at hset
    exact not_clear_of_getLsbD hi hset
  rw [searchLoop, if_neg (by omega)]
  simp only [← hidx, ← hs, word_ok hword, bind, Except.bind]
  set map := pmp.pm_inusemap idx ||| (1#32 <<< s - 1#32) with hmap
  by_cases hfull : map ≠ BitVec.allOnes 32
  · right
    have hne : map ^^^ BitVec.allOnes 32 ≠ 0#32 := fun h => hfull (BitVec.xor_eq_zero_iff.1 h)
    obtain ⟨j, hj, hffs, hset, hlow⟩ := ffs_spec hne
    have hxor (i : ℕ) (hi : i < 32) : (map ^^^ BitVec.allOnes 32).getLsbD i = !map.getLsbD i := by
      rw [BitVec.getLsbD_xor, BitVec.getLsbD_allOnes, decide_eq_true hi, Bool.xor_true]
    rw [hxor j hj, hmask j hj, Bool.not_eq_true', Bool.or_eq_false_iff, decide_eq_false_iff_not] at hset
    have hp : idx * N_INUSEBITS + ffs (map ^^^ BitVec.allOnes 32) - 1 = N_INUSEBITS * idx + j := by
      rw [hffs, Nat.mul_comm]
      rfl
    have hpword : (N_INUSEBITS * idx + j) / N_INUSEBITS < pmp.words := by
      simp only [N_INUSEBITS]
      omega
    obtain ⟨l, hl, hrun⟩ := @chainlength_spec pmp _ count hpword
    refine ⟨N_INUSEBITS * idx + j, l, by omega, ?_, clear_of_getLsbD hword hj hset.1, hrun,
      chainlength_end hpword hl, ?_⟩
    · intro c hlo hhi
      have hbefore := hlow (c - N_INUSEBITS * idx) (by omega)
      rw [hxor _ (by omega), Bool.not_eq_false'] at hbefore
      have := hinuse _ (by omega) (by omega) hbefore
      rwa [show N_INUSEBITS * idx + (c - N_INUSEBITS * idx) = c by omega] at this
    · rw [if_pos hfull]
      simp only [hp, hl]
  · left
    refine ⟨cn + (N_INUSEBITS - s), by simp only [N_INUSEBITS]; omega, ?_, if_neg hfull⟩
    intro c hlo hhi
    have hi : c - N_INUSEBITS * idx < 32 := by
      simp only [N_INUSEBITS] at *
      omega
    have hall : map.getLsbD (c - N_INUSEBITS * idx) = true := by
      rw [not_not.1 hfull, BitVec.getLsbD_allOnes]
      exact decide_eq_true hi
    have := hinuse _ hi (by omega) hall
    rwa [show N_INUSEBITS * idx + (c - N_INUSEBITS * idx) = c by omega] at this

theorem searchLoop_most {f l : ℕ} (hbound : bound ≤ pmp.pm_maxcluster + 1) (hlt : foundl < count)
    (h : searchLoop pmp count bound n cn foundcn foundl = .ok (.most f l)) : foundl ≤ l ∧ l < count := by
  induction n generalizing cn foundcn foundl with
  | zero =>
    cases h
    exact ⟨le_rfl, hlt⟩
  | succ n ih =>
    by_cases hend : bound ≤ cn
    · rw [searchLoop, if_pos hend] at h
      cases h
      exact ⟨le_rfl, hlt⟩
    obtain ⟨next, -, -, heq⟩ | ⟨p, l', -, -, -, -, -, heq⟩ :=
      @searchLoop_step pmp count bound n cn foundcn foundl hbound (by omega)
    · rw [heq] at h
      exact ih hlt h
    · rw [heq] at h
      split at h
      · cases h
      · split at h
        · obtain ⟨h1, h2⟩ := ih (by omega) h
          exact ⟨by omega, h2⟩
        · exact ih hlt h

theorem searchLoop_pos {f l c : ℕ} (hbound : bound ≤ pmp.pm_maxcluster + 1) (hlt : foundl < count)
    (hn : bound - cn ≤ n) (hlo : cn ≤ c) (hhi : c < bound) (hc : pmp.Clear c)
    (h : searchLoop pmp count bound n cn foundcn foundl = .ok (.most f l)) : 0 < l := by
  induction n generalizing cn foundcn foundl with
  | zero => omega
  | succ n ih =>
    obtain ⟨next, hnext, hnone, heq⟩ | ⟨p, l', hp, -, hclear, -, hstop, heq⟩ :=
      @searchLoop_step pmp count bound n cn foundcn foundl hbound (by omega)
    · rw [heq] at h
      have : next ≤ c := by
        by_contra hlt'
        exact hnone c hlo (by omega) hc
      exact ih hlt (by omega) this h
    · rw [heq] at h
      split at h
      · cases h
      · have hpos : 0 < l' := by
          by_contra hzero
          refine hstop (by omega) ?_
          rwa [show l' = 0 by omega]
        split at h
        · have := (searchLoop_most hbound (by omega) h).1
          omega
        · have := (searchLoop_most hbound hlt h).1
          omega

theorem searchLoop_enough {c : ℕ} (hbound : bound ≤ pmp.pm_maxcluster + 1) (hn : bound - cn ≤ n)
    (hlo : cn ≤ c) (hhi : c < bound) (hfirst : ∀ d, d + 1 = c → ¬pmp.Clear d) (hcount : 0 < count)
    (hrun : ∀ i < count, pmp.Clear (c + i)) :
    ∃ p, searchLoop pmp count bound n cn foundcn foundl = .ok (.enough p) := by
  induction n generalizing cn foundcn foundl with
  | zero => omega
  | succ n ih =>
    have hc : pmp.Clear c := hrun 0 hcount
    obtain ⟨next, hnext, hnone, heq⟩ | ⟨p, l, hp, hnone, hclear, hfree, hstop, heq⟩ :=
      @searchLoop_step pmp count bound n cn foundcn foundl hbound (by omega)
    · rw [heq]
      refine ih (by omega) ?_
      by_contra hlt
      exact hnone c hlo (by omega) hc
    · rw [heq]
      by_cases henough : count ≤ l
      · exact ⟨p, if_pos henough⟩
      rw [if_neg henough]
      have hpc : p ≤ c := by
        by_contra hlt
        exact hnone c hlo (by omega) hc
      have hnext : p + l + 1 ≤ c := by
        have hstop := hstop (by omega)
        by_contra hlt
        obtain rfl | hlt' := Nat.eq_or_lt_of_le hpc
        · exact hstop (hrun l (by omega))
        · obtain heq' | hin : c = p + l ∨ c < p + l := by omega
          · exact hstop (heq' ▸ hc)
          · have hprev := hfree.clear (c - 1 - p) (by omega)
            rw [show p + (c - 1 - p) = c - 1 by omega] at hprev
            exact hfirst (c - 1) (by omega) hprev
      split
      · exact ih (by omega) hnext
      · exact ih (by omega) hnext

theorem exists_first {s : ℕ} (hrun : ∀ i < count, pmp.Clear (s + i)) :
    ∃ c, c ≤ s ∧ (∀ d, d + 1 = c → ¬pmp.Clear d) ∧ ∀ i < count, pmp.Clear (c + i) := by
  induction s with
  | zero => exact ⟨0, le_rfl, nofun, hrun⟩
  | succ s ih =>
    by_cases hs : pmp.Clear s
    · obtain ⟨c, hc, hfirst, hrun'⟩ := ih fun i hi => by
        cases i with
        | zero => exact hs
        | succ i =>
          have := hrun i (by omega)
          rwa [show s + 1 + i = s + (i + 1) by omega] at this
      exact ⟨c, by omega, hfirst, hrun'⟩
    · refine ⟨s + 1, le_rfl, fun d hd => ?_, hrun⟩
      rwa [show d = s by omega]

end Search

section Alloc

variable {pmp pmp' : Mount} {start len count : ℕ} {fillwith : BitVec 32} {r : Result}

/-- The clusters from `retcluster` on that an allocation of `count` clusters has taken. -/
structure Allocated (pmp : Mount) (count : ℕ) (fillwith : BitVec 32) (pmp' : Mount) (retcluster got : ℕ) :
    Prop where
  pos : 1 ≤ got
  le : got ≤ count
  kind : pmp'.kind = pmp.kind
  maxcluster : pmp'.pm_maxcluster = pmp.pm_maxcluster
  free : ∀ i < got, pmp.FreeCluster (retcluster + i)
  enough : (∃ s, ∀ i < count, pmp.FreeCluster (s + i)) → got = count
  entry : ∀ c, fatEntry pmp.kind pmp'.fat c =
    if retcluster ≤ c ∧ c < retcluster + got then
      (if c + 1 < retcluster + got then BitVec.ofNat 32 (c + 1) else fillwith) &&& pmp.kind.pm_fatmask
    else fatEntry pmp.kind pmp.fat c
  coherent : pmp.Sound → pmp.kind.Ends fillwith → Coherent pmp'

/-- What `clusteralloc` is for. -/
structure Allocates (pmp : Mount) (count : ℕ) (fillwith : BitVec 32) (pmp' : Mount) (r : Result) : Prop where
  full : r = .error .ENOSPC ↔ ∀ c, ¬pmp.FreeCluster c
  error : ∀ e, r = .error e → e = .ENOSPC
  run : ∀ retcluster got, r = .ok (retcluster, got) → Allocated pmp count fillwith pmp' retcluster got

theorem Allocated.allocates {retcluster got : ℕ} (h : Allocated pmp count fillwith pmp' retcluster got) :
    Allocates pmp count fillwith pmp' (.ok (retcluster, got)) := by
  refine ⟨⟨nofun, fun hnone => absurd (h.free 0 h.pos) (hnone _)⟩, nofun, ?_⟩
  rintro _ _ ⟨⟩
  exact h

theorem Mount.Sound.entry_ne_zero (h : pmp.Sound) {c : ℕ} (hc : c ≤ pmp.pm_maxcluster) (hne : c ≠ 0) :
    BitVec.ofNat 32 c &&& pmp.kind.pm_fatmask ≠ 0 := by
  intro hzero
  have hval := h.toNat_entry hc
  rw [hzero] at hval
  exact hne hval.symm

theorem Coherent.chainalloc {got : ℕ} (h : Coherent pmp) (fillwith : BitVec 32) (hpos : 1 ≤ got) (hle : got ≤ count)
    (hclear : ∀ i < got, pmp.Clear (start + i))
    (henough : (∃ s, ∀ i < count, pmp.Clear (s + i)) → got = count) :
    ∃ pmp' r, chainalloc pmp start got fillwith = .ok (pmp', r) ∧ Allocates pmp count fillwith pmp' r := by
  obtain ⟨a, halloc, htest⟩ := @usemapAllocs_ok pmp got start fun i hi => (hclear i hi).1
  have hfirst := h.clear_iff.1 (hclear 0 hpos)
  have hlast := h.clear_iff.1 (hclear (got - 1) (by omega))
  have hguard : ¬(start < CLUST_FIRST ∨ pmp.pm_maxcluster < start + got - 1) := by
    have h1 := hfirst.first
    have h2 := hlast.last
    omega
  let pmp' : Mount := { pmp with
    pm_inusemap := a
    pm_freeclustercount := pmp.pm_freeclustercount - BitVec.ofNat 32 got
    fat := fatchainLoop pmp.kind fillwith got start (pmp.kind.FATOFS start) pmp.fat }
  have hentry : ∀ c, fatEntry pmp.kind pmp'.fat c = if start ≤ c ∧ c < start + got then
      (if c + 1 < start + got then BitVec.ofNat 32 (c + 1) else fillwith) &&& pmp.kind.pm_fatmask
      else fatEntry pmp.kind pmp.fat c := fatEntry_fatchainLoop _ _ _ _ _
  refine ⟨pmp', .ok (start, got), ?_, Allocated.allocates ⟨hpos, hle, rfl, rfl, ?_, ?_, hentry, ?_⟩⟩
  · rw [Msdosfs.chainalloc, halloc]
    simp only [bind, Except.bind, fatchain]
    rw [if_neg hguard]
  · exact fun i hi => h.clear_iff.1 (hclear i hi)
  · rintro ⟨s, hs⟩
    exact henough ⟨s, fun i hi => h.clear_iff.2 (hs i hi)⟩
  · refine fun hsound hfill => ⟨fun c hlo hhi => ?_, fun c hc hout => ?_⟩
    · change test a c = true ↔ fatEntry pmp.kind pmp'.fat c ≠ 0
      rw [htest, hentry]
      by_cases hin : start ≤ c ∧ c < start + got
      · rw [if_pos hin, decide_eq_true hin, Bool.or_true]
        refine iff_of_true rfl ?_
        split
        · have hlast := hlast.last
          exact hsound.entry_ne_zero (by omega) (Nat.succ_ne_zero c)
        · exact hfill
      · rw [if_neg hin, decide_eq_false hin, Bool.or_false]
        exact h.inuse c hlo hhi
    · change test a c = true
      rw [htest, h.others c hc hout, Bool.true_or]

theorem Coherent.clusterSearch (h : Coherent pmp) (fillwith : BitVec 32) (hcount : 1 ≤ count) {n : ℕ} (hn : n ≤ pmp.pm_maxcluster + 1)
    (hlen : ∀ i < len, pmp.Clear (start + i)) (hshort : len < count) :
    ∃ pmp' r, clusterSearch pmp n start len count fillwith = .ok (pmp', r) ∧
      Allocates pmp count fillwith pmp' r := by
  have henough {cn : ℕ} (hfree : (Found.enough cn).Free pmp count) :
      ∃ pmp' r, Msdosfs.chainalloc pmp cn count fillwith = .ok (pmp', r) ∧
        Allocates pmp count fillwith pmp' r :=
    h.chainalloc fillwith hcount le_rfl hfree.2 fun _ => rfl
  obtain ⟨r₁, hr₁, hfree₁⟩ := @searchLoop_spec pmp count _ le_rfl (pmp.pm_maxcluster + 1) n 0 0
    fun i hi => absurd hi (Nat.not_lt_zero i)
  simp only [Msdosfs.clusterSearch, hr₁, bind, Except.bind]
  cases r₁ with
  | enough cn => exact henough hfree₁
  | most f₁ l₁ =>
    obtain ⟨r₂, hr₂, hfree₂⟩ := @searchLoop_spec pmp count _ hn n 0 f₁ l₁ hfree₁
    simp only [hr₂]
    cases r₂ with
    | enough cn => exact henough hfree₂
    | most f l =>
      have hl₁ := (searchLoop_most le_rfl hcount hr₁).2
      obtain ⟨hmono, hl⟩ := searchLoop_most hn hl₁ hr₂
      -- a run of enough clusters begins where one of the searches sees it
      have hnone : ¬∃ s, ∀ i < count, pmp.Clear (s + i) := by
        rintro ⟨s, hs⟩
        obtain ⟨c, -, hfirst, hrun⟩ := exists_first hs
        have hmax := (h.clear_iff.1 (hrun 0 hcount)).last
        by_cases hc : n ≤ c
        · obtain ⟨p, hp⟩ := @searchLoop_enough pmp count _ (pmp.pm_maxcluster + 1) n 0 0 c le_rfl (by omega) hc
            (by omega) hfirst hcount hrun
          rw [hr₁] at hp
          cases hp
        · obtain ⟨p, hp⟩ := @searchLoop_enough pmp count _ n 0 f₁ l₁ c hn (by omega) (Nat.zero_le c)
            (by omega) hfirst hcount hrun
          rw [hr₂] at hp
          cases hp
      simp only
      by_cases hzero : l = 0
      · rw [if_pos hzero]
        refine ⟨pmp, _, rfl, iff_of_true rfl fun c hc => ?_, ?_, nofun⟩
        · have hclear := h.clear_iff.2 hc
          have hmax := hc.last
          by_cases hnc : n ≤ c
          · have := searchLoop_pos le_rfl hcount (by omega) hnc (by omega) hclear hr₁
            omega
          · have := searchLoop_pos hn hl₁ (by omega) (Nat.zero_le c) (by omega) hclear hr₂
            omega
        · rintro _ ⟨⟩
          rfl
      · rw [if_neg hzero]
        by_cases hpref : len ≠ 0
        · rw [if_pos hpref]
          exact h.chainalloc fillwith (by omega) hshort.le hlen fun hs => absurd hs hnone
        · rw [if_neg hpref]
          exact h.chainalloc fillwith (by omega) hl.le hfree₂ fun hs => absurd hs hnone

theorem clusteralloc_fault (hout : pmp.words ≤ start / N_INUSEBITS) (tv_usec : BitVec 32) :
    clusteralloc pmp start count fillwith tv_usec = .error ⟨start / N_INUSEBITS⟩ := by
  have hzero : start ≠ 0 := by
    rintro rfl
    rw [pmp.words_eq] at hout
    simp only [N_INUSEBITS] at hout
    omega
  rw [clusteralloc, if_pos hzero, chainlength_fault hout]
  rfl

theorem newst_lt (pmp : Mount) (start : ℕ) : newst pmp start < pmp.pm_maxcluster + 1 := Nat.mod_lt _ (Nat.succ_pos _)

theorem Coherent.clusteralloc (h : Coherent pmp) (fillwith : BitVec 32) (hcount : 1 ≤ count)
    (hword : start / N_INUSEBITS < pmp.words) (tv_usec : BitVec 32) :
    ∃ pmp' r, clusteralloc pmp start count fillwith tv_usec = .ok (pmp', r) ∧
      Allocates pmp count fillwith pmp' r := by
  rw [Msdosfs.clusteralloc]
  by_cases hzero : start ≠ 0
  · rw [if_pos hzero]
    obtain ⟨l, hl, hrun⟩ := @chainlength_spec pmp start count hword
    rw [hl]
    by_cases henough : count ≤ l
    · obtain ⟨pmp', r, halloc, hallocates⟩ :=
        h.chainalloc fillwith hcount le_rfl (fun i hi => hrun.clear i (by omega)) fun _ => rfl
      exact ⟨pmp', r, (if_pos henough).trans halloc, hallocates⟩
    · obtain ⟨pmp', r, halloc, hallocates⟩ :=
        h.clusterSearch fillwith hcount (newst_lt pmp start).le hrun.clear (not_le.1 henough)
      exact ⟨pmp', r, (if_neg henough).trans halloc, hallocates⟩
  · rw [if_neg hzero]
    exact h.clusterSearch fillwith hcount (newst_lt pmp _).le (fun i hi => absurd hi (Nat.not_lt_zero i)) hcount

/-- `clusteralloc` does what it is for, if and only if the preferred start lies in the map. -/
theorem clusteralloc_allocates (h : Coherent pmp) (hcount : 1 ≤ count) (start : ℕ) (tv_usec : BitVec 32) :
    (∃ pmp' r, clusteralloc pmp start count fillwith tv_usec = .ok (pmp', r) ∧
      Allocates pmp count fillwith pmp' r) ↔ start / N_INUSEBITS < pmp.words := by
  constructor
  · rintro ⟨pmp', r, halloc, -⟩
    by_contra hout
    rw [clusteralloc_fault (not_lt.1 hout)] at halloc
    cases halloc
  · exact fun hword => h.clusteralloc fillwith hcount hword tv_usec

end Alloc

/-- A map of one full word; the last cluster is in use. -/
def wholeWord : Mount where
  kind := .fat12
  pm_maxcluster := 31
  pm_inusemap _ := 0x80000003
  pm_freeclustercount := 29
  fat o := if o = 46 then 0xf0 else if o = 47 then 0xff else 0

theorem wholeWord_coherent : Coherent wholeWord where
  inuse c hlo hhi := by
    change c ≤ 31 at hhi
    revert hlo
    revert c
    decide
  others c hc := by
    change c < 32 * 1 at hc
    revert hc c
    decide

theorem clusteralloc_allocates_wholeWord :
    (∃ pmp' r, clusteralloc wholeWord 31 3 CLUST_EOFE 0 = .ok (pmp', r) ∧
      Allocates wholeWord 3 CLUST_EOFE pmp' r) ↔ 31 / N_INUSEBITS < wholeWord.words :=
  clusteralloc_allocates wholeWord_coherent (by decide) 31 0

/-- The file with the last cluster is extended: the map is read behind its end. -/
theorem clusteralloc_outside : Coherent wholeWord ∧ fatEntry wholeWord.kind wholeWord.fat 31 ≠ 0 ∧
    clusteralloc wholeWord 32 1 CLUST_EOFE 0 = .error ⟨wholeWord.words⟩ :=
  ⟨wholeWord_coherent, by decide, rfl⟩

end OpenbsdKernel.Msdosfs
