import OpenbsdKernel.Msdosfs.Fat.Alloc

/-!
# The map, the count and the FAT agree

Whatever is allocated and freed, as long as no file that ends with the last cluster of a full last
word of the map is extended: the allocator then looks for the cluster behind it in a word the map
does not have.
-/
namespace OpenbsdKernel.Msdosfs

open Bitmap

section Alloc

variable {pmp : Mount} {start len count : ℕ} {fillwith : BitVec 32}

/-- The result of an allocation: consistent again, and only free clusters were handed out. -/
structure Handed (pmp pmp' : Mount) (r : Result) : Prop where
  kind : pmp'.kind = pmp.kind
  maxcluster : pmp'.pm_maxcluster = pmp.pm_maxcluster
  consistent : Consistent pmp'
  clear : ∀ retcluster got, r = .ok (retcluster, got) → ∀ i < got, pmp.Clear (retcluster + i)

theorem Consistent.handed (h : Consistent pmp) (hsound : pmp.Sound) (hfill : pmp.kind.Ends fillwith)
    (hclear : ∀ i < count, pmp.Clear (start + i))
    (hstart : count = 0 → CLUST_FIRST ≤ start ∧ start ≤ pmp.pm_maxcluster + 1) :
    ∃ pmp' r, Msdosfs.chainalloc pmp start count fillwith = .ok (pmp', r) ∧ Handed pmp pmp' r := by
  obtain ⟨pmp', halloc, htaken⟩ := h.chainalloc hsound hfill hclear hstart
  refine ⟨pmp', _, halloc, htaken.kind, htaken.maxcluster, htaken.consistent, ?_⟩
  rintro retcluster got ⟨⟩
  exact htaken.clear

theorem newst_le (pmp : Mount) (start : ℕ) : newst pmp start ≤ pmp.pm_maxcluster + 1 := by
  rw [newst]
  exact (Nat.mod_lt _ (Nat.succ_pos _)).le

theorem Consistent.clusterSearch (h : Consistent pmp) (hsound : pmp.Sound) (hfill : pmp.kind.Ends fillwith)
    {n : ℕ} (hn : n ≤ pmp.pm_maxcluster + 1) (hlen : ∀ i < len, pmp.Clear (start + i)) :
    ∃ pmp' r, clusterSearch pmp n start len count fillwith = .ok (pmp', r) ∧ Handed pmp pmp' r := by
  have henough {cn : ℕ} (hfree : (Found.enough cn).Free pmp count) :
      ∃ pmp' r, Msdosfs.chainalloc pmp cn count fillwith = .ok (pmp', r) ∧ Handed pmp pmp' r := by
    refine h.handed hsound hfill hfree.2 fun _ => ?_
    have := (h.free hfree.1).1
    omega
  obtain ⟨r₁, hr₁, hfree₁⟩ := @searchLoop_spec pmp count _ le_rfl (pmp.pm_maxcluster + 1) n 0 0
    fun i hi => absurd hi (Nat.not_lt_zero i)
  simp only [Msdosfs.clusterSearch, hr₁, bind, Except.bind]
  cases r₁ with
  | enough cn => exact henough hfree₁
  | most foundcn foundl =>
    obtain ⟨r₂, hr₂, hfree₂⟩ := @searchLoop_spec pmp count _ hn n 0 foundcn foundl hfree₁
    simp only [hr₂]
    cases r₂ with
    | enough cn => exact henough hfree₂
    | most foundcn foundl =>
      simp only
      by_cases hnone : foundl = 0
      · rw [if_pos hnone]
        exact ⟨_, _, rfl, rfl, rfl, h, nofun⟩
      · rw [if_neg hnone]
        by_cases hpref : len ≠ 0
        · rw [if_pos hpref]
          exact h.handed hsound hfill hlen fun hzero => absurd hzero hpref
        · rw [if_neg hpref]
          exact h.handed hsound hfill hfree₂ fun hzero => absurd hzero hnone

theorem Consistent.clusteralloc (h : Consistent pmp) (hsound : pmp.Sound) (hfill : pmp.kind.Ends fillwith)
    (hstart : start ≠ 0 → CLUST_FIRST ≤ start ∧ start ≤ pmp.pm_maxcluster + 1)
    (hword : start / N_INUSEBITS < pmp.words) (tv_usec : BitVec 32) :
    ∃ pmp' r, clusteralloc pmp start count fillwith tv_usec = .ok (pmp', r) ∧ Handed pmp pmp' r := by
  rw [Msdosfs.clusteralloc]
  by_cases hzero : start ≠ 0
  · rw [if_pos hzero]
    obtain ⟨l, hl, hrun⟩ := @chainlength_spec pmp start count hword
    rw [hl]
    by_cases henough : count ≤ l
    · obtain ⟨pmp', r, halloc, hhanded⟩ :=
        h.handed hsound hfill (fun i (hi : i < count) => hrun.clear i (by omega)) fun _ => hstart hzero
      exact ⟨pmp', r, (if_pos henough).trans halloc, hhanded⟩
    · obtain ⟨pmp', r, halloc, hhanded⟩ := h.clusterSearch hsound hfill (newst_le pmp start) hrun.clear
      exact ⟨pmp', r, (if_neg henough).trans halloc, hhanded⟩
  · rw [if_neg hzero]
    exact h.clusterSearch hsound hfill (newst_le pmp _) fun i hi => absurd hi (Nat.not_lt_zero i)

end Alloc

section Free

variable {pmp : Mount} {c : ℕ}

/-- A cluster of the file system that is in use. -/
structure Mount.Used (pmp : Mount) (c : ℕ) : Prop where
  first : CLUST_FIRST ≤ c
  last : c ≤ pmp.pm_maxcluster
  entry : fatEntry pmp.kind pmp.fat c ≠ 0

/-- The cluster `c` is free in the map, the count and the FAT. -/
def Mount.freed (pmp : Mount) (c : ℕ) : Mount :=
  { pmp with
    pm_inusemap := clear pmp.pm_inusemap c
    pm_freeclustercount := pmp.pm_freeclustercount + 1
    fat := putEntry pmp.kind (c % 2 = 1) pmp.fat (pmp.kind.FATOFS c) MSDOSFSFREE }

theorem fatEntry_freed (pmp : Mount) (c d : ℕ) :
    fatEntry pmp.kind (pmp.freed c).fat d = if d = c then 0 else fatEntry pmp.kind pmp.fat d := by
  have hzero : MSDOSFSFREE &&& pmp.kind.pm_fatmask = 0 := by
    cases pmp.kind <;> decide
  rw [Mount.freed, fatEntry_putEntry, hzero]

theorem card_freeClusters_clear {pmp' : Mount} (hwords : pmp'.words = pmp.words)
    (htest : ∀ d, test pmp'.pm_inusemap d = (test pmp.pm_inusemap d && decide (d ≠ c)))
    (hc : c < N_INUSEBITS * pmp.words) (hset : test pmp.pm_inusemap c = true) :
    pmp'.freeClusters.card = pmp.freeClusters.card + 1 := by
  have hinsert : pmp'.freeClusters = insert c pmp.freeClusters := by
    ext d
    simp only [Mount.freeClusters, Finset.mem_insert, Finset.mem_filter, Finset.mem_range, Mount.Clear, hwords,
      htest, Bool.and_eq_false_iff, decide_eq_false_iff_not, not_not]
    constructor
    · rintro ⟨h1, -, h2 | h2⟩
      · exact .inr ⟨h1, h1, h2⟩
      · exact .inl h2
    · rintro (rfl | ⟨h1, -, h2⟩)
      · exact ⟨hc, hc, .inr rfl⟩
      · exact ⟨h1, h1, .inl h2⟩
  have hnot : c ∉ pmp.freeClusters := by
    intro hmem
    have hclear := (Finset.mem_filter.1 hmem).2.2
    rw [hset] at hclear
    cases hclear
  rw [hinsert, Finset.card_insert_of_notMem hnot]

theorem Consistent.freed (h : Consistent pmp) (hc : pmp.Used c) : Consistent (pmp.freed c) := by
  have hset := (h.inuse c hc.first hc.last).2 hc.entry
  have htest : ∀ d, test (pmp.freed c).pm_inusemap d = (test pmp.pm_inusemap d && decide (d ≠ c)) :=
    test_clear (by decide) pmp.pm_inusemap c
  refine ⟨?_, ?_, ?_⟩
  · intro d hlo hhi
    change _ ↔ fatEntry pmp.kind (pmp.freed c).fat d ≠ 0
    rw [htest, fatEntry_freed]
    by_cases hd : d = c
    · simp [hd]
    · rw [if_neg hd, decide_eq_true hd, Bool.and_true]
      exact h.inuse d hlo hhi
  · intro d hd hout
    have hne : d ≠ c := by
      rintro rfl
      have h1 := hc.first
      have h2 := hc.last
      have h3 : d < CLUST_FIRST ∨ pmp.pm_maxcluster < d := hout
      omega
    rw [htest, h.others d hd hout, decide_eq_true hne]
    rfl
  · have hcard := @card_freeClusters_clear pmp c (pmp.freed c) rfl htest (lt_words hc.last) hset
    rw [hcard, BitVec.ofNat_add, ← h.count]
    rfl

theorem usemapFree_used (hc : pmp.Used c) : usemapFree pmp c = .ok { pmp with
    pm_inusemap := clear pmp.pm_inusemap c
    pm_freeclustercount := pmp.pm_freeclustercount + 1 } := usemapFree_ok (lt_words hc.last)

theorem clusterfree_used (hc : pmp.Used c) :
    clusterfree pmp c = .ok (pmp.freed c, fatentryGet pmp c) := by
  have hguard : ¬(c < CLUST_FIRST ∨ pmp.pm_maxcluster < c) := by
    have h1 := hc.first
    have h2 := hc.last
    omega
  rw [clusterfree, usemapFree_used hc]
  simp only [bind, Except.bind, fatentrySet]
  rw [if_neg hguard]
  rfl

theorem Mount.Used.freed {d : ℕ} (hd : pmp.Used d) (hne : d ≠ c) : (pmp.freed c).Used d := by
  refine ⟨hd.first, hd.last, ?_⟩
  change fatEntry pmp.kind (pmp.freed c).fat d ≠ 0
  rw [fatEntry_freed, if_neg hne]
  exact hd.entry

/-- The clusters `l` are a chain that begins with the cluster `c`, up to an entry that is no cluster. -/
def Mount.Chain (pmp : Mount) : ℕ → List ℕ → Prop
  | c, [] => ¬(CLUST_FIRST ≤ c ∧ c ≤ pmp.pm_maxcluster)
  | c, d :: l => d = c ∧ pmp.Used c ∧ pmp.Chain (nextCluster pmp.kind (fatEntry pmp.kind pmp.fat c)).toNat l

theorem Mount.Chain.used {l : List ℕ} (h : pmp.Chain c l) : ∀ d ∈ l, pmp.Used d := by
  induction l generalizing c with
  | nil => exact fun d hd => absurd hd List.not_mem_nil
  | cons a l ih =>
    obtain ⟨rfl, hused, hnext⟩ := h
    exact List.forall_mem_cons.2 ⟨hused, ih hnext⟩

theorem Mount.Chain.freed {l : List ℕ} {x : ℕ} (h : pmp.Chain x l) (hc : c ∉ l) : (pmp.freed c).Chain x l := by
  induction l generalizing x with
  | nil => exact h
  | cons d l ih =>
    obtain ⟨rfl, hused, hnext⟩ := h
    have hne : d ≠ c := fun heq => hc (heq ▸ List.mem_cons_self)
    refine ⟨rfl, hused.freed hne, ?_⟩
    change (pmp.freed c).Chain (nextCluster pmp.kind (fatEntry pmp.kind (pmp.freed c).fat d)).toNat l
    rw [fatEntry_freed, if_neg hne]
    exact ih hnext fun hmem => hc (List.mem_cons_of_mem _ hmem)

/-- What `freeclusterchain` leaves: the clusters of the chain are free, and nothing else has changed. -/
structure Freed (pmp pmp' : Mount) (l : List ℕ) : Prop where
  kind : pmp'.kind = pmp.kind
  maxcluster : pmp'.pm_maxcluster = pmp.pm_maxcluster
  consistent : Consistent pmp'
  entry : ∀ d, fatEntry pmp'.kind pmp'.fat d = if d ∈ l then 0 else fatEntry pmp.kind pmp.fat d

theorem Consistent.freeclusterchain (h : Consistent pmp) {l : List ℕ} (hl : pmp.Chain c l) (hnodup : l.Nodup)
    {n : ℕ} (hn : l.length ≤ n) :
    ∃ pmp', freeclusterchain n pmp c = .ok pmp' ∧ Freed pmp pmp' l := by
  induction l generalizing pmp c n with
  | nil =>
    refine ⟨pmp, ?_, rfl, rfl, h, fun d => (if_neg List.not_mem_nil).symm⟩
    cases n with
    | zero => rfl
    | succ n => exact if_neg hl
  | cons d l ih =>
    obtain ⟨rfl, hused, hnext⟩ := hl
    obtain ⟨hd, hnodup⟩ := List.nodup_cons.1 hnodup
    cases n with
    | zero => exact absurd hn (Nat.not_succ_le_zero _)
    | succ n =>
      obtain ⟨pmp', hfree, hfreed⟩ := ih (h.freed hused) (hnext.freed hd) hnodup (Nat.le_of_succ_le_succ hn)
      refine ⟨pmp', ?_, hfreed.kind, hfreed.maxcluster, hfreed.consistent, fun e => ?_⟩
      · rw [Msdosfs.freeclusterchain, if_pos ⟨hused.first, hused.last⟩, usemapFree_used hused]
        exact hfree
      · rw [hfreed.entry, show fatEntry (pmp.freed d).kind (pmp.freed d).fat e = _ from fatEntry_freed pmp d e]
        by_cases he : e = d
        · rw [if_pos he, ite_self, if_pos (List.mem_cons.2 (.inl he))]
        · rw [if_neg he]
          simp only [List.mem_cons, he, false_or]

end Free

section Link

variable {pmp : Mount} {last : ℕ} {v : BitVec 32}

theorem Consistent.fatentrySet (h : Consistent pmp) (hlast : pmp.Used last) (hv : v &&& pmp.kind.pm_fatmask ≠ 0) :
    ∃ pmp', fatentrySet pmp last v = .ok pmp' ∧ pmp'.kind = pmp.kind ∧ pmp'.pm_maxcluster = pmp.pm_maxcluster ∧
      Consistent pmp' := by
  have hguard : ¬(last < CLUST_FIRST ∨ pmp.pm_maxcluster < last) := by
    have h1 := hlast.first
    have h2 := hlast.last
    omega
  refine ⟨_, if_neg hguard, rfl, rfl, ?_, h.others, h.count⟩
  intro c hlo hhi
  change test pmp.pm_inusemap c = true ↔
    fatEntry pmp.kind (putEntry pmp.kind (last % 2 = 1) pmp.fat (pmp.kind.FATOFS last) v) c ≠ 0
  rw [fatEntry_putEntry, h.inuse c hlo hhi]
  by_cases hc : c = last
  · rw [if_pos hc, hc]
    exact iff_of_true hlast.entry hv
  · rw [if_neg hc]

end Link

section Fill

variable {pmp : Mount}

/-- The map, the count and the FAT agree on the clusters before `cn`; the others are not free yet. -/
structure Filled (pmp : Mount) (cn : ℕ) : Prop where
  inuse : ∀ c, CLUST_FIRST ≤ c → c < cn → (test pmp.pm_inusemap c = true ↔ fatEntry pmp.kind pmp.fat c ≠ 0)
  others : ∀ c, c < N_INUSEBITS * pmp.words → c < CLUST_FIRST ∨ cn ≤ c → test pmp.pm_inusemap c = true
  count : pmp.pm_freeclustercount = BitVec.ofNat 32 pmp.freeClusters.card

theorem Filled.used {cn : ℕ} (h : Filled pmp cn) (hcn : cn ≤ pmp.pm_maxcluster)
    (hentry : fatEntry pmp.kind pmp.fat cn ≠ 0) : Filled pmp (cn + 1) := by
  refine ⟨fun c hlo hhi => ?_, fun c hc hout => h.others c hc (by omega), h.count⟩
  by_cases heq : c = cn
  · rw [heq]
    exact iff_of_true (h.others cn (lt_words hcn) (.inr le_rfl)) hentry
  · exact h.inuse c hlo (by omega)

theorem Filled.free {cn : ℕ} (h : Filled pmp cn) (hlo : CLUST_FIRST ≤ cn) (hcn : cn ≤ pmp.pm_maxcluster)
    (hentry : fatEntry pmp.kind pmp.fat cn = 0) :
    Filled { pmp with
      pm_inusemap := clear pmp.pm_inusemap cn
      pm_freeclustercount := pmp.pm_freeclustercount + 1 } (cn + 1) := by
  set pmp' : Mount := { pmp with
    pm_inusemap := clear pmp.pm_inusemap cn
    pm_freeclustercount := pmp.pm_freeclustercount + 1 }
  have hset := h.others cn (lt_words hcn) (.inr le_rfl)
  have htest : ∀ d, test pmp'.pm_inusemap d = (test pmp.pm_inusemap d && decide (d ≠ cn)) :=
    test_clear (by decide) pmp.pm_inusemap cn
  refine ⟨fun c h1 h2 => ?_, fun c hc hout => ?_, ?_⟩
  · simp only [htest]
    by_cases heq : c = cn
    · have hzero : fatEntry pmp'.kind pmp'.fat cn = 0 := hentry
      simp [heq, hzero]
    · rw [decide_eq_true heq, Bool.and_true]
      exact h.inuse c h1 (by omega)
  · simp only [htest]
    rw [h.others c hc (by omega), decide_eq_true (by omega)]
    rfl
  · have hcard := @card_freeClusters_clear pmp cn pmp' rfl htest (lt_words hcn) hset
    rw [hcard, BitVec.ofNat_add, ← h.count]
    rfl

theorem Filled.fillLoop {n cn : ℕ} (h : Filled pmp cn) (hlo : CLUST_FIRST ≤ cn)
    (hn : cn + n = pmp.pm_maxcluster + 1) :
    ∃ pmp', fillLoop n cn pmp = .ok pmp' ∧ pmp'.kind = pmp.kind ∧ pmp'.pm_maxcluster = pmp.pm_maxcluster ∧
      pmp'.fat = pmp.fat ∧ Filled pmp' (pmp.pm_maxcluster + 1) := by
  induction n generalizing pmp cn with
  | zero => exact ⟨pmp, rfl, rfl, rfl, rfl, hn ▸ h⟩
  | succ n ih =>
    have hcn : cn ≤ pmp.pm_maxcluster := by omega
    rw [Msdosfs.fillLoop]
    by_cases hentry : fatEntry pmp.kind pmp.fat cn = 0
    · rw [if_pos hentry, usemapFree_ok (lt_words hcn)]
      exact ih (h.free hlo hcn hentry) (by omega) (by simp only; omega)
    · rw [if_neg hentry]
      exact ih (h.used hcn hentry) (by omega) (by omega)

/-- `fillinusemap` does not fail, and leaves a map and a count that agree with the FAT. -/
theorem fillinusemap_spec (pmp : Mount) :
    ∃ pmp', fillinusemap pmp = .ok pmp' ∧ pmp'.kind = pmp.kind ∧ pmp'.pm_maxcluster = pmp.pm_maxcluster ∧
      pmp'.fat = pmp.fat ∧ Consistent pmp' := by
  set pmp₀ : Mount := { pmp with
    pm_inusemap := fun idx => if idx < pmp.words then BitVec.allOnes 32 else pmp.pm_inusemap idx
    pm_freeclustercount := 0 } with hpmp₀
  have hset : ∀ c, c < N_INUSEBITS * pmp.words → test pmp₀.pm_inusemap c = true := by
    intro c hc
    rw [test_word]
    simp only [hpmp₀]
    rw [if_pos (Nat.div_lt_of_lt_mul hc), BitVec.getLsbD_allOnes]
    exact decide_eq_true (Nat.mod_lt _ (by decide))
  have hnone : pmp₀.freeClusters = ∅ := by
    rw [Mount.freeClusters, Finset.filter_eq_empty_iff]
    rintro c hc ⟨hrange, hclear⟩
    rw [hset c hrange] at hclear
    cases hclear
  have hcount : pmp₀.pm_freeclustercount = BitVec.ofNat 32 pmp₀.freeClusters.card := by
    rw [hnone]
    rfl
  by_cases hmax : pmp.pm_maxcluster + 1 < CLUST_FIRST
  · -- no cluster at all
    refine ⟨pmp₀, ?_, rfl, rfl, rfl, fun c hlo hhi => ?_, fun c hc _ => hset c hc, hcount⟩
    · rw [fillinusemap, Nat.sub_eq_zero_of_le hmax.le]
      rfl
    · simp only [hpmp₀] at hhi
      omega
  have hfirst : Filled pmp₀ CLUST_FIRST :=
    ⟨fun c hlo hhi => absurd hlo (by omega), fun c hc _ => hset c hc, hcount⟩
  obtain ⟨pmp', hloop, hkind, hmaxc, hfat, hfilled⟩ :=
    @Filled.fillLoop pmp₀ (pmp.pm_maxcluster + 1 - CLUST_FIRST) _ hfirst le_rfl (by simp only [hpmp₀]; omega)
  refine ⟨pmp', hloop, hkind, hmaxc, hfat, ?_, ?_, hfilled.count⟩
  · intro c hlo hhi
    rw [hmaxc] at hhi
    exact hfilled.inuse c hlo (Nat.lt_succ_of_le hhi)
  · intro c hc hout
    rw [hmaxc] at hout
    exact hfilled.others c hc hout

end Fill

end OpenbsdKernel.Msdosfs
