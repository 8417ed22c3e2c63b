import OpenbsdKernel.Msdosfs.Fat.Runs

/-!
# Freeing the chain of a damaged file system

`freeclusterchain` on a FAT that may say anything: chains that come back to themselves, run into
other ones or into free clusters. A block of the FAT may fail to be read.
-/
namespace OpenbsdKernel.Msdosfs.FreeChain

open Bitmap

/-- The block of the FAT that the entry of a cluster is in, and what reading a block at a time
says. -/
structure Device (ε : Type) where
  bn : ℕ → ℕ
  bread : ℕ → ℕ → Option ε

/-- What is left and returned; `visited` are the clusters whose entries were zeroed. -/
structure Freeing (ε : Type) where
  pmp : Mount
  error : Option ε
  visited : List ℕ

section Run

variable {ε : Type} (dev : Device ε)

/-- The read in front of a cluster, if its block is not the one that was read last. -/
def Device.read (lbn : Option ℕ) (reads c : ℕ) : Option ε :=
  if lbn ≠ some (dev.bn c) then dev.bread reads (dev.bn c) else none

/-- The reads so far. -/
def Device.reads (lbn : Option ℕ) (reads c : ℕ) : ℕ :=
  if lbn ≠ some (dev.bn c) then reads + 1 else reads

/-- `freeclusterchain` for `n` rounds, or nothing if it is not at its end then. -/
def freeclusterchain : ℕ → Mount → Option ℕ → ℕ → BitVec 32 → Except Fault (Option (Freeing ε))
  | 0, _, _, _, _ => .ok none
  | n + 1, pmp, lbn, reads, cluster =>
    let c := cluster.toNat
    if CLUST_FIRST ≤ c ∧ c ≤ pmp.pm_maxcluster then
      match dev.read lbn reads c with
      | some e => .ok (some ⟨pmp, some e, []⟩)
      | none => do
        let pmp ← usemapFree pmp c
        let entry := fatEntry pmp.kind pmp.fat c
        let m := putEntry pmp.kind (c % 2 = 1) pmp.fat (pmp.kind.FATOFS c) MSDOSFSFREE
        let rest ← freeclusterchain n { pmp with fat := m } (some (dev.bn c))
          (dev.reads lbn reads c) (nextCluster pmp.kind entry)
        .ok (rest.map fun r => { r with visited := c :: r.visited })
    else .ok (some ⟨pmp, none, []⟩)

/-- The clusters of a chain as the FAT has it now, up to an entry that is no cluster or a block
that cannot be read. -/
inductive Trail (pmp : Mount) : Option ℕ → ℕ → BitVec 32 → List ℕ → Prop
  | stop {lbn reads cluster} (h : ¬(CLUST_FIRST ≤ cluster.toNat ∧ cluster.toNat ≤ pmp.pm_maxcluster)) :
      Trail pmp lbn reads cluster []
  | fail {lbn reads cluster e} (h : CLUST_FIRST ≤ cluster.toNat ∧ cluster.toNat ≤ pmp.pm_maxcluster)
      (hread : dev.read lbn reads cluster.toNat = some e) : Trail pmp lbn reads cluster []
  | next {lbn reads cluster l}
      (h : CLUST_FIRST ≤ cluster.toNat ∧ cluster.toNat ≤ pmp.pm_maxcluster)
      (hread : dev.read lbn reads cluster.toNat = none)
      (hnext : Trail pmp (some (dev.bn cluster.toNat)) (dev.reads lbn reads cluster.toNat)
        (nextCluster pmp.kind (fatEntry pmp.kind pmp.fat cluster.toNat)) l) :
      Trail pmp lbn reads cluster (cluster.toNat :: l)

variable {dev}

theorem freeclusterchain_stop {pmp : Mount} {cluster : BitVec 32} (n : ℕ) (lbn : Option ℕ) (reads : ℕ)
    (h : ¬(CLUST_FIRST ≤ cluster.toNat ∧ cluster.toNat ≤ pmp.pm_maxcluster)) :
    freeclusterchain dev (n + 1) pmp lbn reads cluster = .ok (some ⟨pmp, none, []⟩) :=
  if_neg h

theorem freeclusterchain_fail {pmp : Mount} {cluster : BitVec 32} {lbn : Option ℕ} {reads : ℕ} {e : ε}
    (n : ℕ) (h : CLUST_FIRST ≤ cluster.toNat ∧ cluster.toNat ≤ pmp.pm_maxcluster)
    (hread : dev.read lbn reads cluster.toNat = some e) :
    freeclusterchain dev (n + 1) pmp lbn reads cluster = .ok (some ⟨pmp, some e, []⟩) := by
  rw [freeclusterchain]
  dsimp only
  rw [if_pos h, hread]

theorem freeclusterchain_next {pmp : Mount} {cluster : BitVec 32} {lbn : Option ℕ} {reads : ℕ}
    (n : ℕ) (h : CLUST_FIRST ≤ cluster.toNat ∧ cluster.toNat ≤ pmp.pm_maxcluster)
    (hread : dev.read lbn reads cluster.toNat = none) :
    freeclusterchain dev (n + 1) pmp lbn reads cluster =
      (freeclusterchain dev n (pmp.freed cluster.toNat) (some (dev.bn cluster.toNat))
        (dev.reads lbn reads cluster.toNat)
        (nextCluster pmp.kind (fatEntry pmp.kind pmp.fat cluster.toNat))).map
        fun rest => rest.map fun r => { r with visited := cluster.toNat :: r.visited } := by
  rw [freeclusterchain]
  dsimp only
  rw [if_pos h, hread, usemapFree_ok (lt_words h.2)]
  rfl

def live (pmp : Mount) : Finset ℕ :=
  (Finset.Icc CLUST_FIRST pmp.pm_maxcluster).filter fun c => fatEntry pmp.kind pmp.fat c ≠ 0

theorem live_freed (pmp : Mount) (c : ℕ) : live (pmp.freed c) = (live pmp).erase c := by
  ext d
  simp only [live, Finset.mem_filter, Finset.mem_erase]
  have hentry : fatEntry (pmp.freed c).kind (pmp.freed c).fat d = _ := fatEntry_freed pmp c d
  rw [hentry]
  by_cases hd : d = c
  · simp [hd]
  · rw [if_neg hd]
    exact ⟨fun h => ⟨hd, h⟩, fun h => h.2⟩

theorem nextCluster_zero (kind : FatKind) : nextCluster kind 0 = 0 := by
  cases kind <;> decide

theorem card_live_le (pmp : Mount) : (live pmp).card ≤ pmp.pm_maxcluster - 1 := by
  have h := Finset.card_filter_le (Finset.Icc CLUST_FIRST pmp.pm_maxcluster)
    fun c => fatEntry pmp.kind pmp.fat c ≠ 0
  rw [Nat.card_Icc] at h
  exact h

theorem freeclusterchain_returns {n : ℕ} {pmp : Mount} (lbn : Option ℕ) (reads : ℕ)
    (cluster : BitVec 32) (hn : (live pmp).card + 2 ≤ n) :
    ∃ r, r.visited.length ≤ (live pmp).card + 1 ∧
      ∀ m, n ≤ m → freeclusterchain dev m pmp lbn reads cluster = .ok (some r) := by
  induction n generalizing pmp lbn reads cluster with
  | zero => exact absurd hn (by omega)
  | succ n ih =>
    by_cases h : CLUST_FIRST ≤ cluster.toNat ∧ cluster.toNat ≤ pmp.pm_maxcluster
    · cases hread : dev.read lbn reads cluster.toNat with
      | some e =>
        refine ⟨⟨pmp, some e, []⟩, Nat.zero_le _, fun m hm => ?_⟩
        obtain ⟨m, rfl⟩ := Nat.exists_eq_add_of_lt (show 0 < m by omega)
        rw [Nat.zero_add]
        exact freeclusterchain_fail m h hread
      | none =>
        have hlive := live_freed pmp cluster.toNat
        obtain ⟨r, hlen, hr⟩ : ∃ r, r.visited.length ≤ (live pmp).card ∧
            ∀ m, n ≤ m → freeclusterchain dev m (pmp.freed cluster.toNat)
              (some (dev.bn cluster.toNat)) (dev.reads lbn reads cluster.toNat)
              (nextCluster pmp.kind (fatEntry pmp.kind pmp.fat cluster.toNat)) =
                .ok (some r) := by
          by_cases hzero : fatEntry pmp.kind pmp.fat cluster.toNat = 0
          · -- a cluster that was free already ends the walk
            refine ⟨⟨pmp.freed cluster.toNat, none, []⟩, Nat.zero_le _, fun m hm => ?_⟩
            obtain ⟨m, rfl⟩ := Nat.exists_eq_add_of_lt (show 0 < m by omega)
            rw [Nat.zero_add, hzero, nextCluster_zero]
            exact freeclusterchain_stop m _ _ (by simp [CLUST_FIRST])
          · have hmem : cluster.toNat ∈ live pmp :=
              Finset.mem_filter.2 ⟨Finset.mem_Icc.2 h, hzero⟩
            have hcard := Finset.card_erase_of_mem hmem
            have hpos := Finset.card_pos.2 ⟨_, hmem⟩
            rw [← hlive] at hcard
            obtain ⟨r, hlen, hr⟩ := @ih (pmp.freed cluster.toNat) (some (dev.bn cluster.toNat))
              (dev.reads lbn reads cluster.toNat)
              (nextCluster pmp.kind (fatEntry pmp.kind pmp.fat cluster.toNat)) (by omega)
            exact ⟨r, by omega, hr⟩
        refine ⟨{ r with visited := cluster.toNat :: r.visited }, Nat.succ_le_succ hlen,
          fun m hm => ?_⟩
        obtain ⟨m, rfl⟩ := Nat.exists_eq_add_of_lt (show 0 < m by omega)
        rw [Nat.zero_add, freeclusterchain_next m h hread, hr m (by omega)]
        rfl
    · refine ⟨⟨pmp, none, []⟩, Nat.zero_le _, fun m hm => ?_⟩
      obtain ⟨m, rfl⟩ := Nat.exists_eq_add_of_lt (show 0 < m by omega)
      rw [Nat.zero_add]
      exact freeclusterchain_stop m _ _ h

/-- The visited clusters are free in the map and the FAT, and were counted once for each visit. -/
structure After (pmp : Mount) (r : Freeing ε) : Prop where
  kind : r.pmp.kind = pmp.kind
  maxcluster : r.pmp.pm_maxcluster = pmp.pm_maxcluster
  entry : ∀ d, fatEntry r.pmp.kind r.pmp.fat d =
    if d ∈ r.visited then 0 else fatEntry pmp.kind pmp.fat d
  bits : ∀ d, test r.pmp.pm_inusemap d = (test pmp.pm_inusemap d && decide (d ∉ r.visited))
  count : r.pmp.pm_freeclustercount =
    pmp.pm_freeclustercount + BitVec.ofNat 32 r.visited.length
  range : ∀ d ∈ r.visited, d ≤ pmp.pm_maxcluster

theorem after_nil (pmp : Mount) (error : Option ε) : After pmp ⟨pmp, error, []⟩ where
  kind := rfl
  maxcluster := rfl
  entry d := (if_neg List.not_mem_nil).symm
  bits d := by simp
  count := by simp
  range d hd := absurd hd List.not_mem_nil

theorem After.cons {pmp : Mount} {c : ℕ} (hc : c ≤ pmp.pm_maxcluster) {r : Freeing ε}
    (h : After (pmp.freed c) r) : After pmp { r with visited := c :: r.visited } where
  kind := h.kind
  maxcluster := h.maxcluster
  entry d := by
    have hfreed : fatEntry (pmp.freed c).kind (pmp.freed c).fat d = _ := fatEntry_freed pmp c d
    rw [h.entry, hfreed]
    by_cases hd : d = c
    · rw [if_pos hd, ite_self, if_pos (List.mem_cons.2 (.inl hd))]
    · rw [if_neg hd]
      simp only [List.mem_cons, hd, false_or]
  bits d := by
    have hfreed : test (pmp.freed c).pm_inusemap d = _ :=
      test_clear (by decide) pmp.pm_inusemap c d
    rw [h.bits, hfreed, Bool.and_assoc, ← Bool.decide_and]
    simp only [List.mem_cons, not_or]
  count := by
    rw [h.count, List.length_cons, Nat.add_comm, BitVec.ofNat_add, ← BitVec.add_assoc]
    rfl
  range d hd := by
    rcases List.mem_cons.1 hd with rfl | hd
    · exact hc
    · exact h.range d hd

theorem freeclusterchain_cases {n : ℕ} {pmp : Mount} {lbn : Option ℕ} {reads : ℕ} {cluster : BitVec 32}
    {r : Freeing ε} (h : freeclusterchain dev (n + 1) pmp lbn reads cluster = .ok (some r)) :
    (¬(CLUST_FIRST ≤ cluster.toNat ∧ cluster.toNat ≤ pmp.pm_maxcluster) ∧
      r = ⟨pmp, none, []⟩) ∨
    ((CLUST_FIRST ≤ cluster.toNat ∧ cluster.toNat ≤ pmp.pm_maxcluster) ∧
      ((∃ e, dev.read lbn reads cluster.toNat = some e ∧ r = ⟨pmp, some e, []⟩) ∨
        dev.read lbn reads cluster.toNat = none ∧ ∃ rest,
          freeclusterchain dev n (pmp.freed cluster.toNat) (some (dev.bn cluster.toNat))
            (dev.reads lbn reads cluster.toNat)
            (nextCluster pmp.kind (fatEntry pmp.kind pmp.fat cluster.toNat)) = .ok (some rest) ∧
          r = { rest with visited := cluster.toNat :: rest.visited })) := by
  by_cases hin : CLUST_FIRST ≤ cluster.toNat ∧ cluster.toNat ≤ pmp.pm_maxcluster
  · refine .inr ⟨hin, ?_⟩
    cases hread : dev.read lbn reads cluster.toNat with
    | some e =>
      rw [freeclusterchain_fail n hin hread] at h
      exact .inl ⟨e, rfl, (Option.some.inj (Except.ok.inj h)).symm⟩
    | none =>
      rw [freeclusterchain_next n hin hread] at h
      cases hrest : freeclusterchain dev n (pmp.freed cluster.toNat) (some (dev.bn cluster.toNat))
          (dev.reads lbn reads cluster.toNat)
          (nextCluster pmp.kind (fatEntry pmp.kind pmp.fat cluster.toNat)) with
      | error e =>
        rw [hrest] at h
        cases h
      | ok rest =>
        rw [hrest] at h
        cases rest with
        | none => cases h
        | some rest => exact .inr ⟨rfl, rest, rfl, (Option.some.inj (Except.ok.inj h)).symm⟩
  · rw [freeclusterchain_stop n lbn reads hin] at h
    exact .inl ⟨hin, (Option.some.inj (Except.ok.inj h)).symm⟩

theorem freeclusterchain_after {n : ℕ} {pmp : Mount} {lbn : Option ℕ} {reads : ℕ} {cluster : BitVec 32}
    {r : Freeing ε} (h : freeclusterchain dev n pmp lbn reads cluster = .ok (some r)) :
    After pmp r := by
  induction n generalizing pmp lbn reads cluster r with
  | zero => cases h
  | succ n ih =>
    rcases freeclusterchain_cases h with ⟨-, rfl⟩ | ⟨hin, ⟨e, -, rfl⟩ | ⟨-, rest, hrest, rfl⟩⟩
    · exact after_nil pmp none
    · exact after_nil pmp (some e)
    · exact (ih hrest).cons hin.2

theorem Trail.freed {pmp : Mount} {lbn : Option ℕ} {reads : ℕ} {cluster : BitVec 32} {l : List ℕ}
    (h : Trail dev pmp lbn reads cluster l) {c : ℕ} (hc : c ∉ l) :
    Trail dev (pmp.freed c) lbn reads cluster l := by
  induction h with
  | stop hout => exact .stop hout
  | fail hin hread => exact .fail hin hread
  | @next lbn reads cluster l hin hread hnext ih =>
    have hne : cluster.toNat ≠ c := fun heq => hc (heq ▸ List.mem_cons_self)
    have hrest := ih fun hmem => hc (List.mem_cons_of_mem _ hmem)
    refine .next hin hread ?_
    have hentry : fatEntry (pmp.freed c).kind (pmp.freed c).fat cluster.toNat = _ :=
      fatEntry_freed pmp c cluster.toNat
    rw [hentry, if_neg hne]
    exact hrest

theorem Trail.of_freed {pmp : Mount} {c : ℕ} {lbn : Option ℕ} {reads : ℕ} {cluster : BitVec 32}
    {l : List ℕ} (h : Trail dev (pmp.freed c) lbn reads cluster l) (hc : c ∉ l) :
    Trail dev pmp lbn reads cluster l := by
  induction h with
  | stop hout => exact .stop hout
  | fail hin hread => exact .fail hin hread
  | @next lbn reads cluster l hin hread hnext ih =>
    have hne : cluster.toNat ≠ c := fun heq => hc (heq ▸ List.mem_cons_self)
    have hrest := ih fun hmem => hc (List.mem_cons_of_mem _ hmem)
    refine .next hin hread ?_
    have hentry : fatEntry (pmp.freed c).kind (pmp.freed c).fat cluster.toNat = _ :=
      fatEntry_freed pmp c cluster.toNat
    rw [hentry, if_neg hne] at hrest
    exact hrest

theorem freeclusterchain_trail {n : ℕ} {pmp : Mount} {lbn : Option ℕ} {reads : ℕ} {cluster : BitVec 32}
    {r : Freeing ε} (h : freeclusterchain dev n pmp lbn reads cluster = .ok (some r))
    (hnodup : r.visited.Nodup) : Trail dev pmp lbn reads cluster r.visited := by
  induction n generalizing pmp lbn reads cluster r with
  | zero => cases h
  | succ n ih =>
    rcases freeclusterchain_cases h with ⟨hout, rfl⟩ | ⟨hin, ⟨e, hread, rfl⟩ | ⟨hread, rest, hrest, rfl⟩⟩
    · exact .stop hout
    · exact .fail hin hread
    · obtain ⟨hc, hnodup⟩ := List.nodup_cons.1 hnodup
      exact .next hin hread ((ih hrest hnodup).of_freed hc)

theorem Trail.visited {n : ℕ} {pmp : Mount} {lbn : Option ℕ} {reads : ℕ} {cluster : BitVec 32}
    {l : List ℕ} (hl : Trail dev pmp lbn reads cluster l) (hnodup : l.Nodup) {r : Freeing ε}
    (h : freeclusterchain dev n pmp lbn reads cluster = .ok (some r)) : r.visited = l := by
  induction n generalizing pmp lbn reads cluster l r with
  | zero => cases h
  | succ n ih =>
    rcases freeclusterchain_cases h with ⟨hout, rfl⟩ | ⟨hin, ⟨e, hread, rfl⟩ | ⟨hread, rest, hrest, rfl⟩⟩
    · cases hl with
      | stop => rfl
      | fail hin => exact absurd hin hout
      | next hin => exact absurd hin hout
    · cases hl with
      | stop hout => exact absurd hin hout
      | fail => rfl
      | next _ hnone => rw [hread] at hnone; cases hnone
    · cases hl with
      | stop hout => exact absurd hin hout
      | fail _ hsome => rw [hread] at hsome; cases hsome
      | next _ _ hnext =>
        obtain ⟨hc, hnodup⟩ := List.nodup_cons.1 hnodup
        exact congrArg (cluster.toNat :: ·) (ih (hnext.freed hc) hnodup hrest)

theorem After.card {pmp : Mount} {r : Freeing ε} (h : After pmp r) :
    r.pmp.freeClusters.card = pmp.freeClusters.card +
      (r.visited.toFinset.filter fun c => test pmp.pm_inusemap c = true).card := by
  have hwords : r.pmp.words = pmp.words := by
    rw [Mount.words, Mount.words, h.maxcluster]
  have hunion : r.pmp.freeClusters = pmp.freeClusters ∪
      r.visited.toFinset.filter fun c => test pmp.pm_inusemap c = true := by
    ext d
    simp only [Mount.freeClusters, Mount.Clear, Finset.mem_union, Finset.mem_filter, Finset.mem_range,
      List.mem_toFinset, hwords, h.bits, Bool.and_eq_false_iff, decide_eq_false_iff_not, not_not]
    constructor
    · rintro ⟨hd, -, hbit | hvisited⟩
      · exact .inl ⟨hd, hd, hbit⟩
      · cases hbit : test pmp.pm_inusemap d with
        | false => exact .inl ⟨hd, hd, rfl⟩
        | true => exact .inr ⟨hvisited, rfl⟩
    · rintro (⟨hd, -, hbit⟩ | ⟨hvisited, -⟩)
      · exact ⟨hd, hd, .inl hbit⟩
      · have hd := lt_words (h.range d hvisited)
        exact ⟨hd, hd, .inr hvisited⟩
  rw [hunion, Finset.card_union_of_disjoint]
  refine Finset.disjoint_left.2 fun d hclear hset => ?_
  have h0 := (Finset.mem_filter.1 hclear).2.2
  rw [(Finset.mem_filter.1 hset).2] at h0
  cases h0

theorem card_filter_eq_length_iff {p : ℕ → Prop} [DecidablePred p] (l : List ℕ) :
    (l.toFinset.filter p).card = l.length ↔ l.Nodup ∧ ∀ c ∈ l, p c := by
  have hle := l.toFinset_card_le
  have hfilter := Finset.card_filter_le l.toFinset p
  constructor
  · intro h
    have hcard : l.toFinset.card = l.length := by omega
    have hdedup : l.dedup = l := l.dedup_sublist.eq_of_length (by rw [← List.card_toFinset, hcard])
    refine ⟨List.dedup_eq_self.1 hdedup, fun c hc => ?_⟩
    have hall := Finset.card_filter_eq_iff.1 (h.trans hcard.symm)
    exact hall c (List.mem_toFinset.2 hc)
  · rintro ⟨hnodup, hall⟩
    rw [Finset.filter_true_of_mem fun c hc => hall c (List.mem_toFinset.1 hc),
      List.toFinset_card_of_nodup hnodup]

theorem After.count_iff {pmp : Mount} {r : Freeing ε} (h : After pmp r)
    (hcount : pmp.pm_freeclustercount = BitVec.ofNat 32 pmp.freeClusters.card)
    (hlen : r.visited.length < 2 ^ 32) :
    r.pmp.pm_freeclustercount = BitVec.ofNat 32 r.pmp.freeClusters.card ↔
      r.visited.Nodup ∧ ∀ c ∈ r.visited, test pmp.pm_inusemap c = true := by
  rw [← card_filter_eq_length_iff, h.count, h.card, hcount, ← BitVec.ofNat_add]
  have hle := (Finset.card_filter_le r.visited.toFinset fun c => test pmp.pm_inusemap c = true).trans
    r.visited.toFinset_card_le
  generalize (r.visited.toFinset.filter fun c => test pmp.pm_inusemap c = true).card = k at hle ⊢
  rw [← BitVec.toNat_inj, BitVec.toNat_ofNat, BitVec.toNat_ofNat]
  omega

end Run

/-- `freeclusterchain` ends on every FAT and leaves what it has visited free in the FAT and the
map; the count is right afterwards exactly if the chain has no cluster twice and none that is
free already, as far as its blocks can be read. -/
theorem freeclusterchain_count {ε : Type} (dev : Device ε) (pmp : Mount) (cluster : BitVec 32)
    (hmax : pmp.pm_maxcluster < 2 ^ 32)
    (hcount : pmp.pm_freeclustercount = BitVec.ofNat 32 pmp.freeClusters.card) :
    ∃ r, (∀ n, pmp.pm_maxcluster + 2 ≤ n → freeclusterchain dev n pmp none 0 cluster = .ok (some r)) ∧
      (∀ c ∈ r.visited, fatEntry r.pmp.kind r.pmp.fat c = 0 ∧ test r.pmp.pm_inusemap c = false) ∧
      (r.pmp.pm_freeclustercount = BitVec.ofNat 32 r.pmp.freeClusters.card ↔
        ∃ l, Trail dev pmp none 0 cluster l ∧ l.Nodup ∧ ∀ c ∈ l, test pmp.pm_inusemap c = true) := by
  have hlive := card_live_le pmp
  obtain ⟨r, hlen, hr⟩ := @freeclusterchain_returns ε dev (pmp.pm_maxcluster + 2) pmp none 0 cluster
    (by omega)
  have hrun := hr _ le_rfl
  have hafter := freeclusterchain_after hrun
  refine ⟨r, hr, fun c hc => ⟨?_, ?_⟩, ?_⟩
  · rw [hafter.entry, if_pos hc]
  · rw [hafter.bits, decide_eq_false (not_not.2 hc), Bool.and_false]
  · rw [hafter.count_iff hcount (by omega)]
    constructor
    · rintro ⟨hnodup, hset⟩
      exact ⟨r.visited, freeclusterchain_trail hrun hnodup, hnodup, hset⟩
    · rintro ⟨l, htrail, hnodup, hset⟩
      rw [htrail.visited hnodup hrun]
      exact ⟨hnodup, hset⟩

/-- A FAT with the chain of the clusters 2 and 3 that comes back to 2. -/
def cycle : Mount where
  kind := .fat16
  pm_maxcluster := 3
  pm_inusemap _ := BitVec.allOnes 32
  pm_freeclustercount := 0
  fat := putEntry .fat16 true (putEntry .fat16 false (fun _ => 0) 4 3) 6 2

def alwaysReads : Device Unit := ⟨fun _ => 0, fun _ _ => none⟩

theorem freeclusterchain_count_cycle : ∃ r,
    (∀ n, 5 ≤ n → freeclusterchain alwaysReads n cycle none 0 2#32 = .ok (some r)) ∧
      ∀ c ∈ r.visited, fatEntry r.pmp.kind r.pmp.fat c = 0 ∧ test r.pmp.pm_inusemap c = false := by
  obtain ⟨r, hr, hfree, -⟩ := freeclusterchain_count alwaysReads cycle 2#32 (by decide) (by decide)
  exact ⟨r, hr, hfree⟩

/-- The count of the cycle goes up three times for its two clusters. -/
theorem freeclusterchain_cycle :
    cycle.pm_freeclustercount = BitVec.ofNat 32 cycle.freeClusters.card ∧
      (freeclusterchain alwaysReads 5 cycle none 0 2#32).toOption.join.map
        (fun r => (r.pmp.pm_freeclustercount, r.pmp.freeClusters.card)) = some (3#32, 2) := by
  decide +kernel

end OpenbsdKernel.Msdosfs.FreeChain
