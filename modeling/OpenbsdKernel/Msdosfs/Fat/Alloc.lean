import OpenbsdKernel.Msdosfs.Fat.Usemap
import OpenbsdKernel.Sys.Errno
import Mathlib.Data.BitVec

/-!
# Clusters that come and go

The other functions of `msdosfs/msdosfs_fat.c` that change the FAT, the map of clusters in use or
the count of free clusters. Reading and writing the FAT does not fail.
-/
namespace OpenbsdKernel.Msdosfs

open Bitmap

def MSDOSFSFREE : BitVec 32 := 0
def CLUST_RSRVD : BitVec 32 := 0xfffffff6
def CLUST_EOFE : BitVec 32 := 0xffffffff

/-- What a function returns: an error, or the first cluster and the number of clusters it has got. -/
abbrev Result := Except Errno (ℕ × ℕ)

/-- The first loop of `chainalloc`. -/
def usemapAllocs : ℕ → ℕ → Mount → Except Fault Mount
  | 0, _, pmp => .ok pmp
  | n + 1, cl, pmp => do
    let pmp ← usemapAlloc pmp cl
    usemapAllocs n (cl + 1) pmp

/-- The loop of `fatchain`. `start` is one ahead when the entry is written. -/
def fatchainLoop (kind : FatKind) (fillwith : BitVec 32) : ℕ → ℕ → ℕ → Fat → Fat
  | 0, _, _, m => m
  | count + 1, start, bo, m =>
    let start := start + 1
    let newc := if 0 < count then BitVec.ofNat 32 start else fillwith
    let m := putEntry kind (start % 2 = 0) m bo newc
    let bo := match kind with
      | .fat12 => if start % 2 = 1 then bo + 1 else bo + 2
      | .fat16 => bo + 2
      | .fat32 => bo + 4
    fatchainLoop kind fillwith count start bo m

def fatchain (pmp : Mount) (start count : ℕ) (fillwith : BitVec 32) : Except Errno Fat :=
  if start < CLUST_FIRST ∨ pmp.pm_maxcluster < start + count - 1 then .error .EINVAL
  else .ok (fatchainLoop pmp.kind fillwith count start (pmp.kind.FATOFS start) pmp.fat)

def chainalloc (pmp : Mount) (start count : ℕ) (fillwith : BitVec 32) : Except Fault (Mount × Result) := do
  let pmp ← usemapAllocs count start pmp
  match fatchain pmp start count fillwith with
  | .error e => .ok (pmp, .error e)
  | .ok m => .ok ({ pmp with fat := m }, .ok (start, count))

def newst (pmp : Mount) (start : ℕ) : ℕ :=
  (BitVec.ofNat 32 start * 1103515245#32 + 12345#32).toNat % (pmp.pm_maxcluster + 1)

/-- The two searches of `clusteralloc`, from `newst` to the end and from the beginning to `newst`. -/
def clusterSearch (pmp : Mount) (newst start len count : ℕ) (fillwith : BitVec 32) :
    Except Fault (Mount × Result) := do
  match ← searchLoop pmp count (pmp.pm_maxcluster + 1) (pmp.pm_maxcluster + 1) newst 0 0 with
  | .enough cn => chainalloc pmp cn count fillwith
  | .most foundcn foundl =>
    match ← searchLoop pmp count newst newst 0 foundcn foundl with
    | .enough cn => chainalloc pmp cn count fillwith
    | .most foundcn foundl =>
      if foundl = 0 then .ok (pmp, .error .ENOSPC)
      else if len ≠ 0 then chainalloc pmp start len fillwith
      else chainalloc pmp foundcn foundl fillwith

/-- `clusteralloc`; `tv_usec` is what `microtime` says. -/
def clusteralloc (pmp : Mount) (start count : ℕ) (fillwith tv_usec : BitVec 32) :
    Except Fault (Mount × Result) :=
  if start ≠ 0 then do
    let len ← chainlength pmp start count
    if count ≤ len then chainalloc pmp start count fillwith
    else clusterSearch pmp (newst pmp start) start len count fillwith
  else
    let start := (tv_usec >>> 10 ||| tv_usec).toNat
    clusterSearch pmp (newst pmp start) start 0 count fillwith

/-- `fatentry` with `FAT_SET`. -/
def fatentrySet (pmp : Mount) (cn : ℕ) (newcontents : BitVec 32) : Except Errno Mount :=
  if cn < CLUST_FIRST ∨ pmp.pm_maxcluster < cn then .error .EINVAL
  else .ok { pmp with fat := putEntry pmp.kind (cn % 2 = 1) pmp.fat (pmp.kind.FATOFS cn) newcontents }

/-- `fatentry` with `FAT_GET`: reserved entries are the same for all kinds of FAT. -/
def fatentryGet (pmp : Mount) (cn : ℕ) : Except Errno (BitVec 32) :=
  if cn < CLUST_FIRST ∨ pmp.pm_maxcluster < cn then .error .EINVAL
  else
    let readcn := fatEntry pmp.kind pmp.fat cn
    .ok (if CLUST_RSRVD ≤ readcn ||| ~~~pmp.kind.pm_fatmask then readcn ||| ~~~pmp.kind.pm_fatmask else readcn)

/-- `clusterfree`, which returns what the entry was. -/
def clusterfree (pmp : Mount) (cluster : ℕ) : Except Fault (Mount × Except Errno (BitVec 32)) := do
  let pmp ← usemapFree pmp cluster
  let oldcn := fatentryGet pmp cluster
  match fatentrySet pmp cluster MSDOSFSFREE with
  | .error e =>
    let pmp ← usemapAlloc pmp cluster
    .ok (pmp, .error e)
  | .ok pmp => .ok (pmp, oldcn)

/-- The next cluster of a chain as `freeclusterchain` takes it from the entry. -/
def nextCluster (kind : FatKind) (entry : BitVec 32) : BitVec 32 :=
  if CLUST_RSRVD ≤ entry ||| ~~~kind.pm_fatmask then entry ||| kind.pm_fatmask else entry

/-- `freeclusterchain`. A cluster is free after its round, so that there are no more rounds than
clusters. -/
def freeclusterchain : ℕ → Mount → ℕ → Except Fault Mount
  | 0, pmp, _ => .ok pmp
  | n + 1, pmp, cluster =>
    if CLUST_FIRST ≤ cluster ∧ cluster ≤ pmp.pm_maxcluster then do
      let pmp ← usemapFree pmp cluster
      let entry := fatEntry pmp.kind pmp.fat cluster
      let m := putEntry pmp.kind (cluster % 2 = 1) pmp.fat (pmp.kind.FATOFS cluster) MSDOSFSFREE
      freeclusterchain n { pmp with fat := m } (nextCluster pmp.kind entry).toNat
    else .ok pmp

/-- The second loop of `fillinusemap`, over `n` clusters from `cn` on. -/
def fillLoop : ℕ → ℕ → Mount → Except Fault Mount
  | 0, _, pmp => .ok pmp
  | n + 1, cn, pmp =>
    if fatEntry pmp.kind pmp.fat cn = 0 then do
      let pmp ← usemapFree pmp cn
      fillLoop n (cn + 1) pmp
    else fillLoop n (cn + 1) pmp

def fillinusemap (pmp : Mount) : Except Fault Mount :=
  fillLoop (pmp.pm_maxcluster + 1 - CLUST_FIRST) CLUST_FIRST { pmp with
    pm_inusemap := fun idx => if idx < pmp.words then BitVec.allOnes 32 else pmp.pm_inusemap idx
    pm_freeclustercount := 0 }

/-- The clusters whose bit in the map is clear. -/
def Mount.freeClusters (pmp : Mount) : Finset ℕ := (Finset.range (N_INUSEBITS * pmp.words)).filter pmp.Clear

/-- The map, the count and the FAT say the same. -/
structure Consistent (pmp : Mount) : Prop where
  inuse : ∀ c, CLUST_FIRST ≤ c → c ≤ pmp.pm_maxcluster →
    (test pmp.pm_inusemap c = true ↔ fatEntry pmp.kind pmp.fat c ≠ 0)
  others : ∀ c, c < N_INUSEBITS * pmp.words → c < CLUST_FIRST ∨ pmp.pm_maxcluster < c →
    test pmp.pm_inusemap c = true
  count : pmp.pm_freeclustercount = BitVec.ofNat 32 pmp.freeClusters.card

section Kept

variable {pmp : Mount}

theorem Consistent.free (h : Consistent pmp) {c : ℕ} (hc : pmp.Clear c) :
    (CLUST_FIRST ≤ c ∧ c ≤ pmp.pm_maxcluster) ∧ fatEntry pmp.kind pmp.fat c = 0 := by
  obtain ⟨hrange, hclear⟩ := hc
  have hin : CLUST_FIRST ≤ c ∧ c ≤ pmp.pm_maxcluster := by
    by_contra hnot
    have hset := h.others c hrange (by omega)
    rw [hclear] at hset
    cases hset
  refine ⟨hin, ?_⟩
  by_contra hne
  have hset := (h.inuse c hin.1 hin.2).2 hne
  rw [hclear] at hset
  cases hset

theorem lt_words {c : ℕ} (hc : c ≤ pmp.pm_maxcluster) : c < N_INUSEBITS * pmp.words := by
  rw [pmp.words_eq]
  simp only [N_INUSEBITS]
  omega

theorem usemapAlloc_ok {cn : ℕ} (hcn : cn < N_INUSEBITS * pmp.words) :
    usemapAlloc pmp cn = .ok { pmp with
      pm_inusemap := set pmp.pm_inusemap cn
      pm_freeclustercount := pmp.pm_freeclustercount - 1 } := by
  rw [usemapAlloc, word_ok (Nat.div_lt_of_lt_mul hcn)]
  rfl

theorem usemapFree_ok {cn : ℕ} (hcn : cn < N_INUSEBITS * pmp.words) :
    usemapFree pmp cn = .ok { pmp with
      pm_inusemap := clear pmp.pm_inusemap cn
      pm_freeclustercount := pmp.pm_freeclustercount + 1 } := by
  rw [usemapFree, word_ok (Nat.div_lt_of_lt_mul hcn)]
  rfl

theorem usemapAllocs_ok {n cl : ℕ} (hcl : ∀ i < n, cl + i < N_INUSEBITS * pmp.words) :
    ∃ a, usemapAllocs n cl pmp = .ok { pmp with
        pm_inusemap := a
        pm_freeclustercount := pmp.pm_freeclustercount - BitVec.ofNat 32 n } ∧
      ∀ c, test a c = (test pmp.pm_inusemap c || decide (cl ≤ c ∧ c < cl + n)) := by
  induction n generalizing cl pmp with
  | zero =>
    refine ⟨pmp.pm_inusemap, ?_, fun c => ?_⟩
    · rw [usemapAllocs]
      simp
    · rw [decide_eq_false (by omega), Bool.or_false]
  | succ n ih =>
    have hfirst : cl < N_INUSEBITS * pmp.words := hcl 0 (Nat.succ_pos n)
    rw [usemapAllocs, usemapAlloc_ok hfirst]
    simp only [bind, Except.bind]
    have hnext : ∀ i < n, cl + 1 + i < N_INUSEBITS * Mount.words { pmp with
        pm_inusemap := set pmp.pm_inusemap cl
        pm_freeclustercount := pmp.pm_freeclustercount - 1 } := by
      intro i hi
      have := hcl (i + 1) (by omega)
      rw [Nat.add_assoc, Nat.add_comm 1 i]
      exact this
    obtain ⟨a, ha, htest⟩ := ih hnext
    refine ⟨a, ?_, fun c => ?_⟩
    · rw [ha]
      simp only
      congr 2
      rw [Nat.add_comm, BitVec.ofNat_add]
      exact sub_sub pmp.pm_freeclustercount _ _
    · rw [htest, test_set (by decide), Bool.or_assoc, ← Bool.decide_or]
      congr 2
      rw [eq_iff_iff]
      omega

theorem fatchainLoop_succ (kind : FatKind) (fillwith : BitVec 32) (count start : ℕ) (m : Fat) :
    fatchainLoop kind fillwith (count + 1) start (kind.FATOFS start) m =
      fatchainLoop kind fillwith count (start + 1) (kind.FATOFS (start + 1))
        (putEntry kind (start % 2 = 1) m (kind.FATOFS start)
          (if 0 < count then BitVec.ofNat 32 (start + 1) else fillwith)) := by
  have hodd : decide ((start + 1) % 2 = 0) = decide (start % 2 = 1) := by
    rw [decide_eq_decide]
    omega
  have hbo : (match kind with
      | .fat12 => if (start + 1) % 2 = 1 then kind.FATOFS start + 1 else kind.FATOFS start + 2
      | .fat16 => kind.FATOFS start + 2
      | .fat32 => kind.FATOFS start + 4) = kind.FATOFS (start + 1) := by
    cases kind with
    | fat12 =>
      simp only [FatKind.FATOFS, FatKind.pm_fatmult, FatKind.pm_fatdiv]
      split <;> omega
    | fat16 =>
      simp only [FatKind.FATOFS, FatKind.pm_fatmult, FatKind.pm_fatdiv]
      omega
    | fat32 =>
      simp only [FatKind.FATOFS, FatKind.pm_fatmult, FatKind.pm_fatdiv]
      omega
  rw [← hbo, ← hodd]
  cases kind <;> rfl

theorem fatEntry_fatchainLoop (kind : FatKind) (fillwith : BitVec 32) (count start : ℕ) (m : Fat) (c : ℕ) :
    fatEntry kind (fatchainLoop kind fillwith count start (kind.FATOFS start) m) c =
      if start ≤ c ∧ c < start + count then
        (if c + 1 < start + count then BitVec.ofNat 32 (c + 1) else fillwith) &&& kind.pm_fatmask
      else fatEntry kind m c := by
  induction count generalizing start m with
  | zero => rw [fatchainLoop, if_neg (by omega)]
  | succ count ih =>
    rw [fatchainLoop_succ, ih, fatEntry_putEntry]
    by_cases hc : c = start
    · subst hc
      have hin : c ≤ c ∧ c < c + (count + 1) := ⟨le_rfl, by omega⟩
      rw [if_neg (fun h => by omega), if_pos rfl, if_pos hin]
      by_cases hlast : 0 < count
      · rw [if_pos hlast, if_pos (by omega)]
      · rw [if_neg hlast, if_neg (by omega)]
    · rw [if_neg hc]
      by_cases hin : start + 1 ≤ c ∧ c < start + 1 + count
      · have hin' : start ≤ c ∧ c < start + (count + 1) := by omega
        rw [if_pos hin, if_pos hin']
        by_cases hlast : c + 1 < start + 1 + count
        · rw [if_pos hlast, if_pos (by omega)]
        · rw [if_neg hlast, if_neg (by omega)]
      · rw [if_neg hin, if_neg (by omega)]

theorem card_freeClusters_alloc {pmp' : Mount} {start n : ℕ} (hwords : pmp'.words = pmp.words)
    (htest : ∀ c, test pmp'.pm_inusemap c = (test pmp.pm_inusemap c || decide (start ≤ c ∧ c < start + n)))
    (hclear : ∀ i < n, pmp.Clear (start + i)) : pmp'.freeClusters.card + n = pmp.freeClusters.card := by
  have hsplit : pmp.freeClusters = pmp'.freeClusters ∪ Finset.Ico start (start + n) := by
    ext c
    simp only [Mount.freeClusters, Finset.mem_union, Finset.mem_filter, Finset.mem_range, Finset.mem_Ico,
      Mount.Clear, hwords, htest, Bool.or_eq_false_iff, decide_eq_false_iff_not]
    constructor
    · rintro ⟨h1, -, h2⟩
      by_cases hin : start ≤ c ∧ c < start + n
      · exact .inr hin
      · exact .inl ⟨h1, h1, h2, hin⟩
    · rintro (⟨h1, -, h2, -⟩ | hin)
      · exact ⟨h1, h1, h2⟩
      · obtain ⟨h1, h2⟩ := hclear (c - start) (by omega)
        rw [show start + (c - start) = c by omega] at h1 h2
        exact ⟨h1, h1, h2⟩
  have hdisj : Disjoint pmp'.freeClusters (Finset.Ico start (start + n)) := by
    rw [Finset.disjoint_left]
    intro c hc hin
    have hset := (Finset.mem_filter.1 hc).2.2
    rw [htest, decide_eq_true (Finset.mem_Ico.1 hin), Bool.or_true] at hset
    cases hset
  rw [hsplit, Finset.card_union_of_disjoint hdisj, Nat.card_Ico]
  omega

/-- The numbers of clusters are below those that are reserved. -/
def Mount.Sound (pmp : Mount) : Prop := pmp.pm_maxcluster < (CLUST_RSRVD &&& pmp.kind.pm_fatmask).toNat

instance (pmp : Mount) : Decidable pmp.Sound := inferInstanceAs (Decidable (_ < _))

theorem Mount.Sound.lt_mask (h : pmp.Sound) : pmp.pm_maxcluster < 2 ^ pmp.kind.bits ∧
    pmp.pm_maxcluster < 2 ^ 32 - 1 := by
  rw [Mount.Sound] at h
  cases hk : pmp.kind with
  | fat12 =>
    have hval : (CLUST_RSRVD &&& FatKind.pm_fatmask .fat12).toNat = 0xff6 := by decide
    rw [hk, hval] at h
    simp only [FatKind.bits]
    omega
  | fat16 =>
    have hval : (CLUST_RSRVD &&& FatKind.pm_fatmask .fat16).toNat = 0xfff6 := by decide
    rw [hk, hval] at h
    simp only [FatKind.bits]
    omega
  | fat32 =>
    have hval : (CLUST_RSRVD &&& FatKind.pm_fatmask .fat32).toNat = 0x0ffffff6 := by decide
    rw [hk, hval] at h
    simp only [FatKind.bits]
    omega

theorem toNat_and_fatmask (kind : FatKind) (v : BitVec 32) :
    (v &&& kind.pm_fatmask).toNat = v.toNat % 2 ^ kind.bits := by
  have hmask : kind.pm_fatmask.toNat = 2 ^ kind.bits - 1 := by cases kind <;> rfl
  rw [BitVec.toNat_and, hmask, Nat.and_two_pow_sub_one_eq_mod]

theorem Mount.Sound.toNat_entry (h : pmp.Sound) {c : ℕ} (hc : c ≤ pmp.pm_maxcluster) :
    (BitVec.ofNat 32 c &&& pmp.kind.pm_fatmask).toNat = c := by
  obtain ⟨h1, h2⟩ := h.lt_mask
  rw [toNat_and_fatmask, BitVec.toNat_ofNat, Nat.mod_eq_of_lt (by omega : c < 2 ^ 32), Nat.mod_eq_of_lt (by omega)]

def FatKind.Ends (kind : FatKind) (fillwith : BitVec 32) : Prop := fillwith &&& kind.pm_fatmask ≠ 0

instance (kind : FatKind) (fillwith : BitVec 32) : Decidable (kind.Ends fillwith) :=
  inferInstanceAs (Decidable (_ ≠ _))

/-- The clusters that `chainalloc` takes. -/
structure Taken (pmp pmp' : Mount) (start count : ℕ) (fillwith : BitVec 32) : Prop where
  kind : pmp'.kind = pmp.kind
  maxcluster : pmp'.pm_maxcluster = pmp.pm_maxcluster
  consistent : Consistent pmp'
  clear : ∀ i < count, pmp.Clear (start + i)
  entry : ∀ c, fatEntry pmp'.kind pmp'.fat c = if start ≤ c ∧ c < start + count then
      (if c + 1 < start + count then BitVec.ofNat 32 (c + 1) else fillwith) &&& pmp.kind.pm_fatmask
    else fatEntry pmp.kind pmp.fat c

theorem Consistent.chainalloc (h : Consistent pmp) (hsound : pmp.Sound) {start count : ℕ} {fillwith : BitVec 32}
    (hfill : pmp.kind.Ends fillwith) (hclear : ∀ i < count, pmp.Clear (start + i))
    (hstart : count = 0 → CLUST_FIRST ≤ start ∧ start ≤ pmp.pm_maxcluster + 1) :
    ∃ pmp', chainalloc pmp start count fillwith = .ok (pmp', .ok (start, count)) ∧
      Taken pmp pmp' start count fillwith := by
  obtain ⟨a, halloc, htest⟩ := @usemapAllocs_ok pmp _ _ fun i hi => (hclear i hi).1
  have hguard : ¬(start < CLUST_FIRST ∨ pmp.pm_maxcluster < start + count - 1) := by
    by_cases hzero : count = 0
    · have := hstart hzero
      simp only [CLUST_FIRST] at *
      omega
    · have h1 := (h.free (hclear 0 (by omega))).1
      have h2 := (h.free (hclear (count - 1) (by omega))).1
      omega
  set m := fatchainLoop pmp.kind fillwith count start (pmp.kind.FATOFS start) pmp.fat
  set pmp' : Mount := { pmp with
    pm_inusemap := a
    pm_freeclustercount := pmp.pm_freeclustercount - BitVec.ofNat 32 count
    fat := m } with hpmp'
  have hentry : ∀ c, fatEntry pmp.kind m c = if start ≤ c ∧ c < start + count then
      (if c + 1 < start + count then BitVec.ofNat 32 (c + 1) else fillwith) &&& pmp.kind.pm_fatmask
      else fatEntry pmp.kind pmp.fat c := fatEntry_fatchainLoop _ _ _ _ _
  refine ⟨pmp', ?_, rfl, rfl, ⟨?_, ?_, ?_⟩, hclear, hentry⟩
  · rw [Msdosfs.chainalloc, halloc]
    simp only [bind, Except.bind, fatchain]
    rw [if_neg hguard]
  · intro c hlo hhi
    change test a c = true ↔ fatEntry pmp.kind m c ≠ 0
    rw [htest, hentry]
    by_cases hin : start ≤ c ∧ c < start + count
    · rw [if_pos hin, decide_eq_true hin, Bool.or_true]
      refine iff_of_true rfl ?_
      split
      · next hlast =>
        have hmax := (h.free (hclear (c + 1 - start) (by omega))).1.2
        intro hzero
        have hval := hsound.toNat_entry (c := c + 1) (by omega)
        rw [hzero] at hval
        cases hval
      · exact hfill
    · rw [if_neg hin, decide_eq_false hin, Bool.or_false]
      exact h.inuse c hlo hhi
  · intro c hc hout
    change test a c = true
    rw [htest, h.others c hc hout, Bool.true_or]
  · have hcard := @card_freeClusters_alloc pmp pmp' start count rfl htest hclear
    change pmp.pm_freeclustercount - BitVec.ofNat 32 count = _
    rw [h.count, ← hcard, BitVec.ofNat_add]
    exact add_sub_cancel_right _ _

end Kept

end OpenbsdKernel.Msdosfs
