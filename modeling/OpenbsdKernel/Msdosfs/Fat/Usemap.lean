import OpenbsdKernel.Msdosfs.Fat.Entry

/-!
# The map of clusters in use

`usemap_alloc`, `usemap_free`, `chainlength` and the search of `clusteralloc` in
`msdosfs/msdosfs_fat.c`. To look at a word behind the map is a fault.
-/
namespace OpenbsdKernel.Msdosfs

open Bitmap

def CLUST_FIRST : ℕ := 2
def N_INUSEBITS : ℕ := 32

/-- The fields of `struct msdosfsmount` that are about clusters, and the FAT. -/
structure Mount where
  kind : FatKind
  pm_maxcluster : ℕ
  pm_inusemap : ℕ → BitVec 32
  pm_freeclustercount : BitVec 32
  fat : Fat

/-- A word behind the map. -/
structure Fault where
  idx : ℕ
  deriving DecidableEq, Repr

namespace Mount

/-- `howmany(pm_maxcluster + 1, N_INUSEBITS)` -/
def words (pmp : Mount) : ℕ := (pmp.pm_maxcluster + 1 + (N_INUSEBITS - 1)) / N_INUSEBITS

def word (pmp : Mount) (idx : ℕ) : Except Fault (BitVec 32) :=
  if idx < pmp.words then .ok (pmp.pm_inusemap idx) else .error ⟨idx⟩

end Mount

def usemapAlloc (pmp : Mount) (cn : ℕ) : Except Fault Mount := do
  let _ ← pmp.word (cn / N_INUSEBITS)
  .ok { pmp with
    pm_inusemap := set pmp.pm_inusemap cn
    pm_freeclustercount := pmp.pm_freeclustercount - 1 }

def usemapFree (pmp : Mount) (cn : ℕ) : Except Fault Mount := do
  let _ ← pmp.word (cn / N_INUSEBITS)
  .ok { pmp with
    pm_inusemap := clear pmp.pm_inusemap cn
    pm_freeclustercount := pmp.pm_freeclustercount + 1 }

/-- The loop of `chainlength` over the `n` words that are left. -/
def lengthLoop (pmp : Mount) (count : ℕ) : ℕ → ℕ → ℕ → Except Fault ℕ
  | 0, _, len => .ok len
  | n + 1, idx, len =>
    if count ≤ len then .ok len
    else do
      let map ← pmp.word idx
      if map ≠ 0 then .ok (len + ffs map - 1)
      else lengthLoop pmp count n (idx + 1) (len + N_INUSEBITS)

def chainlength (pmp : Mount) (start count : ℕ) : Except Fault ℕ := do
  let max_idx := pmp.pm_maxcluster / N_INUSEBITS
  let idx := start / N_INUSEBITS
  let start := start % N_INUSEBITS
  let map ← pmp.word idx
  let map := map &&& ~~~(1#32 <<< start - 1#32)
  if map ≠ 0 then
    let len := ffs map - 1 - start
    .ok (if count < len then count else len)
  else
    let len := N_INUSEBITS - start
    if count ≤ len then .ok count
    else do
      let len ← lengthLoop pmp count (max_idx - idx) (idx + 1) len
      .ok (if count < len then count else len)

/-- What the search of `clusteralloc` has come to: a run of enough clusters, or the longest run. -/
inductive Found
  | enough (cn : ℕ)
  | most (foundcn foundl : ℕ)
  deriving DecidableEq, Repr

/-- A loop of `clusteralloc`, from the cluster `cn` as long as it is below `bound`. Every round goes
on by a cluster at least. -/
def searchLoop (pmp : Mount) (count bound : ℕ) : ℕ → ℕ → ℕ → ℕ → Except Fault Found
  | 0, _, foundcn, foundl => .ok (.most foundcn foundl)
  | n + 1, cn, foundcn, foundl =>
    if bound ≤ cn then .ok (.most foundcn foundl)
    else do
      let idx := cn / N_INUSEBITS
      let map ← pmp.word idx
      let map := map ||| (1#32 <<< (cn % N_INUSEBITS) - 1#32)
      if map ≠ BitVec.allOnes 32 then
        let cn := idx * N_INUSEBITS + ffs (map ^^^ BitVec.allOnes 32) - 1
        let l ← chainlength pmp cn count
        if count ≤ l then .ok (.enough cn)
        else if foundl < l then searchLoop pmp count bound n (cn + l + 1) cn l
        else searchLoop pmp count bound n (cn + l + 1) foundcn foundl
      else searchLoop pmp count bound n (cn + (N_INUSEBITS - cn % N_INUSEBITS)) foundcn foundl

/-- The bit of the cluster is in the map, and clear. -/
def Mount.Clear (pmp : Mount) (c : ℕ) : Prop := c < N_INUSEBITS * pmp.words ∧ test pmp.pm_inusemap c = false

instance (pmp : Mount) (c : ℕ) : Decidable (pmp.Clear c) := inferInstanceAs (Decidable (_ ∧ _))

theorem Mount.words_eq (pmp : Mount) : pmp.words = pmp.pm_maxcluster / N_INUSEBITS + 1 := by
  simp only [words, N_INUSEBITS]
  omega

/-- `len` clusters from `start` on are free, and no more than `count`. -/
structure FreeRun (pmp : Mount) (start count len : ℕ) : Prop where
  le : len ≤ count
  clear : ∀ i < len, pmp.Clear (start + i)

section Length

variable {pmp : Mount} {start count : ℕ}

theorem word_ok {idx : ℕ} (h : idx < pmp.words) : pmp.word idx = .ok (pmp.pm_inusemap idx) := if_pos h

theorem test_word (a : ℕ → BitVec 32) (c : ℕ) : test a c = (a (c / N_INUSEBITS)).getLsbD (c % N_INUSEBITS) := rfl

theorem clear_of_word_eq_zero {idx i : ℕ} (hidx : idx < pmp.words) (h : pmp.pm_inusemap idx = 0#32)
    (hi : i < N_INUSEBITS) : pmp.Clear (N_INUSEBITS * idx + i) := by
  simp only [N_INUSEBITS] at hi
  refine ⟨?_, ?_⟩
  · simp only [N_INUSEBITS]
    omega
  · rw [test_word]
    simp only [N_INUSEBITS]
    rw [show (32 * idx + i) / 32 = idx by omega, h]
    simp

theorem clear_of_getLsbD {idx i : ℕ} (hidx : idx < pmp.words) (hi : i < N_INUSEBITS)
    (h : (pmp.pm_inusemap idx).getLsbD i = false) : pmp.Clear (N_INUSEBITS * idx + i) := by
  simp only [N_INUSEBITS] at hi
  refine ⟨?_, ?_⟩
  · simp only [N_INUSEBITS]
    omega
  · rw [test_word]
    simp only [N_INUSEBITS]
    rw [show (32 * idx + i) / 32 = idx by omega, show (32 * idx + i) % 32 = i by omega, h]

theorem lengthLoop_spec (n idx len : ℕ) (hn : idx + n = pmp.words) (hlen : start + len = N_INUSEBITS * idx)
    (hclear : ∀ i < len, pmp.Clear (start + i)) :
    ∃ r, lengthLoop pmp count n idx len = .ok r ∧ ∀ i < r, pmp.Clear (start + i) := by
  induction n generalizing idx len with
  | zero => exact ⟨len, rfl, hclear⟩
  | succ n ih =>
    have hidx : idx < pmp.words := by omega
    rw [lengthLoop]
    split
    · exact ⟨len, rfl, hclear⟩
    · rw [word_ok hidx]
      by_cases hmap : pmp.pm_inusemap idx ≠ 0
      · obtain ⟨j, hj, hffs, -, hlow⟩ := ffs_spec hmap
        refine ⟨_, if_pos hmap, fun i hi => ?_⟩
        rw [hffs] at hi
        by_cases hlt : i < len
        · exact hclear i hlt
        · have hpos : start + i = N_INUSEBITS * idx + (i - len) := by omega
          rw [hpos]
          exact clear_of_getLsbD hidx (by simp only [N_INUSEBITS]; omega) (hlow _ (by omega))
      · have hzero : pmp.pm_inusemap idx = 0#32 := not_not.1 hmap
        have hnext : ∀ i < len + N_INUSEBITS, pmp.Clear (start + i) := by
          intro i hi
          by_cases hlt : i < len
          · exact hclear i hlt
          · have hpos : start + i = N_INUSEBITS * idx + (i - len) := by omega
            rw [hpos]
            exact clear_of_word_eq_zero hidx hzero (by omega)
        obtain ⟨r, hr, hrun⟩ := ih (idx + 1) (len + N_INUSEBITS) (by omega) (by rw [Nat.mul_succ]; omega) hnext
        exact ⟨r, (if_neg hmap).trans hr, hrun⟩

theorem chainlength_spec (hstart : start / N_INUSEBITS < pmp.words) :
    ∃ r, chainlength pmp start count = .ok r ∧ FreeRun pmp start count r := by
  set idx := start / N_INUSEBITS with hidx
  set s := start % N_INUSEBITS with hs
  have hs32 : s < 32 := Nat.mod_lt _ (by decide)
  have hpos : start = N_INUSEBITS * idx + s := (Nat.div_add_mod start N_INUSEBITS).symm
  have hmin (len : ℕ) (h : ∀ i < len, pmp.Clear (start + i)) :
      FreeRun pmp start count (if count < len then count else len) := by
    split
    · exact ⟨le_rfl, fun i hi => h i (by omega)⟩
    · exact ⟨by omega, h⟩
  have hmask (i : ℕ) (hi : i < 32) :
      (pmp.pm_inusemap idx &&& ~~~(1#32 <<< s - 1#32)).getLsbD i =
        ((pmp.pm_inusemap idx).getLsbD i && decide (s ≤ i)) := by
    rw [BitVec.getLsbD_and, BitVec.getLsbD_not, getLsbD_below hs32, decide_eq_true hi, Bool.true_and,
      ← decide_not]
    simp only [not_lt]
  simp only [chainlength, ← hidx, ← hs, word_ok hstart]
  by_cases hmap : pmp.pm_inusemap idx &&& ~~~(1#32 <<< s - 1#32) ≠ 0
  · obtain ⟨j, hj, hffs, hset, hlow⟩ := ffs_spec hmap
    refine ⟨_, if_pos hmap, hmin _ fun i hi => ?_⟩
    rw [hffs] at hi
    have hbit := hlow (s + i) (by omega)
    rw [hmask _ (by omega), decide_eq_true (by omega), Bool.and_true] at hbit
    rw [hpos, Nat.add_assoc]
    exact clear_of_getLsbD hstart (by simp only [N_INUSEBITS]; omega) hbit
  · have hzero : pmp.pm_inusemap idx &&& ~~~(1#32 <<< s - 1#32) = 0#32 := not_not.1 hmap
    have hclear : ∀ i < N_INUSEBITS - s, pmp.Clear (start + i) := by
      intro i hi
      simp only [N_INUSEBITS] at hi
      have hbit := hmask (s + i) (by omega)
      rw [hzero, decide_eq_true (by omega), Bool.and_true] at hbit
      rw [hpos, Nat.add_assoc]
      exact clear_of_getLsbD hstart (by simp only [N_INUSEBITS]; omega) (by rw [← hbit]; simp)
    by_cases hcount : count ≤ N_INUSEBITS - s
    · refine ⟨count, (if_neg hmap).trans (if_pos hcount), le_rfl, fun i hi => hclear i (by omega)⟩
    · have hwords := pmp.words_eq
      obtain ⟨r, hr, hrun⟩ := @lengthLoop_spec pmp start count (pmp.pm_maxcluster / N_INUSEBITS - idx) (idx + 1)
        (N_INUSEBITS - s) (by omega) (by rw [Nat.mul_succ]; simp only [N_INUSEBITS] at *; omega) hclear
      refine ⟨_, (if_neg hmap).trans ((if_neg hcount).trans ?_), hmin r hrun⟩
      rw [hr]
      rfl

theorem chainlength_fault (hstart : pmp.words ≤ start / N_INUSEBITS) :
    chainlength pmp start count = .error ⟨start / N_INUSEBITS⟩ := by
  have hword : pmp.word (start / N_INUSEBITS) = .error ⟨start / N_INUSEBITS⟩ := if_neg (by omega)
  rw [chainlength, hword]
  rfl

def Found.Free (pmp : Mount) (count : ℕ) : Found → Prop
  | .enough cn => pmp.Clear cn ∧ ∀ i < count, pmp.Clear (cn + i)
  | .most foundcn foundl => ∀ i < foundl, pmp.Clear (foundcn + i)

theorem searchLoop_spec {bound : ℕ} (hbound : bound ≤ pmp.pm_maxcluster + 1) (n cn foundcn foundl : ℕ)
    (hfound : ∀ i < foundl, pmp.Clear (foundcn + i)) :
    ∃ r, searchLoop pmp count bound n cn foundcn foundl = .ok r ∧ r.Free pmp count := by
  induction n generalizing cn foundcn foundl with
  | zero => exact ⟨_, rfl, hfound⟩
  | succ n ih =>
    rw [searchLoop]
    by_cases hend : bound ≤ cn
    · exact ⟨_, if_pos hend, hfound⟩
    · rw [if_neg hend]
      have hidx : cn / N_INUSEBITS < pmp.words := by
        rw [pmp.words_eq]
        exact Nat.lt_succ_of_le (Nat.div_le_div_right (by omega))
      simp only [word_ok hidx, bind, Except.bind]
      set idx := cn / N_INUSEBITS
      set map := pmp.pm_inusemap idx ||| (1#32 <<< (cn % N_INUSEBITS) - 1#32)
      by_cases hmap : map ≠ BitVec.allOnes 32
      · have hne : map ^^^ BitVec.allOnes 32 ≠ 0#32 := fun h => hmap (BitVec.xor_eq_zero_iff.1 h)
        obtain ⟨j, hj, hffs, hset, -⟩ := ffs_spec hne
        have hfirst : pmp.Clear (idx * N_INUSEBITS + ffs (map ^^^ BitVec.allOnes 32) - 1) := by
          rw [BitVec.getLsbD_xor, BitVec.getLsbD_or, BitVec.getLsbD_allOnes, decide_eq_true hj, Bool.xor_true,
            Bool.not_eq_true', Bool.or_eq_false_iff] at hset
          rw [hffs, Nat.mul_comm]
          exact clear_of_getLsbD hidx hj hset.1
        have hword : (idx * N_INUSEBITS + ffs (map ^^^ BitVec.allOnes 32) - 1) / N_INUSEBITS < pmp.words := by
          rw [hffs]
          simp only [N_INUSEBITS]
          omega
        obtain ⟨l, hl, hrun⟩ := @chainlength_spec pmp _ count hword
        rw [if_pos hmap]
        simp only [hl]
        by_cases henough : count ≤ l
        · exact ⟨_, if_pos henough, hfirst, fun i hi => hrun.clear i (by omega)⟩
        · rw [if_neg henough]
          split
          · exact ih _ _ _ hrun.clear
          · exact ih _ _ _ hfound
      · obtain ⟨r, hr, hfree⟩ := ih (cn + (N_INUSEBITS - cn % N_INUSEBITS)) foundcn foundl hfound
        exact ⟨r, (if_neg hmap).trans hr, hfree⟩

end Length

end OpenbsdKernel.Msdosfs
