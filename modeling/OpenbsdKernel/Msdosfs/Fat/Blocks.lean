import OpenbsdKernel.Lib.Overwrite
import OpenbsdKernel.Msdosfs.Fat.Alloc

/-!
# A FAT in blocks of the disk

`fatblock`, `updatefats`, `fatentry` and `fatchain` of `msdosfs/msdosfs_fat.c`, as they read blocks
of the FAT into buffers, change them there and write all copies. Reading and writing blocks does
not fail; to look behind the end of a buffer is `none`.
-/
namespace OpenbsdKernel.Msdosfs.Blocks

def DEV_BSIZE : ℕ := 512

/-- The offset of `fsinfree` in `struct fsinfo`. -/
def fsinfree : ℕ := 488

/-- The bytes of the device. -/
abbrev Disk := ℕ → BitVec 8

def entryBytes : FatKind → ℕ
  | .fat32 => 4
  | _ => 2

/-- The fields of `struct msdosfsmount` about the FAT, with what `msdosfs_mountfs` provides for: no
entry lies in two blocks, and the clusters have entries. `mirror` is `MSDOSFS_FATMIRROR`. The FSInfo
block comes before the FAT. -/
structure FatMount where
  kind : FatKind
  pm_maxcluster : ℕ
  pm_FATs : ℕ
  pm_FATsecs : ℕ
  pm_fatblk : ℕ
  pm_curfat : ℕ
  pm_fatblocksec : ℕ
  pm_fsinfo : ℕ
  pm_freeclustercount : BitVec 32
  mirror : Bool
  fatblocksec_pos : 0 < pm_fatblocksec
  fatblocksec_dvd : kind.pm_fatmult ∣ pm_fatblocksec * DEV_BSIZE
  maxcluster_lt : pm_maxcluster < pm_FATsecs * DEV_BSIZE / kind.pm_fatmult * kind.pm_fatdiv
  curfat_of_mirror : mirror = true → pm_curfat = 0
  fsinfo_lt : pm_fsinfo ≠ 0 → pm_fsinfo * DEV_BSIZE + (fsinfree + 4) ≤ pm_fatblk * DEV_BSIZE

def FatMount.pm_fatblocksize (pmp : FatMount) : ℕ := pmp.pm_fatblocksec * DEV_BSIZE

/-- What `fatblock` computes. -/
structure FatBlock where
  bn : ℕ
  size : ℕ
  bo : ℕ
  deriving DecidableEq, Repr

def fatblock (pmp : FatMount) (ofs : ℕ) : FatBlock :=
  let bn := ofs / pmp.pm_fatblocksize * pmp.pm_fatblocksec
  { bn := bn + (pmp.pm_fatblk + pmp.pm_curfat * pmp.pm_FATsecs)
    size := min pmp.pm_fatblocksec (pmp.pm_FATsecs - bn) * DEV_BSIZE
    bo := ofs % pmp.pm_fatblocksize }

/-- The data of a buffer; there is nothing behind its end. -/
structure Buf where
  b_data : ℕ → BitVec 8
  b_bcount : ℕ

def bread (disk : Disk) (bn size : ℕ) : Buf := ⟨fun i => if i < size then disk (bn * DEV_BSIZE + i) else 0, size⟩

def bwrite (bp : Buf) (bn : ℕ) (disk : Disk) : Disk := writeCells (bn * DEV_BSIZE) bp.b_bcount bp.b_data disk

/-- The loop of `updatefats` over the other copies of the FAT. -/
def mirrorLoop (pmp : FatMount) (bp : Buf) : ℕ → ℕ → Disk → Disk
  | 0, _, disk => disk
  | n + 1, fatbn, disk =>
    let fatbn := fatbn + pmp.pm_FATsecs
    mirrorLoop pmp bp n fatbn (bwrite bp fatbn disk)

def updatefsinfo (pmp : FatMount) (disk : Disk) : Disk :=
  if pmp.pm_fsinfo ≠ 0 then
    writeCells (pmp.pm_fsinfo * DEV_BSIZE + fsinfree) 4 (putulong (fun _ => 0) 0 pmp.pm_freeclustercount) disk
  else disk

def updatefats (pmp : FatMount) (bp : Buf) (fatbn : ℕ) (disk : Disk) : Disk :=
  let disk := updatefsinfo pmp disk
  let disk := if pmp.mirror then mirrorLoop pmp bp (pmp.pm_FATs - 1) fatbn disk else disk
  bwrite bp fatbn disk

/-- The entry at an offset; `odd` is whether the number of its cluster is. -/
def entryAt (kind : FatKind) (odd : Bool) (m : Fat) (bo : ℕ) : BitVec 32 :=
  let readcn := if kind = .fat32 then getulong m bo else getushort m bo
  let readcn := if kind = .fat12 ∧ odd = true then readcn >>> 4 else readcn
  readcn &&& kind.pm_fatmask

/-- Reserved entries are the same for all kinds of FAT. -/
def mapReserved (kind : FatKind) (readcn : BitVec 32) : BitVec 32 :=
  if CLUST_RSRVD ≤ readcn ||| ~~~kind.pm_fatmask then readcn ||| ~~~kind.pm_fatmask else readcn

/-- `fatentry` with `FAT_GET`, with `FAT_SET` or with both. -/
def fatentry (get set : Bool) (pmp : FatMount) (disk : Disk) (cn : ℕ) (newcontents : BitVec 32) :
    Option (Except Errno (Option (BitVec 32) × Disk)) :=
  if cn < CLUST_FIRST ∨ pmp.pm_maxcluster < cn then some (.error .EINVAL)
  else
    let b := fatblock pmp (pmp.kind.FATOFS cn)
    let bp := bread disk b.bn b.size
    if b.size < b.bo + entryBytes pmp.kind then none
    else
      let readcn := mapReserved pmp.kind (entryAt pmp.kind (cn % 2 = 1) bp.b_data b.bo)
      let written : Buf := { bp with b_data := putEntry pmp.kind (cn % 2 = 1) bp.b_data b.bo newcontents }
      some (.ok (if get then some readcn else none, if set then updatefats pmp written b.bn disk else disk))

/-- `bo` after the entry of the cluster before `start`. -/
def nextOffset (kind : FatKind) (start bo : ℕ) : ℕ :=
  match kind with
  | .fat12 => if start % 2 = 1 then bo + 1 else bo + 2
  | .fat16 => bo + 2
  | .fat32 => bo + 4

/-- The inner loop of `fatchain`: the count and the start that are left, and the buffer. -/
def fillBlock (kind : FatKind) (fillwith : BitVec 32) : ℕ → ℕ → ℕ → Buf → Option (ℕ × ℕ × Buf)
  | 0, start, _, bp => some (0, start, bp)
  | count + 1, start, bo, bp =>
    if bp.b_bcount < bo + entryBytes kind then none
    else
      let start := start + 1
      let newc := if 0 < count then BitVec.ofNat 32 start else fillwith
      let bp := { bp with b_data := putEntry kind (start % 2 = 0) bp.b_data bo newc }
      let bo := nextOffset kind start bo
      if bp.b_bcount ≤ bo then some (count, start, bp) else fillBlock kind fillwith count start bo bp

/-- The outer loop of `fatchain`, which takes no more rounds than there are clusters. -/
def chainLoop (pmp : FatMount) (fillwith : BitVec 32) : ℕ → ℕ → ℕ → Disk → Option Disk
  | _, 0, _, disk => some disk
  | 0, _ + 1, _, _ => none
  | fuel + 1, count + 1, start, disk =>
    let b := fatblock pmp (pmp.kind.FATOFS start)
    (fillBlock pmp.kind fillwith (count + 1) start b.bo (bread disk b.bn b.size)).bind fun (count, start, bp) =>
      chainLoop pmp fillwith fuel count start (updatefats pmp bp b.bn disk)

def fatchain (pmp : FatMount) (disk : Disk) (start count : ℕ) (fillwith : BitVec 32) :
    Option (Except Errno Disk) :=
  if start < CLUST_FIRST ∨ pmp.pm_maxcluster < (start + count - 1) % 2 ^ 32 then some (.error .EINVAL)
  else (chainLoop pmp fillwith count count start disk).map .ok

/-- The single calls of `fatentry` that link `count` clusters from `start` on; one that fails leaves
the disk as it is. -/
def fatentries (pmp : FatMount) (fillwith : BitVec 32) : ℕ → ℕ → Disk → Option Disk
  | 0, _, disk => some disk
  | count + 1, start, disk =>
    let newc := if 0 < count then BitVec.ofNat 32 (start + 1) else fillwith
    (fatentry false true pmp disk start newc).bind fun
      | .ok (_, disk) => fatentries pmp fillwith count (start + 1) disk
      | .error _ => fatentries pmp fillwith count (start + 1) disk

/-- The bytes of the current FAT. -/
def FatMount.fat (pmp : FatMount) (disk : Disk) : Fat :=
  fun o => disk ((pmp.pm_fatblk + pmp.pm_curfat * pmp.pm_FATsecs) * DEV_BSIZE + o)

theorem fatEntry_eq (kind : FatKind) (m : Fat) (cn : ℕ) :
    fatEntry kind m cn = entryAt kind (cn % 2 = 1) m (kind.FATOFS cn) := by
  simp [fatEntry, entryAt]

section Entry

variable {kind : FatKind} {odd : Bool} {m m' : Fat} {bo bo' : ℕ} {v : BitVec 32}

theorem entryAt_congr (odd : Bool) (h : ∀ i < entryBytes kind, m (bo + i) = m' (bo' + i)) :
    entryAt kind odd m bo = entryAt kind odd m' bo' := by
  have hshort (h0 : m bo = m' bo') (h1 : m (bo + 1) = m' (bo' + 1)) : getushort m bo = getushort m' bo' := by
    rw [getushort, getushort, h0, h1]
  cases kind with
  | fat32 =>
    have hlong : getulong m bo = getulong m' bo' := by
      rw [getulong, getulong, show m bo = m' bo' from h 0 (by decide), h 1 (by decide), h 2 (by decide),
        h 3 (by decide)]
    simp [entryAt, hlong]
  | fat12 | fat16 => simp [entryAt, hshort (h 0 (by decide)) (h 1 (by decide))]

theorem putushort_apply (m : Fat) (o : ℕ) (v : BitVec 32) (a : ℕ) : putushort m o v a =
    if a = o + 1 then (v >>> 8).setWidth 8 else if a = o then v.setWidth 8 else m a := by
  simp only [putushort, Function.update_apply]

theorem putulong_apply (m : Fat) (o : ℕ) (v : BitVec 32) (a : ℕ) : putulong m o v a =
    if a = o + 3 then (v >>> 16 >>> 8).setWidth 8 else if a = o + 2 then (v >>> 16).setWidth 8
    else if a = o + 1 then (v >>> 8).setWidth 8 else if a = o then v.setWidth 8 else m a := by
  rw [putulong, putushort_apply, putushort_apply]

theorem putEntry_inside (odd : Bool) (v : BitVec 32) (h : ∀ i < entryBytes kind, m (bo + i) = m' (bo' + i)) :
    ∀ i < entryBytes kind, putEntry kind odd m bo v (bo + i) = putEntry kind odd m' bo' v (bo' + i) := by
  intro i hi
  cases kind with
  | fat12 =>
    have hget : getushort m bo = getushort m' bo' := by
      rw [getushort, getushort, show m bo = m' bo' from h 0 (by decide), h 1 (by decide)]
    simp only [putEntry, putushort_apply, hget, h i hi, Nat.add_right_inj, Nat.add_eq_left]
  | fat16 => simp only [putEntry, putushort_apply, h i hi, Nat.add_right_inj, Nat.add_eq_left]
  | fat32 =>
    have hget : getulong m bo = getulong m' bo' := by
      rw [getulong, getulong, show m bo = m' bo' from h 0 (by decide), h 1 (by decide), h 2 (by decide),
        h 3 (by decide)]
    simp only [putEntry, putulong_apply, hget, h i hi, Nat.add_right_inj, Nat.add_eq_left]

theorem putEntry_outside {o : ℕ} (ho : o < bo ∨ bo + entryBytes kind ≤ o) :
    putEntry kind odd m bo v o = m o := by
  cases kind with
  | fat12 | fat16 =>
    simp only [entryBytes] at ho
    rw [putEntry, putushort_apply, if_neg (by omega), if_neg (by omega)]
  | fat32 =>
    simp only [entryBytes] at ho
    rw [putEntry, putulong_apply, if_neg (by omega), if_neg (by omega), if_neg (by omega), if_neg (by omega)]

theorem nextOffset_eq (kind : FatKind) (start : ℕ) :
    nextOffset kind (start + 1) (kind.FATOFS start) = kind.FATOFS (start + 1) := by
  cases kind with
  | fat12 =>
    simp only [nextOffset, FatKind.FATOFS, FatKind.pm_fatmult, FatKind.pm_fatdiv]
    split <;> omega
  | fat16 =>
    simp only [nextOffset, FatKind.FATOFS, FatKind.pm_fatmult, FatKind.pm_fatdiv]
    omega
  | fat32 =>
    simp only [nextOffset, FatKind.FATOFS, FatKind.pm_fatmult, FatKind.pm_fatdiv]
    omega

theorem nextOffset_add (kind : FatKind) (start k bo : ℕ) :
    nextOffset kind start (k + bo) = k + nextOffset kind start bo := by
  cases kind with
  | fat12 =>
    simp only [nextOffset]
    split <;> omega
  | fat16 | fat32 => rfl

end Entry

section Place

variable (pmp : FatMount) {cn : ℕ}

/-- Where the current FAT begins, and its size. -/
def FatMount.base : ℕ := (pmp.pm_fatblk + pmp.pm_curfat * pmp.pm_FATsecs) * DEV_BSIZE

def FatMount.pm_fatsize : ℕ := pmp.pm_FATsecs * DEV_BSIZE

theorem FatMount.pm_fatblocksize_pos : 0 < pmp.pm_fatblocksize :=
  Nat.mul_pos pmp.fatblocksec_pos (by decide)

theorem FatMount.FATOFS_add_le (hcn : cn ≤ pmp.pm_maxcluster) :
    pmp.kind.FATOFS cn + entryBytes pmp.kind ≤ pmp.pm_fatsize := by
  have hmax := pmp.maxcluster_lt
  rw [← FatMount.pm_fatsize] at hmax
  cases hkind : pmp.kind with
  | fat12 =>
    simp only [hkind, FatKind.pm_fatmult, FatKind.pm_fatdiv] at hmax
    simp only [FatKind.FATOFS, FatKind.pm_fatmult, FatKind.pm_fatdiv, entryBytes]
    omega
  | fat16 =>
    simp only [hkind, FatKind.pm_fatmult, FatKind.pm_fatdiv] at hmax
    simp only [FatKind.FATOFS, FatKind.pm_fatmult, FatKind.pm_fatdiv, entryBytes]
    omega
  | fat32 =>
    simp only [hkind, FatKind.pm_fatmult, FatKind.pm_fatdiv] at hmax
    simp only [FatKind.FATOFS, FatKind.pm_fatmult, FatKind.pm_fatdiv, entryBytes]
    omega

theorem FatMount.FATOFS_mod_add_le (cn : ℕ) :
    pmp.kind.FATOFS cn % pmp.pm_fatblocksize + entryBytes pmp.kind ≤ pmp.pm_fatblocksize := by
  obtain ⟨k, hk⟩ := pmp.fatblocksec_dvd
  rw [← FatMount.pm_fatblocksize] at hk
  have hlt := Nat.mod_lt (pmp.kind.FATOFS cn) pmp.pm_fatblocksize_pos
  have hdvd : pmp.kind.pm_fatmult ∣ pmp.pm_fatblocksize := ⟨k, hk⟩
  have hmod := Nat.mod_mod_of_dvd (pmp.kind.FATOFS cn) hdvd
  cases hkind : pmp.kind with
  | fat12 =>
    simp only [hkind, FatKind.FATOFS, FatKind.pm_fatmult, FatKind.pm_fatdiv] at hk hlt hmod
    simp only [FatKind.FATOFS, FatKind.pm_fatmult, FatKind.pm_fatdiv, entryBytes]
    omega
  | fat16 =>
    simp only [hkind, FatKind.FATOFS, FatKind.pm_fatmult, FatKind.pm_fatdiv] at hk hlt hmod
    simp only [FatKind.FATOFS, FatKind.pm_fatmult, FatKind.pm_fatdiv, entryBytes]
    omega
  | fat32 =>
    simp only [hkind, FatKind.FATOFS, FatKind.pm_fatmult, FatKind.pm_fatdiv] at hk hlt hmod
    simp only [FatKind.FATOFS, FatKind.pm_fatmult, FatKind.pm_fatdiv, entryBytes]
    omega

/-- A block of the current FAT, with the offset of a cluster's entry in it. -/
structure InBlock (cn : ℕ) (b : FatBlock) : Prop where
  bound : b.bo + entryBytes pmp.kind ≤ b.size
  place : b.bn * DEV_BSIZE + b.bo = pmp.base + pmp.kind.FATOFS cn
  first : pmp.base ≤ b.bn * DEV_BSIZE
  last : b.bn * DEV_BSIZE + b.size ≤ pmp.base + pmp.pm_fatsize
  aligned : ∃ q, b.bn * DEV_BSIZE = pmp.base + q * pmp.pm_fatblocksize ∧
    b.size = min pmp.pm_fatblocksize (pmp.pm_fatsize - q * pmp.pm_fatblocksize)

theorem FatMount.inBlock (hcn : cn ≤ pmp.pm_maxcluster) :
    InBlock pmp cn (fatblock pmp (pmp.kind.FATOFS cn)) := by
  set ofs := pmp.kind.FATOFS cn with hofs
  set q := ofs / pmp.pm_fatblocksize with hq
  have hmod : q * pmp.pm_fatblocksize + ofs % pmp.pm_fatblocksize = ofs := by
    rw [Nat.mul_comm]
    exact Nat.div_add_mod ofs pmp.pm_fatblocksize
  have hsec : q * pmp.pm_fatblocksec * DEV_BSIZE = q * pmp.pm_fatblocksize := Nat.mul_assoc ..
  have hin := pmp.FATOFS_add_le hcn
  have hblock := pmp.FATOFS_mod_add_le cn
  rw [← hofs] at hin hblock
  have hbn : (fatblock pmp ofs).bn * DEV_BSIZE = pmp.base + q * pmp.pm_fatblocksize := by
    simp only [fatblock, ← hq]
    rw [Nat.add_mul, hsec, Nat.add_comm]
    rfl
  have hsize : (fatblock pmp ofs).size =
      min pmp.pm_fatblocksize (pmp.pm_fatsize - q * pmp.pm_fatblocksize) := by
    simp only [fatblock, ← hq]
    rw [← Nat.mul_min_mul_right, Nat.sub_mul, hsec]
    rfl
  have hbo : (fatblock pmp ofs).bo = ofs % pmp.pm_fatblocksize := rfl
  refine ⟨?_, ?_, ?_, ?_, q, hbn, hsize⟩
  · rw [hsize, hbo]
    omega
  · rw [hbn, hbo]
    omega
  · rw [hbn]
    omega
  · rw [hbn, hsize]
    omega

/-- The entry after one that does not end its block lies in the same block. -/
theorem FatMount.fatblock_next {start : ℕ}
    (hbo : nextOffset pmp.kind (start + 1) (fatblock pmp (pmp.kind.FATOFS start)).bo <
      (fatblock pmp (pmp.kind.FATOFS start)).size) :
    fatblock pmp (pmp.kind.FATOFS (start + 1)) =
      { fatblock pmp (pmp.kind.FATOFS start) with
        bo := nextOffset pmp.kind (start + 1) (fatblock pmp (pmp.kind.FATOFS start)).bo } := by
  have hnext := nextOffset_eq pmp.kind start
  set ofs := pmp.kind.FATOFS start
  have hmod : pmp.pm_fatblocksize * (ofs / pmp.pm_fatblocksize) + ofs % pmp.pm_fatblocksize = ofs :=
    Nat.div_add_mod ofs pmp.pm_fatblocksize
  have hdef : (fatblock pmp ofs).bo = ofs % pmp.pm_fatblocksize := rfl
  have hsize : (fatblock pmp ofs).size ≤ pmp.pm_fatblocksize := Nat.mul_le_mul_right _ (min_le_left _ _)
  rw [hdef] at hbo ⊢
  set bo := nextOffset pmp.kind (start + 1) (ofs % pmp.pm_fatblocksize)
  have hofs : pmp.kind.FATOFS (start + 1) = pmp.pm_fatblocksize * (ofs / pmp.pm_fatblocksize) + bo := by
    rw [← hnext, ← nextOffset_add, hmod]
  have hlt : bo < pmp.pm_fatblocksize := hbo.trans_le hsize
  have hdiv : pmp.kind.FATOFS (start + 1) / pmp.pm_fatblocksize = ofs / pmp.pm_fatblocksize := by
    rw [hofs, Nat.mul_add_div pmp.pm_fatblocksize_pos, Nat.div_eq_of_lt hlt, Nat.add_zero]
  have hrem : pmp.kind.FATOFS (start + 1) % pmp.pm_fatblocksize = bo := by
    rw [hofs, Nat.mul_add_mod, Nat.mod_eq_of_lt hlt]
  simp only [fatblock, hdiv, hrem]

end Place

section Update

variable (pmp : FatMount)

/-- The bytes of a block in the copies of the FAT after it. -/
def mirrored (size : ℕ) : ℕ → ℕ → Set ℕ
  | 0, _ => ∅
  | n + 1, fatbn => Set.Ico ((fatbn + pmp.pm_FATsecs) * DEV_BSIZE) ((fatbn + pmp.pm_FATsecs) * DEV_BSIZE + size) ∪
      mirrored size n (fatbn + pmp.pm_FATsecs)

/-- What `updatefats` writes. -/
def touched (size fatbn : ℕ) : Set ℕ :=
  (if pmp.pm_fsinfo ≠ 0 then Set.Ico (pmp.pm_fsinfo * DEV_BSIZE + fsinfree)
      (pmp.pm_fsinfo * DEV_BSIZE + fsinfree + 4) else ∅) ∪
    (if pmp.mirror then mirrored pmp size (pmp.pm_FATs - 1) fatbn else ∅) ∪
    Set.Ico (fatbn * DEV_BSIZE) (fatbn * DEV_BSIZE + size)

theorem overwrites_mirrorLoop (bp : Buf) (n fatbn : ℕ) :
    Overwrites (mirrorLoop pmp bp n fatbn) (mirrored pmp bp.b_bcount n fatbn) := by
  induction n generalizing fatbn with
  | zero => exact Overwrites.id
  | succ n ih => exact (overwrites_writeCells ..).comp (ih (fatbn + pmp.pm_FATsecs))

theorem overwrites_updatefats (bp : Buf) (fatbn : ℕ) :
    Overwrites (updatefats pmp bp fatbn) (touched pmp bp.b_bcount fatbn) := by
  have hinfo : Overwrites (updatefsinfo pmp) (if pmp.pm_fsinfo ≠ 0 then
      Set.Ico (pmp.pm_fsinfo * DEV_BSIZE + fsinfree) (pmp.pm_fsinfo * DEV_BSIZE + fsinfree + 4) else ∅) := by
    unfold updatefsinfo
    split_ifs
    · exact overwrites_writeCells ..
    · exact Overwrites.id
  have hmirror : Overwrites
      (fun disk => if pmp.mirror then mirrorLoop pmp bp (pmp.pm_FATs - 1) fatbn disk else disk)
      (if pmp.mirror then mirrored pmp bp.b_bcount (pmp.pm_FATs - 1) fatbn else ∅) := by
    split_ifs
    · exact overwrites_mirrorLoop pmp bp _ fatbn
    · exact Overwrites.id
  exact (hinfo.comp hmirror).comp (overwrites_writeCells (fatbn * DEV_BSIZE) bp.b_bcount bp.b_data)

theorem le_of_mem_mirrored {size n fatbn a : ℕ} (ha : a ∈ mirrored pmp size n fatbn) :
    (fatbn + pmp.pm_FATsecs) * DEV_BSIZE ≤ a := by
  induction n generalizing fatbn with
  | zero => exact absurd ha (Set.notMem_empty a)
  | succ n ih =>
    obtain ha | ha := ha
    · exact ha.1
    · exact (Nat.mul_le_mul_right _ (Nat.le_add_right ..)).trans (ih ha)

/-- Of the current FAT no other bytes are written than those of the block. -/
theorem not_mem_touched {size fatbn a : ℕ} (hfirst : pmp.base ≤ fatbn * DEV_BSIZE) (hlo : pmp.base ≤ a)
    (hhi : a < pmp.base + pmp.pm_fatsize) (ha : ¬(fatbn * DEV_BSIZE ≤ a ∧ a < fatbn * DEV_BSIZE + size)) :
    a ∉ touched pmp size fatbn := by
  rintro ((hinfo | hcopy) | hblock)
  · split at hinfo
    next hne =>
      have hlt := pmp.fsinfo_lt hne
      have hbase : pmp.pm_fatblk * DEV_BSIZE ≤ pmp.base := Nat.mul_le_mul_right _ (Nat.le_add_right ..)
      have := hinfo.2
      omega
    next => exact hinfo
  · split at hcopy
    next hmirror =>
      have hle := le_of_mem_mirrored pmp hcopy
      rw [Nat.add_mul, ← FatMount.pm_fatsize] at hle
      omega
    next => exact hcopy
  · exact ha hblock

theorem updatefats_block (bp : Buf) (fatbn : ℕ) (disk : Disk) {i : ℕ} (hi : i < bp.b_bcount) :
    updatefats pmp bp fatbn disk (fatbn * DEV_BSIZE + i) = bp.b_data i := writeCells_of_lt _ _ hi

theorem updatefats_updatefats {bp bp' : Buf} (h : bp.b_bcount = bp'.b_bcount) (fatbn : ℕ) (disk : Disk) :
    updatefats pmp bp' fatbn (updatefats pmp bp fatbn disk) = updatefats pmp bp' fatbn disk := by
  have hover := overwrites_updatefats pmp bp fatbn
  rw [h] at hover
  exact hover.absorb (overwrites_updatefats pmp bp' fatbn) disk

/-- There is nothing behind the end of the buffer. -/
def Buf.Trimmed (bp : Buf) : Prop := ∀ i, bp.b_bcount ≤ i → bp.b_data i = 0

theorem bread_trimmed (disk : Disk) (bn size : ℕ) : (bread disk bn size).Trimmed :=
  fun _ hi => if_neg (not_lt.2 hi)

theorem Buf.Trimmed.putEntry {bp : Buf} (h : bp.Trimmed) {kind : FatKind} {bo : ℕ}
    (hbo : bo + entryBytes kind ≤ bp.b_bcount) (odd : Bool) (v : BitVec 32) :
    Buf.Trimmed { bp with b_data := Msdosfs.putEntry kind odd bp.b_data bo v } := by
  intro i hi
  have hle : bp.b_bcount ≤ i := hi
  exact (putEntry_outside (by omega)).trans (h i hle)

theorem bread_updatefats {bp : Buf} (h : bp.Trimmed) (fatbn : ℕ) (disk : Disk) :
    bread (updatefats pmp bp fatbn disk) fatbn bp.b_bcount = bp := by
  obtain ⟨data, size⟩ := bp
  rw [bread, Buf.mk.injEq]
  refine ⟨funext fun i => ?_, rfl⟩
  split
  next hi => exact updatefats_block pmp ⟨data, size⟩ fatbn disk hi
  next hi => exact (h i (not_lt.1 hi)).symm

end Update

section Single

variable {pmp : FatMount} {cn : ℕ}

def setEntry (pmp : FatMount) (disk : Disk) (cn : ℕ) (v : BitVec 32) : Disk :=
  let b := fatblock pmp (pmp.kind.FATOFS cn)
  let bp := bread disk b.bn b.size
  updatefats pmp { bp with b_data := putEntry pmp.kind (cn % 2 = 1) bp.b_data b.bo v } b.bn disk

theorem bread_fat (disk : Disk) (hcn : cn ≤ pmp.pm_maxcluster) {i : ℕ} (hi : i < entryBytes pmp.kind) :
    (bread disk (fatblock pmp (pmp.kind.FATOFS cn)).bn (fatblock pmp (pmp.kind.FATOFS cn)).size).b_data
      ((fatblock pmp (pmp.kind.FATOFS cn)).bo + i) = pmp.fat disk (pmp.kind.FATOFS cn + i) := by
  have hb := pmp.inBlock hcn
  have hbound := hb.bound
  have hplace := hb.place
  rw [bread, FatMount.fat, ← FatMount.base, ← Nat.add_assoc, ← hplace]
  simp only
  rw [if_pos (by omega), Nat.add_assoc]

theorem fatentry_valid (get set : Bool) (disk : Disk) (hlo : CLUST_FIRST ≤ cn) (hcn : cn ≤ pmp.pm_maxcluster)
    (v : BitVec 32) : fatentry get set pmp disk cn v = some (.ok
      (if get then some (mapReserved pmp.kind (fatEntry pmp.kind (pmp.fat disk) cn)) else none,
        if set then setEntry pmp disk cn v else disk)) := by
  have hentry := entryAt_congr (cn % 2 = 1) fun i hi => @bread_fat pmp cn disk hcn i hi
  rw [fatentry, if_neg (by omega)]
  simp only
  rw [if_neg (pmp.inBlock hcn).bound.not_gt, hentry, ← fatEntry_eq]
  rfl

theorem fat_setEntry (disk : Disk) (hcn : cn ≤ pmp.pm_maxcluster) (v : BitVec 32) {o : ℕ} (ho : o < pmp.pm_fatsize) :
    pmp.fat (setEntry pmp disk cn v) o =
      putEntry pmp.kind (cn % 2 = 1) (pmp.fat disk) (pmp.kind.FATOFS cn) v o := by
  have hb := pmp.inBlock hcn
  set b := fatblock pmp (pmp.kind.FATOFS cn) with hbdef
  set bp := bread disk b.bn b.size with hbp
  have hplace := hb.place
  have hbound := hb.bound
  have hdata : ∀ i < entryBytes pmp.kind, bp.b_data (b.bo + i) = pmp.fat disk (pmp.kind.FATOFS cn + i) :=
    fun i hi => bread_fat disk hcn hi
  by_cases hin : b.bn * DEV_BSIZE ≤ pmp.base + o ∧ pmp.base + o < b.bn * DEV_BSIZE + b.size
  · have hfat : pmp.fat (setEntry pmp disk cn v) o =
        putEntry pmp.kind (cn % 2 = 1) bp.b_data b.bo v (pmp.base + o - b.bn * DEV_BSIZE) := by
      have hpos : pmp.base + o = b.bn * DEV_BSIZE + (pmp.base + o - b.bn * DEV_BSIZE) := by omega
      rw [FatMount.fat, ← FatMount.base, setEntry, ← hbdef]
      simp only [← hbp]
      conv_lhs => rw [hpos]
      exact updatefats_block pmp _ _ _ (show _ < b.size by omega)
    rw [hfat]
    by_cases hentry : pmp.kind.FATOFS cn ≤ o ∧ o < pmp.kind.FATOFS cn + entryBytes pmp.kind
    · have hput := putEntry_inside (cn % 2 = 1) v hdata (o - pmp.kind.FATOFS cn) (by omega)
      rwa [show b.bo + (o - pmp.kind.FATOFS cn) = pmp.base + o - b.bn * DEV_BSIZE by omega,
        show pmp.kind.FATOFS cn + (o - pmp.kind.FATOFS cn) = o by omega] at hput
    · rw [putEntry_outside (by omega), putEntry_outside (by omega), hbp, bread]
      simp only
      rw [if_pos (by omega), FatMount.fat, ← FatMount.base,
        show b.bn * DEV_BSIZE + (pmp.base + o - b.bn * DEV_BSIZE) = pmp.base + o by omega]
  · have hout := not_mem_touched pmp hb.first (Nat.le_add_right pmp.base o) (by omega) hin
    rw [putEntry_outside (by omega)]
    exact (overwrites_updatefats pmp _ b.bn).outside disk _ hout

theorem fatEntry_congr {kind : FatKind} {m m' : Fat} (h : ∀ i < entryBytes kind,
    m (kind.FATOFS cn + i) = m' (kind.FATOFS cn + i)) : fatEntry kind m cn = fatEntry kind m' cn := by
  rw [fatEntry_eq, fatEntry_eq]
  exact entryAt_congr _ h

theorem fatEntry_setEntry (disk : Disk) (hcn : cn ≤ pmp.pm_maxcluster) (v : BitVec 32) {d : ℕ}
    (hd : d ≤ pmp.pm_maxcluster) : fatEntry pmp.kind (pmp.fat (setEntry pmp disk cn v)) d =
      if d = cn then v &&& pmp.kind.pm_fatmask else fatEntry pmp.kind (pmp.fat disk) d := by
  have hin := pmp.FATOFS_add_le hd
  rw [← fatEntry_putEntry]
  exact fatEntry_congr fun i hi => fat_setEntry disk hcn v (by omega)

theorem high_setEntry (disk : Disk) (hcn : cn ≤ pmp.pm_maxcluster) (v : BitVec 32) (hkind : pmp.kind = .fat32) :
    getulong (pmp.fat (setEntry pmp disk cn v)) (pmp.kind.FATOFS cn) &&& ~~~pmp.kind.pm_fatmask =
      getulong (pmp.fat disk) (pmp.kind.FATOFS cn) &&& ~~~pmp.kind.pm_fatmask := by
  have hin := pmp.FATOFS_add_le hcn
  have hbytes : entryBytes pmp.kind = 4 := by
    rw [hkind]
    rfl
  have hset (i : ℕ) (hi : i < 4) := @fat_setEntry pmp cn disk hcn v (pmp.kind.FATOFS cn + i) (by omega)
  have hget : getulong (pmp.fat (setEntry pmp disk cn v)) (pmp.kind.FATOFS cn) =
      getulong (putEntry pmp.kind (cn % 2 = 1) (pmp.fat disk) (pmp.kind.FATOFS cn) v) (pmp.kind.FATOFS cn) := by
    rw [getulong, getulong, hset 1 (by decide), hset 2 (by decide), hset 3 (by decide),
      show pmp.fat (setEntry pmp disk cn v) (pmp.kind.FATOFS cn) = _ from hset 0 (by decide)]
    rfl
  have hofs : 8 * pmp.kind.FATOFS cn = pmp.kind.width * cn := by
    rw [hkind]
    simp only [FatKind.FATOFS, FatKind.pm_fatmult, FatKind.pm_fatdiv, FatKind.width]
    omega
  apply BitVec.eq_of_getLsbD_eq
  intro i hi
  rw [hget, BitVec.getLsbD_and, BitVec.getLsbD_and, getLsbD_getulong, getLsbD_getulong, test_putEntry,
    BitVec.getLsbD_not, getLsbD_fatmask, hofs]
  by_cases hb : i < pmp.kind.bits
  · simp [hb]
  · rw [if_neg (by omega)]

end Single

section Chains

variable {pmp : FatMount} {count start : ℕ}

theorem fatentries_succ (fillwith : BitVec 32) (hlo : CLUST_FIRST ≤ start) (hmax : start ≤ pmp.pm_maxcluster)
    (disk : Disk) : fatentries pmp fillwith (count + 1) start disk =
      fatentries pmp fillwith count (start + 1)
        (setEntry pmp disk start (if 0 < count then BitVec.ofNat 32 (start + 1) else fillwith)) := by
  rw [fatentries, fatentry_valid false true disk hlo hmax]
  rfl

def Buf.link (bp : Buf) (kind : FatKind) (fillwith : BitVec 32) (count start bo : ℕ) : Buf :=
  let newc := if 0 < count then BitVec.ofNat 32 (start + 1) else fillwith
  { bp with b_data := putEntry kind ((start + 1) % 2 = 0) bp.b_data bo newc }

theorem fillBlock_succ (kind : FatKind) (fillwith : BitVec 32) {bo : ℕ} {bp : Buf}
    (hbo : bo + entryBytes kind ≤ bp.b_bcount) : fillBlock kind fillwith (count + 1) start bo bp =
      if bp.b_bcount ≤ nextOffset kind (start + 1) bo then
        some (count, start + 1, bp.link kind fillwith count start bo)
      else fillBlock kind fillwith count (start + 1) (nextOffset kind (start + 1) bo)
        (bp.link kind fillwith count start bo) := by
  rw [fillBlock, if_neg (by omega)]
  rfl

theorem setEntry_eq_link (fillwith : BitVec 32) {disk : Disk} {b : FatBlock} {bp : Buf}
    (hb : fatblock pmp (pmp.kind.FATOFS start) = b) (hbp : bread disk b.bn b.size = bp) :
    setEntry pmp disk start (if 0 < count then BitVec.ofNat 32 (start + 1) else fillwith) =
      updatefats pmp (bp.link pmp.kind fillwith count start b.bo) b.bn disk := by
  have hodd : decide ((start + 1) % 2 = 0) = decide (start % 2 = 1) := by
    rw [decide_eq_decide]
    omega
  subst hb hbp
  rw [Buf.link, hodd]
  rfl

/-- A round of `fatchain` does in the buffer what as many single calls do on the disk. -/
theorem fillBlock_fatentries (fillwith : BitVec 32) (hlo : CLUST_FIRST ≤ start)
    (hmax : start + count ≤ pmp.pm_maxcluster) (disk : Disk) {b : FatBlock} {bp : Buf}
    (hb : fatblock pmp (pmp.kind.FATOFS start) = b) (hbp : bread disk b.bn b.size = bp) :
    ∃ count' start' bp', fillBlock pmp.kind fillwith (count + 1) start b.bo bp = some (count', start', bp') ∧
      count' ≤ count ∧ start' + count' = start + count + 1 ∧ bp'.b_bcount = b.size ∧
      fatentries pmp fillwith (count + 1) start disk =
        fatentries pmp fillwith count' start' (updatefats pmp bp' b.bn disk) := by
  induction count generalizing start b bp disk with
  | zero =>
    have hmax' : start ≤ pmp.pm_maxcluster := hmax
    have hbound : b.bo + entryBytes pmp.kind ≤ bp.b_bcount := by
      rw [← hbp, ← hb]
      exact (pmp.inBlock hmax').bound
    refine ⟨0, start + 1, bp.link pmp.kind fillwith 0 start b.bo, ?_, le_rfl, rfl, ?_, ?_⟩
    · rw [fillBlock_succ pmp.kind fillwith hbound]
      split <;> rfl
    · rw [← hbp]
      rfl
    · rw [fatentries_succ fillwith hlo hmax', setEntry_eq_link fillwith hb hbp]
  | succ count ih =>
    have hmax' : start ≤ pmp.pm_maxcluster := by omega
    have hbound : b.bo + entryBytes pmp.kind ≤ bp.b_bcount := by
      rw [← hbp, ← hb]
      exact (pmp.inBlock hmax').bound
    have hsize : (bp.link pmp.kind fillwith (count + 1) start b.bo).b_bcount = b.size := by
      rw [← hbp]
      rfl
    have htrim : (bp.link pmp.kind fillwith (count + 1) start b.bo).Trimmed := by
      have htrim : bp.Trimmed := hbp ▸ bread_trimmed disk b.bn b.size
      exact htrim.putEntry hbound _ _
    rw [fillBlock_succ pmp.kind fillwith hbound, fatentries_succ fillwith hlo hmax',
      setEntry_eq_link fillwith hb hbp]
    set bp₁ := bp.link pmp.kind fillwith (count + 1) start b.bo
    by_cases hbreak : bp.b_bcount ≤ nextOffset pmp.kind (start + 1) b.bo
    · exact ⟨count + 1, start + 1, bp₁, if_pos hbreak, le_rfl, by omega, hsize, rfl⟩
    · rw [if_neg hbreak]
      -- the next entry lies in the same block
      have hnext : fatblock pmp (pmp.kind.FATOFS (start + 1)) =
          { b with bo := nextOffset pmp.kind (start + 1) b.bo } := by
        rw [← hb]
        refine pmp.fatblock_next ?_
        rw [hb]
        have hcount : bp.b_bcount = b.size := by
          rw [← hbp]
          rfl
        omega
      have hread : bread (updatefats pmp bp₁ b.bn disk) b.bn b.size = bp₁ := by
        rw [← hsize]
        exact bread_updatefats pmp htrim b.bn disk
      obtain ⟨count', start', bp', hfill, hle, hsum, hsize', hentries⟩ :=
        ih (Nat.le_succ_of_le hlo) (by omega) (updatefats pmp bp₁ b.bn disk) hnext hread
      refine ⟨count', start', bp', hfill, by omega, by omega, hsize', ?_⟩
      rw [hentries, updatefats_updatefats pmp (hsize.trans hsize'.symm)]

theorem chainLoop_eq (fillwith : BitVec 32) {fuel : ℕ} (hfuel : count ≤ fuel) (hlo : CLUST_FIRST ≤ start)
    (hmax : start + count ≤ pmp.pm_maxcluster + 1) (disk : Disk) :
    chainLoop pmp fillwith fuel count start disk = fatentries pmp fillwith count start disk := by
  induction fuel generalizing count start disk with
  | zero =>
    obtain rfl : count = 0 := by omega
    rfl
  | succ fuel ih =>
    cases count with
    | zero => rfl
    | succ count =>
      obtain ⟨count', start', bp', hfill, hle, hsum, -, hentries⟩ :=
        fillBlock_fatentries fillwith hlo (show start + count ≤ pmp.pm_maxcluster by omega) disk rfl rfl
      rw [chainLoop, hfill, hentries]
      exact ih (by omega) (by omega) (by omega) _

theorem fatentries_entry (fillwith : BitVec 32) (hlo : CLUST_FIRST ≤ start)
    (hmax : start + count ≤ pmp.pm_maxcluster + 1) (disk : Disk) :
    ∃ disk', fatentries pmp fillwith count start disk = some disk' ∧
      ∀ c ≤ pmp.pm_maxcluster, fatEntry pmp.kind (pmp.fat disk') c =
        if start ≤ c ∧ c < start + count then
          (if c + 1 < start + count then BitVec.ofNat 32 (c + 1) else fillwith) &&& pmp.kind.pm_fatmask
        else fatEntry pmp.kind (pmp.fat disk) c := by
  induction count generalizing start disk with
  | zero => exact ⟨disk, rfl, fun c _ => by rw [if_neg (by omega)]⟩
  | succ count ih =>
    set v := if 0 < count then BitVec.ofNat 32 (start + 1) else fillwith with hv
    obtain ⟨disk', hrun, hentry⟩ := ih (Nat.le_succ_of_le hlo) (by omega) (setEntry pmp disk start v)
    refine ⟨disk', ?_, fun c hc => ?_⟩
    · rw [fatentries_succ fillwith hlo (by omega)]
      exact hrun
    · rw [hentry c hc, fatEntry_setEntry disk (by omega) v hc]
      by_cases hfirst : c = start
      · have hin : start ≤ c ∧ c < start + (count + 1) := by omega
        rw [if_neg (by omega), if_pos hfirst, if_pos hin, hv, hfirst]
        congr 1
        exact if_congr (by omega) rfl rfl
      · rw [if_neg hfirst]
        by_cases hin : start + 1 ≤ c ∧ c < start + 1 + count
        · have hin' : start ≤ c ∧ c < start + (count + 1) := by omega
          rw [if_pos hin, if_pos hin']
          congr 1
          exact if_congr (by omega) rfl rfl
        · rw [if_neg hin, if_neg (by omega)]

theorem fatchain_eq (fillwith : BitVec 32) (hwrap : start + count ≤ 2 ^ 32)
    (hin : ¬(start < CLUST_FIRST ∨ pmp.pm_maxcluster < start + count - 1)) (disk : Disk) :
    fatchain pmp disk start count fillwith = (fatentries pmp fillwith count start disk).map .ok := by
  rw [not_or, not_lt, not_lt] at hin
  have hlo := hin.1
  simp only [CLUST_FIRST] at hlo
  rw [fatchain, Nat.mod_eq_of_lt (by omega), if_neg (by rw [not_or, not_lt, not_lt]; exact hin),
    chainLoop_eq fillwith le_rfl hin.1 (by omega)]

/-- What `fatchain` leaves in the current FAT is what it leaves in a FAT that is not in blocks. -/
theorem fatEntry_fatchain {fillwith : BitVec 32} {disk disk' : Disk} (hwrap : start + count ≤ 2 ^ 32)
    (hin : ¬(start < CLUST_FIRST ∨ pmp.pm_maxcluster < start + count - 1))
    (h : fatchain pmp disk start count fillwith = some (.ok disk')) {c : ℕ} (hc : c ≤ pmp.pm_maxcluster) :
    fatEntry pmp.kind (pmp.fat disk') c =
      fatEntry pmp.kind
        (fatchainLoop pmp.kind fillwith count start (pmp.kind.FATOFS start) (pmp.fat disk)) c := by
  obtain ⟨disk₁, hrun, hentry⟩ := @fatentries_entry pmp count start fillwith (not_lt.1 (not_or.1 hin).1)
    (by omega) disk
  rw [fatchain_eq fillwith hwrap hin, hrun] at h
  cases h
  rw [hentry c hc, fatEntry_fatchainLoop]

end Chains

/-- A valid cluster. -/
def FatMount.Valid (pmp : FatMount) (c : ℕ) : Prop := CLUST_FIRST ≤ c ∧ c ≤ pmp.pm_maxcluster

instance (pmp : FatMount) (c : ℕ) : Decidable (pmp.Valid c) := inferInstanceAs (Decidable (_ ∧ _))

/-- An entry that is set is read back, in the bits of the FAT's kind, and no other entry is changed;
`fatchain` leaves the disk that the single calls leave, or refuses clusters that do not exist. -/
theorem fatentry_fatchain (pmp : FatMount) (disk : Disk) :
    (∀ c v, pmp.Valid c → ∃ disk', fatentry false true pmp disk c v = some (.ok (none, disk')) ∧
      fatentry true false pmp disk' c 0 =
        some (.ok (some (mapReserved pmp.kind (v &&& pmp.kind.pm_fatmask)), disk')) ∧
      (∀ d, pmp.Valid d → d ≠ c → ∃ old, fatentry true false pmp disk d 0 = some (.ok (some old, disk)) ∧
        fatentry true false pmp disk' d 0 = some (.ok (some old, disk'))) ∧
      (pmp.kind = .fat32 →
        getulong (pmp.fat disk') (pmp.kind.FATOFS c) &&& ~~~pmp.kind.pm_fatmask =
          getulong (pmp.fat disk) (pmp.kind.FATOFS c) &&& ~~~pmp.kind.pm_fatmask)) ∧
    ∀ start count fillwith, start + count ≤ 2 ^ 32 →
      if start < CLUST_FIRST ∨ pmp.pm_maxcluster < start + count - 1 then
        fatchain pmp disk start count fillwith = some (.error .EINVAL)
      else ∃ disk', fatchain pmp disk start count fillwith = some (.ok disk') ∧
        fatentries pmp fillwith count start disk = some disk' := by
  constructor
  · rintro c v ⟨hlo, hhi⟩
    refine ⟨setEntry pmp disk c v, fatentry_valid false true disk hlo hhi v, ?_, ?_, high_setEntry disk hhi v⟩
    · have hentry : fatEntry pmp.kind (pmp.fat (setEntry pmp disk c v)) c = v &&& pmp.kind.pm_fatmask :=
        (fatEntry_setEntry disk hhi v hhi).trans (if_pos rfl)
      rw [fatentry_valid true false _ hlo hhi, hentry]
      rfl
    · rintro d ⟨hlo', hhi'⟩ hne
      refine ⟨_, fatentry_valid true false disk hlo' hhi' 0, ?_⟩
      rw [fatentry_valid true false _ hlo' hhi', fatEntry_setEntry disk hhi v hhi', if_neg hne]
      rfl
  · intro start count fillwith hwrap
    split
    next hout =>
      have hout' : start < CLUST_FIRST ∨ pmp.pm_maxcluster < (start + count - 1) % 2 ^ 32 := by
        simp only [CLUST_FIRST] at hout ⊢
        omega
      exact if_pos hout'
    next hin =>
      obtain ⟨disk', hrun, -⟩ := @fatentries_entry pmp count start fillwith (not_lt.1 (not_or.1 hin).1)
        (by omega) disk
      refine ⟨disk', ?_, hrun⟩
      rw [fatchain_eq fillwith hwrap hin, hrun]
      rfl

/-- Two FATs of a sector each, in a block. -/
def floppy : FatMount where
  kind := .fat12
  pm_maxcluster := 339
  pm_FATs := 2
  pm_FATsecs := 1
  pm_fatblk := 1
  pm_curfat := 0
  pm_fatblocksec := 3
  pm_fsinfo := 0
  pm_freeclustercount := 338
  mirror := true
  fatblocksec_pos := by decide
  fatblocksec_dvd := by decide
  maxcluster_lt := by decide
  curfat_of_mirror _ := rfl
  fsinfo_lt h := absurd rfl h

theorem fatentry_fatchain_floppy :
    ∃ disk', fatchain floppy (fun _ => 0) 338 2 CLUST_EOFE = some (.ok disk') ∧
      fatentries floppy CLUST_EOFE 2 338 (fun _ => 0) = some disk' :=
  (fatentry_fatchain floppy fun _ => 0).2 338 2 CLUST_EOFE (by decide)

theorem fatEntry_fatchain_floppy :
    ∃ disk', fatchain floppy (fun _ => 0) 338 2 CLUST_EOFE = some (.ok disk') ∧
      fatEntry .fat12 (floppy.fat disk') 339 =
        fatEntry .fat12 (fatchainLoop .fat12 CLUST_EOFE 2 338 (FatKind.fat12.FATOFS 338)
          (floppy.fat fun _ => 0)) 339 := by
  have hin : ¬(338 < CLUST_FIRST ∨ floppy.pm_maxcluster < 338 + 2 - 1) := by decide
  obtain ⟨disk', hrun, -⟩ :=
    @fatentries_entry floppy 2 338 CLUST_EOFE (by decide) (by decide) fun _ => 0
  have hchain := fatchain_eq CLUST_EOFE (by decide) hin fun _ => 0
  rw [hrun] at hchain
  exact ⟨disk', hchain, fatEntry_fatchain (by decide) hin hchain (by decide)⟩

/-- Behind the last cluster `fatchain` refuses all of the chain, a single call only its cluster. -/
theorem fatchain_refuses : fatchain floppy (fun _ => 0) 339 2 CLUST_EOFE = some (.error .EINVAL) ∧
    (fatentries floppy CLUST_EOFE 2 339 fun _ => 0).map (fun disk => fatEntry .fat12 (floppy.fat disk) 339) =
      some 340 ∧
    fatEntry .fat12 (floppy.fat fun _ => 0) 339 = 0 := by
  refine ⟨rfl, ?_, ?_⟩ <;> decide +kernel

end OpenbsdKernel.Msdosfs.Blocks
