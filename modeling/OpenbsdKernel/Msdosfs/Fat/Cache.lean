import Mathlib
import OpenbsdKernel.Msdosfs.Fat.Runs
import OpenbsdKernel.Msdosfs.Fat.Search

/-!
# The clusters of a file

`pcbmap`, `fc_lookup` and the FAT cache of a denode: the walk along the chain of a file may start at
a cluster that the cache names.
-/
namespace OpenbsdKernel.Msdosfs

def MSDOSFSROOT : ℕ := 0
def CLUST_EOFS : BitVec 32 := 0xfffffff8
def FCE_EMPTY : ℕ := 0xffffffff

theorem neZero_slots : NeZero 3 := inferInstance

def FC_LASTMAP : Fin 3 :=
  haveI := neZero_slots
  0
def FC_LASTFC : Fin 3 :=
  haveI := neZero_slots
  1
def FC_OLASTFC : Fin 3 :=
  haveI := neZero_slots
  2

structure FatCache where
  fc_frcn : ℕ
  fc_fsrcn : ℕ
  deriving DecidableEq, Repr

/-- The fields of `struct denode` that are about its clusters; `directory` is `ATTR_DIRECTORY`. -/
structure Denode where
  de_StartCluster : ℕ
  directory : Bool
  de_FileSize : ℕ
  de_fc : Fin 3 → FatCache
  deriving DecidableEq

/-- A file system with what is said about its root directory. -/
structure Volume extends Mount where
  pm_cnshift : ℕ
  pm_bnshift : ℕ
  pm_rootdirsize : ℕ

def Denode.fcSetcache (dep : Denode) (slot : Fin 3) (frcn fsrcn : ℕ) : Denode :=
  { dep with de_fc := Function.update dep.de_fc slot ⟨frcn, fsrcn⟩ }

/-- The loop of `fc_lookup`, with the closest entry so far. -/
def fcCloser (findcn : ℕ) (closest : Option FatCache) (fc : FatCache) : Option FatCache :=
  if fc.fc_frcn ≠ FCE_EMPTY ∧ fc.fc_frcn ≤ findcn then
    match closest with
    | none => some fc
    | some best => if best.fc_frcn < fc.fc_frcn then some fc else some best
  else closest

def fcLookup (dep : Denode) (findcn : ℕ) : Option FatCache :=
  haveI := neZero_slots
  [dep.de_fc 0, dep.de_fc 1, dep.de_fc 2].foldl (fcCloser findcn) none

/-- `(cn | ~pmp->pm_fatmask) >= CLUST_RSRVD` -/
def FatKind.Reserved (kind : FatKind) (cn : ℕ) : Prop := CLUST_RSRVD ≤ BitVec.ofNat 32 cn ||| ~~~kind.pm_fatmask

instance (kind : FatKind) (cn : ℕ) : Decidable (kind.Reserved cn) := inferInstanceAs (Decidable (_ ≤ _))

def FatKind.MSDOSFSEOF (kind : FatKind) (cn : ℕ) : Prop :=
  (BitVec.ofNat 32 cn ||| ~~~kind.pm_fatmask) &&& CLUST_EOFS = CLUST_EOFS

instance (kind : FatKind) (cn : ℕ) : Decidable (kind.MSDOSFSEOF cn) := inferInstanceAs (Decidable (_ = _))

/-- What follows the cluster `cn` in its chain. -/
def Mount.next (pmp : Mount) (cn : ℕ) : ℕ :=
  let entry := fatEntry pmp.kind pmp.fat cn
  (if CLUST_RSRVD ≤ entry ||| ~~~pmp.kind.pm_fatmask then entry ||| ~~~pmp.kind.pm_fatmask else entry).toNat

/-- The loop of `pcbmap`: whether it ends at `hiteof`, with `i`, `cn` and `prevcn`. -/
def mapLoop (pmp : Mount) : ℕ → ℕ → ℕ → ℕ → Bool × ℕ × ℕ × ℕ
  | 0, i, cn, prevcn => (false, i, cn, prevcn)
  | n + 1, i, cn, prevcn =>
    if pmp.kind.Reserved cn then (true, i, cn, prevcn) else mapLoop pmp n (i + 1) (pmp.next cn) cn

/-- `pcbmap` with the denode it leaves: what it puts where `cnp` points, also with an error. -/
def pcbmap (pmp : Volume) (dep : Denode) (findcn : ℕ) : Denode × Except (Errno × ℕ) ℕ :=
  if dep.de_StartCluster = MSDOSFSROOT then
    if dep.directory then
      if dep.de_FileSize ≤ findcn * 2 ^ pmp.pm_cnshift % 2 ^ 32 then
        (dep, .error (.E2BIG, pmp.pm_rootdirsize / 2 ^ (pmp.pm_cnshift - pmp.pm_bnshift)))
      else (dep, .ok MSDOSFSROOT)
    else (dep, .error (.E2BIG, 0))
  else
    let first := (fcLookup dep findcn).getD ⟨0, dep.de_StartCluster⟩
    let (hiteof, i, cn, prevcn) := mapLoop pmp.toMount (findcn - first.fc_frcn) first.fc_frcn first.fc_fsrcn 0
    if hiteof = true ∨ pmp.kind.MSDOSFSEOF cn then
      (dep.fcSetcache FC_LASTFC ((i + (2 ^ 32 - 1)) % 2 ^ 32) prevcn, .error (.E2BIG, i))
    else (dep.fcSetcache FC_LASTMAP i cn, .ok cn)

/-- The clusters of a file, linked up to an end-of-file mark. -/
structure FileChain (pmp : Mount) (l : List ℕ) : Prop where
  used : ∀ c ∈ l, pmp.Used c
  nodup : l.Nodup
  linked : l.IsChain fun c d => pmp.next c = d
  last : ∀ c ∈ l.getLast?, pmp.kind.MSDOSFSEOF (pmp.next c)

/-- A denode of a file with these clusters, which may be none. -/
structure File (pmp : Mount) (dep : Denode) (l : List ℕ) : Prop extends FileChain pmp l where
  start : dep.de_StartCluster = l.head?.getD 0
  not_root : ¬(dep.de_StartCluster = MSDOSFSROOT ∧ dep.directory = true)

/-- An entry of the cache is empty, or names a cluster of the file. -/
def FatCache.Names (fc : FatCache) (l : List ℕ) : Prop :=
  fc.fc_frcn ≠ FCE_EMPTY → l[fc.fc_frcn]? = some fc.fc_fsrcn

def CacheCoherent (dep : Denode) (l : List ℕ) : Prop := ∀ slot, (dep.de_fc slot).Names l

/-- What walking the chain gives. -/
def walkChain (l : List ℕ) (findcn : ℕ) : Except (Errno × ℕ) ℕ :=
  match l[findcn]? with
  | some cn => .ok cn
  | none => .error (.E2BIG, l.length)

section Numbers

variable {pmp : Mount} {c d : ℕ}

theorem reserved_of_eof {kind : FatKind} {cn : ℕ} (h : kind.MSDOSFSEOF cn) : kind.Reserved cn := by
  rw [FatKind.MSDOSFSEOF] at h
  rw [FatKind.Reserved, BitVec.le_def]
  have hle : CLUST_EOFS.toNat ≤ (BitVec.ofNat 32 cn ||| ~~~kind.pm_fatmask).toNat := by
    conv_lhs => rw [← h, BitVec.toNat_and]
    exact Nat.and_le_left
  exact le_trans (by decide) hle

theorem Mount.Sound.not_reserved (h : pmp.Sound) (hc : c ≤ pmp.pm_maxcluster) : ¬pmp.kind.Reserved c := by
  have hlt := h.lt_mask
  rw [Mount.Sound] at h
  rw [FatKind.Reserved, BitVec.le_def, BitVec.toNat_or, BitVec.toNat_ofNat, Nat.mod_eq_of_lt (by omega : c < 2 ^ 32),
    Nat.or_comm]
  cases hk : pmp.kind with
  | fat12 =>
    rw [hk] at h hlt
    have hval : (CLUST_RSRVD &&& FatKind.pm_fatmask .fat12).toNat = 0xff6 := by decide
    have hmask : (~~~FatKind.pm_fatmask .fat12).toNat = 2 ^ 12 * 0xfffff := by decide
    have hrsrvd : CLUST_RSRVD.toNat = 0xfffffff6 := rfl
    simp only [FatKind.bits] at hlt
    rw [hmask, ← Nat.two_pow_add_eq_or_of_lt (by omega : c < 2 ^ 12), hrsrvd]
    omega
  | fat16 =>
    rw [hk] at h hlt
    have hval : (CLUST_RSRVD &&& FatKind.pm_fatmask .fat16).toNat = 0xfff6 := by decide
    have hmask : (~~~FatKind.pm_fatmask .fat16).toNat = 2 ^ 16 * 0xffff := by decide
    have hrsrvd : CLUST_RSRVD.toNat = 0xfffffff6 := rfl
    simp only [FatKind.bits] at hlt
    rw [hmask, ← Nat.two_pow_add_eq_or_of_lt (by omega : c < 2 ^ 16), hrsrvd]
    omega
  | fat32 =>
    rw [hk] at h hlt
    have hval : (CLUST_RSRVD &&& FatKind.pm_fatmask .fat32).toNat = 0x0ffffff6 := by decide
    have hmask : (~~~FatKind.pm_fatmask .fat32).toNat = 2 ^ 28 * 0xf := by decide
    have hrsrvd : CLUST_RSRVD.toNat = 0xfffffff6 := rfl
    simp only [FatKind.bits] at hlt
    rw [hmask, ← Nat.two_pow_add_eq_or_of_lt (by omega : c < 2 ^ 28), hrsrvd]
    omega

theorem Mount.Sound.next_eq (h : pmp.Sound) (hd : d ≤ pmp.pm_maxcluster)
    (hentry : fatEntry pmp.kind pmp.fat c = BitVec.ofNat 32 d &&& pmp.kind.pm_fatmask) : pmp.next c = d := by
  have hval := h.toNat_entry hd
  have heq : BitVec.ofNat 32 d &&& pmp.kind.pm_fatmask = BitVec.ofNat 32 d := by
    have hlt := h.lt_mask
    rw [← BitVec.toNat_inj, hval, BitVec.toNat_ofNat, Nat.mod_eq_of_lt (by omega)]
  rw [Mount.next, hentry, if_neg]
  · exact hval
  · rw [heq]
    exact h.not_reserved hd

theorem eof_of_entry (hentry : fatEntry pmp.kind pmp.fat c = CLUST_EOFE &&& pmp.kind.pm_fatmask) :
    pmp.kind.MSDOSFSEOF (pmp.next c) := by
  rw [Mount.next, hentry]
  cases pmp.kind <;> decide

end Numbers

section Walk

variable {pmp : Mount} {l : List ℕ} {i c findcn : ℕ}

theorem FileChain.not_reserved (h : FileChain pmp l) (hsound : pmp.Sound) (hc : l[i]? = some c) :
    ¬pmp.kind.Reserved c :=
  hsound.not_reserved (h.used c (List.mem_of_getElem? hc)).last

theorem FileChain.length_le (h : FileChain pmp l) : l.length ≤ pmp.pm_maxcluster + 1 := by
  have hsub : l ⊆ List.range (pmp.pm_maxcluster + 1) := by
    intro c hc
    exact List.mem_range.2 (Nat.lt_succ_of_le (h.used c hc).last)
  have hle := (h.nodup.subperm hsub).length_le
  rwa [List.length_range] at hle

theorem FileChain.getElem?_next (h : FileChain pmp l) (hc : l[i]? = some c) (hi : i + 1 < l.length) :
    l[i + 1]? = some (pmp.next c) := by
  have hlink := List.isChain_iff_getElem.1 h.linked i hi
  rw [List.getElem?_eq_getElem hi, ← hlink]
  rw [List.getElem?_eq_getElem (by omega), Option.some_inj] at hc
  rw [hc]

theorem FileChain.eof (h : FileChain pmp l) (hc : l[i]? = some c) (hi : i + 1 = l.length) :
    pmp.kind.MSDOSFSEOF (pmp.next c) := by
  refine h.last c ?_
  rw [List.getLast?_eq_getElem?, ← hi]
  exact hc

theorem mapLoop_inside (h : FileChain pmp l) (hsound : pmp.Sound) {n : ℕ} (hc : l[i]? = some c)
    (hn : i + n < l.length) (prevcn : ℕ) :
    ∃ prevcn' cn, mapLoop pmp n i c prevcn = (false, i + n, cn, prevcn') ∧ l[i + n]? = some cn := by
  induction n generalizing i c prevcn with
  | zero => exact ⟨prevcn, c, rfl, hc⟩
  | succ n ih =>
    obtain ⟨prevcn', cn, hloop, hcn⟩ := ih (h.getElem?_next hc (by omega)) (by omega) c
    refine ⟨prevcn', cn, ?_, ?_⟩
    · rw [mapLoop, if_neg (h.not_reserved hsound hc), hloop, Nat.add_right_comm, Nat.add_assoc]
    · rw [← hcn, Nat.add_right_comm, Nat.add_assoc]

theorem mapLoop_beyond (h : FileChain pmp l) (hsound : pmp.Sound) {n : ℕ} (hc : l[i]? = some c)
    (hn : l.length ≤ i + n) (prevcn : ℕ) :
    ∃ hiteof cn last, mapLoop pmp n i c prevcn = (hiteof, l.length, cn, last) ∧
      (hiteof = true ∨ pmp.kind.MSDOSFSEOF cn) ∧ l[l.length - 1]? = some last := by
  have hi : i < l.length := by
    by_contra hle
    rw [List.getElem?_eq_none (by omega)] at hc
    cases hc
  induction n generalizing i c prevcn with
  | zero => omega
  | succ n ih =>
    rw [mapLoop, if_neg (h.not_reserved hsound hc)]
    by_cases hend : i + 1 < l.length
    · exact ih (h.getElem?_next hc hend) (by omega) c hend
    · have hlen : i + 1 = l.length := by omega
      have heof := h.eof hc hlen
      have hlast : l[l.length - 1]? = some c := by
        rw [← hlen]
        exact hc
      cases n with
      | zero => exact ⟨false, _, c, by rw [mapLoop, hlen], .inr heof, hlast⟩
      | succ n =>
        refine ⟨true, pmp.next c, c, ?_, .inl rfl, hlast⟩
        rw [mapLoop, if_pos (reserved_of_eof heof), hlen]

/-- The closest entry is one that names a cluster of the file that is not behind the one looked for. -/
theorem fcLookup_names {dep : Denode} (h : CacheCoherent dep l) :
    ∀ fc ∈ fcLookup dep findcn, fc.fc_frcn ≤ findcn ∧ l[fc.fc_frcn]? = some fc.fc_fsrcn := by
  have hcloser (closest : Option FatCache) (fc : FatCache) (hfc : fc.Names l)
      (hclosest : ∀ fc ∈ closest, fc.fc_frcn ≤ findcn ∧ l[fc.fc_frcn]? = some fc.fc_fsrcn) :
      ∀ fc' ∈ fcCloser findcn closest fc, fc'.fc_frcn ≤ findcn ∧ l[fc'.fc_frcn]? = some fc'.fc_fsrcn := by
    unfold fcCloser
    by_cases hin : fc.fc_frcn ≠ FCE_EMPTY ∧ fc.fc_frcn ≤ findcn
    · rw [if_pos hin]
      have hhere : ∀ fc' ∈ some fc, fc'.fc_frcn ≤ findcn ∧ l[fc'.fc_frcn]? = some fc'.fc_fsrcn := by
        rintro _ ⟨⟩
        exact ⟨hin.2, hfc hin.1⟩
      cases closest with
      | none => exact hhere
      | some best =>
        simp only
        split
        · exact hhere
        · exact hclosest
    · rw [if_neg hin]
      exact hclosest
  have hnone : ∀ fc ∈ (none : Option FatCache), fc.fc_frcn ≤ findcn ∧ l[fc.fc_frcn]? = some fc.fc_fsrcn := by
    rintro fc ⟨⟩
  have hfirst := hcloser none (dep.de_fc 0) (h 0) hnone
  have hsecond := hcloser _ (dep.de_fc 1) (h 1) hfirst
  exact hcloser _ (dep.de_fc 2) (h 2) hsecond

@[simp] theorem fcSetcache_self (dep : Denode) (slot : Fin 3) (frcn fsrcn : ℕ) :
    (dep.fcSetcache slot frcn fsrcn).de_fc slot = ⟨frcn, fsrcn⟩ := Function.update_self ..

theorem fcSetcache_of_ne (dep : Denode) {slot slot' : Fin 3} (h : slot' ≠ slot) (frcn fsrcn : ℕ) :
    (dep.fcSetcache slot frcn fsrcn).de_fc slot' = dep.de_fc slot' := Function.update_of_ne h ..

theorem CacheCoherent.fcSetcache {dep : Denode} (h : CacheCoherent dep l) (slot : Fin 3) {frcn fsrcn : ℕ}
    (hnames : FatCache.Names ⟨frcn, fsrcn⟩ l) : CacheCoherent (dep.fcSetcache slot frcn fsrcn) l := by
  intro slot'
  by_cases heq : slot' = slot
  · rw [heq, fcSetcache_self]
    exact hnames
  · rw [fcSetcache_of_ne dep heq]
    exact h slot'

/-- What `pcbmap` leaves in the cache. -/
def mapped (dep : Denode) (l : List ℕ) (findcn : ℕ) : Denode :=
  match l[findcn]? with
  | some cn => dep.fcSetcache FC_LASTMAP findcn cn
  | none => if l = [] then dep else dep.fcSetcache FC_LASTFC (l.length - 1) (l.getLast?.getD 0)

example (dep : Denode) (findcn : ℕ) : mapped dep [] findcn = dep := by simp [mapped]

theorem File.start_ne {dep : Denode} (h : File pmp dep l) (hl : l ≠ []) :
    dep.de_StartCluster ≠ MSDOSFSROOT ∧ l[0]? = some dep.de_StartCluster := by
  obtain ⟨c, l, rfl⟩ := List.exists_cons_of_ne_nil hl
  have hfirst := (h.used c List.mem_cons_self).first
  have hstart := h.start
  simp only [List.head?_cons, Option.getD_some] at hstart
  rw [hstart]
  refine ⟨?_, rfl⟩
  simp only [CLUST_FIRST, MSDOSFSROOT] at *
  omega

/-- `pcbmap` gives what walking the chain gives, wherever the cache lets it start. -/
theorem pcbmap_eq {vol : Volume} {dep : Denode} (hsound : vol.Sound) (h : File vol.toMount dep l)
    (hcache : CacheCoherent dep l) (findcn : ℕ) :
    pcbmap vol dep findcn = (mapped dep l findcn, walkChain l findcn) := by
  obtain rfl | hl := eq_or_ne l []
  · have hstart : dep.de_StartCluster = MSDOSFSROOT := h.start
    have hdir : ¬dep.directory = true := fun hdir => h.not_root ⟨hstart, hdir⟩
    rw [pcbmap, if_pos hstart, if_neg hdir]
    rfl
  obtain ⟨hroot, hzero⟩ := h.start_ne hl
  set first := (fcLookup dep findcn).getD ⟨0, dep.de_StartCluster⟩ with hfirst
  obtain ⟨hle, hnames⟩ : first.fc_frcn ≤ findcn ∧ l[first.fc_frcn]? = some first.fc_fsrcn := by
    cases hlook : fcLookup dep findcn with
    | none =>
      rw [hfirst, hlook]
      exact ⟨Nat.zero_le _, hzero⟩
    | some fc =>
      rw [hfirst, hlook]
      exact fcLookup_names hcache fc hlook
  rw [pcbmap, if_neg hroot, ← hfirst]
  by_cases hin : findcn < l.length
  · obtain ⟨prevcn, cn, hloop, hcn⟩ := mapLoop_inside h.toFileChain hsound hnames
      (show first.fc_frcn + (findcn - first.fc_frcn) < l.length by omega) 0
    rw [show first.fc_frcn + (findcn - first.fc_frcn) = findcn by omega] at hloop hcn
    have hend : ¬(false = true ∨ vol.kind.MSDOSFSEOF cn) := by
      rintro (hf | heof)
      · cases hf
      · exact h.not_reserved hsound hcn (reserved_of_eof heof)
    simp only [hloop]
    rw [if_neg hend, mapped, walkChain, hcn]
  · obtain ⟨hiteof, cn, last, hloop, hend, hlast⟩ := mapLoop_beyond h.toFileChain hsound hnames
      (show l.length ≤ first.fc_frcn + (findcn - first.fc_frcn) by omega) 0
    have hlen := h.length_le
    have hmax := hsound.lt_mask.2
    have hpos := List.length_pos_of_ne_nil hl
    have hnone : l[findcn]? = none := List.getElem?_eq_none (by omega)
    have hprev : (l.length + (2 ^ 32 - 1)) % 2 ^ 32 = l.length - 1 := by omega
    simp only [hloop]
    rw [if_pos hend, mapped, walkChain, hnone, hprev]
    simp only
    rw [if_neg hl, List.getLast?_eq_getElem?, hlast]
    rfl

theorem mapped_coherent {dep : Denode} (h : CacheCoherent dep l) (findcn : ℕ) :
    CacheCoherent (mapped dep l findcn) l := by
  unfold mapped
  split
  next cn hcn => exact h.fcSetcache _ fun _ => hcn
  next =>
    split
    · exact h
    next hl =>
      refine h.fcSetcache _ fun _ => ?_
      have hpos := List.length_pos_of_ne_nil hl
      rw [List.getLast?_eq_getElem?, List.getElem?_eq_getElem (by omega : l.length - 1 < l.length)]
      rfl

@[simp] theorem mapped_start (dep : Denode) (l : List ℕ) (findcn : ℕ) :
    (mapped dep l findcn).de_StartCluster = dep.de_StartCluster := by
  unfold mapped
  split
  · rfl
  · split <;> rfl

@[simp] theorem mapped_directory (dep : Denode) (l : List ℕ) (findcn : ℕ) :
    (mapped dep l findcn).directory = dep.directory := by
  unfold mapped
  split
  · rfl
  · split <;> rfl

end Walk

end OpenbsdKernel.Msdosfs
