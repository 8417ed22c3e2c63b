import OpenbsdKernel.Lib.Bitmap
import Mathlib

/-!
# The inodes of a cylinder group

`ffs_nodealloccg` and `ffs_freefile` of `ufs/ffs/ffs_alloc.c`: the map of inodes in use, its rotor,
and the blocks of inodes that an FFS2 file system initialises one at a time, when they are needed.
-/
namespace OpenbsdKernel.Ffs

open Bitmap

def NBBY : ℕ := 8
def FS_UFS2_MAGIC : ℕ := 0x19540119
def ROOTINO : ℕ := 2

/-- The fields of `struct csum` that are about inodes. -/
structure Csum where
  cs_ndir : ℤ
  cs_nifree : ℤ
  deriving DecidableEq, Repr

/-- What the superblock says about inodes. A block of inodes has whole bytes in the map, and a group
has whole blocks. -/
structure Fs where
  fs_magic : ℕ
  fs_ipg : ℕ
  fs_ncg : ℕ
  fs_inopb : ℕ
  fs_ronly : Bool
  pos : 0 < fs_ipg
  bytes : NBBY ∣ fs_inopb
  blocks : fs_inopb ∣ fs_ipg

/-- The fields of `struct cg` that are about inodes. -/
structure Cg where
  cg_cs : Csum
  cg_irotor : ℕ
  cg_inosused : ℕ → BitVec 8
  cg_initediblk : ℕ
  cg_ffs2_niblk : ℕ

/-- A cylinder group, its summary and that of all groups in the superblock, and the blocks of its
inodes that have been initialised on disk. -/
structure Group where
  cgp : Cg
  fs_cs : Csum
  fs_cstotal : Csum
  inited : ℕ → Bool

inductive Panic
  | mapCorrupted
  | notInMap
  | range
  | freeingFree
  deriving DecidableEq, Repr

def howmany (x y : ℕ) : ℕ := (x + (y - 1)) / y

/-- `skpc`: how many of the `size` bytes from `cp` on are left at the first that is not `mask`. -/
def skpc (mask : BitVec 8) (a : ℕ → BitVec 8) : ℕ → ℕ → ℕ
  | 0, _ => 0
  | size + 1, cp => if a cp = mask then skpc mask a size (cp + 1) else size + 1

/-- The loop over the bits of a byte of the map, from the bit `b` on. -/
def bitLoop (map : BitVec 8) : ℕ → ℕ → Option ℕ
  | 0, _ => none
  | n + 1, b => if map.getLsbD b = false then some b else bitLoop map n (b + 1)

def byteSearch (cgp : Cg) (i : ℕ) : Except Panic ℕ :=
  match bitLoop (cgp.cg_inosused i) NBBY 0 with
  | some b => .ok (i * NBBY + b)
  | none => .error .notInMap

def mapSearch (fs : Fs) (cgp : Cg) : Except Panic ℕ :=
  let start := cgp.cg_irotor / NBBY
  let len := howmany (fs.fs_ipg - cgp.cg_irotor) NBBY
  let loc := skpc 0xff cgp.cg_inosused len start
  if loc = 0 then
    let len := start + 1
    let loc := skpc 0xff cgp.cg_inosused len 0
    if loc = 0 then .error .mapCorrupted else byteSearch cgp (len - loc)
  else byteSearch cgp (start + len - loc)

def chooseInode (fs : Fs) (cgp : Cg) (ipref : ℕ) : Except Panic (ℕ × ℕ) :=
  if ipref ≠ 0 ∧ test cgp.cg_inosused (ipref % fs.fs_ipg) = false then
    .ok (ipref % fs.fs_ipg, cgp.cg_irotor)
  else (mapSearch fs cgp).map fun ipref => (ipref, ipref)

/-- The block, among those for the inodes of a group, that has the inode `x`. -/
def inodeBlock (fs : Fs) (x : ℕ) : ℕ := x % fs.fs_ipg / fs.fs_inopb

/-- The lazy initialisation in front of taking the inode `ipref` of the group `cg`. -/
def initBlock (fs : Fs) (cg ipref : ℕ) (g : Group) : Group :=
  if fs.fs_magic = FS_UFS2_MAGIC ∧ g.cgp.cg_initediblk < ipref + fs.fs_inopb ∧
      g.cgp.cg_initediblk < g.cgp.cg_ffs2_niblk then
    { g with
      cgp := { g.cgp with cg_initediblk := g.cgp.cg_initediblk + fs.fs_inopb }
      inited := Function.update g.inited
        (inodeBlock fs (cg * fs.fs_ipg + g.cgp.cg_initediblk)) true }
  else g

def Csum.take (cs : Csum) (isdir : Bool) : Csum :=
  ⟨if isdir then cs.cs_ndir + 1 else cs.cs_ndir, cs.cs_nifree - 1⟩

def Csum.give (cs : Csum) (isdir : Bool) : Csum :=
  ⟨if isdir then cs.cs_ndir - 1 else cs.cs_ndir, cs.cs_nifree + 1⟩

/-- The bit of the inode `ipref` is set, and the inode counted. -/
def takeInode (ipref : ℕ) (isdir : Bool) (g : Group) : Group :=
  { g with
    cgp := { g.cgp with
      cg_inosused := set g.cgp.cg_inosused ipref
      cg_cs := g.cgp.cg_cs.take isdir }
    fs_cs := g.fs_cs.take isdir
    fs_cstotal := g.fs_cstotal.take isdir }

/-- `ffs_nodealloccg`; `cgread` is whether `ffs_cgread` could read the group. No inode is 0. -/
def ffsNodealloccg (fs : Fs) (cgread : Bool) (cg ipref : ℕ) (isdir : Bool) (g : Group) :
    Except Panic (Group × ℕ) :=
  if g.fs_cs.cs_nifree = 0 then .ok (g, 0)
  else if cgread = false then .ok (g, 0)
  else if g.cgp.cg_cs.cs_nifree = 0 then .ok (g, 0)
  else do
    let (ipref, irotor) ← chooseInode fs g.cgp ipref
    let g := initBlock fs cg ipref { g with cgp := { g.cgp with cg_irotor := irotor } }
    .ok (takeInode ipref isdir g, cg * fs.fs_ipg + ipref)

/-- The bit of the inode `ino` of the group is cleared, and the inode counted. -/
def giveInode (ino : ℕ) (isdir : Bool) (g : Group) : Group :=
  { g with
    cgp := { g.cgp with
      cg_inosused := clear g.cgp.cg_inosused ino
      cg_irotor := if ino < g.cgp.cg_irotor then ino else g.cgp.cg_irotor
      cg_cs := g.cgp.cg_cs.give isdir }
    fs_cs := g.fs_cs.give isdir
    fs_cstotal := g.fs_cstotal.give isdir }

/-- `ffs_freefile` of an inode of the group. -/
def ffsFreefile (fs : Fs) (cgread : Bool) (ino : ℕ) (isdir : Bool) (g : Group) : Except Panic Group :=
  if fs.fs_ipg * fs.fs_ncg ≤ ino then .error .range
  else if cgread = false then .ok g
  else if test g.cgp.cg_inosused (ino % fs.fs_ipg) = false ∧ fs.fs_ronly = false then .error .freeingFree
  else .ok (giveInode (ino % fs.fs_ipg) isdir g)

/-- A group of a file system that has just been made: all inodes are free but the reserved ones of
the first group, and the first blocks of inodes are initialised. -/
structure Made (fs : Fs) (cg : ℕ) (g : Group) : Prop where
  magic : fs.fs_magic = FS_UFS2_MAGIC
  niblk : g.cgp.cg_ffs2_niblk = fs.fs_ipg
  irotor : g.cgp.cg_irotor = 0
  used : ∀ loc < fs.fs_ipg, test g.cgp.cg_inosused loc = decide (cg = 0 ∧ loc < ROOTINO)
  nifree : g.cgp.cg_cs.cs_nifree = fs.fs_ipg - if cg = 0 then ROOTINO else 0
  summary : g.fs_cs.cs_nifree = g.cgp.cg_cs.cs_nifree
  block : fs.fs_inopb ∣ g.cgp.cg_initediblk
  pos : 0 < g.cgp.cg_initediblk
  inited : ∀ b, b * fs.fs_inopb < g.cgp.cg_initediblk → g.inited b = true

/-- What `ffs_nodealloccg` is asked for: any inode, or one that is taken or has been initialised. -/
def Preferable (fs : Fs) (g : Group) (ipref : ℕ) : Prop :=
  ipref = 0 ∨ test g.cgp.cg_inosused (ipref % fs.fs_ipg) = true ∨ ipref % fs.fs_ipg < g.cgp.cg_initediblk

/-- The groups that calls for the inodes of the group `cg` and of other groups lead to. Where the
file system is mounted read-only, nobody frees an inode that is free. -/
inductive Reachable (fs : Fs) (cg : ℕ) : Group → Prop
  | made {g} (h : Made fs cg g) : Reachable fs cg g
  | alloc {g g' cgread ipref isdir ret} (hg : Reachable fs cg g) (hpref : Preferable fs g ipref)
      (h : ffsNodealloccg fs cgread cg ipref isdir g = .ok (g', ret)) : Reachable fs cg g'
  | free {g g' cgread ino isdir} (hg : Reachable fs cg g) (hcg : ino / fs.fs_ipg = cg)
      (hused : fs.fs_ronly = true → test g.cgp.cg_inosused (ino % fs.fs_ipg) = true)
      (h : ffsFreefile fs cgread ino isdir g = .ok g') : Reachable fs cg g'
  | others {g} (hg : Reachable fs cg g) (cs : Csum) : Reachable fs cg { g with fs_cstotal := cs }

/-- The inodes whose bits are clear. -/
def freeInodes (fs : Fs) (g : Group) : Finset ℕ :=
  (Finset.range fs.fs_ipg).filter fun loc => test g.cgp.cg_inosused loc = false

structure Good (fs : Fs) (g : Group) : Prop where
  magic : fs.fs_magic = FS_UFS2_MAGIC
  niblk : g.cgp.cg_ffs2_niblk = fs.fs_ipg
  nifree : g.cgp.cg_cs.cs_nifree = (freeInodes fs g).card
  summary : g.fs_cs.cs_nifree = g.cgp.cg_cs.cs_nifree
  free : ∀ loc, g.cgp.cg_initediblk ≤ loc → loc < fs.fs_ipg → test g.cgp.cg_inosused loc = false
  irotor : g.cgp.cg_irotor ≤ g.cgp.cg_initediblk
  irotor_lt : g.cgp.cg_irotor < fs.fs_ipg
  block : fs.fs_inopb ∣ g.cgp.cg_initediblk
  inited : ∀ b, b * fs.fs_inopb < g.cgp.cg_initediblk → g.inited b = true

section Search

variable {fs : Fs} {cgp : Cg} {a : ℕ → BitVec 8}

theorem Fs.bytes_ipg (fs : Fs) : NBBY ∣ fs.fs_ipg := fs.bytes.trans fs.blocks

theorem Fs.inopb_pos (fs : Fs) : 0 < fs.fs_inopb := Nat.pos_of_dvd_of_pos fs.blocks fs.pos

theorem test_byte (i b : ℕ) (hb : b < NBBY) : test a (i * NBBY + b) = (a i).getLsbD b := by
  simp only [NBBY] at hb ⊢
  rw [test, show (i * 8 + b) / 8 = i by omega, show (i * 8 + b) % 8 = b by omega]

theorem byte_eq_ones_iff (i : ℕ) : a i = 0xff ↔ ∀ b < NBBY, test a (i * NBBY + b) = true := by
  constructor
  · intro h b hb
    rw [test_byte i b hb, h]
    revert b
    decide
  · intro h
    apply BitVec.eq_of_getLsbD_eq
    intro b hb
    have hone : (0xff#8).getLsbD b = true := by
      revert b
      decide
    rw [← test_byte i b hb, h b hb]
    exact hone.symm

theorem skpc_le (mask : BitVec 8) (a : ℕ → BitVec 8) (size cp : ℕ) : skpc mask a size cp ≤ size := by
  induction size generalizing cp with
  | zero => exact le_rfl
  | succ size ih =>
    rw [skpc]
    split
    · exact (ih (cp + 1)).trans (Nat.le_succ size)
    · exact le_rfl

theorem skpc_spec (mask : BitVec 8) (size cp : ℕ) :
    (∀ i, cp ≤ i → i < cp + size - skpc mask a size cp → a i = mask) ∧
      (skpc mask a size cp ≠ 0 → a (cp + size - skpc mask a size cp) ≠ mask) := by
  induction size generalizing cp with
  | zero => exact ⟨fun i hlo hhi => absurd hhi (by omega), fun hne => absurd rfl hne⟩
  | succ size ih =>
    rw [skpc]
    have hle := skpc_le mask a size (cp + 1)
    by_cases hcp : a cp = mask
    · rw [if_pos hcp]
      obtain ⟨hskip, hstop⟩ := ih (cp + 1)
      have hpos : cp + (size + 1) - skpc mask a size (cp + 1) = cp + 1 + size - skpc mask a size (cp + 1) := by
        omega
      rw [hpos]
      refine ⟨fun i hlo hhi => ?_, hstop⟩
      obtain rfl | hlt := Nat.eq_or_lt_of_le hlo
      · exact hcp
      · exact hskip i hlt hhi
    · rw [if_neg hcp]
      refine ⟨fun i hlo hhi => absurd hhi (by omega), fun _ => ?_⟩
      rw [show cp + (size + 1) - (size + 1) = cp by omega]
      exact hcp

theorem bitLoop_spec {map : BitVec 8} {n b : ℕ} (h : ∃ c, b ≤ c ∧ c < b + n ∧ map.getLsbD c = false) :
    ∃ c, bitLoop map n b = some c ∧ b ≤ c ∧ c < b + n ∧ map.getLsbD c = false ∧
      ∀ d, b ≤ d → d < c → map.getLsbD d = true := by
  induction n generalizing b with
  | zero =>
    obtain ⟨c, hlo, hhi, -⟩ := h
    omega
  | succ n ih =>
    rw [bitLoop]
    by_cases hb : map.getLsbD b = false
    · exact ⟨b, if_pos hb, le_rfl, by omega, hb, fun d hlo hhi => absurd hhi (by omega)⟩
    · obtain ⟨c, hlo, hhi, hc⟩ := h
      have hne : b ≠ c := by
        rintro rfl
        exact hb hc
      obtain ⟨d, hloop, hlo', hhi', hd, hbelow⟩ := @ih (b + 1) ⟨c, by omega, by omega, hc⟩
      refine ⟨d, (if_neg hb).trans hloop, by omega, by omega, hd, fun e hlo hhi => ?_⟩
      obtain rfl | hlt := Nat.eq_or_lt_of_le hlo
      · exact Bool.not_eq_false _ ▸ hb
      · exact hbelow e hlt hhi

theorem byteSearch_spec {i : ℕ} (h : cgp.cg_inosused i ≠ 0xff) :
    ∃ loc, byteSearch cgp i = .ok loc ∧ i * NBBY ≤ loc ∧ loc < (i + 1) * NBBY ∧
      test cgp.cg_inosused loc = false ∧
      ∀ c, i * NBBY ≤ c → c < loc → test cgp.cg_inosused c = true := by
  have hclear : ∃ c, 0 ≤ c ∧ c < 0 + NBBY ∧ (cgp.cg_inosused i).getLsbD c = false := by
    by_contra hnone
    refine h ((byte_eq_ones_iff i).2 fun b hb => ?_)
    rw [test_byte i b hb]
    by_contra hbit
    exact hnone ⟨b, Nat.zero_le b, by omega, Bool.eq_false_iff.2 hbit⟩
  obtain ⟨b, hloop, -, hb, hbit, hbelow⟩ := bitLoop_spec hclear
  rw [Nat.zero_add] at hb
  refine ⟨i * NBBY + b, ?_, by omega, by rw [Nat.succ_mul]; omega, ?_, fun c hlo hhi => ?_⟩
  · rw [byteSearch, hloop]
  · rw [test_byte i b hb]
    exact hbit
  · have hc := test_byte (a := cgp.cg_inosused) i (c - i * NBBY) (by omega)
    rw [show i * NBBY + (c - i * NBBY) = c by omega] at hc
    rw [hc]
    exact hbelow _ (Nat.zero_le _) (by omega)

theorem test_of_ones {lo hi c : ℕ} (h : ∀ i, lo ≤ i → i < hi → a i = 0xff) (hlo : lo ≤ c / NBBY)
    (hhi : c / NBBY < hi) : test a c = true := by
  have hc := (byte_eq_ones_iff (c / NBBY)).1 (h _ hlo hhi) (c % NBBY) (Nat.mod_lt _ (by decide))
  rwa [Nat.div_add_mod'] at hc

theorem mapSearch_spec (hrotor : cgp.cg_irotor < fs.fs_ipg)
    (hfree : ∃ c < fs.fs_ipg, test cgp.cg_inosused c = false) :
    ∃ loc, mapSearch fs cgp = .ok loc ∧ loc < fs.fs_ipg ∧ test cgp.cg_inosused loc = false ∧
      ∀ c, cgp.cg_irotor ≤ c → c < fs.fs_ipg → test cgp.cg_inosused c = false → loc ≤ c := by
  obtain ⟨n, hn⟩ := fs.bytes_ipg
  simp only [NBBY] at hn
  have hstart : cgp.cg_irotor / NBBY < n := by
    simp only [NBBY]
    omega
  have hlen : cgp.cg_irotor / NBBY + howmany (fs.fs_ipg - cgp.cg_irotor) NBBY = n := by
    simp only [howmany, NBBY]
    omega
  rw [mapSearch]
  set start := cgp.cg_irotor / NBBY with hdef
  set len := howmany (fs.fs_ipg - cgp.cg_irotor) NBBY
  have hrotor_le {c : ℕ} (hc : cgp.cg_irotor ≤ c) : start ≤ c / NBBY := Nat.div_le_div_right hc
  have hbyte_lt {c : ℕ} (hc : c < fs.fs_ipg) : c / NBBY < n := by
    simp only [NBBY]
    omega
  have hin {j loc : ℕ} (hj : j < n) (hloc : loc < (j + 1) * NBBY) : loc < fs.fs_ipg := by
    simp only [NBBY] at hloc
    omega
  obtain ⟨hskip, hstop⟩ := @skpc_spec cgp.cg_inosused 0xff len start
  rw [hlen] at hskip hstop
  have hle := skpc_le 0xff cgp.cg_inosused len start
  by_cases hloc : skpc 0xff cgp.cg_inosused len start = 0
  · -- no inode from the byte of the rotor on is free
    rw [hloc, Nat.sub_zero] at hskip
    have hused {c : ℕ} (hlo : start ≤ c / NBBY) (hhi : c < fs.fs_ipg) : test cgp.cg_inosused c = true :=
      test_of_ones hskip hlo (hbyte_lt hhi)
    obtain ⟨hskip₂, hstop₂⟩ := @skpc_spec cgp.cg_inosused 0xff (start + 1) 0
    rw [Nat.zero_add] at hskip₂ hstop₂
    have hle₂ := skpc_le 0xff cgp.cg_inosused (start + 1) 0
    obtain ⟨c, hc, hbit⟩ := hfree
    have hbelow : c / NBBY < start := by
      by_contra hge
      rw [hused (not_lt.1 hge) hc] at hbit
      cases hbit
    have hloc₂ : skpc 0xff cgp.cg_inosused (start + 1) 0 ≠ 0 := by
      intro hzero
      rw [hzero, Nat.sub_zero] at hskip₂
      rw [test_of_ones hskip₂ (Nat.zero_le _) (by omega)] at hbit
      cases hbit
    obtain ⟨loc, hsearch, -, hhi, hclear, -⟩ := byteSearch_spec (hstop₂ hloc₂)
    refine ⟨loc, ?_, hin (by omega) hhi, hclear, fun d hd hlt hfree => ?_⟩
    · rw [if_pos hloc]
      dsimp only
      rw [if_neg hloc₂]
      exact hsearch
    · rw [hused (hrotor_le hd) hlt] at hfree
      cases hfree
  · obtain ⟨loc, hsearch, hlo, hhi, hclear, hbelow⟩ := byteSearch_spec (hstop hloc)
    refine ⟨loc, ?_, hin (by omega) hhi, hclear, fun d hd hlt hfree => ?_⟩
    · rw [if_neg hloc, hlen]
      exact hsearch
    · by_contra hgt
      by_cases hbyte : (n - skpc 0xff cgp.cg_inosused len start) * NBBY ≤ d
      · rw [hbelow d hbyte (not_le.1 hgt)] at hfree
        cases hfree
      · have hskipped : test cgp.cg_inosused d = true :=
          test_of_ones hskip (hrotor_le hd) (Nat.div_lt_of_lt_mul (by rw [Nat.mul_comm]; omega))
        rw [hskipped] at hfree
        cases hfree

end Search

section Kept

variable {fs : Fs} {g g' : Group} {cg loc irotor ipref : ℕ} {isdir : Bool}

theorem mem_freeInodes : loc ∈ freeInodes fs g ↔ loc < fs.fs_ipg ∧ test g.cgp.cg_inosused loc = false := by
  rw [freeInodes, Finset.mem_filter, Finset.mem_range]

theorem Made.good (h : Made fs cg g) : Good fs g := by
  have hpos : ROOTINO ≤ fs.fs_inopb := by
    have := Nat.le_of_dvd fs.inopb_pos fs.bytes
    simp only [ROOTINO, NBBY] at *
    omega
  have hipg : fs.fs_inopb ≤ fs.fs_ipg := Nat.le_of_dvd fs.pos fs.blocks
  have hinited : fs.fs_inopb ≤ g.cgp.cg_initediblk := Nat.le_of_dvd h.pos h.block
  refine ⟨h.magic, h.niblk, ?_, h.summary, fun loc hlo hhi => ?_, ?_, ?_, h.block, h.inited⟩
  · have hcard : (freeInodes fs g).card = fs.fs_ipg - if cg = 0 then ROOTINO else 0 := by
      have heq : freeInodes fs g = Finset.Ico (if cg = 0 then ROOTINO else 0) fs.fs_ipg := by
        ext loc
        rw [mem_freeInodes, Finset.mem_Ico]
        by_cases hloc : loc < fs.fs_ipg
        · rw [h.used loc hloc, decide_eq_false_iff_not]
          split <;> omega
        · omega
      rw [heq, Nat.card_Ico]
    rw [h.nifree, hcard]
    split <;> omega
  · rw [h.used loc hhi, decide_eq_false_iff_not]
    omega
  · rw [h.irotor]
    exact Nat.zero_le _
  · rw [h.irotor]
    exact fs.pos

/-- The inode that is chosen is free, and not behind the blocks that are initialised by more than the
one that comes next. -/
theorem Good.chooseInode (h : Good fs g) (hpref : Preferable fs g ipref) (hfree : (freeInodes fs g).Nonempty) :
    ∃ loc irotor, chooseInode fs g.cgp ipref = .ok (loc, irotor) ∧ loc ∈ freeInodes fs g ∧
      loc ≤ g.cgp.cg_initediblk ∧ irotor ≤ g.cgp.cg_initediblk ∧ irotor < fs.fs_ipg := by
  rw [Ffs.chooseInode]
  by_cases hpreferred : ipref ≠ 0 ∧ test g.cgp.cg_inosused (ipref % fs.fs_ipg) = false
  · obtain ⟨hne, hclear⟩ := hpreferred
    have hlt : ipref % fs.fs_ipg < g.cgp.cg_initediblk := by
      rcases hpref with hzero | hset | hlt
      · exact absurd hzero hne
      · rw [hset] at hclear
        cases hclear
      · exact hlt
    exact ⟨_, _, if_pos ⟨hne, hclear⟩, mem_freeInodes.2 ⟨Nat.mod_lt _ fs.pos, hclear⟩, hlt.le, h.irotor,
      h.irotor_lt⟩
  · rw [if_neg hpreferred]
    obtain ⟨c, hc⟩ := hfree
    obtain ⟨loc, hsearch, hloc, hclear, hfirst⟩ := mapSearch_spec h.irotor_lt ⟨c, mem_freeInodes.1 hc⟩
    -- the first inode that is not initialised is free, and the rotor is not behind it
    have hle : loc ≤ g.cgp.cg_initediblk := by
      by_cases hend : g.cgp.cg_initediblk < fs.fs_ipg
      · exact hfirst _ h.irotor hend (h.free _ le_rfl hend)
      · omega
    refine ⟨loc, loc, ?_, mem_freeInodes.2 ⟨hloc, hclear⟩, hle, hle, hloc⟩
    rw [hsearch]
    rfl

/-- What the lazy initialisation comes to in front of taking an inode. -/
structure Initialised (fs : Fs) (loc : ℕ) (g g' : Group) : Prop where
  cs : g'.cgp.cg_cs = g.cgp.cg_cs
  inosused : g'.cgp.cg_inosused = g.cgp.cg_inosused
  irotor : g'.cgp.cg_irotor = g.cgp.cg_irotor
  niblk : g'.cgp.cg_ffs2_niblk = g.cgp.cg_ffs2_niblk
  summary : g'.fs_cs = g.fs_cs
  le : g.cgp.cg_initediblk ≤ g'.cgp.cg_initediblk
  lt : loc < g'.cgp.cg_initediblk
  block : fs.fs_inopb ∣ g'.cgp.cg_initediblk
  inited : ∀ b, b * fs.fs_inopb < g'.cgp.cg_initediblk → g'.inited b = true

theorem initialised_initBlock (hmagic : fs.fs_magic = FS_UFS2_MAGIC) (hniblk : g.cgp.cg_ffs2_niblk = fs.fs_ipg)
    (hblock : fs.fs_inopb ∣ g.cgp.cg_initediblk)
    (hinited : ∀ b, b * fs.fs_inopb < g.cgp.cg_initediblk → g.inited b = true)
    (hle : loc ≤ g.cgp.cg_initediblk) (hloc : loc < fs.fs_ipg) (cg : ℕ) :
    Initialised fs loc g (initBlock fs cg loc g) := by
  have hpos := fs.inopb_pos
  rw [initBlock]
  split
  · next hinit =>
    obtain ⟨-, -, hend⟩ := hinit
    rw [hniblk] at hend
    refine ⟨rfl, rfl, rfl, rfl, rfl, Nat.le_add_right _ _, ?_, (Nat.dvd_add_self_right).2 hblock, fun b hb => ?_⟩
    · exact Nat.lt_of_le_of_lt hle (Nat.lt_add_of_pos_right hpos)
    · have hnew : inodeBlock fs (cg * fs.fs_ipg + g.cgp.cg_initediblk) = g.cgp.cg_initediblk / fs.fs_inopb := by
        rw [inodeBlock, Nat.mul_add_mod_of_lt hend]
      change Function.update g.inited _ true b = true
      rw [hnew]
      by_cases heq : b = g.cgp.cg_initediblk / fs.fs_inopb
      · rw [heq, Function.update_self]
      · rw [Function.update_of_ne heq]
        refine hinited b ?_
        obtain ⟨k, hk⟩ := hblock
        rw [hk, Nat.mul_div_cancel_left k hpos] at heq
        change b * fs.fs_inopb < g.cgp.cg_initediblk + fs.fs_inopb at hb
        rw [hk, Nat.mul_comm fs.fs_inopb, ← Nat.succ_mul] at hb
        have := Nat.lt_of_mul_lt_mul_right hb
        rw [hk, Nat.mul_comm fs.fs_inopb]
        exact Nat.mul_lt_mul_of_pos_right (by omega) hpos
  · next hinit =>
    refine ⟨rfl, rfl, rfl, rfl, rfl, le_rfl, ?_, hblock, hinited⟩
    by_contra hge
    refine hinit ⟨hmagic, ?_, ?_⟩
    · omega
    · rw [hniblk]
      omega

theorem freeInodes_take (loc : ℕ) (isdir : Bool) (g : Group) :
    freeInodes fs (takeInode loc isdir g) = (freeInodes fs g).erase loc := by
  ext c
  rw [Finset.mem_erase, mem_freeInodes, mem_freeInodes]
  change c < fs.fs_ipg ∧ test (set g.cgp.cg_inosused loc) c = false ↔ _
  rw [test_set (by decide), Bool.or_eq_false_iff, decide_eq_false_iff_not]
  exact ⟨fun h => ⟨h.2.2, h.1, h.2.1⟩, fun h => ⟨h.2.1, h.2.2, h.1⟩⟩

theorem freeInodes_give (hloc : loc < fs.fs_ipg) (isdir : Bool) (g : Group) :
    freeInodes fs (giveInode loc isdir g) = insert loc (freeInodes fs g) := by
  ext c
  rw [Finset.mem_insert, mem_freeInodes, mem_freeInodes]
  change c < fs.fs_ipg ∧ test (clear g.cgp.cg_inosused loc) c = false ↔ _
  rw [test_clear (by decide), Bool.and_eq_false_iff, decide_eq_false_iff_not, not_not]
  constructor
  · rintro ⟨hc, hbit | heq⟩
    · exact .inr ⟨hc, hbit⟩
    · exact .inl heq
  · rintro (rfl | ⟨hc, hbit⟩)
    · exact ⟨hloc, .inr rfl⟩
    · exact ⟨hc, .inl hbit⟩

theorem Good.take (h : Good fs g) (hinit : Initialised fs loc { g with cgp := { g.cgp with cg_irotor := irotor } } g')
    (hfree : loc ∈ freeInodes fs g) (hrotor : irotor ≤ g.cgp.cg_initediblk) (hlt : irotor < fs.fs_ipg)
    (isdir : Bool) : Good fs (takeInode loc isdir g') := by
  have hsame : freeInodes fs g' = freeInodes fs g := by
    ext c
    rw [mem_freeInodes, mem_freeInodes, hinit.inosused]
  have hle := hinit.le
  refine ⟨h.magic, hinit.niblk.trans h.niblk, ?_, ?_, fun c hlo hhi => ?_, ?_, ?_, hinit.block, hinit.inited⟩
  · have hcard := Finset.card_erase_add_one hfree
    rw [freeInodes_take, hsame]
    change g'.cgp.cg_cs.cs_nifree - 1 = _
    rw [hinit.cs]
    change g.cgp.cg_cs.cs_nifree - 1 = _
    rw [h.nifree, ← hcard]
    push_cast
    exact add_sub_cancel_right _ _
  · change g'.fs_cs.cs_nifree - 1 = g'.cgp.cg_cs.cs_nifree - 1
    rw [hinit.cs, hinit.summary]
    exact congrArg (· - 1) h.summary
  · change g'.cgp.cg_initediblk ≤ c at hlo
    change test (set g'.cgp.cg_inosused loc) c = false
    rw [test_set (by decide), hinit.inosused, decide_eq_false fun heq => ?_, Bool.or_false]
    · exact h.free c (hle.trans hlo) hhi
    · have := hinit.lt
      omega
  · change g'.cgp.cg_irotor ≤ g'.cgp.cg_initediblk
    rw [hinit.irotor]
    exact hrotor.trans hle
  · change g'.cgp.cg_irotor < fs.fs_ipg
    rw [hinit.irotor]
    exact hlt

theorem Good.give (h : Good fs g) (hloc : loc < fs.fs_ipg) (hused : test g.cgp.cg_inosused loc = true)
    (isdir : Bool) : Good fs (giveInode loc isdir g) := by
  have hmem : loc ∉ freeInodes fs g := fun hmem => by
    rw [(mem_freeInodes.1 hmem).2] at hused
    cases hused
  refine ⟨h.magic, h.niblk, ?_, congrArg (· + 1) h.summary, fun c hlo hhi => ?_, ?_, ?_, h.block, h.inited⟩
  · rw [freeInodes_give hloc, Finset.card_insert_of_notMem hmem]
    push_cast
    exact congrArg (· + 1) h.nifree
  · change test (clear g.cgp.cg_inosused loc) c = false
    rw [test_clear (by decide), h.free c hlo hhi, Bool.false_and]
  · change (if loc < g.cgp.cg_irotor then loc else g.cgp.cg_irotor) ≤ g.cgp.cg_initediblk
    have := h.irotor
    split <;> omega
  · change (if loc < g.cgp.cg_irotor then loc else g.cgp.cg_irotor) < fs.fs_ipg
    have := h.irotor_lt
    split <;> omega

/-- The outcomes of `ffs_nodealloccg`: nothing, where the group cannot be read or has no inode, or a
free inode whose block is initialised. -/
theorem Good.alloc (h : Good fs g) (hpref : Preferable fs g ipref) (cgread : Bool) (cg : ℕ) (isdir : Bool) :
    ((g.cgp.cg_cs.cs_nifree = 0 ∨ cgread = false) ∧ ffsNodealloccg fs cgread cg ipref isdir g = .ok (g, 0)) ∨
      ∃ loc g', ffsNodealloccg fs cgread cg ipref isdir g = .ok (g', cg * fs.fs_ipg + loc) ∧ Good fs g' ∧
        loc ∈ freeInodes fs g ∧ loc < g'.cgp.cg_initediblk ∧ test g'.cgp.cg_inosused loc = true := by
  rw [ffsNodealloccg, h.summary]
  by_cases hnone : g.cgp.cg_cs.cs_nifree = 0
  · exact .inl ⟨.inl hnone, if_pos hnone⟩
  · rw [if_neg hnone]
    cases cgread with
    | false => exact .inl ⟨.inr rfl, rfl⟩
    | true =>
      have hfree : (freeInodes fs g).Nonempty := by
        rw [Finset.nonempty_iff_ne_empty]
        intro hempty
        rw [h.nifree, hempty] at hnone
        exact hnone rfl
      obtain ⟨loc, irotor, hchoose, hloc, hle, hrotor, hlt⟩ := h.chooseInode hpref hfree
      have hinit := @initialised_initBlock fs { g with cgp := { g.cgp with cg_irotor := irotor } } loc h.magic
        h.niblk h.block h.inited hle (mem_freeInodes.1 hloc).1 cg
      refine .inr ⟨loc, _, ?_, h.take hinit hloc hrotor hlt isdir, hloc, hinit.lt, ?_⟩
      · rw [if_neg (by decide), if_neg hnone, hchoose]
        rfl
      · exact (test_set (by decide) _ _ _).trans (by rw [decide_eq_true rfl, Bool.or_true])

theorem Reachable.good (h : Reachable fs cg g) : Good fs g := by
  induction h with
  | made hmade => exact hmade.good
  | @alloc g g' cgread ipref isdir ret hg hpref hcall ih =>
    rcases ih.alloc hpref cgread cg isdir with ⟨-, hnone⟩ | ⟨loc, g'', hsome, hgood, -⟩
    · rw [hnone] at hcall
      cases hcall
      exact ih
    · rw [hsome] at hcall
      cases hcall
      exact hgood
  | @free g g' cgread ino isdir hg hcg hused hcall ih =>
    rw [ffsFreefile] at hcall
    split at hcall
    · cases hcall
    · split at hcall
      · cases hcall
        exact ih
      · split at hcall
        · cases hcall
        · next hfree =>
          cases hcall
          refine ih.give (Nat.mod_lt _ fs.pos) ?_ isdir
          -- a free inode is not freed where the file system may be written, for that is a panic
          by_contra hclear
          refine hfree ⟨Bool.eq_false_iff.2 hclear, ?_⟩
          by_contra hronly
          exact hclear (hused (Bool.not_eq_false _ ▸ hronly))
  | others hg cs ih => exact ⟨ih.magic, ih.niblk, ih.nifree, ih.summary, ih.free, ih.irotor, ih.irotor_lt,
      ih.block, ih.inited⟩

end Kept

/-- In a group that calls have led to, the count is that of the clear bits, and the inodes that are
not initialised are free and not in front of the rotor; a call that can read the group takes a free
inode as long as there is one, in a block that is initialised. -/
theorem reachable_nodealloccg (fs : Fs) (cg : ℕ) {g : Group} (h : Reachable fs cg g) :
    g.cgp.cg_cs.cs_nifree = (freeInodes fs g).card ∧
    (∀ loc, g.cgp.cg_initediblk ≤ loc → loc < fs.fs_ipg → test g.cgp.cg_inosused loc = false) ∧
    g.cgp.cg_irotor ≤ g.cgp.cg_initediblk ∧
    ∀ ipref isdir, Preferable fs g ipref → 0 < g.cgp.cg_cs.cs_nifree →
      ∃ loc g', ffsNodealloccg fs true cg ipref isdir g = .ok (g', cg * fs.fs_ipg + loc) ∧
        loc ∈ freeInodes fs g ∧ loc < g'.cgp.cg_initediblk ∧ g'.inited (loc / fs.fs_inopb) = true := by
  have hgood := h.good
  refine ⟨hgood.nifree, hgood.free, hgood.irotor, fun ipref isdir hpref hpos => ?_⟩
  rcases hgood.alloc hpref true cg isdir with ⟨hzero | hread, -⟩ | ⟨loc, g', hcall, hgood', hfree, hlt, -⟩
  · omega
  · cases hread
  · refine ⟨loc, g', hcall, hfree, hlt, hgood'.inited _ ?_⟩
    exact (Nat.div_mul_le_self loc fs.fs_inopb).trans_lt hlt

/-- A file system of two groups with a block of inodes each. -/
def oneBlock (fs_ronly : Bool) : Fs := ⟨FS_UFS2_MAGIC, 16, 2, 16, fs_ronly, Nat.succ_pos 15, by decide, by decide⟩

/-- Its second group as it is made. -/
def unused : Group := ⟨⟨⟨0, 16⟩, 0, fun _ => 0, 16, 16⟩, ⟨0, 16⟩, ⟨0, 32⟩, fun _ => true⟩

theorem made_unused {fs_ronly : Bool} : Made (oneBlock fs_ronly) 1 unused where
  magic := rfl
  niblk := rfl
  irotor := rfl
  used loc hloc := by
    change loc < 16 at hloc
    revert loc
    decide
  nifree := rfl
  summary := rfl
  block := by
    change 16 ∣ 16
    decide
  pos := by decide
  inited _ _ := rfl

def twoBlocks : Fs := ⟨FS_UFS2_MAGIC, 32, 2, 16, false, Nat.succ_pos 31, by decide, by decide⟩

def firstGroup : Group :=
  ⟨⟨⟨0, 30⟩, 0, fun b => if b = 0 then 3 else 0, 16, 32⟩, ⟨0, 30⟩, ⟨0, 62⟩, fun b => decide (b = 0)⟩

theorem made_firstGroup : Made twoBlocks 0 firstGroup where
  magic := rfl
  niblk := rfl
  irotor := rfl
  used loc hloc := by
    change loc < 32 at hloc
    revert loc
    decide
  nifree := rfl
  summary := rfl
  block := by
    change 16 ∣ 16
    decide
  pos := by decide
  inited b hb := by
    change b * 16 < 16 at hb
    exact decide_eq_true (by omega)

/-- One inode is taken, and then another one. -/
theorem reachable_nodealloccg_firstGroup : ∃ g₁ loc g',
    ffsNodealloccg twoBlocks true 0 0 true firstGroup = .ok (g₁, 2) ∧
      g₁.cgp.cg_cs.cs_nifree = (freeInodes twoBlocks g₁).card ∧
      ffsNodealloccg twoBlocks true 0 2 false g₁ = .ok (g', 0 * 32 + loc) ∧
      loc ∈ freeInodes twoBlocks g₁ ∧ loc < g'.cgp.cg_initediblk := by
  obtain ⟨g₁, hcall₁⟩ : ∃ g₁, ffsNodealloccg twoBlocks true 0 0 true firstGroup = .ok (g₁, 2) := ⟨_, rfl⟩
  have hreach : Reachable twoBlocks 0 g₁ := .alloc (.made made_firstGroup) (.inl rfl) hcall₁
  obtain ⟨hcount, -, -, halloc⟩ := reachable_nodealloccg twoBlocks 0 hreach
  cases hcall₁
  obtain ⟨loc, g', hcall, hfree, hlt, -⟩ := halloc 2 false (.inr (.inl (by decide))) (by decide)
  exact ⟨_, loc, g', rfl, hcount, hcall, hfree, hlt⟩

/-- On a file system that is mounted read-only freeing a free inode is only complained about, and the
count is that of the clear bits no more; a group that cannot be read gives no inode. -/
theorem freefile_readonly : Made (oneBlock true) 1 unused ∧
    (∃ g', ffsFreefile (oneBlock true) true 16 false unused = .ok g' ∧
      g'.cgp.cg_cs.cs_nifree = 17 ∧ (freeInodes (oneBlock true) g').card = 16) ∧
    0 < unused.cgp.cg_cs.cs_nifree ∧ ffsNodealloccg (oneBlock false) false 1 0 false unused = .ok (unused, 0) :=
  ⟨made_unused, ⟨_, rfl, rfl, by decide⟩, by decide, rfl⟩

end OpenbsdKernel.Ffs
