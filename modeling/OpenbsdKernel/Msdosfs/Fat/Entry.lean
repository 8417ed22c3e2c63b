import OpenbsdKernel.Lib.Bitmap

/-!
# Entries of a FAT

The three kinds of FAT of `msdosfs`, their entries, and how an entry is read and written. A FAT is
its bytes; what is kept in one block or another, and in one copy of the FAT or another, is not
modelled.
-/
namespace OpenbsdKernel.Msdosfs

open Bitmap

/-- The file system by its `pm_fatmask`. -/
inductive FatKind
  | fat12
  | fat16
  | fat32
  deriving DecidableEq, Repr

namespace FatKind

def pm_fatmask : FatKind → BitVec 32
  | fat12 => 0x00000fff
  | fat16 => 0x0000ffff
  | fat32 => 0x0fffffff

def pm_fatmult : FatKind → ℕ
  | fat12 => 3
  | fat16 => 2
  | fat32 => 4

def pm_fatdiv : FatKind → ℕ
  | fat12 => 2
  | _ => 1

def FATOFS (kind : FatKind) (cn : ℕ) : ℕ := cn * kind.pm_fatmult / kind.pm_fatdiv

/-- The bits of an entry, and those of them that are the cluster number. -/
def width : FatKind → ℕ
  | fat12 => 12
  | fat16 => 16
  | fat32 => 32

def bits : FatKind → ℕ
  | fat12 => 12
  | fat16 => 16
  | fat32 => 28

end FatKind

abbrev Fat := ℕ → BitVec 8

def getushort (m : Fat) (o : ℕ) : BitVec 32 := (m o).setWidth 32 ||| (m (o + 1)).setWidth 32 <<< 8

def getulong (m : Fat) (o : ℕ) : BitVec 32 :=
  (m o).setWidth 32 ||| (m (o + 1)).setWidth 32 <<< 8 ||| (m (o + 2)).setWidth 32 <<< 16 |||
    (m (o + 3)).setWidth 32 <<< 24

def putushort (m : Fat) (o : ℕ) (v : BitVec 32) : Fat :=
  Function.update (Function.update m o (v.setWidth 8)) (o + 1) ((v >>> 8).setWidth 8)

def putulong (m : Fat) (o : ℕ) (v : BitVec 32) : Fat :=
  putushort (putushort m o v) (o + 2) (v >>> 16)

/-- An entry as `fatentry` and `fillinusemap` read it. -/
def fatEntry (kind : FatKind) (m : Fat) (cn : ℕ) : BitVec 32 :=
  let bo := kind.FATOFS cn
  let readcn := if kind = .fat32 then getulong m bo else getushort m bo
  let readcn := if kind = .fat12 ∧ cn % 2 = 1 then readcn >>> 4 else readcn
  readcn &&& kind.pm_fatmask

/-- An entry as it is written; `odd` is whether the cluster number is. -/
def putEntry (kind : FatKind) (odd : Bool) (m : Fat) (bo : ℕ) (newc : BitVec 32) : Fat :=
  match kind with
  | .fat12 =>
    let readcn := getushort m bo
    putushort m bo (if odd then (readcn &&& 0x000f#32) ||| newc <<< 4
      else (readcn &&& 0xf000#32) ||| (newc &&& 0xfff#32))
  | .fat16 => putushort m bo newc
  | .fat32 =>
    putulong m bo ((getulong m bo &&& ~~~kind.pm_fatmask) ||| (newc &&& kind.pm_fatmask))

theorem getLsbD_getushort (m : Fat) (o i : ℕ) :
    (getushort m o).getLsbD i = (decide (i < 16) && test m (8 * o + i)) := by
  have hdiv : (8 * o + i) / 8 = o + i / 8 := by omega
  have hmod : (8 * o + i) % 8 = i % 8 := by omega
  rw [getushort, test, hdiv, hmod, BitVec.getLsbD_or, BitVec.getLsbD_shiftLeft, BitVec.getLsbD_setWidth,
    BitVec.getLsbD_setWidth]
  by_cases h1 : i < 8
  · rw [Nat.div_eq_of_lt h1, Nat.mod_eq_of_lt h1]
    simp [h1, show i < 16 by omega, show i < 32 by omega]
  · by_cases h2 : i < 16
    · rw [show i / 8 = 1 by omega, show i % 8 = i - 8 by omega]
      simp [h1, h2, show i < 32 by omega, show i - 8 < 32 by omega, BitVec.getLsbD_of_ge (m o) i (by omega)]
    · simp [h2, BitVec.getLsbD_of_ge (m o) i (by omega), BitVec.getLsbD_of_ge (m (o + 1)) (i - 8) (by omega)]

theorem test_putushort (m : Fat) (o : ℕ) (v : BitVec 32) (k : ℕ) :
    test (putushort m o v) k = if 8 * o ≤ k ∧ k < 8 * o + 16 then v.getLsbD (k - 8 * o) else test m k := by
  rw [putushort, test, test]
  by_cases h1 : k / 8 = o + 1
  · have hk : k - 8 * o = 8 + k % 8 := by omega
    rw [h1, Function.update_self, if_pos (by omega), hk, BitVec.getLsbD_setWidth, BitVec.getLsbD_ushiftRight]
    simp [show k % 8 < 8 by omega]
  · rw [Function.update_of_ne h1]
    by_cases h2 : k / 8 = o
    · have hk : k - 8 * o = k % 8 := by omega
      rw [h2, Function.update_self, if_pos (by omega), hk, BitVec.getLsbD_setWidth]
      simp [show k % 8 < 8 by omega]
    · rw [Function.update_of_ne h2, if_neg (by omega)]

theorem getLsbD_getulong (m : Fat) (o i : ℕ) :
    (getulong m o).getLsbD i = (decide (i < 32) && test m (8 * o + i)) := by
  have hsplit : getulong m o = getushort m o ||| getushort m (o + 2) <<< 16 := by
    rw [getulong, getushort, getushort, BitVec.shiftLeft_or_distrib, ← BitVec.shiftLeft_add, BitVec.or_assoc,
      BitVec.or_assoc]
  rw [hsplit, BitVec.getLsbD_or, BitVec.getLsbD_shiftLeft, getLsbD_getushort, getLsbD_getushort]
  by_cases h1 : i < 16
  · simp [h1, show i < 32 by omega]
  · by_cases h2 : i < 32
    · rw [show 8 * (o + 2) + (i - 16) = 8 * o + i by omega]
      simp [h1, h2, show i - 16 < 16 by omega]
    · simp [h1, h2]

theorem test_putulong (m : Fat) (o : ℕ) (v : BitVec 32) (k : ℕ) :
    test (putulong m o v) k = if 8 * o ≤ k ∧ k < 8 * o + 32 then v.getLsbD (k - 8 * o) else test m k := by
  rw [putulong, test_putushort, test_putushort]
  by_cases h1 : 8 * (o + 2) ≤ k ∧ k < 8 * (o + 2) + 16
  · rw [if_pos h1, if_pos (by omega), BitVec.getLsbD_ushiftRight, show 16 + (k - 8 * (o + 2)) = k - 8 * o by omega]
  · rw [if_neg h1]
    by_cases h2 : 8 * o ≤ k ∧ k < 8 * o + 16
    · rw [if_pos h2, if_pos (by omega)]
    · rw [if_neg h2, if_neg (by omega)]

theorem getLsbD_fatmask (kind : FatKind) (i : ℕ) : kind.pm_fatmask.getLsbD i = decide (i < kind.bits) := by
  by_cases hi : i < 32
  · revert i
    cases kind <;> decide
  · rw [BitVec.getLsbD_of_ge _ i (by omega), eq_comm, decide_eq_false_iff_not]
    cases kind <;> simp only [FatKind.bits] <;> omega

/-- An entry is so many bits of the FAT. -/
theorem getLsbD_fatEntry (kind : FatKind) (m : Fat) (cn i : ℕ) :
    (fatEntry kind m cn).getLsbD i = (decide (i < kind.bits) && test m (kind.width * cn + i)) := by
  rw [fatEntry, BitVec.getLsbD_and, getLsbD_fatmask, Bool.and_comm]
  by_cases hi : i < kind.bits
  swap
  · simp [hi]
  rw [decide_eq_true hi, Bool.true_and, Bool.true_and]
  cases kind with
  | fat12 =>
    simp only [FatKind.bits] at hi
    by_cases hodd : cn % 2 = 1
    · have ho : 8 * FatKind.FATOFS .fat12 cn + (4 + i) = FatKind.width .fat12 * cn + i := by
        simp only [FatKind.FATOFS, FatKind.pm_fatmult, FatKind.pm_fatdiv, FatKind.width]
        omega
      simp [hodd, getLsbD_getushort, ho, show 4 + i < 16 by omega]
    · have ho : 8 * FatKind.FATOFS .fat12 cn + i = FatKind.width .fat12 * cn + i := by
        simp only [FatKind.FATOFS, FatKind.pm_fatmult, FatKind.pm_fatdiv, FatKind.width]
        omega
      simp [hodd, getLsbD_getushort, ho, show i < 16 by omega]
  | fat16 =>
    simp only [FatKind.bits] at hi
    have ho : 8 * FatKind.FATOFS .fat16 cn + i = FatKind.width .fat16 * cn + i := by
      simp only [FatKind.FATOFS, FatKind.pm_fatmult, FatKind.pm_fatdiv, FatKind.width]
      omega
    simp [getLsbD_getushort, ho, hi]
  | fat32 =>
    simp only [FatKind.bits] at hi
    have ho : 8 * FatKind.FATOFS .fat32 cn + i = FatKind.width .fat32 * cn + i := by
      simp only [FatKind.FATOFS, FatKind.pm_fatmult, FatKind.pm_fatdiv, FatKind.width]
      omega
    have hget := getLsbD_getulong m (FatKind.FATOFS .fat32 cn) i
    rw [ho, decide_eq_true (show i < 32 by omega), Bool.true_and] at hget
    rw [← hget]
    simp

theorem getLsbD_low {n j : ℕ} (hn : n ≤ 32) : (BitVec.ofNat 32 (2 ^ n - 1)).getLsbD j = decide (j < n) := by
  rw [BitVec.getLsbD_ofNat, Nat.testBit_two_pow_sub_one]
  by_cases hj : j < n
  · simp [hj, show j < 32 by omega]
  · simp [hj]

theorem test_putEntry (kind : FatKind) (m : Fat) (cn : ℕ) (v : BitVec 32) (k : ℕ) :
    test (putEntry kind (cn % 2 = 1) m (kind.FATOFS cn) v) k =
      if kind.width * cn ≤ k ∧ k < kind.width * cn + kind.bits then v.getLsbD (k - kind.width * cn) else test m k := by
  cases kind with
  | fat12 =>
    rw [show FatKind.width .fat12 = 12 from rfl, show FatKind.bits .fat12 = 12 from rfl, putEntry, test_putushort]
    have h000f (j : ℕ) : (0x000f#32).getLsbD j = decide (j < 4) := getLsbD_low (n := 4) (by omega)
    have h0fff (j : ℕ) : (0xfff#32).getLsbD j = decide (j < 12) := getLsbD_low (n := 12) (by omega)
    have hf000 (j : ℕ) (hj : j < 16) : (0xf000#32).getLsbD j = decide (12 ≤ j) := by
      revert j
      decide
    by_cases hodd : cn % 2 = 1
    · -- the high twelve bits of two bytes
      have ho : 8 * FatKind.FATOFS .fat12 cn + 4 = 12 * cn := by
        simp only [FatKind.FATOFS, FatKind.pm_fatmult, FatKind.pm_fatdiv]
        omega
      rw [decide_eq_true hodd, if_pos rfl]
      set o := FatKind.FATOFS .fat12 cn
      by_cases h1 : 8 * o ≤ k ∧ k < 8 * o + 16
      · rw [if_pos h1, BitVec.getLsbD_or, BitVec.getLsbD_and, BitVec.getLsbD_shiftLeft, h000f, getLsbD_getushort]
        by_cases h2 : k - 8 * o < 4
        · rw [if_neg (by omega), show 8 * o + (k - 8 * o) = k by omega]
          simp [h2, show k - 8 * o < 16 by omega]
        · rw [if_pos (by omega), show k - 8 * o - 4 = k - 12 * cn by omega]
          simp [h2, show k - 8 * o < 32 by omega]
      · rw [if_neg h1, if_neg (by omega)]
    · -- the low twelve bits of two bytes
      have ho : 8 * FatKind.FATOFS .fat12 cn = 12 * cn := by
        simp only [FatKind.FATOFS, FatKind.pm_fatmult, FatKind.pm_fatdiv]
        omega
      rw [decide_eq_false hodd, if_neg Bool.false_ne_true, ho]
      by_cases h1 : 12 * cn ≤ k ∧ k < 12 * cn + 16
      · rw [if_pos h1, BitVec.getLsbD_or, BitVec.getLsbD_and, BitVec.getLsbD_and, h0fff, getLsbD_getushort, ho,
          hf000 _ (by omega)]
        by_cases h2 : k - 12 * cn < 12
        · rw [if_pos (by omega)]
          simp [h2]
        · rw [if_neg (by omega), show 12 * cn + (k - 12 * cn) = k by omega]
          simp [h2, show k - 12 * cn < 16 by omega, show 12 ≤ k - 12 * cn by omega]
      · rw [if_neg h1, if_neg (by omega)]
  | fat16 =>
    have ho : 8 * FatKind.FATOFS .fat16 cn = 16 * cn := by
      simp only [FatKind.FATOFS, FatKind.pm_fatmult, FatKind.pm_fatdiv]
      omega
    rw [putEntry, test_putushort, ho]
    rfl
  | fat32 =>
    have ho : 8 * FatKind.FATOFS .fat32 cn = 32 * cn := by
      simp only [FatKind.FATOFS, FatKind.pm_fatmult, FatKind.pm_fatdiv]
      omega
    rw [show FatKind.width .fat32 = 32 from rfl, show FatKind.bits .fat32 = 28 from rfl, putEntry, test_putulong, ho]
    by_cases h1 : 32 * cn ≤ k ∧ k < 32 * cn + 32
    · rw [if_pos h1, BitVec.getLsbD_or, BitVec.getLsbD_and, BitVec.getLsbD_and, BitVec.getLsbD_not,
        getLsbD_fatmask, getLsbD_getulong, ho, show 32 * cn + (k - 32 * cn) = k by omega]
      simp only [FatKind.bits]
      by_cases h2 : k - 32 * cn < 28
      · rw [if_pos (by omega)]
        simp [h2]
      · rw [if_neg (by omega)]
        simp [h2, show k - 32 * cn < 32 by omega]
    · rw [if_neg h1, if_neg (by omega)]

/-- Writing an entry changes no other. -/
theorem fatEntry_putEntry (kind : FatKind) (m : Fat) (cn c : ℕ) (v : BitVec 32) :
    fatEntry kind (putEntry kind (cn % 2 = 1) m (kind.FATOFS cn) v) c =
      if c = cn then v &&& kind.pm_fatmask else fatEntry kind m c := by
  have hwidth : kind.bits ≤ kind.width := by cases kind <;> decide
  apply BitVec.eq_of_getLsbD_eq
  intro i hi
  rw [getLsbD_fatEntry, test_putEntry]
  by_cases hc : c = cn
  · subst hc
    rw [if_pos rfl, BitVec.getLsbD_and, getLsbD_fatmask, Bool.and_comm]
    by_cases hb : i < kind.bits
    · rw [if_pos (by omega), show kind.width * c + i - kind.width * c = i by omega]
    · simp [hb]
  · rw [if_neg hc, getLsbD_fatEntry]
    by_cases hb : i < kind.bits
    · rw [if_neg]
      rintro ⟨h1, h2⟩
      have hlt : kind.width * cn < kind.width * (c + 1) := by
        rw [Nat.mul_succ]
        omega
      have hlt' : kind.width * c < kind.width * (cn + 1) := by
        rw [Nat.mul_succ]
        omega
      have h3 := Nat.lt_of_mul_lt_mul_left hlt
      have h4 := Nat.lt_of_mul_lt_mul_left hlt'
      omega
    · simp [hb]

end OpenbsdKernel.Msdosfs
