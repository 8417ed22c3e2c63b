import Mathlib.Tactic

/-!
# Sequence numbers

Numbers that wrap around at 32 bits. From a base they are told apart by how far ahead of it they
are; differences of two that are less than half the circle ahead are differences of these
distances.
-/
namespace OpenbsdKernel.SeqNum

abbrev Seq : Type := BitVec 32

/-- How far a number is ahead of the base. -/
def ahead (n a : Seq) : ℕ := (a - n).toNat

section Ahead

variable {n a b : Seq} {i : ℕ}

theorem ahead_lt (n a : Seq) : ahead n a < 2 ^ 32 := (a - n).isLt

@[simp] theorem ahead_self (n : Seq) : ahead n n = 0 := by simp [ahead]

theorem ahead_eq_zero : ahead n a = 0 ↔ a = n := by
  constructor
  · intro h
    have hz : a - n = 0#32 := BitVec.eq_of_toNat_eq h
    bv_omega
  · rintro rfl
    exact ahead_self a

theorem ahead_add (h : ahead n a + i < 2 ^ 32) : ahead n (a + BitVec.ofNat 32 i) = ahead n a + i := by
  have hsub : a + BitVec.ofNat 32 i - n = (a - n) + BitVec.ofNat 32 i := by bv_omega
  rw [ahead] at h ⊢
  rw [hsub, BitVec.toNat_add, BitVec.toNat_ofNat, ahead]
  omega

theorem ahead_base_add (h : i ≤ ahead n a) : ahead (n + BitVec.ofNat 32 i) a = ahead n a - i := by
  have hlt := ahead_lt n a
  have hsub : a - (n + BitVec.ofNat 32 i) = (a - n) - BitVec.ofNat 32 i := by bv_omega
  rw [ahead] at h hlt ⊢
  rw [hsub, BitVec.toNat_sub, BitVec.toNat_ofNat, ahead]
  omega

/-- Signed differences are those of the distances. -/
theorem toInt_sub (ha : ahead n a < 2 ^ 31) (hb : ahead n b < 2 ^ 31) :
    (a - b).toInt = (ahead n a : ℤ) - ahead n b := by
  have hsub : a - b = (a - n) - (b - n) := by bv_omega
  rw [ahead] at ha hb
  rw [ahead, ahead, hsub, BitVec.toInt_eq_toNat_cond, BitVec.toNat_sub]
  split
  all_goals omega

end Ahead

/-- The place of a number on a line with the base at 0. -/
def pos (n a : Seq) : ℤ := (a - n).toInt

section Pos

variable {n m a b : Seq} {i : ℕ}

@[simp] theorem pos_self (n : Seq) : pos n n = 0 := by simp [pos]

theorem pos_lt (n a : Seq) : pos n a < 2 ^ 31 := (a - n).toInt_lt

theorem le_pos (n a : Seq) : -2 ^ 31 ≤ pos n a := (a - n).le_toInt

/-- Signed differences are those of the places, unless they wrap around. -/
theorem toInt_sub_eq (hlo : -2 ^ 31 ≤ pos n a - pos n b) (hhi : pos n a - pos n b < 2 ^ 31) :
    (a - b).toInt = pos n a - pos n b := by
  have hsub : a - b = (a - n) - (b - n) := by bv_omega
  rw [hsub, BitVec.toInt_sub]
  exact Int.bmod_eq_of_le hlo hhi

/-- A number more than half the circle behind looks as if it were ahead. -/
theorem toInt_sub_wrap (h : pos n a - pos n b < -2 ^ 31) : 0 < (a - b).toInt := by
  have ha := le_pos n a
  have hb := pos_lt n b
  have hsub : a - b = (a - n) - (b - n) := by bv_omega
  rw [pos, pos] at h
  rw [pos] at ha hb
  rw [hsub, BitVec.toInt_sub, ← Int.add_bmod_right, Int.bmod_eq_of_le (by omega) (by omega)]
  omega

theorem pos_base (hlo : -2 ^ 31 ≤ pos n a - pos n m) (hhi : pos n a - pos n m < 2 ^ 31) :
    pos m a = pos n a - pos n m := toInt_sub_eq hlo hhi

theorem pos_add (h : pos n a + i < 2 ^ 31) : pos n (a + BitVec.ofNat 32 i) = pos n a + i := by
  have hlo := le_pos n a
  have hsub : a + BitVec.ofNat 32 i - n = (a - n) + BitVec.ofNat 32 i := by bv_omega
  rw [pos] at hlo h ⊢
  rw [hsub, BitVec.toInt_add, BitVec.toInt_ofNat', pos, Int.add_bmod_bmod]
  exact Int.bmod_eq_of_le (by omega) (by omega)

end Pos

/-- The number of the byte at a place of a stream. -/
def ofInt (x : ℤ) : Seq := BitVec.ofInt 32 x

section OfInt

variable {x y : ℤ}

theorem ofInt_add_ofNat (x : ℤ) (i : ℕ) : ofInt x + BitVec.ofNat 32 i = ofInt (x + i) := by
  rw [ofInt, ofInt, BitVec.ofInt_add, BitVec.ofInt_natCast]

theorem toInt_ofInt_sub (hlo : -2 ^ 31 ≤ x - y) (hhi : x - y < 2 ^ 31) :
    (ofInt x - ofInt y).toInt = x - y := by
  rw [ofInt, ofInt, BitVec.toInt_sub, BitVec.toInt_ofInt, BitVec.toInt_ofInt, Int.bmod_sub_bmod,
    Int.sub_bmod_bmod]
  exact Int.bmod_eq_of_le hlo hhi

theorem ofInt_inj (hlo : -2 ^ 31 ≤ x - y) (hhi : x - y < 2 ^ 31) (h : ofInt x = ofInt y) : x = y := by
  have hsub := toInt_ofInt_sub hlo hhi
  rw [h, BitVec.sub_self] at hsub
  have hzero : (0#32).toInt = 0 := rfl
  omega

end OfInt

end OpenbsdKernel.SeqNum
