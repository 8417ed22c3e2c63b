import Mathlib.Data.List.Basic
import Mathlib.Tactic.Ring

/-!
# Sums in one's complement

The sum of 16-bit words with the carries folded back into it. Whether its words are read in one byte
order or the other does not matter to it.
-/
namespace OpenbsdKernel.OnesComplement

inductive ByteOrder
  | little
  | big
  deriving DecidableEq, Repr

/-- The word that the bytes `a` and `b` are. -/
def ByteOrder.word : ByteOrder → ℕ → ℕ → ℕ
  | .little, a, b => a + 256 * b
  | .big, a, b => 256 * a + b

example : ByteOrder.big.word 1 2 = 258 := by simp [ByteOrder.word]

/-- The sum of the words, without a byte that is left over. -/
def sum (order : ByteOrder) : List (BitVec 8) → ℕ
  | a :: b :: l => order.word a.toNat b.toNat + sum order l
  | _ => 0

/-- The carries are added to the low 16 bits. -/
def fold (s : ℕ) : ℕ := s % 65536 + s / 65536

theorem fold_mod (s : ℕ) : fold s % 65535 = s % 65535 := by
  rw [fold]
  omega

theorem fold_fold_le {s : ℕ} (hs : s < 2 ^ 32) : fold (fold s) ≤ 65535 := by
  simp only [fold]
  omega

theorem fold_fold_eq {s : ℕ} (hs : s < 2 ^ 32) (hpos : 0 < s) (hmod : s % 65535 = 0) :
    fold (fold s) = 65535 := by
  simp only [fold]
  omega

theorem sum_lt (order : ByteOrder) (l : List (BitVec 8)) : sum order l ≤ 65536 * l.length := by
  induction l using sum.induct with
  | case1 a b l ih =>
    have ha := a.isLt
    have hb := b.isLt
    simp only [sum, List.length_cons]
    cases order <;> simp only [ByteOrder.word] <;> omega
  | case2 l hl => rw [sum.eq_2 _ _ hl]; exact Nat.zero_le _

theorem sum_little (l : List (BitVec 8)) : (256 * sum .big l) % 65535 = sum .little l % 65535 := by
  induction l using sum.induct with
  | case1 a b l ih =>
    simp only [sum, ByteOrder.word]
    omega
  | case2 l hl => rw [sum.eq_2 _ _ hl, sum.eq_2 _ _ hl]

def onesAdd (x y : ℕ) : ℕ := if 65535 < x + y then x + y - 65535 else x + y

/-- The complement of the sum of the words in network order, added to `acc`. A last byte that is
left over is the high byte of a word. -/
def checksumFrom (acc : ℕ) : List (BitVec 8) → ℕ
  | a :: b :: l => checksumFrom (onesAdd acc (ByteOrder.big.word a.toNat b.toNat)) l
  | [a] => 65535 - onesAdd acc (ByteOrder.big.word a.toNat 0)
  | [] => 65535 - acc

/-- The Internet checksum of some bytes, as a number in network order. -/
def checksum (l : List (BitVec 8)) : ℕ := checksumFrom 0 l

/-- A word as a machine of the byte order reads it from where it stands in network order. -/
def ByteOrder.ntoh : ByteOrder → ℕ → ℕ
  | .little, x => x / 256 + 256 * (x % 256)
  | .big, x => x

/-- What a byte at an even position, or at an odd one, counts in the sum of the words. -/
def ByteOrder.unit : ByteOrder → Bool → ℕ
  | .little, odd => if odd then 256 else 1
  | .big, odd => if odd then 1 else 256

/-- The sum of bytes of which the first stands at an even position or at an odd one. -/
def weigh (order : ByteOrder) : Bool → List (BitVec 8) → ℕ
  | _, [] => 0
  | odd, b :: l => order.unit odd * b.toNat + weigh order (!odd) l

example : weigh .little false [1, 2, 3] = 516 := by simp [weigh, ByteOrder.unit]

/-- `s` stands for the number `n` in a sum of words: only zero stands for zero. -/
def Stands (s n : ℕ) : Prop := s % 65535 = n % 65535 ∧ (s = 0 ↔ n = 0)

section Stands

variable {order : ByteOrder} {s n m k x y : ℕ} {odd : Bool}

theorem Stands.refl (s : ℕ) : Stands s s := ⟨rfl, Iff.rfl⟩

theorem Stands.trans (h : Stands s n) (h' : Stands n m) : Stands s m :=
  ⟨h.1.trans h'.1, h.2.trans h'.2⟩

theorem Stands.symm (h : Stands s n) : Stands n s := ⟨h.1.symm, h.2.symm⟩

theorem Stands.add (h : Stands s n) (h' : Stands m k) : Stands (s + m) (n + k) := by
  obtain ⟨h₁, h₂⟩ := h
  obtain ⟨h₃, h₄⟩ := h'
  exact ⟨by omega, by omega⟩

theorem Stands.mul (h : Stands s n) : Stands (s * 256) (n * 256) := by
  obtain ⟨h₁, h₂⟩ := h
  exact ⟨by omega, by omega⟩

theorem stands_shift_shift (n : ℕ) : Stands (n * 256 * 256) n := ⟨by omega, by omega⟩

theorem Stands.eq (hx : Stands x n) (hy : Stands y n) (hxle : x ≤ 65535) (hyle : y ≤ 65535) :
    x = y := by
  obtain ⟨h₁, h₂⟩ := hx
  obtain ⟨h₃, h₄⟩ := hy
  omega

theorem stands_onesAdd (hx : x ≤ 65535) (hy : y ≤ 65535) :
    Stands (onesAdd x y) (x + y) ∧ onesAdd x y ≤ 65535 := by
  unfold onesAdd
  split_ifs with h
  · exact ⟨⟨by omega, by omega⟩, by omega⟩
  · exact ⟨.refl _, by omega⟩

theorem stands_unit (order : ByteOrder) (odd : Bool) (b : ℕ) :
    Stands (order.unit odd * b * 256) (order.unit (!odd) * b) := by
  cases order <;> cases odd <;> simp only [ByteOrder.unit, Bool.not_true, Bool.not_false, if_true,
    Bool.false_eq_true, if_false] <;> exact ⟨by omega, by omega⟩

theorem weigh_append (order : ByteOrder) (odd : Bool) (l l' : List (BitVec 8)) :
    weigh order odd (l ++ l') =
      weigh order odd l + weigh order (odd ^^ decide (l.length % 2 = 1)) l' := by
  induction l generalizing odd with
  | nil => simp [weigh]
  | cons b l ih =>
    have hparity : (!odd ^^ decide (l.length % 2 = 1)) =
        (odd ^^ decide ((b :: l).length % 2 = 1)) := by
      rw [List.length_cons]
      rcases Nat.mod_two_eq_zero_or_one l.length with h | h
      · simp [h, Nat.add_mod]
      · simp [h, Nat.add_mod]
    rw [List.cons_append, weigh, weigh, ih, hparity, Nat.add_assoc]

theorem stands_weigh_not (order : ByteOrder) (odd : Bool) (l : List (BitVec 8)) :
    Stands (weigh order odd l * 256) (weigh order (!odd) l) := by
  induction l generalizing odd with
  | nil => simp [weigh, Stands]
  | cons b l ih =>
    rw [weigh, weigh, Nat.add_mul]
    exact (stands_unit order odd b.toNat).add (ih (!odd))

theorem weigh_pair (order : ByteOrder) (a b : BitVec 8) (l : List (BitVec 8)) :
    weigh order false (a :: b :: l) = order.word a.toNat b.toNat + weigh order false l := by
  cases order <;> simp [weigh, ByteOrder.unit, ByteOrder.word, Nat.add_assoc]

theorem word_le (order : ByteOrder) (a b : BitVec 8) : order.word a.toNat b.toNat ≤ 65535 := by
  have ha := a.isLt
  have hb := b.isLt
  cases order <;> simp only [ByteOrder.word] <;> omega

theorem weigh_le (order : ByteOrder) (l : List (BitVec 8)) (heven : l.length % 2 = 0) :
    2 * weigh order false l ≤ 65535 * l.length := by
  induction l using sum.induct with
  | case1 a b l ih =>
    have hword := word_le order a b
    simp only [List.length_cons] at heven ⊢
    rw [weigh_pair]
    have := ih (by omega)
    omega
  | case2 l hl =>
    match l, hl with
    | [], _ => simp [weigh]
    | [a], _ => simp at heven
    | a :: b :: l, hl => exact absurd rfl (hl a b l)

theorem checksumFrom_spec (l : List (BitVec 8)) {acc : ℕ} (hacc : acc ≤ 65535) :
    ∃ r ≤ 65535, checksumFrom acc l = 65535 - r ∧ Stands r (acc + weigh .big false l) := by
  induction acc, l using checksumFrom.induct with
  | case1 acc a b l ih =>
    obtain ⟨hstands, hle⟩ := stands_onesAdd hacc (word_le .big a b)
    obtain ⟨r, hr, heq, h⟩ := ih hle
    refine ⟨r, hr, heq, h.trans ?_⟩
    rw [weigh_pair, ← Nat.add_assoc]
    exact hstands.add (.refl _)
  | case2 acc a =>
    have ha := word_le .big a 0
    obtain ⟨hstands, hle⟩ := stands_onesAdd hacc ha
    refine ⟨_, hle, rfl, ?_⟩
    have hweigh : weigh .big false [a] = ByteOrder.big.word a.toNat (0 : BitVec 8).toNat := by
      simp [weigh, ByteOrder.unit, ByteOrder.word]
    rw [hweigh]
    exact hstands
  | case3 acc => exact ⟨acc, hacc, rfl, by simpa [weigh] using Stands.refl acc⟩

/-- A number that stands for the sum of bytes is, complemented, their checksum in the byte order. -/
theorem ntoh_checksum {order : ByteOrder} {l : List (BitVec 8)} {r : ℕ} (hr : r ≤ 65535)
    (h : Stands r (weigh order false l)) : 65535 - r = order.ntoh (checksum l) := by
  obtain ⟨c, hc, heq, hstands⟩ := checksumFrom_spec l (Nat.zero_le _)
  rw [Nat.zero_add] at hstands
  rw [checksum, heq]
  cases order with
  | big => rw [h.eq hstands hr hc]; rfl
  | little =>
    have hswap : Stands (ByteOrder.little.ntoh c) (weigh .little false l) := by
      have hshift : Stands (ByteOrder.little.ntoh c) (c * 256) := by
        simp only [ByteOrder.ntoh]
        exact ⟨by omega, by omega⟩
      have hweigh : ∀ (odd : Bool) (l : List (BitVec 8)),
          weigh .little odd l = weigh .big (!odd) l := by
        intro odd l
        induction l generalizing odd with
        | nil => rfl
        | cons b l ih => rw [weigh, weigh, ih]; cases odd <;> rfl
      rw [hweigh]
      exact hshift.trans (hstands.mul.trans (stands_weigh_not .big false l))
    have hle : ByteOrder.little.ntoh c ≤ 65535 := by
      simp only [ByteOrder.ntoh]
      omega
    rw [h.eq hswap hr hle]
    simp only [ByteOrder.ntoh]
    omega

end Stands

end OpenbsdKernel.OnesComplement
