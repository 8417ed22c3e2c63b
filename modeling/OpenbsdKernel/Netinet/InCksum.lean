import OpenbsdKernel.Lib.OnesComplement

/-!
# The portable checksum routine

`in_cksum` of `netinet/in_cksum.c`. The sum is kept in 32 bits; `conv` is what happens to a value
that is stored there, so that the same code can be read with a sum of any size. The bytes of an mbuf are added as
words from an even address on; where that is at an odd position of the packet, the sum is kept with
its bytes swapped. A byte behind the mbuf is not read: that is no result.
-/
namespace OpenbsdKernel.InCksum

open OnesComplement

/-- An mbuf with the address of its data. -/
structure Mbuf where
  m_data : ℕ
  data : List (BitVec 8)
  deriving DecidableEq, Repr

/-- The variables that are kept from one mbuf to the next; `c0` is `s_util.c[0]`. -/
structure State where
  sum : ℕ
  mlen : ℤ
  byte_swapped : Bool
  c0 : BitVec 8
  deriving DecidableEq, Repr

/-- `sum += x` -/
def add (conv : ℕ → ℕ) (sum x : ℕ) : ℕ := conv (sum + x)

/-- `sum <<= 8` -/
def shiftByte (conv : ℕ → ℕ) (sum : ℕ) : ℕ := conv (sum * 256)

def ADDCARRY (x : ℕ) : ℕ := if 65535 < x then x - 65535 else x

def REDUCE (sum : ℕ) : ℕ := ADDCARRY (sum % 65536 + sum / 65536)

/-- `sum += w[0]; sum += w[1]; ...` for `n` words. -/
def addWords (conv : ℕ → ℕ) (order : ByteOrder) : ℕ → ℕ → List (BitVec 8) → Option (ℕ × List (BitVec 8))
  | 0, sum, w => some (sum, w)
  | n + 1, sum, a :: b :: w => addWords conv order n (add conv sum (order.word a.toNat b.toNat)) w
  | _ + 1, _, _ => none

/-- `while ((mlen -= 2 * n) >= 0)` with `n` words added in each round. -/
def blockLoop (conv : ℕ → ℕ) (order : ByteOrder) (n : ℕ) :
    ℕ → ℕ → ℤ → List (BitVec 8) → Option (ℕ × ℤ × List (BitVec 8))
  | 0, _, _, _ => none
  | i + 1, sum, mlen, w =>
    let mlen := mlen - 2 * n
    if 0 ≤ mlen then
      match addWords conv order n sum w with
      | none => none
      | some (sum, w) => blockLoop conv order n i sum mlen w
    else some (sum, mlen, w)

def leftover (conv : ℕ → ℕ) (order : ByteOrder) (sum : ℕ) (mlen : ℤ) (byte_swapped : Bool)
    (c0 : BitVec 8) (w : List (BitVec 8)) : Option State :=
  if byte_swapped then
    let sum := shiftByte conv (REDUCE sum)
    if mlen = -1 then
      w.head?.map fun b => ⟨add conv sum (order.word c0.toNat b.toNat), 0, false, c0⟩
    else some ⟨sum, -1, false, c0⟩
  else if mlen = -1 then w.head?.map fun b => ⟨sum, mlen, byte_swapped, b⟩
  else some ⟨sum, mlen, byte_swapped, c0⟩

def finish (conv : ℕ → ℕ) (order : ByteOrder) (sum : ℕ) (mlen : ℤ) (byte_swapped : Bool)
    (c0 : BitVec 8) (w : List (BitVec 8)) : Option State :=
  if mlen = 0 ∧ byte_swapped = false then some ⟨sum, mlen, byte_swapped, c0⟩
  else do
    let (sum, mlen, w) ← blockLoop conv order 1 (w.length + 1) (REDUCE sum) mlen w
    leftover conv order sum mlen byte_swapped c0 w

def scan (conv : ℕ → ℕ) (order : ByteOrder) (sum : ℕ) (mlen : ℤ) (byte_swapped : Bool)
    (c0 : BitVec 8) (w : List (BitVec 8)) : Option State := do
  let (sum, mlen, w) ← blockLoop conv order 16 (w.length + 1) sum mlen w
  let (sum, mlen, w) ← blockLoop conv order 4 (w.length + 1) sum (mlen + 32) w
  finish conv order sum (mlen + 8) byte_swapped c0 w

/-- The rest of an mbuf, from the address `addr` on. -/
def alignScan (conv : ℕ → ℕ) (order : ByteOrder) (sum : ℕ) (mlen : ℤ) (byte_swapped : Bool)
    (c0 : BitVec 8) (addr : ℕ) (w : List (BitVec 8)) : Option State :=
  if addr % 2 = 1 ∧ 0 < mlen then
    match w with
    | [] => none
    | b :: w => scan conv order (shiftByte conv (REDUCE sum)) (mlen - 1) true b w
  else scan conv order sum mlen byte_swapped c0 w

/-- The loop over the mbufs: what is left of `len`, and the variables. -/
def cksumLoop (conv : ℕ → ℕ) (order : ByteOrder) : List Mbuf → ℤ → State → Option (ℤ × State)
  | [], len, st => some (len, st)
  | m :: c, len, st =>
    if len = 0 then some (len, st)
    else
      match m.data with
      | [] => cksumLoop conv order c len st
      | b :: w =>
        if st.mlen = -1 then
          let sum := add conv st.sum (order.word st.c0.toNat b.toNat)
          let len := len - 1
          let mlen := if len < w.length then len else w.length
          match alignScan conv order sum mlen st.byte_swapped st.c0 (m.m_data + 1) w with
          | none => none
          | some st => cksumLoop conv order c (len - mlen) st
        else
          let mlen := if len < m.data.length then len else m.data.length
          match alignScan conv order st.sum mlen st.byte_swapped st.c0 m.m_data m.data with
          | none => none
          | some st => cksumLoop conv order c (len - mlen) st

/-- The sum at the end. -/
def accumulate (conv : ℕ → ℕ) (order : ByteOrder) (m : List Mbuf) (len : ℤ) : Option ℕ :=
  match cksumLoop conv order m len ⟨0, 0, false, 0⟩ with
  | none => none
  | some (_, st) =>
    some (if st.mlen = -1 then add conv st.sum (order.word st.c0.toNat 0) else st.sum)

def in_cksum (order : ByteOrder) (m : List Mbuf) (len : ℤ) : Option ℕ :=
  (accumulate (· % 2 ^ 32) order m len).map fun sum => 65535 - REDUCE sum % 65536

def Stores (conv : ℕ → ℕ) : Prop := ∀ x < 2 ^ 32, conv x = x

section Words

variable {conv : ℕ → ℕ} {order : ByteOrder} {sum n : ℕ} {w : List (BitVec 8)}

theorem stands_reduce (h : sum < 2 ^ 32) : Stands (REDUCE sum) sum ∧ REDUCE sum ≤ 65535 := by
  unfold REDUCE ADDCARRY
  split_ifs with hcarry
  · exact ⟨⟨by omega, by omega⟩, by omega⟩
  · exact ⟨⟨by omega, by omega⟩, by omega⟩

theorem shiftByte_eq (hconv : Stores conv) (h : sum ≤ 65535) : shiftByte conv sum = sum * 256 :=
  hconv _ (by omega)

theorem add_eq (hconv : Stores conv) {x : ℕ} (h : sum + x < 2 ^ 32) : add conv sum x = sum + x :=
  hconv _ h

theorem addWords_spec (hconv : Stores conv) (hn : 2 * n ≤ w.length) (hfit : 2 * sum + 65535 * (2 * n) < 2 ^ 33) :
    addWords conv order n sum w = some (sum + weigh order false (w.take (2 * n)), w.drop (2 * n)) := by
  induction n generalizing sum w with
  | zero => simp [addWords, weigh]
  | succ n ih =>
    obtain _ | ⟨a, _ | ⟨b, w⟩⟩ := w
    · rw [List.length_nil] at hn
      omega
    · rw [List.length_cons, List.length_nil] at hn
      omega
    · have hword := word_le order a b
      rw [show 2 * (n + 1) = 2 * n + 1 + 1 by omega, List.take_succ_cons, List.take_succ_cons,
        List.drop_succ_cons, List.drop_succ_cons, weigh_pair, addWords, add_eq hconv (by omega),
        ih (by simp at hn; omega) (by omega), Nat.add_assoc]

theorem blockLoop_spec (order : ByteOrder) (hn : 0 < n) (i sum k : ℕ) (w : List (BitVec 8)) (hi : k < i)
    (hk : k ≤ w.length) (hfit : 2 * sum + 65535 * k < 2 ^ 33) :
    ∃ j, j % 2 = 0 ∧ j ≤ k ∧ k < j + 2 * n ∧
      ∀ conv, Stores conv → blockLoop conv order n i sum k w =
        some (sum + weigh order false (w.take j), (k : ℤ) - j - 2 * n, w.drop j) := by
  induction i generalizing sum k w with
  | zero => omega
  | succ i ih =>
    by_cases hmore : 2 * n ≤ k
    · have hwords : (w.take (2 * n)).length = 2 * n := by
        rw [List.length_take]
        omega
      have hle := weigh_le order (w.take (2 * n)) (by omega)
      obtain ⟨j, hj, hjk, hlast, heq⟩ := ih (sum + weigh order false (w.take (2 * n))) (k - 2 * n)
        (w.drop (2 * n)) (by omega) (by rw [List.length_drop]; omega) (by omega)
      refine ⟨2 * n + j, by omega, by omega, by omega, fun conv hconv => ?_⟩
      have hrest : (k : ℤ) - 2 * n = ((k - 2 * n : ℕ) : ℤ) := by omega
      rw [blockLoop, if_pos (by omega), addWords_spec hconv (by omega) (by omega)]
      simp only [hrest, heq conv hconv]
      have heven : (false ^^ decide ((w.take (2 * n)).length % 2 = 1)) = false := by
        rw [hwords]
        simp
      rw [List.take_add, weigh_append, heven, List.drop_drop, Nat.add_assoc]
      simp only [Option.some.injEq, Prod.mk.injEq, true_and, and_true]
      omega
    · refine ⟨0, rfl, Nat.zero_le k, by omega, fun conv _ => ?_⟩
      rw [blockLoop, if_neg (by omega)]
      simp [weigh]

end Words

section Scan

variable {order : ByteOrder} {w : List (BitVec 8)}

/-- What the byte that is kept for the next word will count. -/
def pending (order : ByteOrder) (st : State) : ℕ :=
  if st.mlen = -1 then order.unit false * st.c0.toNat else 0

def credit (st : State) : ℕ := if st.mlen = -1 then 65535 else 0

/-- What is left of the bytes of an mbuf: the sum of all of them, in the position they have been
added at, and a byte that is kept if their number is odd. -/
structure Scanned (order : ByteOrder) (sum k : ℕ) (swapped : Bool) (c0 : BitVec 8)
    (bs : List (BitVec 8)) (st : State) : Prop where
  reset : st.byte_swapped = false
  parity : st.mlen = -1 ↔ (k + swapped.toNat) % 2 = 1
  stands : Stands (st.sum + pending order st) (if swapped
    then (sum + weigh order false bs) * 256 + order.unit false * c0.toNat
    else sum + weigh order false bs)
  bound : 2 * st.sum + credit st ≤ max (2 * sum) 33553920 + 65535 * (k + swapped.toNat)

theorem word_eq_unit (order : ByteOrder) (a b : ℕ) :
    order.word a b = order.unit false * a + order.unit true * b := by
  cases order <;> simp [ByteOrder.word, ByteOrder.unit]

theorem weigh_take_succ {j : ℕ} {b : BitVec 8} (hj : j % 2 = 0) (hb : w[j]? = some b) :
    weigh order false (w.take (j + 1)) =
      weigh order false (w.take j) + order.unit false * b.toNat := by
  have hlt : j < w.length := (List.getElem?_eq_some_iff.mp hb).1
  have hparity : (false ^^ decide ((w.take j).length % 2 = 1)) = false := by
    rw [List.length_take, min_eq_left hlt.le, hj]
    rfl
  rw [List.take_add_one, hb, weigh_append, hparity]
  simp [weigh]

theorem leftover_spec (order : ByteOrder) {sum sum' j k : ℕ} (swapped : Bool) (c0 : BitVec 8)
    (w : List (BitVec 8)) (hj : j % 2 = 0) (hjk : j ≤ k) (hlast : k < j + 2) (hk : k ≤ w.length)
    (hsmall : sum' ≤ 65535 * 5) (hsum : Stands sum' (sum + weigh order false (w.take j))) :
    ∃ st, (∀ conv, Stores conv →
        leftover conv order sum' ((k : ℤ) - j - 2) swapped c0 (w.drop j) = some st) ∧
      Scanned order sum k swapped c0 (w.take k) st := by
  obtain rfl | rfl : k = j ∨ k = j + 1 := by omega
  · -- no byte is left over
    have hmlen : ((k : ℕ) : ℤ) - k - 2 = -2 := by omega
    rw [hmlen]
    cases swapped with
    | false =>
      refine ⟨⟨sum', -2, false, c0⟩, fun conv _ => rfl, rfl, by simp; omega, ?_, ?_⟩
      · simpa [pending] using hsum
      · simp only [credit, Bool.toNat_false]
        split_ifs <;> omega
    | true =>
      have hreduce := stands_reduce (show sum' < 2 ^ 32 by omega)
      refine ⟨⟨REDUCE sum' * 256, -1, false, c0⟩, fun conv hconv => ?_, rfl, by simp; omega, ?_, ?_⟩
      · simp [leftover, shiftByte_eq hconv hreduce.2]
      · simpa [pending] using (hreduce.1.trans hsum).mul.add (.refl (order.unit false * c0.toNat))
      · simp only [credit, Bool.toNat_true]
        split_ifs <;> omega
  · obtain ⟨b, hb⟩ : ∃ b, w[j]? = some b := ⟨_, List.getElem?_eq_getElem (by omega)⟩
    have hhead : (w.drop j).head? = some b := by rw [List.head?_drop, hb]
    have hmlen : ((j + 1 : ℕ) : ℤ) - j - 2 = -1 := by omega
    rw [hmlen]
    cases swapped with
    | false =>
      refine ⟨⟨sum', -1, false, b⟩, fun conv _ => ?_, rfl, by simp; omega, ?_, ?_⟩
      · simp [leftover, hhead]
      · rw [weigh_take_succ hj hb, ← Nat.add_assoc]
        simpa [pending] using hsum.add (.refl (order.unit false * b.toNat))
      · simp only [credit, Bool.toNat_false]
        split_ifs <;> omega
    | true =>
      have hreduce := stands_reduce (show sum' < 2 ^ 32 by omega)
      have hword := word_le order c0 b
      refine ⟨⟨REDUCE sum' * 256 + order.word c0.toNat b.toNat, 0, false, c0⟩, fun conv hconv => ?_,
        rfl, by simp; omega, ?_, ?_⟩
      · simp [leftover, hhead, shiftByte_eq hconv hreduce.2, add_eq hconv (show REDUCE sum' * 256 +
          order.word c0.toNat b.toNat < 2 ^ 32 by omega)]
      · rw [weigh_take_succ hj hb, ← Nat.add_assoc, Nat.add_mul, word_eq_unit]
        have hb' := (stands_unit order false b.toNat).symm
        have hboth := ((hreduce.1.trans hsum).mul.add hb').add (.refl (order.unit false * c0.toNat))
        simpa [pending, Nat.add_assoc, Nat.add_comm (order.unit false * c0.toNat)] using hboth
      · have hnone : credit ⟨REDUCE sum' * 256 + order.word c0.toNat b.toNat, 0, false, c0⟩ = 0 := rfl
        rw [hnone, Bool.toNat_true]
        dsimp only
        omega

theorem finish_spec (order : ByteOrder) (sum k : ℕ) (swapped : Bool) (c0 : BitVec 8)
    (w : List (BitVec 8)) (hk : k ≤ w.length) (hsmall : k < 8) (hsum : sum < 2 ^ 32) :
    ∃ st, (∀ conv, Stores conv → finish conv order sum k swapped c0 w = some st) ∧
      Scanned order sum k swapped c0 (w.take k) st := by
  unfold finish
  by_cases hzero : (k : ℤ) = 0 ∧ swapped = false
  · obtain ⟨hk0, rfl⟩ := hzero
    obtain rfl : k = 0 := by omega
    refine ⟨_, fun conv _ => if_pos ⟨rfl, rfl⟩, rfl, by simp, ?_, ?_⟩
    · simpa [pending, weigh] using Stands.refl sum
    · simp [credit]
  obtain ⟨hreduce, hreducele⟩ := stands_reduce hsum
  obtain ⟨j, hj, hjk, hlast, heq⟩ := blockLoop_spec order (n := 1) (by decide)
    (w.length + 1) (REDUCE sum) k w (by omega) hk (by omega)
  have hle := weigh_le order (w.take j) (by rw [List.length_take]; omega)
  rw [List.length_take] at hle
  obtain ⟨st, hst, h⟩ := leftover_spec order swapped c0 w hj hjk hlast hk (by omega)
    (hreduce.add (.refl (weigh order false (w.take j))))
  refine ⟨st, fun conv hconv => ?_, h⟩
  rw [if_neg hzero, heq conv hconv]
  exact hst conv hconv

theorem scan_spec (order : ByteOrder) (sum k : ℕ) (swapped : Bool) (c0 : BitVec 8)
    (w : List (BitVec 8)) (hk : k ≤ w.length) (hfit : 2 * sum + 65535 * k < 2 ^ 33) :
    ∃ st, (∀ conv, Stores conv → scan conv order sum k swapped c0 w = some st) ∧
      Scanned order sum k swapped c0 (w.take k) st := by
  obtain ⟨i, hi, hik, -, heq⟩ := blockLoop_spec order (n := 16) (by decide) (w.length + 1) sum k w
    (by omega) hk hfit
  have hilen : (w.take i).length = i := by
    rw [List.length_take]
    omega
  have hile := weigh_le order (w.take i) (by omega)
  have hmlen : (k : ℤ) - i - 2 * 16 + 32 = (k - i : ℕ) := by omega
  obtain ⟨j, hj, hjk, hlast, heq'⟩ := blockLoop_spec order (n := 4) (by decide)
    ((w.drop i).length + 1) (sum + weigh order false (w.take i)) (k - i) (w.drop i)
    (by rw [List.length_drop]; omega) (by rw [List.length_drop]; omega) (by omega)
  have hmlen' : ((k - i : ℕ) : ℤ) - j - 2 * 4 + 8 = (k - i - j : ℕ) := by omega
  have hjlen : ((w.drop i).take j).length = j := by
    rw [List.length_take, List.length_drop]
    omega
  have hjle := weigh_le order ((w.drop i).take j) (by omega)
  obtain ⟨st, hst, h⟩ := finish_spec order
    (sum + weigh order false (w.take i) + weigh order false ((w.drop i).take j)) (k - i - j)
    swapped c0 ((w.drop i).drop j) (by rw [List.length_drop, List.length_drop]; omega) (by omega)
    (by omega)
  refine ⟨st, fun conv hconv => ?_, h.reset, ?_, ?_, ?_⟩
  · rw [scan, heq conv hconv]
    simp only [Option.bind_eq_bind, Option.bind_some, Nat.cast_ofNat, hmlen]
    rw [heq' conv hconv]
    simp only [Option.bind_some, Nat.cast_ofNat, hmlen']
    exact hst conv hconv
  · rw [h.parity]
    omega
  · -- the three parts are the bytes
    have hparts : weigh order false (w.take k) = weigh order false (w.take i) +
        weigh order false ((w.drop i).take j) +
          weigh order false (((w.drop i).drop j).take (k - i - j)) := by
      rw [← Nat.sub_add_cancel hik, Nat.add_comm, List.take_add, weigh_append, hilen, hi,
        ← Nat.sub_add_cancel hjk, Nat.add_comm (k - i - j), List.take_add, weigh_append, hjlen, hj]
      simp [Nat.add_assoc]
    rw [hparts, ← Nat.add_assoc, ← Nat.add_assoc]
    exact h.stands
  · have hb := h.bound
    have hmax := le_max_left (2 * sum) 33553920
    have hmax' := le_max_right (2 * sum) 33553920
    rcases max_choice (2 * (sum + weigh order false (w.take i) +
      weigh order false ((w.drop i).take j))) 33553920 with heq | heq <;> rw [heq] at hb <;> omega

end Scan

section Chain

variable {order : ByteOrder} {P w : List (BitVec 8)} {st : State}

/-- The variables after the bytes `P` of a packet. -/
structure Summed (order : ByteOrder) (P : List (BitVec 8)) (st : State) : Prop where
  reset : st.byte_swapped = false
  parity : st.mlen = -1 ↔ P.length % 2 = 1
  stands : Stands (st.sum + pending order st) (weigh order false P)
  bound : 2 * st.sum + credit st ≤ 33553920 + 65535 * P.length

theorem weigh_append_even (order : ByteOrder) (heven : P.length % 2 = 0) (l : List (BitVec 8)) :
    weigh order false (P ++ l) = weigh order false P + weigh order false l := by
  rw [weigh_append, heven]
  rfl

theorem alignScan_spec {sum k : ℕ} (c0 : BitVec 8) (addr : ℕ) (heven : P.length % 2 = 0)
    (hstands : Stands sum (weigh order false P)) (hbound : 2 * sum ≤ 33553920 + 65535 * P.length)
    (hk : k ≤ w.length) (hshort : P.length + k ≤ 65535) :
    ∃ st, (∀ conv, Stores conv → alignScan conv order sum k false c0 addr w = some st) ∧
      Summed order (P ++ w.take k) st := by
  by_cases halign : addr % 2 = 1 ∧ (0 : ℤ) < k
  · obtain ⟨b, w, rfl⟩ := List.exists_cons_of_ne_nil (show w ≠ [] by rintro rfl; simp at hk; omega)
    obtain ⟨k, rfl⟩ : ∃ i, k = i + 1 := ⟨k - 1, by omega⟩
    have hreduce := stands_reduce (show sum < 2 ^ 32 by omega)
    obtain ⟨st, hst, h⟩ := scan_spec order (REDUCE sum * 256) k true b w (by simpa using hk)
      (by omega)
    refine ⟨st, fun conv hconv => ?_, h.reset, ?_, ?_, ?_⟩
    · have hmlen : ((k + 1 : ℕ) : ℤ) - 1 = k := by omega
      simp only [alignScan, if_pos halign, shiftByte_eq hconv hreduce.2, hmlen]
      exact hst conv hconv
    · rw [h.parity, List.length_append, List.take_succ_cons, List.length_cons, List.length_take,
        Bool.toNat_true, min_eq_left (by simpa using hk)]
      omega
    · -- eight bits to the left and eight more is where the bytes belong
      have hsum := h.stands
      rw [if_pos rfl, Nat.add_mul, Nat.add_assoc] at hsum
      rw [weigh_append_even order heven, List.take_succ_cons, weigh, Nat.add_comm (order.unit _ * _)]
      have hfront : Stands (REDUCE sum * 256 * 256) (weigh order false P) :=
        (stands_shift_shift (REDUCE sum)).trans (hreduce.1.trans hstands)
      have hrest := (stands_weigh_not order false (w.take k)).add
        (.refl (order.unit false * b.toNat))
      exact hsum.trans (hfront.add hrest)
    · have hb := h.bound
      have hmax : max (2 * (REDUCE sum * 256)) 33553920 = 33553920 := by
        rw [max_eq_right]
        omega
      rw [hmax, Bool.toNat_true] at hb
      rw [List.length_append, List.take_succ_cons, List.length_cons, List.length_take,
        min_eq_left (by simpa using hk)]
      exact hb.trans (Nat.add_le_add_left (Nat.mul_le_mul_left _ (Nat.le_add_left _ _)) _)
  · obtain ⟨st, hst, h⟩ := scan_spec order sum k false c0 w hk (by omega)
    refine ⟨st, fun conv hconv => ?_, h.reset, ?_, ?_, ?_⟩
    · simp only [alignScan, if_neg halign]
      exact hst conv hconv
    · rw [h.parity, List.length_append, List.length_take, min_eq_left hk, Bool.toNat_false]
      omega
    · have hsum := h.stands
      rw [if_neg Bool.false_ne_true] at hsum
      rw [weigh_append_even order heven]
      exact hsum.trans (hstands.add (.refl _))
    · have hb := h.bound
      rw [List.length_append, List.length_take, min_eq_left hk]
      rw [Bool.toNat_false] at hb
      have := max_le (show 2 * sum ≤ 33553920 + 65535 * P.length from hbound)
        (show 33553920 ≤ 33553920 + 65535 * P.length by omega)
      omega

/-- The bytes of a chain. -/
def bytes (c : List Mbuf) : List (BitVec 8) := c.flatMap Mbuf.data

theorem take_bytes (w l : List (BitVec 8)) (n : ℕ) :
    (w ++ l).take n = w.take (min n w.length) ++ l.take (n - min n w.length) := by
  rw [List.take_append]
  rcases Nat.le_total n w.length with h | h
  · rw [min_eq_left h, Nat.sub_eq_zero_of_le h, Nat.sub_self]
  · rw [min_eq_right h, List.take_length, List.take_of_length_le h]

theorem Summed.pair (h : Summed order P st) (hodd : st.mlen = -1) (b : BitVec 8)
    (hshort : P.length < 65535) :
    (∀ conv, Stores conv → add conv st.sum (order.word st.c0.toNat b.toNat) =
        st.sum + order.word st.c0.toNat b.toNat) ∧
      Stands (st.sum + order.word st.c0.toNat b.toNat) (weigh order false (P ++ [b])) ∧
      2 * (st.sum + order.word st.c0.toNat b.toNat) ≤ 33553920 + 65535 * (P ++ [b]).length := by
  have hword := word_le order st.c0 b
  have hbound := h.bound
  have hstands := h.stands
  rw [credit, if_pos hodd] at hbound
  rw [pending, if_pos hodd] at hstands
  refine ⟨fun conv hconv => add_eq hconv (by omega), ?_, ?_⟩
  · rw [word_eq_unit, weigh_append, h.parity.mp hodd, ← Nat.add_assoc]
    exact hstands.add (by simpa [weigh] using Stands.refl (order.unit true * b.toNat))
  · rw [List.length_append, List.length_singleton]
    omega

theorem cksumLoop_spec (c : List Mbuf) (n : ℕ) (h : Summed order P st)
    (hshort : P.length + n ≤ 65535) :
    ∃ len st', (∀ conv, Stores conv → cksumLoop conv order c n st = some (len, st')) ∧
      Summed order (P ++ (bytes c).take n) st' := by
  induction c generalizing n P st with
  | nil => exact ⟨n, st, fun conv _ => rfl, by simpa [bytes] using h⟩
  | cons m c ih =>
    by_cases hn : n = 0
    · subst hn
      exact ⟨0, st, fun conv _ => if_pos rfl, by simpa using h⟩
    have hn' : ¬ (n : ℤ) = 0 := by omega
    cases hdata : m.data with
    | nil =>
      obtain ⟨len, st', hloop, h'⟩ := ih n h hshort
      refine ⟨len, st', fun conv hconv => ?_, by simpa [bytes, hdata] using h'⟩
      simp only [cksumLoop, if_neg hn', hdata]
      exact hloop conv hconv
    | cons b w =>
      by_cases hodd : st.mlen = -1
      · obtain ⟨hadd, hstands, hbound⟩ := h.pair hodd b (by omega)
        have heven : (P ++ [b]).length % 2 = 0 := by
          have := h.parity.mp hodd
          rw [List.length_append, List.length_singleton]
          omega
        obtain ⟨st₁, hst₁, h₁⟩ := alignScan_spec st.c0 (m.m_data + 1) heven hstands hbound
          (min_le_right (n - 1) w.length) (by
            rw [List.length_append, List.length_singleton]
            omega)
        obtain ⟨len, st', hloop, h'⟩ := ih (n - 1 - min (n - 1) w.length) h₁ (by
          simp only [List.length_append, List.length_singleton, List.length_take]
          omega)
        refine ⟨len, st', fun conv hconv => ?_, ?_⟩
        · have hmlen : (if (n : ℤ) - 1 < w.length then (n : ℤ) - 1 else w.length) =
              (min (n - 1) w.length : ℕ) := by
            split_ifs <;> omega
          have hlen : (n : ℤ) - 1 - (min (n - 1) w.length : ℕ) =
              (n - 1 - min (n - 1) w.length : ℕ) := by omega
          simp only [cksumLoop, if_neg hn', hdata, if_pos hodd, hmlen, hlen, hadd conv hconv,
            h.reset, hst₁ conv hconv]
          exact hloop conv hconv
        · have hbytes : (bytes (m :: c)).take n = b :: (w.take (min (n - 1) w.length) ++
              (bytes c).take (n - 1 - min (n - 1) w.length)) := by
            obtain ⟨i, rfl⟩ : ∃ i, n = i + 1 := ⟨n - 1, by omega⟩
            simp only [bytes, List.flatMap_cons, hdata, List.cons_append, List.take_succ_cons,
              Nat.add_sub_cancel, take_bytes w]
          rw [hbytes]
          simpa using h'
      · have heven : P.length % 2 = 0 := by
          have := mt h.parity.mpr hodd
          omega
        have hstands := h.stands
        have hbound := h.bound
        rw [pending, if_neg hodd, Nat.add_zero] at hstands
        rw [credit, if_neg hodd, Nat.add_zero] at hbound
        obtain ⟨st₁, hst₁, h₁⟩ := alignScan_spec st.c0 m.m_data heven hstands hbound
          (min_le_right n (b :: w).length) (by omega)
        obtain ⟨len, st', hloop, h'⟩ := ih (n - min n (b :: w).length) h₁ (by
          simp only [List.length_append, List.length_take]
          omega)
        refine ⟨len, st', fun conv hconv => ?_, ?_⟩
        · have hmlen : (if (n : ℤ) < (b :: w).length then (n : ℤ) else (b :: w).length) =
              (min n (b :: w).length : ℕ) := by
            split_ifs <;> omega
          have hlen : (n : ℤ) - (min n (b :: w).length : ℕ) = (n - min n (b :: w).length : ℕ) := by
            omega
          simp only [cksumLoop, if_neg hn', hdata, if_neg hodd, hmlen, hlen, h.reset,
            hst₁ conv hconv]
          exact hloop conv hconv
        · have hbytes : (bytes (m :: c)).take n = (b :: w).take (min n (b :: w).length) ++
              (bytes c).take (n - min n (b :: w).length) := by
            simp only [bytes, List.flatMap_cons, hdata, take_bytes (b :: w)]
          rw [hbytes, ← List.append_assoc]
          exact h'

theorem summed_start (order : ByteOrder) : Summed order [] ⟨0, 0, false, 0⟩ :=
  ⟨rfl, by simp, by simpa [pending, weigh] using Stands.refl 0, by simp [credit]⟩

/-- The sum at the end, whatever it is kept in. -/
theorem accumulate_spec (order : ByteOrder) (c : List Mbuf) (len : ℕ) (hlen : len ≤ 65535) :
    ∃ sum < 2 ^ 32, Stands sum (weigh order false ((bytes c).take len)) ∧
      ∀ conv, Stores conv → accumulate conv order c len = some sum := by
  obtain ⟨rest, st, hloop, h⟩ := cksumLoop_spec c len (summed_start order) (by simpa using hlen)
  rw [List.nil_append] at h
  have hbound := h.bound
  have hstands := h.stands
  have hshort : ((bytes c).take len).length ≤ 65535 := by
    rw [List.length_take]
    omega
  by_cases hodd : st.mlen = -1
  · rw [credit, if_pos hodd] at hbound
    rw [pending, if_pos hodd] at hstands
    have hword : order.word st.c0.toNat 0 = order.unit false * st.c0.toNat := by
      rw [word_eq_unit, Nat.mul_zero, Nat.add_zero]
    have hle : order.word st.c0.toNat 0 ≤ 65535 := word_le order st.c0 0
    refine ⟨st.sum + order.word st.c0.toNat 0, by omega, hword ▸ hstands, fun conv hconv => ?_⟩
    simp only [accumulate, hloop conv hconv, if_pos hodd]
    rw [add_eq hconv (by omega)]
  · rw [pending, if_neg hodd, Nat.add_zero] at hstands
    refine ⟨st.sum, by omega, hstands, fun conv hconv => ?_⟩
    simp only [accumulate, hloop conv hconv, if_neg hodd]

/-- For a chain of any mbufs, `in_cksum` of some of its bytes is their Internet checksum, as the
machine reads it from where it stands in network order. The sum in 32 bits is the sum without a
limit. -/
theorem in_cksum_eq (order : ByteOrder) (c : List Mbuf) (len : ℕ) (hlen : len ≤ 65535) :
    in_cksum order c len = some (order.ntoh (checksum ((bytes c).take len))) ∧
      accumulate (· % 2 ^ 32) order c len = accumulate id order c len := by
  obtain ⟨sum, hsum, hstands, hacc⟩ := accumulate_spec order c len hlen
  have hmod : Stores (· % 2 ^ 32) := fun _ hx => Nat.mod_eq_of_lt hx
  have hid : Stores id := fun _ _ => rfl
  obtain ⟨hreduce, hle⟩ := stands_reduce hsum
  refine ⟨?_, by rw [hacc _ hmod, hacc _ hid]⟩
  rw [in_cksum, hacc _ hmod, Option.map_some, Nat.mod_eq_of_lt (by omega),
    ntoh_checksum hle (hreduce.trans hstands)]

theorem in_cksum_eq_five :
    in_cksum .little [⟨0, [1, 2, 3]⟩, ⟨5, []⟩, ⟨7, [4, 5]⟩] (5 : ℕ) =
        some (ByteOrder.little.ntoh (checksum [1, 2, 3, 4, 5])) ∧
      accumulate (· % 2 ^ 32) .little [⟨0, [1, 2, 3]⟩, ⟨5, []⟩, ⟨7, [4, 5]⟩] (5 : ℕ) =
        accumulate id .little [⟨0, [1, 2, 3]⟩, ⟨5, []⟩, ⟨7, [4, 5]⟩] (5 : ℕ) :=
  in_cksum_eq .little [⟨0, [1, 2, 3]⟩, ⟨5, []⟩, ⟨7, [4, 5]⟩] 5 (by decide)

end Chain

end OpenbsdKernel.InCksum
