import Mathlib.Data.Fintype.Pi
import Mathlib.Data.Fintype.Prod
import Mathlib.Tactic
import OpenbsdKernel.Lib.Undo

/-!
# AES key wrap

`crypto/key_wrap.c` over a block cipher given by its two directions at the key of the
context. Buffers are lists of bytes, `u_int64_t B[2]` is the pair of the bytes of its words,
so nothing depends on the order of bytes of the machine.
-/
namespace OpenbsdKernel.KeyWrap

open Undo

/-- The eight bytes of a `u_int64_t` in memory. -/
abbrev Word : Type := Fin 8 → UInt8

/-- `u_int64_t B[2]`. -/
abbrev Block : Type := Word × Word

def IV : Word := fun _ => 0xa6

/-- `htobe64`: the most significant byte first in memory. -/
def htobe64 (t : BitVec 64) : Word := fun k => UInt8.ofNat (t.toNat >>> (8 * (7 - k.val)))

/-- The operator `^` on words. -/
def xor (a b : Word) : Word := fun k => a k ^^^ b k

/-- `memcpy` of eight bytes from `buf + 8 * i`. -/
def getWord (buf : List UInt8) (i : ℕ) : Word := fun k => buf.getD (8 * i + k.val) 0

/-- `memcpy` of eight bytes to `buf + 8 * i`. -/
def setWord (buf : List UInt8) (i : ℕ) (w : Word) : List UInt8 :=
  buf.mapIdx fun j b => if h : 8 * i ≤ j ∧ j < 8 * i + 8 then w ⟨j - 8 * i, by omega⟩ else b

/-- The output buffer, with `A` in its first word, and the step counter. -/
structure Wrap where
  C : List UInt8
  t : BitVec 64

/-- The body of the loops of `aes_key_wrap`, at register `i`. -/
def wrapStep (rijndael_encrypt : Block → Block) (i : ℕ) (s : Wrap) : Wrap :=
  let B := rijndael_encrypt (getWord s.C 0, getWord s.C i)
  let B0 := xor B.1 (htobe64 s.t)
  ⟨setWord (setWord s.C 0 B0) i B.2, s.t + 1#64⟩

/-- `for (i = 1; i <= n; i++, t++)`. -/
def wrapPass (rijndael_encrypt : Block → Block) (n : ℕ) (s : Wrap) : Wrap :=
  (List.range n).foldl (fun s k => wrapStep rijndael_encrypt (k + 1) s) s

/-- `for (j = 0, t = 1; j <= 5; j++)`. -/
def wrapPasses (rijndael_encrypt : Block → Block) (n : ℕ) (s : Wrap) : Wrap :=
  (List.range 6).foldl (fun s _ => wrapPass rijndael_encrypt n s) s

/-- `aes_key_wrap`: what it leaves in `C`. -/
def aes_key_wrap (rijndael_encrypt : Block → Block) (P : List UInt8) (n : ℕ) : List UInt8 :=
  (wrapPasses rijndael_encrypt n ⟨List.ofFn IV ++ P.take (8 * n), 1#64⟩).C

/-- The local `A`, the output buffer and the step counter. -/
structure Unwrap where
  A : Word
  P : List UInt8
  t : BitVec 64

/-- The body of the loops of `aes_key_unwrap`, at register `i`. -/
def unwrapStep (rijndael_decrypt : Block → Block) (i : ℕ) (s : Unwrap) : Unwrap :=
  let B := rijndael_decrypt (xor s.A (htobe64 s.t), getWord s.P (i - 1))
  ⟨B.1, setWord s.P (i - 1) B.2, s.t - 1#64⟩

/-- `for (i = n; i >= 1; i--, t--)`. -/
def unwrapPass (rijndael_decrypt : Block → Block) (n : ℕ) (s : Unwrap) : Unwrap :=
  (List.range n).reverse.foldl (fun s k => unwrapStep rijndael_decrypt (k + 1) s) s

/-- `for (j = 5, t = 6 * n; j >= 0; j--)`. -/
def unwrapPasses (rijndael_decrypt : Block → Block) (n : ℕ) (s : Unwrap) : Unwrap :=
  (List.range 6).reverse.foldl (fun s _ => unwrapPass rijndael_decrypt n s) s

/-- `timingsafe_bcmp`: the differences of all bytes are gathered before the test. -/
def timingsafe_bcmp (b1 b2 : List UInt8) : ℕ :=
  let ret := (b1.zip b2).foldl (fun ret p => ret ||| (p.1 ^^^ p.2)) 0
  if ret = 0 then 0 else 1

/-- `aes_key_unwrap`: the value returned and what is left in `P`. -/
def aes_key_unwrap (rijndael_decrypt : Block → Block) (C : List UInt8) (n : ℕ) :
    ℕ × List UInt8 :=
  let s := unwrapPasses rijndael_decrypt n
    ⟨getWord C 0, (C.drop 8).take (8 * n), BitVec.ofNat 64 (6 * n)⟩
  (timingsafe_bcmp (List.ofFn s.A) (List.ofFn IV), s.P)

@[simp] theorem xor_xor (a b : Word) : xor (xor a b) b = a := by
  funext k
  simp [xor, UInt8.xor_assoc]

@[simp] theorem length_setWord (buf : List UInt8) (i : ℕ) (w : Word) :
    (setWord buf i w).length = buf.length := by
  simp [setWord]

theorem getWord_setWord {buf : List UInt8} {i : ℕ} (h : 8 * (i + 1) ≤ buf.length) (w : Word)
    (j : ℕ) : getWord (setWord buf i w) j = if j = i then w else getWord buf j := by
  funext k
  have hk := k.isLt
  split_ifs with hji
  · subst hji
    have hlt : 8 * j + k.val < buf.length := by omega
    simp [getWord, setWord, List.getD_eq_getElem?_getD, List.getElem?_eq_getElem hlt]
  · have hout : ¬(8 * i ≤ 8 * j + k.val ∧ 8 * j + k.val < 8 * i + 8) := by omega
    simp only [getWord, setWord, List.getD_eq_getElem?_getD, List.getElem?_mapIdx, dif_neg hout]
    cases buf[8 * j + k.val]? <;> rfl

theorem eq_of_getWord {m : ℕ} {b c : List UInt8} (hb : b.length = 8 * m) (hc : c.length = 8 * m)
    (h : ∀ i < m, getWord b i = getWord c i) : b = c := by
  apply List.ext_getElem (hb.trans hc.symm)
  intro j hj hj'
  have hw := congrFun (h (j / 8) (by omega)) ⟨j % 8, by omega⟩
  have hidx : 8 * (j / 8) + j % 8 = j := by omega
  simpa [getWord, hidx, List.getD_eq_getElem?_getD, hj, hj'] using hw

theorem getWord_zero_ofFn (A : Word) (P : List UInt8) : getWord (List.ofFn A ++ P) 0 = A := by
  funext k
  have hk : 8 * 0 + k.val < (List.ofFn A).length := by rw [List.length_ofFn]; omega
  rw [getWord, List.getD_eq_getElem?_getD, List.getElem?_append_left hk,
    List.getElem?_eq_getElem hk, Option.getD_some, List.getElem_ofFn]
  congr 1
  exact Fin.ext (by simp)

theorem getWord_succ_ofFn (A : Word) (P : List UInt8) (i : ℕ) :
    getWord (List.ofFn A ++ P) (i + 1) = getWord P i := by
  funext k
  have hlen : (List.ofFn A).length = 8 := List.length_ofFn
  have hk : (List.ofFn A).length ≤ 8 * (i + 1) + k.val := by omega
  have hidx : 8 * (i + 1) + k.val - 8 = 8 * i + k.val := by omega
  rw [getWord, getWord, List.getD_eq_getElem?_getD, List.getElem?_append_right hk, hlen, hidx,
    ← List.getD_eq_getElem?_getD]

theorem getWord_drop (C : List UInt8) (i : ℕ) : getWord (C.drop 8) i = getWord C (i + 1) := by
  funext k
  have hidx : 8 + (8 * i + k.val) = 8 * (i + 1) + k.val := by omega
  simp [getWord, List.getD_eq_getElem?_getD, hidx]

theorem or_eq_zero (a b : UInt8) : a ||| b = 0 ↔ a = 0 ∧ b = 0 := by
  simp [← UInt8.toBitVec_inj, BitVec.or_eq_zero_iff]

theorem foldl_or_eq_zero (l : List (UInt8 × UInt8)) (r : UInt8) :
    l.foldl (fun ret p => ret ||| (p.1 ^^^ p.2)) r = 0 ↔ r = 0 ∧ ∀ p ∈ l, p.1 = p.2 := by
  induction l generalizing r with
  | nil => simp
  | cons p l ih =>
    simp only [List.foldl_cons, ih, or_eq_zero, UInt8.xor_eq_zero_iff, List.mem_cons,
      forall_eq_or_imp, and_assoc]

theorem timingsafe_bcmp_eq_zero (a b : Word) :
    timingsafe_bcmp (List.ofFn a) (List.ofFn b) = 0 ↔ a = b := by
  have hz : (List.ofFn a).zip (List.ofFn b) = List.ofFn fun k => (a k, b k) := by
    apply List.ext_getElem <;> simp
  have hall : (∀ p ∈ (List.ofFn a).zip (List.ofFn b), p.1 = p.2) ↔ a = b := by
    rw [hz, List.forall_mem_ofFn_iff, funext_iff]
  simp only [timingsafe_bcmp]
  rw [ite_eq_left_iff, foldl_or_eq_zero, hall]
  simp

/-- Between two steps the two routines have the same registers; the counter of
`aes_key_wrap` names the step to come, that of `aes_key_unwrap` the step to undo. -/
structure Matches (n : ℕ) (w : Wrap) (u : Unwrap) : Prop where
  length_C : w.C.length = 8 * (n + 1)
  length_P : u.P.length = 8 * n
  A : getWord w.C 0 = u.A
  R : ∀ k < n, getWord w.C (k + 1) = getWord u.P k
  t : w.t = u.t + 1#64

section Steps
variable {rijndael_encrypt rijndael_decrypt : Block → Block} {n k : ℕ}

theorem wrapStep_undone (hinv : Function.LeftInverse rijndael_decrypt rijndael_encrypt)
    (hk : k < n) :
    Undoes (Matches n) (wrapStep rijndael_encrypt (k + 1))
      (unwrapStep rijndael_decrypt (k + 1)) := by
  intro s u h
  have hlen : s.C.length = 8 * (n + 1) := by simpa [wrapStep] using h.length_C
  have hlenP := h.length_P
  set B := rijndael_encrypt (getWord s.C 0, getWord s.C (k + 1)) with hB
  -- the block that the decryption gets is the one that the encryption gave
  have hA : xor u.A (htobe64 u.t) = B.1 := by
    have ht : s.t = u.t := (BitVec.add_left_inj _).mp h.t
    rw [← h.A, wrapStep, getWord_setWord (by simp; omega), if_neg (by omega),
      getWord_setWord (by omega), if_pos rfl, ht, xor_xor]
  have hR : getWord u.P k = B.2 := by
    rw [← h.R k hk, wrapStep, getWord_setWord (by simp; omega), if_pos rfl]
  have hdec : rijndael_decrypt (xor u.A (htobe64 u.t), getWord u.P k) =
      (getWord s.C 0, getWord s.C (k + 1)) := by
    rw [hA, hR, Prod.mk.eta, hB, hinv]
  refine ⟨hlen, by simpa [unwrapStep] using hlenP, ?_, fun i hi => ?_, ?_⟩
  · simp [unwrapStep, hdec]
  · simp only [unwrapStep, Nat.add_sub_cancel, hdec]
    rw [getWord_setWord (by omega)]
    split_ifs with hik
    · rw [hik]
    · rw [← h.R i hi, wrapStep, getWord_setWord (by simp; omega), if_neg (by omega),
        getWord_setWord (by omega), if_neg (by omega)]
  · rw [unwrapStep, BitVec.sub_add_cancel]
    exact (BitVec.add_left_inj _).mp h.t

theorem unwrapStep_undone (hinv : Function.LeftInverse rijndael_encrypt rijndael_decrypt)
    (hk : k < n) :
    Undoes (fun u s => Matches n s u) (unwrapStep rijndael_decrypt (k + 1))
      (wrapStep rijndael_encrypt (k + 1)) := by
  intro u s h
  have hlen : u.P.length = 8 * n := by simpa [unwrapStep] using h.length_P
  have hlenC := h.length_C
  have ht : s.t = u.t := h.t.trans (BitVec.sub_add_cancel _ _)
  set B := rijndael_decrypt (xor u.A (htobe64 u.t), getWord u.P k) with hB
  have hA : getWord s.C 0 = B.1 := h.A
  have hR : getWord s.C (k + 1) = B.2 := by
    rw [h.R k hk, unwrapStep, Nat.add_sub_cancel, getWord_setWord (by omega), if_pos rfl]
  have henc : rijndael_encrypt (getWord s.C 0, getWord s.C (k + 1)) =
      (xor u.A (htobe64 u.t), getWord u.P k) := by
    rw [hA, hR, Prod.mk.eta, hB, hinv]
  refine ⟨by simpa [wrapStep] using hlenC, hlen, ?_, fun i hi => ?_, ?_⟩
  · simp only [wrapStep, henc]
    rw [getWord_setWord (by simp; omega), if_neg (by omega), getWord_setWord (by omega),
      if_pos rfl, ht, xor_xor]
  · simp only [wrapStep, henc]
    rw [getWord_setWord (by simp; omega)]
    split_ifs with hik
    · rw [Nat.succ_injective hik]
    · rw [getWord_setWord (by omega), if_neg (by omega), h.R i hi, unwrapStep,
        Nat.add_sub_cancel, getWord_setWord (by omega), if_neg (by omega)]
  · simp [wrapStep, ht]

theorem wrapPasses_undone (hinv : Function.LeftInverse rijndael_decrypt rijndael_encrypt) (n : ℕ) :
    Undoes (Matches n) (wrapPasses rijndael_encrypt n) (unwrapPasses rijndael_decrypt n) :=
  Undoes.foldl fun _ _ => Undoes.foldl fun _ hk => wrapStep_undone hinv (List.mem_range.mp hk)

theorem unwrapPasses_undone (hinv : Function.LeftInverse rijndael_encrypt rijndael_decrypt)
    (n : ℕ) :
    Undoes (fun u s => Matches n s u) (unwrapPasses rijndael_decrypt n)
      (wrapPasses rijndael_encrypt n) := by
  -- the list of the decryption is the reversed one, and undone in the order of the encryption
  have hpass : Undoes (fun u s => Matches n s u) (unwrapPass rijndael_decrypt n)
      (wrapPass rijndael_encrypt n) := by
    have h := Undoes.foldl (l := (List.range n).reverse) fun k hk =>
      unwrapStep_undone hinv (List.mem_range.mp (List.mem_reverse.mp hk))
    rw [List.reverse_reverse] at h
    exact h
  have h := Undoes.foldl (l := (List.range 6).reverse) fun _ _ => hpass
  rw [List.reverse_reverse] at h
  exact h

theorem wrapPass_length (n : ℕ) (s : Wrap) :
    (wrapPass rijndael_encrypt n s).C.length = s.C.length :=
  foldl_keeps (g := fun s : Wrap => s.C.length) (fun s k => by simp [wrapStep]) (List.range n) s

theorem wrapPasses_length (n : ℕ) (s : Wrap) :
    (wrapPasses rijndael_encrypt n s).C.length = s.C.length :=
  foldl_keeps (g := fun s : Wrap => s.C.length) (fun s _ => wrapPass_length n s) (List.range 6) s

theorem unwrapPass_length (n : ℕ) (s : Unwrap) :
    (unwrapPass rijndael_decrypt n s).P.length = s.P.length :=
  foldl_keeps (g := fun s : Unwrap => s.P.length) (fun s k => by simp [unwrapStep])
    (List.range n).reverse s

theorem unwrapPasses_length (n : ℕ) (s : Unwrap) :
    (unwrapPasses rijndael_decrypt n s).P.length = s.P.length :=
  foldl_keeps (g := fun s : Unwrap => s.P.length) (fun s _ => unwrapPass_length n s)
    (List.range 6).reverse s

/-! The counters run from 1 and from `6 * n`. -/

theorem wrapPass_t (n : ℕ) (s : Wrap) :
    (wrapPass rijndael_encrypt n s).t = s.t + BitVec.ofNat 64 n := by
  have hl : ∀ (l : List ℕ) (s : Wrap),
      (l.foldl (fun s k => wrapStep rijndael_encrypt (k + 1) s) s).t =
        s.t + BitVec.ofNat 64 l.length := by
    intro l
    induction l with
    | nil => simp
    | cons k l ih =>
      intro s
      rw [List.foldl_cons, ih, List.length_cons, BitVec.ofNat_add]
      simp only [wrapStep]
      ac_rfl
  rw [wrapPass, hl, List.length_range]

theorem unwrapPass_t (n : ℕ) (s : Unwrap) :
    (unwrapPass rijndael_decrypt n s).t + BitVec.ofNat 64 n = s.t := by
  have hl : ∀ (l : List ℕ) (s : Unwrap),
      (l.foldl (fun s k => unwrapStep rijndael_decrypt (k + 1) s) s).t +
        BitVec.ofNat 64 l.length = s.t := by
    intro l
    induction l with
    | nil => simp
    | cons k l ih =>
      intro s
      rw [List.foldl_cons, List.length_cons, BitVec.ofNat_add, ← BitVec.add_assoc, ih]
      exact BitVec.sub_add_cancel s.t 1#64
  have h := hl (List.range n).reverse s
  rwa [List.length_reverse, List.length_range] at h

theorem wrapPasses_t (n : ℕ) (s : Wrap) :
    (wrapPasses rijndael_encrypt n s).t = s.t + BitVec.ofNat 64 (6 * n) := by
  have h6 : List.range 6 = [0, 1, 2, 3, 4, 5] := rfl
  have hn : 6 * n = n + n + n + n + n + n := by omega
  simp only [wrapPasses, h6, List.foldl_cons, List.foldl_nil, wrapPass_t, hn, BitVec.ofNat_add,
    BitVec.add_assoc]

theorem unwrapPasses_t (n : ℕ) (s : Unwrap) :
    (unwrapPasses rijndael_decrypt n s).t + BitVec.ofNat 64 (6 * n) = s.t := by
  have h6 : (List.range 6).reverse = [5, 4, 3, 2, 1, 0] := rfl
  have hn : 6 * n = n + n + n + n + n + n := by omega
  simp only [unwrapPasses, h6, List.foldl_cons, List.foldl_nil, hn, BitVec.ofNat_add,
    ← BitVec.add_assoc, unwrapPass_t]

end Steps

theorem finite_block : Finite Block := by
  have : Finite UInt8 := Finite.of_injective UInt8.toFin fun _ _ h => UInt8.toFin_inj.mp h
  infer_instance

/-- There are finitely many blocks, so a decryption of every encryption is also encrypted
back. -/
theorem encrypt_decrypt {rijndael_encrypt rijndael_decrypt : Block → Block}
    (hinv : Function.LeftInverse rijndael_decrypt rijndael_encrypt) :
    Function.LeftInverse rijndael_encrypt rijndael_decrypt := by
  have := finite_block
  exact hinv.rightInverse_of_surjective (Finite.surjective_of_injective hinv.injective)

section Inverse
variable {rijndael_encrypt rijndael_decrypt : Block → Block} {n : ℕ}

theorem length_ofFn_append (w : Word) (P : List UInt8) (n : ℕ) (hP : P.length = 8 * n) :
    (List.ofFn w ++ P.take (8 * n)).length = 8 * (n + 1) := by
  rw [List.length_append, List.length_ofFn, List.length_take, hP]
  omega

theorem unwrap_wrap (hinv : Function.LeftInverse rijndael_decrypt rijndael_encrypt)
    {P : List UInt8} (hP : P.length = 8 * n) :
    aes_key_unwrap rijndael_decrypt (aes_key_wrap rijndael_encrypt P n) n = (0, P) := by
  set w : Wrap := ⟨List.ofFn IV ++ P.take (8 * n), 1#64⟩ with hw
  set C := aes_key_wrap rijndael_encrypt P n with hC
  have hlen : C.length = 8 * (n + 1) :=
    (wrapPasses_length n w).trans (length_ofFn_append IV P n hP)
  have hstart : Matches n (wrapPasses rijndael_encrypt n w)
      ⟨getWord C 0, (C.drop 8).take (8 * n), BitVec.ofNat 64 (6 * n)⟩ := by
    refine ⟨hlen, by simp [hlen]; omega, rfl, fun k hk => ?_, ?_⟩
    · rw [List.take_of_length_le (by simp [hlen]; omega), getWord_drop]
      rfl
    · rw [wrapPasses_t, BitVec.add_comm]
  have hend := wrapPasses_undone hinv n _ _ hstart
  have hP' : (aes_key_unwrap rijndael_decrypt C n).2 = P := by
    apply eq_of_getWord hend.length_P hP
    intro k hk
    have hR := hend.R k hk
    rw [hw, getWord_succ_ofFn, List.take_of_length_le hP.le] at hR
    exact hR.symm
  refine Prod.ext ((timingsafe_bcmp_eq_zero _ _).mpr ?_) hP'
  rw [← hend.A, hw, getWord_zero_ofFn]

theorem wrap_unwrap (hinv : Function.LeftInverse rijndael_encrypt rijndael_decrypt)
    {C P : List UInt8} (hC : C.length = 8 * (n + 1))
    (hun : aes_key_unwrap rijndael_decrypt C n = (0, P)) :
    P.length = 8 * n ∧ aes_key_wrap rijndael_encrypt P n = C := by
  set u : Unwrap := ⟨getWord C 0, (C.drop 8).take (8 * n), BitVec.ofNat 64 (6 * n)⟩ with hu
  have hA := (timingsafe_bcmp_eq_zero _ _).mp (congrArg Prod.fst hun)
  have hPeq : (unwrapPasses rijndael_decrypt n u).P = P := congrArg Prod.snd hun
  have hP : P.length = 8 * n := by
    rw [← hPeq, unwrapPasses_length, hu]
    simp [hC]
    omega
  refine ⟨hP, ?_⟩
  have hstart : Matches n ⟨List.ofFn IV ++ P.take (8 * n), 1#64⟩
      (unwrapPasses rijndael_decrypt n u) := by
    refine ⟨length_ofFn_append IV P n hP, by rw [hPeq, hP], ?_, fun k hk => ?_, ?_⟩
    · rw [getWord_zero_ofFn]
      exact hA.symm
    · rw [getWord_succ_ofFn, List.take_of_length_le hP.le, hPeq]
    · have ht : (unwrapPasses rijndael_decrypt n u).t + BitVec.ofNat 64 (6 * n) =
          BitVec.ofNat 64 (6 * n) := unwrapPasses_t n u
      simpa using ht
  have hend := unwrapPasses_undone hinv n _ _ hstart
  apply eq_of_getWord hend.length_C hC
  intro i hi
  cases i with
  | zero => exact hend.A
  | succ k =>
    have hk : k < n := by omega
    rw [hend.R k hk, hu, List.take_of_length_le (by simp [hC]; omega), getWord_drop]

end Inverse

/-- The two routines are inverse to each other: what was wrapped is unwrapped and accepted,
and what is accepted is the wrapping of what it unwraps to. -/
theorem aes_key_wrap_inverse {rijndael_encrypt rijndael_decrypt : Block → Block}
    (hinv : Function.LeftInverse rijndael_decrypt rijndael_encrypt) (n : ℕ) :
    (∀ P : List UInt8, P.length = 8 * n →
      aes_key_unwrap rijndael_decrypt (aes_key_wrap rijndael_encrypt P n) n = (0, P)) ∧
    ∀ C P : List UInt8, C.length = 8 * (n + 1) →
      aes_key_unwrap rijndael_decrypt C n = (0, P) →
      P.length = 8 * n ∧ aes_key_wrap rijndael_encrypt P n = C :=
  ⟨fun _ hP => unwrap_wrap hinv hP, fun _ _ hC hun => wrap_unwrap (encrypt_decrypt hinv) hC hun⟩

/-- The blocks that wrapping the bytes `00 11 .. ff` under the AES key `00 01 .. 0f` encrypts,
each with its encryption. -/
def aesSteps : List (Block × Block) :=
  [((htobe64 0xa6a6a6a6a6a6a6a6, htobe64 0x0011223344556677),
    (htobe64 0xf4740052e82a2251, htobe64 0x74ce86fbd7b805e7)),
   ((htobe64 0xf4740052e82a2250, htobe64 0x8899aabbccddeeff),
    (htobe64 0x06ba4ebde7768d0b, htobe64 0xd132ee38147e76f8)),
   ((htobe64 0x06ba4ebde7768d09, htobe64 0x74ce86fbd7b805e7),
    (htobe64 0xfc967627be937208, htobe64 0xfe6e8d679c5d3460)),
   ((htobe64 0xfc967627be93720b, htobe64 0xd132ee38147e76f8),
    (htobe64 0x5896ea9028ee203b, htobe64 0x07b2bd973e36a6fc)),
   ((htobe64 0x5896ea9028ee203f, htobe64 0xfe6e8d679c5d3460),
    (htobe64 0x93aea71b258d90c3, htobe64 0x25f5a3adc2195401)),
   ((htobe64 0x93aea71b258d90c6, htobe64 0x07b2bd973e36a6fc),
    (htobe64 0xe3ee986344d878f7, htobe64 0xf14863bb1e9ca90a)),
   ((htobe64 0xe3ee986344d878f1, htobe64 0x25f5a3adc2195401),
    (htobe64 0x2bfc21b2c20e4006, htobe64 0xb556d35ed8cef052)),
   ((htobe64 0x2bfc21b2c20e4001, htobe64 0xf14863bb1e9ca90a),
    (htobe64 0x4be8ce99c0a43a7d, htobe64 0x64bae5818d0570bb)),
   ((htobe64 0x4be8ce99c0a43a75, htobe64 0xb556d35ed8cef052),
    (htobe64 0xebe1ce91067024f3, htobe64 0xbe114b343eb00981)),
   ((htobe64 0xebe1ce91067024fa, htobe64 0x64bae5818d0570bb),
    (htobe64 0x5a9c7b1f5b1c3b46, htobe64 0x4fd3d2b7d74fbb42)),
   ((htobe64 0x5a9c7b1f5b1c3b4c, htobe64 0xbe114b343eb00981),
    (htobe64 0x93b71967eed41ffc, htobe64 0xaef34bd8fb5a7b82)),
   ((htobe64 0x93b71967eed41ff7, htobe64 0x4fd3d2b7d74fbb42),
    (htobe64 0x1fa68b0a8112b44b, htobe64 0x9d3e862371d2cfe5))]

def aesOnSteps : Equiv.Perm Block :=
  aesSteps.foldr (fun p e => (Equiv.swap p.1 p.2).trans e) (Equiv.refl Block)

def aesPlain : List UInt8 :=
  [0x00, 0x11, 0x22, 0x33, 0x44, 0x55, 0x66, 0x77, 0x88, 0x99, 0xaa, 0xbb, 0xcc, 0xdd, 0xee, 0xff]

def aesWrapped : List UInt8 :=
  [0x1f, 0xa6, 0x8b, 0x0a, 0x81, 0x12, 0xb4, 0x47, 0xae, 0xf3, 0x4b, 0xd8, 0xfb, 0x5a, 0x7b, 0x82,
   0x9d, 0x3e, 0x86, 0x23, 0x71, 0xd2, 0xcf, 0xe5]

theorem aes_key_wrap_inverse_steps :
    aes_key_wrap aesOnSteps aesPlain 2 = aesWrapped ∧
      aes_key_unwrap aesOnSteps.symm (aes_key_wrap aesOnSteps aesPlain 2) 2 = (0, aesPlain) ∧
      aes_key_unwrap aesOnSteps.symm aesWrapped 2 = (0, aesPlain) := by
  have h := aes_key_wrap_inverse aesOnSteps.leftInverse_symm 2
  have hwrap : aes_key_wrap aesOnSteps aesPlain 2 = aesWrapped := by decide +kernel
  have hun := h.1 aesPlain rfl
  have hback := h.2 aesWrapped aesPlain rfl (hwrap ▸ hun)
  exact ⟨hback.2, hun, hback.2 ▸ hun⟩

end OpenbsdKernel.KeyWrap
