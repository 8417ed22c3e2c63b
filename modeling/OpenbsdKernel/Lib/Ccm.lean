import Mathlib.Data.List.GetD
import Mathlib.Data.List.OfFn
import Mathlib.Tactic

/-!
# Counter with CBC-MAC

The mode of RFC 3610 for a block cipher with blocks of 16 octets, with an authentication field of
`M` octets and a length field of `L` octets: what it computes from a nonce, the data that is only
authenticated and the message, and the running value of the CBC-MAC when the message comes octet by
octet. Lengths and counters are encoded modulo the size of their field.
-/
namespace OpenbsdKernel.Ccm

abbrev Block := Fin 16 → UInt8

def zeroBlock : Block := fun _ => 0

def xorBlock (X Y : Block) : Block := fun k => X k ^^^ Y k

/-- The octet is xored into place `j`. -/
def xorAt (X : Block) (j : ℕ) (x : UInt8) : Block := fun k => if k.val = j then X k ^^^ x else X k

def block (xs : List UInt8) : Block := fun k => xs.getD k 0

def blocks (xs : List UInt8) : List Block :=
  (List.range ((xs.length + 15) / 16)).map fun i => block (xs.drop (16 * i))

def cbc (E : Block → Block) (X : Block) (bs : List Block) : Block := bs.foldl (fun X B => E (xorBlock X B)) X

/-- The `l` octets of a number, most significant first. -/
def field (l n : ℕ) : List UInt8 := (List.range l).map fun i => UInt8.ofNat (n / 256 ^ (l - 1 - i))

/-- The string that encodes `l(a)`, and `a`. -/
def encodeData (a : List UInt8) : List UInt8 :=
  if a.length = 0 then []
  else if a.length < 2 ^ 16 - 2 ^ 8 then field 2 a.length ++ a
  else if a.length < 2 ^ 32 then [0xff, 0xfe] ++ field 4 a.length ++ a
  else [0xff, 0xff] ++ field 8 a.length ++ a

/-- `B_0` -/
def firstBlock (M L : ℕ) (nonce a : List UInt8) (lm : ℕ) : Block :=
  block (UInt8.ofNat ((if a.length = 0 then 0 else 64) + 8 * ((M - 2) / 2) + (L - 1)) :: (nonce ++ field L lm))

/-- The CBC-MAC of `B_0` and the data. -/
def headMac (E : Block → Block) (M L : ℕ) (nonce a : List UInt8) (lm : ℕ) : Block :=
  cbc E zeroBlock (firstBlock M L nonce a lm :: blocks (encodeData a))

/-- `X_{n+1}`, of which `T` is the first `M` octets. -/
def mac (E : Block → Block) (M L : ℕ) (nonce a m : List UInt8) : Block :=
  cbc E (headMac E M L nonce a m.length) (blocks m)

/-- `A_i` -/
def counterBlock (L : ℕ) (nonce : List UInt8) (i : ℕ) : Block :=
  block (UInt8.ofNat (L - 1) :: (nonce ++ field L i))

/-- Octet `n` of the concatenation of `S_1`, `S_2` and so on. -/
def keyOctet (E : Block → Block) (L : ℕ) (nonce : List UInt8) (n : ℕ) : UInt8 :=
  E (counterBlock L nonce (1 + n / 16)) ⟨n % 16, Nat.mod_lt _ (by decide)⟩

/-- The octets are xored with those of a stream from `n` on. -/
def xorStream (stream : ℕ → UInt8) : ℕ → List UInt8 → List UInt8
  | _, [] => []
  | n, x :: xs => (x ^^^ stream n) :: xorStream stream (n + 1) xs

example (stream : ℕ → UInt8) (n : ℕ) : xorStream stream n [] = [] := by simp [xorStream]

def ciphertext (E : Block → Block) (L : ℕ) (nonce m : List UInt8) : List UInt8 :=
  xorStream (keyOctet E L nonce) 0 m

/-- `U`, the encrypted authentication value. -/
def mic (E : Block → Block) (M L : ℕ) (nonce a m : List UInt8) : List UInt8 :=
  (List.ofFn (xorBlock (mac E M L nonce a m) (E (counterBlock L nonce 0)))).take M

section Stream

variable (stream : ℕ → UInt8)

@[simp] theorem length_xorStream (n : ℕ) (xs : List UInt8) : (xorStream stream n xs).length = xs.length := by
  induction xs generalizing n with
  | nil => rfl
  | cons x xs ih => simp [xorStream, ih]

theorem xorStream_append (n : ℕ) (xs ys : List UInt8) :
    xorStream stream n (xs ++ ys) = xorStream stream n xs ++ xorStream stream (n + xs.length) ys := by
  induction xs generalizing n with
  | nil => rfl
  | cons x xs ih =>
    rw [List.cons_append, xorStream, xorStream, ih, List.length_cons, List.cons_append,
      show n + 1 + xs.length = n + (xs.length + 1) by omega]

theorem xorStream_xorStream (n : ℕ) (xs : List UInt8) : xorStream stream n (xorStream stream n xs) = xs := by
  induction xs generalizing n with
  | nil => rfl
  | cons x xs ih => rw [xorStream, xorStream, ih, UInt8.xor_assoc, UInt8.xor_self, UInt8.xor_zero]

end Stream

@[simp] theorem length_ciphertext (E : Block → Block) (L : ℕ) (nonce m : List UInt8) :
    (ciphertext E L nonce m).length = m.length := length_xorStream _ _ _

theorem ciphertext_ciphertext (E : Block → Block) (L : ℕ) (nonce m : List UInt8) :
    ciphertext E L nonce (ciphertext E L nonce m) = m := xorStream_xorStream _ _ _

@[simp] theorem length_mic {M : ℕ} (hM : M ≤ 16) (E : Block → Block) (L : ℕ) (nonce a m : List UInt8) :
    (mic E M L nonce a m).length = M := by
  rw [mic, List.length_take, List.length_ofFn, min_eq_left hM]

section Running

variable (E : Block → Block) (X : Block) {xs : List UInt8}

def running (xs : List UInt8) : Block :=
  xorBlock (cbc E X ((List.range (xs.length / 16)).map fun i => block (xs.drop (16 * i))))
    (block (xs.drop (16 * (xs.length / 16))))

theorem xorBlock_xorAt (X Y : Block) (j : ℕ) (x : UInt8) : xorBlock X (xorAt Y j x) = xorAt (xorBlock X Y) j x := by
  funext k
  rw [xorBlock, xorAt, xorAt]
  split
  · rw [xorBlock, UInt8.xor_assoc]
  · rfl

theorem xorBlock_zero (X : Block) : xorBlock X zeroBlock = X := by
  funext k
  exact UInt8.xor_zero

theorem zero_xorBlock (X : Block) : xorBlock zeroBlock X = X := by
  funext k
  exact UInt8.zero_xor

theorem block_nil : block [] = zeroBlock := rfl

theorem block_drop_append {i : ℕ} (ys : List UInt8) (h : 16 * i + 16 ≤ xs.length) :
    block ((xs ++ ys).drop (16 * i)) = block (xs.drop (16 * i)) := by
  funext k
  have := k.isLt
  rw [List.drop_append_of_le_length (by omega), block, block, List.getD_append _ _ _ _ (by simp; omega)]

theorem map_full_append (ys : List UInt8) :
    ((List.range (xs.length / 16)).map fun i => block ((xs ++ ys).drop (16 * i))) =
      (List.range (xs.length / 16)).map fun i => block (xs.drop (16 * i)) := by
  refine List.map_congr_left fun i hi => block_drop_append ys ?_
  have := List.mem_range.1 hi
  omega

theorem block_append_singleton (x : UInt8) : block (xs ++ [x]) = xorAt (block xs) xs.length x := by
  funext k
  rw [block, xorAt, block]
  rcases Nat.lt_trichotomy k.val xs.length with hk | hk | hk
  · rw [List.getD_append _ _ _ _ hk, if_neg (by omega)]
  · rw [if_pos hk, List.getD_append_right _ _ _ _ (by omega), hk, Nat.sub_self, List.getD_cons_zero,
      List.getD_eq_default _ _ le_rfl, UInt8.zero_xor]
  · rw [if_neg (by omega), List.getD_eq_default _ _ (by simp; omega), List.getD_eq_default _ _ hk.le]

theorem running_nil : running E X [] = X := xorBlock_zero _

/-- One more octet; the block cipher is applied when it fills a block. -/
theorem running_append_singleton (x : UInt8) :
    running E X (xs ++ [x]) =
      if xs.length % 16 + 1 < 16 then xorAt (running E X xs) (xs.length % 16) x
      else E (xorAt (running E X xs) (xs.length % 16) x) := by
  have hmod := Nat.div_add_mod xs.length 16
  have hlast : block ((xs ++ [x]).drop (16 * (xs.length / 16))) =
      xorAt (block (xs.drop (16 * (xs.length / 16)))) (xs.length % 16) x := by
    rw [List.drop_append_of_le_length (by omega), block_append_singleton, List.length_drop,
      show xs.length - 16 * (xs.length / 16) = xs.length % 16 by omega]
  rw [running, running, List.length_append, List.length_singleton]
  by_cases hroom : xs.length % 16 + 1 < 16
  · rw [if_pos hroom, show (xs.length + 1) / 16 = xs.length / 16 by omega, map_full_append, hlast, xorBlock_xorAt]
  · have hnil : block ((xs ++ [x]).drop (16 * (xs.length / 16 + 1))) = zeroBlock := by
      rw [List.drop_eq_nil_of_le (by simp; omega), block_nil]
    rw [if_neg hroom, show (xs.length + 1) / 16 = xs.length / 16 + 1 by omega, hnil, xorBlock_zero,
      List.range_succ, List.map_append, map_full_append, List.map_singleton, hlast, cbc, List.foldl_append,
      List.foldl_cons, List.foldl_nil, xorBlock_xorAt]
    rfl

theorem cbc_blocks (xs : List UInt8) :
    cbc E X (blocks xs) = if xs.length % 16 = 0 then running E X xs else E (running E X xs) := by
  rw [running, blocks]
  by_cases hfull : xs.length % 16 = 0
  · rw [if_pos hfull, show (xs.length + 15) / 16 = xs.length / 16 by omega, List.drop_eq_nil_of_le (by omega),
      block_nil, xorBlock_zero]
  · rw [if_neg hfull, show (xs.length + 15) / 16 = xs.length / 16 + 1 by omega, List.range_succ, List.map_append,
      cbc, List.foldl_append]
    rfl

end Running

end OpenbsdKernel.Ccm
