import Mathlib.Tactic

/-!
# Quad division

`lib/libkern/qdivrem.c`, for machines whose unsigned int has 32 bits. The work arrays
have five digits of 16 bits, and an access outside of them has no result; what they hold
at first is given from outside. The other numbers are unsigned ints, reduced wherever the
machine does it.
-/
namespace OpenbsdKernel.Qdivrem

def B : ℕ := 1 <<< 16

def u_int (x : ℕ) : ℕ := x % 2 ^ 32

/-- The words of a quad. -/
def HHALF (x : ℕ) : ℕ := x >>> 16

def LHALF (x : ℕ) : ℕ := x &&& (B - 1)

def COMBINE (a b : ℕ) : ℕ := u_int (a <<< 16) ||| b

def minus (a b : ℕ) : ℕ := u_int (a + (2 ^ 32 - b))

def H (x : UInt64) : ℕ := (x >>> 32).toNat

def L (x : UInt64) : ℕ := x.toNat % 2 ^ 32

def quad (h l : ℕ) : UInt64 := UInt64.ofNat (h <<< 32 ||| l)

abbrev Space := ℕ → UInt16

def get (a : Space) (i : ℕ) : Option ℕ := if i < 5 then some (a i).toNat else none

def put (a : Space) (i x : ℕ) : Option Space :=
  if i < 5 then some (Function.update a i (UInt16.ofNat x)) else none

def digits (a : Space) (x : UInt64) : Option Space := do
  let a ← put a 1 (HHALF (H x))
  let a ← put a 2 (LHALF (H x))
  let a ← put a 3 (HHALF (L x))
  put a 4 (LHALF (L x))

def combined (a : Space) : Option UInt64 := do
  return quad (COMBINE (← get a 1) (← get a 2)) (COMBINE (← get a 3) (← get a 4))

/-- Shift the digits `p` to `p + len` left. -/
def shl (a : Space) (p len sh : ℕ) : Option Space := do
  let a ← (List.range len).foldlM (fun a i => do
    put a (p + i) (LHALF (u_int ((← get a (p + i)) <<< sh)) |||
      (← get a (p + (i + 1))) >>> (16 - sh))) a
  put a (p + len) (LHALF (u_int ((← get a (p + len)) <<< sh)))

/-- Skip the leading zeros of the divisor: `n` and where `v` points to afterwards. Once
`n` is 1 the divisor is `v[2]`. -/
def scanDivisor (vspace : Space) : ℕ → ℕ → Option (ℕ × ℕ)
  | 0, _ => none
  | n + 1, v => do
    if (← get vspace (v + 1)) = 0 then
      if n = 1 then return (1, v) else scanDivisor vspace n (v + 1)
    else return (n + 1, v)

/-- Skip the leading zeros of the dividend: `m` and where `u` points to afterwards. A
dividend below the divisor has been dealt with, so that `m` does not fall below 0. -/
def scanDividend (uspace : Space) : ℕ → ℕ → Option (ℕ × ℕ)
  | m, u => do
    if (← get uspace (u + 1)) = 0 then
      match m with
      | 0 => none
      | m + 1 => scanDividend uspace m (u + 1)
    else return (m, u)

def shortDivision (u : Space) (t : ℕ) : Option (UInt64 × UInt64) := do
  let q1 := (← get u 1) / t % B
  let rbj := COMBINE ((← get u 1) % t) (← get u 2)
  let q2 := rbj / t % B
  let rbj := COMBINE (rbj % t) (← get u 3)
  let q3 := rbj / t % B
  let rbj := COMBINE (rbj % t) (← get u 4)
  let q4 := rbj / t % B
  return (quad (COMBINE q1 q2) (COMBINE q3 q4), UInt64.ofNat (rbj % t))

/-- `q[i] = 0` for all `i` below the given one. -/
def zeroDigits (q : Space) : ℕ → Option Space
  | 0 => some q
  | i + 1 => do zeroDigits (← put q i 0) i

/-- D1: how far `v[1]` has to be shifted. -/
def multiplier : ℕ → ℕ → ℕ → Option ℕ
  | 0, _, _ => none
  | fuel + 1, t, d => if t < B / 2 then multiplier fuel (u_int (t <<< 1)) (d + 1) else some d

/-- D3: the loop that corrects `qhat`. -/
def correct (v1 v2 uj2 : ℕ) : ℕ → ℕ → ℕ
  | 0, _ => 0
  | qhat + 1, rhat =>
    if u_int (v2 * (qhat + 1)) > COMBINE rhat uj2 then
      let rhat := u_int (rhat + v1)
      if rhat ≥ B then qhat else correct v1 v2 uj2 qhat rhat
    else qhat + 1

/-- D3: calculate `qhat`. -/
def estimate (v1 v2 uj0 uj1 uj2 : ℕ) : ℕ :=
  if uj0 = v1 then
    -- into the loop at `qhat_too_big`, with B for `qhat`
    let rhat := u_int (uj1 + v1)
    if rhat ≥ B then B - 1 else correct v1 v2 uj2 (B - 1) rhat
  else
    let nn := COMBINE uj0 uj1
    correct v1 v2 uj2 (nn / v1) (nn % v1)

/-- D4: multiply and subtract, from digit `i` down. The borrows are in `t`. -/
def multiplySubtract (vspace : Space) (v u j qhat : ℕ) : ℕ → Space → ℕ → Option (Space × ℕ)
  | 0, uspace, t => some (uspace, t)
  | i + 1, uspace, t => do
    let t := minus (minus (← get uspace (u + (i + 1 + j)))
      (u_int ((← get vspace (v + (i + 1))) * qhat))) t
    let uspace ← put uspace (u + (i + 1 + j)) (LHALF t)
    multiplySubtract vspace v u j qhat i uspace (minus B (HHALF t) &&& (B - 1))

/-- D6: add back, from digit `i` down. -/
def addBack (vspace : Space) (v u j : ℕ) : ℕ → Space → ℕ → Option (Space × ℕ)
  | 0, uspace, t => some (uspace, t)
  | i + 1, uspace, t => do
    let t := u_int (t + ((← get uspace (u + (i + 1 + j))) + (← get vspace (v + (i + 1)))))
    let uspace ← put uspace (u + (i + 1 + j)) (LHALF t)
    addBack vspace v u j i uspace (HHALF t)

def quotientDigit (vspace : Space) (v u n v1 v2 j : ℕ) (uspace : Space) : Option (Space × ℕ) := do
  let qhat := estimate v1 v2 (← get uspace (u + j)) (← get uspace (u + (j + 1)))
    (← get uspace (u + (j + 2)))
  let (uspace, t) ← multiplySubtract vspace v u j qhat n uspace 0
  let t := minus (← get uspace (u + j)) t
  let uspace ← put uspace (u + j) (LHALF t)
  -- D5: test remainder
  if HHALF t ≠ 0 then
    let (uspace, t) ← addBack vspace v u j n uspace 0
    let uspace ← put uspace (u + j) (LHALF (u_int ((← get uspace (u + j)) + t)))
    return (uspace, qhat - 1)
  else
    return (uspace, qhat)

/-- D7: loop on `j`. -/
def loopDigits (vspace : Space) (v u n m v1 v2 q : ℕ) (uspace qspace : Space) :
    Option (Space × Space) :=
  (List.range (m + 1)).foldlM (fun (uspace, qspace) j => do
    let (uspace, qhat) ← quotientDigit vspace v u n v1 v2 j uspace
    return (uspace, ← put qspace (q + j) qhat)) (uspace, qspace)

/-- Shift the remainder back, from `u[m + k]` down. -/
def shiftBack (u m d : ℕ) : ℕ → Space → Option Space
  | 0, uspace => some uspace
  | k + 1, uspace => do
    let uspace ← put uspace (u + (m + (k + 1))) ((← get uspace (u + (m + (k + 1)))) >>> d |||
      LHALF (u_int ((← get uspace (u + (m + k))) <<< (16 - d))))
    shiftBack u m d k uspace

/-- D1: shift a number left, unless it is normalized already. -/
def normalize (a : Space) (p len d : ℕ) : Option Space :=
  if d > 0 then shl a p len d else some a

/-- The remainder, which stands shifted in `u[m..m+n]`. -/
def remainder (uspace : Space) (u m n d : ℕ) : Option UInt64 :=
  if d ≠ 0 then do
    let uspace ← shiftBack u m d n uspace
    combined (← put uspace (u + m) 0)
  else combined uspace

def programD (uspace vspace qspace : Space) (n v : ℕ) (arq : Bool) :
    Option (UInt64 × Option UInt64) := do
  let (m, u) ← scanDividend uspace (4 - n) 0
  let qspace ← zeroDigits qspace (4 - m)
  let d ← multiplier 17 (← get vspace (v + 1)) 0
  let uspace ← normalize uspace u (m + n) d
  let vspace ← normalize vspace (v + 1) (n - 1) d
  let (uspace, qspace) ← loopDigits vspace v u n m (← get vspace (v + 1)) (← get vspace (v + 2))
    (4 - m) uspace qspace
  let q ← combined qspace
  if arq then return (q, some (← remainder uspace u m n d)) else return (q, none)

/-- The quotient and, where `arq` is not NULL, the remainder. Division by zero traps. -/
def qdivrem (uspace vspace qspace : Space) (uq vq : UInt64) (arq : Bool) :
    Option (UInt64 × Option UInt64) :=
  if vq = 0 then none
  else if uq < vq then some (0, if arq then some uq else none)
  else do
    let uspace ← digits (← put uspace 0 0) uq
    let vspace ← digits vspace vq
    let (n, v) ← scanDivisor vspace 4 0
    if n = 1 then
      let (q, r) ← shortDivision uspace (← get vspace (v + 2))
      return (q, if arq then some r else none)
    else programD uspace vspace qspace n v arq

end OpenbsdKernel.Qdivrem
