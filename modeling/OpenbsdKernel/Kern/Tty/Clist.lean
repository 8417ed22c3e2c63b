import OpenbsdKernel.Lib.Loop
import OpenbsdKernel.Lib.Ring

/-!
# Character lists

The ring buffers of `kern/tty_subr.c`. A pointer into the ring is its offset from
`c_cs`, and `none` is `NULL`; the bytes of the ring and of the quote map are functions
of the offset. The priority level is not modelled: every function runs at `spltty`.
-/
namespace OpenbsdKernel.Tty

/-- The bytes behind a `u_char *`. -/
abbrev Mem : Type := ℕ → BitVec 8

def setbit (a : Mem) (i : ℕ) : Mem :=
  Function.update a (i >>> 3) (a (i >>> 3) ||| 1#8 <<< (i &&& 7))

def clrbit (a : Mem) (i : ℕ) : Mem :=
  Function.update a (i >>> 3) (a (i >>> 3) &&& ~~~(1#8 <<< (i &&& 7)))

def isset (a : Mem) (i : ℕ) : Bool := a (i >>> 3) &&& 1#8 <<< (i &&& 7) ≠ 0#8

/-- `clrbits`, the byte-wise version of clearing `len` bits from `off` on, inside a map of fewer than
`2 ^ 31` bits. -/
def clrbits (cp : Mem) (off len : ℕ) : Mem :=
  if len = 1 then clrbit cp off
  else
    let sby := off / 8
    let sbi := off % 8
    let eby := (off + len) / 8
    let ebi := (off + len) % 8
    if sby = eby then
      let mask := ((1#8 <<< (ebi - sbi)) - 1#8) <<< sbi
      Function.update cp sby (cp sby &&& ~~~mask)
    else
      let mask := (1#8 <<< sbi) - 1#8
      let cp₁ := Function.update cp sby (cp sby &&& mask)
      let cp₂ := (List.range' (sby + 1) (eby - (sby + 1))).foldl
        (fun cp i => Function.update cp i 0#8) cp₁
      let mask := (1#8 <<< ebi) - 1#8
      -- if no mask, eby may be 1 too far
      if mask ≠ 0#8 then Function.update cp₂ eby (cp₂ eby &&& ~~~mask) else cp₂

def memset (m : Mem) (off : ℕ) (b : BitVec 8) (len : ℕ) : Mem :=
  fun i => if off ≤ i ∧ i < off + len then b else m i

/-- `memcpy(m + off, src + p, len)`. -/
def memcpy (m : Mem) (off : ℕ) (src : Mem) (p len : ℕ) : Mem :=
  fun i => if off ≤ i ∧ i < off + len then src (p + (i - off)) else m i

def TTY_QUOTE : BitVec 32 := 0x100#32

structure Clist where
  c_cc : ℕ
  c_cn : ℕ
  c_cf : Option ℕ
  c_cl : Option ℕ
  c_cs : Option Mem
  c_ce : ℕ
  c_cq : Option Mem

/-- `clalloc`; the memory is zeroed. -/
def clalloc (size : ℕ) (quot : Bool) : Clist where
  c_cc := 0
  c_cn := size
  c_cf := none
  c_cl := none
  c_cs := some fun _ => 0#8
  c_ce := size
  c_cq := if quot then some fun _ => 0#8 else none

/-- The offset of a pointer; `NULL` is not used as one while the ring has characters. -/
def offset (p : Option ℕ) : ℕ := p.getD 0

namespace Clist

/-- `c_cs[i]`. -/
def byte (clp : Clist) (i : ℕ) : BitVec 8 := clp.c_cs.getD (fun _ => 0#8) i

/-- Whether the quote map marks the character at offset `i`. -/
def quoted (clp : Clist) (i : ℕ) : Bool :=
  match clp.c_cq with
  | some q => isset q i
  | none => false

/-- The character at offset `i` as an `int`. -/
def char (clp : Clist) (i : ℕ) : BitVec 32 :=
  let c := (clp.byte i).setWidth 32 &&& 0xff#32
  if clp.quoted i then c ||| TTY_QUOTE else c

def wrap (clp : Clist) (p : ℕ) : ℕ := if p = clp.c_ce then 0 else p

def resetEmpty (clp : Clist) : Clist :=
  if clp.c_cc = 0 then { clp with c_cf := none, c_cl := none } else clp

end Clist

/-- `getc`; the result is −1 when there is no character. -/
def getc (clp : Clist) : Clist × BitVec 32 :=
  if clp.c_cc = 0 then (clp, -1#32)
  else
    let f := offset clp.c_cf
    let clp₁ : Clist :=
      { clp with
        c_cs := clp.c_cs.map fun m => Function.update m f 0#8
        c_cq := clp.c_cq.map fun q => clrbit q f
        c_cf := some (clp.wrap (f + 1))
        c_cc := clp.c_cc - 1 }
    (clp₁.resetEmpty, clp.char f)

/-- How many characters `q_to_b` and `ndflush` can take in one go. -/
def frontRun (clp : Clist) (count : ℤ) : ℕ :=
  let f := offset clp.c_cf
  let l := offset clp.c_cl
  let cc := if l ≤ f then clp.c_ce - f else l - f
  if count < cc then count.toNat else cc

/-- The loop of `q_to_b`; the list is what has been copied to the buffer. -/
def qToBStep (x : Clist × ℤ × List (BitVec 8)) :
    Loop.Step (Clist × ℤ × List (BitVec 8)) (Clist × List (BitVec 8)) Empty :=
  let (clp, count, out) := x
  if 0 < count ∧ 0 < clp.c_cc then
    let f := offset clp.c_cf
    let cc := frontRun clp count
    .next ({ clp with
        c_cs := clp.c_cs.map fun m => memset m f 0#8 cc
        c_cq := clp.c_cq.map fun q => clrbits q f cc
        c_cc := clp.c_cc - cc
        c_cf := some (clp.wrap (f + cc)) }, count - cc, out ++ Ring.segment clp.byte f cc)
  else .done (clp.resetEmpty, out)

/-- `q_to_b`; the list is the buffer, its length the number of bytes moved. The loop
makes at most one iteration for every character. -/
def qToB (clp : Clist) (count : ℤ) : Clist × List (BitVec 8) :=
  match Loop.run qToBStep (clp.c_cc + 1) (clp, count, []) with
  | .returned r _ => r
  | _ => (clp, [])

def ndflushStep (x : Clist × ℤ) : Loop.Step (Clist × ℤ) Clist Empty :=
  let (clp, count) := x
  if 0 < count ∧ 0 < clp.c_cc then
    let cc := frontRun clp count
    .next ({ clp with
        c_cc := clp.c_cc - cc
        c_cf := some (clp.wrap (offset clp.c_cf + cc)) }, count - cc)
  else .done clp.resetEmpty

def ndflush (clp : Clist) (count : ℤ) : Clist :=
  if count = clp.c_cc then { clp with c_cc := 0, c_cf := none, c_cl := none }
  else
    match Loop.run ndflushStep (clp.c_cc + 1) (clp, count) with
    | .returned r _ => r
    | _ => clp

/-- The pointers of an empty ring before a character is put in; a ring that was never
allocated is allocated now. -/
def Clist.prepare (clp : Clist) : Clist :=
  if clp.c_cc = 0 then
    let clp := if clp.c_cs.isNone then clalloc 1024 true else clp
    { clp with c_cf := some 0, c_cl := some 0 }
  else clp

def putc (c : BitVec 32) (clp : Clist) : Clist × ℤ :=
  if clp.c_cc = clp.c_cn then (clp, -1)
  else
    let clp := clp.prepare
    let i := offset clp.c_cl
    ({ clp with
        c_cs := clp.c_cs.map fun m => Function.update m i ((c &&& 0xff#32).setWidth 8)
        c_cq := clp.c_cq.map fun q => if c &&& TTY_QUOTE ≠ 0#32 then setbit q i else clrbit q i
        c_cc := clp.c_cc + 1
        c_cl := some (clp.wrap (i + 1)) }, 0)

/-- How many characters `b_to_q` can put in one go. -/
def backRun (clp : Clist) (count : ℤ) : ℕ :=
  let f := offset clp.c_cf
  let l := offset clp.c_cl
  let cc := if l < f then f - l else clp.c_ce - l
  if count < cc then count.toNat else cc

/-- The loop of `b_to_q` over the buffer `cp`, read from `p` on. -/
def bToQStep (cp : Mem) (x : Clist × ℕ × ℤ) : Loop.Step (Clist × ℕ × ℤ) (Clist × ℤ) Empty :=
  let (clp, p, count) := x
  if 0 < count ∧ clp.c_cc < clp.c_cn then
    let l := offset clp.c_cl
    let cc := backRun clp count
    .next ({ clp with
        c_cs := clp.c_cs.map fun m => memcpy m l cp p cc
        c_cq := clp.c_cq.map fun q => clrbits q l cc
        c_cc := clp.c_cc + cc
        c_cl := some (clp.wrap (l + cc)) }, p + cc, count - cc)
  else .done (clp, count)

/-- `b_to_q`; the result is the number of bytes not transferred. -/
def bToQ (cp : Mem) (count : ℤ) (clp : Clist) : Clist × ℤ :=
  if count ≤ 0 then (clp, 0)
  else if clp.c_cc = clp.c_cn then (clp, count)
  else
    match Loop.run (bToQStep cp) (count.toNat + 1) (clp.prepare, 0, count) with
    | .returned r _ => r
    | _ => (clp, count)

/-- `firstc`: the pointer and the character, and the new value of the static `cc`. -/
def firstc (clp : Clist) : Option (ℕ × BitVec 32) × ℕ :=
  if clp.c_cc = 0 then (none, 0)
  else (some (offset clp.c_cf, clp.char (offset clp.c_cf)), clp.c_cc)

/-- `nextc` on a pointer that is not `NULL`, with the static `cc`. -/
def nextc (clp : Clist) (cp : ℕ) (cc : ℕ) : Option (ℕ × BitVec 32) × ℕ :=
  let cc := if clp.c_cf = some cp then clp.c_cc else cc
  if cc = 0 then (none, cc)
  else if cc - 1 = 0 then (none, cc - 1)
  else
    let cp := clp.wrap (cp + 1)
    (some (cp, clp.char cp), cc - 1)

/-- A caller's loop `for (cp = firstc(q, &c); cp; cp = nextc(q, cp, &c))`; the characters
seen. -/
def traverseStep (clp : Clist) (x : Option (ℕ × BitVec 32) × ℕ × List (BitVec 32)) :
    Loop.Step (Option (ℕ × BitVec 32) × ℕ × List (BitVec 32)) (List (BitVec 32)) Empty :=
  match x with
  | (none, _, seen) => .done seen
  | (some (cp, c), cc, seen) =>
    .next ((nextc clp cp cc).1, (nextc clp cp cc).2, seen ++ [c])

def traverse (clp : Clist) : List (BitVec 32) :=
  match Loop.run (traverseStep clp) (clp.c_cc + 1) ((firstc clp).1, (firstc clp).2, []) with
  | .returned seen _ => seen
  | _ => []

def unputc (clp : Clist) : Clist × BitVec 32 :=
  if clp.c_cc = 0 then (clp, -1#32)
  else
    let l := if offset clp.c_cl = 0 then clp.c_ce - 1 else offset clp.c_cl - 1
    let clp₁ : Clist :=
      { clp with
        c_cl := some l
        c_cc := clp.c_cc - 1
        c_cs := clp.c_cs.map fun m => Function.update m l 0#8
        c_cq := clp.c_cq.map fun q => clrbit q l }
    (clp₁.resetEmpty, clp.char l)

/-- The loop of `catq`. -/
def catqStep (x : Clist × Clist) : Loop.Step (Clist × Clist) (Clist × Clist) Empty :=
  let (src, dst) := x
  let (src', c) := getc src
  if c ≠ -1#32 then .next (src', (putc c dst).1) else .done (src', dst)

/-- `catq(from, to)`. -/
def catq (src dst : Clist) : Clist × Clist :=
  if src.c_cc = 0 then (src, dst)
  else if dst.c_cc = 0 ∧ src.c_cn = dst.c_cn then (dst, src)
  else
    match Loop.run catqStep (src.c_cc + 1) (src, dst) with
    | .returned r _ => r
    | _ => (src, dst)

end OpenbsdKernel.Tty
