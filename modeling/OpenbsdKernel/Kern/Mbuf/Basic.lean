import OpenbsdKernel.Lib.Store

/-!
# Mbufs, their storage and their allocation

An mbuf chain is the list of its mbufs. Every mbuf has a data area of its own and
may instead refer to an external buffer, which it can share with other mbufs; the
store holds the bytes of both kinds of storage. The outcomes of the allocations to
come are part of the state. `none` as the result of a function is a panic; a null
chain is the empty list.
-/
namespace OpenbsdKernel.UipcMbuf

open Store

def MLEN : ℕ := 224

def MHLEN : ℕ := 152

/-- Where `m_pktdat` starts within `m_dat`. -/
def PKTDAT : ℕ := MLEN - MHLEN

def MCLBYTES : ℕ := 2048

def MAXMCLBYTES : ℕ := 64 * 1024

def M_COPYALL : ℕ := 1000000000

def mclsizes : List ℕ :=
  [MCLBYTES, 4 * 1024, 8 * 1024, 9 * 1024, 12 * 1024, 16 * 1024, 64 * 1024]

theorem PKTDAT_add_MHLEN : PKTDAT + MHLEN = MLEN := rfl

/-- A piece of storage: the data area of the mbuf at an address, or an external buffer. -/
inductive Buf where
  | dat (addr : ℕ)
  | ext (id : ℕ)
  deriving DecidableEq, Repr

/-- `struct mbuf_ext`; the ring of the mbufs on one buffer is kept as its length in `Mem.refs`. -/
structure Ext where
  ext_buf : ℕ
  ext_size : ℕ
  /-- `M_EXTWR`. -/
  extwr : Bool
  deriving DecidableEq, Repr

structure Pkthdr where
  len : ℤ
  tags : List ℕ
  deriving DecidableEq, Repr

/-- `m_data` counts from the start of the storage: `m_dat`, or `ext_buf` with `M_EXT`. -/
structure Mbuf where
  addr : ℕ
  m_data : ℕ
  m_len : ℕ
  /-- Present with `M_PKTHDR`. -/
  m_pkthdr : Option Pkthdr
  /-- Present with `M_EXT`. -/
  m_ext : Option Ext
  /-- `M_ZEROIZE`. -/
  zeroize : Bool
  deriving DecidableEq, Repr

structure Mem where
  store : Store Buf UInt8
  /-- How many mbufs refer to an external buffer. -/
  refs : ℕ → ℕ
  /-- The address of the next mbuf handed out. -/
  next : ℕ
  /-- The next external buffer handed out. -/
  nextcl : ℕ
  /-- What the next `pool_get` calls do: fail, or return an item; if the item becomes an
  mbuf, its `m_len` field still holds the given value. -/
  grants : ℕ → Option ℕ
  /-- The mbufs put back to the pool, in order. -/
  freed : List ℕ

namespace Mbuf

def buf (m : Mbuf) : Buf :=
  match m.m_ext with
  | some e => .ext e.ext_buf
  | none => .dat m.addr

def base (m : Mbuf) : ℕ :=
  match m.m_ext, m.m_pkthdr with
  | some _, _ => 0
  | none, some _ => PKTDAT
  | none, none => 0

/-- The end of the storage. -/
def limit (m : Mbuf) : ℕ :=
  match m.m_ext with
  | some e => e.ext_size
  | none => MLEN

example (m : Mbuf) (h : m.m_ext = none) (hp : m.m_pkthdr = none) :
    m.base = 0 ∧ m.limit = MLEN := by
  simp [base, limit, h, hp]

def InStorage (m : Mbuf) : Prop := m.base ≤ m.m_data ∧ m.m_data + m.m_len ≤ m.limit

instance (m : Mbuf) : Decidable m.InStorage := inferInstanceAs (Decidable (_ ∧ _))

def locs (m : Mbuf) : List (Buf × ℕ) := region m.buf m.m_data m.m_len

@[simp] theorem length_locs (m : Mbuf) : m.locs.length = m.m_len := length_region _ _ _

end Mbuf

def chainLocs (c : List Mbuf) : List (Buf × ℕ) := c.flatMap Mbuf.locs

/-- The number of bytes in a chain. -/
def chainLen (c : List Mbuf) : ℕ := (c.map Mbuf.m_len).sum

section Chains

@[simp] theorem chainLocs_nil : chainLocs [] = [] := rfl

@[simp] theorem chainLocs_cons (m : Mbuf) (c : List Mbuf) :
    chainLocs (m :: c) = m.locs ++ chainLocs c := rfl

@[simp] theorem chainLocs_append (c d : List Mbuf) :
    chainLocs (c ++ d) = chainLocs c ++ chainLocs d := List.flatMap_append

@[simp] theorem chainLen_nil : chainLen [] = 0 := rfl

@[simp] theorem chainLen_cons (m : Mbuf) (c : List Mbuf) :
    chainLen (m :: c) = m.m_len + chainLen c := rfl

@[simp] theorem chainLen_append (c d : List Mbuf) :
    chainLen (c ++ d) = chainLen c + chainLen d := by
  simp [chainLen]

@[simp] theorem length_chainLocs (c : List Mbuf) : (chainLocs c).length = chainLen c := by
  induction c with
  | nil => rfl
  | cons m c ih => simp [ih]

end Chains

namespace Mem

/-- The bytes of a chain. -/
def bytes (mem : Mem) (c : List Mbuf) : List UInt8 := mem.store.read (chainLocs c)

@[simp] theorem bytes_nil (mem : Mem) : mem.bytes [] = [] := rfl

theorem bytes_cons (mem : Mem) (m : Mbuf) (c : List Mbuf) :
    mem.bytes (m :: c) = mem.store.read m.locs ++ mem.bytes c := by
  simp [bytes]

theorem bytes_append (mem : Mem) (c d : List Mbuf) :
    mem.bytes (c ++ d) = mem.bytes c ++ mem.bytes d := by
  simp [bytes]

@[simp] theorem length_bytes (mem : Mem) (c : List Mbuf) :
    (mem.bytes c).length = chainLen c := by
  simp [bytes]

/-- One `pool_get` has been answered. -/
def advance (mem : Mem) : Mem := { mem with grants := fun i => mem.grants (i + 1) }

/-- `memcpy` of a list of bytes. -/
def copyin (mem : Mem) (b : Buf) (a : ℕ) (vs : List UInt8) : Mem :=
  { mem with store := mem.store.write b a vs }

/-- `memcpy` and `memmove`. -/
def memcpy (mem : Mem) (b : Buf) (a : ℕ) (b' : Buf) (a' n : ℕ) : Mem :=
  mem.copyin b a (mem.store.read (region b' a' n))

def M_READONLY (mem : Mem) (m : Mbuf) : Bool :=
  match m.m_ext with
  | none => false
  | some e => !e.extwr || decide (mem.refs e.ext_buf ≠ 1)

end Mem

def m_leadingspace (mem : Mem) (m : Mbuf) : ℕ :=
  if mem.M_READONLY m then 0 else m.m_data - m.base

def m_trailingspace (mem : Mem) (m : Mbuf) : ℕ :=
  if mem.M_READONLY m then 0 else m.limit - (m.m_data + m.m_len)

def Mem.plain (mem : Mem) (junk : ℕ) : Mbuf :=
  { addr := mem.next, m_data := 0, m_len := junk, m_pkthdr := none, m_ext := none,
    zeroize := false }

/-- `m_get`: the length is not set. -/
def m_get (mem : Mem) : Option Mbuf × Mem :=
  match mem.grants 0 with
  | none => (none, mem.advance)
  | some junk => (some (mem.plain junk), { mem.advance with next := mem.next + 1 })

def m_inithdr (m : Mbuf) : Mbuf :=
  { m with m_data := PKTDAT, m_pkthdr := some ⟨0, []⟩, zeroize := false }

/-- `m_gethdr`: the length is not set. -/
def m_gethdr (mem : Mem) : Option Mbuf × Mem :=
  match mem.grants 0 with
  | none => (none, mem.advance)
  | some junk =>
    (some (m_inithdr (mem.plain junk)), { mem.advance with next := mem.next + 1 })

/-- `m_clpool`: the size of the items of the chosen pool. -/
def m_clpool (pktlen : ℕ) : Option ℕ := mclsizes.find? (pktlen ≤ ·)

/-- `m_clget` with an mbuf: no pool for the length is a panic, an exhausted pool leaves `M_EXT`
clear. -/
def m_clget (mem : Mem) (m : Mbuf) (pktlen : ℕ) : Option (Mbuf × Mem) :=
  match m_clpool pktlen with
  | none => none
  | some size =>
    match mem.grants 0 with
    | none => some (m, mem.advance)
    | some _ =>
      some ({ m with m_data := 0, m_ext := some ⟨mem.nextcl, size, true⟩ },
        { mem.advance with
          nextcl := mem.nextcl + 1, refs := Function.update mem.refs mem.nextcl 1 })

/-- `n->m_ext = o->m_ext; MCLADDREFERENCE(o, n)`. -/
def m_extref (mem : Mem) (o n : Mbuf) : Mbuf × Mem :=
  match o.m_ext with
  | none => (n, mem)
  | some e =>
    ({ n with m_ext := some e },
      { mem with refs := Function.update mem.refs e.ext_buf (mem.refs e.ext_buf + 1) })

/-- `m_extfree`: the mbuf leaves the ring of its buffer. -/
def m_extfree (mem : Mem) (m : Mbuf) : Mem :=
  match m.m_ext with
  | none => mem
  | some e => { mem with refs := Function.update mem.refs e.ext_buf (mem.refs e.ext_buf - 1) }

example (mem : Mem) (m : Mbuf) (h : m.m_ext = none) : m_extfree mem m = mem := by
  simp [m_extfree, h]

/-- `m_zero`, which panics on read-only storage. -/
def m_zero (mem : Mem) (m : Mbuf) : Option Mem :=
  if mem.M_READONLY m then none
  else some (mem.copyin m.buf m.base (List.replicate (m.limit - m.base) 0))

/-- The `M_ZEROIZE` of a freed mbuf goes to the next one of its chain. -/
def zeroizeHead : List Mbuf → List Mbuf
  | [] => []
  | n :: c => { n with zeroize := true } :: c

def m_put (mem : Mem) (m : Mbuf) : Mem :=
  let mem := m_extfree mem m
  { mem with freed := mem.freed ++ [m.addr] }

/-- `m_free` of an mbuf with the chain behind it, which is returned. -/
def m_free (mem : Mem) (m : Mbuf) (n : List Mbuf) : Option (List Mbuf × Mem) :=
  if m.zeroize then
    match m_zero mem m with
    | none => none
    | some mem => some (zeroizeHead n, m_put mem m)
  else some (n, m_put mem m)

/-- The loop of `m_freem`, once for each mbuf. -/
def freeLoop : ℕ → Mem → List Mbuf → Option Mem
  | 0, mem, _ => some mem
  | _ + 1, mem, [] => some mem
  | i + 1, mem, m :: c =>
    match m_free mem m c with
    | none => none
    | some (c, mem) => freeLoop i mem c

def m_freem (mem : Mem) (c : List Mbuf) : Option Mem := freeLoop c.length mem c

/-- `m_tag_copy_chain`: one allocation for each tag. -/
def m_tag_copy_chain : Mem → List ℕ → Option (List ℕ) × Mem
  | mem, [] => (some [], mem)
  | mem, t :: ts =>
    match mem.grants 0 with
    | none => (none, mem.advance)
    | some _ =>
      match m_tag_copy_chain mem.advance ts with
      | (none, mem) => (none, mem)
      | (some ts, mem) => (some (t :: ts), mem)

/-- `m_dup_pkthdr` to `t` from `f`, which must have a header: the flag of the result is set on
an error. -/
def m_dup_pkthdr (mem : Mem) (t f : Mbuf) : Option (Bool × Mbuf × Mem) :=
  match f.m_pkthdr with
  | none => none
  | some ph =>
    match m_tag_copy_chain mem ph.tags with
    | (none, mem) =>
      some (true, { t with m_pkthdr := some { ph with tags := [] }, zeroize := f.zeroize }, mem)
    | (some tags, mem) =>
      some (false,
        { t with
          m_pkthdr := some { ph with tags := tags }, zeroize := f.zeroize,
          m_data := if t.m_ext = none then PKTDAT else t.m_data },
        mem)

def M_ALIGN (m : Mbuf) (len : ℕ) : Mbuf :=
  { m with m_data := m.m_data + (MLEN - len) / 8 * 8 }

def MH_ALIGN (m : Mbuf) (len : ℕ) : Mbuf :=
  { m with m_data := m.m_data + (MHLEN - len) / 8 * 8 }

/-- `m_getptr`: the rest of the chain from the found mbuf on, and the offset into that mbuf. -/
def m_getptr : List Mbuf → ℕ → Option (List Mbuf × ℕ)
  | [], _ => none
  | m :: c, loc =>
    if loc < m.m_len then some (m :: c, loc)
    else
      match c with
      | [] => if loc = m.m_len then some ([m], m.m_len) else none
      | n :: c => m_getptr (n :: c) (loc - m.m_len)

end OpenbsdKernel.UipcMbuf
