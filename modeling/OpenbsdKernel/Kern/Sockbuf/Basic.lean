import Mathlib.Tactic
import OpenbsdKernel.Lib.Loop

/-!
# Socket buffers

The routines of `kern/uipc_socket2.c` that add mbufs to a socket buffer and drop data from
it. The queue is the list of records that `sb_mb` and the `m_nextpkt` links reach, a record
the list of mbufs along `m_next`. The cached pointers `sb_mbtail` and `sb_lastrecord` are
addresses of their own, so that they can go stale.

The data bytes are left out, and so are the consistency checks that exist under
`SOCKBUF_DEBUG` only, except for `sblastmbufchk` itself.
-/
namespace OpenbsdKernel.UipcSocket2

abbrev Addr := ℕ

def MSIZE : ℕ := 256

/-- `MSIZE - sizeof(struct m_hdr)` where pointers have eight bytes. -/
def MLEN : ℕ := MSIZE - 32

def MCLBYTES : ℕ := 2048

/-- The `MT_` types of an mbuf in use. -/
inductive MType where
  | data | header | soname | soopts | ftable | control | oobdata
  deriving DecidableEq, Repr

/-- `struct mbuf` at address `addr`. `m_pkthdr` is the length in the packet header if
`M_PKTHDR` is set, `m_ext` the `ext_size` if `M_EXT` is, and `m_off` the distance of
`m_data` from the start of the storage. `m_shared` says that external storage cannot be
written, because it lacks `M_EXTWR` or has other references. -/
structure Mbuf where
  addr : Addr
  m_len : ℕ
  m_type : MType
  m_eor : Bool
  m_pkthdr : Option ℤ
  m_ext : Option ℕ
  m_off : ℕ
  m_shared : Bool
  deriving DecidableEq, Repr

namespace Mbuf

def readonly (m : Mbuf) : Bool := m.m_ext.isSome && m.m_shared

/-- The size of the storage that `m_data` points into. -/
def storage (m : Mbuf) : ℕ := m.m_ext.getD MLEN

def trailingspace (m : Mbuf) : ℕ :=
  if m.readonly then 0 else m.storage - (m.m_off + m.m_len)

/-- The type is not one of those that `sb_datacc` leaves out. -/
def isData (m : Mbuf) : Bool := m.m_type ≠ .control && m.m_type ≠ .soname

def dataLen (m : Mbuf) : ℕ := if m.isData then m.m_len else 0

/-- What an mbuf counts for in `sb_mbcnt`. -/
def space (m : Mbuf) : ℕ := MSIZE + m.m_ext.getD 0

/-- The condition under which `sbcompress` copies `m` behind the data of `n`. -/
def takes (n m : Mbuf) : Bool :=
  !n.m_eor && m.m_len ≤ MCLBYTES / 4 && m.m_len ≤ n.trailingspace && n.m_type = m.m_type

/-- `n` after `k` bytes were copied behind its data. -/
def grow (n : Mbuf) (k : ℕ) : Mbuf := { n with m_len := n.m_len + k }

/-- `n` after `k` bytes were taken from its front. -/
def trim (n : Mbuf) (k : ℕ) : Mbuf := { n with m_len := n.m_len - k, m_off := n.m_off + k }

def setEor (n : Mbuf) (b : Bool) : Mbuf := { n with m_eor := b }

end Mbuf

/-- Up to the first element that satisfies `p`, then `x`: the effect of overwriting the
link of that element. -/
def linkAfter {α : Type*} (p : α → Bool) (x : α) : List α → List α
  | [] => []
  | y :: l => if p y then [y, x] else y :: linkAfter p x l

abbrev Queue := List (List Mbuf)

namespace Queue

def lookup (q : Queue) (a : Addr) : Option Mbuf := q.flatten.find? fun m => m.addr = a

def update (q : Queue) (a : Addr) (f : Mbuf → Mbuf) : Queue :=
  q.map fun r => r.map fun m => if m.addr = a then f m else m

/-- `n->m_next = m` for the mbuf `n` at address `a`. -/
def setNext (q : Queue) (a : Addr) (m : Mbuf) : Queue :=
  q.map (linkAfter (fun n => n.addr = a) m)

/-- `n->m_nextpkt = m0` for the mbuf `n` at address `a`. -/
def setNextpkt (q : Queue) (a : Addr) (r : List Mbuf) : Queue :=
  linkAfter (fun p => p.head?.map Mbuf.addr = some a) r q

/-- The mbufs along `m_next` from address `a` on. -/
def chainFrom (q : Queue) (a : Addr) : List Mbuf :=
  ((q.find? fun r => r.any fun m => m.addr = a).getD []).dropWhile fun m => m.addr ≠ a

def lastHead (q : Queue) : Option Addr := (q.getLast?.bind List.head?).map Mbuf.addr

/-- The last mbuf of the last record. -/
def lastMbuf (q : Queue) : Option Addr := (q.getLast?.bind List.getLast?).map Mbuf.addr

end Queue

inductive Stop where
  | panic (text : String)
  | useAfterFree
  deriving DecidableEq, Repr

def kassert (b : Bool) (expr : String) : Except Stop Unit :=
  if b then .ok () else .error (.panic expr)

/-- `struct sockbuf`; `records` is the queue at `sb_mb`. -/
structure Sockbuf where
  records : Queue
  sb_cc : ℕ
  sb_datacc : ℕ
  sb_mbcnt : ℕ
  sb_hiwat : ℕ
  sb_mbmax : ℕ
  sb_mbtail : Option Addr
  sb_lastrecord : Option Addr
  sb_lock : Bool
  deriving DecidableEq, Repr

def Sockbuf.empty (hiwat mbmax : ℕ) : Sockbuf := ⟨[], 0, 0, 0, hiwat, mbmax, none, none, false⟩

namespace Sockbuf

def sballoc (sb : Sockbuf) (m : Mbuf) : Sockbuf :=
  { sb with
    sb_cc := sb.sb_cc + m.m_len
    sb_datacc := sb.sb_datacc + m.dataLen
    sb_mbcnt := sb.sb_mbcnt + m.space }

def sbfree (sb : Sockbuf) (m : Mbuf) : Sockbuf :=
  { sb with
    sb_cc := sb.sb_cc - m.m_len
    sb_datacc := sb.sb_datacc - m.dataLen
    sb_mbcnt := sb.sb_mbcnt - m.space }

def sbspace (sb : Sockbuf) : ℤ :=
  min ((sb.sb_hiwat : ℤ) - sb.sb_cc) ((sb.sb_mbmax : ℤ) - sb.sb_mbcnt)

def deref (sb : Sockbuf) (a : Addr) : Except Stop Mbuf :=
  match sb.records.lookup a with
  | some m => .ok m
  | none => .error .useAfterFree

def setRecords (sb : Sockbuf) (q : Queue) : Sockbuf := { sb with records := q }

/-- The check of `SOCKBUF_DEBUG` on `sb_mbtail`. -/
def sblastmbufchk (sb : Sockbuf) : Except Stop Unit :=
  if sb.records.lastMbuf = sb.sb_mbtail then .ok () else .error (.panic "sblastmbufchk")

/-- `SBLINKRECORD`. -/
def linkRecord (sb : Sockbuf) (r : List Mbuf) : Sockbuf :=
  { sb with
    records := match sb.sb_lastrecord with
      | some a => sb.records.setNextpkt a r
      | none => [r]
    sb_lastrecord := r.head?.map Mbuf.addr }

/-- `((o = m->m_next) || (o = n)) && o->m_type == m->m_type` -/
def sameTypeNext (sb : Sockbuf) (m : Mbuf) : List Mbuf → Option Addr → Except Stop Bool
  | o :: _, _ => .ok (o.m_type = m.m_type)
  | [], some a => do
    let o ← sb.deref a
    .ok (o.m_type = m.m_type)
  | [], none => .ok false

/-- `sbcompress` throws `m` away. -/
def discards (sb : Sockbuf) (m : Mbuf) (rest : List Mbuf) (n : Option Addr) (eor : Bool) :
    Except Stop Bool :=
  if m.m_len = 0 then
    if eor then sb.sameTypeNext m rest n else .ok true
  else .ok false

/-- `sbcompress` copies `m` into `n`. -/
def merges (sb : Sockbuf) (m : Mbuf) : Option Addr → Except Stop Bool
  | some a => do
    let n ← sb.deref a
    .ok (n.takes m)
  | none => .ok false

/-- `m` is freed; `sb_lastrecord` moves on if it pointed at it. -/
def discard (sb : Sockbuf) (m : Mbuf) (rest : List Mbuf) : Sockbuf :=
  { sb with sb_lastrecord :=
      if sb.sb_lastrecord = some m.addr then rest.head?.map Mbuf.addr else sb.sb_lastrecord }

/-- The bytes of `m` go behind those of the mbuf at `n`. -/
def merge (sb : Sockbuf) (m : Mbuf) (n : Option Addr) : Sockbuf :=
  { sb with
    records := match n with
      | some a => sb.records.update a fun n => n.grow m.m_len
      | none => sb.records
    sb_cc := sb.sb_cc + m.m_len
    sb_datacc := sb.sb_datacc + m.dataLen }

/-- `m` alone is linked behind `n`, or becomes the queue if `n` is `NULL`. -/
def link (sb : Sockbuf) (m : Mbuf) (n : Option Addr) : Sockbuf :=
  ({ sb with
    records := match n with
      | some a => sb.records.setNext a (m.setEor false)
      | none => [[m.setEor false]]
    sb_mbtail := some m.addr } : Sockbuf).sballoc m

/-- `if (eor) n->m_flags |= eor`; without an `n` only a message is printed. -/
def flagEor (sb : Sockbuf) (eor : Bool) : Option Addr → Except Stop Sockbuf
  | some a =>
    if eor then do
      let _ ← sb.deref a
      .ok (sb.setRecords (sb.records.update a fun n => n.setEor true))
    else .ok sb
  | none => .ok sb

/-- The loop of `sbcompress` over the chain `m`, with the flags seen so far in `eor`. -/
def sbcompress : List Mbuf → Option Addr → Bool → Sockbuf → Except Stop Sockbuf
  | [], n, eor, sb => sb.flagEor eor n
  | m :: rest, n, eor, sb => do
    if ← sb.discards m rest n (eor || m.m_eor) then
      sbcompress rest n (eor || m.m_eor) (sb.discard m rest)
    else if ← sb.merges m n then
      sbcompress rest n (eor || m.m_eor) (sb.merge m n)
    else
      sbcompress rest (some m.addr) (eor || m.m_eor) (sb.link m n)

/-- `M_EOR` moves from the first mbuf of a record to the second. -/
def passEor : Mbuf → List Mbuf → Mbuf × List Mbuf
  | m0, m :: rest =>
    if m0.m_eor then (m0.setEor false, m.setEor true :: rest) else (m0, m :: rest)
  | m0, [] => (m0, [])

example (m : Mbuf) : passEor m [] = (m, []) := by simp [passEor]

def sbappendrecord (sb : Sockbuf) : List Mbuf → Except Stop Sockbuf
  | [] => .ok sb
  | m0 :: rest =>
    sbcompress (passEor m0 rest).2 (some m0.addr) false
      ((sb.sballoc m0).linkRecord [(passEor m0 rest).1])

def sbappend (sb : Sockbuf) : List Mbuf → Except Stop Sockbuf
  | [] => .ok sb
  | m :: rest =>
    match sb.sb_lastrecord with
    | some a =>
      match (sb.records.chainFrom a).getLast? with
      | some n =>
        if (sb.records.chainFrom a).any Mbuf.m_eor then sb.sbappendrecord (m :: rest)
        else sbcompress (m :: rest) (some n.addr) false sb
      | none => .error .useAfterFree
    | none => sbcompress (m :: rest) none false { sb with sb_lastrecord := some m.addr }

/-- `sb_mb` as an address. -/
def sb_mb (sb : Sockbuf) : Option Addr := (sb.records.head?.bind List.head?).map Mbuf.addr

def sbappendstream (sb : Sockbuf) (m : List Mbuf) : Except Stop Sockbuf := do
  kassert (sb.sb_mb = sb.sb_lastrecord) "sb->sb_mb == sb->sb_lastrecord"
  let sb' ← sbcompress m sb.sb_mbtail false sb
  .ok { sb' with sb_lastrecord := sb'.sb_mb }

/-- The search of `sbinsertoob` goes past the record: it starts with out-of-band data, or
with control information and then out-of-band data. -/
def isOob : List Mbuf → Bool
  | [] => false
  | m :: r =>
    match m.m_type with
    | .oobdata => true
    | .control => isOob r
    | _ => false

/-- The record of `m` alone is put behind the out-of-band data. -/
def insertRecord (sb : Sockbuf) (m : Mbuf) : Sockbuf :=
  { sb.sballoc m with
    records := sb.records.takeWhile isOob ++ [m] :: sb.records.dropWhile isOob
    sb_lastrecord := if sb.records.dropWhile isOob = [] then some m.addr else sb.sb_lastrecord }

def sbinsertoob (sb : Sockbuf) : List Mbuf → Except Stop Sockbuf
  | [] => .ok sb
  | m0 :: rest =>
    sbcompress (passEor m0 rest).2 (some m0.addr) false (sb.insertRecord (passEor m0 rest).1)

/-- A number as an `int`. -/
def cint (x : ℤ) : ℤ := x.bmod (2 ^ 32)

def lenSum (l : List Mbuf) : ℕ := (l.map Mbuf.m_len).sum

def appendChain (sb : Sockbuf) (r : List Mbuf) : Sockbuf :=
  { (r.foldl sballoc sb).linkRecord r with sb_mbtail := r.getLast?.map Mbuf.addr }

/-- The mbuf for the address, as `MGET` returns it at `a`. -/
def soname (a : Addr) (sa_len : Fin 256) : Mbuf := ⟨a, sa_len, .soname, false, none, none, 0, false⟩

/-- `sbappendaddr` for an address of `sa_len` bytes; `mget` is what the allocation of the
mbuf for it yields. -/
def sbappendaddr (sb : Sockbuf) (sa_len : Fin 256) (m0 control : List Mbuf)
    (mget : Option Addr) : Except Stop (ℕ × Sockbuf) :=
  if m0.head?.any fun m => m.m_pkthdr.isNone then .error (.panic "sbappendaddr")
  else
    let pkt : ℤ := (m0.head?.bind Mbuf.m_pkthdr).getD 0
    let space := cint (sa_len + pkt + lenSum control)
    if space > sb.sbspace then .ok (0, sb)
    else if (sa_len : ℕ) > MLEN then .ok (0, sb)
    else
      match mget with
      | none => .ok (0, sb)
      | some a => .ok (1, sb.appendChain (soname a sa_len :: (control ++ m0)))

def sbappendcontrol (sb : Sockbuf) (m0 control : List Mbuf) : Except Stop (ℕ × Sockbuf) :=
  if control = [] then .error (.panic "sbappendcontrol")
  else if cint (lenSum control + lenSum m0) > sb.sbspace then .ok (0, sb)
  else .ok (1, sb.appendChain (control ++ m0))

/-- `len` bytes of `m` are no longer counted. -/
def sbtrim (sb : Sockbuf) (m : Mbuf) (len : ℕ) : Sockbuf :=
  { sb with
    sb_cc := sb.sb_cc - len
    sb_datacc := if m.isData then sb.sb_datacc - len else sb.sb_datacc }

/-- The first loop of `sbdrop` inside one record: what is still to be dropped, and what is
left of the record. -/
def dropMbufs : ℕ → List Mbuf → Sockbuf → ℕ × List Mbuf × Sockbuf
  | len, [], sb => (len, [], sb)
  | len, m :: r, sb =>
    if len = 0 then (0, m :: r, sb)
    else if m.m_len > len then (0, m.trim len :: r, sb.sbtrim m len)
    else dropMbufs (len - m.m_len) r (sb.sbfree m)

/-- The first loop of `sbdrop`, from the record `m` on into the records `next`. -/
def dropRecords : Queue → ℕ → List Mbuf → Sockbuf → Except Stop (List Mbuf × Queue × Sockbuf)
  | next, len, m, sb =>
    match dropMbufs len m sb with
    | (0, m', sb') => .ok (m', next, sb')
    | (len' + 1, _, sb') =>
      match next with
      | [] => .error (.panic "sbdrop")
      | r :: next' => dropRecords next' (len' + 1) r sb'

/-- The second loop of `sbdrop`. -/
def dropEmpty : List Mbuf → Sockbuf → List Mbuf × Sockbuf
  | [], sb => ([], sb)
  | m :: r, sb => if m.m_len = 0 then dropEmpty r (sb.sbfree m) else (m :: r, sb)

/-- The end of `sbdrop`: the queue that is left, and the cached pointers for it. -/
def dropFixup (sb : Sockbuf) (q : Queue) : Sockbuf :=
  match q with
  | [] => { sb with records := [], sb_mbtail := none, sb_lastrecord := none }
  | [r] => { sb with records := [r], sb_lastrecord := r.head?.map Mbuf.addr }
  | _ => { sb with records := q }

def sbdrop (sb : Sockbuf) (len : ℤ) : Except Stop Sockbuf := do
  let (m, next, sb1) ← dropRecords sb.records.tail len.toNat (sb.records.head?.getD []) sb
  let (m', sb2) := dropEmpty m sb1
  .ok (sb2.dropFixup (if m' = [] then next else m' :: next))

/-- `SB_EMPTY_FIXUP`. -/
def emptyFixup (sb : Sockbuf) : Sockbuf :=
  if sb.records = [] then { sb with sb_mbtail := none, sb_lastrecord := none } else sb

def sbdroprecord (sb : Sockbuf) : Sockbuf :=
  match sb.records with
  | [] => sb.emptyFixup
  | r :: next => ((r.foldl sbfree sb).setRecords next).emptyFixup

/-- The assertions of `sbflush` after its loop. -/
def flushAsserts (sb : Sockbuf) : Except Stop Unit := do
  kassert (sb.sb_cc = 0) "sb->sb_cc == 0"
  kassert (sb.sb_datacc = 0) "sb->sb_datacc == 0"
  kassert (sb.records = []) "sb->sb_mb == NULL"
  kassert (sb.sb_mbtail = none) "sb->sb_mbtail == NULL"
  kassert (sb.sb_lastrecord = none) "sb->sb_lastrecord == NULL"

/-- One round of the loop in `sbflush`, and what follows the loop. -/
def flushStep (sb : Sockbuf) : Loop.Step Sockbuf Sockbuf Stop :=
  if sb.sb_mbcnt ≠ 0 then
    match sb.sbdrop (cint sb.sb_cc) with
    | .ok sb' => .next sb'
    | .error e => .wrong e
  else
    match sb.flushAsserts with
    | .ok _ => .done sb
    | .error e => .wrong e

def sbflush (fuel : ℕ) (sb : Sockbuf) : Loop.Outcome Sockbuf Sockbuf Stop :=
  if sb.sb_lock then .wrong (.panic "(sb->sb_flags & SB_LOCK) == 0") 0
  else Loop.run flushStep fuel sb

end Sockbuf

end OpenbsdKernel.UipcSocket2
