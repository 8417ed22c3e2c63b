import Mathlib.Tactic
import OpenbsdKernel.Lib.Reassembly

/-!
# Reassembly of IP datagrams

`netinet/ip_input.c`: the intake of a fragment in `ipv4_input`, `ip_reass`, and the functions
that give queues back. The header of a fragment, which `ip_reass` hides in front of the data by
moving `m_data`, is kept beside the data. `none` is the use of a fragment of an empty queue.
-/
namespace OpenbsdKernel.IpInput

abbrev Mbuf : Type := List (BitVec 8)

def IP_MAXPACKET : ℕ := 65535
def IPFRAGTTL : ℕ := 60

/-- `struct ip`; `ip_len` and `ip_off` as numbers, `ip_rest` the fields that are only carried
along. -/
structure Ip where
  ip_hl : ℕ
  ip_tos : BitVec 8
  ip_len : ℕ
  ip_id : BitVec 16
  ip_off : ℕ
  ip_p : BitVec 8
  ip_src : BitVec 32
  ip_dst : BitVec 32
  ip_rest : List (BitVec 8)
  deriving DecidableEq, Repr

/-- `struct ipqent`, with the data of its mbuf. -/
structure Ipqent where
  ipqe_ip : Ip
  ipqe_m : Mbuf
  ipqe_mff : Bool
  deriving DecidableEq, Repr

structure Ipq where
  ipq_ttl : ℕ
  ipq_p : BitVec 8
  ipq_id : BitVec 16
  ipq_src : BitVec 32
  ipq_dst : BitVec 32
  ipq_fragq : List Ipqent
  deriving DecidableEq, Repr

/-- The list of queues and the number of entries. -/
structure State where
  ipq : List Ipq
  ip_frags : ℤ
  deriving DecidableEq, Repr

def State.initial : State := ⟨[], 0⟩

def htons (n : ℕ) : ℕ := n % 2 ^ 16

def Ipqent.off (q : Ipqent) : ℕ := q.ipqe_ip.ip_off
def Ipqent.len (q : Ipqent) : ℕ := q.ipqe_ip.ip_len
def Ipqent.fin (q : Ipqent) : ℕ := q.off + q.len

/-- The first `i` bytes are cut off: `m_adj`, `ip_off` and `ip_len`. -/
def Ipqent.cut (i : ℕ) (q : Ipqent) : Ipqent :=
  { q with
    ipqe_ip := { q.ipqe_ip with ip_off := htons (q.off + i), ip_len := htons (q.len - i) }
    ipqe_m := q.ipqe_m.drop i }

def ecn (ip : Ip) : BitVec 8 := ip.ip_tos &&& 3#8

/-- The comparison of the ECN bits with those of the first entry, which may be marked; `none`
is `goto dropfrag`. -/
def ecnCheck (ipqe first : Ipqent) : Option Ipqent :=
  let marked := { first with ipqe_ip := { first.ipqe_ip with ip_tos := first.ipqe_ip.ip_tos ||| 3#8 } }
  if ecn ipqe.ipqe_ip = 3#8 ∧ ecn first.ipqe_ip = 0#8 then none
  else if ecn ipqe.ipqe_ip = 0#8 ∧ ecn first.ipqe_ip ≠ 0#8 then none
  else if ecn ipqe.ipqe_ip = 3#8 ∧ ecn first.ipqe_ip ≠ 3#8 then some marked
  else some first

/-- What the preceding entry already provides is dropped; `none` is `goto dropfrag`. -/
def dropProvided (ipqe : Ipqent) : Option Ipqent → Option Ipqent
  | none => some ipqe
  | some p =>
    if p.fin > ipqe.off then
      if p.fin - ipqe.off ≥ ipqe.len then none else some (ipqe.cut (p.fin - ipqe.off))
    else some ipqe

def trimSucceeding (ipqe : Ipqent) : List Ipqent → ℤ → List Ipqent × ℤ
  | [], ip_frags => ([], ip_frags)
  | q :: nq, ip_frags =>
    if ipqe.fin > q.off then
      if ipqe.fin - q.off < q.len then (q.cut (ipqe.fin - q.off) :: nq, ip_frags)
      else trimSucceeding ipqe nq (ip_frags - 1)
    else (q :: nq, ip_frags)

/-- The check for complete reassembly; `none` is a gap. -/
def nextOff : ℕ → List Ipqent → Option ℕ
  | next, [] => some next
  | next, q :: nq => if q.off ≠ next then none else nextOff (next + q.len) nq

/-- What becomes of the queue (`none`: it is gone), the datagram returned and `ip_frags`. -/
structure Reass where
  fp : Option Ipq
  m : Option (Ip × Mbuf)
  ip_frags : ℤ
  deriving DecidableEq, Repr

def ipComplete (fp : Ipq) (ip_frags : ℤ) : Option Reass :=
  match nextOff 0 fp.ipq_fragq with
  | none => some ⟨some fp, none, ip_frags⟩
  | some next =>
    match fp.ipq_fragq.head?, fp.ipq_fragq.getLast? with
    | some q, some p =>
      if p.ipqe_mff then some ⟨some fp, none, ip_frags⟩
      else if next + 4 * q.ipqe_ip.ip_hl > IP_MAXPACKET then
        some ⟨none, none, ip_frags - fp.ipq_fragq.length⟩
      else
        some ⟨none, some ({ q.ipqe_ip with
          ip_len := htons next, ip_src := fp.ipq_src, ip_dst := fp.ipq_dst },
          fp.ipq_fragq.flatMap Ipqent.ipqe_m), ip_frags - fp.ipq_fragq.length⟩
    | _, _ => none

def ipReassQueue (ipqe : Ipqent) (fp : Ipq) (ip_frags : ℤ) : Option Reass :=
  match fp.ipq_fragq with
  | [] => none
  | first :: fragq =>
    match ecnCheck ipqe first with
    | none => some ⟨some fp, none, ip_frags - 1⟩
    | some first =>
      let fragq := first :: fragq
      let before := fragq.takeWhile fun q => q.off ≤ ipqe.off
      let after := fragq.dropWhile fun q => q.off ≤ ipqe.off
      match dropProvided ipqe before.getLast? with
      | none => some ⟨some { fp with ipq_fragq := fragq }, none, ip_frags - 1⟩
      | some ipqe =>
        let (after, ip_frags) := trimSucceeding ipqe after ip_frags
        ipComplete { fp with ipq_fragq := before ++ ipqe :: after } ip_frags

/-- `ip_reass`; `alloc` says that `pool_get(&ipq_pool)` succeeds. -/
def ipReass (alloc : Bool) (ipqe : Ipqent) (fp : Option Ipq) (ip_frags : ℤ) : Option Reass :=
  match fp with
  | none =>
    if alloc then
      ipComplete ⟨IPFRAGTTL, ipqe.ipqe_ip.ip_p, ipqe.ipqe_ip.ip_id, ipqe.ipqe_ip.ip_src,
        ipqe.ipqe_ip.ip_dst, [ipqe]⟩ ip_frags
    else some ⟨none, none, ip_frags - 1⟩
  | some fp => ipReassQueue ipqe fp ip_frags

/-- The queue of a fragment. -/
def Ipq.matches (fp : Ipq) (ip : Ip) : Bool :=
  ip.ip_id = fp.ipq_id ∧ ip.ip_src = fp.ipq_src ∧ ip.ip_dst = fp.ipq_dst ∧ ip.ip_p = fp.ipq_p

/-- The entry is counted and given to `ip_reass` with its queue; a new queue is put in front. -/
def reassemble (alloc : Bool) (st : State) (ipqe : Ipqent) : Option (Option (Ip × Mbuf) × State) :=
  let front := st.ipq.takeWhile fun fp => !fp.matches ipqe.ipqe_ip
  match st.ipq.dropWhile fun fp => !fp.matches ipqe.ipqe_ip with
  | [] => (ipReass alloc ipqe none (st.ip_frags + 1)).map fun r =>
      (r.m, ⟨r.fp.toList ++ st.ipq, r.ip_frags⟩)
  | fp :: rest => (ipReass alloc ipqe (some fp) (st.ip_frags + 1)).map fun r =>
      (r.m, ⟨front ++ r.fp.toList ++ rest, r.ip_frags⟩)

/-- `ip_freef` of the first queue. -/
def freeFirst (st : State) : State :=
  match st.ipq with
  | [] => st
  | fp :: ipq => ⟨ipq, st.ip_frags - fp.ipq_fragq.length⟩

/-- The loop of `ip_flush`, with `max` one more than the passes left. -/
def ipFlushLoop (ip_maxqueue : ℤ) : ℕ → State → State
  | 0, st => st
  | max + 1, st =>
    if st.ipq ≠ [] ∧ st.ip_frags > ip_maxqueue * 3 / 4 then ipFlushLoop ip_maxqueue max (freeFirst st)
    else st

/-- `ip_flush`: `--max` from 50. -/
def ipFlush (ip_maxqueue : ℤ) (st : State) : State := ipFlushLoop ip_maxqueue 49 st

def ipDrain (st : State) : State := st.ipq.foldl (fun st _ => freeFirst st) st

/-- `ip_slowtimo`; `ipq_ttl` is a byte. -/
def ipSlowtimo (st : State) : State :=
  st.ipq.foldl (fun (acc : State) fp =>
    let ttl := (fp.ipq_ttl + 255) % 256
    if ttl = 0 then { acc with ip_frags := acc.ip_frags - fp.ipq_fragq.length }
    else { acc with ipq := acc.ipq ++ [{ fp with ipq_ttl := ttl }] }) ⟨[], st.ip_frags⟩

/-- A packet with its offset field and flags as they were received. -/
structure Packet where
  ip : Ip
  m : Mbuf
  deriving DecidableEq, Repr

/-- The queue of a fragment is given back. -/
def freeMatching (st : State) (ip : Ip) : State :=
  match st.ipq.dropWhile fun fp => !fp.matches ip with
  | [] => st
  | fp :: rest =>
    ⟨(st.ipq.takeWhile fun fp => !fp.matches ip) ++ rest, st.ip_frags - fp.ipq_fragq.length⟩

/-- The fragment part of `ipv4_input`, for a packet with an offset or with `IP_MF`; the flags
say that the two allocations succeed. -/
def intake (ip_maxqueue : ℤ) (allocEnt allocQ : Bool) (st : State) (pkt : Packet) :
    Option (Option (Ip × Mbuf) × State) :=
  let mff : Bool := pkt.ip.ip_off / 2 ^ 13 % 2 = 1
  let ip : Ip := { pkt.ip with
    ip_len := htons (2 ^ 16 + pkt.ip.ip_len - 4 * pkt.ip.ip_hl), ip_off := htons (pkt.ip.ip_off * 8) }
  if mff = true ∧ (ip.ip_len = 0 ∨ ip.ip_len % 8 ≠ 0) then some (none, st)
  else if mff = true ∨ ip.ip_off ≠ 0 then
    if st.ip_frags + 1 > ip_maxqueue then some (none, ipFlush ip_maxqueue st)
    else if allocEnt then reassemble allocQ st ⟨ip, pkt.m, mff⟩
    else some (none, st)
  else some (none, freeMatching st ip)

end OpenbsdKernel.IpInput
