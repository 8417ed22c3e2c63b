import Mathlib.Tactic

/-!
# Reassembly of IPv6 fragments

`netinet6/frag6.c`: the reassembly queues, the intake of a fragment, and the functions that give
queues back. The limits can be changed at any time and an allocation can fail at any time, so
both come with each call. `none` is the use of the first fragment of an empty queue.
-/
namespace OpenbsdKernel.Frag6

abbrev Mbuf : Type := List (BitVec 8)

def IPV6_MAXPACKET : ℤ := 65535
def IPV6_FRAGTTL : ℕ := 120

/-- A packet at its fragment header, with the numbers in host order; `ip6_input` has cut it to its
payload length, and `IP6_EXTHDR_GET` found the whole fragment header in it. -/
structure Packet where
  ip6_src : BitVec 128
  ip6_dst : BitVec 128
  ip6_flow : BitVec 32
  ip6_plen : BitVec 16
  ip6f_nxt : BitVec 8
  ip6f_offlg : BitVec 16
  ip6f_ident : BitVec 32
  /-- Where the fragment header begins. -/
  offset : ℕ
  /-- The data behind it. -/
  m : Mbuf
  room : ip6_plen ≠ 0 → offset + 8 ≤ 40 + ip6_plen.toNat
  deriving DecidableEq, Repr

def Packet.more (p : Packet) : Bool := p.ip6f_offlg &&& 1#16 ≠ 0
def Packet.fragoff (p : Packet) : ℤ := (p.ip6f_offlg &&& 0xfff8#16).toNat
def Packet.plen (p : Packet) : ℤ := p.ip6_plen.toNat

def Packet.frgpartlen (p : Packet) : ℤ := 40 + p.plen - (p.offset + 8)

def Packet.unfrglen (p : Packet) : ℤ := p.offset + 8 - 40 - 8

structure Ip6asfrag where
  ip6af_m : Mbuf
  ip6af_offset : ℤ
  ip6af_frglen : ℤ
  ip6af_off : ℤ
  ip6af_flow : BitVec 32
  ip6af_mff : Bool
  deriving DecidableEq, Repr

structure Ip6q where
  ip6q_asfrag : List Ip6asfrag
  ip6q_src : BitVec 128
  ip6q_dst : BitVec 128
  ip6q_unfrglen : ℤ
  ip6q_nfrag : ℕ
  ip6q_ident : BitVec 32
  ip6q_nxt : BitVec 8
  ip6q_ttl : ℕ
  deriving DecidableEq, Repr

/-- `frag6_nfragpackets` and `frag6_nfrags`, of 32 bits. -/
structure Counters where
  frag6_nfragpackets : ℕ
  frag6_nfrags : ℕ
  deriving DecidableEq, Repr

structure State where
  frag6_queue : List Ip6q
  counters : Counters
  deriving DecidableEq, Repr

def State.initial : State := ⟨[], 0, 0⟩

/-- A number of type `u_int`. -/
def uInt (n : ℤ) : ℕ := (n % 2 ^ 32).toNat

/-- `ip6_maxfrags` and `ip6_maxfragpackets`. -/
structure Limits where
  ip6_maxfrags : ℤ
  ip6_maxfragpackets : ℤ
  deriving DecidableEq, Repr

/-- Which allocations succeed: a queue, a fragment, and the mbuf for taking out the fragment
header. -/
structure Memory where
  ip6q : Bool
  ip6af : Bool
  split : Bool
  deriving DecidableEq, Repr

/-- What the caller gets: the packet is gone, or goes on to the next header at an offset, as it
was or with a payload length and the data of all fragments. -/
inductive Return
  | done
  | alone (nxt : BitVec 8) (offset : ℤ)
  | reassembled (nxt : BitVec 8) (offset plen : ℤ) (m : Mbuf)
  deriving DecidableEq, Repr

/-- A queue is given back, with as many fragments as it says it has. -/
def Counters.release (c : Counters) (q6 : Ip6q) : Counters :=
  ⟨uInt (c.frag6_nfragpackets - 1), uInt (c.frag6_nfrags - q6.ip6q_nfrag)⟩

/-- What becomes of a queue (`none`: it is gone), the counters, and what is returned. -/
structure Outcome where
  q6 : Option Ip6q
  counters : Counters
  ret : Return
  deriving DecidableEq, Repr

def ecn (flow : BitVec 32) : BitVec 32 := (flow >>> 20) &&& 3#32

/-- The comparison of the ECN bits with those of the first fragment, which may be marked; `none`
is `goto dropfrag`. -/
def ecnCheck (flow : BitVec 32) (af6 : Ip6asfrag) : Option Ip6asfrag :=
  let ecn0 := ecn af6.ip6af_flow
  if ecn flow = 3#32 then
    if ecn0 = 0#32 then none
    else if ecn0 ≠ 3#32 then some { af6 with ip6af_flow := af6.ip6af_flow ||| (3#32 <<< 20) }
    else some af6
  else if ecn flow = 0#32 ∧ ecn0 ≠ 0#32 then none
  else some af6

/-- The check for complete reassembly; `none` is a gap. -/
def nextOff : ℤ → List Ip6asfrag → Option ℤ
  | next, [] => some next
  | next, af6 :: rest => if af6.ip6af_off ≠ next then none else nextOff (next + af6.ip6af_frglen) rest

/-- `insert`, with the new fragment between others: a complete packet is taken out. -/
def insertFragment (mem : Memory) (q6 : Ip6q) (c : Counters) (before : List Ip6asfrag)
    (ip6af : Ip6asfrag) (after : List Ip6asfrag) : Option Outcome :=
  let q6 := { q6 with ip6q_asfrag := before ++ ip6af :: after, ip6q_nfrag := q6.ip6q_nfrag + 1 }
  let c := { c with frag6_nfrags := uInt (c.frag6_nfrags + 1) }
  match nextOff 0 q6.ip6q_asfrag with
  | none => some ⟨some q6, c, .done⟩
  | some next =>
    match q6.ip6q_asfrag.head?, q6.ip6q_asfrag.getLast? with
    | some first, some paf6 =>
      if paf6.ip6af_mff then some ⟨some q6, c, .done⟩
      else if ¬mem.split then some ⟨none, c.release q6, .done⟩
      else
        let offset := first.ip6af_offset - 8
        some ⟨none, c.release q6, .reassembled q6.ip6q_nxt offset
          ((next % 2 ^ 16 + offset - 40) % 2 ^ 16) (q6.ip6q_asfrag.flatMap Ip6asfrag.ip6af_m)⟩
    | _, _ => none

def tooLong (unfrglen off frglen : ℤ) : Bool :=
  if unfrglen ≥ 0 then unfrglen + off + frglen > IPV6_MAXPACKET else off + frglen > IPV6_MAXPACKET

def Packet.asfrag (p : Packet) : Ip6asfrag :=
  ⟨p.m, p.offset + 8, p.frgpartlen, p.fragoff, p.ip6_flow, p.more⟩

def Ip6q.record (q6 : Ip6q) (p : Packet) : Ip6q :=
  if p.fragoff = 0 then { q6 with ip6q_unfrglen := p.unfrglen, ip6q_nxt := p.ip6f_nxt } else q6

def Ip6q.dequeue (q6 : Ip6q) (p : Packet) : Ip6q :=
  if p.fragoff = 0 then
    { q6 with ip6q_asfrag := q6.ip6q_asfrag.filter fun af6 =>
        ¬q6.ip6q_unfrglen + af6.ip6af_off + af6.ip6af_frglen > IPV6_MAXPACKET }
  else q6

def queueFragment (mem : Memory) (p : Packet) (first_frag : Bool) (q6 : Ip6q) (c : Counters) :
    Option Outcome :=
  let q6 := q6.record p
  if tooLong q6.ip6q_unfrglen p.fragoff p.frgpartlen then some ⟨some q6, c, .done⟩
  else
    let q6 := q6.dequeue p
    let ip6af := p.asfrag
    if ¬mem.ip6af then some ⟨some q6, c, .done⟩
    else if first_frag then insertFragment mem q6 c [] ip6af q6.ip6q_asfrag
    else
      match q6.ip6q_asfrag with
      | [] => none
      | first :: rest =>
        match ecnCheck p.ip6_flow first with
        | none => some ⟨some q6, c, .done⟩
        | some first =>
          let before := (first :: rest).takeWhile fun af6 => af6.ip6af_off ≤ ip6af.ip6af_off
          let after := (first :: rest).dropWhile fun af6 => af6.ip6af_off ≤ ip6af.ip6af_off
          if (∃ paf6 ∈ before.getLast?, paf6.ip6af_off + paf6.ip6af_frglen > ip6af.ip6af_off) ∨
              (∃ af6 ∈ after.head?, ip6af.ip6af_off + ip6af.ip6af_frglen > af6.ip6af_off) then
            some ⟨none, c.release q6, .done⟩
          else insertFragment mem q6 c before ip6af after

def Ip6q.isFor (p : Packet) (q6 : Ip6q) : Bool :=
  p.ip6f_ident = q6.ip6q_ident ∧ p.ip6_src = q6.ip6q_src ∧ p.ip6_dst = q6.ip6q_dst

def Ip6q.new (p : Packet) : Ip6q := ⟨[], p.ip6_src, p.ip6_dst, -1, 0, p.ip6f_ident, 0, IPV6_FRAGTTL⟩

inductive Intake
  | drop
  | alone
  | queue
  deriving DecidableEq, Repr

def intake (lim : Limits) (c : Counters) (p : Packet) : Intake :=
  if p.plen = 0 then .drop
  else if p.more ∧ (p.plen - p.offset) % 8 ≠ 0 then .drop
  else if p.fragoff = 0 ∧ ¬p.more then .alone
  else if lim.ip6_maxfrags ≥ 0 ∧ c.frag6_nfrags ≥ uInt lim.ip6_maxfrags then .drop
  else .queue

def atPacketLimit (lim : Limits) (c : Counters) : Bool :=
  lim.ip6_maxfragpackets ≥ 0 ∧ c.frag6_nfragpackets ≥ uInt lim.ip6_maxfragpackets

def frag6Input (lim : Limits) (mem : Memory) (s : State) (p : Packet) : Option (State × Return) :=
  match intake lim s.counters p with
  | .drop => some (s, .done)
  | .alone => some (s, .alone p.ip6f_nxt (p.offset + 8))
  | .queue =>
    let before := s.frag6_queue.takeWhile fun q6 => ¬q6.isFor p
    match s.frag6_queue.dropWhile fun q6 => ¬q6.isFor p with
    | q6 :: after =>
      (queueFragment mem p false q6 s.counters).map fun o =>
        (⟨before ++ o.q6.toList ++ after, o.counters⟩, o.ret)
    | [] =>
      if atPacketLimit lim s.counters then some (s, .done)
      else
        let c := { s.counters with frag6_nfragpackets := uInt (s.counters.frag6_nfragpackets + 1) }
        if ¬mem.ip6q then some (⟨s.frag6_queue, c⟩, .done)
        else
          (queueFragment mem p true (Ip6q.new p) c).map fun o =>
            (⟨o.q6.toList ++ s.frag6_queue, o.counters⟩, o.ret)

/-- The loop over the queues of `frag6_slowtimo`. -/
def tick : List Ip6q → Counters → List Ip6q × Counters
  | [], c => ([], c)
  | q6 :: rest, c =>
    let q6 := { q6 with ip6q_ttl := (q6.ip6q_ttl + 255) % 256 }
    if q6.ip6q_ttl = 0 then tick rest (c.release q6)
    else (q6 :: (tick rest c).1, (tick rest c).2)

/-- Queues are given back, the last one first, while there are more than `max`. -/
def shrink (max : ℕ) : List Ip6q → Counters → List Ip6q × Counters
  | [], c => ([], c)
  | q6 :: rest, c => if c.frag6_nfragpackets > max then shrink max rest (c.release q6) else (q6 :: rest, c)

def frag6Slowtimo (lim : Limits) (s : State) : State :=
  let (queue, c) := tick s.frag6_queue s.counters
  let (queue, c) := shrink (uInt lim.ip6_maxfragpackets) queue.reverse c
  ⟨queue.reverse, c⟩

def frag6Drain (s : State) : State := ⟨[], s.frag6_queue.foldl Counters.release s.counters⟩

end OpenbsdKernel.Frag6
