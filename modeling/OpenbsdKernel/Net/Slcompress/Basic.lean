import OpenbsdKernel.Lib.OnesComplement
import Mathlib.Data.BitVec

/-!
# Compressed TCP/IP headers

`net/slcompress.c`: a header is sent as what has changed since the last packet of its connection. The
fields of the headers are taken in host order, the options and the data as bytes. The statistics are
left out.
-/
namespace OpenbsdKernel.Vjc

open OnesComplement

structure Ip where
  ip_v : BitVec 4
  ip_hl : BitVec 4
  ip_tos : BitVec 8
  ip_len : BitVec 16
  ip_id : BitVec 16
  ip_off : BitVec 16
  ip_ttl : BitVec 8
  ip_p : BitVec 8
  ip_sum : BitVec 16
  ip_src : BitVec 32
  ip_dst : BitVec 32
  deriving DecidableEq, Repr

structure Tcphdr where
  th_sport : BitVec 16
  th_dport : BitVec 16
  th_seq : BitVec 32
  th_ack : BitVec 32
  th_x2 : BitVec 4
  th_off : BitVec 4
  th_flags : BitVec 8
  th_win : BitVec 16
  th_sum : BitVec 16
  th_urp : BitVec 16
  deriving DecidableEq, Repr

/-- What is copied to a `struct cstate`: the headers with their options. -/
structure Header where
  ip : Ip
  ipopts : List (BitVec 8)
  th : Tcphdr
  tcpopts : List (BitVec 8)
  deriving DecidableEq, Repr

structure Packet where
  hdr : Header
  data : List (BitVec 8)
  deriving DecidableEq, Repr

def TH_FIN : BitVec 8 := 0x01
def TH_SYN : BitVec 8 := 0x02
def TH_RST : BitVec 8 := 0x04
def TH_PUSH : BitVec 8 := 0x08
def TH_ACK : BitVec 8 := 0x10
def TH_URG : BitVec 8 := 0x20
def TH_ECE : BitVec 8 := 0x40
def TH_CWR : BitVec 8 := 0x80

def IPPROTO_TCP : BitVec 8 := 6

/-- The length of the headers by what they say themselves. -/
def Header.hlen (h : Header) : ℕ := h.ip.ip_hl.toNat * 4 + h.th.th_off.toNat * 4

def Packet.len (p : Packet) : ℕ := 20 + p.hdr.ipopts.length + 20 + p.hdr.tcpopts.length + p.data.length

def hi (n : BitVec 16) : BitVec 8 := (n >>> 8).setWidth 8
def lo (n : BitVec 16) : BitVec 8 := n.setWidth 8

def addrBytes (a : BitVec 32) : List (BitVec 8) :=
  [a.extractLsb' 24 8, a.extractLsb' 16 8, a.extractLsb' 8 8, a.extractLsb' 0 8]

def Header.ipBytes (h : Header) : List (BitVec 8) :=
  [h.ip.ip_v ++ h.ip.ip_hl, h.ip.ip_tos, hi h.ip.ip_len, lo h.ip.ip_len, hi h.ip.ip_id, lo h.ip.ip_id,
    hi h.ip.ip_off, lo h.ip.ip_off, h.ip.ip_ttl, h.ip.ip_p, hi h.ip.ip_sum, lo h.ip.ip_sum] ++
    addrBytes h.ip.ip_src ++ addrBytes h.ip.ip_dst ++ h.ipopts

def MAX_STATES : ℕ := 16

/-- `MLEN`, where pointers have 64 bits. -/
def MAX_HDR : ℕ := 224

def NEW_C : BitVec 8 := 0x40
def NEW_I : BitVec 8 := 0x20
def TCP_PUSH_BIT : BitVec 8 := 0x10
def NEW_S : BitVec 8 := 0x08
def NEW_A : BitVec 8 := 0x04
def NEW_W : BitVec 8 := 0x02
def NEW_U : BitVec 8 := 0x01
def SPECIAL_I : BitVec 8 := NEW_S ||| NEW_W ||| NEW_U
def SPECIAL_D : BitVec 8 := NEW_S ||| NEW_A ||| NEW_W ||| NEW_U
def SPECIALS_MASK : BitVec 8 := NEW_S ||| NEW_A ||| NEW_W ||| NEW_U

def ENCODE (n : BitVec 32) : List (BitVec 8) :=
  let n := n.setWidth 16
  if 256#16 ≤ n then [0, hi n, lo n] else [lo n]

def ENCODEZ (n : BitVec 32) : List (BitVec 8) :=
  let n := n.setWidth 16
  if 256#16 ≤ n ∨ n = 0 then [0, hi n, lo n] else [lo n]

/-- `changes` and the bytes of `new_seq` before `cp`. -/
structure Delta where
  changes : BitVec 8
  new_seq : List (BitVec 8)
  deriving DecidableEq, Repr

/-- Only what is expected to change has changed. -/
def Expected (h cs : Header) : Prop :=
  (h.ip.ip_v = cs.ip.ip_v ∧ h.ip.ip_hl = cs.ip.ip_hl ∧ h.ip.ip_tos = cs.ip.ip_tos) ∧
    h.ip.ip_off = cs.ip.ip_off ∧ (h.ip.ip_ttl = cs.ip.ip_ttl ∧ h.ip.ip_p = cs.ip.ip_p) ∧
    h.th.th_off = cs.th.th_off ∧ (5 < h.ip.ip_hl → h.ipopts = cs.ipopts) ∧
    (5 < h.th.th_off → h.tcpopts = cs.tcpopts)

instance (h cs : Header) : Decidable (Expected h cs) := inferInstanceAs (Decidable (_ ∧ _))

def urgent (h cs : Header) : Option Delta :=
  if h.th.th_flags &&& TH_URG ≠ 0 then some ⟨NEW_U, ENCODEZ (h.th.th_urp.setWidth 32)⟩
  else if h.th.th_urp ≠ cs.th.th_urp then none
  else some ⟨0, []⟩

def Delta.window (d : Delta) (h cs : Header) : Delta :=
  let deltaS := h.th.th_win - cs.th.th_win
  if deltaS ≠ 0 then ⟨d.changes ||| NEW_W, d.new_seq ++ ENCODE (deltaS.setWidth 32)⟩ else d

/-- A new acknowledgement number or sequence number. -/
def Delta.number (d : Delta) (bit : BitVec 8) (delta : BitVec 32) : Option Delta :=
  if delta ≠ 0 then
    if 0xffff#32 < delta then none
    else some ⟨d.changes ||| bit, d.new_seq ++ ENCODE delta⟩
  else some d

/-- The `switch` over the changes. -/
def Delta.special (d : Delta) (h cs : Header) (deltaS deltaA : BitVec 32) : Option Delta :=
  let hlen := BitVec.ofNat 32 h.hlen
  if d.changes = 0 then
    if h.ip.ip_len ≠ cs.ip.ip_len ∧ cs.ip.ip_len.setWidth 32 = hlen then some d else none
  else if d.changes = SPECIAL_I ∨ d.changes = SPECIAL_D then none
  else if d.changes = NEW_S ||| NEW_A then
    if deltaS = deltaA ∧ deltaS = cs.ip.ip_len.setWidth 32 - hlen then some ⟨SPECIAL_I, []⟩ else some d
  else if d.changes = NEW_S then
    if deltaS = cs.ip.ip_len.setWidth 32 - hlen then some ⟨SPECIAL_D, []⟩ else some d
  else some d

def Delta.ident (d : Delta) (h cs : Header) : Delta :=
  let deltaS := h.ip.ip_id.setWidth 32 - cs.ip.ip_id.setWidth 32
  if deltaS ≠ 1 then ⟨d.changes ||| NEW_I, d.new_seq ++ ENCODEZ deltaS⟩ else d

def Delta.push (d : Delta) (h : Header) : Delta :=
  if h.th.th_flags &&& TH_PUSH ≠ 0 then { d with changes := d.changes ||| TCP_PUSH_BIT } else d

/-- What has changed in `h` since `cs`, unless the packet has to be sent uncompressed. -/
def encode (h cs : Header) : Option Delta :=
  if Expected h cs then do
    let d ← urgent h cs
    let d := d.window h cs
    let deltaA := h.th.th_ack - cs.th.th_ack
    let d ← d.number NEW_A deltaA
    let deltaS := h.th.th_seq - cs.th.th_seq
    let d ← d.number NEW_S deltaS
    let d ← d.special h cs deltaS deltaA
    some ((d.ident h cs).push h)
  else none

structure Cstate where
  cs_hlen : ℕ
  cs_hdr : Header
  deriving DecidableEq, Repr

/-- `struct slcompress`. The states for sending are in a circular list; `states` are their numbers from
`last_cs->cs_next` to `last_cs`. -/
structure Slcompress where
  states : List ℕ
  last_recv : ℕ
  last_xmit : ℕ
  /-- `SLF_TOSS` -/
  toss : Bool
  tstate : ℕ → Header
  rstate : ℕ → Cstate

def Header.zero : Header where
  ip := ⟨0, 0, 0, 0, 0, 0, 0, 0, 0, 0, 0⟩
  ipopts := []
  th := ⟨0, 0, 0, 0, 0, 0, 0, 0, 0, 0⟩
  tcpopts := []

/-- `sl_compress_setup`; `sl_compress_init` is the case of `MAX_STATES - 1`. -/
def slCompressSetup (max_state : ℕ) : Slcompress where
  states := (List.range (max_state + 1)).reverse
  last_recv := 255
  last_xmit := 255
  toss := true
  tstate _ := Header.zero
  rstate _ := ⟨0, Header.zero⟩

/-- A packet by its type. -/
inductive Frame
  | ip (p : Packet)
  | uncompressed (p : Packet)
  | compressed (buf : List (BitVec 8))
  deriving DecidableEq, Repr

/-- The addresses and the ports. -/
def Header.Same (h cs : Header) : Prop :=
  h.ip.ip_src = cs.ip.ip_src ∧ h.ip.ip_dst = cs.ip.ip_dst ∧
    (h.th.th_sport = cs.th.th_sport ∧ h.th.th_dport = cs.th.th_dport)

instance (h cs : Header) : Decidable (h.Same cs) := inferInstanceAs (Decidable (_ ∧ _))

/-- A fragment, or a packet whose flags are not only `TH_ACK` and what may go with it. -/
def Packet.Bail (p : Packet) : Prop :=
  (p.hdr.ip.ip_off &&& 0x3fff ≠ 0 ∨ p.len < 40) ∨
    p.hdr.th.th_flags &&& (TH_SYN ||| TH_FIN ||| TH_RST ||| TH_ACK) ≠ TH_ACK

instance (p : Packet) : Decidable p.Bail := inferInstanceAs (Decidable (_ ∨ _))

/-- The state of the connection of `h`, if there is one. -/
def Slcompress.find (comp : Slcompress) (h : Header) : Option ℕ :=
  comp.states.find? fun i => h.Same (comp.tstate i)

/-- The state is moved to the front of the list. -/
def Slcompress.front (comp : Slcompress) (i : ℕ) : Slcompress :=
  { comp with states := i :: comp.states.erase i }

/-- `uncompressed:` -/
def Slcompress.sendUncompressed (comp : Slcompress) (i : ℕ) (p : Packet) : Slcompress × Frame :=
  ({ comp with tstate := Function.update comp.tstate i p.hdr, last_xmit := i },
    .uncompressed { p with hdr.ip.ip_p := BitVec.ofNat 8 i })

def slCompressTcp (comp : Slcompress) (p : Packet) (compress_cid : Bool) : Slcompress × Frame :=
  if p.Bail then (comp, .ip p)
  else
    match comp.find p.hdr with
    | none =>
      -- the oldest state is used again
      let i := comp.states.getLastD 0
      (comp.front i).sendUncompressed i p
    | some i =>
      let comp := comp.front i
      match encode p.hdr (comp.tstate i) with
      | none => comp.sendUncompressed i p
      | some d =>
        let sum := p.hdr.th.th_sum
        let body := hi sum :: lo sum :: (d.new_seq ++ p.data)
        if compress_cid = false ∨ comp.last_xmit ≠ i then
          ({ comp with tstate := Function.update comp.tstate i p.hdr, last_xmit := i },
            .compressed ((d.changes ||| NEW_C) :: BitVec.ofNat 8 i :: body))
        else ({ comp with tstate := Function.update comp.tstate i p.hdr }, .compressed (d.changes :: body))

/-- A byte of the buffer. What is behind the buffer is not known; a packet that needs it is bad. -/
def byte (buf : List (BitVec 8)) (cp : ℕ) : BitVec 8 := buf.getD cp 0

/-- `(cp[0] << 8) | cp[1]` -/
def short (buf : List (BitVec 8)) (cp : ℕ) : BitVec 16 :=
  (byte buf cp).setWidth 16 <<< 8 ||| (byte buf (cp + 1)).setWidth 16

/-- The number at `cp`, and what is behind it. -/
def decode (buf : List (BitVec 8)) (cp : ℕ) : BitVec 16 × ℕ :=
  if byte buf cp = 0 then (short buf (cp + 1), cp + 3) else ((byte buf cp).setWidth 16, cp + 1)

def DECODEL (buf : List (BitVec 8)) (f : BitVec 32) (cp : ℕ) : BitVec 32 × ℕ :=
  (f + (decode buf cp).1.setWidth 32, (decode buf cp).2)

def DECODES (buf : List (BitVec 8)) (f : BitVec 16) (cp : ℕ) : BitVec 16 × ℕ :=
  (f + (decode buf cp).1, (decode buf cp).2)

def DECODEU (buf : List (BitVec 8)) (cp : ℕ) : BitVec 16 × ℕ := decode buf cp

/-! The fields of the TCP header that may have changed; `cp` goes along. -/

def decodeUrp (buf : List (BitVec 8)) (changes : BitVec 8) (th : Tcphdr) (cp : ℕ) : Tcphdr × ℕ :=
  if changes &&& NEW_U ≠ 0 then
    ({ th with th_flags := th.th_flags ||| TH_URG, th_urp := (DECODEU buf cp).1 }, (DECODEU buf cp).2)
  else ({ th with th_flags := th.th_flags &&& ~~~TH_URG }, cp)

def decodeWin (buf : List (BitVec 8)) (changes : BitVec 8) (th : Tcphdr) (cp : ℕ) : Tcphdr × ℕ :=
  if changes &&& NEW_W ≠ 0 then
    ({ th with th_win := (DECODES buf th.th_win cp).1 }, (DECODES buf th.th_win cp).2)
  else (th, cp)

def decodeAck (buf : List (BitVec 8)) (changes : BitVec 8) (th : Tcphdr) (cp : ℕ) : Tcphdr × ℕ :=
  if changes &&& NEW_A ≠ 0 then
    ({ th with th_ack := (DECODEL buf th.th_ack cp).1 }, (DECODEL buf th.th_ack cp).2)
  else (th, cp)

def decodeSeq (buf : List (BitVec 8)) (changes : BitVec 8) (th : Tcphdr) (cp : ℕ) : Tcphdr × ℕ :=
  if changes &&& NEW_S ≠ 0 then
    ({ th with th_seq := (DECODEL buf th.th_seq cp).1 }, (DECODEL buf th.th_seq cp).2)
  else (th, cp)

/-- The `switch` over the changes. -/
def decodeTh (buf : List (BitVec 8)) (changes : BitVec 8) (cs : Cstate) (th : Tcphdr) (cp : ℕ) : Tcphdr × ℕ :=
  let i := cs.cs_hdr.ip.ip_len.setWidth 32 - BitVec.ofNat 32 cs.cs_hlen
  if changes &&& SPECIALS_MASK = SPECIAL_I then ({ th with th_ack := th.th_ack + i, th_seq := th.th_seq + i }, cp)
  else if changes &&& SPECIALS_MASK = SPECIAL_D then ({ th with th_seq := th.th_seq + i }, cp)
  else
    let (th, cp) := decodeUrp buf changes th cp
    let (th, cp) := decodeWin buf changes th cp
    let (th, cp) := decodeAck buf changes th cp
    decodeSeq buf changes th cp

def decodeId (buf : List (BitVec 8)) (changes : BitVec 8) (ip_id : BitVec 16) (cp : ℕ) : BitVec 16 × ℕ :=
  if changes &&& NEW_I ≠ 0 then DECODES buf ip_id cp else (ip_id + 1, cp)

/-- A word as it is stored by a machine of the byte order. -/
def ofNative (order : ByteOrder) (n : ℕ) : BitVec 16 := BitVec.ofNat 16 (order.word (n / 256) (n % 256))

/-- The IP header checksum is computed again. -/
def checksum (order : ByteOrder) (h : Header) : Header :=
  let h := { h with ip.ip_sum := 0 }
  let changes := fold (fold (sum order (h.ipBytes.take (h.ip.ip_hl.toNat * 4))))
  { h with ip.ip_sum := ofNative order (65535 - changes % 65536) }

def Slcompress.bad (comp : Slcompress) : Slcompress × Option Packet := ({ comp with toss := true }, none)

/-- `sl_uncompress_tcp` with `TYPE_UNCOMPRESSED_TCP` -/
def receiveUncompressed (comp : Slcompress) (p : Packet) : Slcompress × Option Packet :=
  let i := p.hdr.ip.ip_p.toNat
  if MAX_STATES ≤ i then comp.bad
  else
    let comp := { comp with last_recv := i, toss := false }
    let p := { p with hdr.ip.ip_p := IPPROTO_TCP }
    let hlen := p.hdr.hlen
    if p.len < p.hdr.ip.ip_hl.toNat * 4 + 20 then comp.bad
    else if MAX_HDR < hlen ∨ p.len < hlen then comp.bad
    else ({ comp with rstate := Function.update comp.rstate i ⟨hlen, p.hdr⟩ }, some p)

/-- `sl_uncompress_tcp` with `TYPE_COMPRESSED_TCP`, from the checksum at `cp` on. -/
def receiveChanges (order : ByteOrder) (comp : Slcompress) (buf : List (BitVec 8)) (changes : BitVec 8) (cp : ℕ) :
    Slcompress × Option Packet :=
  let cs := comp.rstate comp.last_recv
  let th := { cs.cs_hdr.th with
    th_sum := short buf cp
    th_flags := if changes &&& TCP_PUSH_BIT ≠ 0 then cs.cs_hdr.th.th_flags ||| TH_PUSH
      else cs.cs_hdr.th.th_flags &&& ~~~TH_PUSH }
  let (th, cp) := decodeTh buf changes cs th (cp + 2)
  let (ip_id, vjlen) := decodeId buf changes cs.cs_hdr.ip.ip_id cp
  let hdr := { cs.cs_hdr with th, ip.ip_id := ip_id }
  if buf.length < vjlen then
    { comp with rstate := Function.update comp.rstate comp.last_recv { cs with cs_hdr := hdr } }.bad
  else
    let hdr := checksum order { hdr with ip.ip_len := BitVec.ofNat 16 (buf.length + cs.cs_hlen - vjlen) }
    ({ comp with rstate := Function.update comp.rstate comp.last_recv { cs with cs_hdr := hdr } },
      some ⟨hdr, buf.drop vjlen⟩)

def receiveCompressed (order : ByteOrder) (comp : Slcompress) (buf : List (BitVec 8)) : Slcompress × Option Packet :=
  let changes := byte buf 0
  if changes &&& NEW_C ≠ 0 then
    if MAX_STATES ≤ (byte buf 1).toNat then comp.bad
    else receiveChanges order { comp with toss := false, last_recv := (byte buf 1).toNat } buf changes 2
  else if comp.toss then (comp, none)
  else receiveChanges order comp buf changes 1

/-- What becomes of a packet of any type. -/
def deliver (order : ByteOrder) (comp : Slcompress) : Frame → Slcompress × Option Packet
  | .ip p => (comp, some p)
  | .uncompressed p => receiveUncompressed comp p
  | .compressed buf => receiveCompressed order comp buf

end OpenbsdKernel.Vjc
