import OpenbsdKernel.Lib.Traced
import OpenbsdKernel.Net.Slcompress.Basic

/-!
# Reading a compressed packet

`sl_uncompress_tcp_core` of `net/slcompress.c` with the bytes that it reads. The buffer is memory,
of which the first `buflen` bytes are the packet; a saved header is its bytes, too. The statistics
are left out.
-/
namespace OpenbsdKernel.Vjc.Core

open OnesComplement

abbrev Bytes := ℕ → BitVec 8

/-- `struct cstate` at the receiving end, with the bytes of `cs_ip`. -/
structure Cstate where
  cs_hlen : BitVec 16
  cs_ip : Bytes

/-- `struct slcompress` at the receiving end; `toss` is `SLF_TOSS`. -/
structure Slcompress where
  last_recv : ℕ
  toss : Bool
  rstate : ℕ → Cstate

/-- What is returned, and the state whose header is at `*hdrp` with its length `*hlenp`. -/
structure Result where
  vjlen : ℤ
  hdr : Option (ℕ × ℕ)
  comp : Slcompress

def TYPE_UNCOMPRESSED_TCP : ℕ := 0x70
def TYPE_COMPRESSED_TCP : ℕ := 0x80

/-- The size of `struct tcphdr`. -/
def tcphdrSize : ℕ := 20

def get16 (m : Bytes) (o : ℕ) : BitVec 16 := m o ++ m (o + 1)

def get32 (m : Bytes) (o : ℕ) : BitVec 32 := get16 m o ++ get16 m (o + 2)

def put16 (m : Bytes) (o : ℕ) (v : BitVec 16) : Bytes :=
  Function.update (Function.update m o (hi v)) (o + 1) (lo v)

def put32 (m : Bytes) (o : ℕ) (v : BitVec 32) : Bytes :=
  put16 (put16 m o (v.extractLsb' 16 16)) (o + 2) (v.extractLsb' 0 16)

/-- `ip_hl << 2` -/
def ipHlen (m : Bytes) : ℕ := (m 0 &&& 0x0f#8).toNat * 4

def ipLen : ℕ := 2
def ipId : ℕ := 4
def ipP : ℕ := 9
def ipSum : ℕ := 10
def thSeq : ℕ := 4
def thAck : ℕ := 8
def thOff : ℕ := 12
def thFlags : ℕ := 13
def thWin : ℕ := 14
def thSum : ℕ := 16
def thUrp : ℕ := 18

/-- The number at `cp`, and where the next one is. -/
def decode (buf : Bytes) (cp : ℕ) : Traced ℕ (BitVec 16 × ℕ) := do
  let b ← Traced.read buf cp
  if b = 0 then do
    let h ← Traced.read buf (cp + 1)
    let l ← Traced.read buf (cp + 2)
    pure (h ++ l, cp + 3)
  else pure (b.setWidth 16, cp + 1)

/-- The header `m` after `DECODEL` of the field at `o`. -/
def DECODEL (buf : Bytes) (m : Bytes) (o cp : ℕ) : Traced ℕ (Bytes × ℕ) := do
  let (n, cp) ← decode buf cp
  pure (put32 m o (get32 m o + n.setWidth 32), cp)

def DECODES (buf : Bytes) (m : Bytes) (o cp : ℕ) : Traced ℕ (Bytes × ℕ) := do
  let (n, cp) ← decode buf cp
  pure (put16 m o (get16 m o + n), cp)

def DECODEU (buf : Bytes) (m : Bytes) (o cp : ℕ) : Traced ℕ (Bytes × ℕ) := do
  let (n, cp) ← decode buf cp
  pure (put16 m o n, cp)

/-- `if (changes & bit)` -/
def onChange (changes bit : BitVec 8) (x : Bytes × ℕ → Traced ℕ (Bytes × ℕ)) (s : Bytes × ℕ) :
    Traced ℕ (Bytes × ℕ) :=
  if changes &&& bit ≠ 0 then x s else pure s

def setFlag (m : Bytes) (o : ℕ) (flag : BitVec 8) : Bytes := Function.update m o (m o ||| flag)

def clearFlag (m : Bytes) (o : ℕ) (flag : BitVec 8) : Bytes := Function.update m o (m o &&& ~~~flag)

def urgentPointer (buf : Bytes) (changes : BitVec 8) (m : Bytes) (th cp : ℕ) : Traced ℕ (Bytes × ℕ) :=
  if changes &&& NEW_U ≠ 0 then DECODEU buf (setFlag m (th + thFlags) TH_URG) (th + thUrp) cp
  else pure (clearFlag m (th + thFlags) TH_URG, cp)

/-- The `switch` over the changes; `th` is the offset of the TCP header. -/
def decodeTh (buf : Bytes) (changes : BitVec 8) (cs_hlen : BitVec 16) (m : Bytes) (th cp : ℕ) :
    Traced ℕ (Bytes × ℕ) :=
  let i := (get16 m ipLen).setWidth 32 - cs_hlen.setWidth 32
  if changes &&& SPECIALS_MASK = SPECIAL_I then
    let m := put32 m (th + thAck) (get32 m (th + thAck) + i)
    pure (put32 m (th + thSeq) (get32 m (th + thSeq) + i), cp)
  else if changes &&& SPECIALS_MASK = SPECIAL_D then
    pure (put32 m (th + thSeq) (get32 m (th + thSeq) + i), cp)
  else do
    let s ← urgentPointer buf changes m th cp
    let s ← onChange changes NEW_W (fun s => DECODES buf s.1 (th + thWin) s.2) s
    let s ← onChange changes NEW_A (fun s => DECODEL buf s.1 (th + thAck) s.2) s
    onChange changes NEW_S (fun s => DECODEL buf s.1 (th + thSeq) s.2) s

def decodeId (buf : Bytes) (changes : BitVec 8) (m : Bytes) (cp : ℕ) : Traced ℕ (Bytes × ℕ) :=
  if changes &&& NEW_I ≠ 0 then DECODES buf m ipId cp
  else pure (put16 m ipId (get16 m ipId + 1), cp)

def ipChecksum (order : ByteOrder) (m : Bytes) (hlen : ℕ) : Bytes :=
  let m := put16 m ipSum 0
  let changes := fold (fold (sum order ((List.range hlen).map m)))
  put16 m ipSum (ofNative order (65535 - changes % 65536))

/-- The saved header `cs_ip` of the state `last_recv` becomes `m`. -/
def Slcompress.save (comp : Slcompress) (m : Bytes) : Slcompress :=
  let cs := { comp.rstate comp.last_recv with cs_ip := m }
  { comp with rstate := Function.update comp.rstate comp.last_recv cs }

def Slcompress.bad (comp : Slcompress) : Result := ⟨-1, none, { comp with toss := true }⟩

def saveHeader (buf : Bytes) (buflen : ℕ) (comp : Slcompress) (hlen : ℕ) : Traced ℕ Result :=
  if MAX_HDR < hlen ∨ buflen < hlen then pure comp.bad
  else do
    let bytes ← (List.range hlen).mapM (Traced.read buf)
    let cs : Cstate := ⟨BitVec.ofNat 16 hlen,
      fun i => bytes.getD i ((comp.rstate comp.last_recv).cs_ip i)⟩
    pure ⟨0, some (comp.last_recv, hlen),
      { comp with rstate := Function.update comp.rstate comp.last_recv cs }⟩

def headerSize (buf : Bytes) (buflen : ℕ) (comp : Slcompress) : Traced ℕ Result := do
  let b ← Traced.read buf 0
  let hlen := (b &&& 0x0f#8).toNat * 4
  if buflen < hlen + tcphdrSize then pure comp.bad
  else do
    let off ← Traced.read buf (hlen + thOff)
    saveHeader buf buflen comp (hlen + (off >>> 4).toNat * 4)

/-- The case `TYPE_UNCOMPRESSED_TCP`. -/
def uncompressedCore (buf : Bytes) (buflen : ℕ) (comp : Slcompress) : Traced ℕ Result := do
  let ip_p ← Traced.read buf ipP
  let named := { comp with last_recv := ip_p.toNat, toss := false }
  if MAX_STATES ≤ ip_p.toNat then pure comp.bad
  else headerSize (Function.update buf ipP IPPROTO_TCP) buflen named

/-- The saved header with a new checksum and the flag `TH_PUSH`. -/
def withSum (changes : BitVec 8) (cs : Cstate) (sum : BitVec 16) : Bytes :=
  let hlen := ipHlen cs.cs_ip
  let m := put16 cs.cs_ip (hlen + thSum) sum
  if changes &&& TCP_PUSH_BIT ≠ 0 then setFlag m (hlen + thFlags) TH_PUSH
  else clearFlag m (hlen + thFlags) TH_PUSH

/-- The header of the state `cs` with the changes, from the checksum at `cp` on. -/
def decodeHeader (buf : Bytes) (changes : BitVec 8) (cs : Cstate) (cp : ℕ) :
    Traced ℕ (Bytes × ℕ) := do
  let h ← Traced.read buf cp
  let l ← Traced.read buf (cp + 1)
  let m := withSum changes cs (h ++ l)
  let s ← decodeTh buf changes cs.cs_hlen m (ipHlen cs.cs_ip) (cp + 2)
  decodeId buf changes s.1 s.2

/-- The case `TYPE_COMPRESSED_TCP` for the state `last_recv`. -/
def changesCore (order : ByteOrder) (buf : Bytes) (buflen : ℕ) (total_len : ℤ) (comp : Slcompress)
    (changes : BitVec 8) (cp : ℕ) : Traced ℕ Result := do
  let cs := comp.rstate comp.last_recv
  let hlen := ipHlen cs.cs_ip
  let s ← decodeHeader buf changes cs cp
  let vjlen := s.2
  if buflen < vjlen then pure (comp.save s.1).bad
  else
    let m := put16 s.1 ipLen (BitVec.ofInt 16 (total_len + cs.cs_hlen.toNat - vjlen))
    pure ⟨vjlen, some (comp.last_recv, cs.cs_hlen.toNat), comp.save (ipChecksum order m hlen)⟩

def namedCore (order : ByteOrder) (buf : Bytes) (buflen : ℕ) (total_len : ℤ) (comp : Slcompress)
    (changes c : BitVec 8) : Traced ℕ Result :=
  if MAX_STATES ≤ c.toNat then pure comp.bad
  else changesCore order buf buflen total_len { comp with toss := false, last_recv := c.toNat }
    changes 2

def sameCore (order : ByteOrder) (buf : Bytes) (buflen : ℕ) (total_len : ℤ) (comp : Slcompress)
    (changes : BitVec 8) : Traced ℕ Result :=
  if comp.toss then pure ⟨-1, none, comp⟩
  else changesCore order buf buflen total_len comp changes 1

/-- The case `TYPE_COMPRESSED_TCP` behind the first byte. -/
def compressedCore (order : ByteOrder) (buf : Bytes) (buflen : ℕ) (total_len : ℤ) (comp : Slcompress)
    (changes : BitVec 8) : Traced ℕ Result :=
  if changes &&& NEW_C ≠ 0 then
    Traced.read buf 1 >>= namedCore order buf buflen total_len comp changes
  else sameCore order buf buflen total_len comp changes

def sl_uncompress_tcp_core (order : ByteOrder) (buf : Bytes) (buflen : ℕ) (total_len : ℤ) (type : ℕ)
    (comp : Slcompress) : Traced ℕ Result :=
  if type = TYPE_UNCOMPRESSED_TCP then uncompressedCore buf buflen comp
  else if type = TYPE_COMPRESSED_TCP then
    Traced.read buf 0 >>= compressedCore order buf buflen total_len comp
  else pure comp.bad

end OpenbsdKernel.Vjc.Core
