import OpenbsdKernel.Kern.Mbuf.Copydata
import OpenbsdKernel.Lib.Ccm

/-!
# CCMP encapsulation

`ieee80211_ccmp_encrypt` and `ieee80211_ccmp_decrypt` walk the chain of a frame and a new chain at
once, and the CBC-MAC and the key stream advance with every octet. The block cipher is a parameter.
`none` as the result of a function is a panic; a null chain is the empty list. A length that the
source takes from a packet header counts as zero where it is negative.
-/
namespace OpenbsdKernel.Ieee80211

open Store UipcMbuf Ccm

abbrev Octets := ℕ → UInt8

def mtod (mem : Mem) (m : Mbuf) : Octets := fun i => mem.store m.buf (m.m_data + i)

def IEEE80211_FC0_TYPE_MASK : UInt8 := 0x0c
def IEEE80211_FC0_TYPE_MGT : UInt8 := 0x00
def IEEE80211_FC0_TYPE_CTL : UInt8 := 0x04
def IEEE80211_FC0_TYPE_DATA : UInt8 := 0x08
def IEEE80211_FC0_SUBTYPE_MASK : UInt8 := 0xf0
def IEEE80211_FC0_SUBTYPE_QOS : UInt8 := 0x80
def IEEE80211_FC1_DIR_MASK : UInt8 := 0x03
def IEEE80211_FC1_DIR_DSTODS : UInt8 := 0x03
def IEEE80211_FC1_RETRY : UInt8 := 0x08
def IEEE80211_FC1_PWR_MGT : UInt8 := 0x10
def IEEE80211_FC1_MORE_DATA : UInt8 := 0x20
def IEEE80211_FC1_PROTECTED : UInt8 := 0x40
def IEEE80211_FC1_ORDER : UInt8 := 0x80
def IEEE80211_QOS_TID : UInt16 := 0x000f
def IEEE80211_WEP_EXTIV : UInt8 := 0x20
def IEEE80211_ADDR_LEN : ℕ := 6
def IEEE80211_CCMP_HDRLEN : ℕ := 8
def IEEE80211_CCMP_MICLEN : ℕ := 8

def addrAt (wh : Octets) (o : ℕ) : List UInt8 := (List.range IEEE80211_ADDR_LEN).map fun i => wh (o + i)

def i_addr1 (wh : Octets) : List UInt8 := addrAt wh 4
def i_addr2 (wh : Octets) : List UInt8 := addrAt wh 10
def i_addr3 (wh : Octets) : List UInt8 := addrAt wh 16
def i_addr4 (wh : Octets) : List UInt8 := addrAt wh 24

def has_seq (wh : Octets) : Bool := wh 0 &&& IEEE80211_FC0_TYPE_MASK != IEEE80211_FC0_TYPE_CTL

def has_addr4 (wh : Octets) : Bool := wh 1 &&& IEEE80211_FC1_DIR_MASK == IEEE80211_FC1_DIR_DSTODS

def has_qos (wh : Octets) : Bool :=
  wh 0 &&& (IEEE80211_FC0_TYPE_MASK ||| IEEE80211_FC0_SUBTYPE_QOS) ==
    IEEE80211_FC0_TYPE_DATA ||| IEEE80211_FC0_SUBTYPE_QOS

def has_htc (wh : Octets) : Bool :=
  wh 1 &&& IEEE80211_FC1_ORDER != 0 &&
    (has_qos wh || wh 0 &&& IEEE80211_FC0_TYPE_MASK == IEEE80211_FC0_TYPE_MGT)

def get_qos (wh : Octets) : UInt16 :=
  let o := if has_addr4 wh then 30 else 24
  (wh o).toUInt16 ||| (wh (o + 1)).toUInt16 <<< 8

/-- `ieee80211_get_hdrlen`, which does not work with control frames. -/
def get_hdrlen (wh : Octets) : Option ℕ :=
  if has_seq wh then
    some (24 + (if has_addr4 wh then IEEE80211_ADDR_LEN else 0) + (if has_qos wh then 2 else 0) +
      (if has_htc wh then 4 else 0))
  else none

def tid (wh : Octets) : UInt8 := if has_qos wh then (get_qos wh &&& IEEE80211_QOS_TID).toUInt8 else 0

def aad (wh : Octets) : List UInt8 :=
  let fc0 :=
    if wh 0 &&& IEEE80211_FC0_TYPE_MASK = IEEE80211_FC0_TYPE_DATA then wh 0 &&& ~~~IEEE80211_FC0_SUBTYPE_MASK
    else wh 0
  let fc1 := wh 1 &&& ~~~(IEEE80211_FC1_RETRY ||| IEEE80211_FC1_PWR_MGT ||| IEEE80211_FC1_MORE_DATA)
  let fc1 := if has_htc wh then fc1 &&& ~~~IEEE80211_FC1_ORDER else fc1
  [fc0, fc1] ++ i_addr1 wh ++ i_addr2 wh ++ i_addr3 wh ++ [wh 22 &&& ~~~0xf0, 0] ++
    (if has_addr4 wh then i_addr4 wh else []) ++ (if has_qos wh then [tid wh, 0] else [])

def nonce (wh : Octets) (pn : UInt64) : List UInt8 :=
  let flags := if wh 0 &&& IEEE80211_FC0_TYPE_MASK = IEEE80211_FC0_TYPE_MGT then tid wh ||| (1 : UInt8) <<< 4 else tid wh
  [flags] ++ i_addr2 wh ++
    [(pn >>> 40).toUInt8, (pn >>> 32).toUInt8, (pn >>> 24).toUInt8, (pn >>> 16).toUInt8, (pn >>> 8).toUInt8,
      pn.toUInt8]

/-- The blocks `b`, `a` and `s0` of the source. -/
structure Phase1 where
  b : Block
  a : Block
  s0 : Block

/-- `ieee80211_ccmp_phase1` -/
def ccmp_phase1 (E : Block → Block) (wh : Octets) (pn : UInt64) (lm : ℤ) : Phase1 :=
  let la := (aad wh).length
  let auth := [UInt8.ofNat (la >>> 8), UInt8.ofNat (la &&& 0xff)] ++ aad wh ++ List.replicate (30 - la) 0
  let b := E (block (89 :: (nonce wh pn ++ [UInt8.ofInt (lm >>> (8 : ℕ)), UInt8.ofInt (lm % 256)])))
  let b := E (xorBlock b (block auth))
  let b := E (xorBlock b (block (auth.drop 16)))
  let a := block (1 :: (nonce wh pn ++ [0, 0]))
  ⟨b, a, E a⟩

/-- The local variables `b`, `a`, `s`, `ctr` and `j` of both loops. -/
structure Cipher where
  b : Block
  a : Block
  s : Block
  ctr : UInt16
  j : ℕ

/-- `a[14] = ctr >> 8; a[15] = ctr & 0xff` -/
def setCtr (a : Block) (ctr : UInt16) : Block :=
  Function.update (Function.update a 14 (ctr >>> 8).toUInt8) 15 (ctr &&& 0xff).toUInt8

/-- Before the loops, when `S_1` is made. -/
def Cipher.start (E : Block → Block) (p : Phase1) : Cipher :=
  ⟨p.b, setCtr p.a 1, E (setCtr p.a 1), 1, 0⟩

/-- The MIC takes in an octet of clear text, and `j` moves. -/
def Cipher.next (E : Block → Block) (clear : UInt8) (st : Cipher) : Cipher :=
  let b := xorAt st.b st.j clear
  if st.j + 1 < 16 then { st with b := b, j := st.j + 1 }
  else
    let ctr := st.ctr + 1
    let a := setCtr st.a ctr
    ⟨E b, a, E a, ctr, 0⟩

def Cipher.finish (E : Block → Block) (st : Cipher) : Block := if st.j ≠ 0 then E st.b else st.b

/-- The octet of the key stream for the next octet of the frame. -/
def Cipher.key (st : Cipher) : UInt8 := st.s (Fin.ofNat 16 st.j)

inductive Dir where
  | encrypt
  | decrypt
  deriving DecidableEq

/-- Which of `src[i]` and `dst[i]` is clear text. -/
def Dir.clear (dir : Dir) (x y : UInt8) : UInt8 :=
  match dir with
  | .encrypt => x
  | .decrypt => y

/-- The loop over the octets, with `src` at `p` and `dst` at `q`. -/
def octetLoop (E : Block → Block) (dir : Dir) (src dst : Buf) : ℕ → ℕ → ℕ → Mem → Cipher → Mem × Cipher
  | 0, _, _, mem, st => (mem, st)
  | i + 1, p, q, mem, st =>
    let x := mem.store src p
    let y := x ^^^ st.key
    octetLoop E dir src dst i (p + 1) (q + 1) (mem.copyin dst q [y]) (st.next E (dir.clear x y))

def MINCLSIZE : ℕ := MHLEN + MLEN + 1

def pktLen (m : Mbuf) : ℤ :=
  match m.m_pkthdr with
  | some ph => ph.len
  | none => 0

/-- `m->m_pkthdr.len += d` -/
def addLen (d : ℤ) (m : Mbuf) : Mbuf :=
  { m with m_pkthdr := m.m_pkthdr.map fun ph => { ph with len := ph.len + d } }

/-- `MCLGET`, and `m_len` becomes the size of the cluster if there is one. -/
def cluster (mem : Mem) (n : Mbuf) : Option (Mbuf × Mem) :=
  match m_clget mem n MCLBYTES with
  | none => none
  | some (n, mem) =>
    match n.m_ext with
    | some e => some ({ n with m_len := e.ext_size }, mem)
    | none => some (n, mem)

/-- The size of an mbuf that is to hold `want` octets or the first of them; from `thr` octets on it
gets a cluster. -/
def makeRoom (thr : ℕ) (mem : Mem) (n : Mbuf) (want : ℕ) : Option (Mbuf × Mem) :=
  match if thr ≤ want then cluster mem n else some (n, mem) with
  | none => none
  | some (n, mem) => some (if want < n.m_len then { n with m_len := want } else n, mem)

def firstMbuf (thr : ℕ) (d : ℤ) (mem : Mem) (m0 : Mbuf) : Option (Except (List Mbuf × Mem) (Mbuf × Mem)) :=
  match m_get mem with
  | (none, mem) => some (.error ([], mem))
  | (some n0, mem) =>
    match m_dup_pkthdr mem n0 m0 with
    | none => none
    | some (true, n0, mem) => some (.error ([n0], mem))
    | some (false, n0, mem) =>
      let n0 := addLen d n0
      match makeRoom thr mem { n0 with m_len := MHLEN } (pktLen n0).toNat with
      | none => none
      | some (n0, mem) => some (.ok (n0, mem))

/-- `m` and the mbufs behind it are `src`, and the new chain is `out` with `n` at its end. -/
structure Walk where
  mem : Mem
  src : List Mbuf
  moff : ℕ
  out : List Mbuf
  n : Mbuf
  noff : ℕ
  left : ℕ
  st : Cipher

def Walk.chain (w : Walk) : List Mbuf := w.out ++ [w.n]

/-- Nothing left to copy from `m`. -/
def Walk.seek (w : Walk) : Walk :=
  match w.src with
  | [] => w
  | m :: c => if w.moff = m.m_len then { w with src := c, moff := 0 } else w

/-- `n` is full and there is more data to copy. -/
def Walk.room (thr : ℕ) (w : Walk) : Option (Except Walk Walk) :=
  if w.noff = w.n.m_len then
    match m_get w.mem with
    | (none, mem) => some (.error { w with mem := mem })
    | (some n, mem) =>
      match makeRoom thr mem { n with m_len := MLEN } w.left with
      | none => none
      | some (n, mem) => some (.ok { w with mem := mem, out := w.out ++ [w.n], n := n, noff := 0 })
  else some (.ok w)

/-- As many octets as both mbufs have. -/
def Walk.copy (E : Block → Block) (dir : Dir) (m : Mbuf) (w : Walk) : Walk :=
  let len := min (m.m_len - w.moff) (w.n.m_len - w.noff)
  let r := octetLoop E dir m.buf w.n.buf len (m.m_data + w.moff) (w.n.m_data + w.noff) w.mem w.st
  { w with mem := r.1, st := r.2, moff := w.moff + len, noff := w.noff + len, left := w.left - len }

def Walk.round (E : Block → Block) (dir : Dir) (thr : ℕ) (w : Walk) : Option (Except Walk Walk) :=
  match w.seek.src with
  | [] => none
  | m :: _ =>
    match w.seek.room thr with
    | none => none
    | some (.error w) => some (.error w)
    | some (.ok w) => some (.ok (w.copy E dir m))

/-- The loop `while (left > 0)`. -/
def Walk.run (E : Block → Block) (dir : Dir) (thr : ℕ) : ℕ → Walk → Option (Except Walk Walk)
  | 0, _ => none
  | i + 1, w =>
    if w.left = 0 then some (.ok w)
    else
      match w.round E dir thr with
      | some (.ok w) => w.run E dir thr i
      | r => r

/-- Every iteration copies an octet or leaves an mbuf behind. -/
def Walk.fuel (w : Walk) : ℕ := w.left + w.src.length + 1

/-- The fields of `struct ieee80211_key` that CCMP uses. -/
structure Key (Ctx : Type*) where
  k_id : UInt8
  k_rsc : Fin 16 → UInt64
  k_mgmt_rsc : UInt64
  k_tsc : UInt64
  k_priv : Ctx

/-- The counters of `ic_stats` that CCMP uses. -/
structure Stats where
  is_tx_nombuf : ℕ
  is_rx_nombuf : ℕ
  is_ccmp_replays : ℕ
  is_ccmp_dec_errs : ℕ

section Functions

variable {Ctx : Type*} (rijndael_encrypt : Ctx → Block → Block)

/-- The packet number is incremented. -/
def Key.bump (k : Key Ctx) : Key Ctx := { k with k_tsc := k.k_tsc + 1 }

def ccmpHeader (k : Key Ctx) : List UInt8 :=
  [k.k_tsc.toUInt8, (k.k_tsc >>> 8).toUInt8, 0, k.k_id <<< 6 ||| IEEE80211_WEP_EXTIV, (k.k_tsc >>> 16).toUInt8,
    (k.k_tsc >>> 24).toUInt8, (k.k_tsc >>> 32).toUInt8, (k.k_tsc >>> 40).toUInt8]

/-- `m_freem(m0); return NULL` -/
def discard (ic : Stats) (k : Key Ctx) (mem : Mem) (c : List Mbuf) : Option (List Mbuf × Stats × Key Ctx × Mem) :=
  (m_freem mem c).map fun mem => ([], ic, k, mem)

/-- `m_freem(m0); m_freem(n0); return NULL` -/
def discardBoth (ic : Stats) (k : Key Ctx) (mem : Mem) (c n : List Mbuf) :
    Option (List Mbuf × Stats × Key Ctx × Mem) :=
  match m_freem mem c with
  | none => none
  | some mem => discard ic k mem n

/-- The first eight octets of `T` and `S_0` xored. -/
def micOctets (b s0 : Block) : List UInt8 := (List.ofFn (xorBlock b s0)).take IEEE80211_CCMP_MICLEN

def Walk.reserve (w : Walk) : Except Walk Walk :=
  if m_trailingspace w.mem w.n < IEEE80211_CCMP_MICLEN then
    match m_get w.mem with
    | (none, mem) => .error { w with mem := mem }
    | (some n, mem) => .ok { w with mem := mem, out := w.out ++ [w.n], n := { n with m_len := 0 } }
  else .ok w

def Walk.addMic (mic : List UInt8) (w : Walk) : Walk :=
  { w with
    mem := w.mem.copyin w.n.buf (w.n.m_data + w.n.m_len) mic
    n := { w.n with m_len := w.n.m_len + IEEE80211_CCMP_MICLEN } }

/-- `n0->m_pkthdr.len += d` -/
def addChainLen (d : ℤ) : List Mbuf → List Mbuf
  | [] => []
  | n0 :: c => addLen d n0 :: c

/-- `ieee80211_ccmp_encrypt` from its loop on. -/
def encryptFrom (E : Block → Block) (ic : Stats) (k : Key Ctx) (c : List Mbuf) (s0 : Block) (w : Walk) :
    Option (List Mbuf × Stats × Key Ctx × Mem) :=
  let nombuf := { ic with is_tx_nombuf := ic.is_tx_nombuf + 1 }
  match w.run E .encrypt (MINCLSIZE - IEEE80211_CCMP_MICLEN) w.fuel with
  | none => none
  | some (.error w) => discardBoth nombuf k w.mem c w.chain
  | some (.ok w) =>
    match w.reserve with
    | .error w => discardBoth nombuf k w.mem c w.chain
    | .ok w =>
      let w := w.addMic (micOctets (w.st.finish E) s0)
      (m_freem w.mem c).map fun mem => (addChainLen IEEE80211_CCMP_MICLEN w.chain, ic, k, mem)

/-- `ieee80211_ccmp_encrypt` -/
def ccmp_encrypt (ic : Stats) (mem : Mem) (c : List Mbuf) (k : Key Ctx) :
    Option (List Mbuf × Stats × Key Ctx × Mem) :=
  let E := rijndael_encrypt k.k_priv
  match c with
  | [] => none
  | m0 :: _ =>
    match firstMbuf (MINCLSIZE - IEEE80211_CCMP_MICLEN) IEEE80211_CCMP_HDRLEN mem m0 with
    | none => none
    | some (.error (n, mem)) => discardBoth { ic with is_tx_nombuf := ic.is_tx_nombuf + 1 } k mem c n
    | some (.ok (n0, mem)) =>
      match get_hdrlen (mtod mem m0) with
      | none => none
      | some hdrlen =>
        let mem := mem.memcpy n0.buf n0.m_data m0.buf m0.m_data hdrlen
        let k := k.bump
        let mem := mem.copyin n0.buf (n0.m_data + hdrlen) (ccmpHeader k)
        let p := ccmp_phase1 E (mtod mem m0) k.k_tsc (pktLen m0 - hdrlen)
        encryptFrom E ic k c p.s0
          ⟨mem, c, hdrlen, [], n0, hdrlen + IEEE80211_CCMP_HDRLEN, (pktLen m0 - hdrlen).toNat, .start E p⟩

/-- The place of the last packet number: that of a traffic identifier, or `k_mgmt_rsc`. -/
def prsc (wh : Octets) : Option (Fin 16) :=
  if wh 0 &&& IEEE80211_FC0_TYPE_MASK = IEEE80211_FC0_TYPE_DATA then some (Fin.ofNat 16 (tid wh).toNat) else none

def Key.rsc (k : Key Ctx) : Option (Fin 16) → UInt64
  | some t => k.k_rsc t
  | none => k.k_mgmt_rsc

def Key.setRsc (k : Key Ctx) (pn : UInt64) : Option (Fin 16) → Key Ctx
  | some t => { k with k_rsc := Function.update k.k_rsc t pn }
  | none => { k with k_mgmt_rsc := pn }

def packetNumber (ivp : Octets) : UInt64 :=
  (ivp 0).toUInt64 ||| (ivp 1).toUInt64 <<< 8 ||| (ivp 4).toUInt64 <<< 16 ||| (ivp 5).toUInt64 <<< 24 |||
    (ivp 6).toUInt64 <<< 32 ||| (ivp 7).toUInt64 <<< 40

/-- `ieee80211_ccmp_decrypt` from its loop on. -/
def decryptFrom (E : Block → Block) (ic : Stats) (k : Key Ctx) (c : List Mbuf) (s0 : Block) (pn : UInt64)
    (rsc : Option (Fin 16)) (w : Walk) : Option (List Mbuf × Stats × Key Ctx × Mem) :=
  match w.run E .decrypt MINCLSIZE w.fuel with
  | none => none
  | some (.error w) => discardBoth { ic with is_rx_nombuf := ic.is_rx_nombuf + 1 } k w.mem c w.chain
  | some (.ok w) =>
    match m_copydata w.mem w.src w.moff IEEE80211_CCMP_MICLEN with
    | none => none
    | some mic0 =>
      if mic0 ≠ micOctets (w.st.finish E) s0 then
        discardBoth { ic with is_ccmp_dec_errs := ic.is_ccmp_dec_errs + 1 } k w.mem c w.chain
      else (m_freem w.mem c).map fun mem => (w.chain, ic, k.setRsc pn rsc, mem)

/-- `ieee80211_ccmp_decrypt` -/
def ccmp_decrypt (ic : Stats) (mem : Mem) (c : List Mbuf) (k : Key Ctx) :
    Option (List Mbuf × Stats × Key Ctx × Mem) :=
  let E := rijndael_encrypt k.k_priv
  match c with
  | [] => none
  | m0 :: _ =>
    let wh := mtod mem m0
    match get_hdrlen wh with
    | none => none
    | some hdrlen =>
      let ivp : Octets := fun i => wh (hdrlen + i)
      let pn := packetNumber ivp
      if pktLen m0 < hdrlen + IEEE80211_CCMP_HDRLEN + IEEE80211_CCMP_MICLEN then discard ic k mem c
      else if ivp 3 &&& IEEE80211_WEP_EXTIV = 0 then discard ic k mem c
      else if pn ≤ k.rsc (prsc wh) then
        discard { ic with is_ccmp_replays := ic.is_ccmp_replays + 1 } k mem c
      else
        match firstMbuf MINCLSIZE (-(IEEE80211_CCMP_HDRLEN + IEEE80211_CCMP_MICLEN)) mem m0 with
        | none => none
        | some (.error (n, mem)) => discardBoth { ic with is_rx_nombuf := ic.is_rx_nombuf + 1 } k mem c n
        | some (.ok (n0, mem)) =>
          let p := ccmp_phase1 E (mtod mem m0) pn (pktLen n0 - hdrlen)
          let mem := mem.memcpy n0.buf n0.m_data m0.buf m0.m_data hdrlen
          let mem := mem.copyin n0.buf (n0.m_data + 1) [mtod mem n0 1 &&& ~~~IEEE80211_FC1_PROTECTED]
          decryptFrom E ic k c p.s0 pn (prsc wh)
            ⟨mem, c, hdrlen + IEEE80211_CCMP_HDRLEN, [], n0, hdrlen, (pktLen n0 - hdrlen).toNat, .start E p⟩

end Functions

end OpenbsdKernel.Ieee80211
