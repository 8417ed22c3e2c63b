import OpenbsdKernel.Net80211.Ccmp.Walk

/-!
# Encryption

`ieee80211_ccmp_encrypt` returns the header of the frame, the CCMP header, and what CCM gives for the
body, in a new chain.
-/
namespace OpenbsdKernel.Ieee80211

open Store UipcMbuf Ccm

/-- A frame in a chain whose first mbuf holds the header and `more` octets behind it. -/
structure Frame (mem : Mem) (m0 : Mbuf) (c : List Mbuf) (hdrlen more : ℕ) : Prop where
  sound : ChainSound mem (m0 :: c)
  len : HdrIs (m0 :: c)
  header : get_hdrlen (mtod mem m0) = some hdrlen
  first : hdrlen + more ≤ m0.m_len

section Header

variable {wh wh' : Octets} {hdrlen : ℕ}

theorem hdrlen_eq (h : get_hdrlen wh = some hdrlen) :
    hdrlen = 24 + (if has_addr4 wh then 6 else 0) + (if has_qos wh then 2 else 0) + (if has_htc wh then 4 else 0) := by
  rw [get_hdrlen] at h
  split at h
  · exact (Option.some.inj h).symm
  · cases h

theorem hdrlen_ge (h : get_hdrlen wh = some hdrlen) : 24 ≤ hdrlen := by
  rw [hdrlen_eq h]
  omega

theorem hdrlen_le (h : get_hdrlen wh = some hdrlen) : hdrlen ≤ 36 := by
  rw [hdrlen_eq h]
  split <;> split <;> split <;> omega

theorem addrAt_congr {o : ℕ} (h : ∀ i < 6, wh' (o + i) = wh (o + i)) : addrAt wh' o = addrAt wh o :=
  List.map_congr_left fun i hi => h i (List.mem_range.1 hi)

variable (h : get_hdrlen wh = some hdrlen) (hsame : ∀ i < hdrlen, wh' i = wh i)
include h hsame

theorem has_addr4_congr : has_addr4 wh' = has_addr4 wh := by
  rw [has_addr4, has_addr4, hsame 1 (by have := hdrlen_ge h; omega)]

theorem has_qos_congr : has_qos wh' = has_qos wh := by
  rw [has_qos, has_qos, hsame 0 (by have := hdrlen_ge h; omega)]

theorem has_htc_congr : has_htc wh' = has_htc wh := by
  have := hdrlen_ge h
  rw [has_htc, has_htc, has_qos_congr h hsame, hsame 0 (by omega), hsame 1 (by omega)]

theorem get_hdrlen_congr : get_hdrlen wh' = some hdrlen := by
  have hseq : has_seq wh' = has_seq wh := by
    rw [has_seq, has_seq, hsame 0 (by have := hdrlen_ge h; omega)]
  rw [← h, get_hdrlen, get_hdrlen, hseq, has_addr4_congr h hsame, has_qos_congr h hsame, has_htc_congr h hsame]

theorem tid_congr : tid wh' = tid wh := by
  have hlen := hdrlen_eq h
  rw [tid, tid, has_qos_congr h hsame]
  by_cases hqos : has_qos wh = true
  · rw [if_pos hqos] at hlen
    rw [if_pos hqos, if_pos hqos, get_qos, get_qos, has_addr4_congr h hsame]
    by_cases haddr : has_addr4 wh = true
    · rw [if_pos haddr] at hlen
      rw [if_pos haddr, hsame 30 (by omega), hsame (30 + 1) (by omega)]
    · rw [if_neg haddr, hsame 24 (by omega), hsame (24 + 1) (by omega)]
  · rw [if_neg hqos, if_neg hqos]

theorem aad_congr : aad wh' = aad wh := by
  have hge := hdrlen_ge h
  have haddr4 : (if has_addr4 wh then i_addr4 wh' else []) = if has_addr4 wh then i_addr4 wh else [] := by
    have hlen := hdrlen_eq h
    by_cases haddr : has_addr4 wh = true
    · rw [if_pos haddr] at hlen
      rw [if_pos haddr, if_pos haddr, i_addr4, i_addr4, addrAt_congr fun i hi => hsame _ (by omega)]
    · rw [if_neg haddr, if_neg haddr]
  rw [aad, aad, has_addr4_congr h hsame, has_qos_congr h hsame, has_htc_congr h hsame, tid_congr h hsame, haddr4,
    hsame 0 (by omega), hsame 1 (by omega), hsame 22 (by omega), i_addr1, i_addr2, i_addr3, i_addr1, i_addr2,
    i_addr3, addrAt_congr fun i hi => hsame _ (by omega), addrAt_congr fun i hi => hsame _ (by omega),
    addrAt_congr fun i hi => hsame _ (by omega)]

theorem nonce_congr (pn : UInt64) : nonce wh' pn = nonce wh pn := by
  have hge := hdrlen_ge h
  rw [nonce, nonce, tid_congr h hsame, hsame 0 (by omega), i_addr2, i_addr2,
    addrAt_congr fun i hi => hsame _ (by omega)]

theorem prsc_congr : prsc wh' = prsc wh := by
  rw [prsc, prsc, tid_congr h hsame, hsame 0 (by have := hdrlen_ge h; omega)]

end Header

section Start

variable {mem : Mem} {m0 : Mbuf} {c : List Mbuf} {hdrlen more : ℕ}

/-- The first mbuf of the new chain has a copy of the packet header and room for the octets or for
`MHLEN` of them. -/
theorem firstMbuf_spec {ph : Pkthdr} (hph : m0.m_pkthdr = some ph) (mem : Mem) (thr : ℕ) (d : ℤ) :
    (∃ ns mem', firstMbuf thr d mem m0 = some (.error (ns, mem')) ∧ ¬mem.Plenty ∧ Grown mem mem' ∧
        Own mem mem' ns) ∨
      ∃ n0 mem', firstMbuf thr d mem m0 = some (.ok (n0, mem')) ∧ Grown mem mem' ∧ Made mem mem' n0 ∧
        n0.InStorage ∧ n0.m_len ≤ (ph.len + d).toNat ∧ min MHLEN (ph.len + d).toNat ≤ n0.m_len ∧
        n0.m_pkthdr = some { ph with len := ph.len + d } := by
  obtain ⟨hno, hget⟩ | ⟨junk, -, hget⟩ := m_get_cases mem
  · exact .inl ⟨[], mem.advance, by rw [firstMbuf, hget], fun h => h 0 hno, grown_advance mem, own_nil _ _⟩
  let mem₁ : Mem := { mem.advance with next := mem.next + 1 }
  have hnew (n : Mbuf) (haddr : n.addr = mem.next) (hext : n.m_ext = none) : Made mem mem₁ n :=
    ⟨⟨haddr ▸ Nat.lt_succ_self _, fun e he => by rw [hext] at he; cases he⟩, haddr.ge,
      fun e he => by rw [hext] at he; cases he⟩
  obtain ⟨g, hp, ⟨hdup, hno⟩ | hdup⟩ := m_dup_pkthdr_cases mem₁ (mem.plain junk) hph
  · have hg : Grown mem₁ (mem₁.withGrants g) := grown_withGrants hp
    refine .inl ⟨_, _, by rw [firstMbuf, hget]; dsimp only; rw [hdup], ?_, (grown_next mem).trans hg, ?_⟩
    · exact fun h => hno ((grown_next mem).plenty h)
    · exact own_singleton ((hnew _ rfl rfl).grown hg)
  · have hg : Grown mem₁ (mem₁.withGrants g) := grown_withGrants hp
    let n0 : Mbuf := { addLen d ((mem.plain junk).headed m0 ph) with m_len := MHLEN }
    have hin : n0.InStorage := ⟨le_rfl, le_rfl⟩
    obtain ⟨n, mem', hroom, hgrown, hn, hnin, hle, hge, hhdr⟩ := makeRoom_spec ((grown_next mem).trans hg)
      ((hnew n0 rfl rfl).grown hg) rfl hin thr (ph.len + d).toNat
    refine .inr ⟨n, mem', ?_, ((grown_next mem).trans hg).trans hgrown, hn, hnin, hle, hge, hhdr⟩
    rw [firstMbuf, hget]
    dsimp only
    rw [hdup]
    dsimp only
    rw [show (pktLen (addLen d ((mem.plain junk).headed m0 ph))).toNat = (ph.len + d).toNat from rfl, hroom]

/-- The walk starts with the octets that were written to the first mbuf. -/
theorem inv_start {t : Task} (hc : t.c = m0 :: c) {moff noff : ℕ} (hmoff : moff ≤ m0.m_len)
    (hxs : t.xs = (t.mem.bytes t.c).drop moff) (hnc : t.nc.length = 13) {mem' : Mem} (hg : Grown t.mem mem')
    (hn : Made t.mem mem' t.n0) (hin : t.n0.InStorage) (hnoff : noff ≤ t.n0.m_len)
    (hcap : t.n0.m_len - noff ≤ t.total)
    (hhdr : mem'.store.read (region t.n0.buf t.n0.m_data noff) = t.hdr) :
    Inv t 0 ⟨mem', t.c, moff, [], t.n0, noff, t.total,
      .start t.E ⟨t.X, counterBlock 2 t.nc 0, t.E (counterBlock 2 t.nc 0)⟩⟩ where
  grown := hg
  own := own_singleton hn
  storage := by
    intro n hn
    rw [List.mem_singleton.1 hn]
    exact hin
  left := Nat.zero_add _
  sub _ hm := hm
  ne := by rw [hc]; exact List.cons_ne_nil _ _
  moff := by
    intro m hm
    dsimp only at hm ⊢
    rw [hc] at hm
    obtain rfl : m0 = m := Option.some.inj hm
    exact hmoff
  rest := hxs.symm
  noff := hnoff
  cap := hcap
  bytes := by
    dsimp only
    rw [hhdr, Task.output, List.take_zero, xorStream, List.append_nil]
    rfl
  st := by
    dsimp only
    rw [cipherAt_start _ _ hnc, Task.clear, Task.output, List.take_zero, xorStream]
    cases t.dir <;> rfl
  head := rfl

end Start

/-- The new chain, with its octets; its first mbuf is `n0`, which may have got longer. -/
structure Built (mem₀ : Mem) (n0 : Mbuf) (mem : Mem) (ns : List Mbuf) (bs : List UInt8) : Prop where
  own : Own mem₀ mem ns
  storage : ∀ n ∈ ns, n.InStorage
  bytes : mem.bytes ns = bs
  head : ∃ n rest, ns = n :: rest ∧ n.m_pkthdr = n0.m_pkthdr ∧ n0.m_len ≤ n.m_len

section Built

variable {mem₀ mem : Mem} {n0 : Mbuf} {ns : List Mbuf} {bs : List UInt8} {t : Task} {w : Walk}

theorem Inv.built (h : Inv t t.total w) (hleft : w.left = 0) :
    Built t.mem t.n0 w.mem w.chain (t.hdr ++ t.output t.total) := by
  refine ⟨h.own, h.storage, (h.bytes_chain hleft).1, ?_⟩
  obtain ⟨n, rest, hchain⟩ := List.exists_cons_of_ne_nil (show w.chain ≠ [] by simp [Walk.chain])
  have hhead := h.head
  rw [hchain] at hhead
  obtain rfl : n = t.n0 := Option.some.inj hhead
  exact ⟨_, rest, hchain, rfl, le_rfl⟩

/-- There is room for the MIC in the last mbuf. -/
theorem reserve_spec (h : Built t.mem n0 w.mem w.chain bs) (hg : Grown t.mem w.mem) :
    (∃ w', w.reserve = .error w' ∧ Failed t w') ∨
      ∃ w', w.reserve = .ok w' ∧ Grown t.mem w'.mem ∧ Built t.mem n0 w'.mem w'.chain bs ∧ w'.st = w.st ∧
        w'.n.m_data + w'.n.m_len + IEEE80211_CCMP_MICLEN ≤ w'.n.limit := by
  have hn : w.n ∈ w.chain := by simp [Walk.chain]
  rw [Walk.reserve]
  by_cases hspace : m_trailingspace w.mem w.n < IEEE80211_CCMP_MICLEN
  swap
  · rw [if_neg hspace]
    refine .inr ⟨w, rfl, hg, h, rfl, ?_⟩
    rw [m_trailingspace, (h.own.new _ hn).readonly, if_neg (by decide)] at hspace
    have := (h.storage _ hn).2
    omega
  rw [if_pos hspace]
  obtain ⟨hno, hget⟩ | ⟨junk, -, hget⟩ := m_get_cases w.mem
  · refine .inl ⟨{ w with mem := w.mem.advance }, by rw [hget], fun hp => hg.plenty hp 0 hno,
      hg.trans (grown_advance _), h.own.grown (grown_advance _)⟩
  have hgn := grown_next w.mem
  let n : Mbuf := { w.mem.plain junk with m_len := 0 }
  refine .inr ⟨{ w with mem := { w.mem.advance with next := w.mem.next + 1 }, out := w.out ++ [w.n], n := n },
    by rw [hget], hg.trans hgn, ⟨?_, ?_, ?_, ?_⟩, rfl, ?_⟩
  · exact h.own.concat hg hgn ⟨⟨Nat.lt_succ_self _, fun e he => by cases he⟩, le_rfl, fun e he => by cases he⟩
  · intro k hk
    rcases List.mem_append.1 hk with hk | hk
    · exact h.storage k hk
    · rw [List.mem_singleton.1 hk]
      exact ⟨le_rfl, Nat.zero_le _⟩
  · rw [← h.bytes, ← hgn.keeps.bytes fun m hm => (h.own.new m hm).old]
    change Mem.bytes _ (w.chain ++ [n]) = _
    rw [Mem.bytes_append]
    exact List.append_nil _
  · obtain ⟨k, rest, hchain, hk⟩ := h.head
    refine ⟨k, rest ++ [n], ?_, hk⟩
    change w.chain ++ [n] = _
    rw [hchain]
    rfl
  · change 0 + 0 + IEEE80211_CCMP_MICLEN ≤ MLEN
    decide

theorem Built.addMic (h : Built mem₀ n0 w.mem w.chain bs) {mic : List UInt8} (hlen : mic.length = IEEE80211_CCMP_MICLEN)
    (hspace : w.n.m_data + w.n.m_len + IEEE80211_CCMP_MICLEN ≤ w.n.limit) :
    Built mem₀ n0 (w.addMic mic).mem (w.addMic mic).chain (bs ++ mic) where
  own := by
    refine (h.own.copyin _ _ _).congr ?_
    simp [Walk.chain, Walk.addMic, Mbuf.place]
  storage := by
    intro n hn
    rcases List.mem_append.1 hn with hn | hn
    · exact h.storage n (List.mem_append_left _ hn)
    · rw [List.mem_singleton.1 hn]
      refine ⟨(h.storage w.n (by simp [Walk.chain])).1, ?_⟩
      exact (Nat.add_assoc _ _ _).ge.trans hspace
  bytes := by
    have hbehind := read_copyin_behind w.mem w.n.buf w.n.m_data w.n.m_len mic
    rw [hlen] at hbehind
    rw [← h.bytes, Walk.chain, Mem.bytes_append, Walk.chain, Mem.bytes_append]
    change (w.mem.copyin _ _ _).bytes w.out ++ _ = _
    rw [h.own.bytes_copyin, List.append_assoc]
    congr 1
    simp only [Mem.bytes, chainLocs_cons, chainLocs_nil, List.append_nil]
    exact hbehind
  head := by
    obtain ⟨k, rest, hchain, hhdr, hle⟩ := h.head
    cases hout : w.out with
    | nil =>
      rw [Walk.chain, hout] at hchain
      obtain ⟨rfl, rfl⟩ := List.cons.inj hchain
      exact ⟨(w.addMic mic).n, [], by rw [Walk.chain, Walk.addMic, hout]; rfl, hhdr,
        hle.trans (Nat.le_add_right _ _)⟩
    | cons k' out =>
      rw [Walk.chain, hout] at hchain
      obtain ⟨rfl, rfl⟩ := List.cons.inj hchain
      exact ⟨_, out ++ [(w.addMic mic).n], by rw [Walk.chain, Walk.addMic, hout]; rfl, hhdr, hle⟩

theorem Built.freem (h : Built mem₀ n0 mem ns bs) (hg : Grown mem₀ mem) {c : List Mbuf} (hc : ChainSound mem₀ c) :
    ∃ mem', m_freem mem c = some mem' ∧ Built mem₀ n0 mem' ns bs := by
  obtain ⟨mem', hfree, hown, hbytes, -⟩ := hc.freem hg h.own
  exact ⟨mem', hfree, hown, h.storage, hbytes.trans h.bytes, h.head⟩

theorem discardBoth_spec {Ctx : Type*} {c : List Mbuf} (hc : ChainSound mem₀ c) (hg : Grown mem₀ mem)
    (hown : Own mem₀ mem ns) (ic : Stats) (k : Key Ctx) :
    ∃ mem', discardBoth ic k mem c ns = some ([], ic, k, mem') := by
  obtain ⟨mem₁, hfree, hown', -⟩ := hc.freem hg hown
  obtain ⟨mem₂, hfree', -⟩ := hown'.freem
  refine ⟨mem₂, ?_⟩
  rw [discardBoth, hfree]
  dsimp only
  rw [discard, hfree', Option.map_some]

/-- The length in the packet header grows. -/
theorem Built.addLen (h : Built mem₀ n0 mem ns bs) (d : ℤ) :
    Built mem₀ (addLen d n0) mem (addChainLen d ns) bs := by
  obtain ⟨n, rest, rfl, hhdr, hle⟩ := h.head
  refine ⟨h.own.congr rfl, ?_, h.bytes, Ieee80211.addLen d n, rest, rfl, ?_, hle⟩
  · intro k hk
    rcases List.mem_cons.1 hk with rfl | hk
    · have hn := h.storage n List.mem_cons_self
      refine ⟨le_trans (le_of_eq ?_) hn.1, hn.2⟩
      rw [Mbuf.base, Mbuf.base, Ieee80211.addLen]
      cases n.m_ext <;> cases n.m_pkthdr <;> rfl
    · exact h.storage k (List.mem_cons_of_mem _ hk)
  · rw [Ieee80211.addLen, Ieee80211.addLen, hhdr]

theorem getD_take {i n : ℕ} (hi : i < n) (l : List UInt8) (d : UInt8) : (l.take n).getD i d = l.getD i d := by
  rw [List.getD_eq_getElem?_getD, List.getD_eq_getElem?_getD, List.getElem?_take_of_lt hi]

theorem mtod_eq {m : Mbuf} {c : List Mbuf} {i : ℕ} (hi : i < m.m_len) : mtod mem m i = (mem.bytes (m :: c)).getD i 0 := by
  rw [mtod, Mem.bytes_cons, List.getD_append _ _ _ _ (by simpa using hi), List.getD_eq_getElem _ _ (by simpa using hi)]
  simp [Mbuf.locs, Store.read, getElem_region]

theorem mtod_keeps {m : Mbuf} (hk : mem₀.Keeps mem) (hm : m.Old mem₀) : mtod mem m = mtod mem₀ m :=
  funext fun _ => hk.store _ _ hm.buf

/-- The new chain holds a frame when its octets start with a header. -/
theorem Built.frame (h : Built mem₀ n0 mem ns bs) {ph : Pkthdr} (hph : n0.m_pkthdr = some ph) (hlen : ph.len = bs.length)
    {wh : Octets} {hdrlen more : ℕ} (hhdr : get_hdrlen wh = some hdrlen) (hwh : ∀ i < hdrlen, bs.getD i 0 = wh i)
    (hfirst : hdrlen + more ≤ n0.m_len) : ∃ m1 c1, ns = m1 :: c1 ∧ Frame mem m1 c1 hdrlen more := by
  obtain ⟨n, rest, rfl, hn, hle⟩ := h.head
  refine ⟨n, rest, rfl, h.own.sound h.storage, ⟨n, rfl, ph, hn.trans hph, ?_⟩, ?_, hfirst.trans hle⟩
  · rw [hlen, ← h.bytes, Mem.length_bytes]
  · refine get_hdrlen_congr hhdr fun i hi => ?_
    rw [mtod_eq (c := rest) (by omega), h.bytes]
    exact hwh i hi

end Built

section Encrypt

variable {Ctx : Type*} (rijndael_encrypt : Ctx → Block → Block)

/-- The octets of an encrypted frame: the header, the CCMP header, and what CCM gives for the body. -/
def sealed (k : Key Ctx) (wh : Octets) (hdrlen : ℕ) (frame : List UInt8) : List UInt8 :=
  let E := rijndael_encrypt k.k_priv
  frame.take hdrlen ++ ccmpHeader k ++ ciphertext E 2 (nonce wh k.k_tsc) (frame.drop hdrlen) ++
    mic E 8 2 (nonce wh k.k_tsc) (aad wh) (frame.drop hdrlen)

variable {mem : Mem} {m0 : Mbuf} {c : List Mbuf} {hdrlen more : ℕ}

theorem Frame.hdr (h : Frame mem m0 c hdrlen more) :
    ∃ ph, m0.m_pkthdr = some ph ∧ ph.len = chainLen (m0 :: c) ∧ hdrlen + more ≤ chainLen (m0 :: c) := by
  obtain ⟨m, hm, ph, hph, hlen⟩ := h.len
  obtain rfl : m0 = m := Option.some.inj hm
  refine ⟨ph, hph, hlen, ?_⟩
  rw [chainLen_cons]
  exact h.first.trans (Nat.le_add_right _ _)

/-- The octets that are copied from the first mbuf. -/
theorem Frame.read_hdr (h : Frame mem m0 c hdrlen more) {mem' : Mem} (hk : mem.Keeps mem') :
    mem'.store.read (region m0.buf m0.m_data hdrlen) = (mem.bytes (m0 :: c)).take hdrlen := by
  have hfirst := h.first
  have hold : m0.Old mem := h.sound.old m0 List.mem_cons_self
  have hpart := read_part mem'.store m0 (show hdrlen ≤ m0.m_len - 0 by omega)
  rw [Nat.add_zero, List.drop_zero, hk.read hold.locs] at hpart
  rw [hpart, Mem.bytes_cons, List.take_append_of_le_length (by simp; omega)]

theorem micOctets_finish (E : Block → Block) {nc a clear : List UInt8} {X : Block}
    (hX : X = headMac E 8 2 nc a clear.length) :
    micOctets ((cipherAt E X nc clear).finish E) (E (counterBlock 2 nc 0)) = mic E 8 2 nc a clear := by
  rw [cipherAt_finish, hX]
  rfl

theorem encryptFrom_spec {t : Task} {w : Walk} (h : Inv t 0 w) (hgood : t.Good) (hdir : t.dir = .encrypt)
    (hc : ChainSound t.mem t.c) (ic : Stats) (k : Key Ctx) (s0 : Block) :
    (∃ ic' mem', encryptFrom t.E ic k t.c s0 w = some ([], ic', k, mem') ∧ ¬t.mem.Plenty) ∨
      ∃ ns mem', encryptFrom t.E ic k t.c s0 w = some (ns, ic, k, mem') ∧
        Built t.mem (addLen IEEE80211_CCMP_MICLEN t.n0) mem' ns (t.hdr ++ t.output t.total ++
          micOctets ((cipherAt t.E t.X t.nc (t.clear t.total)).finish t.E) s0) := by
  have hfail {w' : Walk} (hfailed : Failed t w') :=
    discardBoth_spec hc hfailed.grown hfailed.own { ic with is_tx_nombuf := ic.is_tx_nombuf + 1 } k
  rw [encryptFrom, ← hdir]
  dsimp only
  obtain ⟨w', hrun, hfailed⟩ | ⟨w₁, hrun, hinv, hleft⟩ := h.run hgood (MINCLSIZE - IEEE80211_CCMP_MICLEN)
  · obtain ⟨mem', hdiscard⟩ := hfail hfailed
    rw [hrun]
    exact .inl ⟨_, mem', hdiscard, hfailed.refused⟩
  rw [hrun]
  dsimp only
  obtain ⟨w', hreserve, hfailed⟩ | ⟨w₂, hreserve, hgrown, hbuilt, hst, hspace⟩ :=
    reserve_spec (hinv.built hleft) hinv.grown
  · obtain ⟨mem', hdiscard⟩ := hfail hfailed
    rw [hreserve]
    exact .inl ⟨_, mem', hdiscard, hfailed.refused⟩
  rw [hreserve]
  dsimp only
  rw [hst, hinv.st]
  set tag := micOctets ((cipherAt t.E t.X t.nc (t.clear t.total)).finish t.E) s0 with htag
  have hlen : tag.length = IEEE80211_CCMP_MICLEN := by
    rw [htag, micOctets, List.length_take, List.length_ofFn]
    rfl
  have hmem : Grown t.mem (w₂.addMic tag).mem := hgrown.copyin (hbuilt.own.notOld (by simp [Walk.chain])) _ _
  obtain ⟨mem', hfree, hdone⟩ := (hbuilt.addMic hlen hspace).freem hmem hc
  exact .inr ⟨_, mem', by rw [hfree, Option.map_some], hdone.addLen _⟩

theorem ccmp_encrypt_ok {ic : Stats} {k : Key Ctx} {n0 : Mbuf} {mem₁ mem₂ : Mem} {p : Phase1} {l : ℕ}
    (hmem : (mem₁.memcpy n0.buf n0.m_data m0.buf m0.m_data hdrlen).copyin n0.buf (n0.m_data + hdrlen)
      (ccmpHeader k.bump) = mem₂)
    (hfirst : firstMbuf (MINCLSIZE - IEEE80211_CCMP_MICLEN) IEEE80211_CCMP_HDRLEN mem m0 = some (.ok (n0, mem₁)))
    (hhdr : get_hdrlen (mtod mem₁ m0) = some hdrlen)
    (hp : ccmp_phase1 (rijndael_encrypt k.k_priv) (mtod mem₂ m0) k.bump.k_tsc (pktLen m0 - hdrlen) = p)
    (hl : (pktLen m0 - hdrlen).toNat = l) :
    ccmp_encrypt rijndael_encrypt ic mem (m0 :: c) k =
      encryptFrom (rijndael_encrypt k.k_priv) ic k.bump (m0 :: c) p.s0
        ⟨mem₂, m0 :: c, hdrlen, [], n0, hdrlen + IEEE80211_CCMP_HDRLEN, l, .start (rijndael_encrypt k.k_priv) p⟩ := by
  subst hmem hp hl
  rw [ccmp_encrypt]
  dsimp only
  rw [hfirst]
  dsimp only
  rw [hhdr]

/-- Encryption fails only when an allocation is refused. -/
theorem ccmp_encrypt_spec (h : Frame mem m0 c hdrlen 0) (ic : Stats) (k : Key Ctx) :
    (∃ ic' k' mem', ccmp_encrypt rijndael_encrypt ic mem (m0 :: c) k = some ([], ic', k', mem') ∧ ¬mem.Plenty) ∨
      ∃ m1 c1 mem', ccmp_encrypt rijndael_encrypt ic mem (m0 :: c) k = some (m1 :: c1, ic, k.bump, mem') ∧
        Frame mem' m1 c1 hdrlen IEEE80211_CCMP_HDRLEN ∧
        mem'.bytes (m1 :: c1) = sealed rijndael_encrypt k.bump (mtod mem m0) hdrlen (mem.bytes (m0 :: c)) := by
  obtain ⟨ph, hph, hlen, hbody⟩ := h.hdr
  have hold : m0.Old mem := h.sound.old m0 List.mem_cons_self
  have hge := hdrlen_ge h.header
  have hle := hdrlen_le h.header
  have hhdrlen : IEEE80211_CCMP_HDRLEN = 8 := rfl
  obtain ⟨ns, mem₁, hfirst, hno, hg, hown⟩ | ⟨n0, mem₁, hfirst, hg, hn, hin, hwant, hroom, hn0⟩ :=
    firstMbuf_spec hph mem (MINCLSIZE - IEEE80211_CCMP_MICLEN) IEEE80211_CCMP_HDRLEN
  · obtain ⟨mem', hdiscard⟩ := discardBoth_spec h.sound hg hown { ic with is_tx_nombuf := ic.is_tx_nombuf + 1 } k
    exact .inl ⟨_, _, mem', by rw [ccmp_encrypt]; dsimp only; rw [hfirst]; exact hdiscard, hno⟩
  set bs := mem.bytes (m0 :: c) with hbs
  set wh := mtod mem m0 with hwh
  have hbslen : bs.length = chainLen (m0 :: c) := Mem.length_bytes _ _
  let n := chainLen (m0 :: c) - hdrlen
  let nc := nonce wh k.bump.k_tsc
  let E := rijndael_encrypt k.k_priv
  let hdr := bs.take hdrlen ++ ccmpHeader k.bump
  let t : Task := ⟨mem, m0 :: c, E, .encrypt, headMac E 8 2 nc (aad wh) n, nc, bs.drop hdrlen, n, hdr, n0⟩
  let mem₂ := mem₁.memcpy n0.buf n0.m_data m0.buf m0.m_data hdrlen
  let mem₃ := mem₂.copyin n0.buf (n0.m_data + hdrlen) (ccmpHeader k.bump)
  have hg₃ : Grown mem mem₃ := (hg.copyin hn.notOld _ _).copyin hn.notOld _ _
  have hn₃ : Made mem mem₃ n0 := (hn.copyin _ _ _).copyin _ _ _
  have hread : mem₃.store.read (region n0.buf n0.m_data (hdrlen + 8)) = hdr := by
    have htake : (bs.take hdrlen).length = hdrlen := by
      rw [List.length_take]
      omega
    have hcopy : mem₂ = mem₁.copyin n0.buf n0.m_data (bs.take hdrlen) := by
      change mem₁.copyin _ _ _ = _
      rw [h.read_hdr hg.keeps]
    have hbehind := read_copyin_behind mem₂ n0.buf n0.m_data hdrlen (ccmpHeader k.bump)
    rw [hcopy, read_copyin_self _ _ _ _ _ htake, ← hcopy] at hbehind
    exact hbehind
  have hgood : t.Good := ⟨h.sound.old, by change n ≤ (bs.drop hdrlen).length; rw [List.length_drop, hbslen],
    length_nonce _ _⟩
  have hwant' : n0.m_len ≤ hdrlen + 8 + n := by omega
  have hroom' : hdrlen + 8 ≤ n0.m_len := by
    have : MHLEN = 152 := rfl
    omega
  have hstart := inv_start (t := t) rfl (show hdrlen ≤ m0.m_len from h.first) rfl (length_nonce _ _) hg₃ hn₃ hin
    hroom' (show n0.m_len - (hdrlen + 8) ≤ n by omega) hread
  have hpkt : pktLen m0 - (hdrlen : ℤ) = (n : ℤ) := by
    rw [pktLen, hph]
    dsimp only
    omega
  have hphase : ccmp_phase1 E (mtod mem₃ m0) k.bump.k_tsc (pktLen m0 - hdrlen) =
      ⟨t.X, counterBlock 2 nc 0, E (counterBlock 2 nc 0)⟩ := by
    rw [mtod_keeps hg₃.keeps hold, hpkt]
    exact ccmp_phase1_spec _ _ _ _
  rw [ccmp_encrypt_ok rijndael_encrypt rfl hfirst (by rw [mtod_keeps hg.keeps hold, h.header]) hphase
    (by rw [hpkt, Int.toNat_natCast])]
  obtain ⟨ic', mem', hnone, hno⟩ | ⟨ns, mem', hsome, hbuilt⟩ :=
    encryptFrom_spec hstart hgood rfl h.sound ic k.bump (E (counterBlock 2 nc 0))
  · exact .inl ⟨ic', k.bump, mem', hnone, hno⟩
  have hclear : t.clear t.total = bs.drop hdrlen := List.take_of_length_le (by rw [List.length_drop, hbslen])
  have houtput : t.output t.total = ciphertext E 2 nc (bs.drop hdrlen) := by
    rw [Task.output, List.take_of_length_le (show (bs.drop hdrlen).length ≤ n by rw [List.length_drop, hbslen])]
    rfl
  rw [hclear, houtput, micOctets_finish E (a := aad wh) (by rw [List.length_drop, hbslen])] at hbuilt
  have hpkthdr : (addLen IEEE80211_CCMP_MICLEN n0).m_pkthdr = some { ph with len := ph.len + 8 + 8 } := by
    rw [addLen, hn0]
    rfl
  have htotal : ph.len + 8 + 8 =
      ((hdr ++ ciphertext E 2 nc (bs.drop hdrlen) ++ mic E 8 2 nc (aad wh) (bs.drop hdrlen)).length : ℤ) := by
    rw [List.length_append, List.length_append, length_mic (by decide), length_ciphertext, List.length_append,
      List.length_take, List.length_drop, hlen, ccmpHeader]
    simp only [List.length_cons, List.length_nil]
    omega
  obtain ⟨m1, c1, rfl, hframe⟩ := hbuilt.frame hpkthdr htotal h.header
    (fun i hi => by
      have hfirst := h.first
      rw [mtod_eq (c := c) (by omega), List.append_assoc, List.append_assoc,
        List.getD_append _ _ _ _ (by rw [List.length_take]; omega)]
      exact getD_take hi _ _) hroom'
  exact .inr ⟨m1, c1, mem', hsome, hframe, hbuilt.bytes⟩

end Encrypt

end OpenbsdKernel.Ieee80211
