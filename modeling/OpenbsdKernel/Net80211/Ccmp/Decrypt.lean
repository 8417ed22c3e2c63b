import OpenbsdKernel.Net80211.Ccmp.Encrypt

/-!
# Decryption

`ieee80211_ccmp_decrypt` returns the header of a frame without the protected bit and what CCM gives for
the octets behind the CCMP header, when the last eight octets are the MIC. What was encrypted is
decrypted under the same key.
-/
namespace OpenbsdKernel.Ieee80211

open Store UipcMbuf Ccm

section PacketNumber

variable {Ctx : Type*} (k : Key Ctx)

/-- The 48 bits of the counter that are transmitted. -/
def Key.pn : UInt64 := ⟨(k.k_tsc.toBitVec.setWidth 48).setWidth 64⟩

theorem join_octets (x : BitVec 64) :
    (x.setWidth 8).setWidth 64 ||| ((x >>> 8).setWidth 8).setWidth 64 <<< 8 |||
        ((x >>> 16).setWidth 8).setWidth 64 <<< 16 ||| ((x >>> 24).setWidth 8).setWidth 64 <<< 24 |||
        ((x >>> 32).setWidth 8).setWidth 64 <<< 32 ||| ((x >>> 40).setWidth 8).setWidth 64 <<< 40 =
      (x.setWidth 48).setWidth 64 := by
  ext i hi
  simp only [BitVec.getElem_or, BitVec.getElem_shiftLeft, BitVec.getElem_setWidth, BitVec.getLsbD_setWidth,
    BitVec.getLsbD_ushiftRight]
  grind

theorem octet_setWidth (x : BitVec 64) {s : ℕ} (hs : s ≤ 40) :
    (((x.setWidth 48).setWidth 64) >>> s).setWidth 8 = (x >>> s).setWidth 8 := by
  ext i hi
  simp only [BitVec.getElem_setWidth, BitVec.getLsbD_setWidth, BitVec.getLsbD_ushiftRight]
  grind

theorem packetNumber_ccmpHeader {ivp : Octets} (h : ∀ i < 8, ivp i = (ccmpHeader k).getD i 0) :
    packetNumber ivp = k.pn := by
  rw [packetNumber, h 0 (by decide), h 1 (by decide), h 4 (by decide), h 5 (by decide), h 6 (by decide),
    h 7 (by decide)]
  exact UInt64.toBitVec_inj.1 (join_octets k.k_tsc.toBitVec)

theorem nonce_pn (wh : Octets) : nonce wh k.pn = nonce wh k.k_tsc := by
  have hoctet (s : UInt64) (hs : s.toNat ≤ 40) : (k.pn >>> s).toUInt8 = (k.k_tsc >>> s).toUInt8 := by
    apply UInt8.toBitVec_inj.1
    simp only [Key.pn, UInt64.toBitVec_toUInt8, UInt64.toBitVec_shiftRight]
    exact octet_setWidth _ ((Nat.mod_le _ _).trans hs)
  have hlow : k.pn.toUInt8 = k.k_tsc.toUInt8 := UInt8.toBitVec_inj.1 (octet_setWidth _ (Nat.zero_le 40))
  rw [nonce, nonce, hoctet 40 (by decide), hoctet 32 (by decide), hoctet 24 (by decide), hoctet 16 (by decide),
    hoctet 8 (by decide), hlow]

theorem extiv_ccmpHeader : (ccmpHeader k).getD 3 0 &&& IEEE80211_WEP_EXTIV ≠ 0 := by
  intro h
  have hbit := congrArg (fun x : UInt8 => x.toBitVec.getLsbD 5) h
  simp [ccmpHeader, IEEE80211_WEP_EXTIV] at hbit

@[simp] theorem length_ccmpHeader : (ccmpHeader k).length = 8 := rfl

end PacketNumber

section Decrypt

variable {Ctx : Type*} (rijndael_encrypt : Ctx → Block → Block) {mem : Mem} {m0 : Mbuf} {c : List Mbuf} {hdrlen : ℕ}

theorem read_copyin_modify (mem : Mem) (b : Buf) (a : ℕ) {n : ℕ} (hn : 2 ≤ n) (f : UInt8 → UInt8) :
    (mem.copyin b (a + 1) [f (mem.store b (a + 1))]).store.read (region b a n) =
      (mem.store.read (region b a n)).modify 1 f := by
  obtain ⟨d, rfl⟩ : ∃ d, n = d + 2 := ⟨n - 2, by omega⟩
  have hkeep : (mem.copyin b (a + 1) [f (mem.store b (a + 1))]).store.read (region b (a + 2) d) =
      mem.store.read (region b (a + 2) d) := by
    refine read_write_of_disjoint _ _ _ _ fun l hl hmem => ?_
    have hge := (mem_region.1 hl).2.1
    have hlt := (mem_region.1 hmem).2.2
    rw [List.length_singleton] at hlt
    omega
  have hfirst : (mem.copyin b (a + 1) [f (mem.store b (a + 1))]).store b a = mem.store b a := by
    refine mem.store.write_of_notMem b (a + 1) _ (l := (b, a)) fun hmem => ?_
    have hge := (mem_region.1 hmem).2.1
    dsimp only at hge
    omega
  have hsecond : (mem.copyin b (a + 1) [f (mem.store b (a + 1))]).store b (a + 1) = f (mem.store b (a + 1)) :=
    mem.store.write_at b (a + 1) [f (mem.store b (a + 1))] (show 0 < 1 by decide)
  have hread (s : Store Buf UInt8) : s.read (region b a (d + 2)) =
      s b a :: s b (a + 1) :: s.read (region b (a + 2) d) := by
    rw [region_succ, region_succ]
    rfl
  rw [hread, hread, hkeep, hfirst, hsecond]
  rfl

theorem decryptFrom_spec {t : Task} {w : Walk} (h : Inv t 0 w) (hgood : t.Good) (hdir : t.dir = .decrypt)
    (hc : ChainSound t.mem t.c) (hmic : t.total + IEEE80211_CCMP_MICLEN ≤ t.xs.length) (ic : Stats) (k : Key Ctx)
    (s0 : Block) (pn : UInt64) (rsc : Option (Fin 16)) :
    (∃ ic' mem', decryptFrom t.E ic k t.c s0 pn rsc w = some ([], ic', k, mem') ∧ ¬t.mem.Plenty) ∨
      (t.xs.drop t.total).take IEEE80211_CCMP_MICLEN ≠
          micOctets ((cipherAt t.E t.X t.nc (t.clear t.total)).finish t.E) s0 ∧
        (∃ mem', decryptFrom t.E ic k t.c s0 pn rsc w =
          some ([], { ic with is_ccmp_dec_errs := ic.is_ccmp_dec_errs + 1 }, k, mem')) ∨
      (t.xs.drop t.total).take IEEE80211_CCMP_MICLEN =
          micOctets ((cipherAt t.E t.X t.nc (t.clear t.total)).finish t.E) s0 ∧
        ∃ ns mem', decryptFrom t.E ic k t.c s0 pn rsc w = some (ns, ic, k.setRsc pn rsc, mem') ∧
          Built t.mem t.n0 mem' ns (t.hdr ++ t.output t.total) := by
  rw [decryptFrom, ← hdir]
  obtain ⟨w', hrun, hfailed⟩ | ⟨w₁, hrun, hinv, hleft⟩ := h.run hgood MINCLSIZE
  · obtain ⟨mem', hdiscard⟩ := discardBoth_spec hc hfailed.grown hfailed.own
      { ic with is_rx_nombuf := ic.is_rx_nombuf + 1 } k
    rw [hrun]
    exact .inl ⟨_, mem', hdiscard, hfailed.refused⟩
  rw [hrun]
  dsimp only
  have hbytes : w₁.mem.bytes w₁.src = t.mem.bytes w₁.src :=
    hinv.grown.keeps.bytes fun m hm => hgood.old m (hinv.sub m hm)
  have hrest := congrArg List.length hinv.rest
  rw [List.length_drop, List.length_drop, Mem.length_bytes] at hrest
  have hpos : 0 < IEEE80211_CCMP_MICLEN := by decide
  rw [m_copydata_spec w₁.mem hinv.ne (by omega), hbytes, hinv.rest, hinv.st]
  dsimp only
  by_cases htag : (t.xs.drop t.total).take IEEE80211_CCMP_MICLEN =
      micOctets ((cipherAt t.E t.X t.nc (t.clear t.total)).finish t.E) s0
  · obtain ⟨mem', hfree, hbuilt⟩ := (hinv.built hleft).freem hinv.grown hc
    rw [if_neg (not_not.2 htag), hfree]
    exact .inr (.inr ⟨htag, _, mem', rfl, hbuilt⟩)
  · obtain ⟨mem', hdiscard⟩ := discardBoth_spec hc hinv.grown hinv.own
      { ic with is_ccmp_dec_errs := ic.is_ccmp_dec_errs + 1 } k
    rw [if_pos htag]
    exact .inr (.inl ⟨htag, mem', hdiscard⟩)

/-- With a first mbuf the loop starts, for a frame that is long enough and has a larger packet number. -/
theorem ccmp_decrypt_ok {ic : Stats} {k : Key Ctx} {n0 : Mbuf} {mem₁ mem₂ : Mem} {p : Phase1} {l : ℕ} {pn : UInt64}
    (hhdr : get_hdrlen (mtod mem m0) = some hdrlen)
    (hlong : ¬pktLen m0 < hdrlen + IEEE80211_CCMP_HDRLEN + IEEE80211_CCMP_MICLEN)
    (hextiv : mtod mem m0 (hdrlen + 3) &&& IEEE80211_WEP_EXTIV ≠ 0)
    (hpn : packetNumber (fun i => mtod mem m0 (hdrlen + i)) = pn) (hnew : ¬pn ≤ k.rsc (prsc (mtod mem m0)))
    (hfirst : firstMbuf MINCLSIZE (-(IEEE80211_CCMP_HDRLEN + IEEE80211_CCMP_MICLEN)) mem m0 = some (.ok (n0, mem₁)))
    (hp : ccmp_phase1 (rijndael_encrypt k.k_priv) (mtod mem₁ m0) pn (pktLen n0 - hdrlen) = p)
    (hl : (pktLen n0 - hdrlen).toNat = l)
    (hmem : (mem₁.memcpy n0.buf n0.m_data m0.buf m0.m_data hdrlen).copyin n0.buf (n0.m_data + 1)
      [(mem₁.memcpy n0.buf n0.m_data m0.buf m0.m_data hdrlen).store n0.buf (n0.m_data + 1) &&&
        ~~~IEEE80211_FC1_PROTECTED] = mem₂) :
    ccmp_decrypt rijndael_encrypt ic mem (m0 :: c) k =
      decryptFrom (rijndael_encrypt k.k_priv) ic k (m0 :: c) p.s0 pn (prsc (mtod mem m0))
        ⟨mem₂, m0 :: c, hdrlen + IEEE80211_CCMP_HDRLEN, [], n0, hdrlen, l, .start (rijndael_encrypt k.k_priv) p⟩ := by
  subst hmem hp hl hpn
  rw [ccmp_decrypt]
  dsimp only
  rw [hhdr]
  dsimp only
  rw [if_neg hlong, if_neg hextiv, if_neg hnew, hfirst]
  rfl

/-- The protected bit of a frame is cleared. -/
def clearProtected (frame : List UInt8) : List UInt8 := frame.modify 1 (· &&& ~~~IEEE80211_FC1_PROTECTED)

/-- The encrypted body of a frame. -/
def cryptBody (hdrlen : ℕ) (frame : List UInt8) : List UInt8 :=
  (frame.drop (hdrlen + 8)).take (frame.length - hdrlen - 16)

/-- A new frame is returned with the body that CCM gives, if the last octets are the MIC of it. -/
theorem ccmp_decrypt_spec (h : Frame mem m0 c hdrlen IEEE80211_CCMP_HDRLEN) (ic : Stats) (k : Key Ctx)
    {wh : Octets} {frame clear : List UInt8} {pn : UInt64} (hwh : wh = mtod mem m0)
    (hframe : frame = mem.bytes (m0 :: c)) (hpn : packetNumber (fun i => wh (hdrlen + i)) = pn)
    (hclear : clear = ciphertext (rijndael_encrypt k.k_priv) 2 (nonce wh pn) (cryptBody hdrlen frame))
    (hlong : hdrlen + 16 ≤ frame.length) (hextiv : wh (hdrlen + 3) &&& IEEE80211_WEP_EXTIV ≠ 0)
    (hnew : k.rsc (prsc wh) < pn) :
    (∃ ic' mem', ccmp_decrypt rijndael_encrypt ic mem (m0 :: c) k = some ([], ic', k, mem') ∧ ¬mem.Plenty) ∨
      frame.drop (frame.length - 8) ≠ mic (rijndael_encrypt k.k_priv) 8 2 (nonce wh pn) (aad wh) clear ∧
        (∃ mem', ccmp_decrypt rijndael_encrypt ic mem (m0 :: c) k =
          some ([], { ic with is_ccmp_dec_errs := ic.is_ccmp_dec_errs + 1 }, k, mem')) ∨
      frame.drop (frame.length - 8) = mic (rijndael_encrypt k.k_priv) 8 2 (nonce wh pn) (aad wh) clear ∧
        ∃ m1 c1 mem', ccmp_decrypt rijndael_encrypt ic mem (m0 :: c) k =
            some (m1 :: c1, ic, k.setRsc pn (prsc wh), mem') ∧
          ChainSound mem' (m1 :: c1) ∧ HdrIs (m1 :: c1) ∧
          mem'.bytes (m1 :: c1) = clearProtected (frame.take hdrlen) ++ clear := by
  obtain ⟨ph, hph, hlen, -⟩ := h.hdr
  have hold : m0.Old mem := h.sound.old m0 List.mem_cons_self
  have hge := hdrlen_ge h.header
  have hle := hdrlen_le h.header
  have hhdrlen : IEEE80211_CCMP_HDRLEN = 8 := rfl
  have hmiclen : IEEE80211_CCMP_MICLEN = 8 := rfl
  have hframelen : frame.length = chainLen (m0 :: c) := hframe ▸ Mem.length_bytes _ _
  have hpkt : pktLen m0 = frame.length := by
    rw [pktLen, hph]
    dsimp only
    omega
  subst hwh
  obtain ⟨ns, mem₁, hfirst, hno, hg, hown⟩ | ⟨n0, mem₁, hfirst, hg, hn, hin, hwant, hroom, hn0⟩ :=
    firstMbuf_spec hph mem MINCLSIZE (-(IEEE80211_CCMP_HDRLEN + IEEE80211_CCMP_MICLEN))
  · obtain ⟨mem', hdiscard⟩ := discardBoth_spec h.sound hg hown { ic with is_rx_nombuf := ic.is_rx_nombuf + 1 } k
    refine .inl ⟨{ ic with is_rx_nombuf := ic.is_rx_nombuf + 1 }, mem', ?_, hno⟩
    rw [ccmp_decrypt]
    dsimp only
    rw [h.header]
    dsimp only
    rw [if_neg (by omega), if_neg hextiv, hpn, if_neg (UInt64.not_le.2 hnew), hfirst]
    exact hdiscard
  set wh := mtod mem m0 with hwh
  let E := rijndael_encrypt k.k_priv
  let nc := nonce wh pn
  let n := (cryptBody hdrlen frame).length
  let hdr := clearProtected (frame.take hdrlen)
  let t : Task := ⟨mem, m0 :: c, E, .decrypt, headMac E 8 2 nc (aad wh) n, nc, frame.drop (hdrlen + 8), n, hdr, n0⟩
  let mem₂ := mem₁.memcpy n0.buf n0.m_data m0.buf m0.m_data hdrlen
  let mem₃ := mem₂.copyin n0.buf (n0.m_data + 1) [mem₂.store n0.buf (n0.m_data + 1) &&& ~~~IEEE80211_FC1_PROTECTED]
  have hn' : n = frame.length - hdrlen - 16 := by
    change (List.take _ _).length = _
    rw [List.length_take, List.length_drop]
    omega
  have hg₃ : Grown mem mem₃ := (hg.copyin hn.notOld _ _).copyin hn.notOld _ _
  have hn₃ : Made mem mem₃ n0 := (hn.copyin _ _ _).copyin _ _ _
  have hread : mem₃.store.read (region n0.buf n0.m_data hdrlen) = hdr := by
    have htake : (frame.take hdrlen).length = hdrlen := by
      rw [List.length_take]
      omega
    have hcopy : mem₂ = mem₁.copyin n0.buf n0.m_data (frame.take hdrlen) := by
      change mem₁.copyin _ _ _ = _
      rw [h.read_hdr hg.keeps, hframe]
    have hmodify := read_copyin_modify mem₂ n0.buf n0.m_data (n := hdrlen) (by omega) (· &&& ~~~IEEE80211_FC1_PROTECTED)
    rw [hcopy, read_copyin_self _ _ _ _ _ htake, ← hcopy] at hmodify
    exact hmodify
  have hgood : t.Good := ⟨h.sound.old, by change n ≤ (frame.drop _).length; rw [List.length_drop]; omega,
    length_nonce _ _⟩
  have hroom' : hdrlen ≤ n0.m_len := by
    have : MHLEN = 152 := rfl
    omega
  have hstart := inv_start (t := t) rfl h.first (by rw [← hframe]; rfl) (length_nonce _ _) hg₃ hn₃ hin hroom'
    (show n0.m_len - hdrlen ≤ n by omega) hread
  have hpktn : pktLen n0 - (hdrlen : ℤ) = (n : ℤ) := by
    rw [pktLen, hn0]
    dsimp only
    omega
  have hphase : ccmp_phase1 E (mtod mem₁ m0) pn (pktLen n0 - hdrlen) =
      ⟨t.X, counterBlock 2 nc 0, E (counterBlock 2 nc 0)⟩ := by
    rw [mtod_keeps hg.keeps hold, hpktn]
    exact ccmp_phase1_spec _ _ _ _
  rw [ccmp_decrypt_ok rijndael_encrypt h.header (by omega) hextiv hpn (UInt64.not_le.2 hnew) hfirst hphase
    (by rw [hpktn, Int.toNat_natCast]) rfl]
  have hdone := decryptFrom_spec hstart hgood rfl h.sound
    (show n + 8 ≤ (frame.drop (hdrlen + 8)).length by rw [List.length_drop]; omega) ic k (E (counterBlock 2 nc 0)) pn
    (prsc wh)
  have houtput : t.output t.total = clear := by
    rw [hclear]
    change xorStream (keyOctet E 2 nc) 0 ((frame.drop (hdrlen + 8)).take n) = _
    rw [hn']
    rfl
  have hlast : (t.xs.drop t.total).take IEEE80211_CCMP_MICLEN = frame.drop (frame.length - 8) := by
    change ((frame.drop (hdrlen + 8)).drop n).take 8 = _
    rw [List.drop_drop, hn', show hdrlen + 8 + (frame.length - hdrlen - 16) = frame.length - 8 by omega]
    exact List.take_of_length_le (by rw [List.length_drop]; omega)
  have htag : micOctets ((cipherAt E t.X nc clear).finish E) (E (counterBlock 2 nc 0)) = mic E 8 2 nc (aad wh) clear :=
    micOctets_finish E (by rw [hclear, length_ciphertext])
  rw [hlast, houtput, show t.clear t.total = clear from houtput, htag] at hdone
  obtain ⟨ic', mem', hnone, hno⟩ | ⟨hne, mem', hbad⟩ | ⟨heq, ns, mem', hsome, hbuilt⟩ := hdone
  · exact .inl ⟨ic', mem', hnone, hno⟩
  · exact .inr (.inl ⟨hne, mem', hbad⟩)
  obtain ⟨m1, c1, rfl, hm1, -⟩ := hbuilt.head
  refine .inr (.inr ⟨heq, m1, c1, mem', hsome, hbuilt.own.sound hbuilt.storage, ⟨m1, rfl, _, hm1.trans hn0, ?_⟩,
    hbuilt.bytes⟩)
  have hhdr : t.hdr.length = hdrlen := by
    change (clearProtected (frame.take hdrlen)).length = _
    rw [clearProtected, List.length_modify, List.length_take]
    omega
  have hbytes := congrArg List.length hbuilt.bytes
  rw [Mem.length_bytes, List.length_append, hhdr, hclear, length_ciphertext,
    show (cryptBody hdrlen frame).length = n from rfl] at hbytes
  dsimp only
  omega

end Decrypt

section Sealed

variable {Ctx : Type*} (rijndael_encrypt : Ctx → Block → Block) (k : Key Ctx) (wh : Octets) {hdrlen : ℕ}
  {frame : List UInt8}

theorem length_sealed (h : hdrlen ≤ frame.length) :
    (sealed rijndael_encrypt k wh hdrlen frame).length = frame.length + 16 := by
  simp only [sealed, List.length_append, List.length_take, length_ccmpHeader, length_ciphertext, List.length_drop]
  rw [length_mic (by decide)]
  omega

theorem take_sealed (h : hdrlen ≤ frame.length) :
    (sealed rijndael_encrypt k wh hdrlen frame).take hdrlen = frame.take hdrlen := by
  rw [sealed, List.append_assoc, List.append_assoc, List.take_left' (by rw [List.length_take]; omega)]

theorem drop_sealed (h : hdrlen ≤ frame.length) :
    (sealed rijndael_encrypt k wh hdrlen frame).drop hdrlen = ccmpHeader k ++
      (ciphertext (rijndael_encrypt k.k_priv) 2 (nonce wh k.k_tsc) (frame.drop hdrlen) ++
        mic (rijndael_encrypt k.k_priv) 8 2 (nonce wh k.k_tsc) (aad wh) (frame.drop hdrlen)) := by
  rw [sealed, List.append_assoc, List.append_assoc, List.drop_left' (by rw [List.length_take]; omega)]

theorem getD_sealed_header (h : hdrlen ≤ frame.length) {i : ℕ} (hi : i < hdrlen) :
    (sealed rijndael_encrypt k wh hdrlen frame).getD i 0 = frame.getD i 0 := by
  rw [← getD_take hi, take_sealed _ _ _ h, getD_take hi]

theorem getD_drop (n i : ℕ) (l : List UInt8) : (l.drop n).getD i 0 = l.getD (n + i) 0 := by
  rw [List.getD_eq_getElem?_getD, List.getD_eq_getElem?_getD, List.getElem?_drop]

theorem getD_sealed_ccmpHeader (h : hdrlen ≤ frame.length) {i : ℕ} (hi : i < 8) :
    (sealed rijndael_encrypt k wh hdrlen frame).getD (hdrlen + i) 0 = (ccmpHeader k).getD i 0 := by
  rw [← getD_drop, drop_sealed _ _ _ h, List.getD_append _ _ _ _ hi]

theorem drop_sealed_body (h : hdrlen ≤ frame.length) :
    (sealed rijndael_encrypt k wh hdrlen frame).drop (hdrlen + 8) =
      ciphertext (rijndael_encrypt k.k_priv) 2 (nonce wh k.k_tsc) (frame.drop hdrlen) ++
        mic (rijndael_encrypt k.k_priv) 8 2 (nonce wh k.k_tsc) (aad wh) (frame.drop hdrlen) := by
  rw [← List.drop_drop, drop_sealed _ _ _ h, List.drop_left' (length_ccmpHeader k)]

theorem cryptBody_sealed (h : hdrlen ≤ frame.length) :
    cryptBody hdrlen (sealed rijndael_encrypt k wh hdrlen frame) =
      ciphertext (rijndael_encrypt k.k_priv) 2 (nonce wh k.k_tsc) (frame.drop hdrlen) := by
  rw [cryptBody, length_sealed _ _ _ h, drop_sealed_body _ _ _ h, List.take_left']
  rw [length_ciphertext, List.length_drop]
  omega

theorem drop_sealed_mic (h : hdrlen ≤ frame.length) :
    (sealed rijndael_encrypt k wh hdrlen frame).drop ((sealed rijndael_encrypt k wh hdrlen frame).length - 8) =
      mic (rijndael_encrypt k.k_priv) 8 2 (nonce wh k.k_tsc) (aad wh) (frame.drop hdrlen) := by
  rw [length_sealed _ _ _ h, show frame.length + 16 - 8 = hdrlen + 8 + (frame.length - hdrlen) by omega,
    ← List.drop_drop, drop_sealed_body _ _ _ h, List.drop_left']
  rw [length_ciphertext, List.length_drop]

end Sealed

section Roundtrip

variable {Ctx : Type*} (rijndael_encrypt : Ctx → Block → Block) {mem : Mem} {m0 : Mbuf} {c : List Mbuf} {hdrlen : ℕ}

/-- A frame that was sealed is opened, however its octets are spread over mbufs. -/
theorem ccmp_decrypt_sealed (h : Frame mem m0 c hdrlen IEEE80211_CCMP_HDRLEN) {k : Key Ctx} {wh : Octets}
    {frame : List UInt8} (hlen : hdrlen ≤ frame.length) (hhdr : get_hdrlen wh = some hdrlen)
    (hwh : ∀ i < hdrlen, frame.getD i 0 = wh i)
    (hsealed : mem.bytes (m0 :: c) = sealed rijndael_encrypt k wh hdrlen frame) (ic : Stats) (k₂ : Key Ctx)
    (hkey : k₂.k_priv = k.k_priv) (hnew : k₂.rsc (prsc wh) < k.pn) :
    (∃ ic' mem', ccmp_decrypt rijndael_encrypt ic mem (m0 :: c) k₂ = some ([], ic', k₂, mem') ∧ ¬mem.Plenty) ∨
      ∃ m1 c1 mem', ccmp_decrypt rijndael_encrypt ic mem (m0 :: c) k₂ =
          some (m1 :: c1, ic, k₂.setRsc k.pn (prsc wh), mem') ∧
        ChainSound mem' (m1 :: c1) ∧ HdrIs (m1 :: c1) ∧ mem'.bytes (m1 :: c1) = clearProtected frame := by
  have hfirst := h.first
  have hccmp : IEEE80211_CCMP_HDRLEN = 8 := rfl
  have hge := hdrlen_ge hhdr
  have hsame : ∀ i < hdrlen, mtod mem m0 i = wh i := by
    intro i hi
    rw [mtod_eq (c := c) (by omega), hsealed, getD_sealed_header _ _ _ hlen hi, hwh i hi]
  have hivp : ∀ i < 8, mtod mem m0 (hdrlen + i) = (ccmpHeader k).getD i 0 := by
    intro i hi
    rw [mtod_eq (c := c) (by omega), hsealed, getD_sealed_ccmpHeader _ _ _ hlen hi]
  have hclear : frame.drop hdrlen = ciphertext (rijndael_encrypt k₂.k_priv) 2 (nonce (mtod mem m0) k.pn)
      (cryptBody hdrlen (mem.bytes (m0 :: c))) := by
    rw [hsealed, cryptBody_sealed _ _ _ hlen, nonce_congr hhdr hsame, nonce_pn, hkey, ciphertext_ciphertext]
  have hmic : (mem.bytes (m0 :: c)).drop ((mem.bytes (m0 :: c)).length - 8) =
      mic (rijndael_encrypt k₂.k_priv) 8 2 (nonce (mtod mem m0) k.pn) (aad (mtod mem m0)) (frame.drop hdrlen) := by
    rw [hsealed, drop_sealed_mic _ _ _ hlen, nonce_congr hhdr hsame, aad_congr hhdr hsame, nonce_pn, hkey]
  have hlong : hdrlen + 16 ≤ (mem.bytes (m0 :: c)).length := by
    rw [hsealed, length_sealed _ _ _ hlen]
    omega
  have hextiv : mtod mem m0 (hdrlen + 3) &&& IEEE80211_WEP_EXTIV ≠ 0 := by
    rw [hivp 3 (by decide)]
    exact extiv_ccmpHeader k
  obtain hnone | ⟨hne, -⟩ | ⟨-, m1, c1, mem', hsome, hsound, hhdris, hbytes⟩ :=
    ccmp_decrypt_spec rijndael_encrypt h ic k₂ rfl rfl (packetNumber_ccmpHeader k hivp) hclear hlong hextiv
      (by rw [prsc_congr hhdr hsame]; exact hnew)
  · exact .inl hnone
  · exact absurd hmic hne
  refine .inr ⟨m1, c1, mem', by rw [hsome, prsc_congr hhdr hsame], hsound, hhdris, ?_⟩
  have hsplit : clearProtected frame = clearProtected (frame.take hdrlen) ++ frame.drop hdrlen := by
    conv_lhs => rw [← List.take_append_drop hdrlen (clearProtected frame)]
    rw [clearProtected, clearProtected, List.take_modify, List.drop_modify_of_lt _ _ _ _ (by omega)]
  rw [hbytes, hsealed, take_sealed _ _ _ hlen, hsplit]

/-- A frame is encrypted as CCM says, and decrypting it under the same key gives the frame without its
protected bit and records its packet number. -/
theorem ccmp_roundtrip (h : Frame mem m0 c hdrlen 0) (ic : Stats) (k : Key Ctx) :
    (∃ ic' k' mem', ccmp_encrypt rijndael_encrypt ic mem (m0 :: c) k = some ([], ic', k', mem') ∧ ¬mem.Plenty) ∨
      ∃ m1 c1 mem₁, ccmp_encrypt rijndael_encrypt ic mem (m0 :: c) k = some (m1 :: c1, ic, k.bump, mem₁) ∧
        Frame mem₁ m1 c1 hdrlen IEEE80211_CCMP_HDRLEN ∧
        mem₁.bytes (m1 :: c1) = sealed rijndael_encrypt k.bump (mtod mem m0) hdrlen (mem.bytes (m0 :: c)) ∧
        ∀ mem₂ m2 c2, Frame mem₂ m2 c2 hdrlen IEEE80211_CCMP_HDRLEN →
          mem₂.bytes (m2 :: c2) = mem₁.bytes (m1 :: c1) → ∀ (ic₂ : Stats) (k₂ : Key Ctx),
          k₂.k_priv = k.k_priv → k₂.rsc (prsc (mtod mem m0)) < k.bump.pn →
          (∃ ic' mem', ccmp_decrypt rijndael_encrypt ic₂ mem₂ (m2 :: c2) k₂ = some ([], ic', k₂, mem') ∧
              ¬mem₂.Plenty) ∨
            ∃ m3 c3 mem₃, ccmp_decrypt rijndael_encrypt ic₂ mem₂ (m2 :: c2) k₂ =
                some (m3 :: c3, ic₂, k₂.setRsc k.bump.pn (prsc (mtod mem m0)), mem₃) ∧
              ChainSound mem₃ (m3 :: c3) ∧ HdrIs (m3 :: c3) ∧
              mem₃.bytes (m3 :: c3) = clearProtected (mem.bytes (m0 :: c)) := by
  obtain hnone | ⟨m1, c1, mem₁, hsome, hframe, hbytes⟩ := ccmp_encrypt_spec rijndael_encrypt h ic k
  · exact .inl hnone
  refine .inr ⟨m1, c1, mem₁, hsome, hframe, hbytes, ?_⟩
  intro mem₂ m2 c2 hframe₂ hbytes₂ ic₂ k₂ hkey hnew
  obtain ⟨-, -, -, hlen⟩ := h.hdr
  refine ccmp_decrypt_sealed rijndael_encrypt hframe₂ (by rw [Mem.length_bytes]; exact hlen) h.header ?_
    (hbytes₂.trans hbytes) ic₂ k₂ hkey hnew
  intro i hi
  have hfirst := h.first
  exact (mtod_eq (by omega)).symm

/-- A data frame with 36 octets in its body, 6 of them in the mbuf of the header. -/
def dataMbuf : Mbuf := ⟨0, PKTDAT, 30, some ⟨60, []⟩, none, false⟩

def bodyMbuf : Mbuf := ⟨1, 0, 30, none, none, false⟩

def dataMem : Mem where
  store := fun _ i => if i = PKTDAT then 0x08 else UInt8.ofNat i
  refs := fun _ => 0
  next := 2
  nextcl := 0
  grants := fun _ => some 0
  freed := []

def dataKey : Key UInt8 := ⟨1, fun _ => 5, 0, 6, 9⟩

theorem dataFrame : Frame dataMem dataMbuf [bodyMbuf] 24 0 where
  sound := (ChainWf.of_internal (by decide) (by decide) (by decide) (by decide) (by decide)).sound
  len := ⟨dataMbuf, rfl, ⟨60, []⟩, rfl, rfl⟩
  header := by decide
  first := by decide

/-- The receiver gets its mbufs, whatever the sender has left. -/
theorem ccmp_roundtrip_data :
    ∃ m1 c1 mem₁, ccmp_encrypt (fun k X i => X (i + 1) ^^^ k) ⟨0, 0, 0, 0⟩ dataMem [dataMbuf, bodyMbuf] dataKey =
        some (m1 :: c1, ⟨0, 0, 0, 0⟩, dataKey.bump, mem₁) ∧
      mem₁.bytes (m1 :: c1) = sealed (fun k X i => X (i + 1) ^^^ k) dataKey.bump (mtod dataMem dataMbuf) 24
        (dataMem.bytes [dataMbuf, bodyMbuf]) ∧
      ∃ m2 c2 mem₂, ccmp_decrypt (fun k X i => X (i + 1) ^^^ k) ⟨0, 0, 0, 0⟩
          (mem₁.withGrants fun _ => some 0) (m1 :: c1) dataKey =
            some (m2 :: c2, ⟨0, 0, 0, 0⟩, dataKey.setRsc 7 (some 0), mem₂) ∧
          mem₂.bytes (m2 :: c2) = clearProtected (dataMem.bytes [dataMbuf, bodyMbuf]) := by
  obtain ⟨ic', k', mem', -, hno⟩ | ⟨m1, c1, mem₁, hsome, hframe, hbytes, hopen⟩ :=
    ccmp_roundtrip (fun k X i => X (i + 1) ^^^ k) dataFrame ⟨0, 0, 0, 0⟩ dataKey
  · exact absurd (fun i => by simp [dataMem]) hno
  refine ⟨m1, c1, mem₁, hsome, hbytes, ?_⟩
  have hsound := hframe.sound
  have hframe₂ : Frame (mem₁.withGrants fun _ => some 0) m1 c1 24 IEEE80211_CCMP_HDRLEN :=
    ⟨⟨hsound.storage, hsound.old, hsound.addr, hsound.refs, hsound.zeroize⟩, hframe.len, hframe.header, hframe.first⟩
  obtain ⟨ic', mem', -, hno⟩ | ⟨m2, c2, mem₂, hdone, -, -, hclear⟩ :=
    hopen _ m1 c1 hframe₂ rfl ⟨0, 0, 0, 0⟩ dataKey rfl (by decide)
  · exact absurd (fun _ => Option.some_ne_none 0) hno
  · exact ⟨m2, c2, mem₂, hdone, hclear⟩

end Roundtrip

end OpenbsdKernel.Ieee80211
