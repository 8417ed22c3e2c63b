import OpenbsdKernel.Net.Slcompress.Codec

/-!
# Both ends stay together

A sequence of packets through the compressor and to its peer. The flags `TH_ECE` and `TH_CWR` and the
unused bits of the TCP header are not looked at by the compressor, and the peer does not clear `TH_URG`
in the short forms: these are the packets that do not come out as they went in.
-/
namespace OpenbsdKernel.Vjc

open OnesComplement

def Header.Verified (h : Header) : Prop := fold (fold (sum .big h.ipBytes)) = 65535

instance (h : Header) : Decidable h.Verified := inferInstanceAs (Decidable (_ = _))

section Checksum

variable {h : Header}

theorem sum_ipBytes (order : ByteOrder) (h : Header) : sum order h.ipBytes =
    sum order (Header.ipBytes { h with ip.ip_sum := 0 }) + order.word (hi h.ip.ip_sum).toNat (lo h.ip.ip_sum).toNat := by
  have hzero : order.word (hi 0).toNat (lo 0).toNat = 0 := by cases order <;> rfl
  simp only [Header.ipBytes, addrBytes, List.cons_append, List.nil_append, sum, hzero]
  omega

theorem word_big (n : BitVec 16) : ByteOrder.big.word (hi n).toNat (lo n).toNat = n.toNat := by
  simp only [ByteOrder.word, hi, lo, BitVec.toNat_setWidth, BitVec.toNat_ushiftRight, Nat.shiftRight_eq_div_pow]
  omega

theorem Header.Wf.length_ipBytes (hwf : h.Wf) : h.ipBytes.length = h.ip.ip_hl.toNat * 4 := by
  simp only [Header.ipBytes, addrBytes, List.cons_append, List.nil_append, List.length_cons]
  have := hwf.ipopts
  omega

theorem Header.Wf.sum_pos (hwf : h.Wf) : 0 < sum .big h.ipBytes := by
  have hfirst : 0 < (h.ip.ip_v ++ h.ip.ip_hl).toNat := by
    rw [BitVec.toNat_append, hwf.ip_v]
    exact Nat.lt_of_lt_of_le (by decide) Nat.left_le_or
  simp only [Header.ipBytes, List.cons_append, sum, ByteOrder.word]
  omega

/-- What is added to a sum in a byte order brings it to zero, whatever the byte order. -/
theorem add_ofNative_mod (order : ByteOrder) {s t : ℕ} (ht : t < 2 ^ 32)
    (hs : order = .big → t = s) (hl : order = .little → (256 * s) % 65535 = t % 65535) :
    (s + (ofNative order (65535 - fold (fold t) % 65536)).toNat) % 65535 = 0 := by
  have hle := fold_fold_le ht
  have hmod : fold (fold t) % 65535 = t % 65535 := (fold_mod _).trans (fold_mod _)
  generalize fold (fold t) = f at hle hmod
  cases order with
  | big =>
    rw [ofNative, BitVec.toNat_ofNat, ByteOrder.word]
    have := hs rfl
    omega
  | little =>
    rw [ofNative, BitVec.toNat_ofNat, ByteOrder.word]
    have hs' := hl rfl
    set n := 65535 - f % 65536 with hn
    have hn' : f + n = 65535 := by omega
    have hword : n / 256 + 256 * (n % 256) < 2 ^ 16 := by omega
    rw [Nat.mod_eq_of_lt hword]
    have hfactor : 256 * (s + (n / 256 + 256 * (n % 256))) = 256 * s + n + 65535 * (n % 256) := by omega
    have hdvd : 65535 ∣ 256 * (s + (n / 256 + 256 * (n % 256))) := by
      rw [hfactor]
      omega
    exact Nat.mod_eq_zero_of_dvd (Nat.Coprime.dvd_of_dvd_mul_left (by decide) hdvd)

theorem Header.Wf.checksum_verified (hwf : h.Wf) (order : ByteOrder) : (checksum order h).Verified := by
  have hwf₀ : Header.Wf { h with ip.ip_sum := 0 } := ⟨hwf.1, hwf.2, hwf.3, hwf.4, hwf.5, hwf.6⟩
  have hwf' : Header.Wf (checksum order h) := ⟨hwf.1, hwf.2, hwf.3, hwf.4, hwf.5, hwf.6⟩
  have hlen (order : ByteOrder) {h : Header} (hwf : h.Wf) : sum order h.ipBytes < 2 ^ 32 := by
    have h1 := sum_lt order h.ipBytes
    have h2 := h.ip.ip_hl.isLt
    rw [hwf.length_ipBytes] at h1
    omega
  refine fold_fold_eq (hlen .big hwf') hwf'.sum_pos ?_
  rw [sum_ipBytes, word_big]
  have htake : (Header.ipBytes { h with ip.ip_sum := 0 }).take (h.ip.ip_hl.toNat * 4) =
      Header.ipBytes { h with ip.ip_sum := 0 } := List.take_of_length_le hwf₀.length_ipBytes.le
  have hsum : (checksum order h).ip.ip_sum =
      ofNative order (65535 - fold (fold (sum order (Header.ipBytes { h with ip.ip_sum := 0 }))) % 65536) := by
    rw [← htake]
    rfl
  rw [hsum]
  refine add_ofNative_mod order (hlen order hwf₀) ?_ ?_
  · rintro rfl
    rfl
  · rintro rfl
    exact sum_little _

end Checksum

/-- The flags of a packet that is not passed by: `TH_ACK`, and any of these. -/
def flags (push urg ece cwr : Bool) : BitVec 8 :=
  TH_ACK ||| (if push then TH_PUSH else 0) ||| (if urg then TH_URG else 0) ||| (if ece then TH_ECE else 0) |||
    (if cwr then TH_CWR else 0)

/-- No flag but `TH_ACK` of those that make a packet incompressible. -/
def AckOnly (f : BitVec 8) : Prop := f &&& (TH_SYN ||| TH_FIN ||| TH_RST ||| TH_ACK) = TH_ACK

instance (f : BitVec 8) : Decidable (AckOnly f) := inferInstanceAs (Decidable (_ = _))

section Flags

variable {h cs : Header}

theorem AckOnly.eq_flags {f : BitVec 8} (hf : AckOnly f) : ∃ push urg ece cwr, f = flags push urg ece cwr := by
  revert f
  decide

/-- What the peer does not come to know: the unused bits, the flags `TH_ECE` and `TH_CWR`, and that
`TH_URG` is no longer set when the changes have a short form. -/
def Lost (h cs : Header) : Prop :=
  h.th.th_x2 ≠ cs.th.th_x2 ∨ (h.th.th_flags ^^^ cs.th.th_flags) &&& (TH_ECE ||| TH_CWR) ≠ 0 ∨
    (Special h cs ∧ cs.urg = true)

instance (h cs : Header) : Decidable (Lost h cs) := inferInstanceAs (Decidable (_ ∨ _))

theorem rebuiltFlags_eq_iff (hh : AckOnly h.th.th_flags) (hcs : AckOnly cs.th.th_flags) :
    rebuiltFlags h cs = h.th.th_flags ↔
      (h.th.th_flags ^^^ cs.th.th_flags) &&& (TH_ECE ||| TH_CWR) = 0 ∧ ¬(Special h cs ∧ cs.urg = true) := by
  have hspecial : Special h cs → h.urg = false := fun hs => hs.1
  rw [rebuiltFlags, Header.urg, Header.push]
  rw [Header.urg] at hspecial ⊢
  obtain ⟨p, u, e, w, hf⟩ := hh.eq_flags
  obtain ⟨p', u', e', w', hf'⟩ := hcs.eq_flags
  rw [hf] at hspecial ⊢
  rw [hf']
  by_cases hs : Special h cs
  · simp only [hs, true_implies, if_true, true_and] at hspecial ⊢
    clear hf hf' hh hcs
    revert p u e w p' u' e' w'
    decide
  · simp only [hs, if_false, false_and, not_false_eq_true, and_true]
    clear hf hf' hh hcs hspecial
    revert p u e w p' u' e' w'
    decide

theorem rebuilt_eq_self_iff (hh : AckOnly h.th.th_flags) (hcs : AckOnly cs.th.th_flags) :
    rebuilt h cs = h ↔ ¬Lost h cs := by
  rw [Lost, not_or, not_or, not_not, not_not, ← rebuiltFlags_eq_iff hh hcs]
  constructor
  · intro heq
    have hth := congrArg Header.th heq
    exact ⟨(congrArg Tcphdr.th_x2 hth).symm, congrArg Tcphdr.th_flags hth⟩
  · rintro ⟨hx2, hflags⟩
    rw [rebuilt, hflags, ← hx2]

end Flags

/-- A state of the compressor and that of the peer: not used yet, or the same headers. -/
def Known (cs : Header) (x : Cstate) : Prop := cs.ip.ip_v = 0 ∨ (cs.Wf ∧ AckOnly cs.th.th_flags) ∧ Kept cs x

/-- The compressor and its peer. -/
structure Sync (comp peer : Slcompress) : Prop where
  nonempty : comp.states ≠ []
  lt : ∀ i ∈ comp.states, i < MAX_STATES
  known : ∀ i, Known (comp.tstate i) (peer.rstate i)
  last : comp.last_xmit < MAX_STATES → peer.last_recv = comp.last_xmit ∧ peer.toss = false

/-- What the peer makes of a packet: the same packet, but for the IP header checksum, which is correct if
it was. -/
structure Delivered (p p' : Packet) : Prop where
  data : p'.data = p.data
  hdr : { p'.hdr with ip.ip_sum := p.hdr.ip.ip_sum } = p.hdr
  sum : p.hdr.Verified → p'.hdr.Verified

/-- The packets whose changes are sent, and lose something. -/
def Slcompress.Loses (comp : Slcompress) (p : Packet) : Prop :=
  ¬p.Bail ∧ ∃ i, comp.find p.hdr = some i ∧ Encodable p.hdr (comp.tstate i) ∧ Lost p.hdr (comp.tstate i)

section Step

variable {comp peer : Slcompress} {p : Packet} {i : ℕ}

theorem Delivered.refl (p : Packet) : Delivered p p := ⟨rfl, rfl, id⟩

theorem Sync.front (h : Sync comp peer) (hi : i ∈ comp.states) : Sync (comp.front i) peer := by
  refine ⟨List.cons_ne_nil _ _, ?_, h.known, h.last⟩
  intro j hj
  rcases List.mem_cons.1 hj with rfl | hj
  · exact h.lt _ hi
  · exact h.lt _ (List.mem_of_mem_erase hj)

theorem Packet.hlen_le (p : Packet) : p.hdr.hlen ≤ 120 := by
  have h1 := p.hdr.ip.ip_hl.isLt
  have h2 := p.hdr.th.th_off.isLt
  rw [Header.hlen]
  omega

theorem ackOnly_of_not_bail (hbail : ¬p.Bail) : AckOnly p.hdr.th.th_flags := by
  by_contra hflags
  exact hbail (.inr hflags)

theorem Sync.updated (h : Sync comp peer) {comp' : Slcompress} {hdr : Header} {x : Cstate}
    (hstates : comp'.states = comp.states) (htstate : comp'.tstate = Function.update comp.tstate i hdr)
    (hlast : comp'.last_xmit = i) (hknown : Known hdr x) :
    Sync comp' { peer with last_recv := i, toss := false, rstate := Function.update peer.rstate i x } := by
  refine ⟨hstates ▸ h.nonempty, hstates ▸ h.lt, fun j => ?_, fun _ => ⟨hlast.symm, rfl⟩⟩
  rw [htstate]
  by_cases hj : j = i
  · subst hj
    simp only [Function.update_self]
    exact hknown
  · simp only [Function.update_of_ne hj]
    exact h.known j

theorem Sync.uncompressed (h : Sync comp peer) (hi : i < MAX_STATES) (hp : p.Wf) (hbail : ¬p.Bail) :
    ∃ peer', receiveUncompressed peer { p with hdr.ip.ip_p := BitVec.ofNat 8 i } = (peer', some p) ∧
      Sync (comp.sendUncompressed i p).1 peer' := by
  have hi' : (BitVec.ofNat 8 i).toNat = i := by
    rw [BitVec.toNat_ofNat]
    exact Nat.mod_eq_of_lt (hi.trans (by decide))
  have hhdr : ({ p.hdr with ip.ip_p := IPPROTO_TCP } : Header) = p.hdr := by rw [← hp.hdr.ip_p]
  have hlen : p.hdr.hlen ≤ p.len := by
    have h1 := hp.hdr.ipopts
    have h2 := hp.hdr.tcpopts
    rw [Header.hlen, Packet.len]
    omega
  have hshort : ¬p.len < p.hdr.ip.ip_hl.toNat * 4 + 20 := by
    have h1 := hp.hdr.ipopts
    rw [Packet.len]
    omega
  have hmax : ¬(MAX_HDR < p.hdr.hlen ∨ p.len < p.hdr.hlen) := by
    have := p.hlen_le
    have hval : MAX_HDR = 224 := rfl
    omega
  refine ⟨{ peer with
    last_recv := i
    toss := false
    rstate := Function.update peer.rstate i ⟨p.hdr.hlen, p.hdr⟩ }, ?_, ?_⟩
  · rw [receiveUncompressed]
    simp only [hi', hhdr]
    rw [if_neg (not_le.2 hi), if_neg hshort, if_neg hmax]
  · exact h.updated rfl rfl rfl (.inr ⟨⟨hp.hdr, ackOnly_of_not_bail hbail⟩, rfl, rfl⟩)

theorem Known.of_expected {h cs : Header} {x : Cstate} (hknown : Known cs x) (hh : h.Wf) (hexp : Expected h cs) :
    (cs.Wf ∧ AckOnly cs.th.th_flags) ∧ Kept cs x := by
  refine hknown.resolve_left fun hzero => ?_
  rw [← hexp.1.1, hh.ip_v] at hzero
  cases hzero

theorem at_zero (buf : List (BitVec 8)) : At buf 0 buf := ⟨Nat.zero_le _, rfl⟩

/-- What the peer makes of the changes, with the number of the connection or without it. -/
theorem Sync.received (h : Sync comp peer) (order : ByteOrder) (hi : i < MAX_STATES) (hp : p.Wf)
    (hsame : p.hdr.Same (comp.tstate i)) {d : Delta} (hd : encode p.hdr (comp.tstate i) = some d) :
    (let hdr := checksum order (rebuilt p.hdr (comp.tstate i))
     let peer' := { peer with
      last_recv := i
      toss := false
      rstate := Function.update peer.rstate i ⟨p.hdr.hlen, hdr⟩ }
     let body := Vjc.hi p.hdr.th.th_sum :: lo p.hdr.th.th_sum :: (d.new_seq ++ p.data)
     receiveCompressed order peer ((d.changes ||| NEW_C) :: BitVec.ofNat 8 i :: body) = (peer', some ⟨hdr, p.data⟩) ∧
       (comp.last_xmit = i → receiveCompressed order peer (d.changes :: body) = (peer', some ⟨hdr, p.data⟩))) := by
  obtain ⟨henc, rfl⟩ := encode_eq_some.1 hd
  obtain ⟨⟨hcs, -⟩, hkept⟩ := (h.known i).of_expected hp.hdr henc.expected
  constructor
  · have hbuf := at_zero (((codes p.hdr (comp.tstate i)).changes ||| NEW_C) :: BitVec.ofNat 8 i ::
      Vjc.hi p.hdr.th.th_sum :: lo p.hdr.th.th_sum :: ((codes p.hdr (comp.tstate i)).new_seq ++ p.data))
    have hi' : (BitVec.ofNat 8 i).toNat = i := by
      rw [BitVec.toNat_ofNat]
      exact Nat.mod_eq_of_lt (hi.trans (by decide))
    have hcid := (codes_and_C p.hdr (comp.tstate i) true).2 rfl
    rw [if_pos rfl] at hcid
    rw [receiveCompressed, hbuf.byte, hbuf.next.byte]
    rw [if_pos hcid, hi', if_neg (not_le.2 hi)]
    exact receiveChanges_eq order hp hcs hsame henc true hkept hbuf.next.next
  · intro hlast
    have hbuf := at_zero ((codes p.hdr (comp.tstate i)).changes ::
      Vjc.hi p.hdr.th.th_sum :: lo p.hdr.th.th_sum :: ((codes p.hdr (comp.tstate i)).new_seq ++ p.data))
    have hor : ((codes p.hdr (comp.tstate i)).changes ||| if false = true then NEW_C else 0) =
        (codes p.hdr (comp.tstate i)).changes := BitVec.or_zero
    have hcid := (codes_and_C p.hdr (comp.tstate i) false).not.2 Bool.false_ne_true
    obtain ⟨hrecv, htoss⟩ := h.last (hlast ▸ hi)
    rw [hlast] at hrecv
    have hreceive := @receiveChanges_eq p.hdr _ _ _ order peer _ hp hcs hsame henc false
      (by rw [hrecv]; exact hkept) hbuf.next
    rw [hor] at hcid hreceive
    rw [receiveCompressed, hbuf.byte, if_neg hcid, htoss, if_neg Bool.false_ne_true, hreceive, hrecv, ← htoss, ← hrecv]

theorem find_eq_some (h : comp.find p.hdr = some i) : i ∈ comp.states ∧ p.hdr.Same (comp.tstate i) := by
  have hsame := List.find?_some (p := fun j => decide (p.hdr.Same (comp.tstate j))) h
  exact ⟨List.mem_of_find?_eq_some h, of_decide_eq_true hsame⟩

theorem Sync.oldest (h : Sync comp peer) : comp.states.getLastD 0 ∈ comp.states := by
  rw [List.getLastD_eq_getLast?, List.getLast?_eq_some_getLast h.nonempty]
  exact List.getLast_mem h.nonempty

theorem Delivered.of_rebuilt (order : ByteOrder) (hp : p.Wf) {cs : Header} (heq : rebuilt p.hdr cs = p.hdr) :
    Delivered p ⟨checksum order (rebuilt p.hdr cs), p.data⟩ := by
  rw [heq]
  exact ⟨rfl, rfl, fun _ => hp.hdr.checksum_verified order⟩

theorem rebuilt_of_delivered {order : ByteOrder} {cs : Header}
    (h : Delivered p ⟨checksum order (rebuilt p.hdr cs), p.data⟩) : rebuilt p.hdr cs = p.hdr := h.hdr

/-- A packet is delivered, and both ends know the same headers again, if and only if it loses nothing. -/
theorem Sync.step (h : Sync comp peer) (order : ByteOrder) (hp : p.Wf) (compress_cid : Bool) :
    (¬comp.Loses p → ∃ p', (deliver order peer (slCompressTcp comp p compress_cid).2).2 = some p' ∧ Delivered p p' ∧
      Sync (slCompressTcp comp p compress_cid).1 (deliver order peer (slCompressTcp comp p compress_cid).2).1) ∧
    (comp.Loses p → ∀ p', (deliver order peer (slCompressTcp comp p compress_cid).2).2 = some p' →
      ¬Delivered p p') := by
  rw [slCompressTcp]
  by_cases hbail : p.Bail
  · rw [if_pos hbail]
    exact ⟨fun _ => ⟨p, rfl, .refl p, h⟩, fun hloses => absurd hbail hloses.1⟩
  rw [if_neg hbail]
  -- a packet that is sent uncompressed is as it was
  have huncompressed (i : ℕ) (hi : i ∈ comp.states) :
      ∃ p', (deliver order peer ((comp.front i).sendUncompressed i p).2).2 = some p' ∧ Delivered p p' ∧
        Sync ((comp.front i).sendUncompressed i p).1
          (deliver order peer ((comp.front i).sendUncompressed i p).2).1 := by
    obtain ⟨peer', hrecv, hsync⟩ := (h.front hi).uncompressed (h.lt i hi) hp hbail
    refine ⟨p, congrArg Prod.snd hrecv, .refl p, ?_⟩
    rw [show deliver order peer ((comp.front i).sendUncompressed i p).2 = _ from hrecv]
    exact hsync
  cases hfind : comp.find p.hdr with
  | none =>
    refine ⟨fun _ => huncompressed _ h.oldest, ?_⟩
    rintro ⟨-, i, hi, -⟩
    rw [hfind] at hi
    cases hi
  | some i =>
    obtain ⟨hi, hsame⟩ := find_eq_some hfind
    simp only
    cases hd : encode p.hdr ((comp.front i).tstate i) with
    | none =>
      refine ⟨fun _ => huncompressed _ hi, ?_⟩
      rintro ⟨-, j, hj, henc, -⟩
      cases hfind.symm.trans hj
      rw [show (comp.front i).tstate i = comp.tstate i from rfl, encode_eq_some.2 ⟨henc, rfl⟩] at hd
      cases hd
    | some d =>
      dsimp only
      have henc := (encode_eq_some.1 hd).1
      obtain ⟨⟨hcs, hack⟩, -⟩ := (h.known i).of_expected hp.hdr henc.expected
      have hself := rebuilt_eq_self_iff (ackOnly_of_not_bail hbail) hack
      have hloses : comp.Loses p ↔ Lost p.hdr (comp.tstate i) := by
        constructor
        · rintro ⟨-, j, hj, -, hlost⟩
          cases hfind.symm.trans hj
          exact hlost
        · exact fun hlost => ⟨hbail, i, hfind, henc, hlost⟩
      rw [hloses]
      obtain ⟨hcid, hnocid⟩ := (h.front hi).received order (h.lt i hi) hp hsame hd
      -- the peer keeps the header it has come to, which is the packet's if nothing is lost
      have hsync {comp' : Slcompress} (hstates : comp'.states = (comp.front i).states)
          (htstate : comp'.tstate = Function.update (comp.front i).tstate i p.hdr) (hlast : comp'.last_xmit = i)
          (hlost : ¬Lost p.hdr (comp.tstate i)) : Sync comp' { peer with
            last_recv := i
            toss := false
            rstate := Function.update peer.rstate i
              ⟨p.hdr.hlen, checksum order (rebuilt p.hdr (comp.tstate i))⟩ } := by
        refine (h.front hi).updated hstates htstate hlast (.inr ⟨⟨hp.hdr, ackOnly_of_not_bail hbail⟩, rfl, ?_⟩)
        rw [hself.2 hlost]
        rfl
      have hlose : Lost p.hdr (comp.tstate i) →
          ¬Delivered p ⟨checksum order (rebuilt p.hdr (comp.tstate i)), p.data⟩ :=
        fun hlost hdel => hself.1 (rebuilt_of_delivered hdel) hlost
      by_cases hc : compress_cid = false ∨ (comp.front i).last_xmit ≠ i
      · rw [if_pos hc, deliver, hcid]
        refine ⟨fun hlost => ⟨_, rfl, .of_rebuilt order hp (hself.2 hlost), hsync rfl rfl rfl hlost⟩, ?_⟩
        rintro hlost p' hp'
        rw [← Option.some_inj.1 hp']
        exact hlose hlost
      · have hlast := not_not.1 (not_or.1 hc).2
        rw [if_neg hc, deliver, hnocid hlast]
        refine ⟨fun hlost => ⟨_, rfl, .of_rebuilt order hp (hself.2 hlost), hsync rfl rfl hlast hlost⟩, ?_⟩
        rintro hlost p' hp'
        rw [← Option.some_inj.1 hp']
        exact hlose hlost

end Step

/-- What the peer makes of the packets, each sent with the number of its connection or, where the flag
allows it, without it. -/
def run (order : ByteOrder) : Slcompress → Slcompress → List (Packet × Bool) → List (Option Packet)
  | _, _, [] => []
  | comp, peer, (p, compress_cid) :: l =>
    let (comp, f) := slCompressTcp comp p compress_cid
    let (peer, r) := deliver order peer f
    r :: run order comp peer l

/-- No packet of the sequence loses anything. -/
def Slcompress.Keeps : Slcompress → List (Packet × Bool) → Prop
  | _, [] => True
  | comp, (p, compress_cid) :: l => ¬comp.Loses p ∧ (slCompressTcp comp p compress_cid).1.Keeps l

/-- What comes out is what went in. -/
def Reconstructed (l : List (Packet × Bool)) (r : List (Option Packet)) : Prop :=
  List.Forall₂ (fun a b => ∃ p', b = some p' ∧ Delivered a.1 p') l r

theorem Sync.run {comp peer : Slcompress} (h : Sync comp peer) (order : ByteOrder) {l : List (Packet × Bool)}
    (hl : ∀ a ∈ l, a.1.Wf) : Reconstructed l (run order comp peer l) ↔ comp.Keeps l := by
  induction l generalizing comp peer with
  | nil => exact iff_of_true .nil trivial
  | cons a l ih =>
    obtain ⟨p, compress_cid⟩ := a
    obtain ⟨hp, hl⟩ := List.forall_mem_cons.1 hl
    obtain ⟨hkeep, hlose⟩ := h.step order hp compress_cid
    rw [Vjc.run, Reconstructed, List.forall₂_cons, Slcompress.Keeps]
    by_cases hloses : comp.Loses p
    · refine iff_of_false ?_ fun hk => hk.1 hloses
      rintro ⟨⟨p', hp', hdel⟩, -⟩
      exact hlose hloses p' hp' hdel
    · obtain ⟨p', hp', hdel, hsync⟩ := hkeep hloses
      exact and_congr (iff_of_true ⟨p', hp', hdel⟩ hloses) (ih hsync hl)

theorem sync_setup {max_state : ℕ} (hmax : max_state < MAX_STATES) (peer_max : ℕ) :
    Sync (slCompressSetup max_state) (slCompressSetup peer_max) := by
  refine ⟨?_, ?_, fun _ => .inl rfl, fun h => absurd (show 255 < 16 from h) (by decide)⟩
  · rw [slCompressSetup]
    simp
  · intro i hi
    rw [slCompressSetup, List.mem_reverse, List.mem_range] at hi
    omega

/-- Every packet comes out as it went in if and only if no packet that is sent by its changes has other
unused bits, another `TH_ECE` or another `TH_CWR` than the last packet of its connection, nor goes on
after a packet with `TH_URG` in one of the short forms. -/
theorem vj_reconstructs (order : ByteOrder) {max_state peer_max : ℕ} (hmax : max_state < MAX_STATES)
    {l : List (Packet × Bool)} (hl : ∀ a ∈ l, a.1.Wf) :
    Reconstructed l (run order (slCompressSetup max_state) (slCompressSetup peer_max) l) ↔
      (slCompressSetup max_state).Keeps l :=
  (sync_setup hmax peer_max).run order hl

/-- A segment of one byte of a connection. -/
def segment (flags : BitVec 8) (seq : ℕ) : Packet where
  hdr :=
    { ip := ⟨4, 5, 0, 41, BitVec.ofNat 16 seq, 0, 64, IPPROTO_TCP, 0, 0x0a000001, 0x0a000002⟩
      ipopts := []
      th := ⟨1024, 80, BitVec.ofNat 32 seq, 1, 0, 5, flags, 4096, 0, 0⟩
      tcpopts := [] }
  data := [0]

theorem segment_wf (flags : BitVec 8) (seq : ℕ) : (segment flags seq).Wf :=
  ⟨⟨rfl, (by decide : 5 ≤ (5#4).toNat), rfl, rfl, (by decide : 5 ≤ (5#4).toNat), rfl⟩, rfl⟩

theorem vj_reconstructs_two :
    Reconstructed [(segment TH_ACK 1, true), (segment (TH_ACK ||| TH_PUSH) 2, true)]
      (run .little (slCompressSetup 15) (slCompressSetup 15)
        [(segment TH_ACK 1, true), (segment (TH_ACK ||| TH_PUSH) 2, true)]) := by
  have hwf : ∀ a ∈ [(segment TH_ACK 1, true), (segment (TH_ACK ||| TH_PUSH) 2, true)], a.1.Wf := by
    intro a ha
    rcases List.mem_pair.1 ha with rfl | rfl
    · exact segment_wf _ _
    · exact segment_wf _ _
  refine (vj_reconstructs .little (by decide : 15 < MAX_STATES) hwf).2 ⟨?_, ?_, trivial⟩
  · rintro ⟨-, i, hi, -⟩
    have hnone : (slCompressSetup 15).find (segment TH_ACK 1).hdr = none := by decide
    rw [hnone] at hi
    cases hi
  · rintro ⟨-, i, hi, -, hlost⟩
    have hsome : (slCompressTcp (slCompressSetup 15) (segment TH_ACK 1) true).1.find
        (segment (TH_ACK ||| TH_PUSH) 2).hdr = some 0 := by decide
    rw [hsome, Option.some_inj] at hi
    subst hi
    revert hlost
    decide

/-- A segment with `TH_ECE` behind one without it, and one without `TH_URG` behind one with it. -/
theorem flags_not_reconstructed :
    ¬Reconstructed [(segment TH_ACK 1, true), (segment (TH_ACK ||| TH_ECE) 2, true)]
      (run .little (slCompressSetup 15) (slCompressSetup 15)
        [(segment TH_ACK 1, true), (segment (TH_ACK ||| TH_ECE) 2, true)]) ∧
    ¬Reconstructed [(segment (TH_ACK ||| TH_URG) 1, true), (segment TH_ACK 2, true)]
      (run .little (slCompressSetup 15) (slCompressSetup 15)
        [(segment (TH_ACK ||| TH_URG) 1, true), (segment TH_ACK 2, true)]) := by
  -- the second of two packets comes out with the flags of the first
  have hsecond {p q : Packet} {r : List (Option Packet)} {f : BitVec 8} (hne : f ≠ q.hdr.th.th_flags)
      (hr : (r.map fun a => a.map fun p' => p'.hdr.th.th_flags)[1]? = some (some f)) :
      ¬Reconstructed [(p, true), (q, true)] r := by
    intro hrec
    cases hrec with
    | cons _ htail =>
      cases htail with
      | cons hq _ =>
        obtain ⟨q', rfl, hdel⟩ := hq
        have hf : q'.hdr.th.th_flags = f := Option.some_inj.1 (Option.some_inj.1 hr)
        exact hne (hf.symm.trans (congrArg (fun h => h.th.th_flags) hdel.hdr))
  constructor
  · apply hsecond (f := TH_ACK)
    · decide
    · decide
  · apply hsecond (f := TH_ACK ||| TH_URG)
    · decide
    · decide

end OpenbsdKernel.Vjc
