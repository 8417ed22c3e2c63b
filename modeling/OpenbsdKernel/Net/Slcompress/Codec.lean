import OpenbsdKernel.Net.Slcompress.Basic
import Mathlib.Tactic.Linarith

/-!
# What the peer makes of the changes

The bytes of a compressed header, read by the peer with the same last header at hand, are the new
header, but for the flags and unused bits of the TCP header that nobody sends.
-/
namespace OpenbsdKernel.Vjc

open OnesComplement

section Bytes

variable {buf r : List (BitVec 8)} {cp : ℕ}

theorem hi_lo (n : BitVec 16) : (hi n).setWidth 16 <<< 8 ||| (lo n).setWidth 16 = n := by
  apply BitVec.eq_of_getLsbD_eq
  intro i hi'
  simp only [hi, lo, BitVec.getLsbD_or, BitVec.getLsbD_shiftLeft, BitVec.getLsbD_setWidth,
    BitVec.getLsbD_ushiftRight, hi', decide_true, Bool.true_and]
  by_cases h : i < 8
  · simp [h]
  · simp [h, show 8 + (i - 8) = i by omega, show i - 8 < 8 by omega, show i - 8 < 16 by omega]

/-- The bytes that are left at `cp`. -/
def At (buf : List (BitVec 8)) (cp : ℕ) (rest : List (BitVec 8)) : Prop :=
  cp ≤ buf.length ∧ buf.drop cp = rest

theorem At.byte {x : BitVec 8} (h : At buf cp (x :: r)) : byte buf cp = x := by
  have hget : buf[cp]? = some x := by
    rw [← List.head?_drop, h.2]
    rfl
  rw [Vjc.byte, List.getD_eq_getElem?_getD, hget]
  rfl

theorem At.next {x : BitVec 8} (h : At buf cp (x :: r)) : At buf (cp + 1) r := by
  have hlen := congrArg List.length h.2
  rw [List.length_drop, List.length_cons] at hlen
  refine ⟨by omega, ?_⟩
  rw [← List.drop_drop, h.2]
  rfl

theorem short_eq {n : BitVec 16} (h : At buf cp (hi n :: lo n :: r)) : short buf cp = n := by
  rw [short, h.byte, h.next.byte]
  exact hi_lo n

theorem decode_long {n : BitVec 16} (h : At buf cp (0 :: hi n :: lo n :: r)) :
    decode buf cp = (n, cp + 3) ∧ At buf (cp + 3) r := by
  refine ⟨?_, h.next.next.next⟩
  rw [decode, if_pos h.byte, short_eq h.next]

theorem setWidth_lo {n : BitVec 16} (h : n < 256#16) : (lo n).setWidth 16 = n := by
  have hlt : n.toNat < 256 := h
  apply BitVec.eq_of_toNat_eq
  simp only [lo, BitVec.toNat_setWidth]
  omega

theorem decode_short {n : BitVec 16} (hn : n < 256#16) (hne : n ≠ 0) (h : At buf cp (lo n :: r)) :
    decode buf cp = (n, cp + 1) ∧ At buf (cp + 1) r := by
  refine ⟨?_, h.next⟩
  have hlo : lo n ≠ 0 := by
    intro hzero
    have hn' := setWidth_lo hn
    rw [hzero] at hn'
    exact hne hn'.symm
  rw [decode, h.byte, if_neg hlo, setWidth_lo hn]

/-- A number that is not zero, as `ENCODE` writes it. -/
theorem decode_ENCODE {n : BitVec 32} (hn : n.setWidth 16 ≠ 0) (h : At buf cp (ENCODE n ++ r)) :
    ∃ cp', decode buf cp = (n.setWidth 16, cp') ∧ At buf cp' r := by
  rw [ENCODE] at h
  by_cases hlong : 256#16 ≤ n.setWidth 16
  · rw [if_pos hlong] at h
    exact ⟨_, decode_long h⟩
  · rw [if_neg hlong] at h
    exact ⟨_, decode_short (BitVec.not_le.1 hlong) hn h⟩

theorem decode_ENCODEZ {n : BitVec 32} (h : At buf cp (ENCODEZ n ++ r)) :
    ∃ cp', decode buf cp = (n.setWidth 16, cp') ∧ At buf cp' r := by
  rw [ENCODEZ] at h
  by_cases hlong : 256#16 ≤ n.setWidth 16 ∨ n.setWidth 16 = 0
  · rw [if_pos hlong] at h
    exact ⟨_, decode_long h⟩
  · rw [if_neg hlong] at h
    exact ⟨_, decode_short (BitVec.not_le.1 fun hle => hlong (.inl hle)) (fun hz => hlong (.inr hz)) h⟩

end Bytes

/-- The byte of changes, by what has changed. -/
def bits (u w a s i p c : Bool) : BitVec 8 :=
  (if u then NEW_U else 0) ||| (if w then NEW_W else 0) ||| (if a then NEW_A else 0) |||
    (if s then NEW_S else 0) ||| (if i then NEW_I else 0) ||| (if p then TCP_PUSH_BIT else 0) |||
    (if c then NEW_C else 0)

section Bits

variable (u w a s i p c : Bool)

theorem bits_and_U : bits u w a s i p c &&& NEW_U ≠ 0 ↔ u = true := by
  revert u w a s i p c
  decide

theorem bits_and_W : bits u w a s i p c &&& NEW_W ≠ 0 ↔ w = true := by
  revert u w a s i p c
  decide

theorem bits_and_A : bits u w a s i p c &&& NEW_A ≠ 0 ↔ a = true := by
  revert u w a s i p c
  decide

theorem bits_and_S : bits u w a s i p c &&& NEW_S ≠ 0 ↔ s = true := by
  revert u w a s i p c
  decide

theorem bits_and_I : bits u w a s i p c &&& NEW_I ≠ 0 ↔ i = true := by
  revert u w a s i p c
  decide

theorem bits_and_PUSH : bits u w a s i p c &&& TCP_PUSH_BIT ≠ 0 ↔ p = true := by
  revert u w a s i p c
  decide

theorem bits_and_C : bits u w a s i p c &&& NEW_C ≠ 0 ↔ c = true := by
  revert u w a s i p c
  decide

theorem bits_special_I : bits u w a s i p c &&& SPECIALS_MASK = SPECIAL_I ↔ u && w && !a && s := by
  revert u w a s i p c
  decide

theorem bits_special_D : bits u w a s i p c &&& SPECIALS_MASK = SPECIAL_D ↔ u && w && a && s := by
  revert u w a s i p c
  decide

theorem bits_eq_zero : bits u w a s false false false = 0 ↔ u = false ∧ w = false ∧ a = false ∧ s = false := by
  revert u w a s
  decide

theorem bits_eq_I : bits u w a s false false false = SPECIAL_I ↔ u && w && !a && s := by
  revert u w a s
  decide

theorem bits_eq_D : bits u w a s false false false = SPECIAL_D ↔ u && w && a && s := by
  revert u w a s
  decide

theorem bits_eq_SA : bits u w a s false false false = NEW_S ||| NEW_A ↔ !u && !w && a && s := by
  revert u w a s
  decide

theorem bits_eq_S : bits u w a s false false false = NEW_S ↔ !u && !w && !a && s := by
  revert u w a s
  decide

theorem bits_or_W : bits u false a s i p c ||| NEW_W = bits u true a s i p c := by
  revert u a s i p c
  decide

theorem bits_or_A : bits u w false s i p c ||| NEW_A = bits u w true s i p c := by
  revert u w s i p c
  decide

theorem bits_or_S : bits u w a false i p c ||| NEW_S = bits u w a true i p c := by
  revert u w a i p c
  decide

theorem bits_or_I : bits u w a s false p c ||| NEW_I = bits u w a s true p c := by
  revert u w a s p c
  decide

theorem bits_or_PUSH : bits u w a s i false c ||| TCP_PUSH_BIT = bits u w a s i true c := by
  revert u w a s i c
  decide

theorem bits_or_C : bits u w a s i p false ||| NEW_C = bits u w a s i p true := by
  revert u w a s i p
  decide

theorem bits_or_ite_C :
    (bits u w a s i p false ||| if c then NEW_C else 0) = bits u w a s i p c := by
  cases c with
  | true => exact bits_or_C _ _ _ _ _ _
  | false => exact BitVec.or_zero

end Bits

section Encode

variable (h cs : Header)

def Header.urg : Bool := decide (h.th.th_flags &&& TH_URG ≠ 0)
def Header.push : Bool := decide (h.th.th_flags &&& TH_PUSH ≠ 0)

def deltaW : BitVec 16 := h.th.th_win - cs.th.th_win
def deltaA : BitVec 32 := h.th.th_ack - cs.th.th_ack
def deltaS : BitVec 32 := h.th.th_seq - cs.th.th_seq
def deltaI : BitVec 32 := h.ip.ip_id.setWidth 32 - cs.ip.ip_id.setWidth 32

/-- The data of the last packet. -/
def lastData : BitVec 32 := cs.ip.ip_len.setWidth 32 - BitVec.ofNat 32 h.hlen

/-- The changes that have a short form: the sequence number goes on by the data of the last packet, and
the acknowledgement number does so too or does not change. -/
def Special : Prop :=
  h.urg = false ∧ deltaW h cs = 0 ∧ deltaS h cs ≠ 0 ∧ (deltaA h cs = deltaS h cs ∨ deltaA h cs = 0) ∧
    deltaS h cs = lastData h cs

instance : Decidable (Special h cs) := inferInstanceAs (Decidable (_ ∧ _))

/-- The packets that are not sent uncompressed. -/
structure Encodable : Prop where
  expected : Expected h cs
  urgent : h.urg = true ∨ h.th.th_urp = cs.th.th_urp
  ack : deltaA h cs ≤ 0xffff#32
  seq : deltaS h cs ≤ 0xffff#32
  repeated : h.urg = false → deltaW h cs = 0 → deltaA h cs = 0 → deltaS h cs = 0 →
    h.ip.ip_len ≠ cs.ip.ip_len ∧ cs.ip.ip_len.setWidth 32 = BitVec.ofNat 32 h.hlen
  coded : ¬(h.urg = true ∧ deltaW h cs ≠ 0 ∧ deltaS h cs ≠ 0)

def identBytes : List (BitVec 8) := if deltaI h cs ≠ 1 then ENCODEZ (deltaI h cs) else []

def thBytes : List (BitVec 8) :=
  (if h.urg then ENCODEZ (h.th.th_urp.setWidth 32) else []) ++
    (if deltaW h cs ≠ 0 then ENCODE ((deltaW h cs).setWidth 32) else []) ++
    (if deltaA h cs ≠ 0 then ENCODE (deltaA h cs) else []) ++
    (if deltaS h cs ≠ 0 then ENCODE (deltaS h cs) else [])

/-- What `encode` makes of the packets it can encode. -/
def codes : Delta :=
  if Special h cs then
    ⟨bits true true (deltaA h cs = 0) true (deltaI h cs ≠ 1) h.push false, identBytes h cs⟩
  else
    ⟨bits h.urg (deltaW h cs ≠ 0) (deltaA h cs ≠ 0) (deltaS h cs ≠ 0) (deltaI h cs ≠ 1) h.push false,
      thBytes h cs ++ identBytes h cs⟩

variable {h cs} {d : Delta}

theorem urgent_eq_some : Vjc.urgent h cs = some d ↔
    (h.urg = true ∨ h.th.th_urp = cs.th.th_urp) ∧
      d = ⟨bits h.urg false false false false false false,
        if h.urg then ENCODEZ (h.th.th_urp.setWidth 32) else []⟩ := by
  rw [Vjc.urgent]
  by_cases hurg : h.th.th_flags &&& TH_URG ≠ 0
  · have hu : h.urg = true := decide_eq_true hurg
    rw [if_pos hurg, hu, Option.some_inj]
    simp [bits, eq_comm]
  · have hu : h.urg = false := decide_eq_false hurg
    rw [if_neg hurg, hu]
    by_cases hurp : h.th.th_urp ≠ cs.th.th_urp
    · rw [if_pos hurp]
      simp [hurp]
    · rw [if_neg hurp, Option.some_inj]
      simp [bits, not_not.1 hurp, eq_comm]

theorem number_eq_some {bit : BitVec 8} {delta : BitVec 32} {d' : Delta} : d.number bit delta = some d' ↔
    delta ≤ 0xffff#32 ∧ d' = ⟨if delta ≠ 0 then d.changes ||| bit else d.changes,
      d.new_seq ++ if delta ≠ 0 then ENCODE delta else []⟩ := by
  rw [Delta.number]
  by_cases hzero : delta ≠ 0
  · rw [if_pos hzero, if_pos hzero, if_pos hzero]
    by_cases hbig : 0xffff#32 < delta
    · rw [if_pos hbig]
      simp [BitVec.not_le.2 hbig]
    · rw [if_neg hbig, Option.some_inj]
      simp [BitVec.not_lt.1 hbig, eq_comm]
  · rw [if_neg hzero, if_neg hzero, if_neg hzero, not_not.1 hzero, Option.some_inj, eq_comm]
    simp

theorem special_eq_some {u w a s : Bool} {l : List (BitVec 8)} {ds da : BitVec 32} :
    Delta.special ⟨bits u w a s false false false, l⟩ h cs ds da = some d ↔
      (u = false → w = false → a = false → s = false →
        h.ip.ip_len ≠ cs.ip.ip_len ∧ cs.ip.ip_len.setWidth 32 = BitVec.ofNat 32 h.hlen) ∧
      ¬(u = true ∧ w = true ∧ s = true) ∧
      d = if u = false ∧ w = false ∧ s = true ∧ (a = true → ds = da) ∧ ds = lastData h cs then
          ⟨bits true true (!a) true false false false, []⟩
        else ⟨bits u w a s false false false, l⟩ := by
  simp only [Delta.special, bits_eq_zero, bits_eq_I, bits_eq_D, bits_eq_SA, bits_eq_S]
  cases u <;> cases w <;> cases a <;> cases s <;> simp [lastData, eq_comm]
  all_goals
    split
    · exact Option.some_inj
    · exact Option.some_inj

theorem window_eq {u : Bool} {l : List (BitVec 8)} :
    Delta.window ⟨bits u false false false false false false, l⟩ h cs =
      ⟨bits u (deltaW h cs ≠ 0) false false false false false,
        l ++ if deltaW h cs ≠ 0 then ENCODE ((deltaW h cs).setWidth 32) else []⟩ := by
  rw [Delta.window]
  by_cases hw : deltaW h cs ≠ 0
  · rw [if_pos hw, decide_eq_true hw, ← bits_or_W]
    exact if_pos hw
  · rw [if_neg hw, decide_eq_false hw, List.append_nil]
    exact if_neg hw

theorem ident_push_eq {u w a s : Bool} {l : List (BitVec 8)} :
    (Delta.ident ⟨bits u w a s false false false, l⟩ h cs).push h =
      ⟨bits u w a s (deltaI h cs ≠ 1) h.push false, l ++ identBytes h cs⟩ := by
  have hident : Delta.ident ⟨bits u w a s false false false, l⟩ h cs =
      ⟨bits u w a s (deltaI h cs ≠ 1) false false, l ++ identBytes h cs⟩ := by
    rw [Delta.ident, identBytes]
    by_cases hi : deltaI h cs ≠ 1
    · rw [if_pos hi, decide_eq_true hi, ← bits_or_I]
      exact if_pos hi
    · rw [if_neg hi, decide_eq_false hi, List.append_nil]
      exact if_neg hi
  rw [hident, Delta.push]
  by_cases hp : h.th.th_flags &&& TH_PUSH ≠ 0
  · rw [if_pos hp, show h.push = true from decide_eq_true hp, bits_or_PUSH]
  · rw [if_neg hp, show h.push = false from decide_eq_false hp]

theorem bits_ite_A (u w : Bool) (q : Prop) [Decidable q] :
    (if q then bits u w false false false false false ||| NEW_A else bits u w false false false false false) =
      bits u w (decide q) false false false false := by
  by_cases hq : q
  · rw [if_pos hq, decide_eq_true hq, bits_or_A]
  · rw [if_neg hq, decide_eq_false hq]

theorem bits_ite_S (u w a : Bool) (q : Prop) [Decidable q] :
    (if q then bits u w a false false false false ||| NEW_S else bits u w a false false false false) =
      bits u w a (decide q) false false false := by
  by_cases hq : q
  · rw [if_pos hq, decide_eq_true hq, bits_or_S]
  · rw [if_neg hq, decide_eq_false hq]

/-- The case of the `switch` is that of the short forms. -/
theorem special_iff : (h.urg = false ∧ decide (deltaW h cs ≠ 0) = false ∧ decide (deltaS h cs ≠ 0) = true ∧
    (decide (deltaA h cs ≠ 0) = true → deltaS h cs = deltaA h cs) ∧ deltaS h cs = lastData h cs) ↔
    Special h cs := by
  simp only [decide_eq_false_iff_not, decide_eq_true_eq, not_not, Special]
  refine and_congr_right fun _ => and_congr_right fun _ => and_congr_right fun _ => and_congr_left fun _ => ?_
  rw [or_comm, or_iff_not_imp_left, eq_comm]

theorem encode_eq_some : encode h cs = some d ↔ Encodable h cs ∧ d = codes h cs := by
  rw [encode]
  by_cases hexp : Expected h cs
  swap
  · rw [if_neg hexp]
    exact ⟨nofun, fun henc => absurd henc.1.expected hexp⟩
  rw [if_pos hexp]
  have hcodes : ∀ d' : Delta, d' = (if h.urg = false ∧ decide (deltaW h cs ≠ 0) = false ∧ decide (deltaS h cs ≠ 0) = true ∧
        (decide (deltaA h cs ≠ 0) = true → deltaS h cs = deltaA h cs) ∧ deltaS h cs = lastData h cs then
      ⟨bits true true (!decide (deltaA h cs ≠ 0)) true false false false, []⟩
      else ⟨bits h.urg (deltaW h cs ≠ 0) (deltaA h cs ≠ 0) (deltaS h cs ≠ 0) false false false, thBytes h cs⟩) →
      (d'.ident h cs).push h = codes h cs := by
    rintro d' rfl
    rw [codes]
    simp only [special_iff]
    split
    · rw [ident_push_eq]
      simp
    · exact ident_push_eq
  simp only [bind, Option.bind_eq_some_iff, urgent_eq_some, number_eq_some]
  constructor
  · rintro ⟨-, ⟨hurg, rfl⟩, -, ⟨hack, rfl⟩, -, ⟨hseq, rfl⟩, d', hspecial, hd⟩
    rw [window_eq, bits_ite_A, bits_ite_S, special_eq_some] at hspecial
    obtain ⟨hrepeat, hcoded, hd'⟩ := hspecial
    simp only [decide_eq_false_iff_not, decide_eq_true_eq, not_not] at hrepeat hcoded
    refine ⟨⟨hexp, hurg, hack, hseq, hrepeat, hcoded⟩, ?_⟩
    rw [← hcodes d' hd']
    exact (Option.some_inj.1 hd).symm
  · rintro ⟨henc, rfl⟩
    refine ⟨_, ⟨henc.urgent, rfl⟩, _, ⟨henc.ack, rfl⟩, _, ⟨henc.seq, rfl⟩, ?_⟩
    rw [window_eq, bits_ite_A, bits_ite_S]
    refine ⟨_, special_eq_some.2 ⟨?_, ?_, rfl⟩, ?_⟩
    · simp only [decide_eq_false_iff_not, not_not]
      exact henc.repeated
    · simp only [decide_eq_true_eq]
      exact henc.coded
    · rw [Option.some_inj]
      exact hcodes _ rfl

end Encode

section Decode

variable {h cs : Header} {buf r : List (BitVec 8)} {th : Tcphdr} {cp : ℕ} {changes : BitVec 8}

theorem decodeUrp_eq (hbit : changes &&& NEW_U ≠ 0 ↔ h.urg = true)
    (hurp : h.urg = true ∨ h.th.th_urp = th.th_urp)
    (hbuf : At buf cp ((if h.urg then ENCODEZ (h.th.th_urp.setWidth 32) else []) ++ r)) :
    ∃ cp', decodeUrp buf changes th cp = ({ th with
        th_flags := if h.urg then th.th_flags ||| TH_URG else th.th_flags &&& ~~~TH_URG
        th_urp := h.th.th_urp }, cp') ∧ At buf cp' r := by
  rw [decodeUrp]
  cases hu : h.urg with
  | true =>
    rw [hu, if_pos rfl] at hbuf
    rw [if_pos (hbit.2 hu), if_pos rfl]
    obtain ⟨cp', hdecode, hr⟩ := decode_ENCODEZ hbuf
    refine ⟨cp', ?_, hr⟩
    rw [DECODEU, hdecode]
    simp
  | false =>
    rw [hu, if_neg Bool.false_ne_true, List.nil_append] at hbuf
    rw [hu] at hbit hurp
    rw [if_neg fun hne => absurd (hbit.1 hne) Bool.false_ne_true, if_neg Bool.false_ne_true]
    refine ⟨cp, ?_, hbuf⟩
    rw [hurp.resolve_left Bool.false_ne_true]

theorem decodeWin_eq (hbit : changes &&& NEW_W ≠ 0 ↔ deltaW h cs ≠ 0) (hwin : th.th_win = cs.th.th_win)
    (hbuf : At buf cp ((if deltaW h cs ≠ 0 then ENCODE ((deltaW h cs).setWidth 32) else []) ++ r)) :
    ∃ cp', decodeWin buf changes th cp = ({ th with th_win := h.th.th_win }, cp') ∧ At buf cp' r := by
  rw [decodeWin]
  by_cases hw : deltaW h cs ≠ 0
  · rw [if_pos hw] at hbuf
    rw [if_pos (hbit.2 hw)]
    have hcut : ((deltaW h cs).setWidth 32).setWidth 16 = deltaW h cs := by simp
    obtain ⟨cp', hdecode, hr⟩ := decode_ENCODE (by rw [hcut]; exact hw) hbuf
    refine ⟨cp', ?_, hr⟩
    rw [DECODES, hdecode, hcut, hwin, deltaW, add_sub_cancel]
  · rw [if_neg hw, List.nil_append] at hbuf
    rw [if_neg fun hne => hw (hbit.1 hne)]
    refine ⟨cp, ?_, hbuf⟩
    rw [sub_eq_zero.1 (not_not.1 hw), ← hwin]

/-- A number that fits 16 bits is not changed when it is cut to them. -/
theorem setWidth_of_le {n : BitVec 32} (hn : n ≤ 0xffff#32) : (n.setWidth 16).setWidth 32 = n := by
  have hle : n.toNat ≤ 0xffff := hn
  apply BitVec.eq_of_toNat_eq
  simp only [BitVec.toNat_setWidth]
  omega

theorem decode_number {f f' : BitVec 32} (hne : f' - f ≠ 0) (hle : f' - f ≤ 0xffff#32)
    (hbuf : At buf cp (ENCODE (f' - f) ++ r)) : ∃ cp', DECODEL buf f cp = (f', cp') ∧ At buf cp' r := by
  have hcut : (f' - f).setWidth 16 ≠ 0 := by
    intro hzero
    have hback := setWidth_of_le hle
    rw [hzero] at hback
    exact hne hback.symm
  obtain ⟨cp', hdecode, hr⟩ := decode_ENCODE hcut hbuf
  refine ⟨cp', ?_, hr⟩
  rw [DECODEL, hdecode]
  simp only
  rw [setWidth_of_le hle, add_sub_cancel]

theorem decodeAck_eq (hbit : changes &&& NEW_A ≠ 0 ↔ deltaA h cs ≠ 0) (hle : deltaA h cs ≤ 0xffff#32)
    (hack : th.th_ack = cs.th.th_ack)
    (hbuf : At buf cp ((if deltaA h cs ≠ 0 then ENCODE (deltaA h cs) else []) ++ r)) :
    ∃ cp', decodeAck buf changes th cp = ({ th with th_ack := h.th.th_ack }, cp') ∧ At buf cp' r := by
  rw [decodeAck]
  by_cases ha : deltaA h cs ≠ 0
  · rw [if_pos ha] at hbuf
    rw [if_pos (hbit.2 ha), hack]
    obtain ⟨cp', hdecode, hr⟩ := decode_number ha hle hbuf
    exact ⟨cp', by rw [hdecode], hr⟩
  · rw [if_neg ha, List.nil_append] at hbuf
    rw [if_neg fun hne => ha (hbit.1 hne)]
    refine ⟨cp, ?_, hbuf⟩
    rw [sub_eq_zero.1 (not_not.1 ha), ← hack]

theorem decodeSeq_eq (hbit : changes &&& NEW_S ≠ 0 ↔ deltaS h cs ≠ 0) (hle : deltaS h cs ≤ 0xffff#32)
    (hseq : th.th_seq = cs.th.th_seq)
    (hbuf : At buf cp ((if deltaS h cs ≠ 0 then ENCODE (deltaS h cs) else []) ++ r)) :
    ∃ cp', decodeSeq buf changes th cp = ({ th with th_seq := h.th.th_seq }, cp') ∧ At buf cp' r := by
  rw [decodeSeq]
  by_cases hs : deltaS h cs ≠ 0
  · rw [if_pos hs] at hbuf
    rw [if_pos (hbit.2 hs), hseq]
    obtain ⟨cp', hdecode, hr⟩ := decode_number hs hle hbuf
    exact ⟨cp', by rw [hdecode], hr⟩
  · rw [if_neg hs, List.nil_append] at hbuf
    rw [if_neg fun hne => hs (hbit.1 hne)]
    refine ⟨cp, ?_, hbuf⟩
    rw [sub_eq_zero.1 (not_not.1 hs), ← hseq]

theorem decodeId_eq (hbit : changes &&& NEW_I ≠ 0 ↔ deltaI h cs ≠ 1) (hbuf : At buf cp (identBytes h cs ++ r)) :
    ∃ cp', decodeId buf changes cs.ip.ip_id cp = (h.ip.ip_id, cp') ∧ At buf cp' r := by
  have hcut : (deltaI h cs).setWidth 16 = h.ip.ip_id - cs.ip.ip_id := by
    rw [deltaI]
    apply BitVec.eq_of_toNat_eq
    simp only [BitVec.toNat_setWidth, BitVec.toNat_sub]
    omega
  rw [decodeId]
  rw [identBytes] at hbuf
  by_cases hi : deltaI h cs ≠ 1
  · rw [if_pos hi] at hbuf
    rw [if_pos (hbit.2 hi)]
    obtain ⟨cp', hdecode, hr⟩ := decode_ENCODEZ hbuf
    refine ⟨cp', ?_, hr⟩
    rw [DECODES, hdecode, hcut, add_sub_cancel]
  · rw [if_neg hi, List.nil_append] at hbuf
    rw [if_neg fun hne => hi (hbit.1 hne)]
    refine ⟨cp, ?_, hbuf⟩
    rw [not_not.1 hi] at hcut
    have hone : h.ip.ip_id - cs.ip.ip_id = 1 := hcut.symm
    rw [← hone, add_sub_cancel]

/-- The flags that the peer comes to. -/
def rebuiltFlags (h cs : Header) : BitVec 8 :=
  let flags := if h.push then cs.th.th_flags ||| TH_PUSH else cs.th.th_flags &&& ~~~TH_PUSH
  if Special h cs then flags
  else if h.urg then flags ||| TH_URG else flags &&& ~~~TH_URG

/-- The header that the peer comes to. -/
def rebuilt (h cs : Header) : Header :=
  { h with th.th_x2 := cs.th.th_x2, th.th_flags := rebuiltFlags h cs }

/-- The headers of a TCP/IP packet, as long as they say. -/
structure Header.Wf (h : Header) : Prop where
  ip_v : h.ip.ip_v = 4
  ip_hl : 5 ≤ h.ip.ip_hl.toNat
  ipopts : h.ipopts.length + 20 = h.ip.ip_hl.toNat * 4
  ip_p : h.ip.ip_p = IPPROTO_TCP
  th_off : 5 ≤ h.th.th_off.toNat
  tcpopts : h.tcpopts.length + 20 = h.th.th_off.toNat * 4

structure Packet.Wf (p : Packet) : Prop where
  hdr : p.hdr.Wf
  ip_len : p.hdr.ip.ip_len.toNat = p.hdr.hlen + p.data.length

/-- What the peer has kept of `cs`; its checksum is its own. -/
structure Kept (cs : Header) (x : Cstate) : Prop where
  hlen : x.cs_hlen = cs.hlen
  hdr : x.cs_hdr = { cs with ip.ip_sum := x.cs_hdr.ip.ip_sum }

theorem decodeTh_special {u w a s i p c : Bool} (x : Cstate) (hu : u = true) (hw : w = true) (hs : s = true) :
    decodeTh buf (bits u w a s i p c) x th cp =
      (let i := x.cs_hdr.ip.ip_len.setWidth 32 - BitVec.ofNat 32 x.cs_hlen
       { th with th_ack := if a then th.th_ack else th.th_ack + i, th_seq := th.th_seq + i }, cp) := by
  subst hu hw hs
  rw [decodeTh]
  cases a with
  | true =>
    rw [if_neg (by rw [bits_special_I]; simp), if_pos ((bits_special_D _ _ _ _ _ _ _).2 rfl)]
    rfl
  | false =>
    rw [if_pos ((bits_special_I _ _ _ _ _ _ _).2 rfl)]
    rfl

/-- The fields that are sent, read into the last TCP header. -/
theorem decodeTh_codes (henc : Encodable h cs) (c : Bool) {x : Cstate} (hx : Kept cs x)
    (hlen : h.hlen = cs.hlen) (hurp : th.th_urp = cs.th.th_urp) (hwin : th.th_win = cs.th.th_win)
    (hack : th.th_ack = cs.th.th_ack) (hseq : th.th_seq = cs.th.th_seq)
    (hbuf : At buf cp ((codes h cs).new_seq ++ r)) :
    ∃ cp', decodeTh buf ((codes h cs).changes ||| if c then NEW_C else 0) x th cp = ({ th with
        th_flags := if Special h cs then th.th_flags
          else if h.urg then th.th_flags ||| TH_URG else th.th_flags &&& ~~~TH_URG
        th_urp := h.th.th_urp
        th_win := h.th.th_win
        th_ack := h.th.th_ack
        th_seq := h.th.th_seq }, cp') ∧ At buf cp' (identBytes h cs ++ r) := by
  rw [codes] at hbuf ⊢
  by_cases hspecial : Special h cs
  · rw [if_pos hspecial] at hbuf ⊢
    simp only [bits_or_ite_C]
    rw [decodeTh_special x rfl rfl rfl]
    refine ⟨cp, ?_, hbuf⟩
    obtain ⟨hurg, hw, -, ha, hs⟩ := id hspecial
    have hdata : x.cs_hdr.ip.ip_len.setWidth 32 - BitVec.ofNat 32 x.cs_hlen = deltaS h cs := by
      rw [hs, hx.hdr, hx.hlen, lastData, hlen]
    have hurp' := henc.urgent.resolve_left (by rw [hurg]; exact Bool.false_ne_true)
    have hwin' : h.th.th_win = th.th_win := by rw [sub_eq_zero.1 hw, hwin]
    have hseq' : th.th_seq + deltaS h cs = h.th.th_seq := by rw [hseq, deltaS, add_sub_cancel]
    have hack' : (if decide (deltaA h cs = 0) then th.th_ack else th.th_ack + deltaS h cs) = h.th.th_ack := by
      by_cases hzero : deltaA h cs = 0
      · rw [if_pos (decide_eq_true hzero), hack, sub_eq_zero.1 hzero]
      · rw [if_neg (by rw [decide_eq_false hzero]; exact Bool.false_ne_true), ← ha.resolve_right hzero, hack, deltaA,
          add_sub_cancel]
    simp only [hdata]
    rw [hack', hseq', hurp', ← hurp, hwin', if_pos hspecial]
  · rw [if_neg hspecial] at hbuf ⊢
    simp only [bits_or_ite_C]
    have hcoded (a : Bool) : ¬(h.urg && decide (deltaW h cs ≠ 0) && a && decide (deltaS h cs ≠ 0)) = true := by
      simp only [Bool.and_eq_true, decide_eq_true_eq, not_and]
      intro h1 h2
      exact absurd ⟨h1.1.1, h1.1.2, h2⟩ henc.coded
    simp only [thBytes, List.append_assoc] at hbuf
    rw [decodeTh, if_neg (by rw [bits_special_I]; exact hcoded _), if_neg (by rw [bits_special_D]; exact hcoded _)]
    have hU := bits_and_U h.urg (deltaW h cs ≠ 0) (deltaA h cs ≠ 0) (deltaS h cs ≠ 0) (deltaI h cs ≠ 1) h.push c
    have hW := bits_and_W h.urg (deltaW h cs ≠ 0) (deltaA h cs ≠ 0) (deltaS h cs ≠ 0) (deltaI h cs ≠ 1) h.push c
    have hA := bits_and_A h.urg (deltaW h cs ≠ 0) (deltaA h cs ≠ 0) (deltaS h cs ≠ 0) (deltaI h cs ≠ 1) h.push c
    have hS := bits_and_S h.urg (deltaW h cs ≠ 0) (deltaA h cs ≠ 0) (deltaS h cs ≠ 0) (deltaI h cs ≠ 1) h.push c
    rw [decide_eq_true_iff] at hW hA hS
    generalize bits h.urg (deltaW h cs ≠ 0) (deltaA h cs ≠ 0) (deltaS h cs ≠ 0) (deltaI h cs ≠ 1) h.push c = changes
      at hU hW hA hS ⊢
    obtain ⟨cp₁, h₁, hbuf₁⟩ := @decodeUrp_eq h buf _ th cp changes hU (by rw [hurp]; exact henc.urgent) hbuf
    obtain ⟨cp₂, h₂, hbuf₂⟩ := @decodeWin_eq h cs buf _ { th with
        th_flags := if h.urg then th.th_flags ||| TH_URG else th.th_flags &&& ~~~TH_URG
        th_urp := h.th.th_urp } cp₁ changes hW hwin hbuf₁
    obtain ⟨cp₃, h₃, hbuf₃⟩ := @decodeAck_eq h cs buf _ { th with
        th_flags := if h.urg then th.th_flags ||| TH_URG else th.th_flags &&& ~~~TH_URG
        th_urp := h.th.th_urp
        th_win := h.th.th_win } cp₂ changes hA henc.ack hack hbuf₂
    obtain ⟨cp₄, h₄, hbuf₄⟩ := @decodeSeq_eq h cs buf _ { th with
        th_flags := if h.urg then th.th_flags ||| TH_URG else th.th_flags &&& ~~~TH_URG
        th_urp := h.th.th_urp
        th_win := h.th.th_win
        th_ack := h.th.th_ack } cp₃ changes hS henc.seq hseq hbuf₃
    refine ⟨cp₄, ?_, hbuf₄⟩
    rw [h₁]
    simp only
    rw [h₂]
    simp only
    rw [h₃]
    simp only
    rw [h₄, if_neg hspecial]

theorem checksum_ip_sum (order : ByteOrder) (h : Header) (n : BitVec 16) :
    checksum order { h with ip.ip_sum := n } = checksum order h := rfl

theorem codes_changes (h cs : Header) (c : Bool) : ∃ u w a s,
    ((codes h cs).changes ||| if c then NEW_C else 0) = bits u w a s (deltaI h cs ≠ 1) h.push c := by
  rw [codes]
  split
  · exact ⟨_, _, _, _, bits_or_ite_C _ _ _ _ _ _ _⟩
  · exact ⟨_, _, _, _, bits_or_ite_C _ _ _ _ _ _ _⟩

theorem codes_and_I (h cs : Header) (c : Bool) :
    ((codes h cs).changes ||| if c then NEW_C else 0) &&& NEW_I ≠ 0 ↔ deltaI h cs ≠ 1 := by
  obtain ⟨u, w, a, s, hbits⟩ := codes_changes h cs c
  rw [hbits, bits_and_I, decide_eq_true_iff]

theorem codes_and_PUSH (h cs : Header) (c : Bool) :
    ((codes h cs).changes ||| if c then NEW_C else 0) &&& TCP_PUSH_BIT ≠ 0 ↔ h.push = true := by
  obtain ⟨u, w, a, s, hbits⟩ := codes_changes h cs c
  rw [hbits, bits_and_PUSH]

theorem codes_and_C (h cs : Header) (c : Bool) :
    ((codes h cs).changes ||| if c then NEW_C else 0) &&& NEW_C ≠ 0 ↔ c = true := by
  obtain ⟨u, w, a, s, hbits⟩ := codes_changes h cs c
  rw [hbits, bits_and_C]

theorem Header.Wf.ipopts_eq (hwf : h.Wf) (hcs : cs.Wf) (hexp : Expected h cs) : h.ipopts = cs.ipopts := by
  by_cases hlong : 5 < h.ip.ip_hl
  · exact hexp.2.2.2.2.1 hlong
  · have hle : h.ip.ip_hl.toNat ≤ 5 := BitVec.not_lt.1 hlong
    have h1 := hwf.ipopts
    have h2 := hcs.ipopts
    rw [← hexp.1.2.1] at h2
    rw [List.length_eq_zero_iff.1 (show h.ipopts.length = 0 by omega),
      List.length_eq_zero_iff.1 (show cs.ipopts.length = 0 by omega)]

theorem Header.Wf.tcpopts_eq (hwf : h.Wf) (hcs : cs.Wf) (hexp : Expected h cs) : h.tcpopts = cs.tcpopts := by
  by_cases hlong : 5 < h.th.th_off
  · exact hexp.2.2.2.2.2 hlong
  · have hle : h.th.th_off.toNat ≤ 5 := BitVec.not_lt.1 hlong
    have h1 := hwf.tcpopts
    have h2 := hcs.tcpopts
    rw [← hexp.2.2.2.1] at h2
    rw [List.length_eq_zero_iff.1 (show h.tcpopts.length = 0 by omega),
      List.length_eq_zero_iff.1 (show cs.tcpopts.length = 0 by omega)]

theorem rebuilt_eq (hwf : h.Wf) (hcs : cs.Wf) (hsame : h.Same cs) (hexp : Expected h cs) (n : BitVec 16) :
    ({ cs with
      ip := { cs.ip with ip_sum := n, ip_id := h.ip.ip_id, ip_len := h.ip.ip_len }
      th := { cs.th with
        th_sum := h.th.th_sum
        th_flags := rebuiltFlags h cs
        th_urp := h.th.th_urp
        th_win := h.th.th_win
        th_ack := h.th.th_ack
        th_seq := h.th.th_seq } } : Header) = { rebuilt h cs with ip.ip_sum := n } := by
  have hip := hwf.ipopts_eq hcs hexp
  have htcp := hwf.tcpopts_eq hcs hexp
  obtain ⟨⟨h1, h2, h3⟩, h4, ⟨h5, h6⟩, h7, -, -⟩ := hexp
  obtain ⟨h8, h9, h10, h11⟩ := hsame
  simp only [rebuilt, h1, h2, h3, h4, h5, h6, h7, h8, h9, h10, h11, hip, htcp]

/-- A compressed header, read by a peer that has kept the last header. -/
theorem receiveChanges_eq (order : ByteOrder) {comp : Slcompress} {data : List (BitVec 8)}
    (hwf : Packet.Wf ⟨h, data⟩) (hcs : cs.Wf) (hsame : h.Same cs) (henc : Encodable h cs) (c : Bool)
    (hx : Kept cs (comp.rstate comp.last_recv))
    (hbuf : At buf cp (hi h.th.th_sum :: lo h.th.th_sum :: ((codes h cs).new_seq ++ data))) :
    receiveChanges order comp buf ((codes h cs).changes ||| if c then NEW_C else 0) cp =
      ({ comp with rstate := Function.update comp.rstate comp.last_recv ⟨h.hlen, checksum order (rebuilt h cs)⟩ },
        some ⟨checksum order (rebuilt h cs), data⟩) := by
  have hexp := henc.expected
  have hlen : h.hlen = cs.hlen := by rw [Header.hlen, Header.hlen, hexp.1.2.1, hexp.2.2.2.1]
  rw [receiveChanges]
  generalize comp.rstate comp.last_recv = x at hx ⊢
  have hth : x.cs_hdr.th = cs.th := by rw [hx.hdr]
  have hid : x.cs_hdr.ip.ip_id = cs.ip.ip_id := by rw [hx.hdr]
  simp only [hth, hid, short_eq hbuf]
  obtain ⟨cp₁, h₁, hbuf₁⟩ := @decodeTh_codes h cs buf data { cs.th with
      th_sum := h.th.th_sum
      th_flags := if ((codes h cs).changes ||| if c then NEW_C else 0) &&& TCP_PUSH_BIT ≠ 0 then
        cs.th.th_flags ||| TH_PUSH else cs.th.th_flags &&& ~~~TH_PUSH } (cp + 2) henc c x hx hlen rfl rfl rfl rfl
    hbuf.next.next
  obtain ⟨cp₂, h₂, hbuf₂⟩ := decodeId_eq (codes_and_I h cs c) hbuf₁
  rw [h₁]
  simp only
  rw [h₂]
  simp only
  rw [if_neg (by have := hbuf₂.1; omega), hbuf₂.2]
  have hip_len : BitVec.ofNat 16 (buf.length + x.cs_hlen - cp₂) = h.ip.ip_len := by
    have hdata := congrArg List.length hbuf₂.2
    rw [List.length_drop] at hdata
    have htotal : buf.length + x.cs_hlen - cp₂ = h.ip.ip_len.toNat := by
      rw [hwf.ip_len, hx.hlen, ← hlen]
      have := hbuf₂.1
      simp only
      omega
    rw [htotal, BitVec.ofNat_toNat, BitVec.setWidth_eq]
  have hflags : (if Special h cs then
        if ((codes h cs).changes ||| if c then NEW_C else 0) &&& TCP_PUSH_BIT ≠ 0 then cs.th.th_flags ||| TH_PUSH
          else cs.th.th_flags &&& ~~~TH_PUSH
      else if h.urg then
        (if ((codes h cs).changes ||| if c then NEW_C else 0) &&& TCP_PUSH_BIT ≠ 0 then cs.th.th_flags ||| TH_PUSH
          else cs.th.th_flags &&& ~~~TH_PUSH) ||| TH_URG
      else (if ((codes h cs).changes ||| if c then NEW_C else 0) &&& TCP_PUSH_BIT ≠ 0 then cs.th.th_flags ||| TH_PUSH
          else cs.th.th_flags &&& ~~~TH_PUSH) &&& ~~~TH_URG) = rebuiltFlags h cs := by
    simp only [codes_and_PUSH]
    rfl
  simp only [hflags, hip_len]
  obtain ⟨n, hn⟩ : ∃ n, x.cs_hdr = { cs with ip.ip_sum := n } := ⟨_, hx.hdr⟩
  rw [hn, hx.hlen, ← hlen]
  rw [show ({ cs with
      ip := { cs.ip with ip_sum := n, ip_id := h.ip.ip_id, ip_len := h.ip.ip_len }
      th := { cs.th with
        th_sum := h.th.th_sum
        th_flags := rebuiltFlags h cs
        th_urp := h.th.th_urp
        th_win := h.th.th_win
        th_ack := h.th.th_ack
        th_seq := h.th.th_seq } } : Header) = _ from rebuilt_eq hwf.hdr hcs hsame hexp n, checksum_ip_sum]

end Decode

end OpenbsdKernel.Vjc
