import OpenbsdKernel.Net.Slcompress.Core
import Mathlib.Tactic

/-!
# How far a compressed packet is read

The bytes of a compressed header are read one after the other, and only then is the length of the
packet looked at. They are inside the packet exactly when it has the whole header that its first
byte announces.
-/
namespace OpenbsdKernel.Vjc.Core

open OnesComplement

section Numbers

variable {buf : Bytes} {cp : ℕ}

def numberEnd (buf : Bytes) (cp : ℕ) : ℕ := if buf cp = 0 then cp + 3 else cp + 1

/-- Where the number of a change ends, if there is one. -/
def changeEnd (buf : Bytes) (changes bit : BitVec 8) (cp : ℕ) : ℕ :=
  if changes &&& bit ≠ 0 then numberEnd buf cp else cp

def thEnd (buf : Bytes) (changes : BitVec 8) (cp : ℕ) : ℕ :=
  if changes &&& SPECIALS_MASK = SPECIAL_I ∨ changes &&& SPECIALS_MASK = SPECIAL_D then cp
  else [NEW_U, NEW_W, NEW_A, NEW_S].foldl (fun cp bit => changeEnd buf changes bit cp) cp

/-- Where a compressed header ends of which the checksum is at `cp`. -/
def headerEnd (buf : Bytes) (changes : BitVec 8) (cp : ℕ) : ℕ :=
  changeEnd buf changes NEW_I (thEnd buf changes (cp + 2))

/-- The bytes from `cp` up to `e` are read, in order. -/
structure Advances (x : Traced ℕ (Bytes × ℕ)) (cp e : ℕ) : Prop where
  le : cp ≤ e
  value : x.value.2 = e
  reads : x.reads = List.range' cp (e - cp)

theorem Advances.pure (m : Bytes) (cp : ℕ) : Advances (pure (m, cp)) cp cp :=
  ⟨le_rfl, rfl, by simp⟩

theorem range'_append {a b c : ℕ} (hab : a ≤ b) (hbc : b ≤ c) :
    List.range' a (b - a) ++ List.range' b (c - b) = List.range' a (c - a) := by
  have h : c - a = (b - a) + (c - b) := by omega
  have hb : b = a + 1 * (b - a) := by omega
  rw [h, ← List.range'_append, ← hb]

theorem Advances.bind {x : Traced ℕ (Bytes × ℕ)} {f : Bytes × ℕ → Traced ℕ (Bytes × ℕ)} {e e' : ℕ}
    (h : Advances x cp e) (h' : Advances (f x.value) e e') : Advances (x >>= f) cp e' := by
  refine ⟨h.le.trans h'.le, h'.value, ?_⟩
  rw [Traced.bind_reads, h.reads, h'.reads, range'_append h.le h'.le]

theorem decode_reads (buf : Bytes) (cp : ℕ) :
    (decode buf cp).value.2 = numberEnd buf cp ∧
      (decode buf cp).reads = List.range' cp (numberEnd buf cp - cp) := by
  by_cases h : buf cp = 0
  · simp [decode, numberEnd, h, List.range'_succ]
  · have h' : ¬ buf cp = 0#8 := h
    simp [decode, numberEnd, h']

theorem le_numberEnd (buf : Bytes) (cp : ℕ) : cp ≤ numberEnd buf cp := by
  unfold numberEnd
  split_ifs <;> omega

theorem advances_decode (buf : Bytes) (cp : ℕ) (f : BitVec 16 → Bytes) :
    Advances (do let (n, cp) ← decode buf cp; Pure.pure (f n, cp)) cp (numberEnd buf cp) := by
  obtain ⟨hvalue, hreads⟩ := decode_reads buf cp
  exact ⟨le_numberEnd buf cp, hvalue, by simpa using hreads⟩

theorem advances_onChange (changes bit : BitVec 8) {x : Bytes × ℕ → Traced ℕ (Bytes × ℕ)} {s : Bytes × ℕ} (hs : s.2 = cp)
    (hx : ∀ s : Bytes × ℕ, Advances (x s) s.2 (numberEnd buf s.2)) :
    Advances (onChange changes bit x s) cp (changeEnd buf changes bit cp) := by
  subst hs
  unfold onChange changeEnd
  split_ifs with h
  · exact hx s
  · exact .pure s.1 s.2

theorem advances_decodeTh (buf : Bytes) (changes : BitVec 8) (cs_hlen : BitVec 16) (m : Bytes)
    (th cp : ℕ) : Advances (decodeTh buf changes cs_hlen m th cp) cp (thEnd buf changes cp) := by
  unfold decodeTh thEnd
  by_cases hI : changes &&& SPECIALS_MASK = SPECIAL_I
  · simp only [if_pos hI, if_pos (Or.inl hI)]
    exact .pure _ cp
  by_cases hD : changes &&& SPECIALS_MASK = SPECIAL_D
  · simp only [if_neg hI, if_pos hD, if_pos (Or.inr hD)]
    exact .pure _ cp
  simp only [if_neg hI, if_neg hD, if_neg (not_or.mpr ⟨hI, hD⟩), List.foldl_cons, List.foldl_nil]
  have hurp : Advances (urgentPointer buf changes m th cp) cp (changeEnd buf changes NEW_U cp) := by
    unfold urgentPointer changeEnd
    split_ifs
    · exact advances_decode buf cp _
    · exact .pure _ cp
  refine hurp.bind ?_
  have hwin := advances_onChange changes NEW_W hurp.value fun s => advances_decode buf s.2
    fun n => put16 s.1 (th + thWin) (get16 s.1 (th + thWin) + n)
  refine hwin.bind ?_
  have hack := advances_onChange changes NEW_A hwin.value fun s => advances_decode buf s.2
    fun n => put32 s.1 (th + thAck) (get32 s.1 (th + thAck) + n.setWidth 32)
  refine hack.bind ?_
  exact advances_onChange changes NEW_S hack.value fun s => advances_decode buf s.2
    fun n => put32 s.1 (th + thSeq) (get32 s.1 (th + thSeq) + n.setWidth 32)

theorem advances_decodeId (changes : BitVec 8) (m : Bytes) :
    Advances (decodeId buf changes m cp) cp (changeEnd buf changes NEW_I cp) := by
  unfold decodeId changeEnd
  split_ifs
  · exact advances_decode buf cp fun n => put16 m ipId (get16 m ipId + n)
  · exact .pure _ cp

theorem advances_decodeHeader (buf : Bytes) (changes : BitVec 8) (cs : Cstate) (cp : ℕ) :
    Advances (decodeHeader buf changes cs cp) cp (headerEnd buf changes cp) := by
  have hth := advances_decodeTh buf changes cs.cs_hlen
    (withSum changes cs (buf cp ++ buf (cp + 1))) (ipHlen cs.cs_ip) (cp + 2)
  have hboth : Advances (do
      let s ← decodeTh buf changes cs.cs_hlen (withSum changes cs (buf cp ++ buf (cp + 1)))
        (ipHlen cs.cs_ip) (cp + 2)
      decodeId buf changes s.1 s.2) (cp + 2) (headerEnd buf changes cp) := by
    refine hth.bind ?_
    rw [hth.value]
    exact advances_decodeId changes _
  have hle := hboth.le
  refine ⟨by omega, hboth.value, ?_⟩
  simp only [decodeHeader, Traced.bind_reads, Traced.read_reads, Traced.read_value]
  have hreads := hboth.reads
  rw [Traced.bind_reads] at hreads
  rw [hreads]
  have hlen : headerEnd buf changes cp - cp = headerEnd buf changes cp - (cp + 2) + 1 + 1 := by omega
  rw [hlen, List.range'_succ, List.range'_succ]
  rfl

end Numbers

section Packet

variable {order : ByteOrder} {buf : Bytes} {buflen : ℕ} {total_len : ℤ} {comp : Slcompress}

theorem le_headerEnd (buf : Bytes) (changes : BitVec 8) (cp : ℕ) :
    cp + 2 ≤ headerEnd buf changes cp :=
  (advances_decodeTh buf changes 0 buf 0 (cp + 2)).le.trans (advances_decodeId changes buf).le

theorem changesCore_spec (order : ByteOrder) (buf : Bytes) (buflen : ℕ) (total_len : ℤ)
    (comp : Slcompress) (changes : BitVec 8) (cp : ℕ) :
    (changesCore order buf buflen total_len comp changes cp).reads =
        List.range' cp (headerEnd buf changes cp - cp) ∧
      (changesCore order buf buflen total_len comp changes cp).value.vjlen =
        if buflen < headerEnd buf changes cp then -1 else (headerEnd buf changes cp : ℤ) := by
  have h := advances_decodeHeader buf changes (comp.rstate comp.last_recv) cp
  constructor
  · simp [changesCore, h.reads]
  · simp only [changesCore, Traced.bind_value, Traced.ite_value, Traced.pure_value, h.value]
    split_ifs <;> rfl

def headerLen (buf : Bytes) : ℕ := headerEnd buf (buf 0) (if buf 0 &&& NEW_C ≠ 0 then 2 else 1)

/-- The packet has the bytes that are looked at: of an uncompressed one the connection number in the
place of the protocol, of a compressed one its first byte, the connection number that this announces,
and unless the packet is dropped then, the whole header. -/
def Fits (buf : Bytes) (buflen type : ℕ) (toss : Bool) : Prop :=
  (type = TYPE_UNCOMPRESSED_TCP → ipP < buflen) ∧
    (type = TYPE_COMPRESSED_TCP →
      if buf 0 &&& NEW_C ≠ 0 then
        if MAX_STATES ≤ (buf 1).toNat then 1 < buflen else headerLen buf ≤ buflen
      else if toss then 0 < buflen else headerLen buf ≤ buflen)

/-- No byte behind the packet is read, and a positive value is the number of bytes that were, all of
them in the packet. -/
def ReadsWithin (r : Traced ℕ Result) (buflen : ℕ) : Prop :=
  (∀ i ∈ r.reads, i < buflen) ∧
    (0 < r.value.vjlen → (∀ i, i ∈ r.reads ↔ (i : ℤ) < r.value.vjlen) ∧ r.value.vjlen ≤ buflen)

theorem mem_range'_header {cp e i : ℕ} (hle : cp ≤ e) :
    i ∈ List.range' cp (e - cp) ↔ cp ≤ i ∧ i < e := by
  rw [List.mem_range'_1]
  omega

theorem readsWithin_changes {r : Traced ℕ Result} {cp e : ℕ} (hle : cp + 2 ≤ e)
    (hreads : ∀ i, i ∈ r.reads ↔ i < e)
    (hvalue : r.value.vjlen = if buflen < e then -1 else (e : ℤ)) :
    ReadsWithin r buflen ↔ e ≤ buflen := by
  constructor
  · intro h
    have := h.1 (e - 1) ((hreads _).mpr (by omega))
    omega
  · intro hfit
    rw [if_neg (by omega)] at hvalue
    refine ⟨fun i hi => ((hreads i).mp hi).trans_le hfit, fun _ => ⟨fun i => ?_, ?_⟩⟩
    · rw [hreads, hvalue]
      omega
    · rw [hvalue]
      omega

theorem readsWithin_bad {r : Traced ℕ Result} {e : ℕ} (hpos : 0 < e)
    (hreads : ∀ i, i ∈ r.reads ↔ i < e) (hvalue : r.value.vjlen = -1) :
    ReadsWithin r buflen ↔ e ≤ buflen := by
  constructor
  · intro h
    have := h.1 (e - 1) ((hreads _).mpr (by omega))
    omega
  · intro hfit
    exact ⟨fun i hi => ((hreads i).mp hi).trans_le hfit, fun h => by rw [hvalue] at h; omega⟩

theorem mapM_read_reads (buf : Bytes) (l : List ℕ) : (l.mapM (Traced.read buf)).reads = l := by
  induction l with
  | nil => rfl
  | cons i l ih => simp [ih]

/-- The bytes that are read of a packet that is not compressed, and that there is no positive
value. -/
structure Uncompressed (r : Traced ℕ Result) (buflen : ℕ) (first : List ℕ) : Prop where
  reads : ∀ i ∈ r.reads, i ∈ first ∨ i < buflen
  value : r.value.vjlen ≤ 0

theorem saveHeader_spec (buf : Bytes) (buflen : ℕ) (comp : Slcompress) (hlen : ℕ) :
    Uncompressed (saveHeader buf buflen comp hlen) buflen [] := by
  unfold saveHeader
  split_ifs with h
  · exact ⟨by simp, by simp [Slcompress.bad]⟩
  · refine ⟨fun i hi => .inr ?_, by simp⟩
    rw [Traced.bind_reads, mapM_read_reads, Traced.pure_reads, List.append_nil,
      List.mem_range] at hi
    omega

theorem headerSize_spec (buf : Bytes) (buflen : ℕ) (comp : Slcompress) :
    Uncompressed (headerSize buf buflen comp) buflen [0] := by
  unfold headerSize
  constructor
  · intro i hi
    rw [Traced.bind_reads, Traced.read_reads, Traced.read_value] at hi
    rcases List.mem_append.mp hi with hi | hi
    · exact .inl hi
    dsimp only at hi
    split_ifs at hi with h
    · simp at hi
    · rw [Traced.bind_reads, Traced.read_reads] at hi
      rcases List.mem_append.mp hi with hi | hi
      · rw [List.mem_singleton] at hi
        simp only [tcphdrSize] at h
        exact .inr (by simp only [thOff] at hi; omega)
      · rcases (saveHeader_spec buf buflen comp _).reads i hi with hi | hi
        · simp at hi
        · exact .inr hi
  · rw [Traced.bind_value, Traced.read_value]
    dsimp only
    split_ifs
    · simp [Slcompress.bad]
    · exact (saveHeader_spec buf buflen comp _).value

theorem uncompressedCore_spec (buf : Bytes) (buflen : ℕ) (comp : Slcompress) :
    ReadsWithin (uncompressedCore buf buflen comp) buflen ↔ ipP < buflen := by
  have h : Uncompressed (uncompressedCore buf buflen comp) buflen [ipP, 0] := by
    unfold uncompressedCore
    constructor
    · intro i hi
      rw [Traced.bind_reads, Traced.read_reads, Traced.read_value] at hi
      rcases List.mem_append.mp hi with hi | hi
      · rw [List.mem_singleton] at hi
        exact .inl (by simp [hi])
      split_ifs at hi
      · simp at hi
      · rcases (headerSize_spec _ buflen _).reads i hi with hi | hi
        · exact .inl (by simpa using Or.inr hi)
        · exact .inr hi
    · rw [Traced.bind_value, Traced.read_value]
      dsimp only
      split_ifs
      · simp [Slcompress.bad]
      · exact (headerSize_spec _ buflen _).value
  constructor
  · intro hwithin
    exact hwithin.1 ipP (by simp [uncompressedCore])
  · intro hfit
    refine ⟨fun i hi => ?_, fun hpos => absurd h.value (by omega)⟩
    rcases h.reads i hi with hi | hi
    · simp only [List.mem_cons, List.not_mem_nil, or_false] at hi
      omega
    · exact hi

/-- `sl_uncompress_tcp_core` reads inside the packet, and returns the number of bytes of the header,
exactly when the packet has the bytes that are looked at. -/
theorem sl_uncompress_tcp_core_reads (order : ByteOrder) (buf : Bytes) (buflen : ℕ) (total_len : ℤ)
    (type : ℕ) (comp : Slcompress) :
    ReadsWithin (sl_uncompress_tcp_core order buf buflen total_len type comp) buflen ↔
      Fits buf buflen type comp.toss := by
  unfold sl_uncompress_tcp_core Fits
  by_cases hun : type = TYPE_UNCOMPRESSED_TCP
  · have hno : type ≠ TYPE_COMPRESSED_TCP := by
      rw [hun]
      decide
    rw [if_pos hun, uncompressedCore_spec]
    exact ⟨fun h => ⟨fun _ => h, fun h => absurd h hno⟩, fun h => h.1 hun⟩
  by_cases hcomp : type = TYPE_COMPRESSED_TCP
  swap
  · rw [if_neg hun, if_neg hcomp]
    refine ⟨fun _ => ⟨fun h => absurd h hun, fun h => absurd h hcomp⟩, fun _ => ?_⟩
    exact ⟨by simp, by simp [Slcompress.bad]⟩
  rw [if_neg hun, if_pos hcomp]
  refine Iff.trans ?_ ⟨fun h => ⟨fun h => absurd h hun, fun _ => h⟩, fun h => h.2 hcomp⟩
  by_cases hnew : buf 0 &&& NEW_C ≠ 0
  · have hcore : compressedCore order buf buflen total_len comp (buf 0) =
        Traced.read buf 1 >>= namedCore order buf buflen total_len comp (buf 0) := if_pos hnew
    rw [if_pos hnew]
    by_cases hstates : MAX_STATES ≤ (buf 1).toNat
    · have hnamed : namedCore order buf buflen total_len comp (buf 0) (buf 1) = pure comp.bad :=
        if_pos hstates
      rw [if_pos hstates]
      refine readsWithin_bad (e := 2) (by decide) (fun i => ?_) ?_
      · simp only [Traced.bind_reads, Traced.read_reads, Traced.read_value, hcore, hnamed,
          Traced.pure_reads, List.mem_append, List.mem_singleton, List.not_mem_nil,
          or_false]
        omega
      · simp only [Traced.bind_value, Traced.read_value, hcore, hnamed, Traced.pure_value,
          Slcompress.bad]
    · have hnamed : namedCore order buf buflen total_len comp (buf 0) (buf 1) =
          changesCore order buf buflen total_len
            { comp with toss := false, last_recv := (buf 1).toNat } (buf 0) 2 := if_neg hstates
      rw [if_neg hstates, headerLen, if_pos hnew]
      have hle := le_headerEnd buf (buf 0) 2
      obtain ⟨hreads, hvalue⟩ := changesCore_spec order buf buflen total_len
        { comp with toss := false, last_recv := (buf 1).toNat } (buf 0) 2
      refine readsWithin_changes hle (fun i => ?_) ?_
      · simp only [Traced.bind_reads, Traced.read_reads, Traced.read_value, hcore, hnamed, hreads,
          List.mem_append, List.mem_singleton, mem_range'_header (Nat.le_of_add_right_le hle)]
        omega
      · simp only [Traced.bind_value, Traced.read_value, hcore, hnamed, hvalue]
  · have hcore : compressedCore order buf buflen total_len comp (buf 0) =
        sameCore order buf buflen total_len comp (buf 0) := if_neg hnew
    rw [if_neg hnew]
    by_cases htoss : comp.toss = true
    · have hsame : sameCore order buf buflen total_len comp (buf 0) = pure ⟨-1, none, comp⟩ :=
        if_pos htoss
      rw [if_pos htoss]
      refine readsWithin_bad (e := 1) (by decide) (fun i => ?_) ?_
      · simp only [Traced.bind_reads, Traced.read_reads, Traced.read_value, hcore, hsame,
          Traced.pure_reads, List.mem_append, List.mem_singleton, List.not_mem_nil,
          or_false]
        omega
      · simp only [Traced.bind_value, Traced.read_value, hcore, hsame, Traced.pure_value]
    · have hsame : sameCore order buf buflen total_len comp (buf 0) =
          changesCore order buf buflen total_len comp (buf 0) 1 := if_neg htoss
      rw [if_neg htoss, headerLen, if_neg hnew]
      have hle := le_headerEnd buf (buf 0) 1
      obtain ⟨hreads, hvalue⟩ := changesCore_spec order buf buflen total_len comp (buf 0) 1
      refine readsWithin_changes hle (fun i => ?_) ?_
      · simp only [Traced.bind_reads, Traced.read_reads, Traced.read_value, hcore, hsame, hreads,
          List.mem_append, List.mem_singleton, mem_range'_header (Nat.le_of_add_right_le hle)]
        omega
      · simp only [Traced.bind_value, Traced.read_value, hcore, hsame, hvalue]

/-- A state as `sl_compress_setup` leaves it, with a header received since. -/
def oneState : Slcompress := ⟨0, false, fun _ => ⟨40, fun i => if i = 0 then 0x45 else 0⟩⟩

/-- A packet of one byte announces a new acknowledgement number: three bytes behind it are read. -/
theorem sl_uncompress_tcp_core_overread :
    ¬ ReadsWithin (sl_uncompress_tcp_core .little (fun i => if i = 0 then NEW_A else 1) 1 1
      TYPE_COMPRESSED_TCP oneState) 1 := by
  intro h
  have hread : 3 ∈ (sl_uncompress_tcp_core .little (fun i => if i = 0 then NEW_A else 1) 1 1
      TYPE_COMPRESSED_TCP oneState).reads := by
    decide +kernel
  exact absurd (h.1 3 hread) (by decide)

end Packet

end OpenbsdKernel.Vjc.Core
