import OpenbsdKernel.Netinet.Tcp.Reass

/-!
# The receiver gives the stream to the socket

Segments of a stream, in any order, overlapping and repeated: the queue holds pieces of the
stream that lie ahead of `rcv_nxt`, in order and apart, and the socket has got all before it.
-/
namespace OpenbsdKernel.TcpInput

open SeqNum Reassembly

/-- The queue as pieces, with offsets counted from `rcv_nxt`. -/
def segs (rcv_nxt : Seq) : Pieces Tcpqent :=
  ⟨fun q => ahead rcv_nxt q.tcpqe_tcp.th_seq, fun q => q.tcpqe_tcp.th_reseqlen.toNat, Tcpqent.cut⟩

/-- A part of a stream. -/
def bytes (stream : ℕ → BitVec 8) (pos len : ℕ) : Mbuf := (List.range' pos len).map stream

/-- The segment is at most half the circle ahead and has the data of the stream; `pos` is the
place of `rcv_nxt` in it. -/
structure OfStream (stream : ℕ → BitVec 8) (pos : ℕ) (rcv_nxt : Seq) (q : Tcpqent) : Prop where
  near : (segs rcv_nxt).fin q < 2 ^ 31
  data : q.tcpqe_m = bytes stream (pos + (segs rcv_nxt).off q) ((segs rcv_nxt).len q)

/-- The entry made for a segment. -/
def entry (th : Tcphdr) (m : Mbuf) (tlen : ℕ) : Tcpqent :=
  ⟨{ th with th_reseqlen := BitVec.ofNat 16 tlen }, m⟩

section Segments

variable {stream : ℕ → BitVec 8} {pos tlen i : ℕ} {rcv_nxt : Seq} {e p q : Tcpqent}
  {th : Tcphdr} {m : Mbuf} {segq : List Tcpqent}

theorem bytes_append (stream : ℕ → BitVec 8) (pos a b : ℕ) :
    bytes stream pos a ++ bytes stream (pos + a) b = bytes stream pos (a + b) := by
  rw [bytes, bytes, bytes, ← List.map_append, List.range'_append_1]

theorem bytes_drop (stream : ℕ → BitVec 8) (pos len i : ℕ) :
    (bytes stream pos len).drop i = bytes stream (pos + i) (len - i) := by
  rw [bytes, bytes, ← List.map_drop, List.drop_range', Nat.mul_one]

theorem reseqlen_eq (q : Tcpqent) : q.reseqlen = BitVec.ofNat 32 q.tcpqe_tcp.th_reseqlen.toNat := by
  rw [BitVec.ofNat_toNat, Tcpqent.reseqlen]

theorem segs_lawful (stream : ℕ → BitVec 8) (pos : ℕ) (rcv_nxt : Seq) :
    (segs rcv_nxt).Lawful (OfStream stream pos rcv_nxt) := by
  have hoff : ∀ {e i}, OfStream stream pos rcv_nxt e → i < (segs rcv_nxt).len e →
      (segs rcv_nxt).off ((segs rcv_nxt).cut i e) = (segs rcv_nxt).off e + i := by
    intro e i h hi
    have hnear := h.near
    rw [Pieces.fin] at hnear
    exact ahead_add (by
      simp only [segs] at hi hnear
      omega)
  have hlen : ∀ {e i}, i < (segs rcv_nxt).len e →
      (segs rcv_nxt).len ((segs rcv_nxt).cut i e) = (segs rcv_nxt).len e - i := by
    intro e i hi
    have hlt := e.tcpqe_tcp.th_reseqlen.isLt
    simp only [segs, Tcpqent.cut] at hi ⊢
    rw [BitVec.toNat_sub, BitVec.toNat_ofNat]
    omega
  refine ⟨hoff, fun _ hi => hlen hi, ?_⟩
  intro e i h hi
  have hnear := h.near
  refine ⟨?_, ?_⟩
  · rw [Pieces.fin] at hnear ⊢
    rw [hoff h hi, hlen hi]
    omega
  · rw [hoff h hi, hlen hi, ← Nat.add_assoc, ← bytes_drop, ← h.data]
    rfl

theorem seqGt_iff (hq : OfStream stream pos rcv_nxt q) (he : OfStream stream pos rcv_nxt e) :
    SEQ_GT q.tcpqe_tcp.th_seq e.tcpqe_tcp.th_seq = true ↔ (segs rcv_nxt).off e < (segs rcv_nxt).off q := by
  have hq' := hq.near
  have he' := he.near
  simp only [Pieces.fin, segs] at hq' he'
  rw [SEQ_GT, decide_eq_true_iff, toInt_sub (n := rcv_nxt) (by omega) (by omega)]
  simp only [segs]
  omega

theorem before_eq (hsegq : ∀ q ∈ segq, OfStream stream pos rcv_nxt q)
    (he : OfStream stream pos rcv_nxt e) :
    (segq.takeWhile fun q => !SEQ_GT q.tcpqe_tcp.th_seq e.tcpqe_tcp.th_seq) =
      (segs rcv_nxt).before e segq ∧
    (segq.dropWhile fun q => !SEQ_GT q.tcpqe_tcp.th_seq e.tcpqe_tcp.th_seq) =
      (segs rcv_nxt).after e segq := by
  induction segq with
  | nil => exact ⟨rfl, rfl⟩
  | cons q segq ih =>
    have hgt := seqGt_iff (hsegq q (by simp)) he
    obtain ⟨htake, hdrop⟩ := ih fun q hq => hsegq q (by simp [hq])
    by_cases hlt : (segs rcv_nxt).off e < (segs rcv_nxt).off q
    · simp [Pieces.before, Pieces.after, hgt.2 hlt, hlt]
    · have hfalse : SEQ_GT q.tcpqe_tcp.th_seq e.tcpqe_tcp.th_seq = false := by
        rw [Bool.eq_false_iff, ne_eq, hgt]
        exact hlt
      simp only [Pieces.before, Pieces.after] at htake hdrop ⊢
      simp [hfalse, not_lt.1 hlt, htake, hdrop]

theorem ahead_fin (hq : OfStream stream pos rcv_nxt q) :
    ahead rcv_nxt (q.tcpqe_tcp.th_seq + BitVec.ofNat 32 q.tcpqe_tcp.th_reseqlen.toNat) =
      (segs rcv_nxt).fin q := by
  have hnear := hq.near
  exact ahead_add (by
    simp only [Pieces.fin, segs] at hnear
    omega)

theorem toInt_fin_sub (hq : OfStream stream pos rcv_nxt q) (he : OfStream stream pos rcv_nxt e) :
    (q.tcpqe_tcp.th_seq + BitVec.ofNat 32 q.tcpqe_tcp.th_reseqlen.toNat - e.tcpqe_tcp.th_seq).toInt =
      ((segs rcv_nxt).fin q : ℤ) - (segs rcv_nxt).off e := by
  have hq' := hq.near
  have he' := he.near
  have hlt : ahead rcv_nxt e.tcpqe_tcp.th_seq < 2 ^ 31 := by
    simp only [Pieces.fin, segs] at he'
    omega
  rw [toInt_sub (n := rcv_nxt) (by rwa [ahead_fin hq]) hlt, ahead_fin hq]
  rfl

theorem trimSucceeding_eq (he : OfStream stream pos rcv_nxt e)
    (hsegq : ∀ q ∈ segq, OfStream stream pos rcv_nxt q) :
    trimSucceeding (e.tcpqe_tcp.th_seq + BitVec.ofNat 32 e.tcpqe_tcp.th_reseqlen.toNat) segq =
      (segs rcv_nxt).trimAfter e segq := by
  induction segq with
  | nil => rfl
  | cons q segq ih =>
    have hi := toInt_fin_sub he (hsegq q (by simp))
    have hrest := ih fun q hq => hsegq q (by simp [hq])
    by_cases hle : (segs rcv_nxt).fin e ≤ (segs rcv_nxt).off q
    · rw [Pieces.trimAfter_stop hle, trimSucceeding]
      simp only [hi]
      rw [if_pos (by omega)]
    have hnat : ((segs rcv_nxt).fin e : ℤ) - (segs rcv_nxt).off q =
        ((segs rcv_nxt).fin e - (segs rcv_nxt).off q : ℕ) := by omega
    by_cases hcut : (segs rcv_nxt).fin e - (segs rcv_nxt).off q < (segs rcv_nxt).len q
    · have hlt : ((segs rcv_nxt).fin e - (segs rcv_nxt).off q : ℕ) < q.tcpqe_tcp.th_reseqlen.toNat :=
        hcut
      rw [Pieces.trimAfter_cut (not_le.1 hle) hcut, trimSucceeding]
      simp only [hi, hnat]
      rw [if_neg (by omega), if_pos (by exact_mod_cast hlt)]
      rfl
    · have hge : q.tcpqe_tcp.th_reseqlen.toNat ≤ ((segs rcv_nxt).fin e - (segs rcv_nxt).off q : ℕ) :=
        not_lt.1 hcut
      rw [Pieces.trimAfter_drop (not_le.1 hle) (not_lt.1 hcut), trimSucceeding]
      simp only [hi, hnat]
      rw [if_neg (by omega), if_neg (by exact_mod_cast hge.not_gt), hrest]

theorem dropProvided_cases (he : OfStream stream pos rcv_nxt (entry th m tlen)) (hlen : tlen < 2 ^ 16)
    {last : Option Tcpqent} (hlast : ∀ p ∈ last, OfStream stream pos rcv_nxt p) :
    (dropProvided th m tlen last = none ∧ (segs rcv_nxt).trimFront (entry th m tlen) last = none) ∨
    ∃ th' m' tlen', dropProvided th m tlen last = some (th', m', tlen') ∧ tlen' < 2 ^ 16 ∧
      (segs rcv_nxt).trimFront (entry th m tlen) last = some (entry th' m' tlen') := by
  cases last with
  | none => exact .inr ⟨th, m, tlen, rfl, hlen, rfl⟩
  | some p =>
    have hi := toInt_fin_sub (hlast p rfl) he
    have hlen' : (segs rcv_nxt).len (entry th m tlen) = tlen := by
      simp only [segs, entry, BitVec.toNat_ofNat]
      omega
    simp only [dropProvided, reseqlen_eq, Pieces.trimFront]
    rw [show th.th_seq = (entry th m tlen).tcpqe_tcp.th_seq from rfl, hi]
    generalize hoff : (segs rcv_nxt).off (entry th m tlen) = off
    by_cases hle : (segs rcv_nxt).fin p ≤ off
    · rw [if_pos hle, if_neg (by omega)]
      exact .inr ⟨th, m, tlen, rfl, hlen, rfl⟩
    have hnat : ((segs rcv_nxt).fin p : ℤ) - off = ((segs rcv_nxt).fin p - off : ℕ) := by omega
    rw [if_neg hle, if_pos (by omega), hlen', hnat]
    by_cases hall : tlen ≤ (segs rcv_nxt).fin p - off
    · rw [if_pos hall, if_pos (by exact_mod_cast hall)]
      exact .inl ⟨rfl, rfl⟩
    · rw [if_neg hall, if_neg (by exact_mod_cast hall)]
      refine .inr ⟨_, _, _, rfl, ?_, ?_⟩
      · simp only [Int.toNat_natCast]
        omega
      · have hsub : BitVec.ofNat 16 tlen - BitVec.ofNat 16 ((segs rcv_nxt).fin p - off) =
            BitVec.ofNat 16 (tlen - ((segs rcv_nxt).fin p - off)) := by
          apply BitVec.eq_of_toNat_eq
          simp only [BitVec.toNat_sub, BitVec.toNat_ofNat]
          omega
        simpa [segs, Tcpqent.cut, entry] using hsub

end Segments

/-- The queue: pieces of the stream ahead of `rcv_nxt`, in order and apart. -/
structure Sequenced (stream : ℕ → BitVec 8) (pos : ℕ) (rcv_nxt : Seq) (segq : List Tcpqent) :
    Prop where
  ordered : (segs rcv_nxt).Ordered segq
  ofStream : ∀ q ∈ segq, OfStream stream pos rcv_nxt q

section Flush

variable {stream : ℕ → BitVec 8} {pos tlen N : ℕ} {rcv_nxt : Seq} {q : Tcpqent}
  {th : Tcphdr} {m so_rcv : Mbuf} {flags : BitVec 8} {segq : List Tcpqent} {tp : Tcpcb}

theorem Sequenced.sublist {segq' : List Tcpqent} (h : Sequenced stream pos rcv_nxt segq)
    (hsub : segq'.Sublist segq) : Sequenced stream pos rcv_nxt segq' :=
  ⟨h.ordered.sublist hsub, fun q hq => h.ofStream q (hsub.subset hq)⟩

theorem Sequenced.advance (h : Sequenced stream pos rcv_nxt (q :: segq))
    (hq : q.tcpqe_tcp.th_seq = rcv_nxt) :
    Sequenced stream (pos + (segs rcv_nxt).len q) (rcv_nxt + q.reseqlen) segq ∧
    ∀ r ∈ segq, (segs (rcv_nxt + q.reseqlen)).fin r + (segs rcv_nxt).len q = (segs rcv_nxt).fin r := by
  obtain ⟨hfirst, hord⟩ := List.pairwise_cons.1 h.ordered
  have hq0 : (segs rcv_nxt).off q = 0 := ahead_eq_zero.2 hq
  have hoff : ∀ r ∈ segq, (segs (rcv_nxt + q.reseqlen)).off r + (segs rcv_nxt).len q =
      (segs rcv_nxt).off r := by
    intro r hr
    have hle := hfirst r hr
    rw [Pieces.fin, hq0, Nat.zero_add] at hle
    have hbase := ahead_base_add (n := rcv_nxt) hle
    simp only [segs, reseqlen_eq] at hle hbase ⊢
    rw [hbase]
    omega
  have hlen : ∀ r, (segs (rcv_nxt + q.reseqlen)).len r = (segs rcv_nxt).len r := fun _ => rfl
  have hfin : ∀ r ∈ segq, (segs (rcv_nxt + q.reseqlen)).fin r + (segs rcv_nxt).len q =
      (segs rcv_nxt).fin r := by
    intro r hr
    have hr' := hoff r hr
    rw [Pieces.fin, Pieces.fin, hlen]
    omega
  refine ⟨⟨?_, ?_⟩, hfin⟩
  · refine hord.imp_of_mem ?_
    intro a b ha hb hab
    have ha' := hfin a ha
    have hb' := hoff b hb
    omega
  · intro r hr
    obtain ⟨hnear, hdata⟩ := h.ofStream r (by simp [hr])
    have hr' := hfin r hr
    refine ⟨by omega, ?_⟩
    rw [hdata, hlen, ← hoff r hr]
    congr 1
    omega

theorem flushLoop_spec (cantrcvmore : Bool) (so_rcv : Mbuf) (flags : BitVec 8)
    (h : Sequenced stream pos rcv_nxt segq) (hN : ∀ q ∈ segq, (segs rcv_nxt).fin q ≤ N) :
    ∃ k ≤ N, (flushLoop cantrcvmore rcv_nxt so_rcv flags segq).1 = rcv_nxt + BitVec.ofNat 32 k ∧
      (flushLoop cantrcvmore rcv_nxt so_rcv flags segq).2.1 =
        (if cantrcvmore then so_rcv else so_rcv ++ bytes stream pos k) ∧
      Sequenced stream (pos + k) (rcv_nxt + BitVec.ofNat 32 k)
        (flushLoop cantrcvmore rcv_nxt so_rcv flags segq).2.2.2 := by
  induction segq generalizing pos rcv_nxt so_rcv flags N with
  | nil =>
    refine ⟨0, Nat.zero_le _, by simp [flushLoop], by simp [flushLoop, bytes], ?_⟩
    simpa [flushLoop] using h
  | cons q segq ih =>
    by_cases hq : q.tcpqe_tcp.th_seq = rcv_nxt
    · obtain ⟨hadv, hfin⟩ := h.advance hq
      have hqN := hN q (by simp)
      rw [Pieces.fin] at hqN
      obtain ⟨k, hk, hnxt, hrcv, hseq⟩ := ih (N := N - (segs rcv_nxt).len q)
        (if cantrcvmore then so_rcv else so_rcv ++ q.tcpqe_m) (q.tcpqe_tcp.th_flags &&& TH_FIN) hadv (by
          intro r hr
          have h1 := hfin r hr
          have h2 := hN r (by simp [hr])
          omega)
      have hsum : rcv_nxt + q.reseqlen + BitVec.ofNat 32 k =
          rcv_nxt + BitVec.ofNat 32 ((segs rcv_nxt).len q + k) := by
        rw [reseqlen_eq, BitVec.add_assoc, ← BitVec.ofNat_add]
        rfl
      have hdata : q.tcpqe_m = bytes stream pos ((segs rcv_nxt).len q) := by
        have := (h.ofStream q (by simp)).data
        rwa [show (segs rcv_nxt).off q = 0 from ahead_eq_zero.2 hq] at this
      refine ⟨(segs rcv_nxt).len q + k, by omega, ?_⟩
      rw [flushLoop, if_pos hq, ← hsum, ← Nat.add_assoc]
      refine ⟨hnxt, ?_, hseq⟩
      rw [hrcv]
      split
      · rfl
      · rw [hdata, List.append_assoc, bytes_append]
    · refine ⟨0, Nat.zero_le _, ?_⟩
      rw [flushLoop, if_neg hq]
      refine ⟨by simp, by simp [bytes], ?_⟩
      simpa using h

/-- What a call makes of the connection: `rcv_nxt` advances by `k`, the socket gets that part of
the stream, and the queue lies ahead. -/
structure Advances (stream : ℕ → BitVec 8) (pos k : ℕ) (tp tp' : Tcpcb) : Prop where
  lt : k < 2 ^ 31
  rcv_nxt : tp'.rcv_nxt = tp.rcv_nxt + BitVec.ofNat 32 k
  so_rcv : tp'.so_rcv =
    if tp.so_cantrcvmore then tp.so_rcv else tp.so_rcv ++ bytes stream pos k
  cantrcvmore : tp'.so_cantrcvmore = tp.so_cantrcvmore
  sequenced : Sequenced stream (pos + k) tp'.rcv_nxt tp'.t_segq

theorem Advances.queue (tp : Tcpcb) (h : Sequenced stream pos tp.rcv_nxt segq) :
    Advances stream pos 0 tp { tp with t_segq := segq } :=
  ⟨by decide, by simp, by simp [bytes], rfl, h⟩

theorem tcpFlushQueue_advances (tp : Tcpcb) (h : Sequenced stream pos tp.rcv_nxt tp.t_segq) :
    ∃ k, Advances stream pos k tp (tcpFlushQueue tp).2 := by
  have hsame : Advances stream pos 0 tp tp := Advances.queue tp h
  obtain ⟨k, hk, hnxt, hrcv, hseq⟩ := flushLoop_spec tp.so_cantrcvmore tp.so_rcv 0
    (N := 2 ^ 31 - 1) h fun q hq => by
      have := (h.ofStream q hq).near
      omega
  unfold tcpFlushQueue
  split
  · exact ⟨0, hsame⟩
  split
  · exact ⟨0, hsame⟩
  split
  · exact ⟨0, hsame⟩
  split
  · exact ⟨0, hsame⟩
  · rw [← hnxt] at hseq
    exact ⟨k, by omega, hnxt, hrcv, rfl, hseq⟩

theorem flush_after_insert (tp : Tcpcb) (h : Sequenced stream pos tp.rcv_nxt segq) :
    ∃ k, Advances stream pos k tp (tcpFlushQueue { tp with t_segq := segq }).2 := by
  obtain ⟨k, hk⟩ := tcpFlushQueue_advances { tp with t_segq := segq } h
  exact ⟨k, hk.lt, hk.rcv_nxt, hk.so_rcv, hk.cantrcvmore, hk.sequenced⟩

theorem tcpReassEntry_advances (tp : Tcpcb) (h : Sequenced stream pos tp.rcv_nxt tp.t_segq)
    (he : OfStream stream pos tp.rcv_nxt (entry th m tlen)) (hlen : tlen < 2 ^ 16) :
    ∃ k, Advances stream pos k tp (tcpReassEntry tp th m tlen).2 := by
  obtain ⟨hbefore, hafter⟩ := before_eq h.ofStream he
  have hlaw := segs_lawful stream pos tp.rcv_nxt
  have hlast : ∀ p ∈ ((segs tp.rcv_nxt).before (entry th m tlen) tp.t_segq).getLast?,
      OfStream stream pos tp.rcv_nxt p := fun p hp =>
    h.ofStream p (Pieces.mem_of_mem_before (List.mem_of_getLast? hp))
  unfold tcpReassEntry
  rw [show th.th_seq = (entry th m tlen).tcpqe_tcp.th_seq from rfl]
  simp only [hbefore, hafter]
  obtain ⟨hdrop, -⟩ | ⟨th', m', tlen', hdrop, hlen', htrim⟩ := dropProvided_cases he hlen hlast
  · rw [hdrop]
    exact ⟨0, Advances.queue tp h⟩
  · have hpl := hlaw.placed he h.ordered htrim
    have hins : (segs tp.rcv_nxt).insert (entry th m tlen) tp.t_segq =
        some ((segs tp.rcv_nxt).before (entry th m tlen) tp.t_segq ++ entry th' m' tlen' ::
          (segs tp.rcv_nxt).trimAfter (entry th' m' tlen')
            ((segs tp.rcv_nxt).after (entry th m tlen) tp.t_segq)) := by
      rw [Pieces.insert, htrim]
      rfl
    obtain ⟨hord, hok⟩ := hlaw.insert_ordered h.ofStream he h.ordered hins
    have hfin : th'.th_seq + BitVec.ofNat 32 tlen' = (entry th' m' tlen').tcpqe_tcp.th_seq +
        BitVec.ofNat 32 (entry th' m' tlen').tcpqe_tcp.th_reseqlen.toNat := by
      rw [entry, BitVec.toNat_ofNat, Nat.mod_eq_of_lt hlen']
    have htrim' := trimSucceeding_eq hpl.ok fun q
      (hq : q ∈ (segs tp.rcv_nxt).after (entry th m tlen) tp.t_segq) =>
        h.ofStream q (Pieces.mem_of_mem_after hq)
    simp only [hdrop, hfin, htrim']
    have hseq : Sequenced stream pos tp.rcv_nxt _ := ⟨hord, hok⟩
    split
    · exact ⟨0, Advances.queue tp hseq⟩
    · exact flush_after_insert tp hseq

theorem tcpReass_advances (alloc : Bool) (h : Sequenced stream pos tp.rcv_nxt tp.t_segq)
    (he : OfStream stream pos tp.rcv_nxt (entry th m tlen)) (hlen : tlen < 2 ^ 16) :
    ∃ k, Advances stream pos k tp (tcpReass alloc tp th m tlen).2 := by
  unfold tcpReass
  split
  · exact tcpReassEntry_advances tp h he hlen
  split
  · -- the entry of the last segment is taken for the new one
    obtain ⟨k, hk⟩ := tcpReassEntry_advances { tp with t_segq := tp.t_segq.dropLast }
      (h.sublist (List.dropLast_sublist _)) he hlen
    exact ⟨k, hk.lt, hk.rcv_nxt, hk.so_rcv, hk.cantrcvmore, hk.sequenced⟩
  · exact ⟨0, Advances.queue tp (h.sublist (List.nil_sublist _))⟩

end Flush

/-- A connection and how far it has advanced in the stream. `tcp_reass` gets segments that agree
with the stream, are not behind `rcv_nxt` and fit the 16 bits for their length; the state of the
connection may change at any time, and the socket may be shut. -/
inductive Run (stream : ℕ → BitVec 8) (rcv_nxt : Seq) : Tcpcb → ℕ → Prop
  | start (t_state : TcpState) : Run stream rcv_nxt ⟨[], t_state, rcv_nxt, false, []⟩ 0
  | reass {tp : Tcpcb} {pos : ℕ} (alloc : Bool) (th : Tcphdr) (m : Mbuf) :
      Run stream rcv_nxt tp pos → m.length < 2 ^ 16 → ahead tp.rcv_nxt th.th_seq + m.length < 2 ^ 31 →
      m = bytes stream (pos + ahead tp.rcv_nxt th.th_seq) m.length →
      Run stream rcv_nxt (tcpReass alloc tp th m m.length).2
        (pos + ahead tp.rcv_nxt (tcpReass alloc tp th m m.length).2.rcv_nxt)
  | flush {tp : Tcpcb} {pos : ℕ} : Run stream rcv_nxt tp pos →
      Run stream rcv_nxt (tcpFlushQueue tp).2 (pos + ahead tp.rcv_nxt (tcpFlushQueue tp).2.rcv_nxt)
  | state {tp : Tcpcb} {pos : ℕ} (t_state : TcpState) : Run stream rcv_nxt tp pos →
      Run stream rcv_nxt { tp with t_state := t_state } pos
  | shut {tp : Tcpcb} {pos : ℕ} : Run stream rcv_nxt tp pos →
      Run stream rcv_nxt { tp with so_cantrcvmore := true } pos

/-- What holds after every call. -/
structure Received (stream : ℕ → BitVec 8) (rcv_nxt : Seq) (tp : Tcpcb) (pos : ℕ) : Prop where
  rcv_nxt : tp.rcv_nxt = rcv_nxt + BitVec.ofNat 32 pos
  sequenced : Sequenced stream pos tp.rcv_nxt tp.t_segq
  so_rcv : ∃ k ≤ pos, tp.so_rcv = bytes stream 0 k ∧ (tp.so_cantrcvmore = false → k = pos)

section Runs

variable {stream : ℕ → BitVec 8} {rcv_nxt : Seq} {tp tp' : Tcpcb} {pos k : ℕ}

theorem Received.advance (h : Received stream rcv_nxt tp pos) (ha : Advances stream pos k tp tp') :
    Received stream rcv_nxt tp' (pos + ahead tp.rcv_nxt tp'.rcv_nxt) := by
  have hk : ahead tp.rcv_nxt tp'.rcv_nxt = k := by
    have hlt := ha.lt
    have hadd := ahead_add (n := tp.rcv_nxt) (a := tp.rcv_nxt) (i := k) (by
      rw [ahead_self]
      omega)
    rw [ha.rcv_nxt, hadd, ahead_self, Nat.zero_add]
  rw [hk]
  refine ⟨?_, ha.sequenced, ?_⟩
  · rw [ha.rcv_nxt, h.rcv_nxt, BitVec.add_assoc, ← BitVec.ofNat_add]
  · obtain ⟨j, hj, hrcv, hall⟩ := h.so_rcv
    rw [ha.so_rcv, ha.cantrcvmore]
    cases hmore : tp.so_cantrcvmore with
    | true => exact ⟨j, by omega, hrcv, nofun⟩
    | false =>
      have happ := bytes_append stream 0 pos k
      rw [Nat.zero_add] at happ
      refine ⟨pos + k, le_rfl, ?_, fun _ => rfl⟩
      rw [hrcv, hall hmore, ← happ]
      rfl

theorem Run.received (h : Run stream rcv_nxt tp pos) : Received stream rcv_nxt tp pos := by
  induction h with
  | start t_state => exact ⟨by simp, ⟨List.Pairwise.nil, by simp⟩, 0, le_rfl, rfl, fun _ => rfl⟩
  | @reass tp pos alloc th m _ hlen hnear hdata ih =>
    have hlen' : (BitVec.ofNat 16 m.length).toNat = m.length := by
      rw [BitVec.toNat_ofNat, Nat.mod_eq_of_lt hlen]
    have he : OfStream stream pos tp.rcv_nxt (entry th m m.length) := by
      refine ⟨?_, ?_⟩
      · simpa [Pieces.fin, segs, entry, hlen'] using hnear
      · simpa [segs, entry, hlen'] using hdata
    obtain ⟨k, hk⟩ := tcpReass_advances alloc ih.sequenced he hlen
    exact ih.advance hk
  | @flush tp pos _ ih =>
    obtain ⟨k, hk⟩ := tcpFlushQueue_advances tp ih.sequenced
    exact ih.advance hk
  | state t_state _ ih => exact ⟨ih.rcv_nxt, ih.sequenced, ih.so_rcv⟩
  | shut _ ih =>
    obtain ⟨k, hk, hrcv, -⟩ := ih.so_rcv
    exact ⟨ih.rcv_nxt, ih.sequenced, k, hk, hrcv, by rintro ⟨⟩⟩

theorem flushLoop_shut (rcv_nxt : Seq) (so_rcv : Mbuf) (flags : BitVec 8) (segq : List Tcpqent) :
    (flushLoop true rcv_nxt so_rcv flags segq).2.1 = so_rcv := by
  induction segq generalizing rcv_nxt flags with
  | nil => rfl
  | cons q segq ih =>
    rw [flushLoop]
    split
    · exact ih _ _
    · rfl

theorem tcpFlushQueue_shut (tp : Tcpcb) (h : tp.so_cantrcvmore = true) :
    (tcpFlushQueue tp).2.so_rcv = tp.so_rcv := by
  unfold tcpFlushQueue
  split
  · rfl
  split
  · rfl
  split
  · rfl
  split
  · rfl
  · rw [h]
    exact flushLoop_shut _ _ _ _

theorem tcpReass_shut (alloc : Bool) (th : Tcphdr) (m : Mbuf) (tlen : ℕ) (tp : Tcpcb)
    (h : tp.so_cantrcvmore = true) : (tcpReass alloc tp th m tlen).2.so_rcv = tp.so_rcv := by
  have hentry : ∀ segq : List Tcpqent,
      (tcpReassEntry { tp with t_segq := segq } th m tlen).2.so_rcv = tp.so_rcv := by
    intro segq
    unfold tcpReassEntry
    dsimp only
    split
    · rfl
    split
    · rfl
    · exact tcpFlushQueue_shut _ h
  unfold tcpReass
  split
  · exact hentry tp.t_segq
  split
  · exact hentry tp.t_segq.dropLast
  · rfl

/-- Along every run the queue is in order and apart, ahead of `rcv_nxt`, and the socket has got
the stream up to `rcv_nxt`, or up to where it was shut. -/
theorem stream_received (h : Run stream rcv_nxt tp pos) :
    tp.rcv_nxt = rcv_nxt + BitVec.ofNat 32 pos ∧
    tp.t_segq.Pairwise (fun a b => ahead tp.rcv_nxt a.tcpqe_tcp.th_seq +
      a.tcpqe_tcp.th_reseqlen.toNat ≤ ahead tp.rcv_nxt b.tcpqe_tcp.th_seq) ∧
    (∀ q ∈ tp.t_segq,
      ahead tp.rcv_nxt q.tcpqe_tcp.th_seq + q.tcpqe_tcp.th_reseqlen.toNat < 2 ^ 31) ∧
    (∃ k ≤ pos, tp.so_rcv = (List.range k).map stream ∧ (tp.so_cantrcvmore = false → k = pos)) ∧
    (tp.so_cantrcvmore = true → (tcpFlushQueue tp).2.so_rcv = tp.so_rcv ∧
      ∀ alloc th m tlen, (tcpReass alloc tp th m tlen).2.so_rcv = tp.so_rcv) := by
  obtain ⟨hnxt, hseq, k, hk, hrcv, hall⟩ := h.received
  refine ⟨hnxt, hseq.ordered, fun q hq => (hseq.ofStream q hq).near, ⟨k, hk, ?_, hall⟩, ?_⟩
  · rw [hrcv, bytes, List.range_eq_range']
  · intro hshut
    exact ⟨tcpFlushQueue_shut tp hshut, fun alloc th m tlen => tcpReass_shut alloc th m tlen tp hshut⟩

/-- Two segments out of order, the later one first. -/
theorem stream_received_two : Run (fun n => BitVec.ofNat 8 n) 0xffffffff#32
    ⟨[], .ESTABLISHED, 0x00000002#32, false, [0#8, 1#8, 2#8]⟩ 3 ∧
    ∃ k ≤ 3, [0#8, 1#8, 2#8] = (List.range k).map fun n => BitVec.ofNat 8 n := by
  have hrun : Run (fun n => BitVec.ofNat 8 n) 0xffffffff#32
      ⟨[], .ESTABLISHED, 0x00000002#32, false, [0#8, 1#8, 2#8]⟩ 3 :=
    Run.reass true ⟨0xffffffff#32, 0x10#8, 0#16⟩ [0#8, 1#8]
      (Run.reass true ⟨0x00000001#32, 0x10#8, 0#16⟩ [2#8] (Run.start .ESTABLISHED)
        (by decide) (by decide) (by decide)) (by decide) (by decide) (by decide)
  obtain ⟨-, -, -, ⟨k, hk, hrcv, -⟩, -⟩ := stream_received hrun
  exact ⟨hrun, k, hk, hrcv⟩

/-- A socket that is shut does not get the bytes `rcv_nxt` advances over. -/
theorem shut_not_received : ¬ ∀ (stream : ℕ → BitVec 8) (rcv_nxt : Seq) (tp : Tcpcb) (pos : ℕ),
    Run stream rcv_nxt tp pos → tp.so_rcv = (List.range pos).map stream := by
  intro h
  have hrun : Run (fun _ => 7#8) 0#32 ⟨[], .ESTABLISHED, 1#32, true, []⟩ 1 :=
    Run.reass true ⟨0#32, 0x10#8, 0#16⟩ [7#8] (Run.shut (Run.start .ESTABLISHED))
      (by decide) (by decide) (by decide)
  have hrcv := h _ _ _ _ hrun
  simp at hrcv

end Runs

end OpenbsdKernel.TcpInput
