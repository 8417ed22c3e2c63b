import OpenbsdKernel.Netinet.Tcp.SackReport

/-!
# What the SACK report tells

The bytes of the stream have places that do not wrap around. A segment without data, which a FIN
ahead of its time is, is reported as an empty block; a block that `rcv_nxt` stops in stays as it
is; and a segment around `rcv_nxt` is reported when there are blocks already. Where none of this
happens, the report is as it should be.
-/
namespace OpenbsdKernel.TcpSack

open SeqNum

/-- `rcv_nxt` moves by `adv`, then the report is updated for the segment of `len` bytes at `off`
behind the old `rcv_nxt`, or cleaned. -/
inductive Report
  | update (adv off len : ℕ)
  | clean (adv : ℕ)
  deriving DecidableEq, Repr

def Receiver.advance (tp : Receiver) (adv : ℕ) : Receiver :=
  { tp with rcv_nxt := tp.rcv_nxt + BitVec.ofNat 32 adv }

def Receiver.step (tp : Receiver) : Report → Receiver
  | .update adv off len => tcpUpdateSackList (tp.advance adv) (tp.rcv_nxt + BitVec.ofNat 32 off)
      (tp.rcv_nxt + BitVec.ofNat 32 off + BitVec.ofNat 32 len)
  | .clean adv => (tcpCleanSackreport tp).advance adv

/-- What the receiver knows of the stream: the place of `rcv_nxt`, the bytes received so far, and
the last segment that was out of order. -/
structure Stream where
  nxt : ℤ
  received : Set ℤ
  recent : Option Block

def Stream.step (st : Stream) : Report → Stream
  | .update adv off len =>
    let seg : Block := ⟨st.nxt + off, st.nxt + off + len⟩
    ⟨st.nxt + adv, st.received ∪ seg.bytes, if st.nxt + adv < seg.lo then some seg else st.recent⟩
  | .clean adv => { st with nxt := st.nxt + adv }

/-- Blocks that may be reported: few, not empty, beyond `rcv_nxt`, apart from each other, of bytes
that were received, and with the last segment that was out of order in the first one. -/
structure Stream.Reportable (st : Stream) (blocks : List Block) : Prop where
  length : blocks.length ≤ MAX_SACK_BLKS
  within : ∀ b ∈ blocks, b.Within st.nxt
  apart : blocks.Pairwise Block.Apart
  received : ∀ b ∈ blocks, b.bytes ⊆ st.received
  first : ∀ seg, st.recent = some seg → st.nxt < seg.lo →
    ∃ b, blocks.head? = some b ∧ b.lo ≤ seg.lo ∧ seg.hi ≤ b.hi

/-- The report is one of such blocks. -/
structure Reports (st : Stream) (tp : Receiver) (blocks : List Block) : Prop extends
    st.Reportable blocks where
  rcv_nxt : tp.rcv_nxt = ofInt st.nxt
  sackblks : tp.sackblks = blocks.map Block.sackblk

/-- What the segments and the moves of `rcv_nxt` have to be like. All of it is less than half the
circle ahead, as the receive window is; a segment has data and, with blocks left, is not around
`rcv_nxt`, which does not stop in a block; and the report is cleaned when nothing is out of order. -/
def Report.Fair (tp : Receiver) (st : Stream) : Report → Prop
  | .update adv off len =>
    let nxt := tp.rcv_nxt + BitVec.ofNat 32 adv
    let start := tp.rcv_nxt + BitVec.ofNat 32 off
    adv < 2 ^ 31 ∧ off + len < 2 ^ 31 ∧ 0 < len ∧
      (∀ sack ∈ tp.sackblks, SEQ_LT nxt sack.start ∨ SEQ_LEQ sack.fin nxt) ∧
      (cleanUp nxt tp.sackblks ≠ [] → SEQ_LT nxt start ∨ SEQ_GEQ nxt (start + BitVec.ofNat 32 len))
  | .clean adv => adv < 2 ^ 31 ∧ ∀ seg, st.recent = some seg → seg.lo ≤ st.nxt

section Step

variable {st : Stream} {tp : Receiver} {blocks : List Block} {adv off len : ℕ}

def Stream.Full (st : Stream) : Prop := ∀ seg, st.recent = some seg → seg.lo < seg.hi

theorem Stream.Reportable.advance (h : st.Reportable blocks) (hst : st.Full)
    (hstop : ∀ b ∈ blocks, st.nxt + adv < b.lo ∨ b.hi ≤ st.nxt + adv) :
    Stream.Reportable { st with nxt := st.nxt + adv } (blocks.filter fun b => st.nxt + adv < b.hi) := by
  have hmem : ∀ b ∈ blocks.filter fun b => st.nxt + adv < b.hi, b ∈ blocks ∧ st.nxt + adv < b.hi := by
    intro b hb
    simpa using hb
  refine ⟨(List.length_filter_le _ _).trans h.length, ?_, h.apart.sublist List.filter_sublist, ?_, ?_⟩
  · intro b hb
    obtain ⟨hb, hhi⟩ := hmem b hb
    obtain ⟨h1, h2, h3⟩ := h.within b hb
    exact ⟨h1, (hstop b hb).resolve_right hhi.not_ge, by simp only; omega⟩
  · exact fun b hb => h.received b (hmem b hb).1
  · intro seg hseg hlo
    have hlo' : st.nxt < seg.lo := by
      simp only at hlo
      omega
    obtain ⟨b, hhead, hb1, hb2⟩ := h.first seg hseg hlo'
    have hfull := hst seg hseg
    refine ⟨b, ?_, hb1, hb2⟩
    obtain ⟨rest, rfl⟩ : ∃ rest, blocks = b :: rest := by
      cases blocks with
      | nil => cases hhead
      | cons c rest =>
        cases hhead
        exact ⟨rest, rfl⟩
    simp only at hlo
    rw [List.filter_cons, if_pos (by simp only [decide_eq_true_eq]; omega)]
    rfl

theorem Stream.Reportable.mono {received : Set ℤ} (h : st.Reportable blocks) (hsub : st.received ⊆ received) :
    Stream.Reportable { st with received := received } blocks :=
  ⟨h.length, h.within, h.apart, fun b hb => (h.received b hb).trans hsub, h.first⟩

theorem Stream.Reportable.coalesced {seg last : Block} {kept : List Block} {merged : Bool}
    (h : st.Reportable blocks) (hco : Coalesced st.nxt seg blocks last kept merged) :
    Stream.Reportable ⟨st.nxt, st.received ∪ seg.bytes, some seg⟩
      (last :: if merged then kept else kept.take (MAX_SACK_BLKS - 1)) := by
  have hkept : ∀ b ∈ (if merged then kept else kept.take (MAX_SACK_BLKS - 1)), b ∈ kept := by
    intro b hb
    split at hb
    · exact hb
    · exact List.mem_of_mem_take hb
  have hsub : (if merged then kept else kept.take (MAX_SACK_BLKS - 1)).Sublist kept := by
    split
    · exact List.Sublist.refl _
    · exact List.take_sublist _ _
  refine ⟨?_, ?_, ?_, ?_, ?_⟩
  · have hlen := h.length
    rw [List.length_cons]
    cases merged with
    | false =>
      rw [if_neg Bool.false_ne_true, List.length_take]
      have : MAX_SACK_BLKS = 6 := rfl
      omega
    | true =>
      have := hco.shorter rfl
      rw [if_pos rfl]
      omega
  · intro b hb
    obtain rfl | hb := List.mem_cons.1 hb
    · exact hco.within
    · exact h.within b (hco.sublist.subset (hkept b hb))
  · refine List.pairwise_cons.2 ⟨fun b hb => (hco.apart b (hkept b hb)).symm, ?_⟩
    exact h.apart.sublist (hsub.trans hco.sublist)
  · intro b hb x hx
    obtain rfl | hb := List.mem_cons.1 hb
    · obtain hx | ⟨c, hc, hx⟩ := hco.bytes x hx
      · exact .inr hx
      · exact .inl (h.received c hc hx)
    · exact .inl (h.received b (hco.sublist.subset (hkept b hb)) hx)
  · rintro s ⟨⟩ -
    exact ⟨last, rfl, hco.has⟩

theorem tcpUpdateSackList_rcv_nxt (tp : Receiver) (a b : Seq) :
    (tcpUpdateSackList tp a b).rcv_nxt = tp.rcv_nxt := by
  simp only [tcpUpdateSackList]
  split
  · split <;> rfl
  · split
    · rfl
    · split <;> rfl

theorem Reports.update (h : Reports st tp blocks) (hst : st.Full)
    (hfair : (Report.update adv off len).Fair tp st) :
    ∃ blocks', Reports (st.step (.update adv off len)) (tp.step (.update adv off len)) blocks' := by
  obtain ⟨hadv, hoff, hlen, hstop, haround⟩ := hfair
  have hnxt : tp.rcv_nxt + BitVec.ofNat 32 adv = ofInt (st.nxt + adv) := by
    rw [h.rcv_nxt, ofInt_add_ofNat]
  have hstart : tp.rcv_nxt + BitVec.ofNat 32 off = ofInt (st.nxt + off) := by
    rw [h.rcv_nxt, ofInt_add_ofNat]
  rw [hnxt, hstart, ofInt_add_ofNat] at haround
  rw [hnxt, h.sackblks] at hstop
  -- the blocks that are left
  have hclean : cleanUp (ofInt (st.nxt + adv)) tp.sackblks =
      (blocks.filter fun b => st.nxt + adv < b.hi).map Block.sackblk := by
    rw [h.sackblks]
    refine cleanUp_blocks (fun b hb => Block.sackblk_ne_zero (h.within b hb)) fun b hb => ?_
    obtain ⟨h1, h2, h3⟩ := h.within b hb
    omega
  have hleft : Stream.Reportable { st with nxt := st.nxt + adv } _ := h.toReportable.advance hst fun b hb => by
    obtain ⟨h1, h2, h3⟩ := h.within b hb
    refine (hstop b.sackblk (List.mem_map_of_mem hb)).imp ?_ ?_
    · exact (SEQ_LT_ofInt (by omega) (by omega)).1
    · exact (SEQ_LEQ_ofInt (by omega) (by omega)).1
  set left := blocks.filter fun b => st.nxt + adv < b.hi
  have hlt : SEQ_LT (ofInt (st.nxt + adv)) (ofInt (st.nxt + off)) = true ↔ st.nxt + adv < st.nxt + off :=
    SEQ_LT_ofInt (by omega) (by omega)
  have hge : SEQ_GEQ (ofInt (st.nxt + adv)) (ofInt (st.nxt + off + len)) = true ↔
      st.nxt + off + len ≤ st.nxt + adv := SEQ_GEQ_ofInt (by omega) (by omega)
  set seg : Block := ⟨st.nxt + off, st.nxt + off + len⟩ with hseg
  have hmore : st.received ⊆ st.received ∪ seg.bytes := Set.subset_union_left
  have htp : tp.step (.update adv off len) =
      tcpUpdateSackList ⟨ofInt (st.nxt + adv), tp.sackblks⟩ seg.sackblk.start seg.sackblk.fin := by
    simp only [Receiver.step, Receiver.advance, hnxt, hstart, ofInt_add_ofNat]
    rfl
  by_cases hbeyond : st.nxt + adv < st.nxt + off
  · have hstep : st.step (.update adv off len) =
        ⟨st.nxt + adv, st.received ∪ seg.bytes, some seg⟩ := by
      simp only [Stream.step]
      rw [if_pos hbeyond]
    have hwithin : seg.Within (st.nxt + adv) :=
      ⟨by simp only [hseg]; omega, hbeyond, by simp only [hseg]; omega⟩
    rw [htp, hstep]
    obtain ⟨last, kept, blks, merged, hrun, hfilter, hsame, hco⟩ :=
      coalesce_blocks hwithin hleft.within hleft.apart
    have hall := hleft.coalesced hco
    by_cases hnil : left = []
    · -- the first block
      refine ⟨[seg], ⟨by simp [MAX_SACK_BLKS], ?_, List.pairwise_singleton _ _, ?_, ?_⟩,
        tcpUpdateSackList_rcv_nxt _ _ _, ?_⟩
      · intro b hb
        rw [List.mem_singleton.1 hb]
        exact hwithin
      · intro b hb
        rw [List.mem_singleton.1 hb]
        exact Set.subset_union_right
      · rintro s ⟨⟩ -
        exact ⟨_, rfl, le_rfl, le_rfl⟩
      · have hpos : SEQ_LT (ofInt (st.nxt + adv)) seg.sackblk.start = true := hlt.2 hbeyond
        simp [tcpUpdateSackList, hclean, hnil, tcpCleanSackreport, hpos]
    · have hnot : ¬SEQ_GEQ (ofInt (st.nxt + adv)) seg.sackblk.fin = true := by
        intro hs
        have := hge.1 hs
        omega
      refine ⟨_, hall, tcpUpdateSackList_rcv_nxt _ _ _, ?_⟩
      have hpair : (⟨seg.sackblk.start, seg.sackblk.fin⟩ : Sackblk) = seg.sackblk := rfl
      simp only [tcpUpdateSackList, hclean, List.map_eq_nil_iff, hnil, if_false, hnot, hpair, hrun]
      cases merged with
      | true =>
        simp only [if_true, List.map_cons]
        rw [hfilter]
        rfl
      | false =>
        obtain ⟨-, rfl⟩ := hco.unmerged rfl
        simp only [Bool.false_eq_true, if_false, List.map_cons, hsame, List.map_take]
  · have hstep : st.step (.update adv off len) =
        ⟨st.nxt + adv, st.received ∪ seg.bytes, st.recent⟩ := by
      simp only [Stream.step]
      rw [if_neg hbeyond]
    rw [htp, hstep]
    refine ⟨left, hleft.mono hmore, tcpUpdateSackList_rcv_nxt _ _ _, ?_⟩
    by_cases hnil : left = []
    · have hneg : SEQ_LT (ofInt (st.nxt + adv)) seg.sackblk.start = false :=
        Bool.eq_false_iff.2 fun hs => hbeyond (hlt.1 hs)
      simp [tcpUpdateSackList, hclean, hnil, tcpCleanSackreport, hneg]
    · have hpass : SEQ_GEQ (ofInt (st.nxt + adv)) seg.sackblk.fin = true :=
        (haround (by simpa [hclean] using hnil)).resolve_left fun hs => hbeyond (hlt.1 hs)
      simp [tcpUpdateSackList, hclean, hnil, hpass]

end Step

def Receiver.run (tp : Receiver) (rs : List Report) : Receiver := rs.foldl Receiver.step tp

def Stream.run (st : Stream) (rs : List Report) : Stream := rs.foldl Stream.step st

def RunFair : Receiver → Stream → List Report → Prop
  | _, _, [] => True
  | tp, st, r :: rs => r.Fair tp st ∧ RunFair (tp.step r) (st.step r) rs

theorem Stream.Full.step {st : Stream} {tp : Receiver} {r : Report} (hst : st.Full) (hr : r.Fair tp st) :
    (st.step r).Full := by
  cases r with
  | clean adv => exact hst
  | update adv off len =>
    intro seg hseg
    simp only [Stream.step] at hseg
    split at hseg
    · cases hseg
      have hlen : 0 < len := hr.2.2.1
      simp only
      omega
    · exact hst seg hseg

theorem Reports.step {st : Stream} {tp : Receiver} {blocks : List Block} {r : Report}
    (h : Reports st tp blocks) (hst : st.Full) (hr : r.Fair tp st) :
    ∃ blocks', Reports (st.step r) (tp.step r) blocks' := by
  cases r with
  | update adv off len => exact h.update hst hr
  | clean adv =>
    refine ⟨[], ⟨Nat.zero_le _, by simp, .nil, by simp, ?_⟩, ?_, rfl⟩
    · intro seg hseg hlo
      have hle := hr.2 seg hseg
      simp only [Stream.step] at hlo
      omega
    · simp only [Receiver.step, tcpCleanSackreport, Receiver.advance, h.rcv_nxt, ofInt_add_ofNat, Stream.step]

theorem Reports.run {st : Stream} {tp : Receiver} {blocks : List Block} {rs : List Report}
    (h : Reports st tp blocks) (hst : st.Full) (hrs : RunFair tp st rs) :
    ∃ blocks', Reports (st.run rs) (tp.run rs) blocks' := by
  induction rs generalizing st tp blocks with
  | nil => exact ⟨blocks, h⟩
  | cons r rs ih =>
    obtain ⟨blocks', h'⟩ := h.step hst hrs.1
    exact ih h' (hst.step hrs.1) hrs.2

/-- Whatever segments arrive, the report is of few blocks that are not empty, lie beyond `rcv_nxt`,
are apart from each other and of bytes that were received, with the last segment that was out of
order in the first of them. -/
theorem sack_report (nxt : ℤ) (rs : List Report) (hrs : RunFair ⟨ofInt nxt, []⟩ ⟨nxt, ∅, none⟩ rs) :
    ∃ blocks, Reports (Stream.run ⟨nxt, ∅, none⟩ rs) (Receiver.run ⟨ofInt nxt, []⟩ rs) blocks := by
  have hinit : Reports ⟨nxt, ∅, none⟩ ⟨ofInt nxt, []⟩ [] :=
    ⟨⟨Nat.zero_le _, by simp, .nil, by simp, nofun⟩, rfl, rfl⟩
  exact hinit.run nofun hrs

theorem sack_report_two :
    ∃ blocks, Reports (Stream.run ⟨100, ∅, none⟩ [.update 0 50 10, .update 0 60 10])
      (Receiver.run ⟨ofInt 100, []⟩ [.update 0 50 10, .update 0 60 10]) blocks :=
  sack_report 100 _ (by
    refine ⟨⟨by decide, by decide, by decide, by simp, by decide⟩, ⟨by decide, by decide, by decide, ?_, by decide⟩, trivial⟩
    decide)

/-- A FIN ahead of its time makes an empty block, and a block that `rcv_nxt` has come into is still
reported from its old start. -/
theorem empty_block :
    (¬∃ blocks, Reports (Stream.run ⟨100, ∅, none⟩ [.update 0 50 0])
      (Receiver.run ⟨ofInt 100, []⟩ [.update 0 50 0]) blocks) ∧
    ¬∃ blocks, Reports (Stream.run ⟨100, ∅, none⟩ [.update 0 50 10, .update 55 80 10])
      (Receiver.run ⟨ofInt 100, []⟩ [.update 0 50 10, .update 55 80 10]) blocks := by
  constructor
  · rintro ⟨blocks, h⟩
    have hblks : blocks.map Block.sackblk = [⟨150, 150⟩] := h.sackblks.symm
    obtain ⟨b, rfl, hb⟩ : ∃ b, blocks = [b] ∧ b.sackblk = ⟨150, 150⟩ := by
      simpa [List.map_eq_cons_iff] using hblks
    obtain ⟨h1, h2, h3⟩ := h.within b (by simp)
    have heq : ofInt b.hi = ofInt b.lo :=
      (congrArg Sackblk.fin hb).trans (congrArg Sackblk.start hb).symm
    have := ofInt_inj (by omega) (by omega) heq
    omega
  · rintro ⟨blocks, h⟩
    have hblks : blocks.map Block.sackblk = [⟨180, 190⟩, ⟨150, 160⟩] := h.sackblks.symm
    obtain ⟨b, hmem, hb⟩ : ∃ b ∈ blocks, b.sackblk = ⟨150, 160⟩ := by
      have : (⟨150, 160⟩ : Sackblk) ∈ blocks.map Block.sackblk := by simp [hblks]
      simpa using this
    obtain ⟨h1, h2, h3⟩ := h.within b hmem
    have hlo : ofInt b.lo = ofInt 150 := congrArg Sackblk.start hb
    have hhi : ofInt b.hi = ofInt 160 := congrArg Sackblk.fin hb
    have hnxt : (Stream.run ⟨100, ∅, none⟩ [.update 0 50 10, .update 55 80 10]).nxt = 155 := rfl
    rw [hnxt] at h2 h3
    have hend := ofInt_inj (by omega) (by omega) hhi
    have hstart := ofInt_inj (by omega) (by omega) hlo
    omega

end OpenbsdKernel.TcpSack
