import OpenbsdKernel.Netinet.Tcp.Sack

/-!
# The SACK report of a TCP receiver

`tcp_update_sack_list` and `tcp_clean_sackreport` of `netinet/tcp_input.c`. `sackblks` has the
first `rcv_numsacks` entries of the array; the others are never read.
-/
namespace OpenbsdKernel.TcpSack

open SeqNum

def MAX_SACK_BLKS : ℕ := 6

/-- The fields of `struct tcpcb` of the report. -/
structure Receiver where
  rcv_nxt : Seq
  sackblks : List Sackblk
  deriving DecidableEq, Repr

def tcpCleanSackreport (tp : Receiver) : Receiver := { tp with sackblks := [] }

def Sackblk.zero : Sackblk := ⟨0, 0⟩

/-- The loop that cleans up the current list. -/
def cleanUp (rcv_nxt : Seq) (blks : List Sackblk) : List Sackblk :=
  blks.filter fun sack => sack ≠ .zero ∧ ¬SEQ_LEQ sack.fin rcv_nxt

/-- The loop that coalesces entries: the first entry, the others with those discarded that went
into it, and whether there are any (`lastpos != -1`). -/
def coalesce : Sackblk → List Sackblk → Sackblk × List Sackblk × Bool
  | first, [] => (first, [], false)
  | first, sack :: rest =>
    if SEQ_LT sack.fin first.start ∨ SEQ_GT sack.start first.fin then
      let (last, blks, merged) := coalesce first rest
      (last, sack :: blks, merged)
    else if sack.start = first.start ∧ sack.fin = first.fin then
      let (last, blks, _) := coalesce first rest
      (last, .zero :: blks, true)
    else
      let first : Sackblk := ⟨if SEQ_LEQ sack.start first.start then sack.start else first.start,
        if SEQ_GEQ sack.fin first.fin then sack.fin else first.fin⟩
      let (last, blks, _) := coalesce first rest
      (last, .zero :: blks, true)

def tcpUpdateSackList (tp : Receiver) (rcv_laststart rcv_lastend : Seq) : Receiver :=
  let temp := cleanUp tp.rcv_nxt tp.sackblks
  if temp = [] then
    let tp := tcpCleanSackreport tp
    if SEQ_LT tp.rcv_nxt rcv_laststart then { tp with sackblks := [⟨rcv_laststart, rcv_lastend⟩] } else tp
  else if SEQ_GEQ tp.rcv_nxt rcv_lastend then { tp with sackblks := temp }
  else
    let (firstsack, blks, merged) := coalesce ⟨rcv_laststart, rcv_lastend⟩ temp
    if merged then { tp with sackblks := firstsack :: blks.filter fun sack => sack ≠ .zero }
    else { tp with sackblks := firstsack :: blks.take (MAX_SACK_BLKS - 1) }

/-- Bytes from one place of the stream up to another. -/
structure Block where
  lo : ℤ
  hi : ℤ
  deriving DecidableEq, Repr

namespace Block

def sackblk (b : Block) : Sackblk := ⟨ofInt b.lo, ofInt b.hi⟩

/-- Not empty, behind `n` and less than half the circle from it. -/
structure Within (n : ℤ) (b : Block) : Prop where
  nonempty : b.lo < b.hi
  beyond : n < b.lo
  window : b.hi < n + 2 ^ 31

/-- Neither overlapping nor adjacent. -/
def Apart (a b : Block) : Prop := a.hi < b.lo ∨ b.hi < a.lo

instance (a b : Block) : Decidable (a.Apart b) := inferInstanceAs (Decidable (_ ∨ _))

def bytes (b : Block) : Set ℤ := {x | b.lo ≤ x ∧ x < b.hi}

/-- The least block that has both. -/
def hull (a b : Block) : Block := ⟨min a.lo b.lo, max a.hi b.hi⟩

variable {a b c : Block} {n : ℤ}

theorem sackblk_ne_zero (hb : b.Within n) : b.sackblk ≠ .zero := by
  intro h
  have h1 : ofInt b.hi = ofInt b.lo := by
    have hlo : ofInt b.lo = 0 := congrArg Sackblk.start h
    have hhi : ofInt b.hi = 0 := congrArg Sackblk.fin h
    rw [hlo, hhi]
  have h2 := hb.nonempty
  have h3 := hb.beyond
  have h4 := hb.window
  have h5 := ofInt_inj (by omega) (by omega) h1
  omega

theorem Within.hull (ha : a.Within n) (hb : b.Within n) : (a.hull b).Within n := by
  obtain ⟨h1, h2, h3⟩ := ha
  obtain ⟨h4, h5, h6⟩ := hb
  constructor <;> simp only [Block.hull] <;> omega

theorem Apart.hull (h1 : c.Apart a) (h2 : c.Apart b) (hc : c.Within n) (htouch : ¬a.Apart b) :
    c.Apart (a.hull b) := by
  have := hc.nonempty
  simp only [Apart, Block.hull] at *
  omega

theorem bytes_hull (htouch : ¬a.Apart b) : (a.hull b).bytes ⊆ a.bytes ∪ b.bytes := by
  rintro x ⟨h1, h2⟩
  simp only [Apart, Block.hull, bytes, Set.mem_union, Set.mem_ofPred_eq] at *
  omega

end Block

section Compare

variable {x y : ℤ}

theorem SEQ_LT_ofInt (hlo : -2 ^ 31 ≤ x - y) (hhi : x - y < 2 ^ 31) :
    SEQ_LT (ofInt x) (ofInt y) = true ↔ x < y := by
  rw [SEQ_LT, toInt_ofInt_sub hlo hhi, decide_eq_true_eq]
  omega

theorem SEQ_LEQ_ofInt (hlo : -2 ^ 31 ≤ x - y) (hhi : x - y < 2 ^ 31) :
    SEQ_LEQ (ofInt x) (ofInt y) = true ↔ x ≤ y := by
  rw [SEQ_LEQ, toInt_ofInt_sub hlo hhi, decide_eq_true_eq]
  omega

theorem SEQ_GT_ofInt (hlo : -2 ^ 31 ≤ x - y) (hhi : x - y < 2 ^ 31) :
    SEQ_GT (ofInt x) (ofInt y) = true ↔ y < x := by
  rw [SEQ_GT, toInt_ofInt_sub hlo hhi, decide_eq_true_eq]
  omega

theorem SEQ_GEQ_ofInt (hlo : -2 ^ 31 ≤ x - y) (hhi : x - y < 2 ^ 31) :
    SEQ_GEQ (ofInt x) (ofInt y) = true ↔ y ≤ x := by
  rw [SEQ_GEQ, toInt_ofInt_sub hlo hhi, decide_eq_true_eq]
  omega

end Compare

section Loops

variable {n : ℤ} {cur b : Block} {blocks rest : List Block}

theorem cleanUp_blocks (hne : ∀ b ∈ blocks, b.sackblk ≠ .zero)
    (hrange : ∀ b ∈ blocks, -2 ^ 31 ≤ b.hi - n ∧ b.hi - n < 2 ^ 31) :
    cleanUp (ofInt n) (blocks.map Block.sackblk) =
      (blocks.filter fun b => n < b.hi).map Block.sackblk := by
  induction blocks with
  | nil => rfl
  | cons b blocks ih =>
    have hih := ih (fun c hc => hne c (by simp [hc])) fun c hc => hrange c (by simp [hc])
    have hb := hrange b (by simp)
    have hseq : SEQ_LEQ b.sackblk.fin (ofInt n) = true ↔ b.hi ≤ n := SEQ_LEQ_ofInt hb.1 hb.2
    have hzero := hne b (by simp)
    rw [cleanUp] at hih ⊢
    rw [List.map_cons, List.filter_cons, List.filter_cons, hih]
    by_cases hle : b.hi ≤ n
    · simp [hseq.2 hle, hle.not_gt]
    · have hnot : SEQ_LEQ b.sackblk.fin (ofInt n) = false := Bool.eq_false_iff.2 fun h => hle (hseq.1 h)
      simp [hnot, not_le.1 hle, hzero]

theorem coalesce_cons (hcur : cur.Within n) (hb : b.Within n) (rest : List Sackblk) :
    coalesce cur.sackblk (b.sackblk :: rest) =
      if cur.Apart b then
        ((coalesce cur.sackblk rest).1, b.sackblk :: (coalesce cur.sackblk rest).2.1,
          (coalesce cur.sackblk rest).2.2)
      else
        ((coalesce (cur.hull b).sackblk rest).1, .zero :: (coalesce (cur.hull b).sackblk rest).2.1,
          true) := by
  obtain ⟨h1, h2, h3⟩ := hcur
  obtain ⟨h4, h5, h6⟩ := hb
  have hlt : SEQ_LT b.sackblk.fin cur.sackblk.start = true ↔ b.hi < cur.lo :=
    SEQ_LT_ofInt (by omega) (by omega)
  have hgt : SEQ_GT b.sackblk.start cur.sackblk.fin = true ↔ cur.hi < b.lo :=
    SEQ_GT_ofInt (by omega) (by omega)
  have hle : SEQ_LEQ b.sackblk.start cur.sackblk.start = true ↔ b.lo ≤ cur.lo :=
    SEQ_LEQ_ofInt (by omega) (by omega)
  have hge : SEQ_GEQ b.sackblk.fin cur.sackblk.fin = true ↔ cur.hi ≤ b.hi :=
    SEQ_GEQ_ofInt (by omega) (by omega)
  rw [coalesce]
  by_cases hapart : cur.Apart b
  · rw [if_pos hapart, if_pos]
    rw [hlt, hgt]
    exact hapart.symm
  · rw [if_neg hapart, if_neg (by rw [hlt, hgt]; exact fun h => hapart h.symm)]
    have hstart : (if SEQ_LEQ b.sackblk.start cur.sackblk.start then b.sackblk.start else
        cur.sackblk.start) = (cur.hull b).sackblk.start := by
      by_cases h : b.lo ≤ cur.lo
      · rw [if_pos (hle.2 h)]
        exact congrArg ofInt (min_eq_right h).symm
      · rw [if_neg fun hs => h (hle.1 hs)]
        exact congrArg ofInt (min_eq_left (not_le.1 h).le).symm
    have hfin : (if SEQ_GEQ b.sackblk.fin cur.sackblk.fin then b.sackblk.fin else
        cur.sackblk.fin) = (cur.hull b).sackblk.fin := by
      by_cases h : cur.hi ≤ b.hi
      · rw [if_pos (hge.2 h)]
        exact congrArg ofInt (max_eq_right h).symm
      · rw [if_neg fun hs => h (hge.1 hs)]
        exact congrArg ofInt (max_eq_left (not_le.1 h).le).symm
    split
    · next hsame =>
      -- an identical entry
      have hlo : b.lo = cur.lo := ofInt_inj (by omega) (by omega) hsame.1
      have hhi : b.hi = cur.hi := ofInt_inj (by omega) (by omega) hsame.2
      have hhull : cur.hull b = cur := by
        rw [Block.hull, hlo, hhi, min_self, max_self]
      rw [hhull]
    · rw [hstart, hfin]

/-- What coalescing leaves: `kept` of the blocks, and one block made of the first and the others. -/
structure Coalesced (n : ℤ) (cur : Block) (blocks : List Block) (last : Block) (kept : List Block)
    (merged : Bool) : Prop where
  within : last.Within n
  sublist : kept.Sublist blocks
  unmerged : merged = false → last = cur ∧ kept = blocks
  shorter : merged = true → kept.length < blocks.length
  has : last.lo ≤ cur.lo ∧ cur.hi ≤ last.hi
  bytes : ∀ x ∈ last.bytes, x ∈ cur.bytes ∨ ∃ b ∈ blocks, x ∈ b.bytes
  apart : ∀ b ∈ kept, b.Apart last
  others : ∀ c : Block, c.Within n → c.Apart cur → (∀ b ∈ blocks, c.Apart b) → c.Apart last

theorem coalesce_blocks (hcur : cur.Within n) (hblocks : ∀ b ∈ blocks, b.Within n)
    (hpair : blocks.Pairwise Block.Apart) :
    ∃ last kept blks merged, coalesce cur.sackblk (blocks.map Block.sackblk) = (last.sackblk, blks, merged) ∧
      (blks.filter fun sack => sack ≠ .zero) = kept.map Block.sackblk ∧
      (merged = false → blks = blocks.map Block.sackblk) ∧
      Coalesced n cur blocks last kept merged := by
  induction blocks generalizing cur with
  | nil =>
    refine ⟨cur, [], [], false, rfl, rfl, fun _ => rfl, hcur, .slnil, fun _ => ⟨rfl, rfl⟩, nofun, ?_, ?_, ?_, ?_⟩
    · exact ⟨le_rfl, le_rfl⟩
    · exact fun x hx => .inl hx
    · simp
    · exact fun c _ hc _ => hc
  | cons b blocks ih =>
    have hb := hblocks b (by simp)
    have hrest : ∀ c ∈ blocks, c.Within n := fun c hc => hblocks c (by simp [hc])
    obtain ⟨hbapart, hpair⟩ := List.pairwise_cons.1 hpair
    rw [List.map_cons, coalesce_cons hcur hb]
    by_cases hapart : cur.Apart b
    · obtain ⟨last, kept, blks, merged, hrun, hfilter, hsame, hco⟩ := ih hcur hrest hpair
      rw [if_pos hapart, hrun]
      refine ⟨last, b :: kept, _, merged, rfl, ?_, ?_, hco.within, hco.sublist.cons_cons b, ?_, ?_, hco.has, ?_, ?_, ?_⟩
      · rw [List.filter_cons, if_pos (by simpa using Block.sackblk_ne_zero hb), hfilter, List.map_cons]
      · intro hm
        rw [hsame hm]
      · intro hm
        obtain ⟨h1, h2⟩ := hco.unmerged hm
        exact ⟨h1, by rw [h2]⟩
      · intro hm
        have := hco.shorter hm
        simp only [List.length_cons]
        omega
      · intro x hx
        refine (hco.bytes x hx).imp_right ?_
        rintro ⟨c, hc, hxc⟩
        exact ⟨c, by simp [hc], hxc⟩
      · intro c hc
        obtain rfl | hc := List.mem_cons.1 hc
        · exact hco.others c hb hapart.symm hbapart
        · exact hco.apart c hc
      · exact fun c hc hcc hall => hco.others c hc hcc fun d hd => hall d (by simp [hd])
    · obtain ⟨last, kept, blks, merged, hrun, hfilter, -, hco⟩ := ih (hcur.hull hb) hrest hpair
      rw [if_neg hapart, hrun]
      have hhas := hco.has
      simp only [Block.hull] at hhas
      refine ⟨last, kept, _, true, rfl, ?_, nofun, hco.within, hco.sublist.cons b, nofun, ?_, ?_, ?_, hco.apart, ?_⟩
      · rw [List.filter_cons, if_neg (by simp), hfilter]
      · intro _
        have := hco.sublist.length_le
        simp only [List.length_cons]
        omega
      · omega
      · intro x hx
        obtain hx | ⟨c, hc, hxc⟩ := hco.bytes x hx
        · obtain hx | hx := Block.bytes_hull hapart hx
          · exact .inl hx
          · exact .inr ⟨b, by simp, hx⟩
        · exact .inr ⟨c, by simp [hc], hxc⟩
      · intro c hc hcc hall
        exact hco.others c hc (hcc.hull (hall b (by simp)) hc hapart) fun d hd => hall d (by simp [hd])

end Loops

end OpenbsdKernel.TcpSack
