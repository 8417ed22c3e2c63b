import OpenbsdKernel.Netinet.Tcp.Sack

/-!
# What the scoreboard keeps

The holes are in order and apart, between `snd_una` and `rcv_lastsack`, for every peer whose
blocks do not reach half the circle behind `rcv_lastsack` and do not open the scoreboard at or
below the acknowledgement.
-/
namespace OpenbsdKernel.TcpSack

open SeqNum

section Compare

variable {n a b : Seq}

theorem seqLeq_iff (hlo : -2 ^ 31 ≤ pos n a - pos n b) (hhi : pos n a - pos n b < 2 ^ 31) :
    SEQ_LEQ a b = true ↔ pos n a ≤ pos n b := by
  rw [SEQ_LEQ, toInt_sub_eq hlo hhi, decide_eq_true_iff]
  omega

theorem seqGeq_iff (hlo : -2 ^ 31 ≤ pos n a - pos n b) (hhi : pos n a - pos n b < 2 ^ 31) :
    SEQ_GEQ a b = true ↔ pos n b ≤ pos n a := by
  rw [SEQ_GEQ, toInt_sub_eq hlo hhi, decide_eq_true_iff]
  omega

theorem seqLt_iff (hlo : -2 ^ 31 ≤ pos n a - pos n b) (hhi : pos n a - pos n b < 2 ^ 31) :
    SEQ_LT a b = true ↔ pos n a < pos n b := by
  rw [SEQ_LT, toInt_sub_eq hlo hhi, decide_eq_true_iff]
  omega

theorem seqGt_iff (hlo : -2 ^ 31 ≤ pos n a - pos n b) (hhi : pos n a - pos n b < 2 ^ 31) :
    SEQ_GT a b = true ↔ pos n b < pos n a := by
  rw [SEQ_GT, toInt_sub_eq hlo hhi, decide_eq_true_iff]
  omega

theorem pos_seqMax (hlo : -2 ^ 31 ≤ pos n a - pos n b) (hhi : pos n a - pos n b < 2 ^ 31) :
    pos n (SEQ_MAX a b) = max (pos n a) (pos n b) := by
  have hgt := seqGt_iff hlo hhi
  rw [SEQ_MAX]
  split
  · next hc => rw [max_eq_left (hgt.1 hc).le]
  · next hc => rw [max_eq_right (not_lt.1 fun h => hc (hgt.2 h))]

theorem pos_seqMin (hlo : -2 ^ 31 ≤ pos n a - pos n b) (hhi : pos n a - pos n b < 2 ^ 31) :
    pos n (SEQ_MIN a b) = min (pos n a) (pos n b) := by
  have hlt := seqLt_iff hlo hhi
  rw [SEQ_MIN]
  split
  · next hc => rw [min_eq_left (hlt.1 hc).le]
  · next hc => rw [min_eq_right (not_lt.1 fun h => hc (hlt.2 h))]

end Compare

/-- Holes in order and apart, from `lo` to `hi`; places are counted from `snd_una`. -/
def Board (una : Seq) (hi : ℤ) : ℤ → List Sackhole → Prop
  | _, [] => True
  | lo, h :: holes => lo ≤ pos una h.start ∧ pos una h.start < pos una h.fin ∧
      pos una h.start ≤ pos una h.rxmit ∧ pos una h.rxmit ≤ pos una h.fin ∧ pos una h.fin ≤ hi ∧
      Board una hi (pos una h.fin) holes

section Holes

variable {una : Seq} {lo lo' hi hi' : ℤ} {holes holes' : List Sackhole} {h : Sackhole}

theorem Board.mono (hb : Board una hi lo holes) (hlo : lo' ≤ lo) : Board una hi lo' holes := by
  cases holes with
  | nil => trivial
  | cons h holes => exact ⟨hlo.trans hb.1, hb.2⟩

theorem Board.forall (hb : Board una hi lo holes) : ∀ h ∈ holes, lo ≤ pos una h.start ∧
    pos una h.start < pos una h.fin ∧ pos una h.start ≤ pos una h.rxmit ∧
    pos una h.rxmit ≤ pos una h.fin ∧ pos una h.fin ≤ hi := by
  induction holes generalizing lo with
  | nil => simp
  | cons a holes ih =>
    obtain ⟨h1, h2, h3, h4, h5, hrest⟩ := hb
    intro h hmem
    obtain rfl | hmem := List.mem_cons.1 hmem
    · exact ⟨h1, h2, h3, h4, h5⟩
    · have hih := ih hrest h hmem
      exact ⟨by omega, hih.2⟩

theorem Board.pairwise (hb : Board una hi lo holes) :
    holes.Pairwise fun a b => pos una a.fin ≤ pos una b.start := by
  induction holes generalizing lo with
  | nil => exact List.Pairwise.nil
  | cons a holes ih =>
    obtain ⟨-, -, -, -, -, hrest⟩ := hb
    exact List.pairwise_cons.2 ⟨fun b hb => (hrest.forall b hb).1, ih hrest⟩

theorem Board.concat (hb : Board una hi lo holes) (hlo : lo ≤ hi) (hstart : pos una h.start = hi)
    (hrxmit : h.rxmit = h.start) (hlt : hi < pos una h.fin) (hfin : pos una h.fin ≤ hi') :
    Board una hi' lo (holes ++ [h]) := by
  induction holes generalizing lo with
  | nil =>
    rw [List.nil_append, Board, hrxmit, hstart]
    exact ⟨hlo, hlt, le_rfl, hlt.le, hfin, trivial⟩
  | cons a holes ih =>
    obtain ⟨h1, h2, h3, h4, h5, hrest⟩ := hb
    exact ⟨h1, h2, h3, h4, by omega, ih hrest h5⟩

theorem Board.rebase {una' : Seq} (hb : Board una hi lo holes) (hpos : 0 ≤ pos una una')
    (hlo : pos una una' ≤ lo) (hhi : hi < 2 ^ 31) :
    Board una' (hi - pos una una') (lo - pos una una') holes := by
  induction holes generalizing lo with
  | nil => trivial
  | cons a holes ih =>
    obtain ⟨h1, h2, h3, h4, h5, hrest⟩ := hb
    have hs : pos una' a.start = pos una a.start - pos una una' := pos_base (by omega) (by omega)
    have hf : pos una' a.fin = pos una a.fin - pos una una' := pos_base (by omega) (by omega)
    have hr : pos una' a.rxmit = pos una a.rxmit - pos una una' := pos_base (by omega) (by omega)
    have hih := ih hrest (by omega)
    rw [← hf] at hih
    exact ⟨by omega, by omega, by omega, by omega, by omega, hih⟩

end Holes

section Walk

variable {una : Seq} {lo hi : ℤ} {maxseg k : ℕ} {numholes : ℤ} {alloc : ℕ → Bool} {sack : Sackblk}
  {holes : List Sackhole} {w : Walk}

/-- What the loop over the holes leaves: a list in order, counted, and with every hole passed if
the block begins behind them. -/
structure Walked (una : Seq) (hi lo numholes : ℤ) (sack : Sackblk) (holes : List Sackhole)
    (w : Walk) : Prop where
  board : Board una hi lo (w.seen ++ w.rest)
  count : w.snd_numholes - (w.seen ++ w.rest).length = numholes - holes.length
  behind : hi < pos una sack.start → w.seen.length = holes.length ∧ w.rest = [] ∧ w.enobufs = false

theorem Walked.pass (seen : List Sackhole) {next : List Sackhole} {cur : Sackhole} {mid numholes' : ℤ}
    (hw : Walked una hi mid numholes' sack next w)
    (hboard : Board una hi lo (seen ++ (w.seen ++ w.rest)))
    (hn : numholes' = numholes + seen.length - 1)
    (hseen : seen.length = 1 ∨ pos una sack.start ≤ hi) :
    Walked una hi lo numholes sack (cur :: next) (w.pass seen) := by
  refine ⟨?_, ?_, ?_⟩
  · simpa [Walk.pass] using hboard
  · have hcount := hw.count
    simp only [Walk.pass, List.length_append, List.length_cons] at hcount ⊢
    push_cast at hcount ⊢
    omega
  · intro hS
    obtain ⟨hlen, hnil, henobufs⟩ := hw.behind hS
    obtain hone | hle := hseen
    · refine ⟨?_, hnil, henobufs⟩
      simp only [Walk.pass, List.length_append, List.length_cons]
      omega
    · omega

theorem walkHoles_spec (alloc : ℕ → Bool) (maxseg k : ℕ) (numholes : ℤ)
    (hlt : pos una sack.start < pos una sack.fin) (hfin : 0 < pos una sack.fin)
    (hlo : 0 ≤ lo) (hb : Board una hi lo holes) :
    ∃ w, walkHoles alloc maxseg sack k numholes holes = some w ∧
      Walked una hi lo numholes sack holes w := by
  induction holes generalizing k numholes lo with
  | nil => exact ⟨_, rfl, trivial, by simp, by simp⟩
  | cons cur next ih =>
    obtain ⟨h1, h2, h3, h4, h5, hrest⟩ := hb
    have hEmax := pos_lt una sack.fin
    have hSmax := pos_lt una sack.start
    have hhi := pos_lt una cur.fin
    have hend : SEQ_LEQ sack.fin cur.start = true ↔ pos una sack.fin ≤ pos una cur.start :=
      seqLeq_iff (by omega) (by omega)
    -- a block that begins more than half the circle before the hole ends is taken to lie behind it
    have hbeyond : SEQ_GEQ sack.start cur.fin = true ↔
        pos una cur.fin ≤ pos una sack.start ∨ 2 ^ 31 < pos una cur.fin - pos una sack.start := by
      by_cases hwrap : 2 ^ 31 < pos una cur.fin - pos una sack.start
      · have hpos := toInt_sub_wrap (n := una) (a := sack.start) (b := cur.fin) (by omega)
        exact iff_of_true (decide_eq_true hpos.le) (.inr hwrap)
      · rw [seqGeq_iff (n := una) (by omega) (by omega)]
        exact (or_iff_left hwrap).symm
    have hnext : ∀ {n : ℤ}, ∃ w, walkHoles alloc maxseg sack (k + 1) n next = some w ∧
        Walked una hi (pos una cur.fin) n sack next w := ih (k + 1) _ (by omega) hrest
    rw [walkHoles]
    split
    · next hc =>
      -- the block lies before the hole
      have hc := hend.1 hc
      exact ⟨_, rfl, ⟨h1, h2, h3, h4, h5, hrest⟩, by simp, fun hS => by omega⟩
    rename_i hnend
    rw [hend] at hnend
    split
    · -- the block lies behind the hole
      obtain ⟨w, hw, hwalked⟩ := hnext
      rw [hw]
      exact ⟨_, rfl, hwalked.pass [_] ⟨h1, h2, h3, h4, h5, hwalked.board⟩ (by simp) (.inl rfl)⟩
    rename_i hnbeyond
    rw [hbeyond, not_or] at hnbeyond
    have hfront : SEQ_LEQ sack.start cur.start = true ↔ pos una sack.start ≤ pos una cur.start :=
      seqLeq_iff (by omega) (by omega)
    have hback : SEQ_GEQ sack.fin cur.fin = true ↔ pos una cur.fin ≤ pos una sack.fin :=
      seqGeq_iff (by omega) (by omega)
    have hmax : pos una (SEQ_MAX cur.rxmit sack.fin) = max (pos una cur.rxmit) (pos una sack.fin) :=
      pos_seqMax (by omega) (by omega)
    split
    · next hc =>
      rw [hfront] at hc
      split
      · -- the hole goes
        obtain ⟨w, hw, hwalked⟩ := hnext
        rw [hw]
        have hboard : Board una hi lo (w.seen ++ w.rest) := hwalked.board.mono (by omega)
        exact ⟨_, rfl, hwalked.pass [] hboard (by simp) (.inr (by omega))⟩
      · next hnback =>
        rw [hback] at hnback
        obtain ⟨w, hw, hwalked⟩ := hnext
        rw [hw]
        have hstart : lo ≤ pos una sack.fin := by omega
        have hrxmit : pos una sack.fin ≤ pos una (SEQ_MAX cur.rxmit sack.fin) ∧
            pos una (SEQ_MAX cur.rxmit sack.fin) ≤ pos una cur.fin := by omega
        exact ⟨_, rfl, hwalked.pass [_]
          ⟨hstart, not_le.1 hnback, hrxmit.1, hrxmit.2, h5, hwalked.board⟩ (by simp) (.inl rfl)⟩
    rename_i hnfront
    rw [hfront] at hnfront
    have hmin : pos una (SEQ_MIN cur.rxmit sack.start) =
        min (pos una cur.rxmit) (pos una sack.start) := pos_seqMin (by omega) (by omega)
    have hcut : pos una cur.start ≤ pos una (SEQ_MIN cur.rxmit sack.start) ∧
        pos una (SEQ_MIN cur.rxmit sack.start) ≤ pos una sack.start := by omega
    have hcutfin : pos una sack.start ≤ pos una cur.fin := (not_le.1 hnbeyond.1).le
    split
    · -- the end of the hole goes
      obtain ⟨w, hw, hwalked⟩ := hnext
      rw [hw]
      exact ⟨_, rfl, hwalked.pass [_] ⟨h1, not_le.1 hnfront, hcut.1, hcut.2,
        hcutfin.trans h5, hwalked.board.mono hcutfin⟩ (by simp) (.inl rfl)⟩
    rename_i hnback
    rw [hback] at hnback
    have hinside : SEQ_LT cur.start sack.start = true ∧ SEQ_GT cur.fin sack.fin = true := by
      rw [seqLt_iff (n := una) (by omega) (by omega), seqGt_iff (n := una) (by omega) (by omega)]
      omega
    rw [if_pos hinside]
    split
    · obtain ⟨w, hw, hwalked⟩ := hnext
      rw [hw]
      have hrxmit : pos una sack.fin ≤ pos una (SEQ_MAX cur.rxmit sack.fin) ∧
          pos una (SEQ_MAX cur.rxmit sack.fin) ≤ pos una cur.fin := by omega
      exact ⟨_, rfl, hwalked.pass [_, _] ⟨h1, not_le.1 hnfront, hcut.1, hcut.2,
        hcutfin.trans h5, hlt.le, not_le.1 hnback, hrxmit.1, hrxmit.2, h5, hwalked.board⟩ (by simp; omega) (.inr (by omega))⟩
    · exact ⟨_, rfl, ⟨h1, h2, h3, h4, h5, hrest⟩, by simp, fun hS => by omega⟩

end Walk

/-- The scoreboard: holes in order and apart between `snd_una` and `rcv_lastsack`, and counted. -/
structure Kept (tp : Tcpcb) : Prop where
  board : Board tp.snd_una (pos tp.snd_una tp.rcv_lastsack) 0 tp.snd_holes
  count : tp.snd_numholes = tp.snd_holes.length

/-- The state of a sender while no segment has gone wrong. -/
structure Inv (tp : Tcpcb) : Prop extends Kept tp where
  listen : tp.t_listen = false
  maxseg : tp.t_maxseg ≠ 0
  disabled : tp.sack_enable = false → tp.snd_holes = []
  window : 0 ≤ pos tp.snd_una tp.snd_max
  last : tp.snd_holes ≠ [] → pos tp.snd_una tp.rcv_lastsack ≤ pos tp.snd_una tp.snd_max

/-- The holes lie at or behind an acknowledgement that `snd_una` is still to be set to. -/
def Beyond (tp : Tcpcb) (th_ack : Seq) : Prop :=
  SEQ_GT th_ack tp.snd_una = true →
    ∀ h ∈ tp.snd_holes, pos tp.snd_una th_ack ≤ pos tp.snd_una h.start

/-- A block that the scoreboard can take: one that opens it begins behind the acknowledgement, and
one that finds holes does not begin before `snd_una` where `rcv_lastsack` looks to be before it. -/
def blockOk (alloc : ℕ → Bool) (tp : Tcpcb) (th_ack : Seq) (sack : Sackblk) : Prop :=
  processed tp th_ack sack = true →
    if tp.snd_holes = [] then
      alloc 0 = true → SEQ_LT th_ack sack.start = true ∧ SEQ_LT sack.start tp.snd_una = false
    else alloc 1 = true →
      ¬(SEQ_LT tp.rcv_lastsack sack.start = true ∧ SEQ_LT sack.start tp.snd_una = true)

/-- Every block of an option, in the state that it finds. -/
def blocksOk (th_ack : Seq) : (ℕ → ℕ → Bool) → Tcpcb → List Sackblk → Prop
  | _, _, [] => True
  | alloc, tp, sack :: blks => blockOk (alloc 0) tp th_ack sack ∧
      ∀ tp', sackBlock (alloc 0) tp th_ack sack = some (tp', false) →
        blocksOk th_ack (fun i => alloc (i + 1)) tp' blks

section Block

variable {alloc : ℕ → Bool} {tp : Tcpcb} {th_ack : Seq} {sack : Sackblk}

theorem processed_places (hmax : 0 ≤ pos tp.snd_una tp.snd_max)
    (h : processed tp th_ack sack = true) :
    pos tp.snd_una sack.start < pos tp.snd_una sack.fin ∧ 0 < pos tp.snd_una sack.fin ∧
    pos tp.snd_una sack.fin ≤ pos tp.snd_una tp.snd_max ∧
    (SEQ_GT th_ack tp.snd_una = true → SEQ_LT sack.start th_ack = false) := by
  simp only [processed, Bool.and_eq_true, Bool.not_eq_true'] at h
  obtain ⟨⟨⟨hfin, hold⟩, hack⟩, hmaxfin⟩ := h
  have hfin0 : 0 < pos tp.snd_una sack.fin := by
    simpa [SEQ_LEQ, pos] using hold
  have hle : pos tp.snd_una sack.fin ≤ pos tp.snd_una tp.snd_max := by
    have h1 := pos_lt tp.snd_una sack.fin
    have h2 := pos_lt tp.snd_una tp.snd_max
    have hgt := seqGt_iff (n := tp.snd_una) (a := sack.fin) (b := tp.snd_max) (by omega) (by omega)
    rw [hmaxfin] at hgt
    simpa using hgt
  refine ⟨?_, hfin0, hle, ?_⟩
  · -- the block is less than half the circle long
    have hlen : 0 < (sack.fin - sack.start).toInt := by
      simpa [SEQ_LEQ] using hfin
    have hlt := (sack.fin - sack.start).toInt_lt
    have h1 := pos_lt tp.snd_una sack.fin
    have hstart : pos tp.snd_una sack.start =
        pos tp.snd_una sack.fin - (sack.fin - sack.start).toInt := by
      have hsub : sack.start - tp.snd_una = (sack.fin - tp.snd_una) - (sack.fin - sack.start) := by
        bv_omega
      rw [pos] at h1 hfin0
      rw [pos, pos, hsub, BitVec.toInt_sub]
      exact Int.bmod_eq_of_le (by omega) (by omega)
    omega
  · intro hgt
    rw [hgt, Bool.true_and] at hack
    exact hack

theorem Inv.update {tp' : Tcpcb} (h : Inv tp) (hkept : Kept tp') (hlisten : tp'.t_listen = tp.t_listen)
    (hmaxseg : tp'.t_maxseg = tp.t_maxseg) (henable : tp'.sack_enable = true)
    (huna : tp'.snd_una = tp.snd_una) (hmax : tp'.snd_max = tp.snd_max)
    (hlast : tp'.snd_holes ≠ [] → pos tp.snd_una tp'.rcv_lastsack ≤ pos tp.snd_una tp.snd_max) :
    Inv tp' where
  toKept := hkept
  listen := hlisten.trans h.listen
  maxseg := hmaxseg ▸ h.maxseg
  disabled := fun hd => by simp [henable] at hd
  window := by
    rw [huna, hmax]
    exact h.window
  last := fun hne => by
    rw [huna, hmax]
    exact hlast hne

/-- What one block leaves. -/
structure Taken (tp : Tcpcb) (th_ack : Seq) (tp' : Tcpcb) : Prop where
  inv : Inv tp'
  beyond : Beyond tp' th_ack
  snd_una : tp'.snd_una = tp.snd_una
  snd_max : tp'.snd_max = tp.snd_max
  sack_enable : tp'.sack_enable = tp.sack_enable

theorem Board.beyond {hi lo : ℤ} {tp : Tcpcb} (hb : Board tp.snd_una hi lo tp.snd_holes)
    (hlo : SEQ_GT th_ack tp.snd_una = true → pos tp.snd_una th_ack ≤ lo) : Beyond tp th_ack :=
  fun hgt h hmem => (hlo hgt).trans (hb.forall h hmem).1

theorem Beyond.board {hi : ℤ} (hb : Board tp.snd_una hi 0 tp.snd_holes) (h : Beyond tp th_ack) :
    ∃ lo, 0 ≤ lo ∧ Board tp.snd_una hi lo tp.snd_holes ∧
      (SEQ_GT th_ack tp.snd_una = true → pos tp.snd_una th_ack ≤ lo) := by
  by_cases hc : SEQ_GT th_ack tp.snd_una = true
  · have hpos : 0 < pos tp.snd_una th_ack := by
      simpa [SEQ_GT, pos] using hc
    refine ⟨pos tp.snd_una th_ack, hpos.le, ?_, fun _ => le_rfl⟩
    cases hholes : tp.snd_holes with
    | nil => trivial
    | cons a holes =>
      rw [hholes] at hb
      exact ⟨h hc a (by simp [hholes]), hb.2⟩
  · exact ⟨0, le_rfl, hb, fun h => absurd h hc⟩

theorem sackBlock_taken (hinv : Inv tp) (hbeyond : Beyond tp th_ack) (henable : tp.sack_enable = true)
    (hack : 0 ≤ pos tp.snd_una th_ack) (hok : blockOk alloc tp th_ack sack) :
    ∃ tp' done, sackBlock alloc tp th_ack sack = some (tp', done) ∧ Taken tp th_ack tp' := by
  have hsame : Taken tp th_ack tp := ⟨hinv, hbeyond, rfl, rfl, rfl⟩
  cases hp : processed tp th_ack sack with
  | false => exact ⟨tp, false, by simp [sackBlock, hp], hsame⟩
  | true =>
    obtain ⟨hlt, hfin, hmax, -⟩ := processed_places hinv.window hp
    have hEmax := pos_lt tp.snd_una sack.fin
    have hAmax := pos_lt tp.snd_una th_ack
    have hok := hok hp
    by_cases hnil : tp.snd_holes = []
    · -- the block opens the scoreboard
      rw [if_pos hnil] at hok
      cases ha : alloc 0 with
      | false => exact ⟨tp, true, by simp [sackBlock, hp, hnil, ha], hsame⟩
      | true =>
        obtain ⟨hfirst, hstart⟩ := hok ha
        have hstart : 0 ≤ pos tp.snd_una sack.start := by
          simpa [SEQ_LT, pos] using hstart
        rw [seqLt_iff (n := tp.snd_una) (by omega) (by omega)] at hfirst
        refine ⟨_, false, by simp only [sackBlock, hp, hnil, ha]; rfl, ?_⟩
        have hboard : Board tp.snd_una (pos tp.snd_una sack.fin) (pos tp.snd_una th_ack)
            [⟨th_ack, sack.start, blockDups tp.t_maxseg sack.fin sack.start, th_ack⟩] :=
          ⟨le_rfl, hfirst, le_rfl, hfirst.le, hlt.le, trivial⟩
        exact ⟨hinv.update ⟨hboard.mono hack, rfl⟩ rfl rfl henable rfl rfl fun _ => hmax,
          hboard.beyond fun _ => le_rfl, rfl, rfl, rfl⟩
    · rw [if_neg hnil] at hok
      obtain ⟨lo, hlo, hboard, hle⟩ := hbeyond.board hinv.board
      have hlast := hinv.last hnil
      obtain ⟨w, hw, hwalked⟩ := walkHoles_spec (fun k => alloc (k + 2)) tp.t_maxseg 0
        tp.snd_numholes hlt hfin hlo hboard
      have hcount : w.snd_numholes = (w.seen ++ w.rest).length := by
        have h1 := hwalked.count
        have h2 := hinv.count
        omega
      have htaken : Taken tp th_ack
          { tp with snd_holes := w.seen ++ w.rest, snd_numholes := w.snd_numholes } :=
        ⟨hinv.update ⟨hwalked.board.mono hlo, hcount⟩ rfl rfl henable rfl rfl fun _ => hlast,
          hwalked.board.beyond hle, rfl, rfl, rfl⟩
      rw [sackBlock, if_neg (by simp [hp]), if_neg hnil, hw, Option.bind_some]
      dsimp only
      split
      · exact ⟨_, _, rfl, htaken⟩
      split
      · next hbehind =>
        split
        · next ha =>
          -- the block begins behind all holes: `p` is the last of them
          have hstart : 0 ≤ pos tp.snd_una sack.start := by
            have hnot := fun hc => hok ha ⟨hbehind, hc⟩
            simpa [SEQ_LT, pos] using hnot
          obtain ⟨a, holes, hholes⟩ := List.exists_cons_of_ne_nil hnil
          have hfirst := hboard.forall a (by simp [hholes])
          have hSmax := pos_lt tp.snd_una sack.start
          have hLmax := pos_lt tp.snd_una tp.rcv_lastsack
          rw [seqLt_iff (n := tp.snd_una) (by omega) (by omega)] at hbehind
          obtain ⟨hlen, hrest, -⟩ := hwalked.behind hbehind
          obtain ⟨b, seen, hseen⟩ : ∃ b seen, w.seen = b :: seen :=
            List.exists_cons_of_ne_nil (by
              rw [← List.length_pos_iff, hlen, hholes]
              simp)
          have hboard' := hwalked.board
          rw [hrest, List.append_nil] at hboard' hcount
          have hconcat := hboard'.concat (h := ⟨tp.rcv_lastsack, sack.start,
            blockDups tp.t_maxseg sack.fin sack.start, tp.rcv_lastsack⟩) (by omega) rfl rfl hbehind hlt.le
          have happend : ∀ temp, appendHole w temp = some (w.seen ++ [temp]) := by
            intro temp
            simp [appendHole, hseen]
          rw [happend]
          refine ⟨_, _, rfl, hinv.update ⟨hconcat.mono hlo, ?_⟩ rfl rfl henable rfl rfl fun _ => hmax,
            hconcat.beyond hle, rfl, rfl, rfl⟩
          simp [hcount]
        · exact ⟨_, _, rfl, htaken⟩
      · exact ⟨_, _, rfl, htaken⟩

end Block

end OpenbsdKernel.TcpSack
