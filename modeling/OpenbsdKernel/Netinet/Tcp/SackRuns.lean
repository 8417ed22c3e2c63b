import OpenbsdKernel.Netinet.Tcp.Scoreboard

/-!
# A sender and its peer

The events of a connection: segments of the peer with their acknowledgement and their SACK
options, retransmission of holes, new data, and the retransmission timer. Along every run of
events that the scoreboard can take it stays in order; a peer that sends others makes the loop
use a `NULL` predecessor.
-/
namespace OpenbsdKernel.TcpSack

open SeqNum

section Ops

variable {tp tp' : Tcpcb} {th_ack : Seq} {una : Seq} {lo hi : ℤ} {holes : List Sackhole}

theorem sackBlocks_taken {alloc : ℕ → ℕ → Bool} {blks : List Sackblk} (hinv : Inv tp)
    (hbeyond : Beyond tp th_ack) (henable : tp.sack_enable = true)
    (hack : 0 ≤ pos tp.snd_una th_ack) (hok : blocksOk th_ack alloc tp blks) :
    ∃ tp', sackBlocks th_ack alloc tp blks = some tp' ∧ Taken tp th_ack tp' := by
  induction blks generalizing alloc tp with
  | nil => exact ⟨tp, rfl, hinv, hbeyond, rfl, rfl, rfl⟩
  | cons sack blks ih =>
    obtain ⟨tp₁, done, hstep, htaken⟩ := sackBlock_taken hinv hbeyond henable hack hok.1
    rw [sackBlocks, hstep, Option.bind_some]
    cases done with
    | true => exact ⟨tp₁, rfl, htaken⟩
    | false =>
      obtain ⟨tp₂, hrest, htaken'⟩ := ih htaken.inv htaken.beyond
        (htaken.sack_enable.trans henable) (htaken.snd_una ▸ hack) (hok.2 tp₁ hstep)
      exact ⟨tp₂, hrest, htaken'.inv, htaken'.beyond, htaken'.snd_una.trans htaken.snd_una,
        htaken'.snd_max.trans htaken.snd_max, htaken'.sack_enable.trans htaken.sack_enable⟩

/-- An option that the scoreboard can take. -/
def optionOk (alloc : ℕ → ℕ → Bool) (tp : Tcpcb) (th_ack : Seq) (cp : List (BitVec 8)) : Prop :=
  blocksOk th_ack alloc tp (readBlocks (cp.drop 2))

theorem tcpSackOption_taken (alloc : ℕ → ℕ → Bool) (ack : Bool) (cp : List (BitVec 8))
    (hinv : Inv tp) (hbeyond : Beyond tp th_ack) (hok : optionOk alloc tp th_ack cp) :
    ∃ tp', tcpSackOption alloc tp ack th_ack cp = some tp' ∧ Taken tp th_ack tp' := by
  have hsame : Taken tp th_ack tp := ⟨hinv, hbeyond, rfl, rfl, rfl⟩
  unfold tcpSackOption
  split
  · exact ⟨tp, rfl, hsame⟩
  split
  · exact ⟨tp, rfl, hsame⟩
  split
  · exact ⟨tp, rfl, hsame⟩
  split
  · next hmaxseg => exact absurd hmaxseg hinv.maxseg
  rename_i hon hack _ _
  have henable : tp.sack_enable = true := by
    simpa using fun h => hon (.inl h)
  have hpos : 0 ≤ pos tp.snd_una th_ack := by
    have hlt := fun h => hack (.inl h)
    simpa [SEQ_LT, pos] using hlt
  have hnum : max 0 tp.snd_numholes = tp.snd_numholes := max_eq_right (by
    have := hinv.count
    omega)
  rw [hnum]
  exact sackBlocks_taken hinv hbeyond henable hpos hok

theorem delHoles_spec (lastack : Seq) (numholes : ℤ) (hb : Board una hi lo holes) (hlo : 0 ≤ lo)
    (hack : 0 ≤ pos una lastack) :
    Board una hi (max lo (pos una lastack)) (delHoles lastack numholes holes).2 ∧
    (delHoles lastack numholes holes).1 - (delHoles lastack numholes holes).2.length =
      numholes - holes.length ∧
    (holes = [] → (delHoles lastack numholes holes).2 = []) := by
  induction holes generalizing numholes lo with
  | nil => exact ⟨trivial, rfl, fun _ => rfl⟩
  | cons cur next ih =>
    obtain ⟨h1, h2, h3, h4, h5, hrest⟩ := hb
    have hamax := pos_lt una lastack
    have hfmax := pos_lt una cur.fin
    have hfin : SEQ_LEQ cur.fin lastack = true ↔ pos una cur.fin ≤ pos una lastack :=
      seqLeq_iff (by omega) (by omega)
    have hstart : SEQ_LT cur.start lastack = true ↔ pos una cur.start < pos una lastack :=
      seqLt_iff (by omega) (by omega)
    have hrxmit : SEQ_LT cur.rxmit lastack = true ↔ pos una cur.rxmit < pos una lastack :=
      seqLt_iff (by omega) (by omega)
    rw [delHoles]
    split
    · next hc =>
      rw [hfin] at hc
      obtain ⟨hboard, hcount, -⟩ := ih (numholes - 1) hrest (by omega)
      refine ⟨hboard.mono (by omega), ?_, nofun⟩
      rw [List.length_cons]
      push_cast
      omega
    rename_i hnfin
    rw [hfin] at hnfin
    split
    · next hc =>
      rw [hstart] at hc
      have hlo' : lo ≤ pos una lastack := by omega
      refine ⟨⟨max_le hlo' le_rfl, not_le.1 hnfin, ?_, ?_, h5, hrest⟩, rfl, nofun⟩
      · dsimp only
        split
        · exact le_rfl
        · next hr =>
          rw [hrxmit] at hr
          omega
      · dsimp only
        split
        · exact (not_le.1 hnfin).le
        · exact h4
    · next hc =>
      rw [hstart] at hc
      exact ⟨⟨by omega, h2, h3, h4, h5, hrest⟩, rfl, nofun⟩

theorem tcpDelSackholes_inv (hinv : Inv tp) (th_ack : Seq) :
    Inv (tcpDelSackholes tp th_ack) ∧ Beyond (tcpDelSackholes tp th_ack) th_ack := by
  cases hen : tp.sack_enable with
  | false =>
    have heq : tcpDelSackholes tp th_ack = tp := by simp [tcpDelSackholes, hen]
    rw [heq]
    refine ⟨hinv, fun _ h hmem => ?_⟩
    rw [hinv.disabled hen] at hmem
    simp at hmem
  | true =>
    generalize hlast : (if SEQ_GT th_ack tp.snd_una then th_ack else tp.snd_una) = lastack
    have hack : 0 ≤ pos tp.snd_una lastack ∧
        (SEQ_GT th_ack tp.snd_una = true → pos tp.snd_una th_ack = pos tp.snd_una lastack) := by
      rw [← hlast]
      split
      · next hgt =>
        have hpos : 0 < pos tp.snd_una th_ack := by
          simpa [SEQ_GT, pos] using hgt
        exact ⟨hpos.le, fun _ => rfl⟩
      · next hgt => exact ⟨by simp, fun h => absurd h hgt⟩
    obtain ⟨hboard, hcount, hnil⟩ := delHoles_spec lastack tp.snd_numholes hinv.board le_rfl hack.1
    have heq : tcpDelSackholes tp th_ack = { tp with
        snd_numholes := (delHoles lastack tp.snd_numholes tp.snd_holes).1
        snd_holes := (delHoles lastack tp.snd_numholes tp.snd_holes).2 } := by
      simp [tcpDelSackholes, hen, hinv.listen, hlast]
    rw [heq]
    refine ⟨hinv.update ⟨hboard.mono (le_max_left _ _), ?_⟩ rfl rfl hen rfl rfl ?_, ?_⟩
    · have hc := hinv.count
      dsimp only
      omega
    · exact fun hne => hinv.last fun hz => hne (hnil hz)
    · exact hboard.beyond fun hgt => (hack.2 hgt).le.trans (le_max_right _ _)

theorem Inv.acked (hinv : Inv tp) (hbeyond : Beyond tp th_ack)
    (hgt : SEQ_GT th_ack tp.snd_una = true) (hle : SEQ_LEQ th_ack tp.snd_max = true) :
    Inv { tp with snd_una := th_ack } := by
  have hpos : 0 < pos tp.snd_una th_ack := by
    simpa [SEQ_GT, pos] using hgt
  have hamax := pos_lt tp.snd_una th_ack
  have hmmax := pos_lt tp.snd_una tp.snd_max
  have hlmax := pos_lt tp.snd_una tp.rcv_lastsack
  have hw := hinv.window
  have hmax : pos tp.snd_una th_ack ≤ pos tp.snd_una tp.snd_max :=
    (seqLeq_iff (by omega) (by omega)).1 hle
  have hbase : pos th_ack tp.snd_max = pos tp.snd_una tp.snd_max - pos tp.snd_una th_ack :=
    pos_base (by omega) (by omega)
  obtain ⟨lo, hlo, hboard, hackle⟩ := hbeyond.board hinv.board
  have hackle := hackle hgt
  refine ⟨⟨?_, hinv.count⟩, hinv.listen, hinv.maxseg, hinv.disabled, by simp only; omega, ?_⟩
  · cases hholes : tp.snd_holes with
    | nil => trivial
    | cons a holes =>
      have hfirst := hboard.forall a (by simp [hholes])
      have hlast : pos th_ack tp.rcv_lastsack =
          pos tp.snd_una tp.rcv_lastsack - pos tp.snd_una th_ack := pos_base (by omega) (by omega)
      have hre := hboard.rebase hpos.le hackle hlmax
      rw [hholes, ← hlast] at hre
      exact hre.mono (by omega)
  · intro hne
    obtain ⟨a, holes, hholes⟩ := List.exists_cons_of_ne_nil hne
    have hfirst := hboard.forall a (by
      dsimp only at hholes
      simp [hholes])
    have hlast : pos th_ack tp.rcv_lastsack =
        pos tp.snd_una tp.rcv_lastsack - pos tp.snd_una th_ack := pos_base (by omega) (by omega)
    have hl := hinv.last hne
    dsimp only
    omega

theorem tcpSackOutput_eq {front rest : List Sackhole} {p : Sackhole}
    (h : tcpSackOutput una holes = some (front, p, rest)) :
    holes = front ++ p :: rest ∧ SEQ_LT p.rxmit p.fin = true := by
  induction holes generalizing front with
  | nil => cases h
  | cons a holes ih =>
    rw [tcpSackOutput] at h
    split at h
    · next hc =>
      cases h
      exact ⟨rfl, hc.2.1⟩
    · obtain ⟨⟨front', q, rest'⟩, hr, heq⟩ := Option.map_eq_some_iff.1 h
      cases heq
      obtain ⟨rfl, hlt⟩ := ih hr
      exact ⟨rfl, hlt⟩

theorem Board.retransmit {front rest : List Sackhole} {p : Sackhole} {len : ℕ}
    (hb : Board una hi lo (front ++ p :: rest)) (hlo : 0 ≤ lo) (hlen : len ≤ (p.fin - p.rxmit).toNat) :
    Board una hi lo (front ++ { p with rxmit := p.rxmit + BitVec.ofNat 32 len } :: rest) := by
  induction front generalizing lo with
  | nil =>
    obtain ⟨h1, h2, h3, h4, h5, hrest⟩ := hb
    have hfmax := pos_lt una p.fin
    have hdiff : (p.fin - p.rxmit).toInt = pos una p.fin - pos una p.rxmit :=
      toInt_sub_eq (by omega) (by omega)
    have hnat : ((p.fin - p.rxmit).toNat : ℤ) = pos una p.fin - pos una p.rxmit := by
      rw [BitVec.toInt_eq_toNat_cond] at hdiff
      split at hdiff
      · exact hdiff
      · have := (p.fin - p.rxmit).isLt
        omega
    have hadd := pos_add (n := una) (a := p.rxmit) (i := len) (by omega)
    exact ⟨h1, h2, by dsimp only; omega, by dsimp only; omega, h5, hrest⟩
  | cons a front ih =>
    obtain ⟨h1, h2, h3, h4, h5, hrest⟩ := hb
    exact ⟨h1, h2, h3, h4, h5, ih hrest (by omega)⟩

end Ops

inductive Event
  | segment (th_ack : Seq)
  | option (alloc : ℕ → ℕ → Bool) (ack : Bool) (cp : List (BitVec 8))
  | acked
  | leave
  | retransmit (len : ℕ)
  | send (len : ℕ)
  | timeout
  | maxseg (t_maxseg : ℕ)

/-- A sender; `seg` is the acknowledgement of the segment that `tcp_input` is at work with. -/
structure Sender where
  tp : Tcpcb
  seg : Option Seq

/-- The connection is set up. -/
def Sender.start (sack_enable : Bool) (t_maxseg : ℕ) (iss rcv_lastsack : Seq) : Sender :=
  ⟨⟨false, sack_enable, t_maxseg, iss, iss, rcv_lastsack, 0, []⟩, none⟩

/-- What an event does. `tcp_input` deletes holes before it looks at the options, and sets
`snd_una` last; there is less than half the circle of data in flight. -/
inductive Step : Sender → Event → Sender → Prop
  | segment (tp : Tcpcb) (th_ack : Seq) :
      Step ⟨tp, none⟩ (.segment th_ack) ⟨tcpDelSackholes tp th_ack, some th_ack⟩
  | option {alloc : ℕ → ℕ → Bool} {tp tp' : Tcpcb} {ack : Bool} {th_ack : Seq} {cp : List (BitVec 8)} :
      tcpSackOption alloc tp ack th_ack cp = some tp' →
      Step ⟨tp, some th_ack⟩ (.option alloc ack cp) ⟨tp', some th_ack⟩
  | acked {tp : Tcpcb} {th_ack : Seq} : SEQ_GT th_ack tp.snd_una = true →
      SEQ_LEQ th_ack tp.snd_max = true →
      Step ⟨tp, some th_ack⟩ .acked ⟨{ tp with snd_una := th_ack }, none⟩
  | leave (tp : Tcpcb) (th_ack : Seq) : Step ⟨tp, some th_ack⟩ .leave ⟨tp, none⟩
  | retransmit {tp : Tcpcb} {seg : Option Seq} {front rest : List Sackhole} {p : Sackhole} {len : ℕ} :
      tcpSackOutput tp.snd_una tp.snd_holes = some (front, p, rest) →
      len ≤ min tp.t_maxseg (p.fin - p.rxmit).toNat →
      Step ⟨tp, seg⟩ (.retransmit len)
        ⟨{ tp with
            snd_holes := front ++ { p with rxmit := p.rxmit + BitVec.ofNat 32 len } :: rest }, seg⟩
  | send {tp : Tcpcb} {seg : Option Seq} {len : ℕ} : ahead tp.snd_una tp.snd_max + len < 2 ^ 31 →
      Step ⟨tp, seg⟩ (.send len) ⟨{ tp with snd_max := tp.snd_max + BitVec.ofNat 32 len }, seg⟩
  | timeout (tp : Tcpcb) : Step ⟨tp, none⟩ .timeout ⟨tcpTimerFreesack tp, none⟩
  | maxseg {tp : Tcpcb} {seg : Option Seq} {t_maxseg : ℕ} : t_maxseg ≠ 0 →
      Step ⟨tp, seg⟩ (.maxseg t_maxseg) ⟨{ tp with t_maxseg := t_maxseg }, seg⟩

/-- The events that the scoreboard can take: options of such blocks, and the timer while there
are no holes. -/
def Event.ok (st : Sender) : Event → Prop
  | .option alloc _ cp => ∀ th_ack, st.seg = some th_ack → optionOk alloc st.tp th_ack cp
  | .timeout => st.tp.snd_holes = []
  | _ => True

/-- The senders that events within `ok` lead to. -/
inductive Reached (ok : Sender → Event → Prop) : Sender → Prop
  | start (sack_enable : Bool) {t_maxseg : ℕ} (iss rcv_lastsack : Seq) : t_maxseg ≠ 0 →
      Reached ok (Sender.start sack_enable t_maxseg iss rcv_lastsack)
  | step {st st' : Sender} {event : Event} : Reached ok st → Step st event st' → ok st event →
      Reached ok st'

section Runs

variable {ok : Sender → Event → Prop} {st st' : Sender} {event : Event}

/-- The invariant of a run. -/
structure Sound (st : Sender) : Prop where
  inv : Inv st.tp
  beyond : ∀ th_ack, st.seg = some th_ack → Beyond st.tp th_ack

theorem Beyond.of_start {tp tp' : Tcpcb} {th_ack : Seq} (h : Beyond tp th_ack)
    (huna : tp'.snd_una = tp.snd_una)
    (hstart : ∀ h ∈ tp'.snd_holes, ∃ g ∈ tp.snd_holes, g.start = h.start) : Beyond tp' th_ack := by
  intro hgt h' hmem
  rw [huna] at hgt ⊢
  obtain ⟨g, hg, heq⟩ := hstart h' hmem
  rw [← heq]
  exact h hgt g hg

theorem Inv.send {tp : Tcpcb} {len : ℕ} (h : Inv tp)
    (hlen : ahead tp.snd_una tp.snd_max + len < 2 ^ 31) :
    Inv { tp with snd_max := tp.snd_max + BitVec.ofNat 32 len } := by
  have hahead : (ahead tp.snd_una tp.snd_max : ℤ) = pos tp.snd_una tp.snd_max := by
    rw [ahead] at hlen ⊢
    rw [pos, BitVec.toInt_eq_toNat_cond, if_pos (by omega)]
  have hadd := pos_add (n := tp.snd_una) (a := tp.snd_max) (i := len) (by omega)
  have hw := h.window
  refine ⟨⟨h.board, h.count⟩, h.listen, h.maxseg, h.disabled, by dsimp only; omega, fun hne => ?_⟩
  have hl := h.last hne
  dsimp only
  omega

theorem Step.sound (hstep : Step st event st') (hok : event.ok st) (h : Sound st) : Sound st' := by
  cases hstep with
  | segment tp th_ack =>
    obtain ⟨hinv, hbeyond⟩ := tcpDelSackholes_inv h.inv th_ack
    refine ⟨hinv, fun a ha => ?_⟩
    cases ha
    exact hbeyond
  | @option alloc tp tp' ack th_ack cp hopt =>
    obtain ⟨tp₁, heq, htaken⟩ := tcpSackOption_taken alloc ack cp h.inv (h.beyond th_ack rfl)
      (hok th_ack rfl)
    rw [hopt] at heq
    cases heq
    refine ⟨htaken.inv, fun a ha => ?_⟩
    cases ha
    exact htaken.beyond
  | @acked tp th_ack hgt hle => exact ⟨h.inv.acked (h.beyond th_ack rfl) hgt hle, nofun⟩
  | leave tp th_ack => exact ⟨h.inv, nofun⟩
  | @retransmit tp seg front rest p len hout hlen =>
    obtain ⟨hholes, -⟩ := tcpSackOutput_eq hout
    have hboard := h.inv.board
    have hcount := h.inv.count
    dsimp only at hboard hcount
    rw [hholes] at hboard hcount
    have hne : tp.snd_holes ≠ [] := by simp [hholes]
    have henable : tp.sack_enable = true := by
      simpa using fun hoff => hne (h.inv.disabled hoff)
    refine ⟨h.inv.update ⟨hboard.retransmit le_rfl (by omega), ?_⟩ rfl rfl henable rfl rfl
      fun _ => h.inv.last hne, fun a ha => (h.beyond a ha).of_start rfl ?_⟩
    · simpa using hcount
    · intro q hq
      dsimp only at hq ⊢
      rw [hholes]
      obtain hq | hq := List.mem_append.1 hq
      · exact ⟨q, by simp [hq], rfl⟩
      · obtain rfl | hq := List.mem_cons.1 hq
        · exact ⟨p, by simp, rfl⟩
        · exact ⟨q, by simp [hq], rfl⟩
  | send hlen => exact ⟨h.inv.send hlen, fun a ha => (h.beyond a ha).of_start rfl fun q hq => ⟨q, hq, rfl⟩⟩
  | timeout tp =>
    have hnil : tp.snd_holes = [] := hok
    have heq : tcpTimerFreesack tp = tp := by
      rw [tcpTimerFreesack, ← hnil]
    rw [heq]
    exact h
  | maxseg hne =>
    have hinv := h.inv
    exact ⟨⟨⟨hinv.board, hinv.count⟩, hinv.listen, hne, hinv.disabled, hinv.window, hinv.last⟩,
      fun a ha => (h.beyond a ha).of_start rfl fun q hq => ⟨q, hq, rfl⟩⟩

theorem Reached.sound (h : Reached (fun st event => event.ok st) st) : Sound st := by
  induction h with
  | start sack_enable iss rcv_lastsack hne =>
    exact ⟨⟨⟨trivial, rfl⟩, rfl, hne, fun _ => rfl, by simp [Sender.start],
      fun hz => absurd rfl hz⟩, nofun⟩
  | step _ hstep hok ih => exact hstep.sound hok ih

/-- The scoreboard as it should be. -/
structure Sorted (tp : Tcpcb) : Prop where
  pairwise : tp.snd_holes.Pairwise fun a b => pos tp.snd_una a.fin ≤ pos tp.snd_una b.start
  hole : ∀ h ∈ tp.snd_holes, 0 ≤ pos tp.snd_una h.start ∧
    pos tp.snd_una h.start < pos tp.snd_una h.fin ∧ pos tp.snd_una h.start ≤ pos tp.snd_una h.rxmit ∧
    pos tp.snd_una h.rxmit ≤ pos tp.snd_una h.fin ∧
    pos tp.snd_una h.fin ≤ pos tp.snd_una tp.rcv_lastsack
  count : tp.snd_numholes = tp.snd_holes.length

/-- Along every run of events that it can take the scoreboard is sorted, and no option makes the
loop use a `NULL` predecessor. -/
theorem scoreboard_sorted (h : Reached (fun st event => event.ok st) st) :
    Sorted st.tp ∧ ∀ th_ack alloc ack cp, st.seg = some th_ack →
      optionOk alloc st.tp th_ack cp → tcpSackOption alloc st.tp ack th_ack cp ≠ none := by
  have hs := h.sound
  refine ⟨⟨hs.inv.board.pairwise, hs.inv.board.forall, hs.inv.count⟩, ?_⟩
  intro th_ack alloc ack cp hseg hok
  obtain ⟨tp', heq, -⟩ := tcpSackOption_taken alloc ack cp hs.inv (hs.beyond th_ack hseg) hok
  simp [heq]

def sampleOption (start fin : Seq) : List (BitVec 8) :=
  [5, 10, start.extractLsb' 24 8, start.extractLsb' 16 8, start.extractLsb' 8 8,
    start.extractLsb' 0 8, fin.extractLsb' 24 8, fin.extractLsb' 16 8, fin.extractLsb' 8 8,
    fin.extractLsb' 0 8]

def sampleSender (seg : Option Seq) : Sender :=
  ⟨⟨false, true, 10, 0, 100, 100, 1, [⟨0, 10, 3, 0⟩]⟩, seg⟩

theorem sample_reached (ok : Sender → Event → Prop)
    (hok : ∀ st event, event.ok st → ok st event) : Reached ok (sampleSender none) := by
  have hstart : Reached ok (Sender.start true 10 0 0) := .start true 0 0 (by decide)
  have hsend : Reached ok ⟨⟨false, true, 10, 0, 100, 0, 0, []⟩, none⟩ :=
    hstart.step (show Step _ (.send 100) _ from .send (by decide)) (hok _ _ trivial)
  have hseg : Reached ok ⟨⟨false, true, 10, 0, 100, 0, 0, []⟩, some 0⟩ :=
    hsend.step (.segment _ 0) (hok _ _ trivial)
  have hopt : Reached ok (sampleSender (some 0)) := by
    refine hseg.step (show Step _ (.option (fun _ _ => true) true (sampleOption 10 100)) _
      from .option (by decide)) (hok _ _ ?_)
    intro th_ack hack
    cases hack
    refine ⟨?_, fun _ _ => trivial⟩
    unfold blockOk
    decide
  exact hopt.step (.leave _ 0) (hok _ _ trivial)

theorem scoreboard_sorted_one : Reached (fun st event => event.ok st) (sampleSender none) ∧
    Sorted (sampleSender none).tp := by
  have hreached := sample_reached (fun st event => event.ok st) fun _ _ h => h
  exact ⟨hreached, (scoreboard_sorted hreached).1⟩

/-- A block that begins almost half the circle before `snd_una` deletes the only hole; then
`rcv_lastsack` looks to be before it, and the new hole is to be put behind `NULL`. -/
theorem null_predecessor : ¬ ∀ st, Reached (fun _ _ => True) st →
    Sorted st.tp ∧ ∀ th_ack alloc ack cp, st.seg = some th_ack →
      tcpSackOption alloc st.tp ack th_ack cp ≠ none := by
  intro h
  have hreached : Reached (fun _ _ => True) (sampleSender (some 0)) :=
    (sample_reached (fun _ _ => True) fun _ _ _ => trivial).step (.segment _ 0) trivial
  refine (h _ hreached).2 0 (fun _ _ => true) true (sampleOption 0x80000033 50) rfl ?_
  decide

end Runs

end OpenbsdKernel.TcpSack
