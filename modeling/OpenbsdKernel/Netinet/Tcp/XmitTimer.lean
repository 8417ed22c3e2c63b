import Mathlib.Tactic

/-!
# Round-trip times

`tcp_xmit_timer` of `netinet/tcp_input.c`. The averages are kept in 16 bits; `conv` is what happens
to a value that is stored in such a variable, so that the same code can be read in unbounded
integers. Shifts to the right are divisions that round downwards.
-/
namespace OpenbsdKernel.TcpRtt

def PR_SLOWHZ : ℤ := 2
def TCPTV_REXMTMAX : ℤ := 64 * PR_SLOWHZ
def TCP_RTT_SHIFT : ℕ := 3
def TCP_RTTVAR_SHIFT : ℕ := 2
def TCP_RTT_BASE_SHIFT : ℕ := 2
def TCP_RTT_MAX : ℤ := 2 ^ 9

/-- The fields of `struct tcpcb` that `tcp_xmit_timer` reads or writes. -/
structure Tcpcb where
  t_srtt : ℤ
  t_rttvar : ℤ
  t_rttmin : UInt16
  t_rxtcur : ℤ
  t_rtttime : ℤ
  t_rxtshift : ℤ
  t_softerror : ℤ
  deriving DecidableEq, Repr

/-- A value as a `short`. -/
def short (x : ℤ) : ℤ := x.bmod (2 ^ 16)

def clampRtt (rtt : ℤ) : ℤ := if rtt < 0 then 0 else if TCP_RTT_MAX < rtt then TCP_RTT_MAX else rtt

def TCP_REXMTVAL (tp : Tcpcb) : ℤ :=
  (tp.t_srtt / 2 ^ TCP_RTT_SHIFT + tp.t_rttvar) / 2 ^ TCP_RTT_BASE_SHIFT

/-- `TCPT_RANGESET`: what the variable holds afterwards. -/
def TCPT_RANGESET (conv : ℤ → ℤ) (value tvmin tvmax : ℤ) : ℤ :=
  let tv := conv value
  if tv < tvmin then conv tvmin else if tvmax < tv then conv tvmax else tv

/-- The difference of a sample from the smoothed time, as it is first stored in `delta`. -/
def srttDelta (tp : Tcpcb) (rtt : ℤ) : ℤ :=
  rtt * 2 ^ TCP_RTT_BASE_SHIFT - tp.t_srtt / 2 ^ TCP_RTT_SHIFT

/-- The difference of its amount `delta` from the smoothed variance, which is stored there then. -/
def rttvarDelta (tp : Tcpcb) (delta : ℤ) : ℤ := delta - tp.t_rttvar / 2 ^ TCP_RTTVAR_SHIFT

def smooth (conv : ℤ → ℤ) (tp : Tcpcb) (rtt : ℤ) : ℤ × ℤ :=
  if tp.t_srtt ≠ 0 then
    let delta := conv (srttDelta tp rtt)
    let t_srtt := conv (tp.t_srtt + delta)
    let t_srtt := if t_srtt ≤ 0 then 2 ^ TCP_RTT_BASE_SHIFT else t_srtt
    let delta := if delta < 0 then conv (-delta) else delta
    let delta := conv (rttvarDelta tp delta)
    let t_rttvar := conv (tp.t_rttvar + delta)
    (t_srtt, if t_rttvar ≤ 0 then 2 ^ TCP_RTT_BASE_SHIFT else t_rttvar)
  else
    (conv ((rtt + 1) * 2 ^ (TCP_RTT_SHIFT + TCP_RTT_BASE_SHIFT)),
      conv ((rtt + 1) * 2 ^ (TCP_RTTVAR_SHIFT + TCP_RTT_BASE_SHIFT - 1)))

def rexmtMin (tp : Tcpcb) (rtt : ℤ) : ℤ := min (max (rtt + 2) tp.t_rttmin.toNat) TCPTV_REXMTMAX

/-- `tcp_xmit_timer` -/
def xmitTimer (conv : ℤ → ℤ) (tp : Tcpcb) (rtt : ℤ) : Tcpcb :=
  let rtt := clampRtt rtt
  let averages := smooth conv tp rtt
  let tp := { tp with t_srtt := averages.1, t_rttvar := averages.2, t_rtttime := 0, t_rxtshift := 0 }
  let rttmin := conv (rexmtMin tp rtt)
  { tp with
    t_rxtcur := TCPT_RANGESET conv (TCP_REXMTVAL tp) rttmin TCPTV_REXMTMAX
    t_softerror := 0 }

def tcp_xmit_timer : Tcpcb → ℤ → Tcpcb := xmitTimer short

/-- The same in unbounded integers. -/
def exactTimer : Tcpcb → ℤ → Tcpcb := xmitTimer id

/-- The values that a `short` can hold. -/
def InShort (x : ℤ) : Prop := -2 ^ 15 ≤ x ∧ x < 2 ^ 15

theorem short_eq {x : ℤ} (h : InShort x) : short x = x := by
  obtain ⟨hlow, hhigh⟩ := h
  unfold short
  rw [Int.bmod_eq_of_le] <;> omega

theorem clampRtt_nonneg (rtt : ℤ) : 0 ≤ clampRtt rtt := by
  unfold clampRtt TCP_RTT_MAX
  split_ifs <;> omega

theorem clampRtt_le (rtt : ℤ) : clampRtt rtt ≤ 512 := by
  unfold clampRtt TCP_RTT_MAX
  split_ifs <;> omega

theorem inShort_of_abs {x : ℤ} (h : |x| ≤ 32767) : InShort x := by
  obtain ⟨hlow, hhigh⟩ := abs_le.mp h
  constructor <;> omega

section Sample

variable {conv : ℤ → ℤ} {tp : Tcpcb} {rtt M : ℤ}

/-- The averages of samples that are at most `M`. -/
structure Averaged (tp : Tcpcb) (M : ℤ) : Prop where
  nonneg : 0 ≤ M
  le : M ≤ 512
  srtt_pos : 0 < tp.t_srtt
  srtt_le : tp.t_srtt ≤ 32 * (M + 1)
  rttvar_pos : 0 < tp.t_rttvar
  rttvar_le : tp.t_rttvar ≤ 8208

/-- No value that is stored in `delta` is too large for it. -/
def DeltaFits (tp : Tcpcb) (rtt : ℤ) : Prop :=
  InShort (srttDelta tp rtt) ∧ InShort |srttDelta tp rtt| ∧ InShort (rttvarDelta tp |srttDelta tp rtt|)

theorem Averaged.srttDelta_le (h : Averaged tp M) (hrtt : 0 ≤ rtt) (hmax : rtt ≤ 512) :
    |srttDelta tp rtt| ≤ 2052 := by
  have h₁ := h.le
  have h₂ := h.srtt_pos
  have h₃ := h.srtt_le
  rw [abs_le]
  simp only [srttDelta, TCP_RTT_BASE_SHIFT, TCP_RTT_SHIFT]
  omega

theorem Averaged.deltaFits (h : Averaged tp M) (hrtt : 0 ≤ rtt) (hmax : rtt ≤ 512) :
    DeltaFits tp rtt := by
  have hdelta := h.srttDelta_le hrtt hmax
  have hpos := h.rttvar_pos
  have hle := h.rttvar_le
  refine ⟨inShort_of_abs (by omega), inShort_of_abs (by rw [abs_abs]; omega), inShort_of_abs ?_⟩
  have habs := abs_nonneg (srttDelta tp rtt)
  rw [abs_le]
  simp only [rttvarDelta, TCP_RTTVAR_SHIFT]
  omega

theorem Averaged.smooth_eq (hconv : ∀ x, InShort x → conv x = x) (h : Averaged tp M)
    (hrtt : 0 ≤ rtt) (hmax : rtt ≤ 512) :
    smooth conv tp rtt =
      (tp.t_srtt + srttDelta tp rtt, tp.t_rttvar + rttvarDelta tp |srttDelta tp rtt|) := by
  obtain ⟨hfit₁, hfit₂, hfit₃⟩ := h.deltaFits hrtt hmax
  have hamount := h.srttDelta_le hrtt hmax
  have hM := h.le
  have hsrtt := h.srtt_pos
  have hsrtt' := h.srtt_le
  have hrttvar := h.rttvar_pos
  have hrttvar' := h.rttvar_le
  have habs : (if srttDelta tp rtt < 0 then conv (-srttDelta tp rtt) else srttDelta tp rtt) =
      |srttDelta tp rtt| := by
    split_ifs with hneg
    · rw [abs_of_neg hneg] at hfit₂ ⊢
      exact hconv _ hfit₂
    · rw [abs_of_nonneg (by omega)]
  -- neither average is set back
  have hnew : 0 < tp.t_srtt + srttDelta tp rtt := by
    simp only [srttDelta, TCP_RTT_BASE_SHIFT, TCP_RTT_SHIFT]
    omega
  have hnew' : 0 < tp.t_rttvar + rttvarDelta tp |srttDelta tp rtt| := by
    have := abs_nonneg (srttDelta tp rtt)
    simp only [rttvarDelta, TCP_RTTVAR_SHIFT]
    omega
  have hshort : InShort (tp.t_srtt + srttDelta tp rtt) := by
    have := abs_le.mp hamount
    constructor <;> omega
  have hshort' : InShort (tp.t_rttvar + rttvarDelta tp |srttDelta tp rtt|) := by
    refine ⟨by omega, ?_⟩
    simp only [rttvarDelta, TCP_RTTVAR_SHIFT]
    omega
  rw [smooth, if_pos hsrtt.ne']
  simp only [hconv _ hfit₁, habs, hconv _ hfit₃, hconv _ hshort, hconv _ hshort']
  rw [if_neg (by omega), if_neg (by omega)]

theorem smooth_first (hconv : ∀ x, InShort x → conv x = x) (hfresh : tp.t_srtt = 0)
    (hrtt : 0 ≤ rtt) (hmax : rtt ≤ 512) :
    smooth conv tp rtt = ((rtt + 1) * 32, (rtt + 1) * 8) := by
  have hsrtt : InShort ((rtt + 1) * 32) := by constructor <;> omega
  have hrttvar : InShort ((rtt + 1) * 8) := by constructor <;> omega
  rw [smooth, if_neg (not_not.mpr hfresh), ← hconv _ hsrtt, ← hconv _ hrttvar]
  rfl

/-- The timer lies between its bounds. -/
theorem rangeset_mem (hconv : ∀ x, InShort x → conv x = x) {value low high : ℤ}
    (hvalue : InShort value) (hlow : InShort low) (hhigh : InShort high) (hle : low ≤ high) :
    TCPT_RANGESET conv value low high = max low (min value high) := by
  unfold TCPT_RANGESET
  simp only [hconv _ hvalue, hconv _ hlow, hconv _ hhigh]
  split_ifs with h₁ h₂
  · rw [max_eq_left (min_le_of_left_le h₁.le)]
  · rw [min_eq_right h₂.le, max_eq_right hle]
  · rw [min_eq_left (by omega), max_eq_right (by omega)]

/-- The state after a sample with the averages `averages`. -/
def sampled (tp : Tcpcb) (rtt : ℤ) (averages : ℤ × ℤ) : Tcpcb where
  t_srtt := averages.1
  t_rttvar := averages.2
  t_rttmin := tp.t_rttmin
  t_rxtcur := max (rexmtMin tp rtt) (min
    ((averages.1 / 2 ^ TCP_RTT_SHIFT + averages.2) / 2 ^ TCP_RTT_BASE_SHIFT) TCPTV_REXMTMAX)
  t_rtttime := 0
  t_rxtshift := 0
  t_softerror := 0

theorem rexmtMin_le (tp : Tcpcb) (rtt : ℤ) : rexmtMin tp rtt ≤ TCPTV_REXMTMAX := min_le_right _ _

theorem xmitTimer_eq (hconv : ∀ x, InShort x → conv x = x) {averages : ℤ × ℤ}
    (hsmooth : smooth conv tp (clampRtt rtt) = averages)
    (h : Averaged (sampled tp (clampRtt rtt) averages) M) :
    xmitTimer conv tp rtt = sampled tp (clampRtt rtt) averages := by
  have hnonneg := clampRtt_nonneg rtt
  have hmin : InShort (rexmtMin tp (clampRtt rtt)) := by
    have hle := rexmtMin_le tp (clampRtt rtt)
    have hpos : 0 ≤ rexmtMin tp (clampRtt rtt) := by
      refine le_min ?_ (by decide)
      exact le_max_of_le_left (by omega)
    simp only [TCPTV_REXMTMAX, PR_SLOWHZ] at hle
    constructor <;> omega
  have hvalue : InShort
      ((averages.1 / 2 ^ TCP_RTT_SHIFT + averages.2) / 2 ^ TCP_RTT_BASE_SHIFT) := by
    have h₀ := h.le
    have h₁ := h.srtt_pos
    have h₂ := h.srtt_le
    have h₃ := h.rttvar_pos
    have h₄ := h.rttvar_le
    simp only [sampled] at h₁ h₂ h₃ h₄
    simp only [TCP_RTT_SHIFT, TCP_RTT_BASE_SHIFT]
    constructor <;> omega
  have hrange := rangeset_mem hconv hvalue hmin (by constructor <;> decide)
    (rexmtMin_le tp (clampRtt rtt))
  have hkept : conv (rexmtMin { tp with
      t_srtt := averages.1
      t_rttvar := averages.2
      t_rtttime := 0
      t_rxtshift := 0 } (clampRtt rtt)) = rexmtMin tp (clampRtt rtt) := hconv _ hmin
  simp only [xmitTimer, hsmooth, TCP_REXMTVAL, sampled, hkept, hrange]

theorem averaged_first (tp : Tcpcb) (hrtt : 0 ≤ rtt) (hmax : rtt ≤ 512) :
    Averaged (sampled tp rtt ((rtt + 1) * 32, (rtt + 1) * 8)) rtt := by
  refine ⟨hrtt, hmax, ?_, ?_, ?_, ?_⟩ <;> simp only [sampled] <;> omega

theorem Averaged.next (h : Averaged tp M) (hrtt : 0 ≤ rtt) (hmax : rtt ≤ 512) :
    Averaged (sampled tp rtt (tp.t_srtt + srttDelta tp rtt,
      tp.t_rttvar + rttvarDelta tp |srttDelta tp rtt|)) (max M rtt) := by
  have hamount := h.srttDelta_le hrtt hmax
  have habs := abs_nonneg (srttDelta tp rtt)
  have h₁ := h.srtt_pos
  have h₂ := h.srtt_le
  have h₃ := h.rttvar_pos
  have h₄ := h.rttvar_le
  have hM := le_max_left M rtt
  have hM' := le_max_right M rtt
  refine ⟨h.nonneg.trans hM, max_le h.le hmax, ?_, ?_, ?_, ?_⟩
  · simp only [sampled, srttDelta, TCP_RTT_BASE_SHIFT, TCP_RTT_SHIFT]
    omega
  · simp only [sampled, srttDelta, TCP_RTT_BASE_SHIFT, TCP_RTT_SHIFT]
    omega
  · simp only [sampled, rttvarDelta, TCP_RTTVAR_SHIFT]
    omega
  · simp only [sampled, rttvarDelta, TCP_RTTVAR_SHIFT]
    omega

theorem short_conv (x : ℤ) (h : InShort x) : short x = x := short_eq h

theorem id_conv (x : ℤ) (_ : InShort x) : id x = x := rfl

def AveragedOver (tp : Tcpcb) (samples : List ℤ) : Prop :=
  tp.t_srtt = 0 ∨ ∃ s ∈ samples, Averaged tp (clampRtt s)

/-- A step: the code and the unbounded integers come to the same state. -/
theorem timer_step {samples : List ℤ} (h : AveragedOver tp samples) (rtt : ℤ) :
    ∃ averages, tcp_xmit_timer tp rtt = sampled tp (clampRtt rtt) averages ∧
      exactTimer tp rtt = sampled tp (clampRtt rtt) averages ∧
      ∃ s ∈ samples ++ [rtt], Averaged (sampled tp (clampRtt rtt) averages) (clampRtt s) := by
  have hrtt := clampRtt_nonneg rtt
  have hmax := clampRtt_le rtt
  rcases h with hfresh | ⟨s, hs, h⟩
  · have hfirst := averaged_first tp hrtt hmax
    exact ⟨_, xmitTimer_eq short_conv (smooth_first short_conv hfresh hrtt hmax) hfirst,
      xmitTimer_eq id_conv (smooth_first id_conv hfresh hrtt hmax) hfirst, rtt, by simp, hfirst⟩
  · have hnext := h.next hrtt hmax
    refine ⟨_, xmitTimer_eq short_conv (h.smooth_eq short_conv hrtt hmax) hnext,
      xmitTimer_eq id_conv (h.smooth_eq id_conv hrtt hmax) hnext, ?_⟩
    rcases max_choice (clampRtt s) (clampRtt rtt) with heq | heq
    · rw [heq] at hnext
      exact ⟨s, by simp [hs], hnext⟩
    · rw [heq] at hnext
      exact ⟨rtt, by simp, hnext⟩

end Sample

section Run

variable {tp : Tcpcb}

/-- The code and the unbounded integers come to the same state in every run. -/
theorem timer_run (hfresh : tp.t_srtt = 0) (samples : List ℤ) :
    samples.foldl tcp_xmit_timer tp = samples.foldl exactTimer tp ∧
      (samples.foldl tcp_xmit_timer tp).t_rttmin = tp.t_rttmin ∧
      AveragedOver (samples.foldl tcp_xmit_timer tp) samples := by
  induction samples using List.reverseRecOn with
  | nil => exact ⟨rfl, rfl, .inl hfresh⟩
  | append_singleton samples rtt ih =>
    obtain ⟨hsame, hrttmin, hstate⟩ := ih
    obtain ⟨averages, hcode, hexact, h⟩ := timer_step hstate rtt
    simp only [List.foldl_append, List.foldl_cons, List.foldl_nil, ← hsame]
    rw [hcode, hexact]
    exact ⟨rfl, hrttmin, .inr h⟩

/-- In every run from a connection without an estimate the state is the one of the unbounded
integers, the averages are positive, the smoothed time is at most one tick more than some sample,
and the timer lies between its bounds; no value stored in `delta` is too large for it. -/
theorem tcp_xmit_timer_exact (hfresh : tp.t_srtt = 0) (samples : List ℤ) (rtt : ℤ) :
    let before := samples.foldl tcp_xmit_timer tp
    let after := tcp_xmit_timer before rtt
    after = exactTimer (samples.foldl exactTimer tp) rtt ∧
      (before.t_srtt ≠ 0 → DeltaFits before (clampRtt rtt)) ∧
      0 < after.t_srtt ∧ 0 < after.t_rttvar ∧
      (∃ s ∈ samples ++ [rtt], after.t_srtt / 2 ^ 5 ≤ clampRtt s + 1) ∧
      min (max (clampRtt rtt + 2) tp.t_rttmin.toNat) TCPTV_REXMTMAX ≤ after.t_rxtcur ∧
      after.t_rxtcur ≤ TCPTV_REXMTMAX := by
  intro before after
  obtain ⟨hsame, hrttmin, hstate⟩ := timer_run hfresh samples
  obtain ⟨averages, hcode, hexact, s, hs, h⟩ := timer_step hstate rtt
  have hafter : after = sampled before (clampRtt rtt) averages := hcode
  rw [← hafter] at h
  refine ⟨?_, fun hne => ?_, h.srtt_pos, h.rttvar_pos, ⟨s, hs, ?_⟩, ?_, ?_⟩
  · rw [← hsame, hexact, hafter]
  · rcases hstate with hzero | ⟨s, -, hbefore⟩
    · exact absurd hzero hne
    · exact hbefore.deltaFits (clampRtt_nonneg rtt) (clampRtt_le rtt)
  · have := h.srtt_le
    omega
  · rw [hafter, ← hrttmin]
    exact le_max_left _ _
  · rw [hafter]
    exact max_le (rexmtMin_le _ _) (min_le_right _ _)

/-- A new connection, with the defaults of `tcp_newtcpcb`. -/
def newTcpcb : Tcpcb := ⟨0, 48, 2, 12, 0, 0, 0⟩

theorem tcp_xmit_timer_exact_new :
    newTcpcb.t_srtt = 0 ∧
      (let before := [3, -1].foldl tcp_xmit_timer newTcpcb
      let after := tcp_xmit_timer before 1000
      after = exactTimer ([3, -1].foldl exactTimer newTcpcb) 1000 ∧
        (before.t_srtt ≠ 0 → DeltaFits before (clampRtt 1000)) ∧
        0 < after.t_srtt ∧ 0 < after.t_rttvar ∧
        (∃ s ∈ [3, -1] ++ [1000], after.t_srtt / 2 ^ 5 ≤ clampRtt s + 1) ∧
        min (max (clampRtt 1000 + 2) newTcpcb.t_rttmin.toNat) TCPTV_REXMTMAX ≤ after.t_rxtcur ∧
        after.t_rxtcur ≤ TCPTV_REXMTMAX) :=
  ⟨rfl, tcp_xmit_timer_exact rfl [3, -1] 1000⟩

end Run

end OpenbsdKernel.TcpRtt
