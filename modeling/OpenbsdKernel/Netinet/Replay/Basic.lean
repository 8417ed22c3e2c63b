import Mathlib.Logic.Function.Basic
import Mathlib.Tactic
import OpenbsdKernel.Lib.Bitmap
import OpenbsdKernel.Lib.Loop

/-!
# The anti-replay window of an inbound SA

`netinet/ip_esp.c`, `checkreplaywindow`: the right edge of the window and a bit map of the
numbers seen below it. The word of a number is taken modulo `TDB_REPLAYMAX`, which is no
multiple of 32, and its bit modulo 32.
-/
namespace OpenbsdKernel.IpEsp

def TDB_REPLAYWASTE : ℕ := 32
def TDB_REPLAYMAX : ℕ := 2100 + TDB_REPLAYWASTE
def AH_HMAC_INITIAL_RPL : ℕ := 1

/-- `howmany(TDB_REPLAYMAX, 32)`. -/
def SEEN_SIZE : ℕ := (TDB_REPLAYMAX + 31) / 32

/-- The fields of `struct tdb` the window is kept in; `esn` is `tdb_flags & TDBF_ESN`. -/
structure Tdb where
  esn : Bool
  tdb_rpl : BitVec 64
  tdb_seen : ℕ → BitVec 32

/-- A new SA: `tdb_rpl = AH_HMAC_INITIAL_RPL` and nothing seen. -/
def Tdb.initial (esn : Bool) : Tdb := ⟨esn, BitVec.ofNat 64 AH_HMAC_INITIAL_RPL, fun _ => 0#32⟩

def Tdb.tl (tdb : Tdb) : BitVec 32 := tdb.tdb_rpl.setWidth 32
def Tdb.th (tdb : Tdb) : BitVec 32 := (tdb.tdb_rpl >>> 32).setWidth 32

/-- The length of the window, shortened while few numbers were received. -/
def Tdb.window (tdb : Tdb) : BitVec 32 :=
  let window := BitVec.ofNat 32 (TDB_REPLAYMAX - TDB_REPLAYWASTE)
  if tdb.th = 0#32 ∧ tdb.tl < window then tdb.tl else window

def wordIdx (seq : BitVec 32) : ℕ := (seq.toNat % TDB_REPLAYMAX) / 32
def packetBit (seq : BitVec 32) : BitVec 32 := 1#32 <<< (31 - (seq &&& 31#32)).toNat

def clearStep (idx : ℕ) (s : ℕ × (ℕ → BitVec 32)) :
    Loop.Step (ℕ × (ℕ → BitVec 32)) (ℕ → BitVec 32) Empty :=
  if s.1 = idx then .done s.2
  else
    let i := (s.1 + 1) % SEEN_SIZE
    .next (i, Function.update s.2 i 0#32)

/-- The words from behind `i` up to `idx` are cleared; `none` is a loop that did not end. -/
def clearWords (tdb_seen : ℕ → BitVec 32) (i idx : ℕ) : Option (ℕ → BitVec 32) :=
  match Loop.run (clearStep idx) (SEEN_SIZE + 1) (i, tdb_seen) with
  | .returned tdb_seen _ => some tdb_seen
  | _ => none

/-- The number is marked in the map. -/
def mark (tdb_seen : ℕ → BitVec 32) (seq : BitVec 32) : ℕ → BitVec 32 :=
  Function.update tdb_seen (wordIdx seq) (tdb_seen (wordIdx seq) ||| packetBit seq)

/-- The commit of a number above the right edge. -/
def Tdb.advance (tdb : Tdb) (seqh seq : BitVec 32) : Option Tdb := do
  let tdb_seen ←
    if seq - tdb.tl > tdb.window then some fun _ => 0#32
    else clearWords tdb.tdb_seen (wordIdx tdb.tl) (wordIdx seq)
  return { tdb with
    tdb_seen := mark tdb_seen seq
    tdb_rpl := (seqh.setWidth 64 <<< 32) ||| seq.setWidth 64 }

/-- What a call returns, what it stores in `*seqh` (`none`: nothing), and the SA it leaves. -/
structure Verdict where
  ret : ℕ
  seqh : Option (BitVec 32)
  tdb : Tdb

def checkreplaywindow (tdb : Tdb) (seq : BitVec 32) (commit : Bool) : Option Verdict :=
  let tl := tdb.tl
  let th := tdb.th
  if (tdb.esn ∧ seq = 0#32 ∧ tl ≤ BitVec.ofNat 32 AH_HMAC_INITIAL_RPL ∧ th = 0#32) ∨
      (¬ tdb.esn ∧ seq = 0#32) then some ⟨1, none, tdb⟩
  else
    let window := tdb.window
    let wl := tl - window + 1#32
    let seen := tdb.tdb_seen (wordIdx seq) &&& packetBit seq ≠ 0#32
    let marked : Tdb := if commit then { tdb with tdb_seen := mark tdb.tdb_seen seq } else tdb
    -- the high part is kept
    if (tl ≥ window - 1#32 ∧ seq ≥ wl) ∨ (tl < window - 1#32 ∧ seq < wl) then
      if seq > tl then
        if commit then (tdb.advance th seq).map fun tdb => ⟨0, some th, tdb⟩
        else some ⟨0, some th, tdb⟩
      else if tl - seq ≥ window then some ⟨2, some th, tdb⟩
      else if seen then some ⟨3, some th, tdb⟩
      else some ⟨0, some th, marked⟩
    else if ¬ tdb.esn then some ⟨2, none, tdb⟩
    -- within the window, in the previous subspace
    else if tl < window - 1#32 ∧ seq ≥ wl then
      if seen then some ⟨3, none, tdb⟩
      else some ⟨0, some (th - 1#32), marked⟩
    -- the number has wrapped
    else
      let seqh := th + 1#32
      if seqh = 0#32 then some ⟨1, some seqh, tdb⟩
      else if commit then (tdb.advance seqh seq).map fun tdb => ⟨0, some seqh, tdb⟩
      else some ⟨0, some seqh, tdb⟩

/-- How many words `j` is behind `i`, round the map. -/
def cyc (i j : ℕ) : ℕ := (j + SEEN_SIZE - i) % SEEN_SIZE

theorem cyc_add {i j : ℕ} (hi : i < SEEN_SIZE) (hj : j < SEEN_SIZE) :
    (i ≤ j ∧ cyc i j + i = j) ∨ (j < i ∧ cyc i j + i = j + SEEN_SIZE) := by
  have hsize : SEEN_SIZE = 67 := rfl
  obtain hij | hij := le_or_gt i j
  · refine .inl ⟨hij, ?_⟩
    rw [cyc, Nat.add_comm j, Nat.add_sub_assoc hij, Nat.add_mod_left, Nat.mod_eq_of_lt (by omega)]
    omega
  · refine .inr ⟨hij, ?_⟩
    rw [cyc, Nat.mod_eq_of_lt (by omega)]
    omega

theorem cyc_lt (i j : ℕ) : cyc i j < SEEN_SIZE := Nat.mod_lt _ (by decide)

theorem cyc_self {i : ℕ} (hi : i < SEEN_SIZE) : cyc i i = 0 := by
  have := cyc_add hi hi
  omega

theorem cyc_inj {i j k : ℕ} (hi : i < SEEN_SIZE) (hj : j < SEEN_SIZE) (hk : k < SEEN_SIZE)
    (h : cyc i j = cyc i k) : j = k := by
  have hsize : SEEN_SIZE = 67 := rfl
  have h1 := cyc_add hi hj
  have h2 := cyc_add hi hk
  omega

/-- The next word is one further behind, as long as the loop has not come to `idx`. -/
theorem cyc_succ {i k idx : ℕ} (hi : i < SEEN_SIZE) (hk : k < SEEN_SIZE) (hidx : idx < SEEN_SIZE)
    (hne : k ≠ idx) (hle : cyc i k ≤ cyc i idx) :
    (k + 1) % SEEN_SIZE < SEEN_SIZE ∧ cyc i ((k + 1) % SEEN_SIZE) = cyc i k + 1 := by
  have hsize : SEEN_SIZE = 67 := rfl
  have hlt : cyc i k < cyc i idx := lt_of_le_of_ne hle fun h => hne (cyc_inj hi hk hidx h)
  have hnext : (k + 1) % SEEN_SIZE < SEEN_SIZE := Nat.mod_lt _ (by decide)
  refine ⟨hnext, ?_⟩
  have h1 := cyc_add hi hk
  have h2 := cyc_add hi hnext
  have h3 := cyc_lt i idx
  have h4 := cyc_lt i ((k + 1) % SEEN_SIZE)
  obtain hwrap | hin := eq_or_ne k 66
  · have hzero : (k + 1) % SEEN_SIZE = 0 := by
      rw [hwrap]
      rfl
    rw [hzero] at h2 ⊢
    omega
  · have hone : (k + 1) % SEEN_SIZE = k + 1 := Nat.mod_eq_of_lt (by omega)
    rw [hone] at h2 h4 ⊢
    omega

theorem clearWords_spec (tdb_seen : ℕ → BitVec 32) {i idx : ℕ} (hi : i < SEEN_SIZE)
    (hidx : idx < SEEN_SIZE) :
    ∃ tdb_seen', clearWords tdb_seen i idx = some tdb_seen' ∧
      ∀ j < SEEN_SIZE, tdb_seen' j = if 0 < cyc i j ∧ cyc i j ≤ cyc i idx then 0#32 else tdb_seen j := by
  -- the words between `i` and the current one are cleared
  obtain ⟨a, n, hrun, -, ha⟩ := Loop.run_returns (clearStep idx)
    (I := fun s => s.1 < SEEN_SIZE ∧ cyc i s.1 ≤ cyc i idx ∧
      ∀ j < SEEN_SIZE, s.2 j = if 0 < cyc i j ∧ cyc i j ≤ cyc i s.1 then 0#32 else tdb_seen j)
    (μ := fun s => cyc i idx - cyc i s.1)
    (Q := fun seen => ∀ j < SEEN_SIZE, seen j =
      if 0 < cyc i j ∧ cyc i j ≤ cyc i idx then 0#32 else tdb_seen j)
    (by
      rintro ⟨k, seen⟩ t ⟨hk, hle, hseen⟩ hstep
      rw [clearStep] at hstep
      split at hstep
      · cases hstep
      · next hne =>
        cases hstep
        dsimp only at hk hle hseen hne ⊢
        obtain ⟨hnext, hsucc⟩ := cyc_succ hi hk hidx hne hle
        have hlt : cyc i k < cyc i idx := lt_of_le_of_ne hle fun h => hne (cyc_inj hi hk hidx h)
        refine ⟨⟨hnext, hsucc.trans_le hlt, fun j hj => ?_⟩, ?_⟩
        · rw [hsucc]
          by_cases hjk : j = (k + 1) % SEEN_SIZE
          · rw [hjk, Function.update_self, hsucc, if_pos ⟨Nat.succ_pos _, le_rfl⟩]
          · have hne' : cyc i j ≠ cyc i k + 1 := fun h =>
              hjk (cyc_inj hi hj hnext (h.trans hsucc.symm))
            have hiff : cyc i j ≤ cyc i k ↔ cyc i j ≤ cyc i k + 1 := by omega
            rw [Function.update_of_ne hjk, hseen j hj]
            simp only [hiff]
        · rw [hsucc]
          omega)
    (by
      rintro ⟨k, seen⟩ a ⟨-, -, hseen⟩ hstep
      rw [clearStep] at hstep
      split at hstep
      · next heq =>
        cases hstep
        subst heq
        exact hseen
      · cases hstep)
    (by
      rintro s e - -
      exact e.elim)
    (SEEN_SIZE + 1) (i, tdb_seen)
    ⟨hi, (cyc_self hi).trans_le (Nat.zero_le _), fun j hj => by
      rw [cyc_self hi, if_neg (by omega)]⟩
    ((Nat.sub_le _ _).trans_lt ((cyc_lt i idx).trans (Nat.lt_succ_self _)))
  refine ⟨a, ?_, ha⟩
  simp only [clearWords, hrun]

/-- The word of an extended number. -/
def word (n : ℕ) : ℕ := n % 2 ^ 32 % TDB_REPLAYMAX / 32

def Marked (tdb_seen : ℕ → BitVec 32) (n : ℕ) : Prop :=
  (tdb_seen (word n)).getLsbD (31 - n % 32) = true

/-- The number with low half `seq` among the `2 ^ 32` that start at the left edge of the window. -/
def extended (rpl seq : ℕ) : ℕ :=
  rpl + 1 - min 2100 rpl + (seq + 2 ^ 64 - (rpl + 1 - min 2100 rpl)) % 2 ^ 32

section Extended

variable {n rpl : ℕ} {seq : BitVec 32} {tdb_seen : ℕ → BitVec 32}

theorem word_lt (n : ℕ) : word n < SEEN_SIZE := by
  simp only [word, TDB_REPLAYMAX, TDB_REPLAYWASTE, SEEN_SIZE]
  omega

theorem wordIdx_eq (h : seq.toNat = n % 2 ^ 32) : wordIdx seq = word n := by
  rw [wordIdx, word, h]

theorem packetBit_eq (h : seq.toNat = n % 2 ^ 32) : packetBit seq = 1#32 <<< (31 - n % 32) := by
  have hand : (seq &&& 31#32).toNat = n % 32 := by
    have h31 := Nat.and_two_pow_sub_one_eq_mod seq.toNat 5
    rw [BitVec.toNat_and, BitVec.toNat_ofNat]
    norm_num at h31 ⊢
    omega
  have hsub : ((31 : BitVec 32) - (seq &&& 31#32)).toNat = 31 - n % 32 := by
    have h31 : (31 : BitVec 32).toNat = 31 := rfl
    rw [BitVec.toNat_sub, hand, h31]
    omega
  rw [packetBit, hsub]

theorem marked_iff (h : seq.toNat = n % 2 ^ 32) :
    tdb_seen (wordIdx seq) &&& packetBit seq ≠ 0#32 ↔ Marked tdb_seen n := by
  rw [wordIdx_eq h, packetBit_eq h, Bitmap.and_one_shiftLeft_ne_zero (by omega), Marked]

theorem marked_mark {s : ℕ} (h : seq.toNat = s % 2 ^ 32) :
    Marked (mark tdb_seen seq) n ↔ Marked tdb_seen n ∨ (word n = word s ∧ n % 32 = s % 32) := by
  simp only [Marked, mark, wordIdx_eq h, packetBit_eq h, ← BitVec.twoPow_eq]
  by_cases hw : word n = word s
  · rw [hw, Function.update_self, BitVec.getLsbD_or, BitVec.getLsbD_twoPow]
    have hbit : 31 - s % 32 = 31 - n % 32 ↔ n % 32 = s % 32 := by omega
    simp only [hbit, Bool.or_eq_true, Bool.and_eq_true, decide_eq_true_eq, true_and]
    refine or_congr Iff.rfl ⟨fun h => h.2, fun h => ⟨by omega, h⟩⟩
  · rw [Function.update_of_ne hw]
    simp [hw]

theorem extended_mod (hrpl : rpl < 2 ^ 64) : seq.toNat = extended rpl seq.toNat % 2 ^ 32 := by
  have := seq.isLt
  simp only [extended]
  omega

end Extended

section Commit

variable {tdb : Tdb} {seq : BitVec 32}

/-- The number a call is about. -/
def Tdb.number (tdb : Tdb) (seq : BitVec 32) : ℕ := extended tdb.tdb_rpl.toNat seq.toNat

theorem Tdb.tl_toNat (tdb : Tdb) : tdb.tl.toNat = tdb.tdb_rpl.toNat % 2 ^ 32 := by
  simp [tl]

theorem Tdb.th_toNat (tdb : Tdb) : tdb.th.toNat = tdb.tdb_rpl.toNat / 2 ^ 32 := by
  have := tdb.tdb_rpl.isLt
  simp only [th, BitVec.toNat_setWidth, BitVec.toNat_ushiftRight, Nat.shiftRight_eq_div_pow]
  omega

theorem Tdb.window_toNat (tdb : Tdb) : tdb.window.toNat = min 2100 tdb.tdb_rpl.toNat := by
  have htl := tdb.tl_toNat
  have hth := tdb.th_toNat
  have hw : (BitVec.ofNat 32 (TDB_REPLAYMAX - TDB_REPLAYWASTE)).toNat = 2100 := rfl
  have h0 : tdb.th = 0#32 ↔ tdb.tdb_rpl.toNat / 2 ^ 32 = 0 := by
    rw [← hth, ← BitVec.toNat_inj]
    simp
  simp only [window, h0, BitVec.lt_def, hw]
  split
  · rw [htl]
    omega
  · rw [hw]
    omega

theorem Tdb.number_mod (tdb : Tdb) (seq : BitVec 32) : seq.toNat = tdb.number seq % 2 ^ 32 :=
  extended_mod tdb.tdb_rpl.isLt

/-- A number above the right edge is stored as the new one, over a map that was cleared as
far as the loop or the `memset` does. -/
def Cleared (tdb : Tdb) (s : ℕ) (tdb_seen : ℕ → BitVec 32) : Prop :=
  ∀ j < SEEN_SIZE, tdb_seen j =
    if s - tdb.tdb_rpl.toNat > min 2100 tdb.tdb_rpl.toNat ∨
        (0 < cyc (word tdb.tdb_rpl.toNat) j ∧
          cyc (word tdb.tdb_rpl.toNat) j ≤ cyc (word tdb.tdb_rpl.toNat) (word s)) then 0#32
    else tdb.tdb_seen j

theorem Tdb.advance_eq (tdb : Tdb) {s : ℕ} {seqh : BitVec 32} (hseq : seq.toNat = s % 2 ^ 32)
    (hseqh : seqh.toNat = s / 2 ^ 32) (hlt : tdb.tdb_rpl.toNat < s)
    (hnear : s - tdb.tdb_rpl.toNat < 2 ^ 32) :
    ∃ tdb_seen, Cleared tdb s tdb_seen ∧
      tdb.advance seqh seq = some ⟨tdb.esn, BitVec.ofNat 64 s, mark tdb_seen seq⟩ := by
  have hw := tdb.window_toNat
  have hdiff : (seq - tdb.tl).toNat = s - tdb.tdb_rpl.toNat := by
    have htl := tdb.tl_toNat
    rw [BitVec.toNat_sub, hseq, htl]
    omega
  have hfar : seq - tdb.tl > tdb.window ↔ s - tdb.tdb_rpl.toNat > min 2100 tdb.tdb_rpl.toNat := by
    rw [gt_iff_lt, BitVec.lt_def, hdiff, hw]
  have hrpl : (seqh.setWidth 64 <<< 32) ||| seq.setWidth 64 = BitVec.ofNat 64 s := by
    apply BitVec.eq_of_toNat_eq
    have h1 := seqh.isLt
    have h2 := seq.isLt
    have hor := Nat.two_pow_add_eq_or_of_lt h2 seqh.toNat
    rw [BitVec.toNat_or, BitVec.toNat_shiftLeft, BitVec.toNat_setWidth, BitVec.toNat_setWidth,
      BitVec.toNat_ofNat, Nat.shiftLeft_eq, Nat.mod_eq_of_lt (by omega), Nat.mod_eq_of_lt (by omega),
      Nat.mod_eq_of_lt (by omega), mul_comm, ← hor, hseq, hseqh]
    omega
  by_cases hclear : s - tdb.tdb_rpl.toNat > min 2100 tdb.tdb_rpl.toNat
  · refine ⟨fun _ => 0#32, ?_, ?_⟩
    · intro j _
      rw [if_pos (.inl hclear)]
    · simp only [advance, if_pos (hfar.2 hclear), hrpl]
      rfl
  · have htl : tdb.tl.toNat = tdb.tdb_rpl.toNat % 2 ^ 32 := tdb.tl_toNat
    obtain ⟨tdb_seen, hrun, hseen⟩ := clearWords_spec tdb.tdb_seen
      (word_lt tdb.tdb_rpl.toNat) (word_lt s)
    refine ⟨tdb_seen, ?_, ?_⟩
    · intro j hj
      rw [hseen j hj]
      simp only [hclear, false_or]
    · simp only [advance, if_neg (mt hfar.1 hclear), wordIdx_eq htl, wordIdx_eq hseq, hrun, hrpl]
      rfl

/-- What the branches of a committed call come to. -/
inductive Committed (tdb : Tdb) (seq : BitVec 32) : Verdict → Prop
  | zero {ret seqh} (hret : ret ≠ 0) (hseq : seq = 0#32) (hrpl : tdb.esn → tdb.tdb_rpl.toNat ≤ 1) :
      Committed tdb seq ⟨ret, seqh, tdb⟩
  | outside {ret seqh} (hret : ret ≠ 0)
      (hfar : 2 ^ (if tdb.esn then 64 else 32) ≤ tdb.number seq) : Committed tdb seq ⟨ret, seqh, tdb⟩
  | replayed {ret seqh} (hret : ret ≠ 0) (hle : tdb.number seq ≤ tdb.tdb_rpl.toNat)
      (hmarked : Marked tdb.tdb_seen (tdb.number seq)) : Committed tdb seq ⟨ret, seqh, tdb⟩
  | late {seqh} (hle : tdb.number seq ≤ tdb.tdb_rpl.toNat)
      (hnew : ¬ Marked tdb.tdb_seen (tdb.number seq)) (hseqh : seqh.toNat = tdb.number seq / 2 ^ 32) :
      Committed tdb seq ⟨0, some seqh, { tdb with tdb_seen := mark tdb.tdb_seen seq }⟩
  | ahead {seqh tdb_seen} (hlt : tdb.tdb_rpl.toNat < tdb.number seq)
      (hin : tdb.number seq < 2 ^ (if tdb.esn then 64 else 32))
      (hseqh : seqh.toNat = tdb.number seq / 2 ^ 32) (hclear : Cleared tdb (tdb.number seq) tdb_seen) :
      Committed tdb seq
        ⟨0, some seqh, ⟨tdb.esn, BitVec.ofNat 64 (tdb.number seq), mark tdb_seen seq⟩⟩

theorem Tdb.wl_toNat (h : 1 ≤ tdb.tdb_rpl.toNat) :
    (tdb.tl - tdb.window + 1#32).toNat =
      (tdb.tdb_rpl.toNat + 1 - min 2100 tdb.tdb_rpl.toNat) % 2 ^ 32 := by
  have htl := tdb.tl_toNat
  have hw := tdb.window_toNat
  rw [BitVec.toNat_add, BitVec.toNat_sub, htl, hw]
  norm_num
  omega

theorem Tdb.pred_window_toNat (h : 1 ≤ tdb.tdb_rpl.toNat) :
    (tdb.window - 1#32).toNat = min 2100 tdb.tdb_rpl.toNat - 1 := by
  have hw := tdb.window_toNat
  rw [BitVec.toNat_sub, hw]
  norm_num
  omega

/-- The subspace of a number: that of the left edge, or the one behind it. -/
theorem Tdb.number_div (tdb : Tdb) (seq : BitVec 32) :
    tdb.number seq / 2 ^ 32 = (tdb.tdb_rpl.toNat + 1 - min 2100 tdb.tdb_rpl.toNat) / 2 ^ 32 +
      if (tdb.tdb_rpl.toNat + 1 - min 2100 tdb.tdb_rpl.toNat) % 2 ^ 32 ≤ seq.toNat then 0 else 1 := by
  have hseq := seq.isLt
  have hrpl := tdb.tdb_rpl.isLt
  rw [number, extended]
  have hlow : tdb.tdb_rpl.toNat + 1 - min 2100 tdb.tdb_rpl.toNat ≤ 2 ^ 64 := by omega
  generalize tdb.tdb_rpl.toNat + 1 - min 2100 tdb.tdb_rpl.toNat = low at hlow ⊢
  generalize seq.toNat = n at hseq ⊢
  split_ifs with hle <;> omega

theorem Tdb.edge_div (tdb : Tdb) (h : 1 ≤ tdb.tdb_rpl.toNat) :
    tdb.tdb_rpl.toNat / 2 ^ 32 = (tdb.tdb_rpl.toNat + 1 - min 2100 tdb.tdb_rpl.toNat) / 2 ^ 32 +
      if min 2100 tdb.tdb_rpl.toNat - 1 ≤ tdb.tdb_rpl.toNat % 2 ^ 32 then 0 else 1 := by
  obtain hmin | hmin := le_total 2100 tdb.tdb_rpl.toNat
  · rw [min_eq_left hmin]
    split_ifs <;> omega
  · rw [min_eq_right hmin]
    split_ifs <;> omega

theorem Tdb.keeps_high (h : 1 ≤ tdb.tdb_rpl.toNat) :
    (tdb.tl ≥ tdb.window - 1#32 ∧ seq ≥ tdb.tl - tdb.window + 1#32) ∨
        (tdb.tl < tdb.window - 1#32 ∧ seq < tdb.tl - tdb.window + 1#32) ↔
      tdb.number seq / 2 ^ 32 = tdb.tdb_rpl.toNat / 2 ^ 32 := by
  rw [tdb.number_div, tdb.edge_div h]
  simp only [ge_iff_le, BitVec.le_def, BitVec.lt_def, Tdb.wl_toNat h, Tdb.pred_window_toNat h,
    tdb.tl_toNat]
  split_ifs <;> omega

theorem Tdb.previous (h : 1 ≤ tdb.tdb_rpl.toNat) :
    tdb.tl < tdb.window - 1#32 ∧ seq ≥ tdb.tl - tdb.window + 1#32 ↔
      tdb.number seq / 2 ^ 32 + 1 = tdb.tdb_rpl.toNat / 2 ^ 32 := by
  rw [tdb.number_div, tdb.edge_div h]
  simp only [ge_iff_le, BitVec.le_def, BitVec.lt_def, Tdb.wl_toNat h, Tdb.pred_window_toNat h,
    tdb.tl_toNat]
  split_ifs <;> omega

theorem Tdb.number_pos (tdb : Tdb) (seq : BitVec 32) (h : 1 ≤ tdb.tdb_rpl.toNat) : 0 < tdb.number seq := by
  simp only [number, extended]
  omega

theorem Tdb.lt_number (tdb : Tdb) (seq : BitVec 32) (h : 1 ≤ tdb.tdb_rpl.toNat) : tdb.tdb_rpl.toNat < tdb.number seq + 2100 := by
  simp only [number, extended]
  omega

theorem Tdb.number_lt (tdb : Tdb) (seq : BitVec 32) (h : 1 ≤ tdb.tdb_rpl.toNat) :
    tdb.number seq < tdb.tdb_rpl.toNat + 2 ^ 32 := by
  have : (seq.toNat + 2 ^ 64 - (tdb.tdb_rpl.toNat + 1 - min 2100 tdb.tdb_rpl.toNat)) % 2 ^ 32 < 2 ^ 32 :=
    Nat.mod_lt _ (by norm_num)
  simp only [number, extended]
  omega

theorem checkreplaywindow_commit (seq : BitVec 32) (h : 1 ≤ tdb.tdb_rpl.toNat)
    (hesn : tdb.esn = false → tdb.tdb_rpl.toNat < 2 ^ 32) :
    ∃ v, checkreplaywindow tdb seq true = some v ∧ Committed tdb seq v := by
  have hmod := tdb.number_mod seq
  have hnear := tdb.number_lt seq h
  have hlow := tdb.lt_number seq h
  have htl := tdb.tl_toNat
  have hth := tdb.th_toNat
  have hrpl := tdb.tdb_rpl.isLt
  have hseen : (tdb.tdb_seen (wordIdx seq) &&& packetBit seq ≠ 0#32) ↔
      Marked tdb.tdb_seen (tdb.number seq) := marked_iff hmod
  unfold checkreplaywindow
  simp only [Tdb.keeps_high h, Tdb.previous h]
  split
  · next hzero =>
    refine ⟨_, rfl, .zero (by decide) (by tauto) fun he => ?_⟩
    obtain ⟨-, -, hle, h0⟩ | ⟨hne, -⟩ := hzero
    · have hle' : tdb.tl.toNat ≤ 1 := hle
      have h0' : tdb.th.toNat = 0 := by rw [h0]; rfl
      omega
    · exact absurd he hne
  split
  · next hhigh =>
    have hgt : seq > tdb.tl ↔ tdb.tdb_rpl.toNat < tdb.number seq := by
      rw [gt_iff_lt, BitVec.lt_def, htl, hmod]
      omega
    have hbound : tdb.number seq < 2 ^ (if tdb.esn then 64 else 32) := by
      cases he : tdb.esn with
      | true =>
        simp only [if_true]
        omega
      | false =>
        have := hesn he
        simp only [Bool.false_eq_true, if_false]
        omega
    have hseqh : tdb.th.toNat = tdb.number seq / 2 ^ 32 := by omega
    split
    · next hahead =>
      obtain ⟨tdb_seen, hclear, hadv⟩ :=
        tdb.advance_eq hmod hseqh (hgt.1 hahead) (by omega)
      simp only [if_true, hadv, Option.map_some]
      exact ⟨_, rfl, .ahead (hgt.1 hahead) hbound hseqh hclear⟩
    · next hbehind =>
      have hle : tdb.number seq ≤ tdb.tdb_rpl.toNat := by
        rw [hgt] at hbehind
        omega
      have hin : ¬ tdb.tl - seq ≥ tdb.window := by
        have hw := tdb.window_toNat
        have hpos := tdb.number_pos seq h
        rw [ge_iff_le, BitVec.le_def, BitVec.toNat_sub, htl, hw]
        omega
      rw [if_neg hin]
      split
      · next hm => exact ⟨_, rfl, .replayed (by decide) hle (hseen.1 hm)⟩
      · next hm => exact ⟨_, rfl, .late hle (mt hseen.2 hm) hseqh⟩
  next hhigh =>
  split
  · next hne =>
    refine ⟨_, rfl, .outside (by decide) ?_⟩
    have he : tdb.esn = false := by simpa using hne
    have := hesn he
    simp only [he, Bool.false_eq_true, if_false]
    omega
  next he =>
  have he' : tdb.esn = true := by simpa using he
  split
  · next hprev =>
    have hseqh : (tdb.th - 1#32).toNat = tdb.number seq / 2 ^ 32 := by
      rw [BitVec.toNat_sub, hth]
      norm_num
      omega
    split
    · next hm => exact ⟨_, rfl, .replayed (by decide) (by omega) (hseen.1 hm)⟩
    · next hm => exact ⟨_, rfl, .late (by omega) (mt hseen.2 hm) hseqh⟩
  next hprev =>
  have hnext : tdb.number seq / 2 ^ 32 = tdb.tdb_rpl.toNat / 2 ^ 32 + 1 := by omega
  have hadd : (tdb.th + 1#32).toNat = (tdb.tdb_rpl.toNat / 2 ^ 32 + 1) % 2 ^ 32 := by
    rw [BitVec.toNat_add, hth]
    rfl
  split
  · next hwrap =>
    refine ⟨_, rfl, .outside (by decide) ?_⟩
    rw [hwrap] at hadd
    simp only [he', if_true]
    norm_num at hadd ⊢
    omega
  · next hwrap =>
    have hne : (tdb.tdb_rpl.toNat / 2 ^ 32 + 1) % 2 ^ 32 ≠ 0 := by
      intro h0
      exact hwrap (BitVec.eq_of_toNat_eq (by rw [hadd, h0]; rfl))
    have hseqh : (tdb.th + 1#32).toNat = tdb.number seq / 2 ^ 32 := by omega
    obtain ⟨tdb_seen, hclear, hadv⟩ :=
      tdb.advance_eq hmod hseqh (by omega) (by omega)
    simp only [if_true, hadv, Option.map_some]
    refine ⟨_, rfl, .ahead (by omega) ?_ hseqh hclear⟩
    simp only [he', if_true]
    omega

end Commit

end OpenbsdKernel.IpEsp
