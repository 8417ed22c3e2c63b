import OpenbsdKernel.Kern.Tty.Runs

/-!
# Counting contiguous characters

`ndqb` counts the characters in front of the first one that is flagged. Where it is also
to stop at quoted characters, its index has moved on before the quote map is tested.
-/
namespace OpenbsdKernel.Tty

open Clist

def QMEM (n : ℕ) : ℕ := (n - 1) / 8 + 1

/-- Whether the byte at offset `i` has a bit of `flag`. -/
def flagged (clp : Clist) (flag : BitVec 32) (i : ℕ) : Bool :=
  (clp.byte i).setWidth 32 &&& flag ≠ 0#32

/-- `isset(clp->c_cq, i)`, with `beyond` for the memory behind the map. -/
def quoteBit (clp : Clist) (beyond : Mem) (i : ℕ) : Bool :=
  if i / 8 < QMEM clp.c_cn then clp.quoted i else isset beyond i

/-- The loop of `ndqb` from offset `i` on; `stop` is the test that ends it. -/
def ndqbLoop (stop : ℕ → Bool) (c_cn : ℕ) : ℕ → ℕ → ℕ
  | 0, _ => 0
  | cc + 1, i =>
    if stop i then 0 else if i + 1 = c_cn then 1 else ndqbLoop stop c_cn cc (i + 1) + 1

def ndqb (clp : Clist) (beyond : Mem) (flag : BitVec 32) : ℤ :=
  if clp.c_cc = 0 then 0
  else if flag = 0#32 then
    let count : ℤ := offset clp.c_cl - offset clp.c_cf
    if count ≤ 0 then clp.c_ce - offset clp.c_cf else count
  else
    let i := offset clp.c_cf
    if flag &&& TTY_QUOTE ≠ 0#32 then
      -- `i` has been incremented by the time the map is tested
      ndqbLoop (fun i => flagged clp (flag &&& ~~~TTY_QUOTE) i || quoteBit clp beyond (i + 1))
        clp.c_cn clp.c_cc i
    else ndqbLoop (flagged clp flag) clp.c_cn clp.c_cc i

def quoteReads (stop quote : ℕ → Bool) (c_cn : ℕ) : ℕ → ℕ → List ℕ
  | 0, _ => []
  | cc + 1, i =>
    if stop i then []
    else (i + 1) :: if quote (i + 1) || i + 1 = c_cn then [] else quoteReads stop quote c_cn cc (i + 1)

/-- The positions at which `ndqb` tests the quote map. -/
def ndqbReads (clp : Clist) (beyond : Mem) (flag : BitVec 32) : List ℕ :=
  if clp.c_cc = 0 ∨ flag &&& TTY_QUOTE = 0#32 then []
  else quoteReads (flagged clp (flag &&& ~~~TTY_QUOTE)) (quoteBit clp beyond) clp.c_cn clp.c_cc
    (offset clp.c_cf)

/-- How many of `0, …, n - 1` satisfy `p` before the first that does not. -/
def prefixLen (p : ℕ → Bool) (n : ℕ) : ℕ := ((List.range n).takeWhile p).length

theorem prefixLen_succ (p : ℕ → Bool) (n : ℕ) :
    prefixLen p (n + 1) = if p 0 then prefixLen (fun k => p (k + 1)) n + 1 else 0 := by
  unfold prefixLen
  rw [List.range_succ_eq_map, List.takeWhile_cons, List.takeWhile_map]
  split_ifs
  · simp [Function.comp_def]
  · rfl

theorem prefixLen_le (p : ℕ → Bool) (n : ℕ) : prefixLen p n ≤ n := by
  have h := (List.takeWhile_prefix (l := List.range n) p).length_le
  rwa [List.length_range] at h

theorem prefixLen_spec (p : ℕ → Bool) (n : ℕ) :
    (∀ k < prefixLen p n, p k = true) ∧ (prefixLen p n < n → p (prefixLen p n) = false) := by
  induction n generalizing p with
  | zero => exact ⟨fun k hk => absurd hk (Nat.not_lt_zero k), fun h => absurd h (Nat.not_lt_zero _)⟩
  | succ n ih =>
    rw [prefixLen_succ]
    obtain ⟨hall, hstop⟩ := ih fun k => p (k + 1)
    by_cases h0 : p 0 = true
    · rw [if_pos h0]
      refine ⟨fun k hk => ?_, fun hlt => hstop (by omega)⟩
      cases k with
      | zero => exact h0
      | succ k => exact hall k (by omega)
    · rw [if_neg h0]
      exact ⟨fun k hk => absurd hk (Nat.not_lt_zero k), fun _ => by simpa using h0⟩

theorem prefixLen_eq {p : ℕ → Bool} {n m : ℕ} (hm : m ≤ n) (hall : ∀ k < m, p k = true)
    (hstop : m < n → p m = false) : prefixLen p n = m := by
  obtain ⟨hall', hstop'⟩ := prefixLen_spec p n
  have hle := prefixLen_le p n
  rcases Nat.lt_trichotomy (prefixLen p n) m with hlt | heq | hgt
  · have h := hstop' (by omega)
    rw [hall _ hlt] at h
    cases h
  · exact heq
  · have h := hstop (by omega)
    rw [hall' m hgt] at h
    cases h

theorem prefixLen_congr {p p' : ℕ → Bool} {n : ℕ} (h : ∀ k < n, p k = p' k) :
    prefixLen p n = prefixLen p' n := by
  obtain ⟨hall, hstop⟩ := prefixLen_spec p' n
  have hle := prefixLen_le p' n
  exact prefixLen_eq hle (fun k hk => by rw [h k (by omega)]; exact hall k hk)
    fun hlt => by rw [h _ hlt]; exact hstop hlt

theorem prefixLen_pass {stop : ℕ → Bool} {i : ℕ} (hpass : stop i = false) (n : ℕ) :
    prefixLen (fun k => !stop (i + k)) (n + 1) = prefixLen (fun k => !stop (i + 1 + k)) n + 1 := by
  have hzero : (fun k => !stop (i + k)) 0 = true := by simp [hpass]
  rw [prefixLen_succ, if_pos hzero]
  congr 2
  funext k
  rw [(by omega : i + (k + 1) = i + 1 + k)]

theorem prefixLen_stop {stop : ℕ → Bool} {i : ℕ} (hstop : stop i = true) (n : ℕ) :
    prefixLen (fun k => !stop (i + k)) n = 0 := by
  have hle := prefixLen_le (fun k => !stop (i + k)) n
  by_contra hne
  have h := (prefixLen_spec (fun k => !stop (i + k)) n).1 0 (Nat.pos_of_ne_zero hne)
  simp [hstop] at h

theorem ndqbLoop_eq (stop : ℕ → Bool) {c_cn : ℕ} (cc i : ℕ) (hi : i < c_cn) :
    ndqbLoop stop c_cn cc i = prefixLen (fun k => !stop (i + k)) (min cc (c_cn - i)) := by
  induction cc generalizing i with
  | zero => simp [ndqbLoop, prefixLen]
  | succ cc ih =>
    have hmin : min (cc + 1) (c_cn - i) = min cc (c_cn - (i + 1)) + 1 := by omega
    rw [ndqbLoop]
    cases hstop : stop i with
    | true => rw [prefixLen_stop hstop, if_pos rfl]
    | false =>
      rw [hmin, prefixLen_pass hstop, if_neg (by simp)]
      by_cases hend : i + 1 = c_cn
      · rw [if_pos hend, hend, Nat.sub_self, Nat.min_zero]
        rfl
      · rw [if_neg hend, ih (i + 1) (by omega)]

theorem mem_quoteReads (stop quote : ℕ → Bool) {c_cn : ℕ} (cc i x : ℕ) (hi : i < c_cn) :
    x ∈ quoteReads stop quote c_cn cc i ↔
      ∃ j < prefixLen (fun k => !stop (i + k)) (min cc (c_cn - i)), x = i + j + 1 ∧
        ∀ t, 1 ≤ t → t ≤ j → quote (i + t) = false := by
  induction cc generalizing i with
  | zero => simp [quoteReads, prefixLen]
  | succ cc ih =>
    have hmin : min (cc + 1) (c_cn - i) = min cc (c_cn - (i + 1)) + 1 := by omega
    rw [quoteReads]
    cases hstop : stop i with
    | true => simp [prefixLen_stop hstop]
    | false =>
      rw [hmin, prefixLen_pass hstop, if_neg (by simp), List.mem_cons]
      have hle := prefixLen_le (fun k => !stop (i + 1 + k)) (min cc (c_cn - (i + 1)))
      by_cases hend : quote (i + 1) = true ∨ i + 1 = c_cn
      · rw [if_pos (by simpa using hend)]
        constructor
        · rintro (rfl | hx)
          · exact ⟨0, Nat.succ_pos _, rfl, fun t h₁ h₂ => by omega⟩
          · cases hx
        · rintro ⟨j, hj, rfl, hclear⟩
          left
          have hj0 : j = 0 := by
            by_contra hne
            rcases hend with hq | hcn
            · rw [hclear 1 le_rfl (by omega)] at hq
              cases hq
            · omega
          rw [hj0]
      · rw [if_neg (by simpa using hend)]
        push Not at hend
        have hq : quote (i + 1) = false := by simpa using hend.1
        rw [ih (i + 1) (by omega)]
        constructor
        · rintro (rfl | ⟨j, hj, rfl, hclear⟩)
          · exact ⟨0, Nat.succ_pos _, rfl, fun t h₁ h₂ => by omega⟩
          · refine ⟨j + 1, by omega, by omega, fun t h₁ h₂ => ?_⟩
            by_cases ht : t = 1
            · rw [ht]
              exact hq
            · have := hclear (t - 1) (by omega) (by omega)
              rwa [(by omega : i + 1 + (t - 1) = i + t)] at this
        · rintro ⟨j, hj, rfl, hclear⟩
          cases j with
          | zero => exact Or.inl rfl
          | succ j =>
            refine Or.inr ⟨j, by omega, by omega, fun t h₁ h₂ => ?_⟩
            rw [(by omega : i + 1 + t = i + (t + 1))]
            exact hclear (t + 1) (by omega) (by omega)

def contiguous (clp : Clist) : ℕ := min clp.c_cc (clp.c_cn - offset clp.c_cf)

/-- A character that does not stop the count: none of the bits of `flag`, and no quote mark
if `flag` asks for it. -/
def plain (flag : BitVec 32) (x : BitVec 8 × Bool) : Bool :=
  x.1.setWidth 32 &&& (flag &&& ~~~TTY_QUOTE) = 0#32 ∧ (flag &&& TTY_QUOTE ≠ 0#32 → x.2 = false)

def plainPrefix (clp : Clist) (flag : BitVec 32) : ℕ :=
  ((Ring.segment clp.cells (offset clp.c_cf) (contiguous clp)).takeWhile (plain flag)).length

def unflagged (clp : Clist) (flag : BitVec 32) : ℕ :=
  prefixLen (fun k => !flagged clp (flag &&& ~~~TTY_QUOTE) (offset clp.c_cf + k)) (contiguous clp)

/-- When `ndqb` counts as it should: it does not look at the quote marks; or the mark of the
first character makes no difference, none of the marks up to that of the character behind the
unflagged ones is set, and that one is in the map. -/
def CountsPlain (clp : Clist) (beyond : Mem) (flag : BitVec 32) : Prop :=
  flag &&& TTY_QUOTE = 0#32 ∨ clp.c_cc = 0 ∨
    (if clp.quoted (offset clp.c_cf) then
        unflagged clp flag = 0 ∨ quoteBit clp beyond (offset clp.c_cf + 1) = true
      else
        ∀ j, 1 ≤ j → j ≤ unflagged clp flag → quoteBit clp beyond (offset clp.c_cf + j) = false) ∧
      (offset clp.c_cf + unflagged clp flag = clp.c_cn → 8 ∣ clp.c_cn →
        ∃ j, 1 ≤ j ∧ j < unflagged clp flag ∧ quoteBit clp beyond (offset clp.c_cf + j) = true)

theorem plainPrefix_eq (clp : Clist) (flag : BitVec 32) :
    plainPrefix clp flag = prefixLen (fun k => !(flagged clp (flag &&& ~~~TTY_QUOTE)
      (offset clp.c_cf + k) || decide (flag &&& TTY_QUOTE ≠ 0#32) && clp.quoted (offset clp.c_cf + k)))
      (contiguous clp) := by
  unfold plainPrefix prefixLen Ring.segment
  rw [List.takeWhile_map, List.length_map]
  congr 3
  funext k
  simp only [Function.comp_apply, plain, cells, flagged]
  by_cases h : flag &&& TTY_QUOTE = 0#32 <;> simp [h]

theorem prefixLen_shift_iff (bad q : ℕ → Bool) {n : ℕ} (hn : 0 < n) :
    prefixLen (fun k => !(bad k || q (k + 1))) n = prefixLen (fun k => !(bad k || q k)) n ↔
      if q 0 then prefixLen (fun k => !bad k) n = 0 ∨ q 1 = true
      else ∀ j, 1 ≤ j → j ≤ prefixLen (fun k => !bad k) n → q j = false := by
  obtain ⟨hB, hBstop⟩ := prefixLen_spec (fun k => !bad k) n
  have hBle := prefixLen_le (fun k => !bad k) n
  generalize prefixLen (fun k => !bad k) n = B at hB hBstop hBle ⊢
  simp only [Bool.not_eq_true', Bool.not_eq_false'] at hB hBstop
  obtain ⟨hC, hCstop⟩ := prefixLen_spec (fun k => !(bad k || q (k + 1))) n
  have hCle := prefixLen_le (fun k => !(bad k || q (k + 1))) n
  simp only [Bool.not_eq_true', Bool.not_eq_false', Bool.or_eq_false_iff, Bool.or_eq_true] at hC hCstop
  by_cases h0 : q 0 = true
  · have hS : prefixLen (fun k => !(bad k || q k)) n = 0 :=
      prefixLen_eq (Nat.zero_le n) (fun k hk => absurd hk (Nat.not_lt_zero k)) fun _ => by simp [h0]
    rw [hS, if_pos h0]
    constructor
    · intro hzero
      rw [hzero] at hCstop
      rcases hCstop hn with hbad | hq
      · left
        by_contra hne
        rw [hB 0 (Nat.pos_of_ne_zero hne)] at hbad
        cases hbad
      · exact Or.inr hq
    · rintro (hzero | hq)
      · subst hzero
        exact prefixLen_eq (Nat.zero_le n) (fun k hk => absurd hk (Nat.not_lt_zero k))
          fun _ => by simp [hBstop hn]
      · exact prefixLen_eq (Nat.zero_le n) (fun k hk => absurd hk (Nat.not_lt_zero k))
          fun _ => by simp [hq]
  · rw [if_neg h0]
    constructor
    · intro heq j hj₁ hj₂
      obtain ⟨hS, hSstop⟩ := prefixLen_spec (fun k => !(bad k || q k)) n
      simp only [Bool.not_eq_true', Bool.not_eq_false', Bool.or_eq_false_iff, Bool.or_eq_true]
        at hS hSstop
      rw [← heq] at hS hSstop
      generalize prefixLen (fun k => !(bad k || q (k + 1))) n = C at hC hCstop hCle hS hSstop
      -- all marks up to that of the character behind the counted ones are clear
      have hclear : ∀ j, 1 ≤ j → j ≤ C → q j = false := by
        intro j h₁ h₂
        have := (hC (j - 1) (by omega)).2
        rwa [(by omega : j - 1 + 1 = j)] at this
      have hCB : B ≤ C := by
        by_contra hlt
        rcases hSstop (by omega) with hbad | hq
        · rw [hB C (by omega)] at hbad
          cases hbad
        · by_cases hC0 : C = 0
          · rw [hC0] at hq
            exact h0 hq
          · rw [hclear C (by omega) le_rfl] at hq
            cases hq
      exact hclear j hj₁ (by omega)
    · intro hclear
      have hq : ∀ k ≤ B, q k = false := by
        intro k hk
        by_cases hk0 : k = 0
        · rw [hk0]
          simpa using h0
        · exact hclear k (by omega) hk
      have h₁ : prefixLen (fun k => !(bad k || q (k + 1))) n = B :=
        prefixLen_eq hBle (fun k hk => by simp [hB k hk, hq (k + 1) hk])
          fun hlt => by simp [hBstop hlt]
      have h₂ : prefixLen (fun k => !(bad k || q k)) n = B :=
        prefixLen_eq hBle (fun k hk => by simp [hB k hk, hq k (by omega)])
          fun hlt => by simp [hBstop hlt]
      rw [h₁, h₂]

section Rep

variable {clp : Clist} {cap : ℕ} {q : List (BitVec 8 × Bool)}

theorem quoteBit_eq {beyond : Mem} {i : ℕ} (hi : i < clp.c_cn) :
    quoteBit clp beyond i = clp.quoted i := by
  unfold quoteBit QMEM
  rw [if_pos (by omega)]

theorem ndqbReads_inside_iff {f : ℕ} (h : At clp cap f) (hpos : 0 < clp.c_cc) (beyond : Mem)
    {flag : BitVec 32} (hquote : flag &&& TTY_QUOTE ≠ 0#32) :
    (∀ i ∈ ndqbReads clp beyond flag, i / 8 < QMEM clp.c_cn) ↔
      (f + unflagged clp flag = clp.c_cn → 8 ∣ clp.c_cn →
        ∃ j, 1 ≤ j ∧ j < unflagged clp flag ∧ quoteBit clp beyond (f + j) = true) := by
  have hf : offset clp.c_cf = f := by
    rw [h.cf]
    rfl
  have hlt : f < clp.c_cn := h.cn ▸ h.lt
  have hB : unflagged clp flag ≤ clp.c_cn - f := by
    have hle := prefixLen_le (fun k => !flagged clp (flag &&& ~~~TTY_QUOTE) (offset clp.c_cf + k))
      (contiguous clp)
    have hrun : contiguous clp ≤ clp.c_cn - f := hf ▸ Nat.min_le_right _ _
    exact hle.trans hrun
  have hmem : ∀ x, x ∈ ndqbReads clp beyond flag ↔ ∃ j < unflagged clp flag, x = f + j + 1 ∧
      ∀ t, 1 ≤ t → t ≤ j → quoteBit clp beyond (f + t) = false := by
    intro x
    unfold ndqbReads
    rw [if_neg (by simp [hpos.ne', hquote]), hf, mem_quoteReads _ _ _ _ _ hlt, unflagged, contiguous, hf]
  constructor
  · intro hall hend hdvd
    by_contra hno
    push Not at hno
    have hread : clp.c_cn ∈ ndqbReads clp beyond flag := by
      refine (hmem _).mpr ⟨unflagged clp flag - 1, by omega, by omega, fun t h₁ h₂ => ?_⟩
      simpa using hno t h₁ (by omega)
    have := hall _ hread
    unfold QMEM at this
    omega
  · intro hcond i hi
    obtain ⟨j, hj, rfl, hclear⟩ := (hmem i).mp hi
    unfold QMEM
    by_cases hend : f + unflagged clp flag = clp.c_cn ∧ 8 ∣ clp.c_cn ∧ j + 1 = unflagged clp flag
    · obtain ⟨t, h₁, h₂, hset⟩ := hcond hend.1 hend.2.1
      rw [hclear t h₁ (by omega)] at hset
      cases hset
    · clear hcond
      omega

/-- `ndqb` gives the length of the plain prefix and stays inside the quote map if and only
if the marks are where its loop takes them from. -/
theorem ndqb_iff (h : Rep clp cap q) (beyond : Mem) {flag : BitVec 32} (hflag : flag ≠ 0#32) :
    (ndqb clp beyond flag = plainPrefix clp flag ∧
      ∀ i ∈ ndqbReads clp beyond flag, i / 8 < QMEM clp.c_cn) ↔ CountsPlain clp beyond flag := by
  unfold CountsPlain
  by_cases hzero : clp.c_cc = 0
  · refine iff_of_true ⟨?_, by simp [ndqbReads, hzero]⟩ (Or.inr (Or.inl hzero))
    simp [ndqb, plainPrefix, contiguous, hzero, Ring.segment]
  obtain ⟨f, hat⟩ := h.pos (Nat.pos_of_ne_zero hzero)
  have hf : offset clp.c_cf = f := by
    rw [hat.cf]
    rfl
  have hlt : f < clp.c_cn := hat.cn ▸ hat.lt
  rw [or_iff_right hzero, plainPrefix_eq, ndqb, if_neg hzero, if_neg hflag]
  dsimp only
  by_cases hquote : flag &&& TTY_QUOTE = 0#32
  · have hmask : flag &&& ~~~TTY_QUOTE = flag := by
      have hsplit : flag &&& (TTY_QUOTE ||| ~~~TTY_QUOTE) = flag := by
        rw [(by decide : TTY_QUOTE ||| ~~~TTY_QUOTE = BitVec.allOnes 32), BitVec.and_allOnes]
      rwa [BitVec.and_or_distrib_left, hquote, BitVec.zero_or] at hsplit
    refine iff_of_true ⟨?_, by simp [ndqbReads, hquote]⟩ (Or.inl hquote)
    rw [if_neg (by simp [hquote]), ndqbLoop_eq _ _ _ (hf.symm ▸ hlt), hmask]
    simp [hquote, contiguous]
  · rw [or_iff_right hquote, if_pos hquote, ndqbLoop_eq _ _ _ (hf.symm ▸ hlt), hf,
      ndqbReads_inside_iff hat (Nat.pos_of_ne_zero hzero) beyond hquote, Nat.cast_inj]
    apply and_congr_left
    intro _
    have hrun : 0 < contiguous clp := by
      unfold contiguous
      rw [hf]
      omega
    have hshift := prefixLen_shift_iff (fun k => flagged clp (flag &&& ~~~TTY_QUOTE) (f + k))
      (fun k => quoteBit clp beyond (f + k)) hrun
    have hmarks : prefixLen (fun k => !(flagged clp (flag &&& ~~~TTY_QUOTE) (f + k) ||
        quoteBit clp beyond (f + k))) (contiguous clp) =
        prefixLen (fun k => !(flagged clp (flag &&& ~~~TTY_QUOTE) (f + k) ||
          decide (flag &&& TTY_QUOTE ≠ 0#32) && clp.quoted (f + k))) (contiguous clp) := by
      refine prefixLen_congr fun k hk => ?_
      have hin : f + k < clp.c_cn := by
        unfold contiguous at hk
        rw [hf] at hk
        omega
      rw [quoteBit_eq hin]
      simp [hquote]
    rw [hmarks] at hshift
    rw [contiguous, hf] at hshift ⊢
    simp only [Nat.add_assoc, unflagged, contiguous, hf, Nat.add_zero, quoteBit_eq hlt] at hshift ⊢
    exact hshift

end Rep

/-- In every run over clists with quote maps `ndqb` counts as it should, and tests no mark
outside the map, if and only if the marks are where its loop takes them from. -/
theorem ndqb_runs {ι : Type*} [DecidableEq ι] (size : ι → ℕ) (ops : List (Op ι)) (i : ι)
    (beyond : Mem) {flag : BitVec 32} (hflag : flag ≠ 0#32) :
    let clp := (run (fun i => clalloc (size i) true) ops).1 i
    (ndqb clp beyond flag = plainPrefix clp flag ∧
      ∀ i ∈ ndqbReads clp beyond flag, i / 8 < QMEM clp.c_cn) ↔ CountsPlain clp beyond flag :=
  ndqb_iff ((run_simulates (fun i => rep_clalloc (size i)) ops).1 i) beyond hflag

theorem ndqb_runs_plain :
    let clp := (run (fun _ : Unit => clalloc 1024 true) [.putc () 97#32, .putc () 98#32]).1 ()
    ndqb clp (fun _ => 0#8) TTY_QUOTE = 2 := by
  intro clp
  have h := (ndqb_runs (fun _ => 1024) [.putc () 97#32, .putc () 98#32] () (fun _ => 0#8)
    (by decide : TTY_QUOTE ≠ 0#32)).mpr ?_
  · exact h.1.trans (by decide +kernel)
  · refine Or.inr (Or.inr ⟨?_, ?_⟩)
    · rw [if_neg (by decide +kernel)]
      intro j h₁ h₂
      have hB : j ≤ 2 := h₂.trans (by decide +kernel)
      have hmarks : ∀ j < 3, quoteBit clp (fun _ => 0#8) (offset clp.c_cf + j) = false := by
        decide +kernel
      exact hmarks j (by omega)
    · exact fun hend => absurd hend (by decide +kernel)

/-- Of an `a` and a quoted `b` none is counted. -/
theorem ndqb_quoted :
    let clp := (run (fun _ : Unit => clalloc 1024 true) [.putc () 97#32, .putc () (98#32 ||| TTY_QUOTE)]).1 ()
    ndqb clp (fun _ => 0#8) TTY_QUOTE = 0 ∧ plainPrefix clp TTY_QUOTE = 1 := by
  decide +kernel

end OpenbsdKernel.Tty
