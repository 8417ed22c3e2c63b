import OpenbsdKernel.Kern.Descrip.Alloc
import OpenbsdKernel.Kern.Descrip.Runs

/-!
# The words that `fdalloc` reads

`find_next_zero` ends its scan at `NDLOSLOTS (bits)` words whichever map it is given and
wherever its slice of the map starts. The scan stays inside the map as long as a clear
bit stops it.
-/
namespace OpenbsdKernel.Descrip

/-- The words that the loop of `find_next_zero` reads, with `n` words to go. -/
def scanReads (bitmap : ℕ → BitVec 32) : ℕ → ℕ → List ℕ
  | _, 0 => []
  | off, n + 1 =>
    off :: if bitmap off ≠ BitVec.allOnes 32 then [] else scanReads bitmap (off + 1) n

/-- The words that `find_next_zero` reads. -/
def findNextZeroReads (bitmap : ℕ → BitVec 32) (want bits : ℕ) : List ℕ :=
  if bits < want then []
  else
    let off := want >>> NDENTRYSHIFT
    let i := want &&& NDENTRYMASK
    if i ≠ 0 then
      let sub := bitmap off ||| BitVec.allOnes 32 >>> (NDENTRIES - i)
      off :: if sub ≠ BitVec.allOnes 32 then []
        else scanReads bitmap (off + 1) (NDLOSLOTS bits - (off + 1))
    else scanReads bitmap off (NDLOSLOTS bits - off)

/-- The indices at which the two maps are read. -/
structure Reads where
  fd_himap : List ℕ
  fd_lomap : List ℕ
  deriving DecidableEq, Repr

def Reads.append (r r' : Reads) : Reads := ⟨r.fd_himap ++ r'.fd_himap, r.fd_lomap ++ r'.fd_lomap⟩

variable {φ : Type*}

/-- What a round of `fdalloc` reads. -/
def fdallocStepReads (fdp : Filedesc φ) (b : Beyond) (lim want : ℕ) : Reads :=
  let last := min fdp.fd_nfiles lim
  let i := if want < fdp.fd_freefile then fdp.fd_freefile else want
  let off := i >>> NDENTRYSHIFT
  let bits := (last + NDENTRIES - 1) >>> NDENTRYSHIFT
  { fd_himap := findNextZeroReads (fdp.hi b) off bits
    fd_lomap :=
      match findNextZero (fdp.hi b) off bits with
      | none => []
      | some new =>
        (findNextZeroReads (fun w => fdp.lo b (new + w)) (if off < new then 0 else i &&& NDENTRYMASK)
          NDENTRIES).map (new + ·) }

/-- What `fdalloc` reads in at most `n` rounds. -/
def fdallocReads (fdp : Filedesc φ) (b : Beyond) (lim : ℕ) : ℕ → ℕ → Reads
  | 0, _ => ⟨[], []⟩
  | n + 1, want =>
    match fdallocStep fdp b lim want with
    | .next want' => (fdallocStepReads fdp b lim want).append (fdallocReads fdp b lim n want')
    | _ => fdallocStepReads fdp b lim want

example (fdp : Filedesc φ) (b : Beyond) (lim want : ℕ) : fdallocReads fdp b lim 0 want = ⟨[], []⟩ := by
  simp [fdallocReads]

/-- All reads are inside the maps of the table. -/
def Reads.Inside (fdp : Filedesc φ) (r : Reads) : Prop :=
  (∀ w ∈ r.fd_himap, w < NDHISLOTS fdp.fd_nfiles) ∧ ∀ w ∈ r.fd_lomap, w < NDLOSLOTS fdp.fd_nfiles

instance (fdp : Filedesc φ) (r : Reads) : Decidable (r.Inside fdp) :=
  inferInstanceAs (Decidable (_ ∧ _))

theorem Reads.inside_append {fdp : Filedesc φ} {r r' : Reads} :
    (r.append r').Inside fdp ↔ r.Inside fdp ∧ r'.Inside fdp := by
  simp only [Reads.Inside, Reads.append, List.mem_append, or_imp, forall_and]
  tauto

theorem scanReads_lt_iff {a : ℕ → BitVec 32} {off n H : ℕ} (h : off ≤ H) :
    (∀ w ∈ scanReads a off n, w < H) ↔
      off + n ≤ H ∨ ∃ w, off ≤ w ∧ w < H ∧ a w ≠ BitVec.allOnes 32 := by
  induction n generalizing off with
  | zero =>
    refine iff_of_true (fun w hw => ?_) (Or.inl h)
    cases hw
  | succ n ih =>
    simp only [scanReads, List.forall_mem_cons]
    by_cases hlt : off < H
    · by_cases hfull : a off = BitVec.allOnes 32
      · rw [if_neg (not_not.mpr hfull), ih hlt]
        have hsucc : (∃ w, off + 1 ≤ w ∧ w < H ∧ a w ≠ BitVec.allOnes 32) ↔
            ∃ w, off ≤ w ∧ w < H ∧ a w ≠ BitVec.allOnes 32 := by
          refine exists_congr fun w => ⟨fun hw => ⟨by omega, hw.2⟩, fun hw => ⟨?_, hw.2⟩⟩
          have hne : w ≠ off := by
            rintro rfl
            exact hw.2.2 hfull
          omega
        rw [hsucc, (by omega : off + 1 + n = off + (n + 1))]
        exact and_iff_right hlt
      · rw [if_pos hfull]
        exact iff_of_true ⟨hlt, fun w hw => by cases hw⟩ (Or.inr ⟨off, le_rfl, hlt, hfull⟩)
    · refine iff_of_false (fun hall => hlt hall.1) ?_
      rintro (hle | ⟨w, h₁, h₂, -⟩) <;> omega

theorem exists_word_iff {a : ℕ → BitVec 32} {off H : ℕ} :
    (∃ w, off ≤ w ∧ w < H ∧ a w ≠ BitVec.allOnes 32) ↔
      ∃ k, 32 * off ≤ k ∧ k < 32 * H ∧ Bitmap.test a k = false := by
  constructor
  · rintro ⟨w, h₁, h₂, hne⟩
    rw [ne_eq, eq_allOnes_iff] at hne
    push Not at hne
    obtain ⟨k, hk, hclear⟩ := hne
    exact ⟨32 * w + k, by omega, by omega, by simpa using hclear⟩
  · rintro ⟨k, h₁, h₂, hclear⟩
    refine ⟨k / 32, by omega, by omega, fun hfull => ?_⟩
    have hbit := (eq_allOnes_iff a (k / 32)).mp hfull (k % 32) (Nat.mod_lt _ (by decide))
    rw [Nat.div_add_mod, hclear] at hbit
    cases hbit

theorem masked_ne_iff {a : ℕ → BitVec 32} {want : ℕ} :
    a (want / 32) ||| BitVec.allOnes 32 >>> (NDENTRIES - want % 32) ≠ BitVec.allOnes 32 ↔
      ∃ k, want ≤ k ∧ k < 32 * (want / 32 + 1) ∧ Bitmap.test a k = false := by
  have hbit : ∀ k < 32, (a (want / 32) ||| BitVec.allOnes 32 >>> (NDENTRIES - want % 32)).getLsbD k =
      (Bitmap.test a (32 * (want / 32) + k) || decide (k < want % 32)) := by
    intro k hk
    unfold Bitmap.test
    rw [(by omega : (32 * (want / 32) + k) / 32 = want / 32),
      (by omega : (32 * (want / 32) + k) % 32 = k), BitVec.getLsbD_or, BitVec.getLsbD_ushiftRight,
      BitVec.getLsbD_allOnes]
    congr 2
    unfold NDENTRIES
    simp only [eq_iff_iff]
    omega
  rw [← not_iff_not, not_not]
  push Not
  constructor
  · intro hfull k hk hlt
    have hk' := hbit (k - 32 * (want / 32)) (by omega)
    have hge : ¬ k - 32 * (want / 32) < want % 32 := by omega
    have hlt' : k - 32 * (want / 32) < 32 := by omega
    rw [hfull, BitVec.getLsbD_allOnes, (by omega : 32 * (want / 32) + (k - 32 * (want / 32)) = k)] at hk'
    simpa [hge, hlt'] using hk'.symm
  · intro hset
    apply BitVec.eq_of_getLsbD_eq
    intro k hk
    rw [hbit k hk, BitVec.getLsbD_allOnes, decide_eq_true hk]
    by_cases hlow : k < want % 32
    · simp [hlow]
    · have := hset (32 * (want / 32) + k) (by omega) (by omega)
      simpa [hlow] using this

/-- The reads of `find_next_zero` are below `H` where a clear bit below `H` stops the scan,
or the scan is not meant to go beyond `H`. -/
theorem findNextZeroReads_lt_iff {a : ℕ → BitVec 32} {want bits H : ℕ} (hbits : want ≤ bits)
    (h : want ≤ 32 * H) :
    (∀ w ∈ findNextZeroReads a want bits, w < H) ↔
      NDLOSLOTS bits ≤ H ∨ ∃ k, want ≤ k ∧ k < 32 * H ∧ Bitmap.test a k = false := by
  simp only [findNextZeroReads, shiftRight_five, and_mask]
  rw [if_neg (by omega)]
  by_cases hi : want % 32 ≠ 0
  · rw [if_pos hi, List.forall_mem_cons, and_iff_right (by omega : want / 32 < H)]
    by_cases hsub : a (want / 32) ||| BitVec.allOnes 32 >>> (NDENTRIES - want % 32) ≠
        BitVec.allOnes 32
    · rw [if_pos hsub]
      obtain ⟨k, h₁, h₂, hclear⟩ := masked_ne_iff.mp hsub
      exact iff_of_true (fun w hw => by cases hw) (Or.inr ⟨k, h₁, by omega, hclear⟩)
    · rw [if_neg hsub, scanReads_lt_iff (by omega), exists_word_iff]
      apply or_congr (by omega)
      refine exists_congr fun k => ⟨fun hk => ⟨by omega, hk.2⟩, fun hk => ⟨?_, hk.2⟩⟩
      by_contra hlt
      exact hsub (masked_ne_iff.mpr ⟨k, hk.1, by omega, hk.2.2⟩)
  · rw [if_neg hi, scanReads_lt_iff (by omega), exists_word_iff, (by omega : 32 * (want / 32) = want)]
    exact or_congr (by omega) Iff.rfl

theorem not_ne_zero {x : BitVec 32} (h : x ≠ BitVec.allOnes 32) : ~~~x ≠ 0#32 := by
  intro hzero
  apply h
  rw [← BitVec.not_not (b := x), hzero]
  rfl

theorem scanZero_lt {a : ℕ → BitVec 32} {off maxoff j : ℕ} (h : scanZero a off maxoff = some j) :
    j < 32 * maxoff := by
  unfold scanZero at h
  obtain ⟨w, hw, hj⟩ := Option.map_eq_some_iff.mp h
  obtain ⟨hne, hmem, -⟩ := List.find?_range'_eq_some.mp hw
  obtain ⟨hle, hlt⟩ := List.mem_range'_1.mp hmem
  obtain ⟨i, hi, hffs, -⟩ := ffs_spec (not_ne_zero (by simpa using hne))
  rw [shiftLeft_five, hffs] at hj
  omega

/-- A bit found by `find_next_zero` is in the first word, or before the end of the scan. -/
theorem findNextZero_lt {a : ℕ → BitVec 32} {want bits j : ℕ}
    (h : findNextZero a want bits = some j) :
    j < 32 * NDLOSLOTS bits ∨ want % 32 ≠ 0 ∧ j < 32 * (want / 32 + 1) := by
  simp only [findNextZero, shiftRight_five, shiftLeft_five, and_mask] at h
  split_ifs at h with hbits hi hsub
  · right
    obtain ⟨i, hlt, hffs, -⟩ := ffs_spec (not_ne_zero hsub)
    rw [hffs] at h
    cases h
    exact ⟨hi, by omega⟩
  · exact Or.inl (scanZero_lt h)
  · exact Or.inl (scanZero_lt h)

/-- The two maps agree, and nothing is allocated behind them; what is allocated is read off
the low map itself. -/
def Agree (fdp : Filedesc φ) : Prop := Maps fdp {fd | Bitmap.test fdp.fd_lomap fd = true}

variable {fdp : Filedesc φ} {b : Beyond} {lim want : ℕ}

/-- Where `fdalloc` begins its search. -/
def start (fdp : Filedesc φ) (want : ℕ) : ℕ :=
  if want < fdp.fd_freefile then fdp.fd_freefile else want

/-- The number of words in which it may find a descriptor. -/
def words (fdp : Filedesc φ) (lim : ℕ) : ℕ :=
  (min fdp.fd_nfiles lim + NDENTRIES - 1) >>> NDENTRYSHIFT

/-- A descriptor from `i` on that is free in the map. -/
def FreeFrom (fdp : Filedesc φ) (i : ℕ) : Prop :=
  ∃ fd, i ≤ fd ∧ fd < 32 * NDLOSLOTS fdp.fd_nfiles ∧ Bitmap.test fdp.fd_lomap fd = false

theorem words_le (fdp : Filedesc φ) (lim : ℕ) : words fdp lim ≤ NDLOSLOTS fdp.fd_nfiles := by
  have := le_NDLOSLOTS fdp.fd_nfiles
  unfold words NDENTRIES
  rw [shiftRight_five]
  omega

theorem test_hi_of_lt {w : ℕ} (h : w < NDLOSLOTS fdp.fd_nfiles) :
    Bitmap.test (fdp.hi b) w = Bitmap.test fdp.fd_himap w := by
  rw [NDLOSLOTS_eq] at h
  unfold Bitmap.test Filedesc.hi
  rw [if_pos (by omega)]

theorem test_lo_of_lt {fd : ℕ} (h : fd < 32 * NDLOSLOTS fdp.fd_nfiles) :
    Bitmap.test (fdp.lo b) fd = Bitmap.test fdp.fd_lomap fd := by
  unfold Bitmap.test Filedesc.lo
  rw [if_pos (by omega)]

theorem Agree.hi_iff (h : Agree fdp) {w : ℕ} (hw : w < NDLOSLOTS fdp.fd_nfiles) :
    Bitmap.test (fdp.hi b) w = false ↔ fdp.fd_lomap w ≠ BitVec.allOnes 32 := by
  rw [test_hi_of_lt hw, ne_eq, ← h.hi w, Bool.not_eq_true]

theorem Agree.hi_inside (h : Agree fdp) {off : ℕ} (hoff : off ≤ words fdp lim) :
    (∀ w ∈ findNextZeroReads (fdp.hi b) off (words fdp lim), w < NDHISLOTS fdp.fd_nfiles) ↔
      NDLOSLOTS (words fdp lim) ≤ NDHISLOTS fdp.fd_nfiles ∨ FreeFrom fdp (32 * off) := by
  have hle := words_le fdp lim
  rw [findNextZeroReads_lt_iff hoff (by rw [← NDLOSLOTS_eq]; omega), FreeFrom, ← exists_word_iff,
    ← NDLOSLOTS_eq]
  apply or_congr_right
  refine exists_congr fun w => and_congr_right fun _ => and_congr_right fun hw => h.hi_iff hw

theorem lo_inside (fdp : Filedesc φ) (b : Beyond) {new : ℕ} (j : ℕ) (hnew : new < NDLOSLOTS fdp.fd_nfiles) (hj : j < 32) :
    (∀ w ∈ (findNextZeroReads (fun w => fdp.lo b (new + w)) j NDENTRIES).map (new + ·),
        w < NDLOSLOTS fdp.fd_nfiles) ↔
      new + 32 ≤ NDLOSLOTS fdp.fd_nfiles ∨ FreeFrom fdp (32 * new + j) := by
  have hscan := @findNextZeroReads_lt_iff (fun w => fdp.lo b (new + w)) j NDENTRIES
    (NDLOSLOTS fdp.fd_nfiles - new) (by unfold NDENTRIES; omega) (by omega)
  have hslots : NDLOSLOTS NDENTRIES = 32 := by decide
  rw [hslots] at hscan
  have hmap : (∀ w ∈ (findNextZeroReads (fun w => fdp.lo b (new + w)) j NDENTRIES).map (new + ·),
        w < NDLOSLOTS fdp.fd_nfiles) ↔
      ∀ w ∈ findNextZeroReads (fun w => fdp.lo b (new + w)) j NDENTRIES,
        w < NDLOSLOTS fdp.fd_nfiles - new := by
    rw [List.forall_mem_map]
    exact forall₂_congr fun w _ => by omega
  rw [hmap, hscan]
  apply or_congr (by omega)
  constructor
  · rintro ⟨k, h₁, h₂, hclear⟩
    rw [test_shift, test_lo_of_lt (by omega)] at hclear
    exact ⟨32 * new + k, by omega, by omega, hclear⟩
  · rintro ⟨fd, h₁, h₂, hclear⟩
    refine ⟨fd - 32 * new, by omega, by omega, ?_⟩
    rw [test_shift, (by omega : 32 * new + (fd - 32 * new) = fd), test_lo_of_lt (by omega), hclear]

theorem start_spec (fdp : Filedesc φ) (want : ℕ) :
    want ≤ start fdp want ∧ fdp.fd_freefile ≤ start fdp want := by
  unfold start
  split_ifs <;> omega

theorem start_of_le (want : ℕ) {want' : ℕ} (h : start fdp want ≤ want') : start fdp want' = want' := by
  have := (start_spec fdp want).2
  unfold start
  rw [if_neg (by omega)]

theorem fdallocStep_eq (fdp : Filedesc φ) (b : Beyond) (lim want : ℕ) :
    (findNextZero (fdp.hi b) (start fdp want / 32) (words fdp lim) = none ∧
      (∀ want', fdallocStep fdp b lim want ≠ .next want') ∧
      fdallocStepReads fdp b lim want =
        ⟨findNextZeroReads (fdp.hi b) (start fdp want / 32) (words fdp lim), []⟩) ∨
    ∃ new, findNextZero (fdp.hi b) (start fdp want / 32) (words fdp lim) = some new ∧
      let j := if start fdp want / 32 < new then 0 else start fdp want % 32
      (∀ want', fdallocStep fdp b lim want = .next want' ↔
        want' = 32 * (new + 1) ∧ findNextZero (fun w => fdp.lo b (new + w)) j NDENTRIES = none) ∧
      fdallocStepReads fdp b lim want =
        ⟨findNextZeroReads (fdp.hi b) (start fdp want / 32) (words fdp lim),
          (findNextZeroReads (fun w => fdp.lo b (new + w)) j NDENTRIES).map (new + ·)⟩ := by
  simp only [fdallocStep, fdallocStepReads]
  rw [← start, ← words]
  simp only [shiftRight_five, shiftLeft_five, and_mask]
  cases hnew : findNextZero (fdp.hi b) (start fdp want / 32) (words fdp lim) with
  | none =>
    refine Or.inl ⟨rfl, fun want' => ?_, rfl⟩
    dsimp only
    split_ifs <;> simp
  | some new =>
    refine Or.inr ⟨new, rfl, fun want' => ?_, rfl⟩
    dsimp only
    cases hj : findNextZero (fun w => fdp.lo b (new + w))
        (if start fdp want / 32 < new then 0 else start fdp want % 32) NDENTRIES with
    | none =>
      rw [(by ring : (new + 1) * 32 = 32 * (new + 1))]
      simp [eq_comm]
    | some j =>
      dsimp only
      split_ifs <;> simp

/-- A round that starts below a free descriptor reads inside the maps, and so does the next
one. -/
theorem Agree.round_free (h : Agree fdp) (b : Beyond) (lim : ℕ) (hfree : FreeFrom fdp (start fdp want)) :
    (fdallocStepReads fdp b lim want).Inside fdp ∧
      ∀ want', fdallocStep fdp b lim want = .next want' → FreeFrom fdp (start fdp want') := by
  obtain ⟨fd, hge, hlt, hclear⟩ := hfree
  have hword : fdp.fd_lomap (fd / 32) ≠ BitVec.allOnes 32 := by
    intro hfull
    have hbit := (eq_allOnes_iff _ _).mp hfull (fd % 32) (Nat.mod_lt _ (by decide))
    rw [Nat.div_add_mod, hclear] at hbit
    cases hbit
  have hhi : ∀ w ∈ findNextZeroReads (fdp.hi b) (start fdp want / 32) (words fdp lim),
      w < NDHISLOTS fdp.fd_nfiles := by
    by_cases hoff : start fdp want / 32 ≤ words fdp lim
    · exact (h.hi_inside hoff).mpr (Or.inr ⟨fd, by omega, hlt, hclear⟩)
    · intro w hw
      rw [findNextZeroReads, if_pos (by omega)] at hw
      cases hw
  rcases fdallocStep_eq fdp b lim want with ⟨-, hdone, hreads⟩ | ⟨new, hnew, hnext, hreads⟩
  · rw [hreads]
    exact ⟨⟨hhi, fun w hw => by cases hw⟩, fun want' hs => absurd hs (hdone want')⟩
  · obtain ⟨hle, -, hfull⟩ := findNextZero_some hnew
    have hfd : new ≤ fd / 32 := by
      by_contra hgt
      have hset := hfull (fd / 32) (by omega) (by omega)
      rw [(h.hi_iff (by omega)).mpr hword] at hset
      cases hset
    rw [hreads]
    have hlo := (lo_inside fdp b (if start fdp want / 32 < new then 0 else start fdp want % 32)
      (by omega : new < NDLOSLOTS fdp.fd_nfiles) (by split_ifs <;> omega)).mpr
      (Or.inr ⟨fd, by split_ifs <;> omega, hlt, hclear⟩)
    refine ⟨⟨hhi, hlo⟩, fun want' hs => ?_⟩
    obtain ⟨rfl, hnone⟩ := (hnext want').mp hs
    -- the descriptor is not in the words that were searched
    have hfar : 32 * new + 1024 ≤ fd := by
      by_contra hnear
      have hslots : (32 : ℕ) * NDLOSLOTS NDENTRIES = 1024 := by decide
      have hset := findNextZero_none hnone (by unfold NDENTRIES; split_ifs <;> omega)
        (fd - 32 * new) (by split_ifs <;> omega) (by omega)
      rw [test_shift, (by omega : 32 * new + (fd - 32 * new) = fd), test_lo_of_lt hlt, hclear] at hset
      cases hset
    rw [start_of_le want (by omega)]
    exact ⟨fd, by omega, hlt, hclear⟩

theorem Agree.reads_free (h : Agree fdp) (n : ℕ) (hfree : FreeFrom fdp (start fdp want)) :
    (fdallocReads fdp b lim n want).Inside fdp := by
  induction n generalizing want with
  | zero => exact ⟨by simp [fdallocReads], by simp [fdallocReads]⟩
  | succ n ih =>
    obtain ⟨hreads, hnext⟩ := h.round_free b lim hfree
    rw [fdallocReads]
    split
    · next want' hs => exact Reads.inside_append.mpr ⟨hreads, ih (hnext want' hs)⟩
    · exact hreads

theorem step_inside {n : ℕ} (h : (fdallocReads fdp b lim (n + 1) want).Inside fdp) :
    (fdallocStepReads fdp b lim want).Inside fdp := by
  rw [fdallocReads] at h
  split at h
  · exact (Reads.inside_append.mp h).1
  · exact h

theorem reads_last {n : ℕ} (h : ∀ want', fdallocStep fdp b lim want ≠ .next want') :
    fdallocReads fdp b lim (n + 1) want = fdallocStepReads fdp b lim want := by
  rw [fdallocReads]
  split
  · next want' hs => exact absurd hs (h want')
  · rfl

theorem reads_beyond {n : ℕ} (h : words fdp lim < start fdp want / 32) :
    (fdallocReads fdp b lim (n + 1) want).Inside fdp := by
  have hnone : findNextZero (fdp.hi b) (start fdp want / 32) (words fdp lim) = none := by
    rw [findNextZero, if_pos h]
  have hempty : findNextZeroReads (fdp.hi b) (start fdp want / 32) (words fdp lim) = [] := by
    rw [findNextZeroReads, if_pos h]
  rcases fdallocStep_eq fdp b lim want with ⟨-, hdone, hreads⟩ | ⟨new, hnew, -⟩
  · rw [reads_last hdone, hreads, hempty]
    exact ⟨by simp, by simp⟩
  · rw [hnone] at hnew
    cases hnew

/-- The scan of the high map is meant to end where the map ends, or before. -/
def Tight (fdp : Filedesc φ) (lim : ℕ) : Prop :=
  NDLOSLOTS (words fdp lim) ≤ NDHISLOTS fdp.fd_nfiles

/-- Where all descriptors from the first word on are allocated, the high map is read to the
end of the scan. -/
theorem Agree.reads_full (h : Agree fdp) (n : ℕ) (hoff : start fdp want / 32 ≤ words fdp lim)
    (hfull : ¬ FreeFrom fdp (32 * (start fdp want / 32))) :
    (fdallocReads fdp b lim (n + 1) want).Inside fdp ↔ Tight fdp lim := by
  have hhi := h.hi_inside (b := b) hoff
  rw [or_iff_left hfull] at hhi
  by_cases ht : Tight fdp lim
  · refine iff_of_true ?_ ht
    rcases fdallocStep_eq fdp b lim want with ⟨-, hdone, hreads⟩ | ⟨new, hnew, -⟩
    · rw [reads_last hdone, hreads]
      exact ⟨hhi.mpr ht, by simp⟩
    · obtain ⟨hle, hclear, -⟩ := findNextZero_some hnew
      have hwords := words_le fdp lim
      have hlt : new < NDLOSLOTS fdp.fd_nfiles := by
        unfold Tight at ht
        rw [NDLOSLOTS_eq fdp.fd_nfiles] at hwords ⊢
        rcases findNextZero_lt hnew with hlt | ⟨hne, hlt⟩ <;> omega
      have hword := (h.hi_iff hlt).mp hclear
      obtain ⟨k, h₁, h₂, hk⟩ := exists_word_iff.mp ⟨new, hle, hlt, hword⟩
      exact absurd ⟨k, h₁, h₂, hk⟩ hfull
  · refine iff_of_false (fun hin => ht (hhi.mp ?_)) ht
    have hstep := (step_inside hin).1
    rcases fdallocStep_eq fdp b lim want with ⟨-, -, hreads⟩ | ⟨new, -, -, hreads⟩
    · rwa [hreads] at hstep
    · rwa [hreads] at hstep

def Partial (fdp : Filedesc φ) (off : ℕ) : Prop :=
  off < NDLOSLOTS fdp.fd_nfiles ∧ fdp.fd_lomap off ≠ BitVec.allOnes 32

/-- Where the first word has only descriptors below the start to offer, the low map is read
to the end of its scan, and the search goes on with the next word. -/
theorem Agree.reads_partial (h : Agree fdp) (n : ℕ) (hoff : start fdp want / 32 ≤ words fdp lim)
    (hfull : ¬ FreeFrom fdp (start fdp want)) (hp : Partial fdp (start fdp want / 32)) :
    (fdallocReads fdp b lim (n + 2) want).Inside fdp ↔
      start fdp want / 32 + 32 ≤ NDLOSLOTS fdp.fd_nfiles ∧
        (Tight fdp lim ∨ words fdp lim ≤ start fdp want / 32) := by
  obtain ⟨hlt, hword⟩ := hp
  have hclear : Bitmap.test (fdp.hi b) (start fdp want / 32) = false := (h.hi_iff hlt).mpr hword
  have hhi := (h.hi_inside (b := b) hoff).mpr
    (Or.inr (exists_word_iff.mp ⟨start fdp want / 32, le_rfl, hlt, hword⟩))
  rcases fdallocStep_eq fdp b lim want with ⟨hnone, hdone, hreads⟩ | ⟨new, hnew, hnext, hreads⟩
  · rw [reads_last hdone, hreads]
    refine iff_of_true ⟨hhi, by simp⟩ ?_
    -- the scan ends right before the word
    have hend : ¬ start fdp want / 32 < 32 * NDLOSLOTS (words fdp lim) := by
      intro hin
      rw [findNextZero_none hnone hoff _ le_rfl hin] at hclear
      cases hclear
    have hle := le_NDLOSLOTS (words fdp lim)
    rw [NDLOSLOTS_eq fdp.fd_nfiles] at hlt ⊢
    exact ⟨by omega, Or.inr (by omega)⟩
  · obtain ⟨hle, -, hset⟩ := findNextZero_some hnew
    have heq : new = start fdp want / 32 := by
      by_contra hne
      rw [hset _ le_rfl (by omega)] at hclear
      cases hclear
    subst heq
    rw [if_neg (lt_irrefl _)] at hnext hreads
    have hlo := lo_inside fdp b _ hlt (Nat.mod_lt (start fdp want) (by decide : 0 < 32))
    rw [Nat.div_add_mod, or_iff_left hfull] at hlo
    by_cases hroom : start fdp want / 32 + 32 ≤ NDLOSLOTS fdp.fd_nfiles
    · have hnone : findNextZero (fun w => fdp.lo b (start fdp want / 32 + w)) (start fdp want % 32)
          NDENTRIES = none := by
        by_contra hsome
        obtain ⟨j, hj⟩ := Option.ne_none_iff_exists'.mp hsome
        obtain ⟨hge, hfree, -⟩ := findNextZero_some hj
        have hslots : (32 : ℕ) * NDLOSLOTS NDENTRIES = 1024 := by decide
        have hj' : j < 1024 := by rcases findNextZero_lt hj with hlt | ⟨-, hlt⟩ <;> omega
        rw [test_shift, test_lo_of_lt (by omega)] at hfree
        exact hfull ⟨_, by omega, by omega, hfree⟩
      have hs := (hnext _).mpr ⟨rfl, hnone⟩
      have hstart : start fdp (32 * (start fdp want / 32 + 1)) = 32 * (start fdp want / 32 + 1) :=
        start_of_le want (by omega)
      have hdiv : start fdp (32 * (start fdp want / 32 + 1)) / 32 = start fdp want / 32 + 1 := by
        omega
      rw [fdallocReads, hs]
      dsimp only
      rw [Reads.inside_append, hreads, and_iff_right ⟨hhi, hlo.mpr hroom⟩, and_iff_right hroom]
      by_cases hbeyond : words fdp lim ≤ start fdp want / 32
      · exact iff_of_true (reads_beyond (by omega)) (Or.inr hbeyond)
      · rw [or_iff_left hbeyond]
        apply h.reads_full n (by omega)
        rw [hdiv]
        rintro ⟨fd, h₁, h₂, hfree⟩
        exact hfull ⟨fd, by omega, h₂, hfree⟩
    · refine iff_of_false (fun hin => hroom (hlo.mp ?_)) fun hin => hroom hin.1
      have hstep := (step_inside hin).2
      rwa [hreads] at hstep

/-- When the scans of an allocation stay inside the maps: they have nothing to look at, or a
free descriptor stops them, or they are meant to end inside. -/
def StaysInside (fdp : Filedesc φ) (lim want : ℕ) : Prop :=
  words fdp lim < start fdp want / 32 ∨ FreeFrom fdp (start fdp want) ∨
    (Partial fdp (start fdp want / 32) → start fdp want / 32 + 32 ≤ NDLOSLOTS fdp.fd_nfiles) ∧
      (Tight fdp lim ∨ Partial fdp (start fdp want / 32) ∧ words fdp lim ≤ start fdp want / 32)

theorem Agree.reads_inside_iff (h : Agree fdp) (b : Beyond) (lim want : ℕ) :
    (fdallocReads fdp b lim (fdallocFuel fdp lim) want).Inside fdp ↔ StaysInside fdp lim want := by
  have hfuel : fdallocFuel fdp lim = words fdp lim + 2 := rfl
  rw [hfuel, StaysInside]
  by_cases hoff : start fdp want / 32 ≤ words fdp lim
  · rw [or_iff_right (by omega)]
    by_cases hfree : FreeFrom fdp (start fdp want)
    · exact iff_of_true (h.reads_free _ hfree) (Or.inl hfree)
    · rw [or_iff_right hfree]
      by_cases hp : Partial fdp (start fdp want / 32)
      · rw [h.reads_partial _ hoff hfree hp]
        tauto
      · have hfull : ¬ FreeFrom fdp (32 * (start fdp want / 32)) := by
          rintro ⟨fd, h₁, h₂, hclear⟩
          by_cases hge : start fdp want ≤ fd
          · exact hfree ⟨fd, hge, h₂, hclear⟩
          · obtain ⟨w, hw₁, hw₂, hne⟩ := (@exists_word_iff fdp.fd_lomap (start fdp want / 32)
              (start fdp want / 32 + 1)).mpr ⟨fd, h₁, by omega, hclear⟩
            have hw : w = start fdp want / 32 := by omega
            rw [hw] at hne
            exact hp ⟨by omega, hne⟩
        rw [h.reads_full _ hoff hfull]
        tauto
  · exact iff_of_true (reads_beyond (by omega)) (Or.inl (by omega))

/-- What every operation keeps, whether or not `fd_lastfile` bounds the descriptors. -/
structure Sound (fdp : Filedesc φ) : Prop where
  agree : Agree fdp
  pos : 0 < fdp.fd_nfiles

theorem Maps.agree {A : Set ℕ} (h : Maps fdp A) : Agree fdp := by
  have hA : A = {fd | Bitmap.test fdp.fd_lomap fd = true} := Set.ext fun fd => (h.lo fd).symm
  rw [Agree, ← hA]
  exact h

theorem Sound.congr {x y : Filedesc φ} (h : Sound x) (hlo : y.fd_lomap = x.fd_lomap)
    (hhi : y.fd_himap = x.fd_himap) (hn : y.fd_nfiles = x.fd_nfiles) : Sound y := by
  refine ⟨?_, hn ▸ h.pos⟩
  have hmaps := h.agree
  unfold Agree at hmaps ⊢
  rw [hlo]
  exact ⟨hlo ▸ hmaps.lo, fun w => by rw [hhi, hlo]; exact hmaps.hi w, hn ▸ hmaps.bound⟩

theorem sound_fdinit : Sound (fdinit : Filedesc φ) :=
  ⟨inv_fdinit.1.maps.agree, (by decide : 0 < NDFILE)⟩

theorem Sound.used (h : Sound fdp) {fd : ℕ} (hfd : fd < fdp.fd_nfiles) : Sound (fdUsed fdp fd) :=
  ⟨(h.agree.used hfd).agree, h.pos⟩

theorem Sound.unused (h : Sound fdp) (fd : ℕ) : Sound (fdUnused fdp fd) :=
  ⟨(h.agree.unused fd).agree, h.pos⟩

theorem Sound.remove (h : Sound fdp) (fd : ℕ) : Sound (fdremove fdp fd) := by
  have hsame : Sound { fdp with fd_ofiles := Function.update fdp.fd_ofiles fd none } :=
    h.congr rfl rfl rfl
  exact hsame.unused fd

theorem Sound.fdalloc (h : Sound fdp) (b : Beyond) (lim want : ℕ) :
    Sound (fdalloc fdp b lim want).1 := by
  rcases fdalloc_spec h.agree b lim want with ⟨i, want', heq, -, hlt, -⟩ | heq
  · rw [heq]
    exact (h.used hlt).congr rfl rfl rfl
  · rw [heq]
    exact h

theorem Sound.fdexpand (h : Sound fdp) : Sound (fdexpand fdp) :=
  ⟨(h.agree.fdexpand h.pos).agree, h.pos.trans (nfiles_lt_fdexpand h.pos)⟩

theorem Sound.falloc (h : Sound fdp) (b : ℕ → Beyond) (lim : ℕ) (full : Bool) (fp : φ) :
    Sound (falloc b lim full fp fdp).1 := by
  unfold Descrip.falloc
  split
  · next r n hrun =>
    refine Loop.run_returned (I := Sound) (Q := fun r => Sound r.1) _ ?_ ?_ hrun h
    · intro x y hx hstep
      unfold fallocStep at hstep
      split at hstep
      · split_ifs at hstep
        cases hstep
        exact hx.fdexpand
      · split_ifs at hstep
    · intro x r hx hstep
      have halloc := hx.fdalloc (b x.fd_nfiles) lim 0
      unfold fallocStep at hstep
      split at hstep
      · split_ifs at hstep
        cases hstep
        exact hx
      · next fdp₁ i heq =>
        rw [heq] at halloc
        split_ifs at hstep
        · cases hstep
          exact halloc.unused i
        · cases hstep
          exact halloc.congr rfl rfl rfl
  · exact h

theorem Sound.finishdup (h : Sound fdp) (fp : φ) (deadlk : Bool) (old : ℕ) {new : ℕ} (dup2 : Bool)
    (hnew : new < fdp.fd_nfiles) : Sound (finishdup fdp fp deadlk old new dup2).1 := by
  simp only [Descrip.finishdup]
  split_ifs
  · exact h
  · have hsame : Sound { fdp with
        fd_ofiles := Function.update fdp.fd_ofiles new (some fp)
        fd_ofileflags := Function.update fdp.fd_ofileflags new
          (fdp.fd_ofileflags old &&& ~~~UF_EXCLOSE) } := h.congr rfl rfl rfl
    exact hsame.used hnew
  · exact h.congr rfl rfl rfl

theorem Sound.dodup3 (h : Sound fdp) (b : Beyond) (lim : ℕ) (usable : φ → Bool)
    (deadlk cloexec : Bool) (old new : ℕ) :
    Sound (dodup3 fdp b lim usable deadlk cloexec old new).1 := by
  rcases dodup3_cases h.agree b lim usable deadlk cloexec old new with
    ⟨e, heq⟩ | ⟨-, heq⟩ | heq | ⟨hlt, fp, heq⟩
  · rw [heq]
    exact h
  · rw [heq]
    exact h
  · rw [heq]
    exact h.fdexpand
  · have hfin := h.finishdup fp deadlk old true hlt
    rw [heq, dup3Finish]
    split
    · next fdp₁ i hr =>
      rw [hr] at hfin
      dsimp only
      split_ifs
      · exact hfin.congr rfl rfl rfl
      · exact hfin
    · next fdp₁ e hr =>
      rw [hr] at hfin
      exact hfin

theorem Sound.forLastfile {body : Filedesc φ → ℕ → Filedesc φ}
    (hbody : ∀ x i, Sound x → Sound (body x i)) (n i : ℕ) (h : Sound fdp) :
    Sound (forLastfile body n i fdp) := by
  induction n generalizing fdp i with
  | zero => exact h
  | succ n ih =>
    unfold Descrip.forLastfile
    split_ifs
    · exact ih (i + 1) (hbody fdp i h)
    · exact h

theorem Sound.removeChosen (h : Sound fdp) (sel : φ → Bool) (i : ℕ) :
    Sound (removeChosen sel fdp i) := by
  unfold Descrip.removeChosen
  split
  · split_ifs
    · exact h.remove i
    · exact h
  · exact h

theorem Sound.fdcopy (h : Sound fdp) (leave : φ → Bool) : Sound (fdcopy leave fdp) := by
  have hcopy : Sound (truncate fdp (copySize fdp)) := 
    ⟨(h.agree.truncate _).agree, copySize_pos h.pos⟩
  exact @Sound.forLastfile φ _ (Descrip.removeChosen leave) (fun x i hx => hx.removeChosen leave i) _ 0
    hcopy

theorem sound_step {s : State φ} (h : Sound s.1) {op : Op φ} (hvalid : op.Valid s) :
    Sound (step s op).1 := by
  cases op with
  | fdalloc b lim want =>
    have := h.fdalloc b lim want
    simp only [step]
    split <;> simp_all
  | falloc b lim full fp =>
    have := h.falloc b lim full fp
    simp only [step]
    split <;> simp_all
  | fdexpand => exact h.fdexpand
  | finishdup fp deadlk old new dup2 =>
    have := h.finishdup fp deadlk old dup2 hvalid.1
    simp only [step]
    split <;> simp_all
  | dodup3 b lim usable deadlk cloexec old new =>
    have := h.dodup3 b lim usable deadlk cloexec old new
    simp only [step]
    split <;> simp_all
  | fdremove fd => exact h.remove fd
  | fdrelease fd =>
    simp only [step, fdrelease]
    split_ifs
    · exact h
    · exact h.remove fd
  | sysClosefrom startfd =>
    simp only [step, sysClosefrom]
    split_ifs
    · exact h
    · rw [closefrom_body]
      exact h.forLastfile (fun x i hx => hx.removeChosen _ i) _ startfd
  | fdcopy leave => exact h.fdcopy leave

theorem sound_run {s : State φ} (h : Sound s.1) (ops : List (Op φ))
    (hvalid : Along Op.Valid s ops) : Sound (run s ops).1 := by
  induction ops generalizing s with
  | nil => exact h
  | cons op ops ih => exact ih (sound_step h hvalid.1) hvalid.2

/-- In every table that a run reaches, an allocation reads inside the maps if and only if
its scans have nothing to look at, are stopped by a free descriptor, or are meant to end
inside. -/
theorem fdalloc_reads (ops : List (Op φ)) (hvalid : Along Op.Valid (fdinit, ∅) ops) (b : Beyond)
    (lim want : ℕ) :
    let fdp := (run (fdinit, ∅) ops).1
    (fdallocReads fdp b lim (fdallocFuel fdp lim) want).Inside fdp ↔ StaysInside fdp lim want :=
  (sound_run sound_fdinit ops hvalid).agree.reads_inside_iff b lim want

theorem fdalloc_reads_open :
    let fdp := (run ((fdinit : Filedesc ℕ), ∅) [.falloc (fun _ => zeros) 128 false 7]).1
    (fdallocReads fdp zeros 128 (fdallocFuel fdp 128) 3).Inside fdp :=
  (fdalloc_reads [.falloc (fun _ => zeros) 128 false 7] ⟨trivial, trivial⟩ zeros 128 3).mpr
    (Or.inr (Or.inl ⟨3, by decide, by decide, by decide⟩))

/-- One open file, its descriptor duplicated to 25599 (the table grows to 25600 slots, ten
restarts of `dodup3`), then to 25600. -/
def growTo25600 : List (Op ℕ) :=
  .falloc (fun _ => zeros) 30000 false 7 ::
    List.replicate 11 (.dodup3 zeros 30000 (fun _ => true) false false 0 25599)

theorem fdalloc_reads_25600 :
    Along Op.Valid ((fdinit : Filedesc ℕ), ∅) growTo25600 ∧
      ¬ (fdallocReads (run (fdinit, ∅) growTo25600).1 zeros 30000
        (fdallocFuel (run (fdinit, ∅) growTo25600).1 30000) 25600).Inside
          (run (fdinit, ∅) growTo25600).1 := by
  constructor
  · simp only [growTo25600, List.replicate, Along, Op.Valid]
    decide
  · decide +kernel

end OpenbsdKernel.Descrip
