import Mathlib.Data.Set.Basic
import OpenbsdKernel.Kern.Descrip.Basic

/-!
# The table invariant

The maps and hints of a descriptor table against the set of allocated descriptors, and
how marking, searching, growing and copying keep them in step.
-/
namespace OpenbsdKernel.Descrip

theorem shiftRight_five (i : ℕ) : i >>> NDENTRYSHIFT = i / 32 := Nat.shiftRight_eq_div_pow i 5

theorem shiftLeft_five (i : ℕ) : i <<< NDENTRYSHIFT = i * 32 := Nat.shiftLeft_eq i 5

theorem and_mask (i : ℕ) : i &&& NDENTRYMASK = i % 32 := Nat.and_two_pow_sub_one_eq_mod i 5

theorem NDREDUCE_eq (x : ℕ) : NDREDUCE x = (x + 31) / 32 := shiftRight_five _

theorem NDLOSLOTS_eq (x : ℕ) : NDLOSLOTS x = 32 * NDHISLOTS x := by
  rw [NDLOSLOTS, shiftLeft_five, Nat.mul_comm]

/-- The maps have room for all descriptors of the table. -/
theorem le_NDLOSLOTS (x : ℕ) : x ≤ 32 * NDLOSLOTS x := by
  rw [NDLOSLOTS_eq, NDHISLOTS, NDREDUCE_eq, NDREDUCE_eq]
  omega

theorem NDLOSLOTS_mono {x y : ℕ} (h : x ≤ y) : NDLOSLOTS x ≤ NDLOSLOTS y := by
  rw [NDLOSLOTS_eq, NDLOSLOTS_eq, NDHISLOTS, NDHISLOTS, NDREDUCE_eq, NDREDUCE_eq, NDREDUCE_eq,
    NDREDUCE_eq]
  omega

/-- A word is full when all its bits are set. -/
theorem eq_allOnes_iff (a : ℕ → BitVec 32) (w : ℕ) :
    a w = BitVec.allOnes 32 ↔ ∀ k < 32, Bitmap.test a (32 * w + k) = true := by
  have hbit : ∀ k < 32, Bitmap.test a (32 * w + k) = (a w).getLsbD k := by
    intro k hk
    unfold Bitmap.test
    rw [(by omega : (32 * w + k) / 32 = w), (by omega : (32 * w + k) % 32 = k)]
  constructor
  · intro h k hk
    rw [hbit k hk, h, BitVec.getLsbD_allOnes]
    exact decide_eq_true hk
  · intro h
    apply BitVec.eq_of_getLsbD_eq
    intro k hk
    rw [← hbit k hk, h k hk, BitVec.getLsbD_allOnes]
    exact (decide_eq_true hk).symm

theorem ffs_spec {x : BitVec 32} (h : x ≠ 0#32) :
    ∃ i < 32, ffs x = i + 1 ∧ x.getLsbD i = true ∧ ∀ k < i, x.getLsbD k = false :=
  Bitmap.ffs_spec h

/-- The first clear bit of a word that is not full. -/
theorem ffs_not_spec {a : ℕ → BitVec 32} {w : ℕ} {x : BitVec 32} {s : ℕ} (hx : x ≠ BitVec.allOnes 32)
    (hbits : ∀ k < 32, x.getLsbD k = (Bitmap.test a (32 * w + k) || decide (k < s))) :
    ∃ i < 32, w <<< NDENTRYSHIFT + ffs (~~~x) - 1 = 32 * w + i ∧ s ≤ i ∧
      Bitmap.test a (32 * w + i) = false ∧ ∀ k, s ≤ k → k < i → Bitmap.test a (32 * w + k) = true := by
  have hne : ~~~x ≠ 0#32 := by
    intro h0
    apply hx
    rw [← BitVec.not_not (b := x), h0]
    rfl
  obtain ⟨i, hi, hffs, hset, hlow⟩ := ffs_spec hne
  rw [BitVec.getLsbD_not, hbits i hi] at hset
  simp only [hi, decide_true, Bool.true_and, Bool.not_or, Bool.and_eq_true, Bool.not_eq_eq_eq_not,
    Bool.not_true, decide_eq_false_iff_not, not_lt] at hset
  refine ⟨i, hi, ?_, hset.2, hset.1, ?_⟩
  · rw [hffs, shiftLeft_five]
    omega
  · intro k hsk hki
    have hk := hlow k hki
    rw [BitVec.getLsbD_not, hbits k (by omega)] at hk
    have hnlt : ¬ k < s := by omega
    have hk32 : k < 32 := by omega
    simpa [hk32, hnlt] using hk

theorem scanZero_some {a : ℕ → BitVec 32} {off maxoff j : ℕ} (h : scanZero a off maxoff = some j) :
    32 * off ≤ j ∧ Bitmap.test a j = false ∧
      ∀ k, 32 * off ≤ k → k < j → Bitmap.test a k = true := by
  unfold scanZero at h
  obtain ⟨w, hw, hj⟩ := Option.map_eq_some_iff.mp h
  obtain ⟨hne, hmem, hfull⟩ := List.find?_range'_eq_some.mp hw
  have hle : off ≤ w := (List.mem_range'_1.mp hmem).1
  have hbits : ∀ k < 32, (a w).getLsbD k = (Bitmap.test a (32 * w + k) || decide (k < 0)) := by
    intro k hk
    unfold Bitmap.test
    rw [(by omega : (32 * w + k) / 32 = w), (by omega : (32 * w + k) % 32 = k)]
    simp
  obtain ⟨i, hi, heq, -, hclear, hset⟩ := ffs_not_spec (by simpa using hne) hbits
  rw [heq] at hj
  subst hj
  refine ⟨by omega, hclear, ?_⟩
  intro k hk hkj
  by_cases hkw : k / 32 < w
  · have hword := hfull (k / 32) (by omega) hkw
    simp only [ne_eq, decide_not, Bool.not_not, decide_eq_true_eq] at hword
    have := (eq_allOnes_iff a (k / 32)).mp hword (k % 32) (Nat.mod_lt _ (by decide))
    rwa [Nat.div_add_mod] at this
  · have := hset (k - 32 * w) (Nat.zero_le _) (by omega)
    rwa [(by omega : 32 * w + (k - 32 * w) = k)] at this

/-- `find_next_zero` returns the first clear bit from `want` on. -/
theorem findNextZero_some {a : ℕ → BitVec 32} {want bits j : ℕ}
    (h : findNextZero a want bits = some j) :
    want ≤ j ∧ Bitmap.test a j = false ∧ ∀ k, want ≤ k → k < j → Bitmap.test a k = true := by
  simp only [findNextZero, shiftRight_five, and_mask] at h
  by_cases hbits : bits < want
  · simp [hbits] at h
  rw [if_neg hbits] at h
  by_cases hi : want % 32 ≠ 0
  · rw [if_pos hi] at h
    -- the bits of the first word below `want` count as set
    have hmask : ∀ k < 32, (a (want / 32) ||| BitVec.allOnes 32 >>> (NDENTRIES - want % 32)).getLsbD k =
        (Bitmap.test a (32 * (want / 32) + k) || decide (k < want % 32)) := by
      intro k hk
      unfold Bitmap.test
      rw [(by omega : (32 * (want / 32) + k) / 32 = want / 32),
        (by omega : (32 * (want / 32) + k) % 32 = k), BitVec.getLsbD_or, BitVec.getLsbD_ushiftRight,
        BitVec.getLsbD_allOnes]
      congr 2
      unfold NDENTRIES
      simp only [eq_iff_iff]
      omega
    split_ifs at h with hsub
    · obtain ⟨i, hi32, heq, hsi, hclear, hset⟩ := ffs_not_spec hsub hmask
      rw [heq] at h
      cases h
      refine ⟨by omega, hclear, ?_⟩
      intro k hk hkj
      have := hset (k - 32 * (want / 32)) (by omega) (by omega)
      rwa [(by omega : 32 * (want / 32) + (k - 32 * (want / 32)) = k)] at this
    · obtain ⟨hle, hclear, hset⟩ := scanZero_some h
      refine ⟨by omega, hclear, ?_⟩
      intro k hk hkj
      by_cases hnext : 32 * (want / 32 + 1) ≤ k
      · exact hset k hnext hkj
      · have hfull := hmask (k - 32 * (want / 32)) (by omega)
        rw [not_not.mp hsub, BitVec.getLsbD_allOnes,
          (by omega : 32 * (want / 32) + (k - 32 * (want / 32)) = k)] at hfull
        have hlt : k - 32 * (want / 32) < 32 := by omega
        have hge : ¬ k - 32 * (want / 32) < want % 32 := by omega
        simpa [hlt, hge] using hfull.symm
  · rw [if_neg hi] at h
    obtain ⟨hle, hclear, hset⟩ := scanZero_some h
    have hw : 32 * (want / 32) = want := by omega
    rw [hw] at hle hset
    exact ⟨hle, hclear, hset⟩

variable {φ : Type*}

theorem fdUsed_lomap (fdp : Filedesc φ) (fd : ℕ) :
    (fdUsed fdp fd).fd_lomap = Bitmap.set fdp.fd_lomap fd := by
  simp only [fdUsed, Bitmap.set, shiftRight_five, and_mask]

theorem fdUsed_himap (fdp : Filedesc φ) (fd : ℕ) :
    (fdUsed fdp fd).fd_himap =
      if (Bitmap.set fdp.fd_lomap fd) (fd / 32) = BitVec.allOnes 32 then
        Bitmap.set fdp.fd_himap (fd / 32)
      else fdp.fd_himap := by
  simp only [fdUsed, Bitmap.set, shiftRight_five, and_mask]
  rfl

theorem fdUnused_lomap (fdp : Filedesc φ) (fd : ℕ) :
    (fdUnused fdp fd).fd_lomap = Bitmap.clear fdp.fd_lomap fd := by
  simp only [fdUnused, Bitmap.clear, shiftRight_five, and_mask]

theorem fdUnused_himap (fdp : Filedesc φ) (fd : ℕ) :
    (fdUnused fdp fd).fd_himap =
      if fdp.fd_lomap (fd / 32) = BitVec.allOnes 32 then Bitmap.clear fdp.fd_himap (fd / 32)
      else fdp.fd_himap := by
  simp only [fdUnused, Bitmap.clear, shiftRight_five, and_mask]

/-- The two maps describe the set of allocated descriptors. -/
structure Maps (fdp : Filedesc φ) (A : Set ℕ) : Prop where
  lo : ∀ fd, Bitmap.test fdp.fd_lomap fd = true ↔ fd ∈ A
  hi : ∀ w, Bitmap.test fdp.fd_himap w = true ↔ fdp.fd_lomap w = BitVec.allOnes 32
  bound : ∀ fd ∈ A, fd < 32 * NDLOSLOTS fdp.fd_nfiles

/-- Words other than that of `fd` are not affected by marking it. -/
theorem set_word_ne {a : ℕ → BitVec 32} {fd w : ℕ} (h : w ≠ fd / 32) : Bitmap.set a fd w = a w :=
  Function.update_of_ne h ..

theorem clear_word_ne {a : ℕ → BitVec 32} {fd w : ℕ} (h : w ≠ fd / 32) :
    Bitmap.clear a fd w = a w :=
  Function.update_of_ne h ..

theorem Maps.used {fdp : Filedesc φ} {A : Set ℕ} (h : Maps fdp A) {fd : ℕ}
    (hfd : fd < fdp.fd_nfiles) : Maps (fdUsed fdp fd) (insert fd A) where
  lo := by
    intro x
    rw [fdUsed_lomap, Bitmap.test_set (by decide), Set.mem_insert_iff, ← h.lo x]
    simp [or_comm]
  hi := by
    intro w
    rw [fdUsed_himap, fdUsed_lomap]
    by_cases hw : w = fd / 32
    · subst hw
      split_ifs with hfull
      · simp [Bitmap.test_set (by decide : 0 < 32), hfull]
      · rw [h.hi]
        constructor
        · intro hold
          exfalso
          apply hfull
          rw [Bitmap.set, Function.update_self, hold, BitVec.allOnes_or]
        · exact fun hnew => absurd hnew hfull
    · rw [set_word_ne hw, ← h.hi w]
      split_ifs
      · simp [Bitmap.test_set (by decide : 0 < 32), hw]
      · rfl
  bound := by
    intro x hx
    rcases hx with rfl | hx
    · exact lt_of_lt_of_le hfd (le_NDLOSLOTS _)
    · exact h.bound x hx

theorem Maps.unused {fdp : Filedesc φ} {A : Set ℕ} (h : Maps fdp A) (fd : ℕ) :
    Maps (fdUnused fdp fd) (A \ {fd}) where
  lo := by
    intro x
    rw [fdUnused_lomap, Bitmap.test_clear (by decide), Set.mem_sdiff, ← h.lo x]
    simp
  hi := by
    intro w
    rw [fdUnused_himap, fdUnused_lomap]
    by_cases hw : w = fd / 32
    · subst hw
      have hnot : Bitmap.clear fdp.fd_lomap fd (fd / 32) ≠ BitVec.allOnes 32 := by
        intro hfull
        have hbit := (eq_allOnes_iff _ _).mp hfull (fd % 32) (Nat.mod_lt _ (by decide))
        rw [Nat.div_add_mod, Bitmap.test_clear (by decide)] at hbit
        simp at hbit
      split_ifs with hfull
      · apply iff_of_false _ hnot
        simp [Bitmap.test_clear (by decide : 0 < 32)]
      · rw [h.hi]
        exact ⟨fun hold => absurd hold hfull, fun hnew => absurd hnew hnot⟩
    · rw [clear_word_ne hw, ← h.hi w]
      split_ifs
      · simp [Bitmap.test_clear (by decide : 0 < 32), hw]
      · rfl
  bound := fun x hx => h.bound x hx.1

/-- What holds of a table and its allocated descriptors in every run. -/
structure Inv (fdp : Filedesc φ) (A : Set ℕ) : Prop where
  maps : Maps fdp A
  size : fdp.fd_nfiles = NDFILE ∨ ∃ k, fdp.fd_nfiles = NDEXTENT * 2 ^ k
  free : ∀ fd < fdp.fd_freefile, fd ∈ A
  files : ∀ fd, fdp.fd_ofiles fd ≠ none → fd ∈ A ∧ fd < fdp.fd_nfiles
  last_lt : fdp.fd_lastfile < fdp.fd_nfiles
  last_mem : fdp.fd_lastfile = 0 ∨ fdp.fd_lastfile ∈ A

/-- `fd_lastfile` bounds the allocated descriptors. -/
def Top (fdp : Filedesc φ) (A : Set ℕ) : Prop := ∀ fd ∈ A, fd ≤ fdp.fd_lastfile

theorem lastSlot_le (ofiles : ℕ → Option φ) (i : ℕ) : lastSlot ofiles i ≤ i := by
  induction i with
  | zero => exact Nat.le_refl 0
  | succ i ih =>
    unfold lastSlot
    split_ifs <;> omega

theorem lastSlot_file (ofiles : ℕ → Option φ) (i : ℕ) :
    lastSlot ofiles i = 0 ∨ ofiles (lastSlot ofiles i) ≠ none := by
  induction i with
  | zero => exact Or.inl rfl
  | succ i ih =>
    unfold lastSlot
    split_ifs with hnone
    · exact ih
    · right
      simpa using hnone

theorem le_lastSlot {ofiles : ℕ → Option φ} {i x : ℕ} (hx : x ≤ i) (hfile : ofiles x ≠ none) :
    x ≤ lastSlot ofiles i := by
  induction i with
  | zero => omega
  | succ i ih =>
    unfold lastSlot
    split_ifs with hnone
    · apply ih
      by_contra hlt
      have hxi : x = i + 1 := by omega
      rw [hxi] at hfile
      simp at hnone
      exact hfile hnone
    · omega

theorem lastWord_some {a : ℕ → BitVec 32} {off w : ℕ} (h : lastWord a off = some w) :
    w ≤ off ∧ ∀ v, w < v → v ≤ off → a v = 0#32 := by
  induction off with
  | zero =>
    unfold lastWord at h
    split_ifs at h
    cases h
    exact ⟨Nat.le_refl 0, fun v h1 h2 => by omega⟩
  | succ off ih =>
    unfold lastWord at h
    split_ifs at h with hne
    · cases h
      exact ⟨Nat.le_refl _, fun v h1 h2 => by omega⟩
    · obtain ⟨hle, hzero⟩ := ih h
      refine ⟨by omega, fun v h1 h2 => ?_⟩
      by_cases hv : v = off + 1
      · rw [hv]
        exact not_not.mp hne
      · exact hzero v h1 (by omega)

theorem lastWord_none {a : ℕ → BitVec 32} {off : ℕ} (h : lastWord a off = none) :
    ∀ v ≤ off, a v = 0#32 := by
  induction off with
  | zero =>
    intro v hv
    unfold lastWord at h
    split_ifs at h with hne
    rw [(by omega : v = 0)]
    exact not_not.mp hne
  | succ off ih =>
    unfold lastWord at h
    split_ifs at h with hne
    intro v hv
    by_cases hv' : v = off + 1
    · rw [hv']
      exact not_not.mp hne
    · exact ih h v (by omega)

/-- Whatever the table, `find_last_set` gives a slot with a file below `last`, or 0. -/
theorem findLastSet_le (fdp : Filedesc φ) (last : ℕ) :
    findLastSet fdp last ≤ last - 1 ∧
      (findLastSet fdp last = 0 ∨ fdp.fd_ofiles (findLastSet fdp last) ≠ none) := by
  unfold findLastSet
  split_ifs with hzero
  · exact ⟨Nat.zero_le _, Or.inl rfl⟩
  · cases hw : lastWord fdp.fd_lomap ((last - 1) >>> NDENTRYSHIFT) with
    | none => exact ⟨Nat.zero_le _, Or.inl rfl⟩
    | some off =>
      simp only
      refine ⟨?_, lastSlot_file _ _⟩
      apply (lastSlot_le _ _).trans
      split_ifs <;> omega

/-- Where every allocated descriptor below `last` has a file, none of them is above the
result of `find_last_set`. -/
theorem le_findLastSet {fdp : Filedesc φ} {A : Set ℕ} (h : Maps fdp A) {last x : ℕ} (hx : x ∈ A)
    (hlt : x < last) (hfile : fdp.fd_ofiles x ≠ none) : x ≤ findLastSet fdp last := by
  have hbit : Bitmap.test fdp.fd_lomap x = true := (h.lo x).mpr hx
  have hword : fdp.fd_lomap (x / 32) ≠ 0#32 := by
    intro h0
    rw [Bitmap.test, h0] at hbit
    simp at hbit
  unfold findLastSet
  rw [if_neg (by omega), shiftRight_five]
  cases hw : lastWord fdp.fd_lomap ((last - 1) / 32) with
  | none => exact absurd (lastWord_none hw (x / 32) (by omega)) hword
  | some off =>
    obtain ⟨hle, hzero⟩ := lastWord_some hw
    have hoff : x / 32 ≤ off := by
      by_contra hgt
      exact hword (hzero (x / 32) (by omega) (by omega))
    simp only [shiftLeft_five]
    apply le_lastSlot _ hfile
    split_ifs <;> omega

theorem Inv.used {fdp : Filedesc φ} {A : Set ℕ} (h : Inv fdp A) {fd : ℕ} (hfd : fd < fdp.fd_nfiles) :
    Inv (fdUsed fdp fd) (insert fd A) := by
  refine ⟨h.maps.used hfd, h.size, ?_, ?_, ?_, ?_⟩
  · intro x hx
    exact Or.inr (h.free x hx)
  · intro x hx
    exact ⟨Or.inr (h.files x hx).1, (h.files x hx).2⟩
  · simp only [fdUsed]
    split_ifs
    · exact hfd
    · exact h.last_lt
  · simp only [fdUsed]
    split_ifs
    · exact Or.inr (Or.inl rfl)
    · exact h.last_mem.imp id Or.inr

theorem Top.used {fdp : Filedesc φ} {A : Set ℕ} (h : Top fdp A) (fd : ℕ) :
    Top (fdUsed fdp fd) (insert fd A) := by
  intro x hx
  simp only [fdUsed]
  rcases hx with rfl | hx
  · split_ifs <;> omega
  · have := h x hx
    split_ifs <;> omega

theorem fdUnused_lastfile (fdp : Filedesc φ) (fd : ℕ) :
    (fdUnused fdp fd).fd_lastfile =
      if fd = fdp.fd_lastfile then findLastSet (fdUnused fdp fd) fd else fdp.fd_lastfile := rfl

theorem Inv.unused {fdp : Filedesc φ} {A : Set ℕ} (h : Inv fdp A) {fd : ℕ}
    (hnone : fdp.fd_ofiles fd = none) (hfd : fd < fdp.fd_nfiles) :
    Inv (fdUnused fdp fd) (A \ {fd}) := by
  have hne : ∀ x, fdp.fd_ofiles x ≠ none → x ≠ fd := by
    rintro x hx rfl
    exact hx hnone
  refine ⟨h.maps.unused fd, h.size, ?_, ?_, ?_, ?_⟩
  · intro x hx
    simp only [fdUnused] at hx
    split_ifs at hx with hlt
    · exact ⟨h.free x (by omega), by simp; omega⟩
    · exact ⟨h.free x hx, by simp; omega⟩
  · intro x hx
    exact ⟨⟨(h.files x hx).1, hne x hx⟩, (h.files x hx).2⟩
  · rw [fdUnused_lastfile]
    split_ifs with hlast
    · have hle := (findLastSet_le (fdUnused fdp fd) fd).1
      have := h.last_lt
      change _ < fdp.fd_nfiles
      omega
    · exact h.last_lt
  · rw [fdUnused_lastfile]
    split_ifs with hlast
    · apply (findLastSet_le (fdUnused fdp fd) fd).2.imp id
      intro hfile
      exact ⟨(h.files _ hfile).1, hne _ hfile⟩
    · exact h.last_mem.imp id fun hmem => ⟨hmem, fun heq => hlast heq.symm⟩

/-- Removing a descriptor when all others have their files. -/
theorem Top.unused {fdp : Filedesc φ} {A : Set ℕ} (hm : Maps fdp A) (h : Top fdp A) {fd : ℕ}
    (hfiles : ∀ x ∈ A, x ≠ fd → fdp.fd_ofiles x ≠ none) : Top (fdUnused fdp fd) (A \ {fd}) := by
  intro x hx
  obtain ⟨hxA, hxfd⟩ := hx
  have hle := h x hxA
  rw [fdUnused_lastfile]
  split_ifs with hlast
  · have hlt : x < fd := by
      have : x ≠ fd := hxfd
      omega
    exact le_findLastSet (hm.unused fd) ⟨hxA, hxfd⟩ hlt (hfiles x hxA hxfd)
  · exact hle

theorem inv_fdinit : Inv (fdinit : Filedesc φ) ∅ ∧ Top (fdinit : Filedesc φ) ∅ := by
  refine ⟨⟨⟨?_, ?_, ?_⟩, Or.inl rfl, ?_, ?_, ?_, Or.inl rfl⟩, ?_⟩
  · intro fd
    simp [fdinit, Bitmap.test]
  · intro w
    have hne : (0#32 : BitVec 32) ≠ BitVec.allOnes 32 := by decide
    simp only [fdinit, Bitmap.test, BitVec.getLsbD_zero, Bool.false_eq_true, false_iff]
    exact hne
  · intro fd hfd
    exact absurd hfd (Set.notMem_empty fd)
  · intro fd hfd
    exact absurd hfd (Nat.not_lt_zero fd)
  · intro fd hfd
    exact absurd rfl hfd
  · exact (by decide : 0 < NDFILE)
  · intro fd hfd
    exact absurd hfd (Set.notMem_empty fd)

/-- Storing a file in an allocated slot. -/
theorem Inv.setFile {fdp : Filedesc φ} {A : Set ℕ} (h : Inv fdp A) {fd : ℕ} (hA : fd ∈ A)
    (hfd : fd < fdp.fd_nfiles) (f : Option φ) (flags : ℕ → BitVec 8) :
    Inv { fdp with fd_ofiles := Function.update fdp.fd_ofiles fd f, fd_ofileflags := flags } A := by
  refine ⟨⟨h.maps.lo, h.maps.hi, h.maps.bound⟩, h.size, h.free, ?_, h.last_lt, h.last_mem⟩
  intro x hx
  by_cases hxfd : x = fd
  · rw [hxfd]
    exact ⟨hA, hfd⟩
  · simp only [Function.update_of_ne hxfd] at hx
    exact h.files x hx

theorem Inv.remove {fdp : Filedesc φ} {A : Set ℕ} (h : Inv fdp A) {fd : ℕ} (hA : fd ∈ A)
    (hfd : fd < fdp.fd_nfiles) : Inv (fdremove fdp fd) (A \ {fd}) := by
  have hset := h.setFile hA hfd none fdp.fd_ofileflags
  exact hset.unused (Function.update_self ..) hfd

theorem Top.remove {fdp : Filedesc φ} {A : Set ℕ} (hm : Maps fdp A) (h : Top fdp A) {fd : ℕ}
    (hfiles : ∀ x ∈ A, x ≠ fd → fdp.fd_ofiles x ≠ none) : Top (fdremove fdp fd) (A \ {fd}) := by
  have hm' : Maps { fdp with fd_ofiles := Function.update fdp.fd_ofiles fd none } A :=
    ⟨hm.lo, hm.hi, hm.bound⟩
  apply Top.unused hm' h
  intro x hx hne
  simp only [Function.update_of_ne hne]
  exact hfiles x hx hne

end OpenbsdKernel.Descrip
