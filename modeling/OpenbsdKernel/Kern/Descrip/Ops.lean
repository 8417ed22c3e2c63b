import OpenbsdKernel.Kern.Descrip.Table

/-!
# Operations on a descriptor table

What allocation, growth, duplication, closing and copying do to the invariant and to the
set of allocated descriptors.
-/
namespace OpenbsdKernel.Descrip

variable {φ : Type*} {fdp : Filedesc φ} {A : Set ℕ}

theorem test_shift (a : ℕ → BitVec 32) (n j : ℕ) :
    Bitmap.test (fun w => a (n + w)) j = Bitmap.test a (32 * n + j) := by
  unfold Bitmap.test
  rw [(by omega : (32 * n + j) / 32 = n + j / 32), (by omega : (32 * n + j) % 32 = j % 32)]

theorem test_lo {b : Beyond} {fd : ℕ} (h : fd < fdp.fd_nfiles) :
    Bitmap.test (fdp.lo b) fd = Bitmap.test fdp.fd_lomap fd := by
  have hle := le_NDLOSLOTS fdp.fd_nfiles
  unfold Bitmap.test Filedesc.lo
  rw [if_pos (by omega)]

theorem test_hi {b : Beyond} {w : ℕ} (h : 32 * w < fdp.fd_nfiles) :
    Bitmap.test (fdp.hi b) w = Bitmap.test fdp.fd_himap w := by
  have hle := le_NDLOSLOTS fdp.fd_nfiles
  rw [NDLOSLOTS_eq] at hle
  unfold Bitmap.test Filedesc.hi
  rw [if_pos (by omega)]

/-- What a descriptor found by `fdalloc` is: free, inside the table, not below `want`, and
with nothing free between it and the point where the search began. -/
theorem fdallocStep_ok (h : Maps fdp A) {b : Beyond} {lim want i want' : ℕ}
    (hs : fdallocStep fdp b lim want = .done (.ok (i, want'))) :
    want' = want ∧ want ≤ i ∧ i < fdp.fd_nfiles ∧ i < lim ∧ i ∉ A ∧
      ∀ k, want ≤ k → fdp.fd_freefile ≤ k → k < i → k ∈ A := by
  simp only [fdallocStep, shiftRight_five, shiftLeft_five, and_mask] at hs
  generalize hi₀ : (if want < fdp.fd_freefile then fdp.fd_freefile else want) = i₀ at hs
  split at hs
  · split_ifs at hs <;> cases hs
  · next new hnew =>
    split at hs
    · cases hs
    · next j hj =>
      split_ifs at hs with hlast
      · cases hs
        obtain ⟨hle, -, hfull⟩ := findNextZero_some hnew
        obtain ⟨hstart, hclear, hset⟩ := findNextZero_some hj
        have hlt : j + new * 32 < fdp.fd_nfiles := by omega
        rw [test_shift, Nat.mul_comm 32, Nat.add_comm, test_lo hlt] at hclear
        have hge : i₀ ≤ j + new * 32 := by
          split_ifs at hstart <;> omega
        have hwant : want ≤ i₀ ∧ fdp.fd_freefile ≤ i₀ := by
          rw [← hi₀]
          split_ifs <;> omega
        refine ⟨rfl, by omega, hlt, by omega, ?_, ?_⟩
        · rw [← h.lo, hclear]
          simp
        · intro k hk₁ hk₂ hk₃
          have hk : i₀ ≤ k := by
            rw [← hi₀]
            split_ifs <;> omega
          rw [← h.lo]
          by_cases hword : k / 32 < new
          · -- the word is full, or the search would have stopped there
            have hbit := hfull (k / 32) (by omega) hword
            rw [test_hi (by omega), h.hi, eq_allOnes_iff] at hbit
            have := hbit (k % 32) (Nat.mod_lt _ (by decide))
            rwa [Nat.div_add_mod] at this
          · have := hset (k - 32 * new) (by split_ifs <;> omega) (by omega)
            rwa [test_shift, (by omega : 32 * new + (k - 32 * new) = k), test_lo (by omega)] at this
      · cases hs
      · cases hs

theorem fdallocStep_returns (fdp : Filedesc φ) (b : Beyond) (lim want : ℕ) :
    ∃ r n, Loop.run (fdallocStep fdp b lim) (fdallocFuel fdp lim) want = .returned r n ∧
      ∃ want₀, want ≤ want₀ ∧ fdallocStep fdp b lim want₀ = .done r := by
  have hloop := Loop.run_returns (fdallocStep fdp b lim) (I := fun want₀ => want ≤ want₀)
    (μ := fun want => (min fdp.fd_nfiles lim + NDENTRIES - 1) / 32 + 1 - want / 32)
    (Q := fun r => ∃ want₀, want ≤ want₀ ∧ fdallocStep fdp b lim want₀ = .done r)
    ?_ (fun want₀ r hle h => ⟨want₀, hle, h⟩) (fun _ e => e.elim) (fdallocFuel fdp lim) want
    (Nat.le_refl want) ?_
  · obtain ⟨r, n, hrun, -, hr⟩ := hloop
    exact ⟨r, n, hrun, hr⟩
  · intro want₀ want₁ hle₀ hs
    simp only [fdallocStep, shiftRight_five, shiftLeft_five, and_mask] at hs
    generalize hi₀ : (if want₀ < fdp.fd_freefile then fdp.fd_freefile else want₀) = i₀ at hs
    have hge : want₀ ≤ i₀ := by
      rw [← hi₀]
      split_ifs <;> omega
    split at hs
    · split_ifs at hs
    · next new hnew =>
      split at hs
      · cases hs
        have hle := (findNextZero_some hnew).1
        have hbits : i₀ / 32 ≤ (min fdp.fd_nfiles lim + NDENTRIES - 1) / 32 := by
          by_contra hgt
          rw [findNextZero, if_pos (by omega)] at hnew
          cases hnew
        constructor <;> omega
      · split_ifs at hs
  · unfold fdallocFuel
    rw [shiftRight_five]
    omega

/-- A successful `fdalloc` marks a free descriptor of the table; a failed one changes
nothing and says whether the table may grow. -/
theorem fdalloc_spec (h : Maps fdp A) (b : Beyond) (lim want : ℕ) :
    (∃ i want', fdalloc fdp b lim want =
        ({ fdUsed fdp i with
            fd_freefile := if want' ≤ fdp.fd_freefile then i else fdp.fd_freefile
            fd_ofileflags := Function.update fdp.fd_ofileflags i 0#8 }, .ok i) ∧
        want ≤ i ∧ i < fdp.fd_nfiles ∧ i < lim ∧ i ∉ A ∧
        (want' ≤ fdp.fd_freefile → ∀ k, fdp.fd_freefile ≤ k → k < i → k ∈ A)) ∨
      fdalloc fdp b lim want =
        (fdp, .error (if lim ≤ fdp.fd_nfiles then .EMFILE else .ENOSPC)) := by
  obtain ⟨r, n, hrun, want₀, hle₀, hdone⟩ := fdallocStep_returns fdp b lim want
  unfold fdalloc
  rw [hrun]
  cases r with
  | ok r =>
    obtain ⟨i, want'⟩ := r
    obtain ⟨rfl, hle, hlt, hlim, hnot, hbetween⟩ := fdallocStep_ok h hdone
    left
    exact ⟨i, want', rfl, by omega, hlt, hlim, hnot,
      fun hw k hk hki => hbetween k (by omega) hk hki⟩
  | error e =>
    right
    have he : e = if lim ≤ fdp.fd_nfiles then .EMFILE else .ENOSPC := by
      simp only [fdallocStep] at hdone
      split at hdone
      · split_ifs at hdone ⊢ <;> cases hdone <;> rfl
      · split at hdone
        · cases hdone
        · split_ifs at hdone ⊢ <;> cases hdone <;> rfl
    rw [he]

theorem Inv.fdalloc (h : Inv fdp A) {b : Beyond} {lim want i : ℕ}
    (hok : (fdalloc fdp b lim want).2 = .ok i) :
    Inv (fdalloc fdp b lim want).1 (insert i A) ∧
      (fdalloc fdp b lim want).1.fd_ofiles = fdp.fd_ofiles ∧
      (fdalloc fdp b lim want).1.fd_nfiles = fdp.fd_nfiles ∧
      i < fdp.fd_nfiles ∧ i ∉ A ∧ (Top fdp A → Top (fdalloc fdp b lim want).1 (insert i A)) := by
  rcases fdalloc_spec h.maps b lim want with ⟨j, want', heq, -, hlt, -, hnot, hbetween⟩ | heq
  · rw [heq] at hok
    cases hok
    have hu := h.used hlt
    rw [heq]
    refine ⟨⟨⟨hu.maps.lo, hu.maps.hi, hu.maps.bound⟩, h.size, ?_, hu.files, hu.last_lt,
      hu.last_mem⟩, rfl, rfl, hlt, hnot, fun ht => ht.used i⟩
    intro k hk
    simp only at hk
    split_ifs at hk with hw
    · by_cases hfree : k < fdp.fd_freefile
      · exact Or.inr (h.free k hfree)
      · exact Or.inr (hbetween hw k (by omega) hk)
    · exact Or.inr (h.free k hk)
  · rw [heq] at hok
    cases hok

theorem eq_zero_of_test {a : ℕ → BitVec 32} {w : ℕ}
    (h : ∀ k < 32, Bitmap.test a (32 * w + k) = false) : a w = 0#32 := by
  apply BitVec.eq_of_getLsbD_eq
  intro k hk
  have hbit := h k hk
  unfold Bitmap.test at hbit
  rw [(by omega : (32 * w + k) / 32 = w), (by omega : (32 * w + k) % 32 = k)] at hbit
  rw [hbit, BitVec.getLsbD_zero]

theorem Maps.lomap_beyond (h : Maps fdp A) {w : ℕ} (hw : NDLOSLOTS fdp.fd_nfiles ≤ w) :
    fdp.fd_lomap w = 0#32 := by
  apply eq_zero_of_test
  intro k hk
  rw [← Bool.not_eq_true, h.lo]
  intro hmem
  have := h.bound _ hmem
  omega

theorem Maps.himap_beyond (h : Maps fdp A) {w : ℕ} (hw : NDHISLOTS fdp.fd_nfiles ≤ w) :
    fdp.fd_himap w = 0#32 := by
  apply eq_zero_of_test
  intro k hk
  rw [← Bool.not_eq_true, h.hi, h.lomap_beyond]
  · decide
  · rw [NDLOSLOTS_eq]
    omega

theorem truncate_eq {a : ℕ → BitVec 32} {n : ℕ} (h : ∀ w, n ≤ w → a w = 0#32) :
    (fun w => if w < n then a w else 0#32) = a := by
  funext w
  split_ifs with hw
  · rfl
  · exact (h w (by omega)).symm

theorem nfiles_lt_fdexpand (h : 0 < fdp.fd_nfiles) : fdp.fd_nfiles < (fdexpand fdp).fd_nfiles := by
  change _ < if fdp.fd_nfiles < NDEXTENT then NDEXTENT else 2 * fdp.fd_nfiles
  split_ifs <;> omega

theorem Maps.fdexpand (h : Maps fdp A) (hpos : 0 < fdp.fd_nfiles) : Maps (fdexpand fdp) A := by
  have hlo : (Descrip.fdexpand fdp).fd_lomap = fdp.fd_lomap := by
    simp only [Descrip.fdexpand]
    rw [truncate_eq fun w hw => h.lomap_beyond hw, ite_self]
  have hhi : (Descrip.fdexpand fdp).fd_himap = fdp.fd_himap := by
    simp only [Descrip.fdexpand]
    rw [truncate_eq fun w hw => h.himap_beyond hw, ite_self]
  constructor
  · rw [hlo]
    exact h.lo
  · rw [hlo, hhi]
    exact h.hi
  · intro fd hfd
    have hmono := NDLOSLOTS_mono (nfiles_lt_fdexpand hpos).le
    have := h.bound fd hfd
    omega

theorem Inv.fdexpand (h : Inv fdp A) :
    Inv (fdexpand fdp) A ∧ fdp.fd_nfiles < (fdexpand fdp).fd_nfiles ∧
      (∀ fd, (fdexpand fdp).fd_ofiles fd = fdp.fd_ofiles fd) ∧ (Top fdp A → Top (fdexpand fdp) A) := by
  have hn : (Descrip.fdexpand fdp).fd_nfiles =
      if fdp.fd_nfiles < NDEXTENT then NDEXTENT else 2 * fdp.fd_nfiles := rfl
  have hpos := Nat.lt_of_le_of_lt (Nat.zero_le _) h.last_lt
  have hlt := nfiles_lt_fdexpand hpos
  have hfiles : ∀ fd, (Descrip.fdexpand fdp).fd_ofiles fd = fdp.fd_ofiles fd := by
    intro fd
    change (if fd < fdp.fd_nfiles then fdp.fd_ofiles fd else none) = fdp.fd_ofiles fd
    split_ifs with hfd
    · rfl
    · by_contra hne
      exact hfd (h.files fd (Ne.symm hne)).2
  refine ⟨⟨h.maps.fdexpand hpos, ?_, h.free, ?_, lt_trans h.last_lt hlt, h.last_mem⟩, hlt, hfiles,
    fun ht => ht⟩
  · right
    rw [hn]
    rcases h.size with hsize | ⟨k, hsize⟩
    · exact ⟨0, by simp [hsize, NDFILE, NDEXTENT]⟩
    · refine ⟨k + 1, ?_⟩
      have hpos : 1 ≤ 2 ^ k := Nat.one_le_two_pow
      rw [if_neg, hsize]
      · ring
      · rw [hsize]
        unfold NDEXTENT
        omega
  · intro fd hfd
    rw [hfiles fd] at hfd
    exact ⟨(h.files fd hfd).1, lt_trans (h.files fd hfd).2 hlt⟩

/-- What a run of `falloc` from `fdp` may leave: a new descriptor with its file, or a
table with the same descriptors. -/
def Falloc (fdp : Filedesc φ) (A : Set ℕ) (full : Bool) (r : Filedesc φ × Except Errno ℕ) : Prop :=
  (∀ i, r.2 = .ok i → full = false ∧ i ∉ A ∧ Inv r.1 (insert i A) ∧
    (Top fdp A → Top r.1 (insert i A))) ∧
  ∀ e, r.2 = .error e → Inv r.1 A ∧
    (Top fdp A → (full = true → ∀ x ∈ A, fdp.fd_ofiles x ≠ none) → Top r.1 A)

theorem insert_sdiff_self {i : ℕ} (h : i ∉ A) : insert i A \ {i} = A := by
  ext x
  simp only [Set.mem_sdiff, Set.mem_insert_iff, Set.mem_singleton_iff]
  constructor
  · rintro ⟨hx | hx, hne⟩
    · exact absurd hx hne
    · exact hx
  · intro hx
    refine ⟨Or.inr hx, ?_⟩
    rintro rfl
    exact h hx

theorem Inv.falloc_ok (h : Inv fdp A) {b : Beyond} {lim i : ℕ} (full : Bool) (fp : φ)
    (hok : (Descrip.fdalloc fdp b lim 0).2 = .ok i) :
    Falloc fdp A full
      (if full then (fdUnused (Descrip.fdalloc fdp b lim 0).1 i, .error .ENFILE)
      else ({ (Descrip.fdalloc fdp b lim 0).1 with
        fd_ofiles := Function.update (Descrip.fdalloc fdp b lim 0).1.fd_ofiles i (some fp) }, .ok i)) := by
  obtain ⟨hinv, hfiles, hn, hlt, hnot, htop⟩ := h.fdalloc hok
  generalize (Descrip.fdalloc fdp b lim 0).1 = fdp₁ at hinv hfiles hn htop ⊢
  have hnone : fdp₁.fd_ofiles i = none := by
    rw [hfiles]
    by_contra hne
    exact hnot (h.files i hne).1
  split_ifs with hfull
  · constructor
    · rintro j hj
      cases hj
    · rintro e -
      have hunused := hinv.unused hnone (hn ▸ hlt)
      rw [insert_sdiff_self hnot] at hunused
      refine ⟨hunused, fun ht hcond => ?_⟩
      rw [← insert_sdiff_self hnot]
      apply Top.unused hinv.maps (htop ht)
      intro x hx hne
      rw [hfiles]
      exact hcond hfull x (hx.resolve_left hne)
  · constructor
    · intro j hj
      cases hj
      exact ⟨by simpa using hfull, hnot,
        hinv.setFile (Or.inl rfl) (hn ▸ hlt) (some fp) fdp₁.fd_ofileflags, htop⟩
    · intro e he
      cases he

theorem Inv.falloc (h : Inv fdp A) (b : ℕ → Beyond) (lim : ℕ) (full : Bool) (fp : φ) :
    Falloc fdp A full (falloc b lim full fp fdp) := by
  have hloop := Loop.run_returns (fallocStep b lim full fp)
    (I := fun x => Inv x A ∧ (Top fdp A → Top x A) ∧ ∀ fd, x.fd_ofiles fd = fdp.fd_ofiles fd)
    (μ := fun x => lim - x.fd_nfiles) (Q := Falloc fdp A full)
    ?_ ?_ (fun _ e => e.elim) (lim - fdp.fd_nfiles + 1) fdp ⟨h, id, fun _ => rfl⟩
    (Nat.lt_succ_self _)
  · obtain ⟨r, n, hrun, -, hr⟩ := hloop
    unfold Descrip.falloc
    rw [hrun]
    exact hr
  · rintro x y ⟨hinv, htop, hfiles⟩ hstep
    obtain ⟨hexp, hlt, hsame, htop'⟩ := hinv.fdexpand
    unfold fallocStep at hstep
    rcases fdalloc_spec hinv.maps (b x.fd_nfiles) lim 0 with ⟨j, want, heq, -⟩ | heq
    · rw [heq] at hstep
      simp only at hstep
      split_ifs at hstep
    · by_cases hlim : lim ≤ x.fd_nfiles
      · rw [if_pos hlim] at heq
        simp [heq] at hstep
      rw [if_neg hlim] at heq
      simp only [heq, if_true] at hstep
      cases hstep
      refine ⟨⟨hexp, fun ht => htop' (htop ht), fun fd => (hsame fd).trans (hfiles fd)⟩, ?_⟩
      omega
  · rintro x r ⟨hinv, htop, hfiles⟩ hstep
    unfold fallocStep at hstep
    cases hr : Descrip.fdalloc x (b x.fd_nfiles) lim 0 with
    | mk x₁ res =>
      rw [hr] at hstep
      cases res with
      | ok i =>
        have hok : (Descrip.fdalloc x (b x.fd_nfiles) lim 0).2 = .ok i := by rw [hr]
        have hfalloc := hinv.falloc_ok full fp hok
        rw [hr] at hfalloc
        simp only at hstep hfalloc
        have heq : r = if full then (fdUnused x₁ i, .error .ENFILE)
            else ({ x₁ with fd_ofiles := Function.update x₁.fd_ofiles i (some fp) }, .ok i) := by
          split_ifs at hstep ⊢ <;> cases hstep <;> rfl
        rw [← heq] at hfalloc
        refine ⟨fun j hj => ?_, fun e he => ?_⟩
        · obtain ⟨hfull, hnot, hi, ht⟩ := hfalloc.1 j hj
          exact ⟨hfull, hnot, hi, fun h0 => ht (htop h0)⟩
        · obtain ⟨hi, ht⟩ := hfalloc.2 e he
          refine ⟨hi, fun h0 hcond => ht (htop h0) fun hfull y hy => ?_⟩
          rw [hfiles y]
          exact hcond hfull y hy
      | error e =>
        simp only at hstep
        split_ifs at hstep
        cases hstep
        constructor
        · intro i hi
          cases hi
        · rintro e' -
          exact ⟨hinv, fun ht _ => htop ht⟩

theorem Inv.finishdup (h : Inv fdp A) (fp : φ) (deadlk : Bool) (old : ℕ) {new : ℕ} (dup2 : Bool)
    (hnew : new < fdp.fd_nfiles) (hA : dup2 = false → new ∈ A) :
    let r := finishdup fdp fp deadlk old new dup2
    (∀ i, r.2 = .ok i → i = new ∧ Inv r.1 (insert new A) ∧ (Top fdp A → Top r.1 (insert new A))) ∧
      ∀ e, r.2 = .error e → r.1 = fdp := by
  intro r
  simp only [r, Descrip.finishdup]
  split_ifs with hdead hused
  · constructor
    · intro i hi
      cases hi
    · intro e _
      rfl
  · constructor
    · intro i hi
      cases hi
      -- marking first and storing the file afterwards gives the same table
      have hmark := (h.used hnew).setFile (Or.inl rfl) hnew (some fp)
        (Function.update fdp.fd_ofileflags new (fdp.fd_ofileflags old &&& ~~~UF_EXCLOSE))
      exact ⟨rfl, hmark, fun ht => ht.used new⟩
    · intro e he
      cases he
  · constructor
    · intro i hi
      cases hi
      have hmem : new ∈ A := by
        cases hdup : dup2 with
        | false => exact hA hdup
        | true =>
          have hsome : fdp.fd_ofiles new ≠ none := by
            intro hnone
            exact hused ⟨hdup, by rw [hnone]; rfl⟩
          exact (h.files new hsome).1
      rw [Set.insert_eq_of_mem hmem]
      exact ⟨rfl, h.setFile hmem hnew (some fp) _, fun ht => ht⟩
    · intro e he
      cases he

theorem fdalloc_of_le (h : Maps fdp A) (b : Beyond) {lim want : ℕ} (hw : fdp.fd_nfiles ≤ want) :
    fdalloc fdp b lim want = (fdp, .error (if lim ≤ fdp.fd_nfiles then .EMFILE else .ENOSPC)) := by
  rcases fdalloc_spec h b lim want with ⟨i, want', -, hle, hlt, -⟩ | heq
  · omega
  · exact heq

/-- How a round of `dodup3` can end; a wrong descriptor from `fdalloc` is not among it. -/
theorem dodup3_cases (h : Maps fdp A) (b : Beyond) (lim : ℕ) (usable : φ → Bool)
    (deadlk cloexec : Bool) (old new : ℕ) :
    (∃ e, dodup3 fdp b lim usable deadlk cloexec old new = (fdp, .failed e)) ∨
      (fdp.fd_ofiles new ≠ none ∧
        dodup3 fdp b lim usable deadlk cloexec old new = (fdp, .dup new)) ∨
      dodup3 fdp b lim usable deadlk cloexec old new = (fdexpand fdp, .restart) ∨
      (new < fdp.fd_nfiles ∧ ∃ fp, dodup3 fdp b lim usable deadlk cloexec old new =
        dup3Finish fdp fp deadlk cloexec old new) := by
  unfold dodup3
  split
  · exact Or.inl ⟨_, rfl⟩
  · next fp hfp =>
    by_cases husable : usable fp = false
    · exact Or.inl ⟨_, if_pos husable⟩
    rw [if_neg husable]
    by_cases hlim : lim ≤ new
    · exact Or.inl ⟨_, if_pos hlim⟩
    rw [if_neg hlim]
    by_cases heq : old = new
    · rw [if_pos heq]
      refine Or.inr (Or.inl ⟨?_, rfl⟩)
      subst heq
      split_ifs at hfp
      rw [hfp]
      simp
    rw [if_neg heq]
    by_cases hgrow : fdp.fd_nfiles ≤ new
    · rw [if_pos hgrow, fdalloc_of_le h b hgrow]
      simp only
      by_cases hnospc : (if lim ≤ fdp.fd_nfiles then Errno.EMFILE else .ENOSPC) = .ENOSPC
      · rw [if_pos hnospc]
        exact Or.inr (Or.inr (Or.inl rfl))
      · rw [if_neg hnospc]
        exact Or.inl ⟨_, rfl⟩
    · rw [if_neg hgrow]
      exact Or.inr (Or.inr (Or.inr ⟨by omega, fp, rfl⟩))

theorem Inv.setFlags (h : Inv fdp A) (flags : ℕ → BitVec 8) :
    Inv { fdp with fd_ofileflags := flags } A :=
  ⟨⟨h.maps.lo, h.maps.hi, h.maps.bound⟩, h.size, h.free, h.files, h.last_lt, h.last_mem⟩

/-- A round of `dodup3` gives `new` a file, or leaves the descriptors as they are. -/
theorem Inv.dodup3 (h : Inv fdp A) (b : Beyond) (lim : ℕ) (usable : φ → Bool)
    (deadlk cloexec : Bool) (old new : ℕ) :
    let r := dodup3 fdp b lim usable deadlk cloexec old new
    (∀ i, r.2 = .dup i → i = new ∧ Inv r.1 (insert new A) ∧ (Top fdp A → Top r.1 (insert new A))) ∧
      ((∀ i, r.2 ≠ .dup i) → Inv r.1 A ∧ (Top fdp A → Top r.1 A)) := by
  intro r
  simp only [r]
  rcases dodup3_cases h.maps b lim usable deadlk cloexec old new with
    ⟨e, heq⟩ | ⟨hfile, heq⟩ | heq | ⟨hlt, fp, heq⟩
  · rw [heq]
    refine ⟨fun i hi => ?_, fun _ => ⟨h, id⟩⟩
    cases hi
  · rw [heq]
    refine ⟨fun i hi => ?_, fun hno => absurd rfl (hno new)⟩
    cases hi
    rw [Set.insert_eq_of_mem (h.files new hfile).1]
    exact ⟨rfl, h, id⟩
  · rw [heq]
    refine ⟨fun i hi => ?_, fun _ => ⟨h.fdexpand.1, h.fdexpand.2.2.2⟩⟩
    cases hi
  · rw [heq]
    have hfin := h.finishdup fp deadlk old true hlt (by simp)
    unfold dup3Finish
    cases hr : Descrip.finishdup fdp fp deadlk old new true with
    | mk fdp₁ res =>
      rw [hr] at hfin
      cases res with
      | ok i =>
        obtain ⟨hi, hinv, htop⟩ := hfin.1 i rfl
        refine ⟨fun j hj => ?_, fun hno => absurd rfl (hno i)⟩
        cases hj
        refine ⟨hi, ?_, fun ht => ?_⟩
        · simp only
          split_ifs
          · exact hinv.setFlags _
          · exact hinv
        · simp only
          split_ifs
          · exact htop ht
          · exact htop ht
      | error e =>
        have hsame := hfin.2 e rfl
        simp only at hsame
        subst hsame
        refine ⟨fun j hj => ?_, fun _ => ⟨h, id⟩⟩
        cases hj

/-- The descriptors from `i` on that hold a file chosen by `sel`. -/
def Chosen (fdp : Filedesc φ) (sel : φ → Bool) (i : ℕ) : Set ℕ :=
  {fd | i ≤ fd ∧ fd ≤ fdp.fd_lastfile ∧ ∃ fp, fdp.fd_ofiles fd = some fp ∧ sel fp = true}

/-- The loop body that removes the chosen descriptors. -/
def removeChosen (sel : φ → Bool) (fdp : Filedesc φ) (i : ℕ) : Filedesc φ :=
  match fdp.fd_ofiles i with
  | some fp => if sel fp then fdremove fdp i else fdp
  | none => fdp

/-- The loop removes the chosen descriptors from its start on, and only these. -/
theorem Inv.forLastfile (sel : φ → Bool) (n i : ℕ) (h : Inv fdp A)
    (hn : fdp.fd_lastfile + 1 - i ≤ n) :
    Inv (forLastfile (removeChosen sel) n i fdp) (A \ Chosen fdp sel i) ∧
      (forLastfile (removeChosen sel) n i fdp).fd_nfiles = fdp.fd_nfiles ∧
      (Top fdp A → ((Chosen fdp sel i).Nonempty → ∀ x ∈ A, fdp.fd_ofiles x ≠ none) →
        Top (forLastfile (removeChosen sel) n i fdp) (A \ Chosen fdp sel i)) := by
  induction n generalizing fdp A i with
  | zero =>
    have hempty : Chosen fdp sel i = ∅ := by
      ext fd
      simp only [Chosen, Set.mem_ofPred_eq, Set.mem_empty_iff_false, iff_false]
      omega
    rw [hempty, Set.sdiff_empty]
    exact ⟨h, rfl, fun ht _ => ht⟩
  | succ n ih =>
    unfold Descrip.forLastfile
    split_ifs with hle
    · by_cases hsel : ∃ fp, fdp.fd_ofiles i = some fp ∧ sel fp = true
      · obtain ⟨fp, hfp, hs⟩ := hsel
        have hbody : removeChosen sel fdp i = fdremove fdp i := by
          simp [removeChosen, hfp, hs]
        obtain ⟨hmem, hlt⟩ := h.files i (by simp [hfp])
        have hlast : (fdremove fdp i).fd_lastfile =
            if i = fdp.fd_lastfile then findLastSet (fdremove fdp i) i else fdp.fd_lastfile := rfl
        have hle' := (findLastSet_le (fdremove fdp i) i).1
        have hfiles : ∀ x, x ≠ i → (fdremove fdp i).fd_ofiles x = fdp.fd_ofiles x :=
          fun x hx => Function.update_of_ne hx ..
        -- the rest of the loop has the remaining chosen descriptors to remove
        have hset : A \ Chosen fdp sel i = (A \ {i}) \ Chosen (fdremove fdp i) sel (i + 1) := by
          ext x
          simp only [Chosen, Set.mem_sdiff, Set.mem_ofPred_eq, Set.mem_singleton_iff]
          by_cases hxi : x = i
          · subst hxi
            simp [hle, hfp, hs]
          · rw [hfiles x hxi, hlast]
            have hiff : (i ≤ x ∧ x ≤ fdp.fd_lastfile) ↔ (i + 1 ≤ x ∧ x ≤
                if i = fdp.fd_lastfile then findLastSet (fdremove fdp i) i else fdp.fd_lastfile) := by
              split_ifs <;> omega
            rw [← and_assoc, ← and_assoc, hiff]
            simp [hxi]
        have hinv := h.remove hmem hlt
        obtain ⟨hI, hN, hT⟩ := ih (i + 1) hinv (by rw [hlast]; split_ifs <;> omega)
        rw [hbody, hset]
        refine ⟨hI, hN, fun ht hall => ?_⟩
        have hall' : ∀ x ∈ A, fdp.fd_ofiles x ≠ none := hall ⟨i, Nat.le_refl i, hle, fp, hfp, hs⟩
        apply hT (Top.remove h.maps ht fun x hx _ => hall' x hx)
        rintro - x ⟨hx, hxi⟩
        rw [hfiles x hxi]
        exact hall' x hx
      · have hbody : removeChosen sel fdp i = fdp := by
          unfold removeChosen
          split
          · next fp hfp =>
            rw [if_neg]
            exact fun hs => hsel ⟨fp, hfp, hs⟩
          · rfl
        have hset : Chosen fdp sel i = Chosen fdp sel (i + 1) := by
          ext x
          simp only [Chosen, Set.mem_ofPred_eq]
          constructor
          · rintro ⟨h1, h2, h3⟩
            refine ⟨?_, h2, h3⟩
            by_contra hlt
            rw [(by omega : x = i)] at h3
            exact hsel h3
          · rintro ⟨h1, h2, h3⟩
            exact ⟨by omega, h2, h3⟩
        rw [hbody, hset]
        exact ih (i + 1) h (by omega)
    · have hempty : Chosen fdp sel i = ∅ := by
        ext fd
        simp only [Chosen, Set.mem_ofPred_eq, Set.mem_empty_iff_false, iff_false]
        omega
      rw [hempty, Set.sdiff_empty]
      exact ⟨h, rfl, fun ht _ => ht⟩

theorem shrink_spec (last k : ℕ) (h : last < NDEXTENT * 2 ^ k) :
    last < shrink last (NDEXTENT * 2 ^ k) ∧ shrink last (NDEXTENT * 2 ^ k) ≤ NDEXTENT * 2 ^ k ∧
      ∃ j, shrink last (NDEXTENT * 2 ^ k) = NDEXTENT * 2 ^ j := by
  induction k with
  | zero =>
    rw [shrink, if_neg (by unfold NDEXTENT; omega)]
    exact ⟨h, le_rfl, 0, rfl⟩
  | succ k ih =>
    have hdouble : NDEXTENT * 2 ^ (k + 1) = 2 * (NDEXTENT * 2 ^ k) := by
      rw [pow_succ]
      ring
    have hhalf : NDEXTENT * 2 ^ (k + 1) / 2 = NDEXTENT * 2 ^ k := by omega
    rw [shrink]
    split_ifs with hcond
    · rw [hhalf]
      obtain ⟨h1, h2, h3⟩ := ih (by omega)
      exact ⟨h1, by omega, h3⟩
    · exact ⟨h, le_rfl, k + 1, rfl⟩

theorem shrink_pos (last i : ℕ) (h : 0 < i) : 0 < shrink last i := by
  induction i using Nat.strong_induction_on with
  | _ i ih =>
    rw [shrink]
    split_ifs with hcond
    · unfold NDEXTENT at hcond
      exact ih (i / 2) (by omega) (by omega)
    · exact h

theorem copySize_pos (h : 0 < fdp.fd_nfiles) : 0 < copySize fdp := by
  unfold copySize
  split_ifs
  · exact (by decide : 0 < NDFILE)
  · exact shrink_pos _ _ h

theorem copySize_spec (h : Inv fdp A) :
    fdp.fd_lastfile < copySize fdp ∧ copySize fdp ≤ fdp.fd_nfiles ∧
      (copySize fdp = NDFILE ∨ ∃ k, copySize fdp = NDEXTENT * 2 ^ k) := by
  have hlt := h.last_lt
  unfold copySize
  split_ifs with hsmall
  · refine ⟨hsmall, ?_, Or.inl rfl⟩
    rcases h.size with hsize | ⟨k, hsize⟩
    · exact hsize.ge
    · have hpos : 1 ≤ 2 ^ k := Nat.one_le_two_pow
      rw [hsize]
      unfold NDFILE NDEXTENT
      omega
  · rcases h.size with hsize | ⟨k, hsize⟩
    · omega
    · rw [hsize] at hlt ⊢
      obtain ⟨h1, h2, h3⟩ := shrink_spec _ k hlt
      exact ⟨h1, h2, Or.inr h3⟩

theorem test_truncate (a : ℕ → BitVec 32) (n i : ℕ) :
    Bitmap.test (fun w => if w < n then a w else 0#32) i = true ↔
      i < 32 * n ∧ Bitmap.test a i = true := by
  unfold Bitmap.test
  simp only
  split_ifs with hw
  · exact ⟨fun h => ⟨by omega, h⟩, fun h => h.2⟩
  · rw [BitVec.getLsbD_zero]
    constructor
    · intro h
      cases h
    · rintro ⟨h, -⟩
      omega

/-- The table of `fdcopy` before the files that are not handed on are removed. -/
def truncate (fdp : Filedesc φ) (i : ℕ) : Filedesc φ :=
  { fdp with
    fd_nfiles := i
    fd_ofiles := fun fd => if fd < i then fdp.fd_ofiles fd else none
    fd_ofileflags := fun fd => if fd < i then fdp.fd_ofileflags fd else 0#8
    fd_himap := fun w => if w < NDHISLOTS i then fdp.fd_himap w else 0#32
    fd_lomap := fun w => if w < NDLOSLOTS i then fdp.fd_lomap w else 0#32 }

theorem Maps.truncate (h : Maps fdp A) (i : ℕ) :
    Maps (truncate fdp i) (A ∩ {fd | fd < 32 * NDLOSLOTS i}) := by
  constructor
  · intro fd
    apply (test_truncate _ _ _).trans
    rw [h.lo]
    exact and_comm
  · intro w
    apply (test_truncate _ _ _).trans
    rw [h.hi, ← NDLOSLOTS_eq]
    change _ ↔ (if w < NDLOSLOTS i then fdp.fd_lomap w else 0#32) = _
    split_ifs with hw
    · exact ⟨fun hx => hx.2, fun hx => ⟨hw, hx⟩⟩
    · exact iff_of_false (fun hx => hw hx.1) (by decide)
  · exact fun fd hfd => hfd.2

/-- The files `fdcopy` does not hand on. -/
def Left (fdp : Filedesc φ) (leave : φ → Bool) : Set ℕ :=
  {fd | ∃ fp, fdp.fd_ofiles fd = some fp ∧ leave fp = true}

/-- A copy of a table whose `fd_lastfile` bounds the allocated descriptors has them all,
but those it must not hand on. -/
theorem Inv.fdcopy (h : Inv fdp A) (ht : Top fdp A) (leave : φ → Bool) :
    Inv (fdcopy leave fdp) (A \ Left fdp leave) ∧
      (fdcopy leave fdp).fd_nfiles ≤ fdp.fd_nfiles ∧ (∀ fd ∈ A, fd < (fdcopy leave fdp).fd_nfiles) ∧
      (((Left fdp leave).Nonempty → ∀ x ∈ A, fdp.fd_ofiles x ≠ none) →
        Top (fdcopy leave fdp) (A \ Left fdp leave)) := by
  obtain ⟨hlast, hle, hsize⟩ := copySize_spec h
  have hroom : ∀ fd ∈ A, fd < copySize fdp := fun fd hfd => Nat.lt_of_le_of_lt (ht fd hfd) hlast
  have hslots := le_NDLOSLOTS (copySize fdp)
  set newfdp := truncate fdp (copySize fdp) with hnew
  have hfiles : ∀ fd, newfdp.fd_ofiles fd = fdp.fd_ofiles fd := by
    intro fd
    change (if fd < copySize fdp then fdp.fd_ofiles fd else none) = fdp.fd_ofiles fd
    split_ifs with hfd
    · rfl
    · by_contra hne
      exact hfd (hroom fd (h.files fd (Ne.symm hne)).1)
  have hmaps : Maps newfdp A := by
    have hall : A ∩ {fd | fd < 32 * NDLOSLOTS (copySize fdp)} = A :=
      Set.inter_eq_left.mpr fun fd hfd => by
        have := hroom fd hfd
        change fd < 32 * NDLOSLOTS (copySize fdp)
        omega
    rw [← hall]
    exact h.maps.truncate _
  have hinv : Inv newfdp A := by
    refine ⟨hmaps, hsize, h.free, ?_, hlast, h.last_mem⟩
    intro fd hfd
    rw [hfiles fd] at hfd
    exact ⟨(h.files fd hfd).1, hroom fd (h.files fd hfd).1⟩
  have hchosen : A \ Chosen newfdp leave 0 = A \ Left fdp leave := by
    ext x
    simp only [Chosen, Left, Set.mem_sdiff, Set.mem_ofPred_eq, hfiles]
    constructor
    · rintro ⟨hx, hno⟩
      exact ⟨hx, fun hleft => hno ⟨Nat.zero_le x, ht x hx, hleft⟩⟩
    · rintro ⟨hx, hno⟩
      exact ⟨hx, fun hch => hno hch.2.2⟩
  obtain ⟨hI, hN, hT⟩ := hinv.forLastfile leave (newfdp.fd_lastfile + 1) 0 (Nat.sub_le _ _)
  rw [hchosen] at hI hT
  have heq : Descrip.fdcopy leave fdp =
      Descrip.forLastfile (removeChosen leave) (newfdp.fd_lastfile + 1) 0 newfdp := rfl
  rw [heq]
  refine ⟨hI, by rw [hN]; exact hle, by rw [hN]; exact hroom, fun hall => ?_⟩
  apply hT ht
  rintro ⟨fd, -, -, fp, hfp, hleave⟩ x hx
  rw [hfiles x]
  rw [hfiles fd] at hfp
  exact hall ⟨fd, fp, hfp, hleave⟩ x hx

end OpenbsdKernel.Descrip
