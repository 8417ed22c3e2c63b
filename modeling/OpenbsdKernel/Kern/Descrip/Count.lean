import Mathlib.Data.Finset.Card
import OpenbsdKernel.Kern.Descrip.Runs

/-!
# The count of open descriptors

`fd_used` and `fd_unused` adjust `fd_openfd` whatever the maps say. The count is the number
of bits in `fd_lomap` plus the number of times a descriptor was marked that was marked
already, and an open of `/dev/fd/N` does this each time it succeeds.
-/
namespace OpenbsdKernel.Descrip

variable {φ : Type*}

/-- What `doopenat` finds outside the table: the arguments of `falloc`, how `vn_open` ended
and the `p_dupfd` it left, how the lock or the truncation after it ended, whether a setuid
process is refused the descriptor, and what is known of the files. -/
structure Open (φ : Type*) where
  b : ℕ → Beyond
  lim : ℕ
  full : Bool
  fp : φ
  cloexec : Bool
  vn_open : Except Errno Unit
  p_dupfd : Option ℕ
  after : Option Errno
  refused : Bool
  usable : φ → Bool
  subset : φ → Bool
  deadlk : φ → Bool

def dupfdopen (o : Open φ) (fdp : Filedesc φ) (indx dfd : ℕ) : Filedesc φ × Except Errno Unit :=
  if o.refused then (fdp, .error .EPERM)
  else
    match if dfd < fdp.fd_nfiles then fdp.fd_ofiles dfd else none with
    | none => (fdp, .error .EBADF)
    | some wfp =>
      if o.usable wfp = false then (fdp, .error .EBADF)
      else if o.subset wfp = false then (fdp, .error .EACCES)
      else if o.deadlk wfp then (fdp, .error .EDEADLK)
      else
        (fdUsed
          { fdp with
            fd_ofiles := Function.update fdp.fd_ofiles indx (some wfp)
            fd_ofileflags := Function.update fdp.fd_ofileflags indx
              (fdp.fd_ofileflags indx &&& UF_EXCLOSE ||| fdp.fd_ofileflags dfd &&& ~~~UF_EXCLOSE) }
          indx, .ok ())

/-- `doopenat` after `falloc`. -/
def openSlot (o : Open φ) (fdp : Filedesc φ) (indx : ℕ) : Filedesc φ × Except Errno ℕ :=
  let failed := fun (fdp : Filedesc φ) (e : Errno) =>
    (fdremove fdp indx, Except.error (if e = .ERESTART then .EINTR else e))
  match o.vn_open with
  | .error e =>
    match if e = .ENODEV then o.p_dupfd else none with
    | none => failed fdp e
    | some dfd =>
      match dupfdopen o fdp indx dfd with
      | (fdp, .ok ()) => (fdp, .ok indx)
      | (fdp, .error e) => failed fdp e
  | .ok () =>
    match o.after with
    | some e => (fdremove fdp indx, .error e)
    | none => (fdp, .ok indx)

def doopenat (o : Open φ) (fdp : Filedesc φ) : Filedesc φ × Except Errno ℕ :=
  match falloc o.b o.lim o.full o.fp fdp with
  | (fdp, .error e) => (fdp, .error e)
  | (fdp, .ok indx) =>
    openSlot o
      { fdp with
        fd_ofileflags :=
          if o.cloexec then
            Function.update fdp.fd_ofileflags indx (fdp.fd_ofileflags indx ||| UF_EXCLOSE)
          else fdp.fd_ofileflags }
      indx

/-- The descriptors whose bit is set in `fd_lomap`. -/
def allocated (fdp : Filedesc φ) : Finset ℕ :=
  (Finset.range (32 * NDLOSLOTS fdp.fd_nfiles)).filter fun fd => Bitmap.test fdp.fd_lomap fd = true

/-- The maps describe `A`, files are in allocated slots, and `fd_openfd` is `k` too high. -/
structure Counted (fdp : Filedesc φ) (A : Finset ℕ) (k : ℕ) : Prop where
  maps : Maps fdp A
  pos : 0 < fdp.fd_nfiles
  files : ∀ fd, fdp.fd_ofiles fd ≠ none → fd ∈ A ∧ fd < fdp.fd_nfiles
  openfd : fdp.fd_openfd = A.card + k

variable {fdp : Filedesc φ} {A : Finset ℕ} {k : ℕ}

theorem Counted.allocated_eq (h : Counted fdp A k) : allocated fdp = A := by
  ext fd
  rw [allocated, Finset.mem_filter, Finset.mem_range, h.maps.lo]
  exact ⟨fun hfd => hfd.2, fun hfd => ⟨h.maps.bound fd hfd, hfd⟩⟩

theorem counted_fdinit : Counted (fdinit : Filedesc φ) ∅ 0 := by
  refine ⟨?_, (by decide : 0 < NDFILE), fun fd hfd => absurd rfl hfd, rfl⟩
  rw [Finset.coe_empty]
  exact inv_fdinit.1.maps

theorem Counted.hints (h : Counted fdp A k) (last free : ℕ) (flags : ℕ → BitVec 8) :
    Counted { fdp with fd_lastfile := last, fd_freefile := free, fd_ofileflags := flags } A k :=
  ⟨⟨h.maps.lo, h.maps.hi, h.maps.bound⟩, h.pos, h.files, h.openfd⟩

theorem Counted.used (h : Counted fdp A k) {fd : ℕ} (hfd : fd < fdp.fd_nfiles) (hnot : fd ∉ A) :
    Counted (fdUsed fdp fd) (insert fd A) k := by
  refine ⟨?_, h.pos, fun x hx => ?_, ?_⟩
  · rw [Finset.coe_insert]
    exact h.maps.used hfd
  · exact ⟨Finset.mem_insert_of_mem (h.files x hx).1, (h.files x hx).2⟩
  · change fdp.fd_openfd + 1 = _
    rw [h.openfd, Finset.card_insert_of_notMem hnot]
    push_cast
    ring

theorem Counted.used_again (h : Counted fdp A k) {fd : ℕ} (hfd : fd < fdp.fd_nfiles) (hmem : fd ∈ A) :
    Counted (fdUsed fdp fd) A (k + 1) := by
  refine ⟨?_, h.pos, h.files, ?_⟩
  · have hused := h.maps.used hfd
    rwa [Set.insert_eq_of_mem (Finset.mem_coe.mpr hmem)] at hused
  · change fdp.fd_openfd + 1 = _
    rw [h.openfd]
    push_cast
    ring

theorem Counted.unused (h : Counted fdp A k) {fd : ℕ} (hmem : fd ∈ A)
    (hnone : fdp.fd_ofiles fd = none) : Counted (fdUnused fdp fd) (A.erase fd) k := by
  refine ⟨?_, h.pos, fun x hx => ?_, ?_⟩
  · rw [Finset.coe_erase]
    exact h.maps.unused fd
  · have hne : x ≠ fd := by
      rintro rfl
      exact hx hnone
    exact ⟨Finset.mem_erase.mpr ⟨hne, (h.files x hx).1⟩, (h.files x hx).2⟩
  · change fdp.fd_openfd - 1 = _
    rw [h.openfd, ← Finset.card_erase_add_one hmem]
    push_cast
    ring

theorem Counted.setFile (h : Counted fdp A k) {fd : ℕ} (hmem : fd ∈ A) (hfd : fd < fdp.fd_nfiles)
    (f : Option φ) (flags : ℕ → BitVec 8) :
    Counted { fdp with fd_ofiles := Function.update fdp.fd_ofiles fd f, fd_ofileflags := flags }
      A k := by
  refine ⟨⟨h.maps.lo, h.maps.hi, h.maps.bound⟩, h.pos, fun x hx => ?_, h.openfd⟩
  by_cases hxfd : x = fd
  · rw [hxfd]
    exact ⟨hmem, hfd⟩
  · simp only [Function.update_of_ne hxfd] at hx
    exact h.files x hx

theorem Counted.remove (h : Counted fdp A k) {fd : ℕ} (hmem : fd ∈ A) (hfd : fd < fdp.fd_nfiles) :
    Counted (fdremove fdp fd) (A.erase fd) k :=
  (h.setFile hmem hfd none fdp.fd_ofileflags).unused hmem (Function.update_self ..)

theorem Counted.fdexpand (h : Counted fdp A k) :
    Counted (fdexpand fdp) A k ∧ ∀ fd, (fdexpand fdp).fd_ofiles fd = fdp.fd_ofiles fd := by
  have hlt := nfiles_lt_fdexpand h.pos
  have hfiles : ∀ fd, (Descrip.fdexpand fdp).fd_ofiles fd = fdp.fd_ofiles fd := by
    intro fd
    change (if fd < fdp.fd_nfiles then fdp.fd_ofiles fd else none) = fdp.fd_ofiles fd
    split_ifs with hfd
    · rfl
    · by_contra hne
      exact hfd (h.files fd (Ne.symm hne)).2
  refine ⟨⟨h.maps.fdexpand h.pos, h.pos.trans hlt, fun x hx => ?_, h.openfd⟩, hfiles⟩
  rw [hfiles] at hx
  exact ⟨(h.files x hx).1, (h.files x hx).2.trans hlt⟩

theorem Counted.fdalloc (h : Counted fdp A k) (b : Beyond) (lim want : ℕ) :
    (∃ i, (fdalloc fdp b lim want).2 = .ok i ∧ i ∉ A ∧ i < fdp.fd_nfiles ∧
        (fdalloc fdp b lim want).1.fd_ofiles = fdp.fd_ofiles ∧
        (fdalloc fdp b lim want).1.fd_nfiles = fdp.fd_nfiles ∧
        Counted (fdalloc fdp b lim want).1 (insert i A) k) ∨
      ∃ e, fdalloc fdp b lim want = (fdp, .error e) := by
  rcases fdalloc_spec h.maps b lim want with ⟨i, want', heq, -, hlt, -, hnot, -⟩ | heq
  · left
    have hnot' : i ∉ A := fun hmem => hnot (Finset.mem_coe.mpr hmem)
    rw [heq]
    exact ⟨i, rfl, hnot', hlt, rfl, rfl, (h.used hlt hnot').hints _ _ _⟩
  · exact Or.inr ⟨_, heq⟩

theorem Counted.falloc (h : Counted fdp A k) (b : ℕ → Beyond) (lim : ℕ) (full : Bool) (fp : φ) :
    (∀ i, (falloc b lim full fp fdp).2 = .ok i → i ∉ A ∧ i < (falloc b lim full fp fdp).1.fd_nfiles ∧
      Counted (falloc b lim full fp fdp).1 (insert i A) k ∧
      ∀ fd, (falloc b lim full fp fdp).1.fd_ofiles fd =
        if fd = i then some fp else fdp.fd_ofiles fd) ∧
    ∀ e, (falloc b lim full fp fdp).2 = .error e → Counted (falloc b lim full fp fdp).1 A k := by
  unfold Descrip.falloc
  split
  · next r n hrun =>
    refine Loop.run_returned
      (I := fun x => Counted x A k ∧ ∀ fd, x.fd_ofiles fd = fdp.fd_ofiles fd)
      (Q := fun r => (∀ i, r.2 = .ok i → i ∉ A ∧ i < r.1.fd_nfiles ∧ Counted r.1 (insert i A) k ∧
        ∀ fd, r.1.fd_ofiles fd = if fd = i then some fp else fdp.fd_ofiles fd) ∧
        ∀ e, r.2 = .error e → Counted r.1 A k) _ ?_ ?_ hrun ⟨h, fun _ => rfl⟩
    · rintro x y ⟨hx, hfiles⟩ hstep
      unfold fallocStep at hstep
      split at hstep
      · split_ifs at hstep
        cases hstep
        exact ⟨hx.fdexpand.1, fun fd => (hx.fdexpand.2 fd).trans (hfiles fd)⟩
      · split_ifs at hstep
    · rintro x r ⟨hx, hfiles⟩ hstep
      unfold fallocStep at hstep
      rcases hx.fdalloc (b x.fd_nfiles) lim 0 with ⟨i, hok, hnot, hlt, hofiles, hn, hc⟩ | ⟨e, heq⟩
      · cases hr : Descrip.fdalloc x (b x.fd_nfiles) lim 0 with
        | mk x₁ res =>
          rw [hr] at hstep hok hofiles hn hc
          simp only at hok hofiles hn hc
          subst hok
          have hnone : x₁.fd_ofiles i = none := by
            rw [hofiles]
            by_contra hne
            exact hnot (hx.files i hne).1
          simp only at hstep
          split_ifs at hstep
          · cases hstep
            refine ⟨fun j hj => (by cases hj), fun e _ => ?_⟩
            have hback := hc.unused (Finset.mem_insert_self i A) hnone
            rwa [Finset.erase_insert hnot] at hback
          · cases hstep
            refine ⟨fun j hj => ?_, fun e he => by cases he⟩
            cases hj
            refine ⟨hnot, hn ▸ hlt, hc.setFile (Finset.mem_insert_self i A) (hn ▸ hlt) _ _,
              fun fd => ?_⟩
            by_cases hfd : fd = i
            · simp [hfd]
            · simp [hfd, hofiles, hfiles]
      · rw [heq] at hstep
        simp only at hstep
        split_ifs at hstep
        cases hstep
        exact ⟨fun j hj => (by cases hj), fun e _ => hx⟩
  · exact ⟨fun j hj => (by cases hj), fun e _ => h⟩

/-- What an operation leaves behind: the count is off by as much as before if and only if
`once` holds, and by more otherwise. -/
def Leaves (fdp : Filedesc φ) (k : ℕ) (once : Prop) : Prop :=
  ∃ A k', Counted fdp A k' ∧ k ≤ k' ∧ (k' = k ↔ once)

theorem Counted.leaves {once : Prop} (h : Counted fdp A k) (honce : once) : Leaves fdp k once :=
  ⟨A, k, h, le_rfl, iff_of_true rfl honce⟩

theorem Counted.leaves_succ {once : Prop} (h : Counted fdp A (k + 1)) (honce : ¬ once) :
    Leaves fdp k once :=
  ⟨A, k + 1, h, Nat.le_succ k, iff_of_false (Nat.succ_ne_self k) honce⟩

theorem Counted.finishdup (h : Counted fdp A k) (fp : φ) (deadlk : Bool) (old : ℕ) {new : ℕ}
    (dup2 : Bool) (hnew : new < fdp.fd_nfiles) (hvalid : dup2 = false → new ∈ A) :
    Leaves (finishdup fdp fp deadlk old new dup2).1 k
      (deadlk = false → dup2 = true → fdp.fd_ofiles new = none → new ∉ A) := by
  simp only [Descrip.finishdup]
  split_ifs with hdead hused
  · exact h.leaves fun hno => by simp [hdead] at hno
  · obtain ⟨hdup, hnone⟩ := hused
    have hnone' : fdp.fd_ofiles new = none := by simpa using hnone
    -- marking first and storing the file afterwards gives the same table
    by_cases hmem : new ∈ A
    · have hmark := (h.used_again hnew hmem).setFile hmem hnew (some fp)
        (Function.update fdp.fd_ofileflags new (fdp.fd_ofileflags old &&& ~~~UF_EXCLOSE))
      exact hmark.leaves_succ fun hno => hno (by simpa using hdead) hdup hnone' hmem
    · have hmark := (h.used hnew hmem).setFile (Finset.mem_insert_self new A) hnew (some fp)
        (Function.update fdp.fd_ofileflags new (fdp.fd_ofileflags old &&& ~~~UF_EXCLOSE))
      exact hmark.leaves fun _ _ _ => hmem
  · have hmem : new ∈ A := by
      cases hdup : dup2 with
      | false => exact hvalid hdup
      | true =>
        have hsome : fdp.fd_ofiles new ≠ none := by
          intro hnone
          exact hused ⟨hdup, by rw [hnone]; rfl⟩
        exact (h.files new hsome).1
    refine (h.setFile hmem hnew (some fp) _).leaves fun _ hdup hnone => ?_
    exact absurd ⟨hdup, by rw [hnone]; rfl⟩ hused

theorem Leaves.flags {once : Prop} (h : Leaves fdp k once) (flags : ℕ → BitVec 8) :
    Leaves { fdp with fd_ofileflags := flags } k once := by
  obtain ⟨A, k', hc, hle, hiff⟩ := h
  exact ⟨A, k', hc.hints _ _ flags, hle, hiff⟩

/-- A slot of the table whose descriptor is allocated, but has no file. -/
def Reserved (fdp : Filedesc φ) (fd : ℕ) : Prop :=
  fd < fdp.fd_nfiles ∧ fd ∈ allocated fdp ∧ fdp.fd_ofiles fd = none

theorem Counted.dodup3 (h : Counted fdp A k) (b : Beyond) (lim : ℕ) (usable : φ → Bool)
    (deadlk cloexec : Bool) (old new : ℕ) :
    Leaves (dodup3 fdp b lim usable deadlk cloexec old new).1 k
      ((∃ fp, fdp.fd_ofiles old = some fp ∧ usable fp = true) → new < lim → deadlk = false →
        ¬ Reserved fdp new) := by
  unfold Descrip.dodup3
  cases hold : fdp.fd_ofiles old with
  | none =>
    rw [ite_self]
    exact h.leaves fun ⟨fp, hfp, _⟩ => by cases hfp
  | some fp =>
    have hlt : old < fdp.fd_nfiles := (h.files old (by simp [hold])).2
    rw [if_pos hlt]
    simp only
    split_ifs with husable hlim heq hgrow
    · refine h.leaves ?_
      rintro ⟨fp', hfp, hu⟩
      cases hfp
      simp [husable] at hu
    · exact h.leaves fun _ hlt' => absurd hlt' (by omega)
    · refine h.leaves fun _ _ _ hres => ?_
      rw [← heq, Reserved, hold] at hres
      cases hres.2.2
    · rw [fdalloc_of_le h.maps b hgrow]
      simp only
      have hno : ¬ Reserved fdp new := fun hres => absurd hres.1 (by omega)
      by_cases hnospc : (if lim ≤ fdp.fd_nfiles then Errno.EMFILE else .ENOSPC) = .ENOSPC
      · rw [if_pos hnospc]
        exact h.fdexpand.1.leaves fun _ _ _ => hno
      · rw [if_neg hnospc]
        exact h.leaves fun _ _ _ => hno
    · have hfin := h.finishdup fp deadlk old true (by omega : new < fdp.fd_nfiles)
        (fun hno => by cases hno)
      have hiff : (deadlk = false → true = true → fdp.fd_ofiles new = none → new ∉ A) ↔
          ((∃ fp', some fp = some fp' ∧ usable fp' = true) → new < lim → deadlk = false →
            ¬ Reserved fdp new) := by
        constructor
        · intro hfree _ _ hd hres
          exact hfree hd rfl hres.2.2 (h.allocated_eq ▸ hres.2.1)
        · intro hfree hd _ hnone hmem
          exact hfree ⟨fp, rfl, by simpa using husable⟩ (by omega) hd
            ⟨by omega, by rwa [h.allocated_eq], hnone⟩
      rw [hiff] at hfin
      rw [dup3Finish]
      split
      · next fdp₁ i hr =>
        rw [hr] at hfin
        dsimp only
        split_ifs
        · exact hfin.flags _
        · exact hfin
      · next fdp₁ e hr =>
        rw [hr] at hfin
        exact hfin

theorem Counted.forLastfile (h : Counted fdp A k) (sel : φ → Bool) (n i : ℕ) :
    ∃ A', Counted (forLastfile (removeChosen sel) n i fdp) A' k := by
  induction n generalizing fdp A i with
  | zero => exact ⟨A, h⟩
  | succ n ih =>
    unfold Descrip.forLastfile
    split_ifs
    · unfold removeChosen
      split
      · next fp hfp =>
        split_ifs
        · obtain ⟨hmem, hlt⟩ := h.files i (by simp [hfp])
          exact ih (h.remove hmem hlt) (i + 1)
        · exact ih h (i + 1)
      · exact ih h (i + 1)
    · exact ⟨A, h⟩

theorem Counted.fdcopy (h : Counted fdp A k) (leave : φ → Bool) :
    Leaves (fdcopy leave fdp) k
      (∀ fd ∈ allocated fdp, fd < 32 * NDLOSLOTS (copySize fdp)) := by
  have hpos : 0 < copySize fdp := copySize_pos h.pos
  have hslots := le_NDLOSLOTS (copySize fdp)
  have hcard := Finset.card_filter_add_card_filter_not (s := A)
    (fun fd => fd < 32 * NDLOSLOTS (copySize fdp))
  have hcut : Counted (truncate fdp (copySize fdp))
      (A.filter fun fd => fd < 32 * NDLOSLOTS (copySize fdp))
      (k + (A.filter fun fd => ¬ fd < 32 * NDLOSLOTS (copySize fdp)).card) := by
    refine ⟨?_, hpos, fun x hx => ?_, ?_⟩
    · rw [Finset.coe_filter]
      exact h.maps.truncate _
    · change (if x < copySize fdp then fdp.fd_ofiles x else none) ≠ none at hx
      change _ ∧ x < copySize fdp
      split_ifs at hx with hlt
      · exact ⟨Finset.mem_filter.mpr ⟨(h.files x hx).1, by omega⟩, hlt⟩
      · exact absurd rfl hx
    · change fdp.fd_openfd = _
      rw [h.openfd, ← hcard]
      push_cast
      ring
  obtain ⟨A', hloop⟩ := hcut.forLastfile leave ((truncate fdp (copySize fdp)).fd_lastfile + 1) 0
  refine ⟨A', _, hloop, Nat.le_add_right _ _, ?_⟩
  rw [Nat.add_eq_left, Finset.card_eq_zero, Finset.filter_eq_empty_iff, h.allocated_eq]
  exact forall₂_congr fun fd _ => not_not

/-- The open of a descriptor device that is granted a duplicate. -/
def Granted (o : Open φ) (fdp : Filedesc φ) : Prop :=
  o.vn_open = .error .ENODEV ∧ o.refused = false ∧
    (∃ i, (falloc o.b o.lim o.full o.fp fdp).2 = .ok i) ∧
    ∃ dfd wfp, o.p_dupfd = some dfd ∧ fdp.fd_ofiles dfd = some wfp ∧ o.usable wfp = true ∧
      o.subset wfp = true ∧ o.deadlk wfp = false

theorem Counted.dupfdopen (h : Counted fdp A k) (o : Open φ) {indx : ℕ} (dfd : ℕ) (hmem : indx ∈ A)
    (hlt : indx < fdp.fd_nfiles) :
    ((dupfdopen o fdp indx dfd).2 = .ok () ∧ Counted (dupfdopen o fdp indx dfd).1 A (k + 1) ∧
      o.refused = false ∧ ∃ wfp, fdp.fd_ofiles dfd = some wfp ∧ o.usable wfp = true ∧
        o.subset wfp = true ∧ o.deadlk wfp = false) ∨
    ∃ e, dupfdopen o fdp indx dfd = (fdp, .error e) ∧
      ¬ (o.refused = false ∧ ∃ wfp, fdp.fd_ofiles dfd = some wfp ∧ o.usable wfp = true ∧
        o.subset wfp = true ∧ o.deadlk wfp = false) := by
  unfold Descrip.dupfdopen
  by_cases hrefused : o.refused = true
  · rw [if_pos hrefused]
    exact Or.inr ⟨_, rfl, fun hno => by simp [hrefused] at hno⟩
  rw [if_neg hrefused]
  cases hfile : fdp.fd_ofiles dfd with
  | none =>
    rw [ite_self]
    refine Or.inr ⟨_, rfl, ?_⟩
    rintro ⟨-, wfp, hwfp, -⟩
    cases hwfp
  | some wfp =>
    rw [if_pos (h.files dfd (by simp [hfile])).2]
    simp only [Option.some.injEq, exists_eq_left']
    split_ifs with husable hsubset hdead
    · exact Or.inr ⟨_, rfl, fun hno => by simp [husable] at hno⟩
    · exact Or.inr ⟨_, rfl, fun hno => by simp [hsubset] at hno⟩
    · exact Or.inr ⟨_, rfl, fun hno => by simp [hdead] at hno⟩
    · exact Or.inl ⟨rfl, (h.used_again hlt hmem).setFile hmem hlt (some wfp) _,
        by simpa using hrefused, by simpa using husable, by simpa using hsubset, by simpa using hdead⟩

theorem Counted.openSlot (h : Counted fdp A k) (o : Open φ) {indx : ℕ} (hmem : indx ∈ A)
    (hlt : indx < fdp.fd_nfiles) :
    Leaves (openSlot o fdp indx).1 k
      (¬ (o.vn_open = .error .ENODEV ∧ o.refused = false ∧ ∃ dfd wfp, o.p_dupfd = some dfd ∧
        fdp.fd_ofiles dfd = some wfp ∧ o.usable wfp = true ∧ o.subset wfp = true ∧
        o.deadlk wfp = false)) := by
  have hremove := h.remove hmem hlt
  unfold Descrip.openSlot
  cases hopen : o.vn_open with
  | ok u =>
    simp only
    cases o.after with
    | none => exact h.leaves fun hno => by cases hno.1
    | some e => exact hremove.leaves fun hno => by cases hno.1
  | error e =>
    simp only
    by_cases he : e = .ENODEV
    · rw [if_pos he]
      cases hdup : o.p_dupfd with
      | none =>
        refine hremove.leaves ?_
        rintro ⟨-, -, dfd, wfp, hd, -⟩
        cases hd
      | some dfd =>
        simp only
        rcases h.dupfdopen o dfd hmem hlt with ⟨hok, hc, hrefused, wfp, hw⟩ | ⟨e', heq, hno⟩
        · cases hr : Descrip.dupfdopen o fdp indx dfd with
          | mk fdp₁ res =>
            rw [hr] at hok hc
            simp only at hok hc
            subst hok
            exact hc.leaves_succ fun hno => hno ⟨by rw [he], hrefused, dfd, wfp, rfl, hw⟩
        · rw [heq]
          refine hremove.leaves ?_
          rintro ⟨-, hrefused, dfd', wfp, hd, hw⟩
          cases hd
          exact hno ⟨hrefused, wfp, hw⟩
    · rw [if_neg he]
      refine hremove.leaves ?_
      rintro ⟨heq, -⟩
      cases heq
      exact he rfl

theorem Counted.doopenat (h : Counted fdp A k) (o : Open φ) (hlarval : o.usable o.fp = false) :
    Leaves (doopenat o fdp).1 k (¬ Granted o fdp) := by
  obtain ⟨hok, herror⟩ := h.falloc o.b o.lim o.full o.fp
  unfold Descrip.doopenat Granted
  cases hr : Descrip.falloc o.b o.lim o.full o.fp fdp with
  | mk fdp₁ res =>
    rw [hr] at hok herror
    cases res with
    | error e =>
      refine (herror e rfl).leaves ?_
      rintro ⟨-, -, ⟨i, hi⟩, -⟩
      cases hi
    | ok indx =>
      obtain ⟨hnot, hlt, hc, hfiles⟩ := hok indx rfl
      have hopen := (hc.hints fdp₁.fd_lastfile fdp₁.fd_freefile
        (if o.cloexec then
          Function.update fdp₁.fd_ofileflags indx (fdp₁.fd_ofileflags indx ||| UF_EXCLOSE)
        else fdp₁.fd_ofileflags)).openSlot o (Finset.mem_insert_self indx A) hlt
      -- a usable file is not the one that `falloc` has just stored
      have hiff : (∃ dfd wfp, o.p_dupfd = some dfd ∧ fdp₁.fd_ofiles dfd = some wfp ∧
          o.usable wfp = true ∧ o.subset wfp = true ∧ o.deadlk wfp = false) ↔
          (∃ i, (Except.ok indx : Except Errno ℕ) = .ok i) ∧ ∃ dfd wfp, o.p_dupfd = some dfd ∧
            fdp.fd_ofiles dfd = some wfp ∧ o.usable wfp = true ∧ o.subset wfp = true ∧
            o.deadlk wfp = false := by
        rw [and_iff_right ⟨indx, rfl⟩]
        refine exists₂_congr fun dfd wfp => and_congr_right fun _ => ?_
        rw [hfiles]
        by_cases hd : dfd = indx
        · have hnone : fdp.fd_ofiles indx = none := by
            by_contra hne
            exact hnot (h.files indx hne).1
          rw [if_pos hd, hd, hnone]
          refine iff_of_false ?_ ?_
          · rintro ⟨hw, hu, -⟩
            cases hw
            simp [hlarval] at hu
          · rintro ⟨hw, -⟩
            cases hw
        · rw [if_neg hd]
      rw [hiff] at hopen
      exact hopen

/-- The descriptor operations together with `doopenat`. -/
inductive Call (φ : Type*) where
  | table (op : Op φ)
  | doopenat (o : Open φ)

def exec (fdp : Filedesc φ) : Call φ → Filedesc φ
  | .table op => (step (fdp, allocated fdp) op).1
  | .doopenat o => (doopenat o fdp).1

/-- What the callers see to; the file that `falloc` hands out is not usable yet. -/
def Call.Valid (fdp : Filedesc φ) : Call φ → Prop
  | .table op => op.Valid (fdp, allocated fdp)
  | .doopenat o => o.usable o.fp = false

/-- A call that marks a descriptor only if it is not marked, and drops no marked one. -/
def Call.Once (fdp : Filedesc φ) : Call φ → Prop
  | .table (.finishdup _ deadlk _ new dup2) => deadlk = false → dup2 = true → ¬ Reserved fdp new
  | .table (.dodup3 _ lim usable deadlk _ old new) =>
    (∃ fp, fdp.fd_ofiles old = some fp ∧ usable fp = true) → new < lim → deadlk = false →
      ¬ Reserved fdp new
  | .table (.fdcopy _) => ∀ fd ∈ allocated fdp, fd < 32 * NDLOSLOTS (copySize fdp)
  | .table _ => True
  | .doopenat o => ¬ Granted o fdp

/-- A condition on every call of a run, in the table it finds. -/
def Throughout (P : Filedesc φ → Call φ → Prop) (fdp : Filedesc φ) : List (Call φ) → Prop
  | [] => True
  | call :: calls => P fdp call ∧ Throughout P (exec fdp call) calls

theorem Counted.exec (h : Counted fdp A k) {call : Call φ} (hvalid : call.Valid fdp) :
    Leaves (exec fdp call) k (call.Once fdp) := by
  cases call with
  | doopenat o => exact h.doopenat o hvalid
  | table op =>
    cases op with
    | fdalloc b lim want =>
      simp only [Descrip.exec, step]
      rcases h.fdalloc b lim want with ⟨i, hok, -, -, -, -, hc⟩ | ⟨e, heq⟩
      · split
        · next heq =>
          rw [heq] at hc
          exact hc.leaves trivial
        · next heq =>
          rw [heq] at hok
          cases hok
      · rw [heq]
        exact h.leaves trivial
    | falloc b lim full fp =>
      obtain ⟨hok, herror⟩ := h.falloc b lim full fp
      simp only [Descrip.exec, step]
      split
      · next i heq =>
        rw [heq] at hok
        exact (hok i rfl).2.2.1.leaves trivial
      · next e heq =>
        rw [heq] at herror
        exact (herror e rfl).leaves trivial
    | fdexpand => exact h.fdexpand.1.leaves trivial
    | finishdup fp deadlk old new dup2 =>
      obtain ⟨hnew, hmem⟩ := hvalid
      have hfin := h.finishdup fp deadlk old dup2 hnew fun hd => by
        have := hmem hd
        rwa [h.allocated_eq] at this
      have hiff : (deadlk = false → dup2 = true → fdp.fd_ofiles new = none → new ∉ A) ↔
          (Call.table (Op.finishdup fp deadlk old new dup2)).Once fdp := by
        simp only [Call.Once, Reserved, h.allocated_eq]
        constructor
        · rintro hfree hd h2 ⟨-, hA, hnone⟩
          exact hfree hd h2 hnone hA
        · intro hfree hd h2 hnone hA
          exact hfree hd h2 ⟨hnew, hA, hnone⟩
      rw [hiff] at hfin
      simp only [Descrip.exec, step]
      split
      · next heq => rwa [heq] at hfin
      · next heq => rwa [heq] at hfin
    | dodup3 b lim usable deadlk cloexec old new =>
      have hdup := h.dodup3 b lim usable deadlk cloexec old new
      simp only [Descrip.exec, step]
      split
      · next heq => rwa [heq] at hdup
      · next heq => rwa [heq] at hdup
    | fdremove fd =>
      have hmem : fd ∈ A := h.allocated_eq ▸ hvalid.1
      exact (h.remove hmem hvalid.2).leaves trivial
    | fdrelease fd =>
      simp only [Descrip.exec, step, fdrelease]
      split_ifs with hnone
      · exact h.leaves trivial
      · exact (h.remove (h.files fd (by simpa using hnone)).1 hvalid).leaves trivial
    | sysClosefrom startfd =>
      simp only [Descrip.exec, step, sysClosefrom]
      split_ifs
      · exact h.leaves trivial
      · rw [closefrom_body]
        obtain ⟨A', hloop⟩ := h.forLastfile (fun _ => true) (fdp.fd_lastfile + 1 - startfd) startfd
        exact hloop.leaves trivial
    | fdcopy leave => exact h.fdcopy leave

theorem Counted.run (h : Counted fdp A k) (calls : List (Call φ))
    (hvalid : Throughout Call.Valid fdp calls) :
    Leaves (calls.foldl Descrip.exec fdp) k (Throughout Call.Once fdp calls) := by
  induction calls generalizing fdp A k with
  | nil => exact h.leaves trivial
  | cons call calls ih =>
    obtain ⟨A₁, k₁, hc, hle, hiff⟩ := h.exec hvalid.1
    obtain ⟨A₂, k₂, hc₂, hle₂, hiff₂⟩ := ih hc hvalid.2
    refine ⟨A₂, k₂, hc₂, hle.trans hle₂, ?_⟩
    rw [Throughout, ← hiff, ← hiff₂]
    omega

/-- After any run `fd_openfd` is the number of descriptors whose bit is set if and only if
no call of the run was granted a duplicate by `dupfdopen`, put a file into a slot that was
reserved for another one, or cut off bits in a copy. -/
theorem fd_openfd_runs (calls : List (Call φ)) (hvalid : Throughout Call.Valid fdinit calls) :
    let fdp := calls.foldl exec fdinit
    fdp.fd_openfd = (allocated fdp).card ↔ Throughout Call.Once fdinit calls := by
  intro fdp
  obtain ⟨A, k, hc, -, hiff⟩ := counted_fdinit.run calls hvalid
  rw [← hiff, hc.allocated_eq, hc.openfd]
  omega

def plainOpen (fp : ℕ) : Open ℕ where
  b := fun _ => zeros
  lim := 128
  full := false
  fp := fp
  cloexec := false
  vn_open := .ok ()
  p_dupfd := none
  after := none
  refused := false
  usable := fun x => x ≠ fp
  subset := fun _ => true
  deadlk := fun _ => false

theorem fd_openfd_runs_close :
    let fdp := [Call.doopenat (plainOpen 7), .doopenat (plainOpen 8), .table (.fdrelease 0)].foldl exec
      (fdinit : Filedesc ℕ)
    fdp.fd_openfd = (allocated fdp).card :=
  (fd_openfd_runs [.doopenat (plainOpen 7), .doopenat (plainOpen 8), .table (.fdrelease 0)]
    ⟨rfl, rfl, (by decide : 0 < NDFILE), trivial⟩).mpr
    ⟨fun h => (nomatch h.1), fun h => (nomatch h.1), trivial, trivial⟩

/-- A file is opened as descriptor 0, then `/dev/fd/0`. -/
theorem fd_openfd_dev_fd :
    let calls := [Call.doopenat (plainOpen 7),
      .doopenat { plainOpen 8 with vn_open := .error .ENODEV, p_dupfd := some 0 }]
    let fdp := calls.foldl exec (fdinit : Filedesc ℕ)
    Throughout Call.Valid fdinit calls ∧ fdp.fd_openfd = 3 ∧ (allocated fdp).card = 2 := by
  intro calls fdp
  refine ⟨⟨rfl, rfl, trivial⟩, by decide +kernel, by decide +kernel⟩

end OpenbsdKernel.Descrip
