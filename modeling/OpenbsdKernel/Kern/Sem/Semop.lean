import OpenbsdKernel.Kern.Sem.Basic
import OpenbsdKernel.Kern.Sem.Adjust

/-!
# The operations of `semop`

What one turn of the outer loop of `semop` does to the array of a set and to the undo
structures: which operations it has done when it stops, and what the two rollbacks restore.
-/
namespace OpenbsdKernel.SysvSem

/-- What the operations add to semaphore `num`. -/
def opTotal (sops : List Sembuf) (num : ℕ) : BitVec 16 :=
  ((sops.filter fun sop => sop.sem_num.toNat = num).map Sembuf.sem_op).sum

@[simp] theorem opTotal_nil (num : ℕ) : opTotal [] num = 0 := rfl

theorem opTotal_cons (sop : Sembuf) (sops : List Sembuf) (num : ℕ) :
    opTotal (sop :: sops) num =
      (if sop.sem_num.toNat = num then sop.sem_op else 0) + opTotal sops num := by
  by_cases h : sop.sem_num.toNat = num <;> simp [opTotal, h]

theorem applyOps_apply (sops : List Sembuf) (sems : ℕ → Sem) (num : ℕ) :
    applyOps sops sems num = (sems num).add (opTotal sops num) := by
  induction sops generalizing sems with
  | nil => simp [applyOps, Sem.add]
  | cons sop sops ih =>
    rw [applyOps, List.foldl_cons, ← applyOps, ih, opTotal_cons, modify]
    by_cases h : sop.sem_num.toNat = num
    · subst h
      simp only [Function.update_self, Sem.add, if_true, Sem.mk.injEq, and_self, and_true]
      ring
    · simp [h, Ne.symm h]

theorem rollback_apply (sops : List Sembuf) (sems : ℕ → Sem) (num : ℕ) :
    rollback sops sems num = (sems num).sub (opTotal sops num) := by
  induction sops generalizing sems with
  | nil => simp [rollback, Sem.sub]
  | cons sop sops ih =>
    rw [rollback, List.foldl_cons, ← rollback, ih, opTotal_cons, modify]
    by_cases h : sop.sem_num.toNat = num
    · subst h
      simp only [Function.update_self, Sem.sub, if_true, Sem.mk.injEq, and_self, and_true]
      ring
    · simp [h, Ne.symm h]

theorem rollback_applyOps (sops : List Sembuf) (sems : ℕ → Sem) :
    rollback sops (applyOps sops sems) = sems := by
  funext num
  rw [rollback_apply, applyOps_apply]
  simp [Sem.add, Sem.sub]

/-- The number of operations to account for in the undo structure. -/
def undoCount (sops : List Sembuf) : ℕ := sops.countP fun sop => sop.Undoes

/-- The operations can be done one after the other. -/
def Doable (nsems : ℕ) : (ℕ → Sem) → List Sembuf → Prop
  | _, [] => True
  | sems, sop :: rest =>
    sop.sem_num.toNat < nsems ∧ ¬sop.Blocked (sems sop.sem_num.toNat) ∧
      Doable nsems (modify sems sop.sem_num.toNat (Sem.add sop.sem_op)) rest

/-- Where the loop over the operations may stop. -/
inductive PassSpec (nsems : ℕ) (done : List Sembuf) (sems : ℕ → Sem) (do_undos : ℕ)
    (sops : List Sembuf) : Pass → Prop
  | through (do_wakeup : Bool) (doable : Doable nsems sems sops) :
      PassSpec nsems done sems do_undos sops
        (.through (applyOps sops sems) (do_undos + undoCount sops) do_wakeup)
  | blocked (pre post : List Sembuf) (sop : Sembuf) (split : sops = pre ++ sop :: post) :
      PassSpec nsems done sems do_undos sops
        (.blocked (applyOps pre sems) (done ++ pre) sop (do_undos + undoCount pre))
  | efbig (pre post : List Sembuf) (sop : Sembuf) (split : sops = pre ++ sop :: post)
      (outOfRange : nsems ≤ sop.sem_num.toNat) (doable : Doable nsems sems pre) :
      PassSpec nsems done sems do_undos sops (.efbig (applyOps pre sems))

theorem Doable.inRange {nsems : ℕ} {sems : ℕ → Sem} {sops : List Sembuf} (h : Doable nsems sems sops) :
    ∀ sop ∈ sops, sop.sem_num.toNat < nsems := by
  induction sops generalizing sems with
  | nil => simp
  | cons sop rest ih =>
    simp only [List.mem_cons, forall_eq_or_imp]
    exact ⟨h.1, ih h.2.2⟩

theorem undoCount_cons (sop : Sembuf) (sops : List Sembuf) :
    undoCount (sop :: sops) = (if sop.Undoes then 1 else 0) + undoCount sops := by
  simp [undoCount, List.countP_cons, add_comm]

theorem tryOps_spec (nsems : ℕ) (done : List Sembuf) (sems : ℕ → Sem) (do_undos : ℕ) (wake : Bool)
    (sops : List Sembuf) :
    PassSpec nsems done sems do_undos sops (tryOps nsems done sems do_undos wake sops) := by
  induction sops generalizing done sems do_undos wake with
  | nil => exact .through wake trivial
  | cons sop rest ih =>
    rw [tryOps]
    by_cases hrange : nsems ≤ sop.sem_num.toNat
    · rw [if_pos hrange]
      exact .efbig [] rest sop rfl hrange trivial
    · rw [if_neg hrange]
      by_cases hblocked : sop.Blocked (sems sop.sem_num.toNat)
      · rw [if_pos hblocked]
        have h : PassSpec nsems done sems do_undos (sop :: rest) _ := .blocked [] rest sop rfl
        simpa [undoCount, applyOps] using h
      · rw [if_neg hblocked]
        have hcount : ∀ l, (if sop.Undoes then do_undos + 1 else do_undos) + undoCount l =
            do_undos + undoCount (sop :: l) := by
          intro l
          rw [undoCount_cons]
          split_ifs <;> omega
        generalize hr : tryOps nsems (done ++ [sop]) _ _ _ rest = r
        have hspec := hr ▸ ih (done ++ [sop]) (modify sems sop.sem_num.toNat (Sem.add sop.sem_op))
          (if sop.Undoes then do_undos + 1 else do_undos)
          (wake || sop.wakes (sems sop.sem_num.toNat))
        cases hspec with
        | through w hdo =>
          rw [hcount]
          exact .through w ⟨Nat.not_le.mp hrange, hblocked, hdo⟩
        | blocked pre post x hsplit =>
          rw [hcount, List.append_assoc]
          exact .blocked (sop :: pre) post x (by rw [hsplit]; rfl)
        | efbig pre post x hsplit hout hdo =>
          exact .efbig (sop :: pre) post x (by rw [hsplit]; rfl) hout
            ⟨Nat.not_le.mp hrange, hblocked, hdo⟩

variable {ρ : Type*} [DecidableEq ρ]

/-- What the undo values for set `ix` go down by. -/
def undoTotal (ix : ℕ) (sops : List Sembuf) (i : ℕ) (n : ℤ) : BitVec 16 :=
  ((sops.filter fun sop => sop.Undoes).map fun sop =>
    single ix sop.sem_num.toNat sop.sem_op i n).sum

@[simp] theorem undoTotal_nil (ix i : ℕ) (n : ℤ) : undoTotal ix [] i n = 0 := rfl

theorem undoTotal_cons_of_pos (ix : ℕ) {sop : Sembuf} (h : sop.Undoes) (sops : List Sembuf) (i : ℕ)
    (n : ℤ) : undoTotal ix (sop :: sops) i n =
      single ix sop.sem_num.toNat sop.sem_op i n + undoTotal ix sops i n := by
  simp [undoTotal, h]

theorem undoTotal_cons_of_neg (ix : ℕ) {sop : Sembuf} (h : ¬sop.Undoes) (sops : List Sembuf) (i : ℕ)
    (n : ℤ) : undoTotal ix (sop :: sops) i n = undoTotal ix sops i n := by
  simp [undoTotal, h]

theorem single_neg (ix : ℕ) (m : ℤ) (v : BitVec 16) (i : ℕ) (n : ℤ) :
    single ix m (-v) i n = -single ix m v i n := by
  unfold single
  split_ifs
  · rfl
  · rw [neg_zero]

/-- The semaphore number fits a `short` where it is kept in an undo entry. -/
def Short (sops : List Sembuf) : Prop := ∀ sop ∈ sops, sop.Undoes → sop.sem_num.toNat < 32768

theorem adjust_op_spec (info : Seminfo) (pr : ρ) (mem : Bool) {us : Undos ρ} (hg : us.Good)
    {suptr : Suptr} (hsuptr : suptr = .null ∨ suptr = .live) (ix : ℕ) {sop : Sembuf}
    (hop : sop.Undoes) (hshort : sop.sem_num.toNat < 32768) :
    AdjustSpec us pr ix sop.sem_num (-sop.sem_op) mem
      (semundoAdjust info pr mem us suptr ix sop.sem_num (-sop.sem_op.toInt)) := by
  have hneg : BitVec.ofInt 16 (-sop.sem_op.toInt) = -sop.sem_op := by
    rw [BitVec.ofInt_neg, BitVec.ofInt_toInt]
  have hne : sop.sem_op.toInt ≠ 0 := fun h => hop.2 (BitVec.toInt_inj.mp (by simpa using h))
  rw [← hneg]
  refine semundoAdjust_spec info mem hg hsuptr hshort (by simpa using hne) ?_
  rw [hneg]
  simpa using hop.2

theorem revert_op_spec (info : Seminfo) (pr : ρ) (mem : Bool) {us : Undos ρ} (hg : us.Good)
    {suptr : Suptr} (hsuptr : suptr = .null ∨ suptr = .live) (ix : ℕ) {sop : Sembuf}
    (hop : sop.Undoes) (hshort : sop.sem_num.toNat < 32768) :
    AdjustSpec us pr ix sop.sem_num sop.sem_op mem
      (semundoAdjust info pr mem us suptr ix sop.sem_num sop.sem_op.toInt) := by
  have hne : sop.sem_op.toInt ≠ 0 := fun h => hop.2 (BitVec.toInt_inj.mp (by simpa using h))
  have h : AdjustSpec us pr ix sop.sem_num (BitVec.ofInt 16 sop.sem_op.toInt) mem _ :=
    semundoAdjust_spec info mem hg hsuptr hshort hne (by rw [BitVec.ofInt_toInt]; exact hop.2)
  rwa [BitVec.ofInt_toInt] at h

theorem adjust_dangling (info : Seminfo) (pr : ρ) (mem : Bool) (us : Undos ρ) (ent : List Undo)
    (ix : ℕ) (num : BitVec 16) {adjval : ℤ} (hne : adjval ≠ 0) :
    (∃ ent', semundoAdjust info pr mem us (.dangling ent) ix num adjval = .ok us (.dangling ent') ∧
      ent'.length ≤ ent.length + 1) ∨
    (ent.length = SEMUME ∧
      semundoAdjust info pr mem us (.dangling ent) ix num adjval =
        .fail .EINVAL us (.dangling ent)) ∨
    semundoAdjust info pr mem us (.dangling ent) ix num adjval = .crash := by
  simp only [semundoAdjust]
  cases h : adjustEntries ent ix num adjval with
  | ok ent' => exact .inl ⟨ent', rfl, adjustEntries_length hne h⟩
  | full => exact .inr (.inl ⟨adjustEntries_full hne h, rfl⟩)
  | emptied => exact .inr (.inr rfl)

/-- The structures in which the undo processing ends, unless the kernel stops. -/
def Undone.undos? : Undone ρ → Option (Undos ρ)
  | .ok us => some us
  | .failed _ us => some us
  | .wait us _ _ => some us
  | .panic => none
  | .crash => none

/-- Only the entries of `pr` for the semaphores of the operations may differ. -/
structure Keeps (us us' : Undos ρ) (pr : ρ) (ix : ℕ) (sops : List Sembuf) : Prop where
  good : us'.Good
  others : ∀ q, q ≠ pr → us'.value q = us.value q
  all : ∀ Q, us.All Q → (∀ sop ∈ sops, sop.Undoes → Q ix sop.sem_num) → us'.All Q

theorem Keeps.refl {us : Undos ρ} (h : us.Good) (pr : ρ) (ix : ℕ) (sops : List Sembuf) :
    Keeps us us pr ix sops :=
  ⟨h, fun _ _ => rfl, fun _ hall _ => hall⟩

theorem Keeps.trans {us us₁ us₂ : Undos ρ} {pr : ρ} {ix : ℕ} {sops : List Sembuf}
    (h₁ : Keeps us us₁ pr ix sops) (h₂ : Keeps us₁ us₂ pr ix sops) : Keeps us us₂ pr ix sops where
  good := h₂.good
  others q hq := by rw [h₂.others q hq, h₁.others q hq]
  all Q hall hops := h₂.all Q (h₁.all Q hall hops) hops

theorem Keeps.mono {us us' : Undos ρ} {pr : ρ} {ix : ℕ} {sops sops' : List Sembuf}
    (h : Keeps us us' pr ix sops) (hsub : sops ⊆ sops') : Keeps us us' pr ix sops' where
  good := h.good
  others := h.others
  all Q hall hops := h.all Q hall fun sop hsop => hops sop (hsub hsop)

theorem Changed.others {us us' : Undos ρ} {pr : ρ} {d : ℕ → ℤ → BitVec 16}
    (h : Changed us us' pr d) (q : ρ) (hq : q ≠ pr) : us'.value q = us.value q := by
  funext i n
  rw [h.value, if_neg hq, add_zero]

theorem Changed.own {us us' : Undos ρ} {pr : ρ} {d : ℕ → ℤ → BitVec 16}
    (h : Changed us us' pr d) (i : ℕ) (n : ℤ) : us'.value pr i n = us.value pr i n + d i n := by
  rw [h.value, if_pos rfl]

theorem AdjustSpec.keeps {us us' : Undos ρ} {pr : ρ} {ix : ℕ} {sop : Sembuf} {v : BitVec 16}
    {mem : Bool} {suptr : Suptr} {sops : List Sembuf}
    (h : AdjustSpec us pr ix sop.sem_num v mem (.ok us' suptr)) (hmem : sop ∈ sops)
    (hop : sop.Undoes) : Keeps us us' pr ix sops := by
  cases h with
  | live _ hch _ hall =>
    exact ⟨hch.good, hch.others, fun Q hQ hops => hall Q hQ (hops sop hmem hop)⟩
  | freed hch _ hall => exact ⟨hch.good, hch.others, fun Q hQ _ => hall Q hQ⟩

theorem op_ne_zero {sop : Sembuf} (h : sop.Undoes) : sop.sem_op.toInt ≠ 0 :=
  fun h0 => h.2 (BitVec.toInt_inj.mp (by simpa using h0))

theorem revertUndos_keeps (info : Seminfo) (pr : ρ) (ix : ℕ) (e : Errno) (applied : List Sembuf)
    {us us' : Undos ρ} (hg : us.Good) (suptr : Suptr) (hshort : Short applied)
    (h : (revertUndos info pr ix e applied us suptr).undos? = some us') :
    Keeps us us' pr ix applied := by
  induction applied generalizing us suptr with
  | nil =>
    obtain rfl : us = us' := by simpa [revertUndos, Undone.undos?] using h
    exact Keeps.refl hg pr ix []
  | cons sop applied ih =>
    have hrest : Short applied := fun x hx => hshort x (List.mem_cons_of_mem sop hx)
    have hsub := List.subset_cons_self sop applied
    by_cases hop : sop.Undoes
    · rw [revertUndos, if_pos hop] at h
      cases suptr with
      | dangling ent =>
        obtain ⟨ent', hr, -⟩ | ⟨-, hr⟩ | hr :=
          adjust_dangling info pr true us ent ix sop.sem_num (op_ne_zero hop)
        · rw [hr] at h
          exact (ih hg _ hrest h).mono hsub
        · rw [hr] at h; cases h
        · rw [hr] at h; cases h
      | _ =>
        generalize hr : semundoAdjust info pr true us _ ix sop.sem_num sop.sem_op.toInt = r at h
        have hspec := hr ▸ revert_op_spec info pr true hg (by simp) ix hop
          (hshort sop List.mem_cons_self hop)
        cases r with
        | ok us₁ suptr₁ =>
          have hstep : Keeps us us₁ pr ix (sop :: applied) := hspec.keeps List.mem_cons_self hop
          exact hstep.trans ((ih hstep.good suptr₁ hrest h).mono hsub)
        | fail _ _ _ => cases h
        | wait _ => cases h
        | crash => cases h
    · rw [revertUndos, if_neg hop] at h
      exact (ih hg suptr hrest h).mono hsub

/-- The undo processing is about to go on from `us₁`, which is the list `us`, possibly with
a structure just allocated for an operation that is to come. -/
structure Loaded (us us₁ : Undos ρ) (pr : ρ) (suptr : Suptr) (rest : List Sembuf) : Prop where
  good : us.Good
  list : (us₁ = us ∧ (suptr = .null ∨ suptr = .live)) ∨
    (¬us.Has pr ∧ suptr = .live ∧ (∃ tot, us₁ = us.alloc pr tot) ∧ ∃ sop ∈ rest, sop.Undoes)

omit [DecidableEq ρ] in
theorem Loaded.live {us : Undos ρ} (h : us.Good) (pr : ρ) (rest : List Sembuf) :
    Loaded us us pr .live rest :=
  ⟨h, .inl ⟨rfl, .inr rfl⟩⟩

omit [DecidableEq ρ] in
theorem Loaded.nil {us us₁ : Undos ρ} {pr : ρ} {suptr : Suptr} (h : Loaded us us₁ pr suptr []) :
    us₁ = us := by
  obtain ⟨heq, -⟩ | ⟨-, -, -, sop, hsop, -⟩ := h.list
  · exact heq
  · cases hsop

omit [DecidableEq ρ] in
theorem Loaded.tail {us us₁ : Undos ρ} {pr : ρ} {suptr : Suptr} {sop : Sembuf} {rest : List Sembuf}
    (h : Loaded us us₁ pr suptr (sop :: rest)) (hop : ¬sop.Undoes) :
    Loaded us us₁ pr suptr rest := by
  refine ⟨h.good, ?_⟩
  obtain hsame | ⟨hhas, hlive, halloc, x, hx, hxop⟩ := h.list
  · exact .inl hsame
  · refine .inr ⟨hhas, hlive, halloc, x, ?_, hxop⟩
    obtain rfl | hx := List.mem_cons.mp hx
    · exact absurd hxop hop
    · exact hx

theorem Loaded.adjust {us us₁ : Undos ρ} {pr : ρ} {suptr : Suptr} {sop : Sembuf}
    {rest : List Sembuf} (h : Loaded us us₁ pr suptr (sop :: rest)) (info : Seminfo) (mem : Bool)
    (ix : ℕ) (hop : sop.Undoes) (hshort : sop.sem_num.toNat < 32768) :
    AdjustSpec us pr ix sop.sem_num (-sop.sem_op) mem
      (semundoAdjust info pr mem us₁ suptr ix sop.sem_num (-sop.sem_op.toInt)) := by
  obtain ⟨rfl, hsuptr⟩ | ⟨hhas, rfl, ⟨tot, rfl⟩, -⟩ := h.list
  · exact adjust_op_spec info pr mem h.good hsuptr ix hop hshort
  · have hneg : BitVec.ofInt 16 (-sop.sem_op.toInt) = -sop.sem_op := by
      rw [BitVec.ofInt_neg, BitVec.ofInt_toInt]
    rw [← hneg]
    simp only [semundoAdjust, us.has_alloc pr tot, if_true]
    refine adjustLive_alloc_spec h.good hhas tot hshort (by simpa using op_ne_zero hop) ?_ mem
    rw [hneg]
    simpa using hop.2

/-- What holds of the loop over the operations of the undo processing if it holds at its end
and each adjustment hands it back. -/
theorem applyUndos_keeps (info : Seminfo) (pr : ρ) (mem : Bool) (ix : ℕ)
    (applied rest : List Sembuf) {us us₁ us' : Undos ρ} {suptr : Suptr}
    (hload : Loaded us us₁ pr suptr rest ∨ us.Good ∧ us₁ = us ∧ ∃ ent, suptr = .dangling ent)
    (hshort : Short (rest ++ applied))
    (h : (applyUndos info pr mem ix applied rest us₁ suptr).undos? = some us') :
    Keeps us us' pr ix (rest ++ applied) := by
  induction rest generalizing applied us us₁ suptr with
  | nil =>
    obtain rfl : us₁ = us' := by simpa [applyUndos, Undone.undos?] using h
    obtain hload | ⟨hg, rfl, -⟩ := hload
    · obtain rfl := hload.nil
      exact Keeps.refl hload.good pr ix _
    · exact Keeps.refl hg pr ix _
  | cons sop rest ih =>
    have hperm : rest ++ sop :: applied ⊆ sop :: rest ++ applied := by
      intro x hx
      simp only [List.mem_append, List.mem_cons, List.cons_append] at hx ⊢
      tauto
    have hshort' : Short (rest ++ sop :: applied) := fun x hx => hshort x (hperm hx)
    by_cases hop : sop.Undoes
    · rw [applyUndos, if_pos hop] at h
      obtain hload | ⟨hg, rfl, ent, rfl⟩ := hload
      · generalize hr : semundoAdjust info pr mem us₁ suptr ix sop.sem_num _ = r at h
        have hspec := hr ▸ hload.adjust info mem ix hop (hshort sop (by simp) hop)
        cases r with
        | ok us₂ suptr₂ =>
          have hstep : Keeps us us₂ pr ix (sop :: rest ++ applied) := hspec.keeps (by simp) hop
          refine hstep.trans ((ih (sop :: applied) ?_ hshort' h).mono hperm)
          cases hspec with
          | live _ _ _ _ => exact .inl (Loaded.live hstep.good pr rest)
          | freed _ _ _ => exact .inr ⟨hstep.good, rfl, [], rfl⟩
        | fail e us₂ suptr₂ =>
          have hus : us₂ = us := by cases hspec <;> rfl
          subst hus
          have happlied : Short applied := fun x hx => hshort x (by simp [hx])
          exact (revertUndos_keeps info pr ix e applied hload.good suptr₂ happlied h).mono
            (List.subset_append_right _ _)
        | wait us₂ =>
          cases hspec
          obtain rfl := by simpa [Undone.undos?] using h
          exact ⟨⟨hload.good.procs, hload.good.structs⟩, fun _ _ => rfl, fun _ hall _ => hall⟩
        | crash => cases h
      · obtain ⟨ent', hr, -⟩ | ⟨-, hr⟩ | hr :=
          adjust_dangling info pr mem us₁ ent ix sop.sem_num (neg_ne_zero.mpr (op_ne_zero hop))
        · rw [hr] at h
          exact (ih (sop :: applied) (.inr ⟨hg, rfl, ent', rfl⟩) hshort' h).mono hperm
        · rw [hr] at h
          have happlied : Short applied := fun x hx => hshort x (by simp [hx])
          exact (revertUndos_keeps info pr ix _ applied hg _ happlied h).mono
            (List.subset_append_right _ _)
        · rw [hr] at h; cases h
    · rw [applyUndos, if_neg hop] at h
      refine (ih (sop :: applied) ?_ hshort' h).mono hperm
      obtain hload | hdang := hload
      · exact .inl (hload.tail hop)
      · exact .inr hdang

theorem revertUndos_ne_wait (info : Seminfo) (pr : ρ) (ix : ℕ) (e : Errno) (applied : List Sembuf)
    (us us' : Undos ρ) (suptr : Suptr) (a r : List Sembuf) :
    revertUndos info pr ix e applied us suptr ≠ .wait us' a r := by
  induction applied generalizing us suptr with
  | nil => simp [revertUndos]
  | cons sop applied ih =>
    rw [revertUndos]
    split_ifs
    · split
      · exact ih _ _
      all_goals simp
    · exact ih us suptr

/-- Once the process has a structure, the undo processing does not wait. -/
theorem applyUndos_ne_wait (info : Seminfo) (pr : ρ) (mem : Bool) (ix : ℕ)
    (applied rest : List Sembuf) (us : Undos ρ) {us' : Undos ρ} {suptr : Suptr} {a r : List Sembuf}
    (hload : (us.Good ∧ us.Has pr ∧ suptr = .live) ∨ ∃ ent, suptr = .dangling ent)
    (hshort : Short rest) : applyUndos info pr mem ix applied rest us suptr ≠ .wait us' a r := by
  induction rest generalizing applied us suptr with
  | nil => simp [applyUndos]
  | cons sop rest ih =>
    have hshort' : Short rest := fun x hx => hshort x (List.mem_cons_of_mem sop hx)
    by_cases hop : sop.Undoes
    · rw [applyUndos, if_pos hop]
      obtain ⟨hg, hhas, rfl⟩ | ⟨ent, rfl⟩ := hload
      · generalize hr : semundoAdjust info pr mem us _ ix sop.sem_num _ = res
        have hspec := hr ▸ adjust_op_spec info pr mem hg (.inr rfl) ix hop
          (hshort sop (by simp) hop)
        cases hspec with
        | live hhas' hch _ _ => exact ih (sop :: applied) _ (.inl ⟨hch.good, hhas', rfl⟩) hshort'
        | freed _ _ _ => exact ih (sop :: applied) _ (.inr ⟨[], rfl⟩) hshort'
        | full _ => exact revertUndos_ne_wait info pr ix _ applied us us' _ a r
        | exhausted _ => exact revertUndos_ne_wait info pr ix _ applied us us' _ a r
        | wait hno _ => exact absurd hhas hno
      · obtain ⟨ent', hr, -⟩ | ⟨-, hr⟩ | hr :=
          adjust_dangling info pr mem us ent ix sop.sem_num (neg_ne_zero.mpr (op_ne_zero hop))
        · rw [hr]
          exact ih (sop :: applied) us (.inr ⟨ent', rfl⟩) hshort'
        · rw [hr]
          exact revertUndos_ne_wait info pr ix _ applied us us' _ a r
        · rw [hr]
          simp
    · rw [applyUndos, if_neg hop]
      exact ih (sop :: applied) us hload hshort'

/-- The undo processing waits at its first operation to account for. -/
theorem applyUndos_wait {info : Seminfo} {pr : ρ} {mem : Bool} {ix : ℕ}
    {applied rest a r : List Sembuf} {us us₁ us' : Undos ρ} {suptr : Suptr}
    (hload : Loaded us us₁ pr suptr rest) (hshort : Short rest)
    (h : applyUndos info pr mem ix applied rest us₁ suptr = .wait us' a r) :
    a.reverse ++ r = applied.reverse ++ rest ∧ (∀ x ∈ a, x ∈ applied ∨ ¬x.Undoes) ∧
      (∃ sop ∈ r, sop.Undoes) ∧ us'.semu_list = us.semu_list := by
  induction rest generalizing applied with
  | nil => simp [applyUndos] at h
  | cons sop rest ih =>
    have hshort' : Short rest := fun x hx => hshort x (List.mem_cons_of_mem sop hx)
    by_cases hop : sop.Undoes
    · rw [applyUndos, if_pos hop] at h
      generalize hr : semundoAdjust info pr mem us₁ suptr ix sop.sem_num _ = res at h
      have hspec := hr ▸ hload.adjust info mem ix hop (hshort sop (by simp) hop)
      cases hspec with
      | live hhas hch _ _ =>
        exact (applyUndos_ne_wait info pr mem ix _ rest _ (.inl ⟨hch.good, hhas, rfl⟩) hshort' h).elim
      | freed _ _ _ =>
        exact (applyUndos_ne_wait info pr mem ix _ rest _ (.inr ⟨[], rfl⟩) hshort' h).elim
      | full _ => exact (revertUndos_ne_wait info pr ix _ applied _ us' _ a r h).elim
      | exhausted _ => exact (revertUndos_ne_wait info pr ix _ applied _ us' _ a r h).elim
      | wait _ _ =>
        obtain ⟨rfl, rfl, rfl⟩ := Undone.wait.inj h
        exact ⟨rfl, fun x hx => .inl hx, ⟨sop, List.mem_cons_self, hop⟩, rfl⟩
    · rw [applyUndos, if_neg hop] at h
      obtain ⟨hsplit, hnone, hsome⟩ := ih (hload.tail hop) hshort' h
      refine ⟨by simpa using hsplit, ?_, hsome⟩
      intro x hx
      obtain hx | hx := hnone x hx
      · obtain rfl | hx := List.mem_cons.mp hx
        · exact .inr hop
        · exact .inl hx
      · exact .inr hx

/-- Along the adjustments `applied`, the last one first, from the undo values `v₀`, the
structure was never emptied. -/
def Steady (v₀ : ℕ → ℤ → BitVec 16) (ix : ℕ) : List Sembuf → Prop
  | [] => True
  | sop :: applied =>
    Steady v₀ ix applied ∧
      (sop.Undoes → ∃ i n, v₀ i n - undoTotal ix (sop :: applied) i n ≠ 0)

theorem Steady.ne {v₀ : ℕ → ℤ → BitVec 16} {ix : ℕ} {applied : List Sembuf}
    (h : Steady v₀ ix applied) (hop : ∃ sop ∈ applied, sop.Undoes) :
    ∃ i n, v₀ i n - undoTotal ix applied i n ≠ 0 := by
  induction applied with
  | nil => simp at hop
  | cons sop applied ih =>
    by_cases hsop : sop.Undoes
    · exact h.2 hsop
    · simp only [undoTotal_cons_of_neg ix hsop]
      refine ih h.1 ?_
      simpa [hsop] using hop

theorem undoTotal_eq_zero {sops : List Sembuf} (h : ∀ sop ∈ sops, ¬sop.Undoes) (ix i : ℕ) (n : ℤ) :
    undoTotal ix sops i n = 0 := by
  have hnil : sops.filter (fun sop => sop.Undoes) = [] := by
    rw [List.filter_eq_nil_iff]
    intro sop hsop
    simpa using h sop hsop
  simp [undoTotal, hnil]

theorem revertUndos_of_none (info : Seminfo) (pr : ρ) (ix : ℕ) (e : Errno) {applied : List Sembuf}
    (us : Undos ρ) (suptr : Suptr) (h : ∀ sop ∈ applied, ¬sop.Undoes) :
    revertUndos info pr ix e applied us suptr = .failed e us := by
  induction applied with
  | nil => rfl
  | cons sop applied ih =>
    rw [revertUndos, if_neg (h sop List.mem_cons_self)]
    exact ih fun x hx => h x (List.mem_cons_of_mem sop hx)

theorem applyUndos_of_none (info : Seminfo) (pr : ρ) (mem : Bool) (ix : ℕ)
    (applied : List Sembuf) {rest : List Sembuf} (us : Undos ρ) (suptr : Suptr)
    (h : ∀ sop ∈ rest, ¬sop.Undoes) :
    applyUndos info pr mem ix applied rest us suptr = .ok us := by
  induction rest generalizing applied with
  | nil => rfl
  | cons sop rest ih =>
    rw [applyUndos, if_neg (h sop List.mem_cons_self)]
    exact ih (sop :: applied) fun x hx => h x (List.mem_cons_of_mem sop hx)

theorem revertUndos_ne_ok (info : Seminfo) (pr : ρ) (ix : ℕ) (e : Errno) (applied : List Sembuf)
    (us us' : Undos ρ) (suptr : Suptr) : revertUndos info pr ix e applied us suptr ≠ .ok us' := by
  induction applied generalizing us suptr with
  | nil => simp [revertUndos]
  | cons sop applied ih =>
    rw [revertUndos]
    split_ifs
    · split
      · exact ih _ _
      all_goals simp
    · exact ih us suptr

/-- The adjustments are taken back in full: on the way back the structure holds what it
held on the way forth, so it is not emptied before the last of them. -/
theorem revertUndos_value (info : Seminfo) (pr : ρ) (ix : ℕ) {e e' : Errno}
    (applied : List Sembuf) {us us' : Undos ρ} (hg : us.Good) {suptr : Suptr}
    (hsuptr : suptr = .null ∨ suptr = .live) (hshort : Short applied)
    {v₀ : ℕ → ℤ → BitVec 16} (hval : ∀ i n, us.value pr i n = v₀ i n - undoTotal ix applied i n)
    (hsteady : Steady v₀ ix applied)
    (h : revertUndos info pr ix e applied us suptr = .failed e' us') (i : ℕ) (n : ℤ) :
    us'.value pr i n = v₀ i n := by
  induction applied generalizing us suptr with
  | nil =>
    obtain ⟨-, rfl⟩ : e = e' ∧ us = us' := by simpa [revertUndos] using h
    rw [hval, undoTotal_nil, sub_zero]
  | cons sop applied ih =>
    have hrest : Short applied := fun x hx => hshort x (List.mem_cons_of_mem sop hx)
    by_cases hop : sop.Undoes
    · rw [revertUndos, if_pos hop] at h
      generalize hr : semundoAdjust info pr true us suptr ix sop.sem_num sop.sem_op.toInt = r at h
      have hspec := hr ▸ revert_op_spec info pr true hg hsuptr ix hop
        (hshort sop List.mem_cons_self hop)
      have hback : ∀ us₁, Changed us us₁ pr (single ix sop.sem_num.toNat sop.sem_op) →
          ∀ i n, us₁.value pr i n = v₀ i n - undoTotal ix applied i n := by
        intro us₁ hch i n
        rw [hch.own, hval, undoTotal_cons_of_pos ix hop]
        ring
      cases hspec with
      | live _ hch _ _ => exact ih hch.good (.inr rfl) hrest (hback _ hch) hsteady.1 h
      | freed hch hzero _ =>
        have hnone : ∀ x ∈ applied, ¬x.Undoes := by
          by_contra hsome
          push Not at hsome
          obtain ⟨i, n, hne⟩ := hsteady.1.ne hsome
          exact hne (by rw [← hback _ hch, hzero])
        simp only [revertUndos_of_none info pr ix e _ _ hnone] at h
        obtain ⟨-, rfl⟩ := Undone.failed.inj h
        rw [hback _ hch, undoTotal_eq_zero hnone, sub_zero]
      | full _ => cases h
      | exhausted _ => cases h
      | wait _ _ => cases h
    · rw [revertUndos, if_neg hop] at h
      simp only [undoTotal_cons_of_neg ix hop] at hval
      exact ih hg hsuptr hrest hval hsteady.1 h

/-- An undo processing that fails has no effect on the undo values. A structure that has
been freed under the call cannot fill up, for want of operations. -/
theorem applyUndos_failed_value (info : Seminfo) (pr : ρ) (mem : Bool) (ix : ℕ)
    (applied rest : List Sembuf) (us : Undos ρ) {us₁ us' : Undos ρ} {suptr : Suptr} {e : Errno}
    {v₀ : ℕ → ℤ → BitVec 16}
    (hload : (Loaded us us₁ pr suptr rest ∧ undoCount rest ≤ SEMUME ∧ Steady v₀ ix applied ∧
        ∀ i n, us.value pr i n = v₀ i n - undoTotal ix applied i n) ∨
      ∃ ent, suptr = .dangling ent ∧ ent.length + undoCount rest < SEMUME)
    (hshort : Short (rest ++ applied))
    (h : applyUndos info pr mem ix applied rest us₁ suptr = .failed e us') (i : ℕ) (n : ℤ) :
    us'.value pr i n = v₀ i n := by
  induction rest generalizing applied us us₁ suptr with
  | nil => simp [applyUndos] at h
  | cons sop rest ih =>
    have hshort' : Short (rest ++ sop :: applied) := by
      intro x hx
      refine hshort x ?_
      simp only [List.mem_append, List.mem_cons, List.cons_append] at hx ⊢
      tauto
    by_cases hop : sop.Undoes
    · have hcount : undoCount (sop :: rest) = undoCount rest + 1 := by
        rw [undoCount_cons, if_pos hop, add_comm]
      rw [applyUndos, if_pos hop] at h
      obtain ⟨hload, hle, hsteady, hval⟩ | ⟨ent, rfl, hroom⟩ := hload
      · generalize hr : semundoAdjust info pr mem us₁ suptr ix sop.sem_num _ = r at h
        have hspec := hr ▸ hload.adjust info mem ix hop (hshort sop (by simp) hop)
        cases hspec with
        | @live us₂ hhas hch _ _ =>
          have hnext : ∀ i n, us₂.value pr i n = v₀ i n - undoTotal ix (sop :: applied) i n := by
            intro i n
            rw [hch.own, hval, undoTotal_cons_of_pos ix hop, single_neg]
            ring
          refine ih (sop :: applied) us₂ (.inl ⟨Loaded.live hch.good pr rest, by omega, ⟨hsteady, ?_⟩, hnext⟩)
            hshort' h
          intro _
          obtain ⟨i, n, hne⟩ := hch.good.value_ne hhas
          exact ⟨i, n, by rwa [← hnext]⟩
        | freed _ _ _ =>
          refine ih (sop :: applied) us (.inr ⟨[], rfl, ?_⟩) hshort' h
          rw [List.length_nil]
          omega
        | full _ =>
          exact revertUndos_value info pr ix applied hload.good (.inr rfl)
            (fun x hx => hshort x (by simp [hx])) hval hsteady h i n
        | exhausted _ =>
          exact revertUndos_value info pr ix applied hload.good (.inl rfl)
            (fun x hx => hshort x (by simp [hx])) hval hsteady h i n
        | wait _ _ => cases h
      · obtain ⟨ent', hr, hlen⟩ | ⟨hfull, -⟩ | hr :=
          adjust_dangling info pr mem us₁ ent ix sop.sem_num (neg_ne_zero.mpr (op_ne_zero hop))
        · rw [hr] at h
          exact ih (sop :: applied) us (.inr ⟨ent', rfl, by omega⟩) hshort' h
        · omega
        · rw [hr] at h; cases h
    · rw [applyUndos, if_neg hop] at h
      have hcount : undoCount (sop :: rest) = undoCount rest := by
        rw [undoCount_cons, if_neg hop, zero_add]
      refine ih (sop :: applied) us ?_ hshort' h
      obtain ⟨hload, hle, hsteady, hval⟩ | ⟨ent, rfl, hroom⟩ := hload
      · refine .inl ⟨hload.tail hop, by omega, ⟨hsteady, fun h => absurd h hop⟩, ?_⟩
        simpa only [undoTotal_cons_of_neg ix hop] using hval
      · exact .inr ⟨ent, rfl, by omega⟩

/-- No operation but the last one to be accounted for empties the structure of `pr`. -/
def NotEmptied (v₀ : ℕ → ℤ → BitVec 16) (ix : ℕ) (sops : List Sembuf) : Prop :=
  ∀ a b, sops = a ++ b → (∃ sop ∈ a, sop.Undoes) → (∃ sop ∈ b, sop.Undoes) →
    ∃ i n, v₀ i n - undoTotal ix a i n ≠ 0

theorem NotEmptied.tail {v₀ v₁ : ℕ → ℤ → BitVec 16} {ix : ℕ} {sop : Sembuf} {rest : List Sembuf}
    (h : NotEmptied v₀ ix (sop :: rest))
    (hv : ∀ a i n, v₁ i n - undoTotal ix a i n = v₀ i n - undoTotal ix (sop :: a) i n) :
    NotEmptied v₁ ix rest := by
  rintro a b rfl ⟨x, hx, hxop⟩ hb
  obtain ⟨i, n, hne⟩ := h (sop :: a) b rfl ⟨x, List.mem_cons_of_mem sop hx, hxop⟩ hb
  exact ⟨i, n, by rwa [hv]⟩

theorem applyUndos_ok_value (info : Seminfo) (pr : ρ) (mem : Bool) (ix : ℕ)
    (applied rest : List Sembuf) {us us₁ us' : Undos ρ} {suptr : Suptr}
    (hload : Loaded us us₁ pr suptr rest) (hshort : Short rest)
    (hfull : NotEmptied (us.value pr) ix rest)
    (h : applyUndos info pr mem ix applied rest us₁ suptr = .ok us') (i : ℕ) (n : ℤ) :
    us'.value pr i n = us.value pr i n - undoTotal ix rest i n := by
  induction rest generalizing applied us us₁ suptr with
  | nil =>
    obtain rfl : us₁ = us' := by simpa [applyUndos] using h
    rw [hload.nil, undoTotal_nil, sub_zero]
  | cons sop rest ih =>
    have hshort' : Short rest := fun x hx => hshort x (List.mem_cons_of_mem sop hx)
    by_cases hop : sop.Undoes
    · rw [applyUndos, if_pos hop] at h
      generalize hr : semundoAdjust info pr mem us₁ suptr ix sop.sem_num _ = r at h
      have hspec := hr ▸ hload.adjust info mem ix hop (hshort sop (by simp) hop)
      have hnext : ∀ us₂, Changed us us₂ pr (single ix sop.sem_num.toNat (-sop.sem_op)) →
          ∀ a i n, us₂.value pr i n - undoTotal ix a i n =
            us.value pr i n - undoTotal ix (sop :: a) i n := by
        intro us₂ hch a i n
        rw [hch.own, undoTotal_cons_of_pos ix hop, single_neg]
        ring
      cases hspec with
      | @live us₂ hhas hch _ _ =>
        rw [ih (sop :: applied) (Loaded.live hch.good pr rest) hshort'
          (hfull.tail (hnext us₂ hch)) h, hnext us₂ hch]
      | @freed us₂ hch hzero _ =>
        have hnone : ∀ x ∈ rest, ¬x.Undoes := by
          by_contra hsome
          push Not at hsome
          obtain ⟨i, n, hne⟩ := hfull [sop] rest rfl ⟨sop, by simp, hop⟩ hsome
          rw [← hnext us₂ hch, hzero, undoTotal_nil, sub_zero] at hne
          exact hne rfl
        simp only [applyUndos_of_none info pr mem ix _ _ _ hnone] at h
        obtain rfl := Undone.ok.inj h
        rw [← hnext us₂ hch, undoTotal_eq_zero hnone, sub_zero]
      | full _ => exact (revertUndos_ne_ok info pr ix _ applied us us' _ h).elim
      | exhausted _ => exact (revertUndos_ne_ok info pr ix _ applied us us' _ h).elim
      | wait _ _ => cases h
    · rw [applyUndos, if_neg hop] at h
      have hsame : ∀ a i n, us.value pr i n - undoTotal ix a i n =
          us.value pr i n - undoTotal ix (sop :: a) i n := by
        intro a i n
        rw [undoTotal_cons_of_neg ix hop]
      rw [ih (sop :: applied) (hload.tail hop) hshort' (hfull.tail hsame) h, hsame]

theorem adjustLive_ne_exhausted (pr : ρ) (us us' : Undos ρ) (ix : ℕ) (num : BitVec 16) (adjval : ℤ)
    (suptr : Suptr) : adjustLive pr us ix num adjval ≠ .fail .ENOSPC us' suptr := by
  unfold adjustLive
  split <;> simp

/-- With room for all its operations in the structure of the process, the undo processing
does not fail. -/
theorem applyUndos_room (info : Seminfo) (pr : ρ) (mem : Bool) (ix : ℕ) (applied rest : List Sembuf)
    (us : Undos ρ) {us₁ us' : Undos ρ} {suptr : Suptr} {e : Errno}
    (hload : (Loaded us us₁ pr suptr rest ∧ us₁.Has pr ∧
        (us.entries pr).length + undoCount rest ≤ SEMUME) ∨
      ∃ ent, suptr = .dangling ent ∧ ent.length + undoCount rest ≤ SEMUME)
    (hshort : Short rest) :
    applyUndos info pr mem ix applied rest us₁ suptr ≠ .failed e us' := by
  induction rest generalizing applied us us₁ suptr with
  | nil => simp [applyUndos]
  | cons sop rest ih =>
    have hshort' : Short rest := fun x hx => hshort x (List.mem_cons_of_mem sop hx)
    by_cases hop : sop.Undoes
    · have hcount : undoCount (sop :: rest) = undoCount rest + 1 := by
        rw [undoCount_cons, if_pos hop, add_comm]
      rw [applyUndos, if_pos hop]
      obtain ⟨hload, hhas, hroom⟩ | ⟨ent, rfl, hroom⟩ := hload
      · generalize hr : semundoAdjust info pr mem us₁ suptr ix sop.sem_num _ = r
        have hspec := hr ▸ hload.adjust info mem ix hop (hshort sop (by simp) hop)
        cases hspec with
        | live hhas' hch hlen _ =>
          exact ih (sop :: applied) _ (.inl ⟨Loaded.live hch.good pr rest, hhas', by omega⟩) hshort'
        | freed _ _ _ =>
          refine ih (sop :: applied) us (.inr ⟨[], rfl, ?_⟩) hshort'
          rw [List.length_nil]
          omega
        | full hfull => omega
        | exhausted _ =>
          have hlive : semundoAdjust info pr mem us₁ suptr ix sop.sem_num (-sop.sem_op.toInt) =
              adjustLive pr us₁ ix sop.sem_num (-sop.sem_op.toInt) := by
            obtain ⟨-, rfl | rfl⟩ | ⟨-, rfl, -⟩ := hload.list <;> simp [semundoAdjust, hhas]
          rw [hlive] at hr
          exact (adjustLive_ne_exhausted pr us₁ us ix _ _ _ hr).elim
        | wait _ _ => simp
      · obtain ⟨ent', hr, hlen⟩ | ⟨hfull, -⟩ | hr :=
          adjust_dangling info pr mem us₁ ent ix sop.sem_num (neg_ne_zero.mpr (op_ne_zero hop))
        · rw [hr]
          exact ih (sop :: applied) us (.inr ⟨ent', rfl, by omega⟩) hshort'
        · omega
        · rw [hr]; simp
    · rw [applyUndos, if_neg hop]
      have hcount : undoCount (sop :: rest) = undoCount rest := by
        rw [undoCount_cons, if_neg hop, zero_add]
      refine ih (sop :: applied) us ?_ hshort'
      obtain ⟨hload, hhas, hroom⟩ | ⟨ent, rfl, hroom⟩ := hload
      · exact .inl ⟨hload.tail hop, hhas, by omega⟩
      · exact .inr ⟨ent, rfl, by omega⟩

section Turn

variable {τ : Type*} [DecidableEq τ]

omit [DecidableEq τ] [DecidableEq ρ] in
@[simp] theorem setSems_sems (s : State τ ρ) (a : ℕ) : s.setSems a (s.sems a) = s := by
  simp [State.setSems, State.sems, Function.update_eq_self]

omit [DecidableEq τ] [DecidableEq ρ] in
@[simp] theorem sems_setSems (s : State τ ρ) (a : ℕ) (sems : ℕ → Sem) :
    (s.setSems a sems).sems a = sems := by
  simp [State.setSems, State.sems]

omit [DecidableEq τ] [DecidableEq ρ] in
@[simp] theorem setSems_setSems (s : State τ ρ) (a : ℕ) (sems sems' : ℕ → Sem) :
    (s.setSems a sems).setSems a sems' = s.setSems a sems' := by
  simp [State.setSems]

/-- How a turn of the outer loop ends. Only at a semaphore number out of range are
operations left that have been done and are not paid for by success. -/
inductive TurnSpec (info : Seminfo) (pr : ρ) (mem : Bool) (s : State τ ρ) (t : τ) (u : Target)
    (sops : List Sembuf) : State τ ρ × Outcome → Prop
  | efbig (pre post : List Sembuf) (sop : Sembuf) (split : sops = pre ++ sop :: post)
      (outOfRange : (s.items u.semaptr).sem_nsems ≤ sop.sem_num.toNat)
      (doable : Doable (s.items u.semaptr).sem_nsems (s.sems u.semaptr) pre) :
      TurnSpec info pr mem s t u sops
        ((s.setSems u.semaptr (applyOps pre (s.sems u.semaptr))).setCall t none, .failed .EFBIG)
  | failed (e : Errno) : TurnSpec info pr mem s t u sops (s.setCall t none, .failed e)
  | asleep (num do_undos : ℕ) (zero : Bool) :
      TurnSpec info pr mem s t u sops
        ((s.setSems u.semaptr (modify (s.sems u.semaptr) num (Sem.count zero 1#16))).setCall t
          (some (.asleep u sops do_undos (s.items u.semaptr).sem_base num zero false)), .pending)
  | through (do_wakeup : Bool)
      (doable : Doable (s.items u.semaptr).sem_nsems (s.sems u.semaptr) sops) (count : undoCount sops ≤ SEMUME) :
      TurnSpec info pr mem s t u sops
        (semopEnd (s.setSems u.semaptr (applyOps sops (s.sems u.semaptr))) t u sops do_wakeup
          (applyUndos info pr mem u.ix [] sops s.undos .null))

theorem semopPass_spec (info : Seminfo) (pr : ρ) (mem : Bool) (s : State τ ρ) (t : τ) (u : Target)
    (sops : List Sembuf) (do_undos : ℕ) :
    TurnSpec info pr mem s t u sops (semopPass info pr mem s t u sops do_undos) := by
  unfold semopPass
  have hspec := tryOps_spec (s.items u.semaptr).sem_nsems [] (s.sems u.semaptr) do_undos false sops
  generalize tryOps (s.items u.semaptr).sem_nsems [] (s.sems u.semaptr) do_undos false sops = r
    at hspec
  cases hspec with
  | efbig pre post sop hsplit hout hdo => exact .efbig pre post sop hsplit hout hdo
  | through wake hdo =>
    dsimp only
    split_ifs with hle hzero
    · have hnone : ∀ sop ∈ sops, ¬sop.Undoes := by
        have hcount : undoCount sops = 0 := by omega
        simpa [undoCount, List.countP_eq_zero] using hcount
      rw [← applyUndos_of_none info pr mem u.ix [] s.undos .null hnone]
      exact .through wake hdo (by omega)
    · exact .through wake hdo (by omega)
    · rw [rollback_applyOps, setSems_sems]
      exact .failed .ENOSPC
  | blocked pre post sop hsplit =>
    dsimp only
    rw [List.nil_append, rollback_applyOps, setSems_sems]
    split_ifs
    · exact .failed .ENOSPC
    · exact .failed .EAGAIN
    · exact .asleep sop.sem_num.toNat _ _

end Turn

end OpenbsdKernel.SysvSem
