import Mathlib.Data.Finset.Basic
import OpenbsdKernel.Kern.Descrip.Ops

/-!
# Runs of a descriptor table

Every sequence of table operations keeps the maps and `fd_freefile` in step with the
allocated descriptors. `fd_lastfile` follows the files: it is the largest allocated
descriptor as long as no descriptor is removed while another one is still waiting for
its file.
-/
namespace OpenbsdKernel.Descrip

variable {φ : Type*}

/-- The operations, each with what it reads outside the table. -/
inductive Op (φ : Type*) where
  | fdalloc (b : Beyond) (lim want : ℕ)
  | falloc (b : ℕ → Beyond) (lim : ℕ) (full : Bool) (fp : φ)
  | fdexpand
  | finishdup (fp : φ) (deadlk : Bool) (old new : ℕ) (dup2 : Bool)
  | dodup3 (b : Beyond) (lim : ℕ) (usable : φ → Bool) (deadlk cloexec : Bool) (old new : ℕ)
  | fdremove (fd : ℕ)
  | fdrelease (fd : ℕ)
  | sysClosefrom (startfd : ℕ)
  | fdcopy (leave : φ → Bool)

/-- A table together with the descriptors that are allocated in it: those handed out and
not taken back. After `fdcopy` the run goes on in the copy. -/
abbrev State (φ : Type*) : Type _ := Filedesc φ × Finset ℕ

def step (s : State φ) : Op φ → State φ
  | .fdalloc b lim want =>
    match fdalloc s.1 b lim want with
    | (fdp, .ok i) => (fdp, insert i s.2)
    | (fdp, .error _) => (fdp, s.2)
  | .falloc b lim full fp =>
    match falloc b lim full fp s.1 with
    | (fdp, .ok i) => (fdp, insert i s.2)
    | (fdp, .error _) => (fdp, s.2)
  | .fdexpand => (fdexpand s.1, s.2)
  | .finishdup fp deadlk old new dup2 =>
    match finishdup s.1 fp deadlk old new dup2 with
    | (fdp, .ok i) => (fdp, insert i s.2)
    | (fdp, .error _) => (fdp, s.2)
  | .dodup3 b lim usable deadlk cloexec old new =>
    match dodup3 s.1 b lim usable deadlk cloexec old new with
    | (fdp, .dup i) => (fdp, insert i s.2)
    | (fdp, _) => (fdp, s.2)
  | .fdremove fd => (fdremove s.1 fd, s.2.erase fd)
  | .fdrelease fd =>
    match fdrelease s.1 fd with
    | (fdp, .ok _) => (fdp, s.2.erase fd)
    | (fdp, .error _) => (fdp, s.2)
  | .sysClosefrom startfd =>
    match sysClosefrom s.1 startfd with
    | (fdp, .ok _) =>
      (fdp, s.2.filter fun fd =>
        ¬ (startfd ≤ fd ∧ fd ≤ s.1.fd_lastfile ∧ (s.1.fd_ofiles fd).isSome))
    | (fdp, .error _) => (fdp, s.2)
  | .fdcopy leave =>
    (fdcopy leave s.1, s.2.filter fun fd => ¬ ((s.1.fd_ofiles fd).any leave = true))

def run (s : State φ) (ops : List (Op φ)) : State φ := ops.foldl step s

/-- What the callers see to: a descriptor is below the size of the table, and one that
is given a file or removed is allocated. -/
def Op.Valid (s : State φ) : Op φ → Prop
  | .finishdup _ _ _ new dup2 => new < s.1.fd_nfiles ∧ (dup2 = false → new ∈ s.2)
  | .fdremove fd => fd ∈ s.2 ∧ fd < s.1.fd_nfiles
  | .fdrelease fd => fd < s.1.fd_nfiles
  | _ => True

def Settled (s : State φ) : Prop := ∀ x ∈ s.2, s.1.fd_ofiles x ≠ none

def Op.Careful (s : State φ) : Op φ → Prop
  | .falloc _ _ full _ => full = true → Settled s
  | .fdremove fd => ∀ x ∈ s.2, x ≠ fd → s.1.fd_ofiles x ≠ none
  | .fdrelease fd => s.1.fd_ofiles fd ≠ none → Settled s
  | .sysClosefrom startfd =>
    (∃ fd, startfd ≤ fd ∧ fd ≤ s.1.fd_lastfile ∧ s.1.fd_ofiles fd ≠ none) → Settled s
  | .fdcopy leave => (Left s.1 leave).Nonempty → Settled s
  | _ => True

/-- A table is copied while `fd_lastfile` bounds its descriptors. -/
def Op.Bounded (s : State φ) : Op φ → Prop
  | .fdcopy _ => Top s.1 s.2
  | _ => True

/-- A condition on every operation of a run, in the state it finds. -/
def Along (P : State φ → Op φ → Prop) (s : State φ) : List (Op φ) → Prop
  | [] => True
  | op :: ops => P s op ∧ Along P (step s op) ops

theorem closefrom_body :
    (fun (fdp : Filedesc φ) i => (fdrelease fdp i).1) = removeChosen fun _ => true := by
  funext fdp i
  unfold fdrelease removeChosen
  cases fdp.fd_ofiles i <;> rfl

theorem coe_filter_left (fdp : Filedesc φ) (A : Finset ℕ) (leave : φ → Bool) :
    ((A.filter fun fd => ¬ ((fdp.fd_ofiles fd).any leave = true) : Finset ℕ) : Set ℕ) =
      (A : Set ℕ) \ Left fdp leave := by
  ext x
  simp only [Finset.coe_filter, Set.mem_ofPred_eq, Set.mem_sdiff, Finset.mem_coe, Left]
  apply and_congr_right
  intro _
  cases fdp.fd_ofiles x <;> simp

theorem coe_filter_chosen (fdp : Filedesc φ) (A : Finset ℕ) (startfd : ℕ) :
    ((A.filter fun fd => ¬ (startfd ≤ fd ∧ fd ≤ fdp.fd_lastfile ∧ (fdp.fd_ofiles fd).isSome) :
        Finset ℕ) : Set ℕ) = (A : Set ℕ) \ Chosen fdp (fun _ => true) startfd := by
  ext x
  simp only [Finset.coe_filter, Set.mem_ofPred_eq, Set.mem_sdiff, Finset.mem_coe, Chosen]
  apply and_congr_right
  intro _
  cases fdp.fd_ofiles x <;> simp

/-- A step other than `fdcopy` keeps the invariant, and a careful one keeps
`fd_lastfile` on top. -/
theorem inv_step {s : State φ} (h : Inv s.1 s.2) {op : Op φ} (hvalid : op.Valid s)
    (hcopy : ∀ leave, op ≠ .fdcopy leave) :
    Inv (step s op).1 (step s op).2 ∧
      (op.Careful s → Top s.1 s.2 → Top (step s op).1 (step s op).2) := by
  cases op with
  | fdalloc b lim want =>
    simp only [step]
    cases hr : fdalloc s.1 b lim want with
    | mk fdp res =>
      cases res with
      | ok i =>
        have hok := h.fdalloc (by rw [hr] : (Descrip.fdalloc s.1 b lim want).2 = .ok i)
        rw [hr] at hok
        rw [Finset.coe_insert]
        exact ⟨hok.1, fun _ ht => hok.2.2.2.2.2 ht⟩
      | error e =>
        rcases fdalloc_spec h.maps b lim want with ⟨i, want', heq, -⟩ | heq
        · rw [heq] at hr
          cases hr
        · rw [heq] at hr
          cases hr
          exact ⟨h, fun _ ht => ht⟩
  | falloc b lim full fp =>
    have hfalloc := h.falloc b lim full fp
    simp only [step]
    cases hr : falloc b lim full fp s.1 with
    | mk fdp res =>
      rw [hr] at hfalloc
      cases res with
      | ok i =>
        obtain ⟨-, -, hinv, htop⟩ := hfalloc.1 i rfl
        rw [Finset.coe_insert]
        exact ⟨hinv, fun _ ht => htop ht⟩
      | error e =>
        obtain ⟨hinv, htop⟩ := hfalloc.2 e rfl
        exact ⟨hinv, fun hcareful ht => htop ht hcareful⟩
  | fdexpand => exact ⟨h.fdexpand.1, fun _ ht => h.fdexpand.2.2.2 ht⟩
  | finishdup fp deadlk old new dup2 =>
    have hfin := h.finishdup fp deadlk old dup2 hvalid.1 hvalid.2
    simp only [step]
    cases hr : finishdup s.1 fp deadlk old new dup2 with
    | mk fdp res =>
      rw [hr] at hfin
      cases res with
      | ok i =>
        obtain ⟨rfl, hinv, htop⟩ := hfin.1 i rfl
        rw [Finset.coe_insert]
        exact ⟨hinv, fun _ ht => htop ht⟩
      | error e =>
        have hsame := hfin.2 e rfl
        simp only at hsame ⊢
        rw [hsame]
        exact ⟨h, fun _ ht => ht⟩
  | dodup3 b lim usable deadlk cloexec old new =>
    have hdup := h.dodup3 b lim usable deadlk cloexec old new
    simp only [step]
    cases hr : dodup3 s.1 b lim usable deadlk cloexec old new with
    | mk fdp res =>
      rw [hr] at hdup
      cases res with
      | dup i =>
        obtain ⟨rfl, hinv, htop⟩ := hdup.1 i rfl
        rw [Finset.coe_insert]
        exact ⟨hinv, fun _ ht => htop ht⟩
      | restart =>
        obtain ⟨hinv, htop⟩ := hdup.2 fun i hi => by cases hi
        exact ⟨hinv, fun _ ht => htop ht⟩
      | failed e =>
        obtain ⟨hinv, htop⟩ := hdup.2 fun i hi => by cases hi
        exact ⟨hinv, fun _ ht => htop ht⟩
      | panic =>
        obtain ⟨hinv, htop⟩ := hdup.2 fun i hi => by cases hi
        exact ⟨hinv, fun _ ht => htop ht⟩
  | fdremove fd =>
    simp only [step, Finset.coe_erase]
    exact ⟨h.remove hvalid.1 hvalid.2, fun hcareful ht => Top.remove h.maps ht hcareful⟩
  | fdrelease fd =>
    simp only [step, fdrelease]
    split_ifs with hnone
    · exact ⟨h, fun _ ht => ht⟩
    · have hfile : s.1.fd_ofiles fd ≠ none := by simpa using hnone
      simp only [Finset.coe_erase]
      refine ⟨h.remove (h.files fd hfile).1 hvalid, fun hcareful ht => ?_⟩
      exact Top.remove h.maps ht fun x hx _ => hcareful hfile x hx
  | sysClosefrom startfd =>
    simp only [step, sysClosefrom]
    split_ifs with hlast
    · exact ⟨h, fun _ ht => ht⟩
    · obtain ⟨hinv, -, htop⟩ := h.forLastfile (fun _ => true)
        (s.1.fd_lastfile + 1 - startfd) startfd le_rfl
      simp only [coe_filter_chosen, closefrom_body]
      refine ⟨hinv, fun hcareful ht => htop ht ?_⟩
      rintro ⟨fd, h1, h2, fp, hfp, -⟩
      exact hcareful ⟨fd, h1, h2, by simp [hfp]⟩
  | fdcopy leave => exact absurd rfl (hcopy leave)

/-- Every step keeps the invariant, if a table is copied only while `fd_lastfile` bounds
its descriptors. -/
theorem inv_step_bounded {s : State φ} (h : Inv s.1 s.2) {op : Op φ} (hvalid : op.Valid s)
    (hbounded : op.Bounded s) :
    Inv (step s op).1 (step s op).2 ∧
      (op.Careful s → Top s.1 s.2 → Top (step s op).1 (step s op).2) := by
  by_cases hcopy : ∃ leave, op = .fdcopy leave
  · obtain ⟨leave, rfl⟩ := hcopy
    obtain ⟨hinv, -, -, htop⟩ := h.fdcopy hbounded leave
    simp only [step, coe_filter_left]
    exact ⟨hinv, fun hcareful _ => htop hcareful⟩
  · apply inv_step h hvalid
    intro leave heq
    exact hcopy ⟨leave, heq⟩

theorem inv_run {s : State φ} (h : Inv s.1 s.2) (ops : List (Op φ)) (hvalid : Along Op.Valid s ops)
    (hbounded : Along Op.Bounded s ops) : Inv (run s ops).1 (run s ops).2 := by
  induction ops generalizing s with
  | nil => exact h
  | cons op ops ih =>
    have hstep := inv_step_bounded h hvalid.1 hbounded.1
    exact ih hstep.1 hvalid.2 hbounded.2

/-- In a careful run `fd_lastfile` bounds the descriptors all along. -/
theorem top_run {s : State φ} (h : Inv s.1 s.2) (ht : Top s.1 s.2) (ops : List (Op φ))
    (hvalid : Along Op.Valid s ops) (hcareful : Along Op.Careful s ops) :
    Along Op.Bounded s ops ∧ Top (run s ops).1 (run s ops).2 := by
  induction ops generalizing s with
  | nil => exact ⟨trivial, ht⟩
  | cons op ops ih =>
    have hbounded : op.Bounded s := by
      cases op <;> first | exact ht | trivial
    obtain ⟨hinv, htop⟩ := inv_step_bounded h hvalid.1 hbounded
    obtain ⟨halong, hlast⟩ := ih hinv (htop hcareful.1 ht) hvalid.2 hcareful.2
    exact ⟨⟨hbounded, halong⟩, hlast⟩

/-- The maps and `fd_freefile` against the allocated descriptors. -/
structure Mapped (s : State φ) : Prop where
  lomap : ∀ fd, (s.1.fd_lomap (fd / 32)).getLsbD (fd % 32) = true ↔ fd ∈ s.2
  himap : ∀ w, (s.1.fd_himap (w / 32)).getLsbD (w % 32) = true ↔ s.1.fd_lomap w = BitVec.allOnes 32
  freefile : ∀ fd < s.1.fd_freefile, fd ∈ s.2

theorem Inv.mapped {s : State φ} (h : Inv s.1 s.2) : Mapped s :=
  ⟨h.maps.lo, h.maps.hi, h.free⟩

theorem Inv.lastfile {s : State φ} (h : Inv s.1 s.2) (ht : Top s.1 s.2) :
    s.1.fd_lastfile = s.2.sup id := by
  apply Nat.le_antisymm
  · rcases h.last_mem with hzero | hmem
    · rw [hzero]
      exact Nat.zero_le _
    · exact Finset.le_sup (f := id) hmem
  · exact Finset.sup_le ht

/-- Every run of valid operations that copies a table only while `fd_lastfile` bounds its
descriptors keeps the maps and `fd_freefile` in step with the descriptors. If no
descriptor is removed while another one has no file, `fd_lastfile` is the largest
descriptor throughout, and a copy has room for all descriptors and keeps those whose
files are inherited. -/
theorem filedesc_runs (ops : List (Op φ)) (hvalid : Along Op.Valid (fdinit, ∅) ops) :
    let s := run (fdinit, ∅) ops
    (Along Op.Bounded (fdinit, ∅) ops → Mapped s) ∧
      (Along Op.Careful (fdinit, ∅) ops →
        Mapped s ∧ s.1.fd_lastfile = s.2.sup id ∧
        ∀ leave, let c := step s (.fdcopy leave)
          Mapped c ∧ c.1.fd_lastfile < c.1.fd_nfiles ∧ c.1.fd_nfiles ≤ s.1.fd_nfiles ∧
            (∀ fd ∈ s.2, fd < c.1.fd_nfiles) ∧
            ∀ fd, fd ∈ c.2 ↔ fd ∈ s.2 ∧ ∀ fp, s.1.fd_ofiles fd = some fp → leave fp = false) := by
  intro s
  have hinit : Inv (fdinit : Filedesc φ) (∅ : Finset ℕ) ∧ Top (fdinit : Filedesc φ) (∅ : Finset ℕ) := by
    rw [Finset.coe_empty]
    exact inv_fdinit
  constructor
  · intro hbounded
    exact (inv_run hinit.1 ops hvalid hbounded).mapped
  · intro hcareful
    obtain ⟨hbounded, htop⟩ := top_run hinit.1 hinit.2 ops hvalid hcareful
    have hinv : Inv s.1 s.2 := inv_run hinit.1 ops hvalid hbounded
    refine ⟨hinv.mapped, hinv.lastfile htop, ?_⟩
    intro leave c
    have hvalid : (Op.fdcopy leave).Valid s := trivial
    have hcopy : Inv c.1 c.2 := (inv_step_bounded hinv hvalid htop).1
    obtain ⟨-, hsize, hroom, -⟩ := hinv.fdcopy htop leave
    refine ⟨hcopy.mapped, hcopy.last_lt, hsize, hroom, fun fd => ?_⟩
    simp only [c, step, Finset.mem_filter]
    apply and_congr_right
    intro _
    cases s.1.fd_ofiles fd <;> simp

/-- Memory that reads as zero behind the maps. -/
def zeros : Beyond := ⟨fun _ => 0#32, fun _ => 0#32⟩

theorem filedesc_runs_dup :
    let ops : List (Op ℕ) :=
      [.falloc (fun _ => zeros) 128 false 7, .dodup3 zeros 128 (fun _ => true) false true 0 30,
        .dodup3 zeros 128 (fun _ => true) false true 0 30, .falloc (fun _ => zeros) 128 true 8,
        .fdrelease 0]
    let s := run (fdinit, ∅) ops
    Along Op.Valid (fdinit, ∅) ops ∧ Along Op.Careful (fdinit, ∅) ops ∧
      s.2 = {30} ∧ s.1.fd_lastfile = s.2.sup id := by
  intro ops s
  have hvalid : Along Op.Valid (fdinit, ∅) ops := by
    simp only [ops, Along, Op.Valid]
    decide
  have hcareful : Along Op.Careful (fdinit, ∅) ops := by
    simp only [ops, Along, Op.Careful, Settled]
    decide
  exact ⟨hvalid, hcareful, by decide, ((filedesc_runs ops hvalid).2 hcareful).2.1⟩

/-- A descriptor that waits for its file is lost from sight when the one above it is
removed. -/
theorem lastfile_below_reserved :
    let ops : List (Op ℕ) :=
      [.falloc (fun _ => zeros) 128 false 7, .fdalloc zeros 128 0,
        .falloc (fun _ => zeros) 128 false 8, .fdrelease 2]
    let s := run (fdinit, ∅) ops
    Along Op.Valid (fdinit, ∅) ops ∧ s.2 = {0, 1} ∧ s.1.fd_lastfile = 0 ∧
      s.1.fd_lastfile ≠ s.2.sup id := by
  intro ops s
  have hvalid : Along Op.Valid (fdinit, ∅) ops := by
    simp only [ops, Along, Op.Valid]
    decide
  exact ⟨hvalid, by decide, by decide, by decide⟩

end OpenbsdKernel.Descrip
