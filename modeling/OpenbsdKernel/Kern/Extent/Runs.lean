import OpenbsdKernel.Kern.Extent.Regions

/-!
# Extent maps over whole runs

Each call is specified by what it does to the set of allocated addresses, and
the list invariant is carried through every interleaving of calls, including
calls that sleep for a descriptor or for space and are resumed later.
-/
namespace OpenbsdKernel.SubrExtent

open Ivl

/-- The argument checks of `extent_alloc_region`. -/
structure Extent.ArgsOk (ex : Extent) (start size : BitVec 64) : Prop where
  size_pos : ¬ size < 1#64
  no_wrap : start ≤ start + (size - 1#64)
  start_le : ex.ex_start ≤ start
  le_end : start + (size - 1#64) ≤ ex.ex_end

/-- Same bounds; the bounds of an extent never change. -/
def SameBounds (ex ex' : Extent) : Prop := ex'.ex_start = ex.ex_start ∧ ex'.ex_end = ex.ex_end

theorem SameBounds.refl (ex : Extent) : SameBounds ex ex := ⟨rfl, rfl⟩

theorem SameBounds.symm {ex ex' : Extent} (h : SameBounds ex ex') : SameBounds ex' ex :=
  ⟨h.1.symm, h.2.symm⟩

theorem SameBounds.trans {ex ex' ex'' : Extent} (h : SameBounds ex ex') (h' : SameBounds ex' ex'') :
    SameBounds ex ex'' := ⟨h'.1.trans h.1, h'.2.trans h.2⟩

theorem Extent.ArgsOk.congr {ex ex' : Extent} {start size : BitVec 64}
    (h : ex.ArgsOk start size) (hb : SameBounds ex ex') : ex'.ArgsOk start size :=
  ⟨h.size_pos, h.no_wrap, hb.1 ▸ h.start_le, hb.2 ▸ h.le_end⟩

/-- What a sleeping call remembers is consistent. -/
def Pending.Ok (ex : Extent) : Pending → Prop
  | .allocDescr start size fl => ex.ArgsOk start size ∧ fl.conflictok = false
  | .allocSpace start size end_ fl _ =>
    ex.ArgsOk start size ∧ end_ = start + (size - 1#64) ∧ fl.conflictok = false
  | .freeDescr start end_ _ => start ≤ end_

theorem Pending.Ok.congr {ex ex' : Extent} {p : Pending} (h : p.Ok ex) (hb : SameBounds ex ex') :
    p.Ok ex' := by
  cases p with
  | allocDescr start size fl => exact ⟨h.1.congr hb, h.2⟩
  | allocSpace start size end_ fl myrp => exact ⟨h.1.congr hb, h.2⟩
  | freeDescr start end_ fl => exact h

/-- The part of a call's contract that keeps the system going. -/
structure Sound (ex : Extent) (r : Extent × Result) : Prop where
  wf : r.1.WF
  bounds : SameBounds ex r.1
  pending : ∀ p, r.2 = .sleep p → p.Ok r.1

/-- `ex'` differs from `ex` in flags and descriptors only. -/
def SameRegions (ex ex' : Extent) : Prop := ex'.ex_regions = ex.ex_regions ∧ SameBounds ex ex'

theorem SameRegions.allocated {ex ex' : Extent} (h : SameRegions ex ex') :
    ex'.allocated = ex.allocated := by
  unfold Extent.allocated
  rw [h.1]

theorem SameRegions.wf {ex ex' : Extent} (h : SameRegions ex ex') (hw : ex.WF) : ex'.WF := by
  refine ⟨h.1 ▸ hw.sorted, ?_⟩
  rw [h.allocated, h.2.1, h.2.2]
  exact hw.inside

theorem sameRegions_free (ex : Extent) (rp : ErFlags) :
    SameRegions ex (freeRegionDescriptor ex rp) := by
  simp [SameRegions, SameBounds]

theorem sameRegions_foldl (ex : Extent) (descrs : List ErFlags) :
    SameRegions ex (descrs.foldl freeRegionDescriptor ex) := by
  induction descrs generalizing ex with
  | nil => exact ⟨rfl, rfl, rfl⟩
  | cons rp descrs ih =>
    have h := ih (freeRegionDescriptor ex rp)
    have h' := sameRegions_free ex rp
    exact ⟨h.1.trans h'.1, h'.2.trans h.2⟩

theorem sameRegions_got {ex ex' : Extent} {fl : Flags} {pool : Bool} {rp : ErFlags}
    (h : allocRegionDescriptor ex fl pool = .got rp ex') : SameRegions ex ex' := by
  unfold allocRegionDescriptor at h
  dsimp only at h
  split at h
  · split at h
    · cases h
      exact ⟨rfl, rfl, rfl⟩
    · split_ifs at h
      cases h
      exact ⟨rfl, rfl, rfl⟩
  · split_ifs at h
    cases h
    exact ⟨rfl, rfl, rfl⟩

theorem sameRegions_sleep {ex ex' : Extent} {fl : Flags} {pool : Bool}
    (h : allocRegionDescriptor ex fl pool = .sleep ex') : SameRegions ex ex' := by
  unfold allocRegionDescriptor at h
  dsimp only at h
  split at h
  · split at h
    · cases h
    · split_ifs at h
      cases h
      exact ⟨rfl, rfl, rfl⟩
  · split_ifs at h

/-- The verdict of `extent_alloc_region` on a request for which it holds a
descriptor. -/
structure Decided (ex : Extent) (start size : BitVec 64) (fl : Flags) (r : Extent × Result) :
    Prop where
  free : Disjoint ex.allocated (request start (start + (size - 1#64))) →
    r.2 = .ret none ∧ r.1.allocated = ex.allocated ∪ request start (start + (size - 1#64))
  busy : ¬ Disjoint ex.allocated (request start (start + (size - 1#64))) →
    r.1.allocated = ex.allocated ∧
      if fl.waitspace then
        ∃ myrp, r.2 = .sleep (.allocSpace start size (start + (size - 1#64)) fl myrp)
      else r.2 = .ret (some .EAGAIN)

theorem Decided.congr {ex ex' : Extent} {start size : BitVec 64} {fl : Flags}
    {r : Extent × Result} (h : Decided ex' start size fl r) (hs : SameRegions ex ex') :
    Decided ex start size fl r := by
  have ha := hs.allocated
  exact ⟨fun hd => ha ▸ h.free (ha ▸ hd), fun hd => ha ▸ h.busy (ha ▸ hd)⟩

theorem allocStart_decided (n : ℕ) {ex : Extent} {start size : BitVec 64} {fl : Flags}
    (myrp : ErFlags) (hw : ex.WF) (ha : ex.ArgsOk start size) (hfl : fl.conflictok = false) :
    Decided ex start size fl (allocStart (n + 1) ex start size (start + (size - 1#64)) fl myrp) ∧
      Sound ex (allocStart (n + 1) ex start size (start + (size - 1#64)) fl myrp) := by
  cases hscan : scanRegions start (start + (size - 1#64)) [] ex.ex_regions with
  | clear rev rest =>
    obtain ⟨heq, hrev, hhead⟩ := scanRegions_clear hscan (by simp)
    simp only [List.reverse_nil, List.nil_append] at heq
    have hsorted : Sorted (ivls (rev.reverse ++ rest)) := heq ▸ hw.sorted
    have hrest : Sorted (ivls rest) := by
      rw [ivls_append] at hsorted
      exact (sorted_append.mp hsorted).2.1
    have hgap : Gap start size rev rest :=
      ⟨hsorted, ha.no_wrap, hrev, clear_of_head hrest hhead⟩
    have hstep : allocStart (n + 1) ex start size (start + (size - 1#64)) fl myrp =
        (extentInsertAndOptimize ex start size rev rest myrp, .ret none) := by
      simp [allocStart, hscan]
    obtain ⟨hs', hc'⟩ := insertAndOptimize_inserted ex myrp hgap
    rw [heq] at hc'
    have hb : SameBounds ex (extentInsertAndOptimize ex start size rev rest myrp) :=
      insertAndOptimize_bounds ex myrp
    have hdisj : Disjoint ex.allocated (request start (start + (size - 1#64))) := by
      have hall : ex.allocated = cover (ivls rev.reverse ++ ivls rest) := by
        rw [Extent.allocated, ← heq, ivls_append]
      rw [hall]
      refine disjoint_cover fun x hx => ?_
      rcases List.mem_append.mp hx with hx | hx
      · exact .inl (hgap.lt_ivls x hx)
      · exact .inr (hgap.ivls_lt x hx)
    rw [hstep]
    refine ⟨⟨fun _ => ⟨rfl, hc'⟩, fun hn => absurd hdisj hn⟩, ⟨⟨hs', ?_⟩, hb, by simp⟩⟩
    rw [hb.1, hb.2]
    refine hc'.le.trans (Set.union_subset hw.inside ?_)
    rintro c ⟨hc1, hc2⟩
    exact ⟨le_trans ha.start_le hc1, le_trans hc2 ha.le_end⟩
  | conflict rev rp rest =>
    obtain ⟨-, hmem, hle, hge⟩ := scanRegions_conflict hscan
    have hmeet : ¬ Disjoint ex.allocated (request start (start + (size - 1#64))) := by
      rw [Set.not_disjoint_iff]
      have hrp := hw.sorted.1 rp.ivl (List.mem_map_of_mem hmem)
      refine ⟨max rp.er_start.toNat start.toNat,
        ⟨rp.ivl, List.mem_map_of_mem hmem, le_max_left _ _, max_le hrp hge⟩,
        le_max_right _ _, max_le hle ha.no_wrap⟩
    by_cases hws : fl.waitspace = true
    · have hstep : allocStart (n + 1) ex start size (start + (size - 1#64)) fl myrp =
          ({ ex with wanted := true },
            .sleep (.allocSpace start size (start + (size - 1#64)) fl myrp)) := by
        simp [allocStart, hscan, hws]
      have hsame : SameRegions ex { ex with wanted := true } := ⟨rfl, rfl, rfl⟩
      rw [hstep]
      refine ⟨⟨fun hd => absurd hd hmeet, fun _ => ⟨hsame.allocated, ?_⟩⟩,
        ⟨hsame.wf hw, hsame.2, ?_⟩⟩
      · rw [if_pos hws]
        exact ⟨myrp, rfl⟩
      · intro p hp
        cases hp
        exact ⟨ha.congr hsame.2, rfl, hfl⟩
    · have hstep : allocStart (n + 1) ex start size (start + (size - 1#64)) fl myrp =
          (freeRegionDescriptor ex myrp, .ret (some .EAGAIN)) := by
        simp [allocStart, hscan, hws, hfl]
      have hsame := sameRegions_free ex myrp
      rw [hstep]
      refine ⟨⟨fun hd => absurd hd hmeet, fun _ => ⟨hsame.allocated, ?_⟩⟩,
        ⟨hsame.wf hw, hsame.2, by simp⟩⟩
      rw [if_neg hws]

/-- What a checked allocation does, by the fate of its descriptor. -/
def AllocSpec (ex : Extent) (start size : BitVec 64) (fl : Flags) (pool : Bool)
    (r : Extent × Result) : Prop :=
  match allocRegionDescriptor ex fl pool with
  | .null => r.2 = .ret (some .ENOMEM) ∧ r.1.allocated = ex.allocated
  | .sleep _ => r.2 = .sleep (.allocDescr start size fl) ∧ r.1.allocated = ex.allocated
  | .got _ _ => Decided ex start size fl r

theorem allocChecked_spec {ex : Extent} {start size : BitVec 64} {fl : Flags} (pool : Bool)
    (hw : ex.WF) (ha : ex.ArgsOk start size) (hfl : fl.conflictok = false) :
    AllocSpec ex start size fl pool (allocChecked ex start size fl pool) ∧
      Sound ex (allocChecked ex start size fl pool) := by
  unfold AllocSpec allocChecked
  cases hd : allocRegionDescriptor ex fl pool with
  | null => exact ⟨⟨rfl, rfl⟩, hw, ⟨rfl, rfl⟩, by simp⟩
  | sleep ex' =>
    have hs := sameRegions_sleep hd
    refine ⟨⟨rfl, hs.allocated⟩, hs.wf hw, hs.2, ?_⟩
    intro p hp
    cases hp
    exact ⟨ha.congr hs.2, hfl⟩
  | got myrp ex' =>
    have hs := sameRegions_got hd
    obtain ⟨hdec, hsound⟩ :=
      allocStart_decided (2 * ex'.ex_regions.length + 1) myrp (hs.wf hw)
        (ha.congr hs.2) hfl
    exact ⟨hdec.congr hs, hsound.wf, hs.2.trans hsound.bounds, hsound.pending⟩

theorem extentAllocRegion_spec {ex : Extent} (start size : BitVec 64) {fl : Flags} (pool : Bool)
    (hw : ex.WF) (hfl : fl.conflictok = false) :
    (ex.ArgsOk start size →
      AllocSpec ex start size fl pool (extentAllocRegion ex start size fl pool)) ∧
      Sound ex (extentAllocRegion ex start size fl pool) := by
  unfold extentAllocRegion
  dsimp only
  split_ifs with h1 h2
  · refine ⟨fun ha => ?_, hw, ⟨rfl, rfl⟩, by simp⟩
    rcases h1 with h1 | h1 | h1
    · exact absurd h1 ha.size_pos
    · have := ha.no_wrap
      bv_omega
    · simp [hfl] at h1
  · refine ⟨fun ha => ?_, hw, ⟨rfl, rfl⟩, by simp⟩
    have hlo := ha.start_le
    have hhi := ha.le_end
    rcases h2 with h2 | h2 <;> bv_omega
  · have ha : ex.ArgsOk start size := by
      push Not at h1
      exact ⟨h1.1, by bv_omega, by bv_omega, by bv_omega⟩
    have h := allocChecked_spec pool hw ha hfl
    exact ⟨fun _ => h.1, h.2⟩

/-- What a call of `extent_free` does to the allocated addresses. -/
structure FreeSpec (ex : Extent) (start end_ : BitVec 64) (r : Extent × Result) : Prop where
  freed : r.2 = .ret none →
    request start end_ ⊆ ex.allocated ∧ r.1.allocated = ex.allocated \ request start end_
  kept : r.2 ≠ .ret none → r.1.allocated = ex.allocated

theorem freeFound_spec {ex : Extent} {start end_ : BitVec 64} (nrp : Option ErFlags)
    (hw : ex.WF) (hle : start ≤ end_) :
    FreeSpec ex start end_ (freeFound ex start end_ nrp) ∧
      Sound ex (freeFound ex start end_ nrp) := by
  unfold freeFound
  cases hf : freeRegions start end_ nrp ex.ex_regions with
  | none => exact ⟨⟨by simp, fun _ => rfl⟩, hw, ⟨rfl, rfl⟩, by simp⟩
  | some r =>
    obtain ⟨regions, descrs⟩ := r
    obtain ⟨hsub, hsorted, hcover⟩ := freeRegions_removed [] hle hw.sorted hf
    simp only [List.nil_append] at hsub hsorted hcover
    obtain ⟨hregs, hb⟩ := sameRegions_foldl { ex with ex_regions := regions } descrs
    have hall : cover (ivls (List.foldl freeRegionDescriptor
        { ex with ex_regions := regions } descrs).ex_regions) =
        ex.allocated \ request start end_ := by
      rw [hregs]
      exact hcover
    refine ⟨⟨fun _ => ⟨hsub, hall⟩, fun hn => absurd rfl hn⟩, ⟨?_, ?_⟩, hb, by simp⟩
    · dsimp only
      rw [hregs]
      exact hsorted
    · refine hall.le.trans (Set.sdiff_subset.trans ?_)
      rw [hb.1, hb.2]
      exact hw.inside

theorem freeChecked_spec {ex : Extent} {start end_ : BitVec 64} (fl : Flags) (pool : Bool)
    (hw : ex.WF) (hle : start ≤ end_) :
    FreeSpec ex start end_ (freeChecked ex start end_ fl pool) ∧
      Sound ex (freeChecked ex start end_ fl pool) := by
  unfold freeChecked
  split_ifs with hnc
  · exact freeFound_spec none hw hle
  · cases hd : allocRegionDescriptor ex fl pool with
    | null => exact ⟨⟨by simp, fun _ => rfl⟩, hw, ⟨rfl, rfl⟩, by simp⟩
    | sleep ex' =>
      have hs := sameRegions_sleep hd
      refine ⟨⟨by simp, fun _ => hs.allocated⟩, hs.wf hw, hs.2, ?_⟩
      intro p hp
      cases hp
      exact hle
    | got nrp ex' =>
      have hs := sameRegions_got hd
      obtain ⟨hspec, hsound⟩ := freeFound_spec (some nrp) (hs.wf hw) hle
      refine ⟨⟨?_, ?_⟩, hsound.wf, hs.2.trans hsound.bounds, hsound.pending⟩
      · rw [← hs.allocated]
        exact hspec.freed
      · rw [← hs.allocated]
        exact hspec.kept

theorem extentFree_spec {ex : Extent} (start size : BitVec 64) (fl : Flags) (pool : Bool)
    (hw : ex.WF) :
    FreeSpec ex start (start + (size - 1#64)) (extentFree ex start size fl pool) ∧
      Sound ex (extentFree ex start size fl pool) := by
  unfold extentFree
  dsimp only
  split_ifs with h1 h2
  · exact ⟨⟨by simp, fun _ => rfl⟩, hw, ⟨rfl, rfl⟩, by simp⟩
  · exact ⟨⟨by simp, fun _ => rfl⟩, hw, ⟨rfl, rfl⟩, by simp⟩
  · exact freeChecked_spec fl pool hw (by bv_omega)

/-- Allocations that tolerate no conflicts, frees and wakeups. -/
def Op.Plain : Op → Prop
  | .alloc _ _ fl _ => fl.conflictok = false
  | _ => True

/-- Everything an operation may do to the allocated addresses. -/
def StepSpec (s : Sys) (op : Op) (r : Extent × Result) : Prop :=
  match op with
  | .alloc start size fl pool => s.ex.ArgsOk start size → AllocSpec s.ex start size fl pool r
  | .free start size _ _ => FreeSpec s.ex start (start + (size - 1#64)) r
  | .wake i error pool =>
    match s.asleep[i]? with
    | none => r.1.allocated = s.ex.allocated
    | some p =>
      match p, tsleep p.flags error with
      | .allocDescr .., some _ | .freeDescr .., some _ =>
        r.2 = .ret (some .ENOMEM) ∧ r.1.allocated = s.ex.allocated
      | .allocSpace .., some e => r.2 = .ret (some e) ∧ r.1.allocated = s.ex.allocated
      | .allocDescr start size fl, none => AllocSpec s.ex start size fl pool r
      | .allocSpace start size _ fl _, none => Decided s.ex start size fl r
      | .freeDescr start end_ _, none => FreeSpec s.ex start end_ r

/-- The system invariant. -/
structure Sys.Inv (s : Sys) : Prop where
  wf : s.ex.WF
  pending : ∀ p ∈ s.asleep, p.Ok s.ex

theorem resume_spec {ex : Extent} {p : Pending} (error : Option Errno) (pool : Bool) (hw : ex.WF)
    (hp : p.Ok ex) (i : ℕ) (asleep : List Pending) (hi : asleep[i]? = some p) :
    StepSpec ⟨ex, asleep⟩ (.wake i error pool) (resume ex p error pool) ∧
      Sound ex (resume ex p error pool) := by
  simp only [StepSpec, hi, resume]
  cases tsleep p.flags error with
  | some e => cases p <;> exact ⟨⟨rfl, rfl⟩, hw, ⟨rfl, rfl⟩, by simp⟩
  | none =>
    cases p with
    | allocDescr start size fl => exact allocChecked_spec pool hw hp.1 hp.2
    | allocSpace start size end_ fl myrp =>
      obtain ⟨ha, rfl, hfl⟩ := hp
      exact allocStart_decided _ myrp hw ha hfl
    | freeDescr start end_ fl => exact freeChecked_spec fl pool hw hp

theorem settle_fst (asleep : List Pending) (r : Extent × Result) :
    (settle asleep r).1.ex = r.1 ∧ (settle asleep r).2 = r.2 := by
  unfold settle
  split <;> exact ⟨rfl, rfl⟩

theorem settle_inv {ex : Extent} {asleep : List Pending} {r : Extent × Result}
    (hp : ∀ p ∈ asleep, p.Ok ex) (hr : Sound ex r) : (settle asleep r).1.Inv := by
  have hold : ∀ p ∈ asleep, p.Ok r.1 := fun p hmem => (hp p hmem).congr hr.bounds
  unfold settle
  split
  · next p hres =>
    refine ⟨hr.wf, fun q hq => ?_⟩
    rcases List.mem_append.mp hq with hq | hq
    · exact hold q hq
    · rw [List.mem_singleton.mp hq]
      exact hr.pending p hres
  · exact ⟨hr.wf, hold⟩

theorem step_spec {s : Sys} {op : Op} (hs : s.Inv) (hop : op.Plain) :
    StepSpec s op ((step s op).1.ex, (step s op).2) ∧ (step s op).1.Inv := by
  cases op with
  | alloc start size fl pool =>
    obtain ⟨hspec, hsound⟩ := extentAllocRegion_spec start size pool hs.wf hop
    obtain ⟨h1, h2⟩ := settle_fst s.asleep (extentAllocRegion s.ex start size fl pool)
    simp only [step, h1, h2]
    exact ⟨hspec, settle_inv hs.pending hsound⟩
  | free start size fl pool =>
    obtain ⟨hspec, hsound⟩ := extentFree_spec start size fl pool hs.wf
    obtain ⟨h1, h2⟩ := settle_fst s.asleep (extentFree s.ex start size fl pool)
    simp only [step, h1, h2]
    exact ⟨hspec, settle_inv hs.pending hsound⟩
  | wake i error pool =>
    cases hi : s.asleep[i]? with
    | none => simpa [step, hi, StepSpec] using hs
    | some p =>
      have hp : p.Ok s.ex := hs.pending p (List.mem_of_getElem? hi)
      obtain ⟨hspec, hsound⟩ := resume_spec error pool hs.wf hp i s.asleep hi
      obtain ⟨h1, h2⟩ := settle_fst (s.asleep.eraseIdx i) (resume s.ex p error pool)
      simp only [step, hi, h1, h2]
      refine ⟨hspec, settle_inv (fun q hq => hs.pending q ?_) hsound⟩
      exact List.mem_of_mem_eraseIdx hq

/-- States reached from a freshly created extent. -/
inductive Reachable (ex : Extent) : Sys → Prop
  | init : Reachable ex ⟨ex, []⟩
  | step {s : Sys} {op : Op} : Reachable ex s → op.Plain → Reachable ex (step s op).1

theorem extentCreate_wf {lo hi : BitVec 64} {storage : Option ℕ} {nocoalesce filled : Bool}
    {fl : Flags} {pool : Bool} {ex : Extent}
    (h : extentCreate lo hi storage nocoalesce filled fl pool = some ex) : ex.WF := by
  unfold extentCreate at h
  dsimp only at h
  split_ifs at h with hlt hfill
  · split at h
    · next rp ex' hd =>
      cases h
      obtain ⟨-, hb1, hb2⟩ := sameRegions_got hd
      have hle : lo.toNat ≤ hi.toNat := by bv_omega
      refine ⟨by simpa [sorted_cons, Region.ivl] using hle, ?_⟩
      simp [Extent.allocated, cover_cons, Region.ivl, request, hb1, hb2]
    · cases h
  · cases h
    exact ⟨by simp, by simp [Extent.allocated]⟩

theorem reachable_inv {ex : Extent} {s : Sys} (hex : ex.WF) (h : Reachable ex s) : s.Inv := by
  induction h with
  | init => exact ⟨hex, by simp⟩
  | step _ hop ih => exact (step_spec ih hop).2

/-- In every state reached from `extent_create` by plain allocations, frees and
resumed sleeps, the region list is sorted, disjoint and inside the extent, and
each further operation changes the set of allocated addresses exactly as
specified. -/
theorem extent_runs {lo hi : BitVec 64} {storage : Option ℕ} {nocoalesce filled : Bool}
    {fl : Flags} {pool : Bool} {ex : Extent} {s : Sys}
    (hc : extentCreate lo hi storage nocoalesce filled fl pool = some ex) (hr : Reachable ex s) :
    s.ex.WF ∧ ∀ op : Op, op.Plain → StepSpec s op ((step s op).1.ex, (step s op).2) := by
  have hinv := reachable_inv (extentCreate_wf hc) hr
  exact ⟨hinv.wf, fun op hop => (step_spec hinv hop).1⟩

/-- No sleeping, no allocation, no tolerated conflicts. -/
def exNowait : Flags := ⟨false, false, false, false, false⟩

/-- An extent over the whole address space with dynamic descriptors. -/
def wholeSpace : Extent := ⟨0, -1, [], false, false, false, false, []⟩

/-- The last address is allocated, then the one before it, so that the two
regions coalesce at the top of the address space. -/
theorem extent_runs_wholeSpace :
    ∃ s, Reachable wholeSpace s ∧ s.ex.ex_regions = [⟨-2, -1, ⟨true, false⟩⟩] ∧ s.ex.WF ∧
      ∀ op : Op, op.Plain → StepSpec s op ((step s op).1.ex, (step s op).2) := by
  let s₁ := (step ⟨wholeSpace, []⟩ (.alloc (-1) 1 exNowait true)).1
  let s₂ := (step s₁ (.alloc (-2) 1 exNowait true)).1
  have h₁ : Reachable wholeSpace s₁ := Reachable.init.step rfl
  have h₂ : Reachable wholeSpace s₂ := h₁.step rfl
  have hc : extentCreate 0 (-1) none false false exNowait true = some wholeSpace := by decide
  exact ⟨s₂, h₂, by decide, extent_runs hc h₂⟩

/-- A fixed extent whose storage has no room for a descriptor. -/
def noDescriptors : Extent := ⟨0, 99, [], true, false, false, false, []⟩

/-- A valid request for free addresses that is answered by neither zero nor `EAGAIN`. -/
theorem extentAllocRegion_noDescriptors :
    extentCreate 0 99 (some 0) false false exNowait true = some noDescriptors ∧
      noDescriptors.ArgsOk 10 5 ∧ exNowait.conflictok = false ∧
      Disjoint noDescriptors.allocated (request 10 (10 + (5 - 1#64))) ∧
      (extentAllocRegion noDescriptors 10 5 exNowait true).2 ≠ .ret none ∧
      (extentAllocRegion noDescriptors 10 5 exNowait true).2 ≠ .ret (some .EAGAIN) := by
  refine ⟨by decide, ⟨by decide, by decide, by decide, by decide⟩, rfl, ?_, by decide, by decide⟩
  simp [Extent.allocated, noDescriptors]

end OpenbsdKernel.SubrExtent
