import OpenbsdKernel.Kern.Extent.Placement

/-!
# Region descriptors

Calls on an extent with fixed storage, and where its descriptors are: on the free list, in the
region list or with a call that sleeps for space. Every call takes one descriptor first and has
to insert it or to give it back; two kinds of return do neither.
-/
namespace OpenbsdKernel.SubrExtent

/-- The flags of a descriptor that was carved from the storage. -/
def carved : ErFlags := ⟨false, false⟩

def AllCarved (l : List Region) : Prop := ∀ r ∈ l, r.er_flags = carved

@[simp] theorem allCarved_nil : AllCarved [] := by simp [AllCarved]

@[simp] theorem allCarved_cons {r : Region} {l : List Region} :
    AllCarved (r :: l) ↔ r.er_flags = carved ∧ AllCarved l := by
  simp [AllCarved]

@[simp] theorem allCarved_append {l m : List Region} :
    AllCarved (l ++ m) ↔ AllCarved l ∧ AllCarved m := List.forall_mem_append

@[simp] theorem allCarved_reverse {l : List Region} : AllCarved l.reverse ↔ AllCarved l := by
  simp [AllCarved]

/-- A fixed extent in which all descriptors come from its storage. -/
structure Extent.Kept (ex : Extent) : Prop where
  fixed : ex.fixed = true
  free : ∀ rp ∈ ex.fex_freelist, rp = carved
  used : AllCarved ex.ex_regions

/-- The descriptors on the free list and in the region list. -/
def Extent.descriptors (ex : Extent) : ℕ := ex.fex_freelist.length + ex.ex_regions.length

theorem freeRegionDescriptor_carved {ex : Extent} (h : ex.fixed = true) :
    freeRegionDescriptor ex carved =
      { ex with fex_freelist := carved :: ex.fex_freelist, flwanted := false } := by
  simp [freeRegionDescriptor, carved, h]

theorem freeRegionDescriptor_kept {ex : Extent} (h : ex.Kept) {rp : ErFlags} (hrp : rp = carved) :
    (freeRegionDescriptor ex rp).Kept ∧
      (freeRegionDescriptor ex rp).descriptors = ex.descriptors + 1 := by
  rw [hrp, freeRegionDescriptor_carved h.fixed]
  refine ⟨⟨h.fixed, ?_, h.used⟩, ?_⟩
  · intro x hx
    obtain rfl | hx := List.mem_cons.mp hx
    · rfl
    · exact h.free x hx
  · simp only [Extent.descriptors, List.length_cons]
    omega

section Insert

variable {ex : Extent} (h : ex.Kept) {l : List Region} (hl : AllCarved l)
include h hl

theorem put_kept (hlen : l.length = ex.ex_regions.length + 1) :
    ({ ex with ex_regions := l } : Extent).Kept ∧
      ({ ex with ex_regions := l } : Extent).descriptors = ex.descriptors + 1 := by
  refine ⟨⟨h.fixed, h.free, hl⟩, ?_⟩
  simp only [Extent.descriptors, hlen]
  omega

theorem giveBack_kept (hlen : l.length = ex.ex_regions.length) {rp : ErFlags} (hrp : rp = carved) :
    (freeRegionDescriptor { ex with ex_regions := l } rp).Kept ∧
      (freeRegionDescriptor { ex with ex_regions := l } rp).descriptors = ex.descriptors + 1 := by
  have hk : ({ ex with ex_regions := l } : Extent).Kept := ⟨h.fixed, h.free, hl⟩
  obtain ⟨hk', hd⟩ := freeRegionDescriptor_kept hk hrp
  refine ⟨hk', ?_⟩
  rw [hd]
  simp only [Extent.descriptors, hlen]

end Insert

theorem insertAndOptimize_kept {ex : Extent} (h : ex.Kept) (start size : BitVec 64)
    {rev rest : List Region} (hsplit : rev.reverse ++ rest = ex.ex_regions) {rp : ErFlags}
    (hrp : rp = carved) :
    (extentInsertAndOptimize ex start size rev rest rp).Kept ∧
      (extentInsertAndOptimize ex start size rev rest rp).descriptors = ex.descriptors + 1 := by
  have hused := h.used
  have hlen := congrArg List.length hsplit
  rw [← hsplit] at hused
  simp only [allCarved_append, allCarved_reverse] at hused
  simp only [List.length_append, List.length_reverse] at hlen
  obtain ⟨hrev, hrest⟩ := hused
  unfold extentInsertAndOptimize
  cases rev with
  | nil =>
    cases rest with
    | nil => exact put_kept h (by simp [hrp]) (by simp [← hlen])
    | cons first more =>
      simp only [allCarved_cons] at hrest
      simp only [List.length_nil, List.length_cons] at hlen
      dsimp only
      split_ifs
      · exact giveBack_kept h (by simp [hrest]) (by simp; omega) hrp
      · exact put_kept h (by simp [hrest, hrp]) (by simp; omega)
  | cons after before =>
    simp only [allCarved_cons] at hrev
    simp only [List.length_cons] at hlen
    dsimp only
    by_cases hnc : ex.nocoalesce = true
    · rw [if_pos hnc]
      exact put_kept h (by simp [hrev, hrest, hrp]) (by simp; omega)
    · rw [if_neg hnc]
      by_cases happ : after.er_end + 1#64 = start
      · simp only [happ, decide_true, if_true]
        cases rest with
        | nil => exact giveBack_kept h (by simp [hrev]) (by simpa using hlen) hrp
        | cons nextr more =>
          simp only [allCarved_cons] at hrest
          simp only [List.length_cons] at hlen
          dsimp only
          split_ifs
          · have hl : AllCarved (before.reverse ++ { after with er_end := nextr.er_end } :: more) := by
              simp [hrev, hrest]
            have hk : ({ ex with ex_regions := before.reverse ++
                { after with er_end := nextr.er_end } :: more } : Extent).Kept :=
              ⟨h.fixed, h.free, hl⟩
            obtain ⟨hk₁, hd₁⟩ := freeRegionDescriptor_kept hk hrest.1
            obtain ⟨hk₂, hd₂⟩ := freeRegionDescriptor_kept hk₁ hrp
            refine ⟨hk₂, ?_⟩
            rw [hd₂, hd₁]
            simp only [Extent.descriptors, List.length_append, List.length_reverse, List.length_cons]
            omega
          · exact giveBack_kept h (by simp [hrev, hrest]) (by simp; omega) hrp
      · simp only [happ, decide_false, if_false, Bool.false_eq_true]
        cases rest with
        | nil => exact put_kept h (by simp [hrev, hrp]) (by simp; omega)
        | cons nextr more =>
          simp only [allCarved_cons] at hrest
          simp only [List.length_cons] at hlen
          dsimp only
          split_ifs
          · exact giveBack_kept h (by simp [hrev, hrest]) (by simp; omega) hrp
          · exact put_kept h (by simp [hrev, hrest, hrp]) (by simp; omega)

theorem freeRegions_kept {start end_ : BitVec 64} {nrp : Option ErFlags}
    (hnrp : ∀ d ∈ nrp, d = carved) {l l' : List Region} {descrs : List ErFlags}
    (hl : AllCarved l) (h : freeRegions start end_ nrp l = some (l', descrs)) :
    AllCarved l' ∧ (∀ d ∈ descrs, d = carved) ∧
      l'.length + descrs.length = l.length + nrp.toList.length := by
  induction l generalizing l' with
  | nil => cases h
  | cons rp rest ih =>
    simp only [allCarved_cons] at hl
    have hskip : (freeRegions start end_ nrp rest).map (fun r => (rp :: r.1, r.2)) =
        some (l', descrs) → AllCarved l' ∧ (∀ d ∈ descrs, d = carved) ∧
          l'.length + descrs.length = rest.length + 1 + nrp.toList.length := by
      intro h
      obtain ⟨⟨l₁, d₁⟩, h₁, heq⟩ := Option.map_eq_some_iff.mp h
      obtain ⟨rfl, rfl⟩ := Prod.mk.inj heq
      obtain ⟨hc, hd, hlen⟩ := ih hl.2 h₁
      refine ⟨by simp [hl.1, hc], hd, ?_⟩
      simp only [List.length_cons] at hlen ⊢
      omega
    simp only [List.length_cons]
    cases nrp with
    | none =>
      simp only [freeRegions] at h
      split_ifs at h
      · exact hskip h
      · obtain ⟨rfl, rfl⟩ := Prod.mk.inj (Option.some.inj h)
        exact ⟨hl.2, by simp [hl.1], by simp⟩
      · exact hskip h
    | some d =>
      have hd : d = carved := hnrp d rfl
      simp only [freeRegions] at h
      split_ifs at h
      · exact hskip h
      · obtain ⟨rfl, rfl⟩ := Prod.mk.inj (Option.some.inj h)
        exact ⟨hl.2, by simp [hl.1, hd], by simp⟩
      · obtain ⟨rfl, rfl⟩ := Prod.mk.inj (Option.some.inj h)
        exact ⟨by simp [hl], by simp [hd], by simp⟩
      · obtain ⟨rfl, rfl⟩ := Prod.mk.inj (Option.some.inj h)
        exact ⟨by simp [hl], by simp [hd], by simp⟩
      · obtain ⟨rfl, rfl⟩ := Prod.mk.inj (Option.some.inj h)
        exact ⟨by simp [hl, hd], by simp, by simp⟩
      · exact hskip h

theorem foldl_freeRegionDescriptor_kept {ex : Extent} (h : ex.Kept) {descrs : List ErFlags}
    (hd : ∀ d ∈ descrs, d = carved) :
    (descrs.foldl freeRegionDescriptor ex).Kept ∧
      (descrs.foldl freeRegionDescriptor ex).descriptors = ex.descriptors + descrs.length := by
  induction descrs generalizing ex with
  | nil => exact ⟨h, rfl⟩
  | cons d descrs ih =>
    obtain ⟨hk, hlen⟩ := freeRegionDescriptor_kept h (hd d List.mem_cons_self)
    obtain ⟨hk', hlen'⟩ := ih hk fun x hx => hd x (List.mem_cons_of_mem d hx)
    refine ⟨hk', ?_⟩
    rw [List.foldl_cons, hlen', hlen, List.length_cons]
    omega

/-- A call asleep on the extent. -/
inductive Waiting where
  | region (p : Pending)
  | subDescr (a : SubArgs)
  | subSpace (a : SubArgs) (myrp : ErFlags)
  deriving DecidableEq, Repr

/-- What a call did before it returned or slept. -/
inductive Reply where
  | panic
  | ret (error : Option Errno)
  | allocated (result : BitVec 64)
  | sleep (w : Waiting)
  | looping
  deriving DecidableEq, Repr

def Result.reply : Result → Reply
  | .panic => .panic
  | .ret error => .ret error
  | .sleep p => .sleep (.region p)
  | .looping => .looping

def SubResult.reply (a : SubArgs) (myrp : ErFlags) : SubResult → Reply
  | .panic => .panic
  | .sleep => .sleep (.subSpace a myrp)
  | .ret error => .ret (some error)
  | .allocated result => .allocated result

def extentAllocSubregion (ex : Extent) (a : SubArgs) (pool : Bool) : Extent × Reply :=
  match allocRegionDescriptor ex a.flags.toFlags pool with
  | .null => (ex, .ret (some .ENOMEM))
  | .sleep ex' => (ex', .sleep (.subDescr a))
  | .got rp ex' => ((extentDoAlloc ex' a rp).1, (extentDoAlloc ex' a rp).2.reply a rp)

/-- The rest of a call that is woken up, with `error` where a signal does it. -/
def Waiting.resume (ex : Extent) (w : Waiting) (error : Option Errno) (pool : Bool) :
    Extent × Reply :=
  match w with
  | .region p =>
    ((SubrExtent.resume ex p error pool).1, (SubrExtent.resume ex p error pool).2.reply)
  | .subDescr a =>
    match tsleep a.flags.toFlags error with
    | some _ => (ex, .ret (some .ENOMEM))
    | none => extentAllocSubregion ex a pool
  | .subSpace a myrp =>
    ((resumeDoAlloc ex a myrp error).1, (resumeDoAlloc ex a myrp error).2.reply a myrp)

/-- An extent and the calls asleep on it. -/
structure Users where
  ex : Extent
  asleep : List Waiting
  deriving DecidableEq, Repr

/-- A new call, or a wakeup of a sleeping one, by a signal where there is an `error`. -/
inductive Call where
  | region (start size : BitVec 64) (fl : Flags) (pool : Bool)
  | subregion (a : SubArgs) (pool : Bool)
  | free (start size : BitVec 64) (fl : Flags) (pool : Bool)
  | wake (i : ℕ) (error : Option Errno) (pool : Bool)
  deriving DecidableEq, Repr

def Users.settle (asleep : List Waiting) (r : Extent × Reply) : Users × Reply :=
  match r.2 with
  | .sleep w => (⟨r.1, asleep ++ [w]⟩, r.2)
  | _ => (⟨r.1, asleep⟩, r.2)

/-- The call goes on until it returns or sleeps; `none` if there is no such sleeper. -/
def Users.exec (s : Users) : Call → Option (Users × Reply)
  | .region start size fl pool =>
    let r := extentAllocRegion s.ex start size fl pool
    some (Users.settle s.asleep (r.1, r.2.reply))
  | .subregion a pool => some (Users.settle s.asleep (extentAllocSubregion s.ex a pool))
  | .free start size fl pool =>
    let r := extentFree s.ex start size fl pool
    some (Users.settle s.asleep (r.1, r.2.reply))
  | .wake i error pool =>
    (s.asleep[i]?).map fun w => Users.settle (s.asleep.eraseIdx i) (w.resume s.ex error pool)

/-- The descriptors that a call asleep for space holds. -/
def Waiting.held : Waiting → List ErFlags
  | .region (.allocSpace _ _ _ _ myrp) => [myrp]
  | .subSpace _ myrp => [myrp]
  | _ => []

def Reply.held : Reply → List ErFlags
  | .sleep w => w.held
  | _ => []

/-- The call, made without `EX_MALLOCOK`, waits for what it may wait for, with its arguments
checked. -/
def Waiting.Plain (ex : Extent) : Waiting → Prop
  | .region (.allocDescr start size fl) => fl.mallocok = false ∧ ex.ArgsOk start size
  | .region (.allocSpace _ _ _ fl _) => fl.waitspace = true
  | .region (.freeDescr _ _ fl) => fl.mallocok = false
  | .subDescr a => a.flags.mallocok = false
  | .subSpace _ _ => True

theorem Waiting.Plain.congr {ex ex' : Extent} {w : Waiting} (h : w.Plain ex)
    (hb : SameBounds ex ex') : w.Plain ex' := by
  cases w with
  | region p =>
    cases p with
    | allocDescr start size fl => exact ⟨h.1, h.2.congr hb⟩
    | allocSpace start size end_ fl myrp => exact h
    | freeDescr start end_ fl => exact h
  | subDescr a => exact h
  | subSpace a myrp => exact h

/-- A call without `EX_MALLOCOK`. -/
def Call.Plain : Call → Prop
  | .region _ _ fl _ => fl.mallocok = false
  | .subregion a _ => a.flags.mallocok = false
  | .free _ _ fl _ => fl.mallocok = false
  | .wake _ _ _ => True

instance : DecidablePred Call.Plain
  | .region .. | .subregion .. | .free .. => inferInstanceAs (Decidable (_ = _))
  | .wake .. => isTrue trivial

/-- The retry loop of `EX_CONFLICTOK` ends at a region that it neither removes nor steps over:
one from the start of what is left of the request to the end of the extent, or one that begins
at the last address of what is left. -/
def conflictLeft (ex_start ex_end : BitVec 64) : ℕ → List Region → BitVec 64 → BitVec 64 → Bool
  | 0, _, _, _ => false
  | n + 1, regions, start, end_ =>
    match scanRegions start end_ [] regions with
    | .clear _ _ => false
    | .conflict rev rp rest =>
      if rp.er_start ≤ start then
        if rp.er_end < ex_end then conflictLeft ex_start ex_end n regions (rp.er_end + 1#64) end_
        else true
      else if rp.er_end < end_ then
        conflictLeft ex_start ex_end n (rev.reverse ++ rest) start end_
      else if rp.er_start < end_ ∧ ex_start < rp.er_start then
        conflictLeft ex_start ex_end n regions start (rp.er_start - 1#64)
      else true

/-- A checked allocation gives its descriptor up at such a region. -/
def allocLeaks (ex : Extent) (start end_ : BitVec 64) (fl : Flags) : Bool :=
  !fl.waitspace && fl.conflictok && !ex.fex_freelist.isEmpty &&
    conflictLeft ex.ex_start ex.ex_end (2 * ex.ex_regions.length + 2) ex.ex_regions start end_

/-- The flags of the call. -/
def Waiting.flags : Waiting → Flags
  | .region p => p.flags
  | .subDescr a => a.flags.toFlags
  | .subSpace a _ => a.flags.toFlags

/-- A call gives up its descriptor when its sleep ends: with an error while it waits for space,
or after a wait for a descriptor. -/
def Waiting.leaks (ex : Extent) (w : Waiting) (error : Option Errno) : Bool :=
  match tsleep w.flags error, w with
  | none, .region (.allocDescr start size fl) => allocLeaks ex start (start + (size - 1#64)) fl
  | none, _ => false
  | some _, w => !w.held.isEmpty

def Call.leaks (s : Users) : Call → Bool
  | .region start size fl _ => allocLeaks s.ex start (start + (size - 1#64)) fl
  | .subregion _ _ | .free _ _ _ _ => false
  | .wake i error _ =>
    match s.asleep[i]? with
    | some w => w.leaks s.ex error
    | none => false

/-- The region that holds the last requested address reaches to the end of the extent, behind
a request that is allocated already, or else begins at that address. -/
def Strands (ex : Extent) (start end_ : BitVec 64) : Prop :=
  ∃ rp ∈ ex.ex_regions, rp.er_start ≤ end_ ∧ end_ ≤ rp.er_end ∧
    (request start end_ ⊆ ex.allocated ∧ rp.er_end = ex.ex_end ∨
      ¬ request start end_ ⊆ ex.allocated ∧ rp.er_start = end_)

/-- An allocation under `EX_CONFLICTOK` that gets a descriptor and meets such a region. -/
def AllocLoses (ex : Extent) (start size : BitVec 64) (fl : Flags) : Prop :=
  fl.conflictok = true ∧ fl.waitspace = false ∧ ex.fex_freelist ≠ [] ∧
    Strands ex start (start + (size - 1#64))

/-- The step is such an allocation, new or after its sleep for a descriptor, or a signal ends a
sleep for space. -/
def Call.Loses (s : Users) : Call → Prop
  | .region start size fl _ => AllocLoses s.ex start size fl
  | .subregion _ _ | .free _ _ _ _ => False
  | .wake i error _ => ∃ w, s.asleep[i]? = some w ∧
      match tsleep w.flags error, w with
      | none, .region (.allocDescr start size fl) => AllocLoses s.ex start size fl
      | none, _ => False
      | some _, w => w.held ≠ []

section Strands

variable {ex : Extent} {start end_ : BitVec 64}

end Strands

/-- A call that has `k` descriptors at hand and gives up `leaked` of them leaves the extent
`ex'`, and keeps `held`. -/
structure Accounts (ex : Extent) (k leaked : ℕ) (ex' : Extent) (held : List ErFlags) : Prop where
  kept : ex'.Kept
  carved : ∀ d ∈ held, d = carved
  balance : ex'.descriptors + held.length + leaked = ex.descriptors + k

/-- What a call does unless it panics. -/
structure Settled (ex : Extent) (k leaked : ℕ) (r : Extent × Reply) : Prop where
  ends : r.2 ≠ .looping
  bounds : SameBounds ex r.1
  accounts : r.2 ≠ .panic → Accounts ex k leaked r.1 r.2.held
  plain : ∀ w, r.2 = .sleep w → w.Plain ex

theorem settled_ret {ex ex' : Extent} {k leaked : ℕ} (hk : ex'.Kept) (hb : SameBounds ex ex')
    (hbal : ex'.descriptors + leaked = ex.descriptors + k) (error : Option Errno) :
    Settled ex k leaked (ex', .ret error) :=
  ⟨by simp, hb, fun _ => ⟨hk, by simp [Reply.held], by simpa [Reply.held] using hbal⟩, by simp⟩

theorem Settled.take {ex ex' : Extent} {leaked : ℕ} {r : Extent × Reply}
    (h : Settled ex' 1 leaked r) (hd : ex'.descriptors + 1 = ex.descriptors)
    (hb : SameBounds ex ex') : Settled ex 0 leaked r := by
  refine ⟨h.ends, hb.trans h.bounds, fun hp => ?_,
    fun w hw => (h.plain w hw).congr hb.symm⟩
  obtain ⟨hk, hc, hbal⟩ := h.accounts hp
  exact ⟨hk, hc, by omega⟩

theorem settled_panic (ex : Extent) {k leaked : ℕ} : Settled ex k leaked (ex, .panic) :=
  ⟨by simp, .refl ex, by simp, by simp⟩

theorem settled_sleep {ex ex' : Extent} {k : ℕ} (hk : ex'.Kept) (hb : SameBounds ex ex')
    {w : Waiting} (hheld : ∀ d ∈ w.held, d = carved)
    (hbal : ex'.descriptors + w.held.length = ex.descriptors + k) (hw : w.Plain ex) :
    Settled ex k 0 (ex', .sleep w) :=
  ⟨by simp, hb, fun _ => ⟨hk, hheld, hbal⟩, fun w' hw' => by cases hw'; exact hw⟩

theorem kept_flags {ex : Extent} (h : ex.Kept) (wanted flwanted : Bool) :
    ({ ex with wanted := wanted, flwanted := flwanted } : Extent).Kept :=
  ⟨h.fixed, h.free, h.used⟩

theorem sameBounds_flags (ex : Extent) (wanted flwanted : Bool) :
    SameBounds ex { ex with wanted := wanted, flwanted := flwanted } := ⟨rfl, rfl⟩

theorem allocRegionDescriptor_cases {ex : Extent} (h : ex.Kept) {fl : Flags}
    (hfl : fl.mallocok = false) (pool : Bool) :
    (∃ rest, ex.fex_freelist = carved :: rest ∧
      allocRegionDescriptor ex fl pool = .got carved { ex with fex_freelist := rest } ∧
      ({ ex with fex_freelist := rest } : Extent).Kept ∧
      ({ ex with fex_freelist := rest } : Extent).descriptors + 1 = ex.descriptors) ∨
    (ex.fex_freelist = [] ∧ (allocRegionDescriptor ex fl pool = .null ∨
      allocRegionDescriptor ex fl pool = .sleep { ex with flwanted := true })) := by
  cases hfree : ex.fex_freelist with
  | nil =>
    refine .inr ⟨rfl, ?_⟩
    cases hw : fl.waitok <;> simp [allocRegionDescriptor, h.fixed, hfree, hfl, hw]
  | cons rp rest =>
    have hall := h.free
    rw [hfree] at hall
    obtain rfl : rp = carved := hall rp List.mem_cons_self
    refine .inl ⟨rest, rfl, ?_, ⟨h.fixed, fun x hx => hall x (List.mem_cons_of_mem _ hx), h.used⟩, ?_⟩
    · simp [allocRegionDescriptor, h.fixed, hfree]
    · simp only [Extent.descriptors, hfree, List.length_cons]
      omega

def meeting (regions : List Region) (start end_ : BitVec 64) : ℕ :=
  regions.countP fun r => r.er_start ≤ end_ ∧ start ≤ r.er_end

theorem meeting_split {rev rest : List Region} {rp : Region} {start end_ : BitVec 64}
    (hmeet : rp.er_start ≤ end_ ∧ start ≤ rp.er_end) :
    meeting (rev.reverse ++ rp :: rest) start end_ =
      meeting (rev.reverse ++ rest) start end_ + 1 := by
  simp only [meeting, List.countP_append, List.countP_cons, hmeet, and_self, decide_true, if_true]
  omega

theorem meeting_narrow {rev rest : List Region} {rp : Region} {start end_ start' end' : BitVec 64}
    (hmeet : rp.er_start ≤ end_ ∧ start ≤ rp.er_end)
    (hnot : ¬(rp.er_start ≤ end' ∧ start' ≤ rp.er_end)) (hstart : start ≤ start')
    (hend : end' ≤ end_) :
    meeting (rev.reverse ++ rp :: rest) start' end' <
      meeting (rev.reverse ++ rp :: rest) start end_ := by
  have hmono : meeting (rev.reverse ++ rest) start' end' ≤
      meeting (rev.reverse ++ rest) start end_ := by
    refine List.countP_mono_left fun r _ hr => ?_
    simp only [decide_eq_true_eq] at hr ⊢
    exact ⟨BitVec.le_trans hr.1 hend, BitVec.le_trans hstart hr.2⟩
  rw [meeting_split hmeet]
  simp only [meeting, List.countP_append, List.countP_cons, hnot, decide_false, if_false,
    Bool.false_eq_true] at hmono ⊢
  omega

theorem allocStart_settled (n : ℕ) {ex : Extent} (h : ex.Kept) (start size end_ : BitVec 64)
    (fl : Flags) {myrp : ErFlags} (hrp : myrp = carved)
    (hn : meeting ex.ex_regions start end_ < n) :
    Settled ex 1
      (if !fl.waitspace && fl.conflictok &&
        conflictLeft ex.ex_start ex.ex_end n ex.ex_regions start end_ then 1 else 0)
      ((allocStart n ex start size end_ fl myrp).1,
        (allocStart n ex start size end_ fl myrp).2.reply) := by
  induction n generalizing ex start size end_ with
  | zero => omega
  | succ n ih =>
    rw [allocStart, conflictLeft]
    cases hscan : scanRegions start end_ [] ex.ex_regions with
    | clear rev rest =>
      have hsplit := (scanRegions_clear hscan (by simp)).1
      obtain ⟨hk, hd⟩ := insertAndOptimize_kept h start size (by simpa using hsplit) hrp
      exact settled_ret hk (insertAndOptimize_bounds ex myrp) (by simp [hd]) none
    | conflict rev rp rest =>
      obtain ⟨hsplit, hmem, hle, hge⟩ := scanRegions_conflict hscan
      simp only [List.reverse_nil, List.nil_append] at hsplit
      have hused := h.used
      rw [← hsplit] at hused hn
      simp only [allCarved_append, allCarved_cons] at hused
      dsimp only
      by_cases hws : fl.waitspace = true
      · rw [if_pos hws]
        simp only [hws, Bool.not_true, Bool.false_and, Bool.false_eq_true, if_false]
        exact settled_sleep (kept_flags h true _) (sameBounds_flags ex true _)
          (by simp [Waiting.held, hrp]) rfl (by exact hws)
      · rw [if_neg hws]
        by_cases hco : fl.conflictok = true
        · rw [if_pos hco]
          have hgone : Settled ex 1 1 (ex, .ret none) := settled_ret h (.refl ex) rfl none
          simp only [hws, hco, Bool.not_false, Bool.true_and] at ih ⊢
          by_cases hstart : rp.er_start ≤ start
          · rw [if_pos hstart, if_pos hstart]
            by_cases hend : rp.er_end < ex.ex_end
            · -- the request now begins behind the region
              rw [if_pos hend, if_pos hend]
              refine ih h _ _ _ ?_
              rw [← hsplit]
              refine lt_of_lt_of_le (meeting_narrow ⟨hle, hge⟩ ?_ ?_ (BitVec.le_refl _))
                (Nat.lt_succ_iff.mp hn)
              · bv_omega
              · bv_omega
            · rw [if_neg hend, if_neg hend]
              exact hgone
          · rw [if_neg hstart, if_neg hstart]
            by_cases hin : rp.er_end < end_
            · -- the region is removed, and its descriptor goes back to the free list
              rw [if_pos hin, if_pos hin]
              have hk : ({ ex with ex_regions := rev.reverse ++ rest } : Extent).Kept :=
                ⟨h.fixed, h.free, by simp [hused]⟩
              obtain ⟨hk', hd⟩ := freeRegionDescriptor_kept hk hused.2.1
              have heq := freeRegionDescriptor_carved hk.fixed
              rw [hused.2.1] at hk' hd ⊢
              obtain ⟨hends, hb, hacc, hplain⟩ := ih hk' start size end_ (by
                rw [heq]
                rw [meeting_split ⟨hle, hge⟩] at hn
                exact Nat.lt_of_succ_lt_succ hn)
              have hb' : SameBounds ex (freeRegionDescriptor
                  { ex with ex_regions := rev.reverse ++ rest } carved) := ⟨by simp, by simp⟩
              refine ⟨hends, hb'.trans hb, fun hp => ?_,
                fun w hw => (hplain w hw).congr hb'.symm⟩
              have hsame : (freeRegionDescriptor { ex with ex_regions := rev.reverse ++ rest }
                  carved).descriptors = ex.descriptors := by
                rw [hd]
                simp only [Extent.descriptors, ← hsplit, List.length_append, List.length_cons]
                omega
              have hbal := (hacc hp).balance
              rw [hsame] at hbal
              refine ⟨(hacc hp).kept, (hacc hp).carved, ?_⟩
              rw [heq] at hbal ⊢
              exact hbal
            · rw [if_neg hin, if_neg hin]
              by_cases hlt : rp.er_start < end_
              · rw [if_pos hlt]
                by_cases hbegin : ex.ex_start < rp.er_start
                · -- the request now ends before the region
                  simp only [hlt, hbegin, and_self, if_true]
                  refine ih h _ _ _ ?_
                  rw [← hsplit]
                  refine lt_of_lt_of_le (meeting_narrow ⟨hle, hge⟩ ?_ (BitVec.le_refl _) ?_)
                    (Nat.lt_succ_iff.mp hn)
                  · bv_omega
                  · bv_omega
                · simp only [hbegin, and_false, if_false, if_true]
                  exact hgone
              · simp only [hlt, false_and, if_false, if_true]
                exact hgone
        · obtain ⟨hk, hd⟩ := freeRegionDescriptor_kept h hrp
          rw [if_neg hco]
          exact settled_ret hk (sameRegions_free ex myrp).2 (by simp [hd, hco]) (some .EAGAIN)

theorem allocChecked_settled {ex : Extent} (h : ex.Kept) {start size : BitVec 64}
    (ha : ex.ArgsOk start size) {fl : Flags} (hfl : fl.mallocok = false) (pool : Bool) :
    Settled ex 0 (if allocLeaks ex start (start + (size - 1#64)) fl then 1 else 0)
      ((allocChecked ex start size fl pool).1, (allocChecked ex start size fl pool).2.reply) := by
  rw [allocChecked]
  obtain ⟨rest, hfree, hgot, hk, hd⟩ | ⟨hfree, hnull | hsleep⟩ :=
    allocRegionDescriptor_cases h hfl pool
  · rw [hgot]
    have hfuel : meeting ex.ex_regions start (start + (size - 1#64)) <
        2 * ex.ex_regions.length + 2 := by
      have hle : meeting ex.ex_regions start (start + (size - 1#64)) ≤ ex.ex_regions.length :=
        List.countP_le_length
      omega
    have hleaks : allocLeaks ex start (start + (size - 1#64)) fl =
        (!fl.waitspace && fl.conflictok && conflictLeft ex.ex_start ex.ex_end
          (2 * ex.ex_regions.length + 2) ex.ex_regions start (start + (size - 1#64))) := by
      simp [allocLeaks, hfree]
    rw [hleaks]
    exact (allocStart_settled _ hk start size _ fl rfl hfuel).take hd ⟨rfl, rfl⟩
  · rw [hnull]
    have hleaks : allocLeaks ex start (start + (size - 1#64)) fl = false := by
      simp [allocLeaks, hfree]
    rw [hleaks]
    exact settled_ret h (.refl ex) rfl (some .ENOMEM)
  · rw [hsleep]
    have hleaks : allocLeaks ex start (start + (size - 1#64)) fl = false := by
      simp [allocLeaks, hfree]
    rw [hleaks]
    exact settled_sleep (kept_flags h _ true) (sameBounds_flags ex _ true)
      (by simp [Waiting.held]) rfl (by exact ⟨hfl, ha⟩)

theorem extentAllocRegion_cases (ex : Extent) (start size : BitVec 64) (fl : Flags) (pool : Bool) :
    extentAllocRegion ex start size fl pool = (ex, .panic) ∨
      ex.ArgsOk start size ∧
        extentAllocRegion ex start size fl pool = allocChecked ex start size fl pool := by
  unfold extentAllocRegion
  dsimp only
  split_ifs with hargs hrange
  · exact .inl rfl
  · exact .inl rfl
  · push Not at hargs
    exact .inr ⟨⟨hargs.1, by bv_omega, by bv_omega, by bv_omega⟩, rfl⟩

theorem extentAllocRegion_settled {ex : Extent} (h : ex.Kept) (start size : BitVec 64) {fl : Flags}
    (hfl : fl.mallocok = false) (pool : Bool) :
    Settled ex 0 (if allocLeaks ex start (start + (size - 1#64)) fl then 1 else 0)
      ((extentAllocRegion ex start size fl pool).1,
        (extentAllocRegion ex start size fl pool).2.reply) := by
  obtain hpanic | ⟨ha, hchecked⟩ := extentAllocRegion_cases ex start size fl pool
  · rw [hpanic]
    exact settled_panic ex
  · rw [hchecked]
    exact allocChecked_settled h ha hfl pool

def Scan.Splits (l : List Region) : Scan → Prop
  | .found _ rev rest => rev.reverse ++ rest = l
  | .last _ _ rev rest best =>
    rev.reverse ++ rest = l ∧ (best.ovh ≠ 0#64 → best.rev.reverse ++ best.rest = l)
  | .fail best => best.ovh ≠ 0#64 → best.rev.reverse ++ best.rest = l

theorem Best.improve_splits {l : List Region} {best : Best} (ovh newstart : BitVec 64)
    {rev rest : List Region} (hsplit : rev.reverse ++ rest = l)
    (h : best.ovh ≠ 0#64 → best.rev.reverse ++ best.rest = l) :
    (best.improve ovh newstart rev rest).ovh ≠ 0#64 →
      (best.improve ovh newstart rev rest).rev.reverse ++
        (best.improve ovh newstart rev rest).rest = l := by
  unfold Best.improve
  split_ifs
  · exact fun _ => hsplit
  · exact h

theorem scanGaps_splits {ex : Extent} {a : SubArgs} {l : List Region} (newstart : BitVec 64)
    {rev rest : List Region} {best : Best} (hsplit : rev.reverse ++ rest = l)
    (h : best.ovh ≠ 0#64 → best.rev.reverse ++ best.rest = l) :
    (scanGaps ex a newstart rev rest best).Splits l := by
  induction rest generalizing newstart rev best with
  | nil => exact ⟨hsplit, h⟩
  | cons rp rest ih =>
    have hskip : ∀ best : Best, (best.ovh ≠ 0#64 → best.rev.reverse ++ best.rest = l) →
        Scan.Splits l (if a.align (rp.er_end + 1#64) < rp.er_end then .fail best
          else scanGaps ex a (a.align (rp.er_end + 1#64)) (rp :: rev) rest best) := by
      intro best hbest
      split_ifs
      · exact hbest
      · exact ih _ (by simpa using hsplit) hbest
    unfold scanGaps
    by_cases hpast : a.subend < rp.er_start
    · rw [if_pos hpast]
      exact ⟨hsplit, h⟩
    · rw [if_neg hpast]
      dsimp only
      by_cases hfit : leOv newstart a.size rp.er_start
      · rw [if_pos hfit]
        cases checkBoundary ex a newstart (fun s => leOv s a.size rp.er_start) .skip with
        | skip => exact hskip best h
        | fail => exact h
        | place s =>
          dsimp only
          split
          · exact hsplit
          · exact hskip _ (Best.improve_splits _ _ hsplit h)
      · rw [if_neg hfit]
        exact hskip best h

theorem lastGap_splits {ex : Extent} {a : SubArgs} {l : List Region} (newstart exend : BitVec 64)
    {rev rest : List Region} {best : Best} (hsplit : rev.reverse ++ rest = l)
    (h : best.ovh ≠ 0#64 → best.rev.reverse ++ best.rest = l) :
    (lastGap ex a newstart exend rev rest best).Splits l := by
  unfold lastGap
  split_ifs
  · cases checkBoundary ex a newstart (fun s => leOv s (a.size - 1#64) a.subend) .fail with
    | skip => exact h
    | fail => exact h
    | place s =>
      dsimp only
      split
      · exact hsplit
      · exact Best.improve_splits _ _ hsplit h
  · exact h

theorem chooseGap_splits {ex : Extent} {a : SubArgs} {newstart s : BitVec 64}
    {l rev rest rev' rest' : List Region} (hsplit : rev.reverse ++ rest = l)
    (h : chooseGap a (searchGaps ex a newstart rev rest ⟨0#64, 0#64, [], []⟩) = some (s, rev', rest')) :
    rev'.reverse ++ rest' = l := by
  have hchoose : ∀ scan : Scan, scan.Splits l → chooseGap a scan = some (s, rev', rest') →
      rev'.reverse ++ rest' = l := by
    intro scan hscan hs
    cases scan with
    | found n l r =>
      cases hs
      exact hscan
    | last n exend l r best => cases hs
    | fail best =>
      dsimp only [chooseGap] at hs
      split_ifs at hs with hbest
      cases hs
      exact hscan hbest.2
  refine hchoose _ ?_ h
  have hscan : (scanGaps ex a newstart rev rest ⟨0#64, 0#64, [], []⟩).Splits l :=
    scanGaps_splits newstart hsplit (by simp)
  unfold searchGaps
  cases hc : scanGaps ex a newstart rev rest ⟨0#64, 0#64, [], []⟩ with
  | found n l r =>
    rw [hc] at hscan
    exact hscan
  | fail best =>
    rw [hc] at hscan
    exact hscan
  | last n exend l r best =>
    rw [hc] at hscan
    exact lastGap_splits n exend hscan.1 hscan.2

theorem doAllocStart_settled {ex : Extent} (h : ex.Kept) (a : SubArgs) {myrp : ErFlags}
    (hrp : myrp = carved) :
    Settled ex 1 0 ((doAllocStart ex a myrp).1, (doAllocStart ex a myrp).2.reply a myrp) := by
  unfold doAllocStart
  by_cases hstart : a.align a.substart < ex.ex_start
  · rw [if_pos hstart]
    exact settled_panic ex
  · rw [if_neg hstart]
    dsimp only
    split
    · rename_i s rev rest hchoose
      obtain ⟨hk, hd⟩ := insertAndOptimize_kept h s a.size
        (chooseGap_splits (firstGap_split ex a) hchoose) hrp
      exact ⟨by simp [SubResult.reply], insertAndOptimize_bounds ex myrp, fun _ => ⟨hk, by simp [SubResult.reply, Reply.held],
        by simp [SubResult.reply, Reply.held, hd]⟩, by simp [SubResult.reply]⟩
    · split_ifs
      · exact settled_sleep (kept_flags h true _) (sameBounds_flags ex true _)
          (by simp [Waiting.held, hrp]) rfl (by trivial)
      · obtain ⟨hk, hd⟩ := freeRegionDescriptor_kept h hrp
        exact settled_ret hk (sameRegions_free ex myrp).2 hd (some .EAGAIN)

theorem extentAllocSubregion_settled {ex : Extent} (h : ex.Kept) {a : SubArgs}
    (hfl : a.flags.mallocok = false) (pool : Bool) :
    Settled ex 0 0 (extentAllocSubregion ex a pool) := by
  rw [extentAllocSubregion]
  obtain ⟨rest, hfree, hgot, hk, hd⟩ | ⟨hfree, hnull | hsleep⟩ :=
    allocRegionDescriptor_cases h hfl pool
  · rw [hgot]
    refine Settled.take ?_ hd ⟨rfl, rfl⟩
    dsimp only
    unfold extentDoAlloc
    split_ifs
    · exact settled_panic _
    · exact settled_panic _
    · exact settled_panic _
    · exact settled_panic _
    · exact doAllocStart_settled hk a rfl
  · rw [hnull]
    exact settled_ret h (.refl ex) rfl (some .ENOMEM)
  · rw [hsleep]
    exact settled_sleep (kept_flags h _ true) (sameBounds_flags ex _ true)
      (by simp [Waiting.held]) rfl (by exact hfl)

theorem freeFound_settled {ex : Extent} (h : ex.Kept) (start end_ : BitVec 64)
    (nrp : Option ErFlags) (hnrp : ∀ d ∈ nrp, d = carved) :
    Settled ex nrp.toList.length 0
      ((freeFound ex start end_ nrp).1, (freeFound ex start end_ nrp).2.reply) := by
  unfold freeFound
  cases hfree : freeRegions start end_ nrp ex.ex_regions with
  | none => exact settled_panic ex
  | some r =>
    obtain ⟨regions, descrs⟩ := r
    obtain ⟨hl, hd, hlen⟩ := freeRegions_kept hnrp h.used hfree
    have hk : ({ ex with ex_regions := regions } : Extent).Kept := ⟨h.fixed, h.free, hl⟩
    obtain ⟨hk', hcount⟩ := foldl_freeRegionDescriptor_kept hk hd
    refine settled_ret (kept_flags hk' false _) ?_ ?_ none
    · exact (sameRegions_foldl { ex with ex_regions := regions } descrs).2
    have hsame : ∀ e : Extent, ({ e with wanted := false } : Extent).descriptors = e.descriptors :=
      fun _ => rfl
    rw [hsame, hcount]
    simp only [Extent.descriptors]
    omega

theorem freeChecked_settled {ex : Extent} (h : ex.Kept) (start end_ : BitVec 64) {fl : Flags}
    (hfl : fl.mallocok = false) (pool : Bool) :
    Settled ex 0 0 ((freeChecked ex start end_ fl pool).1,
      (freeChecked ex start end_ fl pool).2.reply) := by
  unfold freeChecked
  split_ifs
  · exact freeFound_settled h start end_ none (by simp)
  · obtain ⟨rest, hfree, hgot, hk, hd⟩ | ⟨hfree, hnull | hsleep⟩ :=
      allocRegionDescriptor_cases h hfl pool
    · rw [hgot]
      exact (freeFound_settled hk start end_ (some carved) (by simp)).take hd ⟨rfl, rfl⟩
    · rw [hnull]
      exact settled_ret h (.refl ex) rfl (some .ENOMEM)
    · rw [hsleep]
      exact settled_sleep (kept_flags h _ true) (sameBounds_flags ex _ true)
        (by simp [Waiting.held]) rfl (by exact hfl)

theorem extentFree_settled {ex : Extent} (h : ex.Kept) (start size : BitVec 64) {fl : Flags}
    (hfl : fl.mallocok = false) (pool : Bool) :
    Settled ex 0 0 ((extentFree ex start size fl pool).1,
      (extentFree ex start size fl pool).2.reply) := by
  unfold extentFree
  dsimp only
  split_ifs
  · exact settled_panic ex
  · exact settled_panic ex
  · exact freeChecked_settled h start _ hfl pool

theorem Waiting.resume_error (w : Waiting) (ex : Extent) {error : Option Errno} {e : Errno}
    (herr : tsleep w.flags error = some e) (pool : Bool) :
    ∃ error', w.resume ex error pool = (ex, .ret error') := by
  cases w with
  | region p =>
    simp only [Waiting.flags] at herr
    simp only [Waiting.resume, SubrExtent.resume, herr]
    cases p <;> exact ⟨_, rfl⟩
  | subDescr a =>
    simp only [Waiting.flags] at herr
    simp only [Waiting.resume, herr]
    exact ⟨_, rfl⟩
  | subSpace a myrp =>
    simp only [Waiting.flags] at herr
    simp only [Waiting.resume, resumeDoAlloc, herr]
    exact ⟨_, rfl⟩

theorem Waiting.held_cases (w : Waiting) : w.held = [] ∨ ∃ d, w.held = [d] := by
  cases w with
  | region p => cases p <;> simp [Waiting.held]
  | subDescr a => exact .inl rfl
  | subSpace a myrp => exact .inr ⟨myrp, rfl⟩

theorem Waiting.resume_settled {ex : Extent} (h : ex.Kept) {w : Waiting} (hw : w.Plain ex)
    (hheld : ∀ d ∈ w.held, d = carved) (error : Option Errno) (pool : Bool) :
    Settled ex w.held.length (if w.leaks ex error then 1 else 0) (w.resume ex error pool) := by
  cases herr : tsleep w.flags error with
  | none =>
    cases w with
    | region p =>
      cases p with
      | allocDescr start size fl =>
        simp only [Waiting.flags, Pending.flags] at herr
        simp only [Waiting.resume, SubrExtent.resume, Waiting.leaks, Waiting.flags, Pending.flags,
          herr]
        exact allocChecked_settled h hw.2 hw.1 pool
      | allocSpace start size end_ fl myrp =>
        simp only [Waiting.flags, Pending.flags] at herr
        simp only [Waiting.resume, SubrExtent.resume, Waiting.leaks, Waiting.flags, Pending.flags,
          herr]
        have hfuel : meeting ex.ex_regions start end_ < 2 * ex.ex_regions.length + 2 := by
          have hle : meeting ex.ex_regions start end_ ≤ ex.ex_regions.length :=
            List.countP_le_length
          omega
        have hws : fl.waitspace = true := hw
        have hrp : myrp = carved := hheld myrp (by simp [Waiting.held])
        have hset := allocStart_settled _ h start size end_ fl hrp hfuel
        simp only [hws, Bool.not_true, Bool.false_and, Bool.false_eq_true, if_false] at hset
        exact hset
      | freeDescr start end_ fl =>
        simp only [Waiting.flags, Pending.flags] at herr
        simp only [Waiting.resume, SubrExtent.resume, Waiting.leaks, Waiting.flags, Pending.flags,
          herr]
        exact freeChecked_settled h start end_ hw pool
    | subDescr a =>
      simp only [Waiting.flags] at herr
      simp only [Waiting.resume, Waiting.leaks, Waiting.flags, herr]
      exact extentAllocSubregion_settled h hw pool
    | subSpace a myrp =>
      simp only [Waiting.flags] at herr
      simp only [Waiting.resume, resumeDoAlloc, Waiting.leaks, Waiting.flags, herr]
      exact doAllocStart_settled h a (hheld myrp (by simp [Waiting.held]))
  | some e =>
    obtain ⟨error', hres⟩ := w.resume_error ex herr pool
    simp only [hres, Waiting.leaks, herr]
    refine settled_ret h (.refl ex) ?_ error'
    obtain hnil | ⟨d, hd⟩ := w.held_cases <;> simp [*]

/-- The descriptors that the sleeping calls hold. -/
def Users.held (s : Users) : List ErFlags := s.asleep.flatMap Waiting.held

/-- Where the `n` descriptors are, of which `leaked` have been given up. -/
structure Users.Inv (n leaked : ℕ) (s : Users) : Prop where
  kept : s.ex.Kept
  plain : ∀ w ∈ s.asleep, w.Plain s.ex
  source : ∀ d ∈ s.held, d = carved
  balance : s.ex.descriptors + s.held.length + leaked = n

theorem settle_users {n leaked k lost : ℕ} {ex : Extent} {asleep : List Waiting}
    (hplain : ∀ w ∈ asleep, w.Plain ex) (hcarved : ∀ d ∈ asleep.flatMap Waiting.held, d = carved)
    (hbal : ex.descriptors + k + (asleep.flatMap Waiting.held).length + leaked = n)
    {r : Extent × Reply} (hr : Settled ex k lost r) (hpanic : r.2 ≠ .panic) :
    (Users.settle asleep r).1.Inv n (leaked + lost) := by
  obtain ⟨hk, hc, hb⟩ := hr.accounts hpanic
  have hend : r.2.held = [] → Users.Inv n (leaked + lost) ⟨r.1, asleep⟩ := by
    intro hnil
    rw [hnil, List.length_nil] at hb
    refine ⟨hk, fun w hw => (hplain w hw).congr hr.bounds, hcarved, ?_⟩
    simp only [Users.held]
    omega
  unfold Users.settle
  split
  · rename_i w hw
    rw [hw] at hb hc
    refine ⟨hk, ?_, ?_, ?_⟩
    · intro x hx
      obtain hx | hx := List.mem_append.mp hx
      · exact (hplain x hx).congr hr.bounds
      · obtain rfl := List.mem_singleton.mp hx
        exact (hr.plain x hw).congr hr.bounds
    · intro d hd
      simp only [Users.held, List.flatMap_append, List.mem_append, List.flatMap_singleton] at hd
      obtain hd | hd := hd
      · exact hcarved d hd
      · exact hc d hd
    · have hsum : (List.flatMap Waiting.held (asleep ++ [w])).length =
          (asleep.flatMap Waiting.held).length + w.held.length := by simp
      simp only [Users.held, hsum, Reply.held] at hb ⊢
      omega
  · rename_i hnot
    refine hend ?_
    cases hrep : r.2 with
    | sleep w => exact absurd hrep (hnot w)
    | _ => rfl

/-- A step of a run. -/
structure CallStep where
  pre : Users
  call : Call
  reply : Reply
  deriving DecidableEq, Repr

/-- Runs without `EX_MALLOCOK` in which no call panics. -/
inductive CallRuns : Users → List CallStep → Users → Prop
  | nil (s : Users) : CallRuns s [] s
  | step {s s₁ s₂ : Users} {c : Call} {r : Reply} {tr : List CallStep} :
      c.Plain → s.exec c = some (s₁, r) → r ≠ .panic → CallRuns s₁ tr s₂ →
        CallRuns s (⟨s, c, r⟩ :: tr) s₂

theorem settle_snd (asleep : List Waiting) (r : Extent × Reply) :
    (Users.settle asleep r).2 = r.2 := by
  unfold Users.settle
  split <;> rfl

theorem Users.Inv.step {n leaked : ℕ} {s s' : Users} (h : s.Inv n leaked) {c : Call}
    (hc : c.Plain) {r : Reply} (hex : s.exec c = some (s', r)) (hpanic : r ≠ .panic) :
    s'.Inv n (leaked + if c.leaks s then 1 else 0) ∧ r ≠ .looping := by
  have hnew : ∀ (r₁ : Extent × Reply) (lost : ℕ), Settled s.ex 0 lost r₁ →
      Users.settle s.asleep r₁ = (s', r) → s'.Inv n (leaked + lost) ∧ r ≠ .looping := by
    intro r₁ lost hset heq
    have hr : r₁.2 = r := by rw [← settle_snd s.asleep r₁, heq]
    have hinv := settle_users h.plain h.source h.balance hset (hr ▸ hpanic)
    rw [heq] at hinv
    exact ⟨hinv, hr ▸ hset.ends⟩
  cases c with
  | region start size fl pool =>
    exact hnew _ _ (extentAllocRegion_settled h.kept start size hc pool) (Option.some.inj hex)
  | subregion a pool =>
    exact hnew _ _ (extentAllocSubregion_settled h.kept hc pool) (Option.some.inj hex)
  | free start size fl pool =>
    exact hnew _ _ (extentFree_settled h.kept start size hc pool) (Option.some.inj hex)
  | wake i error pool =>
    obtain ⟨w, hw, heq⟩ := Option.map_eq_some_iff.mp hex
    have hmem : w ∈ s.asleep := List.mem_of_getElem? hw
    have hsub : ∀ x ∈ s.asleep.eraseIdx i, x ∈ s.asleep := fun x hx => List.mem_of_mem_eraseIdx hx
    have hheld : ∀ d ∈ w.held, d = carved :=
      fun d hd => h.source d (List.mem_flatMap.mpr ⟨w, hmem, hd⟩)
    have hrest : ∀ d ∈ (s.asleep.eraseIdx i).flatMap Waiting.held, d = carved := by
      intro d hd
      obtain ⟨x, hx, hdx⟩ := List.mem_flatMap.mp hd
      exact h.source d (List.mem_flatMap.mpr ⟨x, hsub x hx, hdx⟩)
    have hlen : s.held.length =
        ((s.asleep.eraseIdx i).flatMap Waiting.held).length + w.held.length := by
      obtain ⟨hi, rfl⟩ := List.getElem?_eq_some_iff.mp hw
      have hperm := ((List.getElem_cons_eraseIdx_perm hi).flatMap_right Waiting.held).length_eq
      rw [List.flatMap_cons, List.length_append] at hperm
      rw [Users.held, ← hperm]
      omega
    have hset := Waiting.resume_settled h.kept (h.plain w hmem) hheld error pool
    have hr : (w.resume s.ex error pool).2 = r := by rw [← settle_snd (s.asleep.eraseIdx i), heq]
    have hbal : s.ex.descriptors + w.held.length +
        ((s.asleep.eraseIdx i).flatMap Waiting.held).length + leaked = n := by
      have hall := h.balance
      omega
    have hinv := settle_users (fun x hx => h.plain x (hsub x hx)) hrest hbal hset (hr ▸ hpanic)
    rw [heq] at hinv
    simp only [Call.leaks, hw]
    exact ⟨hinv, hr ▸ hset.ends⟩

theorem CallRuns.inv {n leaked : ℕ} {s s' : Users} {tr : List CallStep} (hr : CallRuns s tr s')
    (h : s.Inv n leaked) :
    s'.Inv n (leaked + tr.countP fun st => st.call.leaks st.pre) ∧
      ∀ st ∈ tr, st.reply ≠ .looping := by
  induction hr generalizing leaked with
  | nil s => exact ⟨h, by simp⟩
  | step hc hex hpanic _ ih =>
    obtain ⟨h₁, hends⟩ := h.step hc hex hpanic
    obtain ⟨h₂, hrest⟩ := ih h₁
    refine ⟨?_, ?_⟩
    · rw [List.countP_cons, add_comm (List.countP _ _), ← add_assoc]
      exact h₂
    · simp only [List.mem_cons, forall_eq_or_imp]
      exact ⟨hends, hrest⟩

def Users.replay (s : Users) : List Call → Option (List CallStep × Users)
  | [] => some ([], s)
  | c :: rest =>
    match s.exec c with
    | some (s₁, r) =>
      if c.Plain ∧ r ≠ .panic then (s₁.replay rest).map fun q => (⟨s, c, r⟩ :: q.1, q.2) else none
    | none => none

end OpenbsdKernel.SubrExtent
