import OpenbsdKernel.Lib.AlignUp
import OpenbsdKernel.Kern.Extent.Conflict

/-!
# Allocation in a subregion

`extent_do_alloc` of `kern/subr_extent.c`: the search for a gap that holds an
aligned region, first fit or best fit, with the boundary check made at each gap.
A call that waits for space is cut at the sleep; a wakeup starts the search again.
-/
namespace OpenbsdKernel.SubrExtent

/-- The `EX_*` flags of a subregion request. -/
structure SubFlags extends Flags where
  fast : Bool
  boundzero : Bool
  deriving DecidableEq, Repr

/-- The arguments of `extent_do_alloc`. -/
structure SubArgs where
  substart : BitVec 64
  subend : BitVec 64
  size : BitVec 64
  alignment : BitVec 64
  skew : BitVec 64
  boundary : BitVec 64
  flags : SubFlags
  deriving DecidableEq, Repr

def extentAlign (start align skew : BitVec 64) : BitVec 64 :=
  (((start - skew) + (align - 1#64)) &&& -align) + skew

/-- The macro `LE_OV`: `x + y ≤ z` without overflow. -/
abbrev leOv (x y z : BitVec 64) : Prop := x ≤ x + y ∧ x + y ≤ z

/-- `extent_align` with the alignment and skew of a request. -/
def SubArgs.align (a : SubArgs) (start : BitVec 64) : BitVec 64 :=
  extentAlign start a.alignment a.skew

/-- What the boundary check says of a candidate: its start, possibly moved to the
boundary, or that the gap is skipped, or that the search fails. -/
inductive Boundary where
  | place (newstart : BitVec 64)
  | skip
  | fail
  deriving DecidableEq, Repr

/-- The end of the boundary check: past the extent, or the boundary overflows. -/
def checkEnd (ex : Extent) (size newstart dontcross : BitVec 64) : Boundary :=
  if ex.ex_end < newstart + size - 1#64 ∨ dontcross < newstart then .fail else .place newstart

/-- The boundary check of one gap. `fits` is the gap's own test for a start moved to
the boundary and `misfit` what happens when it does not hold. -/
def checkBoundary (ex : Extent) (a : SubArgs) (newstart : BitVec 64) (fits : BitVec 64 → Bool)
    (misfit : Boundary) : Boundary :=
  if a.boundary = 0#64 then .place newstart
  else
    let newend := newstart + (a.size - 1#64)
    let dontcross := extentAlign (newstart + 1#64) a.boundary
      (if a.flags.boundzero then 0#64 else ex.ex_start) - 1#64
    -- the next boundary is beyond the last address
    if dontcross < ex.ex_start then checkEnd ex a.size newstart ex.ex_end
    else if dontcross < newend then
      if fits (dontcross + 1#64) then
        checkEnd ex a.size (dontcross + 1#64) (dontcross + a.boundary)
      else misfit
    else checkEnd ex a.size newstart dontcross

/-- `bestovh`, `beststart` and the place of `bestlast` in the list; an overhead of
zero marks that there is no candidate yet. -/
structure Best where
  ovh : BitVec 64
  start : BitVec 64
  rev : List Region
  rest : List Region
  deriving DecidableEq, Repr

inductive Scan where
  | found (newstart : BitVec 64) (rev rest : List Region)
  | last (newstart exend : BitVec 64) (rev rest : List Region) (best : Best)
  | fail (best : Best)
  deriving DecidableEq, Repr

def Best.improve (best : Best) (ovh newstart : BitVec 64) (rev rest : List Region) : Best :=
  if best.ovh = 0#64 ∨ ovh < best.ovh then ⟨ovh, newstart, rev, rest⟩ else best

/-- The first `LIST_FOREACH`: pass the regions that begin before `newstart`. -/
def passRegions (newstart : BitVec 64) : List Region → List Region → List Region × List Region
  | rev, [] => (rev, [])
  | rev, rp :: rest =>
    if newstart ≤ rp.er_start then (rev, rp :: rest) else passRegions newstart (rp :: rev) rest

/-- The loop over the gaps before the regions `rest`. -/
def scanGaps (ex : Extent) (a : SubArgs) :
    BitVec 64 → List Region → List Region → Best → Scan
  | newstart, rev, [], best => .last newstart ex.ex_end rev [] best
  | newstart, rev, rp :: rest, best =>
    if a.subend < rp.er_start then .last newstart rp.er_start rev (rp :: rest) best
    else
      let skip (best : Best) : Scan :=
        let newstart := a.align (rp.er_end + 1#64)
        if newstart < rp.er_end then .fail best else scanGaps ex a newstart (rp :: rev) rest best
      if leOv newstart a.size rp.er_start then
        match checkBoundary ex a newstart (fun s => leOv s a.size rp.er_start) .skip with
        | .skip => skip best
        | .fail => .fail best
        | .place newstart =>
          let ovh := rp.er_start - newstart - a.size
          if a.flags.fast ∨ ovh = 0#64 then .found newstart rev (rp :: rest)
          else skip (best.improve ovh newstart rev (rp :: rest))
      else skip best

def lastGap (ex : Extent) (a : SubArgs) (newstart exend : BitVec 64) (rev rest : List Region)
    (best : Best) : Scan :=
  if leOv newstart (a.size - 1#64) a.subend then
    match checkBoundary ex a newstart (fun s => leOv s (a.size - 1#64) a.subend) .fail with
    | .place newstart =>
      let ovh := exend - newstart - (a.size - 1#64)
      if a.flags.fast ∨ ovh = 0#64 then .found newstart rev rest
      else .fail (best.improve ovh newstart rev rest)
    | _ => .fail best
  else .fail best

def searchGaps (ex : Extent) (a : SubArgs) (newstart : BitVec 64) (rev rest : List Region)
    (best : Best) : Scan :=
  match scanGaps ex a newstart rev rest best with
  | .last newstart exend rev rest best => lastGap ex a newstart exend rev rest best
  | scan => scan

/-- The place for the new region, if there is one: the label `fail` takes the best match. -/
def chooseGap (a : SubArgs) : Scan → Option (BitVec 64 × List Region × List Region)
  | .found newstart rev rest => some (newstart, rev, rest)
  | .last .. => none
  | .fail best =>
    if a.flags.fast = false ∧ best.ovh ≠ 0#64 then some (best.start, best.rev, best.rest) else none

/-- The start of the first candidate and its place in the list. -/
def firstGap (ex : Extent) (a : SubArgs) : BitVec 64 × List Region × List Region :=
  let newstart := a.align a.substart
  match passRegions newstart [] ex.ex_regions with
  | ([], rest) => (newstart, [], rest)
  | (last :: rev, rest) =>
    (if newstart ≤ last.er_end then a.align (last.er_end + 1#64) else newstart, last :: rev, rest)

/-- What a call did before it returned or slept. -/
inductive SubResult where
  | panic
  | sleep
  | ret (error : Errno)
  | allocated (result : BitVec 64)
  deriving DecidableEq, Repr

/-- `extent_do_alloc` from the label `alloc_start`. -/
def doAllocStart (ex : Extent) (a : SubArgs) (myrp : ErFlags) : Extent × SubResult :=
  if a.align a.substart < ex.ex_start then (ex, .panic)
  else
    let first := firstGap ex a
    match chooseGap a (searchGaps ex a first.1 first.2.1 first.2.2 ⟨0#64, 0#64, [], []⟩) with
    | some (newstart, rev, rest) =>
      (extentInsertAndOptimize ex newstart a.size rev rest myrp, .allocated newstart)
    | none =>
      if a.flags.waitspace then ({ ex with wanted := true }, .sleep)
      else (freeRegionDescriptor ex myrp, .ret .EAGAIN)

def extentDoAlloc (ex : Extent) (a : SubArgs) (myrp : ErFlags) : Extent × SubResult :=
  if a.substart < ex.ex_start ∨ ex.ex_end < a.substart ∨ ex.ex_end < a.subend ∨
      a.subend < ex.ex_start then (ex, .panic)
  else if a.size < 1#64 ∨ a.subend - a.substart < a.size - 1#64 then (ex, .panic)
  else if a.alignment = 0#64 then (ex, .panic)
  else if a.boundary ≠ 0#64 ∧ a.boundary < a.size then (ex, .panic)
  else doAllocStart ex a myrp

/-- The rest of a call that is woken up, with `error` where a signal does it. -/
def resumeDoAlloc (ex : Extent) (a : SubArgs) (myrp : ErFlags) (error : Option Errno) :
    Extent × SubResult :=
  match tsleep a.flags.toFlags error with
  | some error => (ex, .ret error)
  | none => doAllocStart ex a myrp

def IsPow2 (x : BitVec 64) : Prop := ∃ k < 64, x = BitVec.twoPow 64 k

theorem IsPow2.toNat_pos {x : BitVec 64} (h : IsPow2 x) : 0 < x.toNat := by
  obtain ⟨k, hk, rfl⟩ := h
  rw [BitVec.toNat_twoPow_of_lt hk]
  exact Nat.two_pow_pos k

theorem IsPow2.dvd {x : BitVec 64} (h : IsPow2 x) : x.toNat ∣ 2 ^ 64 := by
  obtain ⟨k, hk, rfl⟩ := h
  rw [BitVec.toNat_twoPow_of_lt hk]
  exact Nat.pow_dvd_pow 2 hk.le

theorem IsPow2.le {x : BitVec 64} (h : IsPow2 x) : x.toNat ≤ 2 ^ 63 := by
  obtain ⟨k, hk, rfl⟩ := h
  rw [BitVec.toNat_twoPow_of_lt hk]
  exact Nat.pow_le_pow_right (by decide) (by omega)

theorem toNat_extentAlign {align : BitVec 64} (h : IsPow2 align) (start skew : BitVec 64) :
    (extentAlign start align skew).toNat =
      alignUp start.toNat align.toNat skew.toNat % 2 ^ 64 := by
  obtain ⟨k, hk, rfl⟩ := h
  rw [BitVec.toNat_twoPow_of_lt hk]
  exact toNat_alignUp start skew hk

/-- The least address at or above `x` that the request may start at. -/
def SubArgs.aligned (a : SubArgs) (x : ℕ) : ℕ := alignUp x a.alignment.toNat a.skew.toNat

/-- The smallest aligned address; an alignment that leaves the address space ends there. -/
def SubArgs.lowest (a : SubArgs) : ℕ := a.skew.toNat % a.alignment.toNat

/-- Past the last aligned address, alignment wraps to the lowest one. -/
theorem SubArgs.toNat_align {a : SubArgs} (h : IsPow2 a.alignment) (start : BitVec 64) :
    (a.align start).toNat =
      if a.aligned start.toNat < 2 ^ 64 then a.aligned start.toNat else a.lowest := by
  have hpos := h.toNat_pos
  have hlt := alignUp_lt (x := start.toNat) (s := a.skew.toNat) hpos
  have hle := h.le
  have hx := start.isLt
  rw [SubArgs.align, toNat_extentAlign h]
  unfold SubArgs.aligned SubArgs.lowest
  split_ifs with hw
  · exact Nat.mod_eq_of_lt hw
  · rw [Nat.mod_eq_sub_mod (by omega), Nat.mod_eq_of_lt (by omega)]
    exact alignUp_wrap h.dvd hpos hx.le (by omega)

/-- Alignment past the end of a region, and the overflow test that the loop makes on it. -/
theorem SubArgs.align_succ {a : SubArgs} (h : IsPow2 a.alignment) (e : BitVec 64) :
    (a.aligned (e.toNat + 1) < 2 ^ 64 ∧
        (a.align (e + 1#64)).toNat = a.aligned (e.toNat + 1) ∧ ¬ a.align (e + 1#64) < e) ∨
      (2 ^ 64 ≤ a.aligned (e.toNat + 1) ∧
        (a.align (e + 1#64)).toNat = a.lowest ∧ a.align (e + 1#64) < e) := by
  have hpos := h.toNat_pos
  have hle := h.le
  have hlow : a.lowest < a.alignment.toNat := Nat.mod_lt _ hpos
  have hlt := alignUp_lt (x := e.toNat + 1) (s := a.skew.toNat) hpos
  have hge := le_alignUp (e.toNat + 1) a.alignment.toNat a.skew.toNat
  have he := e.isLt
  have haln : a.aligned (e.toNat + 1) = alignUp (e.toNat + 1) a.alignment.toNat a.skew.toNat := rfl
  have hval := a.toNat_align h (e + 1#64)
  by_cases hmax : e.toNat + 1 = 2 ^ 64
  · have hzero : (e + 1#64).toNat = 0 := by bv_omega
    have hself : a.aligned 0 = a.lowest := by
      simp [SubArgs.aligned, SubArgs.lowest, alignUp]
    rw [hzero, hself, if_pos (by omega)] at hval
    refine .inr ⟨by omega, hval, ?_⟩
    rw [BitVec.lt_def, hval]
    omega
  · have hsucc : (e + 1#64).toNat = e.toNat + 1 := by bv_omega
    rw [hsucc] at hval
    split_ifs at hval with hw
    · refine .inl ⟨hw, hval, ?_⟩
      rw [BitVec.lt_def, hval]
      omega
    · refine .inr ⟨by omega, hval, ?_⟩
      rw [BitVec.lt_def, hval]
      omega

end OpenbsdKernel.SubrExtent
