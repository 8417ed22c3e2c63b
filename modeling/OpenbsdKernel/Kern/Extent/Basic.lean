import OpenbsdKernel.Sys.Errno
import Mathlib.Tactic

/-!
# Extent maps

The region list of `kern/subr_extent.c` with its descriptor bookkeeping. Calls
that sleep are cut at the sleep: a call either finishes with a `Result` or leaves
a `Pending` continuation that a later wakeup resumes. The kernel is taken with
`DIAGNOSTIC`, so failed argument checks panic. Whether `pool_get` without
`PR_WAITOK` finds memory is an input of each call.
-/
namespace OpenbsdKernel.SubrExtent

/-- `er_flags`: `ER_ALLOC` and `ER_DISCARD`. -/
structure ErFlags where
  alloc : Bool
  discard : Bool
  deriving DecidableEq, Repr

/-- `struct extent_region`. -/
structure Region where
  er_start : BitVec 64
  er_end : BitVec 64
  er_flags : ErFlags
  deriving DecidableEq, Repr

/-- `struct extent`, with the `EXF_*` bits of `ex_flags` as fields and the free
descriptors of a fixed extent. -/
structure Extent where
  ex_start : BitVec 64
  ex_end : BitVec 64
  ex_regions : List Region
  fixed : Bool
  nocoalesce : Bool
  wanted : Bool
  flwanted : Bool
  fex_freelist : List ErFlags
  deriving DecidableEq, Repr

/-- The `EX_*` flags that `extent_alloc_region` and `extent_free` test. -/
structure Flags where
  waitok : Bool
  catch_ : Bool
  mallocok : Bool
  waitspace : Bool
  conflictok : Bool
  deriving DecidableEq, Repr

inductive Descriptor where
  | got (rp : ErFlags) (ex : Extent)
  | null
  | sleep (ex : Extent)
  deriving DecidableEq, Repr

/-- `extent_alloc_region_descriptor` up to its first sleep. -/
def allocRegionDescriptor (ex : Extent) (fl : Flags) (pool : Bool) : Descriptor :=
  let alloc := if fl.waitok || pool then Descriptor.got ⟨true, false⟩ ex else .null
  if ex.fixed then
    match ex.fex_freelist with
    | rp :: rest => .got rp { ex with fex_freelist := rest }
    | [] =>
      if fl.mallocok then alloc
      else if !fl.waitok then .null
      else .sleep { ex with flwanted := true }
  else alloc

/-- `extent_free_region_descriptor`. -/
def freeRegionDescriptor (ex : Extent) (rp : ErFlags) : Extent :=
  if rp.discard then ex
  else if ex.fixed then
    if rp.alloc then
      if ex.flwanted then
        { ex with fex_freelist := ⟨true, false⟩ :: ex.fex_freelist, flwanted := false }
      else ex
    else { ex with fex_freelist := ⟨false, false⟩ :: ex.fex_freelist, flwanted := false }
  else ex

/-- `extent_create` for `start ≤ end_`; `storage` is the number of descriptors
that fit in the caller's memory, if any was given. -/
def extentCreate (start end_ : BitVec 64) (storage : Option ℕ) (nocoalesce filled : Bool)
    (fl : Flags) (pool : Bool) : Option Extent :=
  if end_ < start then none
  else
    let ex : Extent :=
      { ex_start := start, ex_end := end_, ex_regions := [], fixed := storage.isSome,
        nocoalesce := nocoalesce, wanted := false, flwanted := false,
        fex_freelist := List.replicate (storage.getD 0) ⟨false, false⟩ }
    if filled then
      match allocRegionDescriptor ex fl pool with
      | .got rp ex => some { ex with ex_regions := [⟨start, end_, rp⟩] }
      | _ => none
    else some ex

/-- `extent_insert_and_optimize`: the new region goes between `rev`, the regions
passed so far with the last one first, and `rest`. -/
def extentInsertAndOptimize (ex : Extent) (start size : BitVec 64) (rev rest : List Region)
    (rp : ErFlags) : Extent :=
  let new : Region := ⟨start, start + (size - 1#64), rp⟩
  match rev with
  | [] =>
    match rest with
    | [] => { ex with ex_regions := [new] }
    | first :: more =>
      if !ex.nocoalesce ∧ start + size = first.er_start then
        freeRegionDescriptor { ex with ex_regions := { first with er_start := start } :: more } rp
      else { ex with ex_regions := new :: first :: more }
  | after :: before =>
    if ex.nocoalesce then { ex with ex_regions := before.reverse ++ after :: new :: rest }
    else
      let appended : Bool := after.er_end + 1#64 = start
      let after' : Region :=
        if appended then { after with er_end := start + (size - 1#64) } else after
      match rest with
      | nextr :: more =>
        if start + size = nextr.er_start then
          if appended then
            let joined := { after' with er_end := nextr.er_end }
            freeRegionDescriptor (freeRegionDescriptor
              { ex with ex_regions := before.reverse ++ joined :: more } nextr.er_flags) rp
          else
            let nextr' := { nextr with er_start := start }
            freeRegionDescriptor
              { ex with ex_regions := before.reverse ++ after' :: nextr' :: more } rp
        else if appended then
          freeRegionDescriptor { ex with ex_regions := before.reverse ++ after' :: nextr :: more } rp
        else { ex with ex_regions := before.reverse ++ after' :: new :: nextr :: more }
      | [] =>
        if appended then
          freeRegionDescriptor { ex with ex_regions := before.reverse ++ [after'] } rp
        else { ex with ex_regions := before.reverse ++ [after', new] }

/-- Where the scan of the region list stops, with the passed regions reversed. -/
inductive Found where
  | conflict (rev : List Region) (rp : Region) (rest : List Region)
  | clear (rev rest : List Region)
  deriving DecidableEq, Repr

/-- The `LIST_FOREACH` of `extent_alloc_region`. -/
def scanRegions (start end_ : BitVec 64) : List Region → List Region → Found
  | rev, [] => .clear rev []
  | rev, rp :: rest =>
    if end_ < rp.er_start then .clear rev (rp :: rest)
    else if start ≤ rp.er_end then .conflict rev rp rest
    else scanRegions start end_ (rp :: rev) rest

/-- A call cut at a sleep, with the locals it needs to go on. -/
inductive Pending where
  | allocDescr (start size : BitVec 64) (fl : Flags)
  | allocSpace (start size end_ : BitVec 64) (fl : Flags) (myrp : ErFlags)
  | freeDescr (start end_ : BitVec 64) (fl : Flags)
  deriving DecidableEq, Repr

/-- What a call did before it returned or slept. `looping` reports that the
retry loop of `EX_CONFLICTOK` outlived its bound. -/
inductive Result where
  | panic
  | ret (error : Option Errno)
  | sleep (p : Pending)
  | looping
  deriving DecidableEq, Repr

/-- The loop from the label `alloc_start`, bounded by a number of restarts. -/
def allocStart : ℕ → Extent → BitVec 64 → BitVec 64 → BitVec 64 → Flags → ErFlags →
    Extent × Result
  | 0, ex, _, _, _, _, _ => (ex, .looping)
  | n + 1, ex, start, size, end_, fl, myrp =>
    match scanRegions start end_ [] ex.ex_regions with
    | .clear rev rest => (extentInsertAndOptimize ex start size rev rest myrp, .ret none)
    | .conflict rev rp rest =>
      if fl.waitspace then
        ({ ex with wanted := true }, .sleep (.allocSpace start size end_ fl myrp))
      else if fl.conflictok then
        if rp.er_start ≤ start then
          if rp.er_end < ex.ex_end then
            let start' := rp.er_end + 1#64
            allocStart n ex start' (end_ - start' + 1#64) end_ fl myrp
          else (ex, .ret none)
        else if rp.er_end < end_ then
          let ex' := freeRegionDescriptor { ex with ex_regions := rev.reverse ++ rest } rp.er_flags
          allocStart n ex' start size end_ fl myrp
        else if rp.er_start < end_ then
          if ex.ex_start < rp.er_start then
            let end' := rp.er_start - 1#64
            allocStart n ex start (end' - start + 1#64) end' fl myrp
          else (ex, .ret none)
        else (ex, .ret none)
      else (freeRegionDescriptor ex myrp, .ret (some .EAGAIN))

/-- `extent_alloc_region` once its arguments are checked. -/
def allocChecked (ex : Extent) (start size : BitVec 64) (fl : Flags) (pool : Bool) :
    Extent × Result :=
  match allocRegionDescriptor ex fl pool with
  | .null => (ex, .ret (some .ENOMEM))
  | .sleep ex' => (ex', .sleep (.allocDescr start size fl))
  | .got myrp ex' =>
    allocStart (2 * ex'.ex_regions.length + 2) ex' start size (start + (size - 1#64)) fl myrp

def extentAllocRegion (ex : Extent) (start size : BitVec 64) (fl : Flags) (pool : Bool) :
    Extent × Result :=
  let end_ := start + (size - 1#64)
  if size < 1#64 ∨ end_ < start ∨ (fl.conflictok && fl.waitspace) = true then (ex, .panic)
  else if start < ex.ex_start ∨ ex.ex_end < end_ then (ex, .panic)
  else allocChecked ex start size fl pool

/-- The `LIST_FOREACH` of `extent_free` with the descriptor `nrp` at hand: the
new region list and the descriptors to give back, or `none` where it panics. -/
def freeRegions (start end_ : BitVec 64) (nrp : Option ErFlags) :
    List Region → Option (List Region × List ErFlags)
  | [] => none
  | rp :: rest =>
    let skip := (freeRegions start end_ nrp rest).map fun r => (rp :: r.1, r.2)
    if rp.er_end < start then skip
    else if end_ < rp.er_start then none
    else if start = rp.er_start ∧ end_ = rp.er_end then some (rest, rp.er_flags :: nrp.toList)
    else match nrp with
      -- no descriptor was allocated: `EXF_NOCOALESCE` is set
      | none => skip
      | some d =>
        if start = rp.er_start ∧ end_ < rp.er_end then
          some ({ rp with er_start := end_ + 1#64 } :: rest, [d])
        else if rp.er_start < start ∧ end_ = rp.er_end then
          some ({ rp with er_end := start - 1#64 } :: rest, [d])
        else if rp.er_start < start ∧ end_ < rp.er_end then
          some ({ rp with er_end := start - 1#64 } :: ⟨end_ + 1#64, rp.er_end, d⟩ :: rest, [])
        else skip

/-- `extent_free` from the search on. -/
def freeFound (ex : Extent) (start end_ : BitVec 64) (nrp : Option ErFlags) : Extent × Result :=
  match freeRegions start end_ nrp ex.ex_regions with
  | none => (ex, .panic)
  | some (regions, descrs) =>
    let ex' := descrs.foldl freeRegionDescriptor { ex with ex_regions := regions }
    ({ ex' with wanted := false }, .ret none)

/-- `extent_free` once its arguments are checked. -/
def freeChecked (ex : Extent) (start end_ : BitVec 64) (fl : Flags) (pool : Bool) :
    Extent × Result :=
  if ex.nocoalesce then freeFound ex start end_ none
  else match allocRegionDescriptor ex fl pool with
    | .null => (ex, .ret (some .ENOMEM))
    | .sleep ex' => (ex', .sleep (.freeDescr start end_ fl))
    | .got nrp ex' => freeFound ex' start end_ (some nrp)

def extentFree (ex : Extent) (start size : BitVec 64) (fl : Flags) (pool : Bool) :
    Extent × Result :=
  let end_ := start + (size - 1#64)
  if start < ex.ex_start ∨ ex.ex_end < end_ then (ex, .panic)
  else if end_ < start then (ex, .panic)
  else freeChecked ex start end_ fl pool

/-- The result of `tsleep`: a signal ends the sleep under `EX_CATCH` only. -/
def tsleep (fl : Flags) (error : Option Errno) : Option Errno :=
  if fl.catch_ then error else none

@[simp] theorem tsleep_none (fl : Flags) : tsleep fl none = none := by
  simp [tsleep]

/-- The flags of the call. -/
def Pending.flags : Pending → Flags
  | .allocDescr _ _ fl => fl
  | .allocSpace _ _ _ fl _ => fl
  | .freeDescr _ _ fl => fl

/-- The rest of a call that is woken up, with `error` where a signal does it. -/
def resume (ex : Extent) (p : Pending) (error : Option Errno) (pool : Bool) : Extent × Result :=
  match p, tsleep p.flags error with
  | .allocDescr .., some _ => (ex, .ret (some .ENOMEM))
  | .allocDescr start size fl, none => allocChecked ex start size fl pool
  | .allocSpace .., some e => (ex, .ret (some e))
  | .allocSpace start size end_ fl myrp, none =>
    allocStart (2 * ex.ex_regions.length + 2) ex start size end_ fl myrp
  | .freeDescr .., some _ => (ex, .ret (some .ENOMEM))
  | .freeDescr start end_ fl, none => freeChecked ex start end_ fl pool

/-- An extent and the calls asleep on it. -/
structure Sys where
  ex : Extent
  asleep : List Pending
  deriving DecidableEq, Repr

/-- One scheduling step: a new call, or a sleeping call that `tsleep` lets go on. -/
inductive Op where
  | alloc (start size : BitVec 64) (fl : Flags) (pool : Bool)
  | free (start size : BitVec 64) (fl : Flags) (pool : Bool)
  | wake (i : ℕ) (error : Option Errno) (pool : Bool)
  deriving DecidableEq, Repr

/-- Record the outcome of a call; a sleeping one joins the sleepers. -/
def settle (asleep : List Pending) (r : Extent × Result) : Sys × Result :=
  match r.2 with
  | .sleep p => (⟨r.1, asleep ++ [p]⟩, r.2)
  | _ => (⟨r.1, asleep⟩, r.2)

def step (s : Sys) : Op → Sys × Result
  | .alloc start size fl pool => settle s.asleep (extentAllocRegion s.ex start size fl pool)
  | .free start size fl pool => settle s.asleep (extentFree s.ex start size fl pool)
  | .wake i error pool =>
    match s.asleep[i]? with
    | none => (s, .panic)
    | some p => settle (s.asleep.eraseIdx i) (resume s.ex p error pool)

end OpenbsdKernel.SubrExtent
