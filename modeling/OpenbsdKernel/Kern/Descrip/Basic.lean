import OpenbsdKernel.Lib.Loop
import OpenbsdKernel.Lib.Bitmap
import OpenbsdKernel.Sys.Errno

/-!
# File descriptor tables

The descriptor table of `kern/kern_descrip.c`: two levels of bit maps, two hints and
the file pointers. Descriptors are natural numbers, files are known by their address,
an element of an arbitrary type. What lies in memory behind the maps is a parameter of
the functions that may read past their end.
-/
namespace OpenbsdKernel.Descrip

def NDFILE : ℕ := 20
def NDEXTENT : ℕ := 50
def NDENTRIES : ℕ := 32
def NDENTRYMASK : ℕ := 31
def NDENTRYSHIFT : ℕ := 5

def NDREDUCE (x : ℕ) : ℕ := (x + NDENTRIES - 1) >>> NDENTRYSHIFT
def NDHISLOTS (x : ℕ) : ℕ := NDREDUCE (NDREDUCE x)
def NDLOSLOTS (x : ℕ) : ℕ := NDHISLOTS x <<< NDENTRYSHIFT

def UF_EXCLOSE : BitVec 8 := 1#8

/-- `struct filedesc` without the parts that are not about descriptors. -/
structure Filedesc (φ : Type*) where
  fd_ofiles : ℕ → Option φ
  fd_ofileflags : ℕ → BitVec 8
  fd_nfiles : ℕ
  fd_openfd : ℤ
  fd_himap : ℕ → BitVec 32
  fd_lomap : ℕ → BitVec 32
  fd_lastfile : ℕ
  fd_freefile : ℕ

/-- The memory behind the two maps, as `find_next_zero` would read it. -/
structure Beyond where
  himap : ℕ → BitVec 32
  lomap : ℕ → BitVec 32

variable {φ : Type*}

/-- `fdinit`; the structure is zeroed. -/
def fdinit : Filedesc φ where
  fd_ofiles := fun _ => none
  fd_ofileflags := fun _ => 0#8
  fd_nfiles := NDFILE
  fd_openfd := 0
  fd_himap := fun _ => 0#32
  fd_lomap := fun _ => 0#32
  fd_lastfile := 0
  fd_freefile := 0

/-- `ffs`: the position of the first bit set, counted from 1, or 0. -/
def ffs (x : BitVec 32) : ℕ :=
  match (List.range 32).find? fun i => x.getLsbD i with
  | some i => i + 1
  | none => 0

/-- The loop of `find_next_zero` from word `off` on. -/
def scanZero (bitmap : ℕ → BitVec 32) (off maxoff : ℕ) : Option ℕ :=
  ((List.range' off (maxoff - off)).find? fun off => bitmap off ≠ BitVec.allOnes 32).map
    fun off => (off <<< NDENTRYSHIFT) + ffs (~~~bitmap off) - 1

/-- `find_next_zero`; `none` is −1. -/
def findNextZero (bitmap : ℕ → BitVec 32) (want bits : ℕ) : Option ℕ :=
  if bits < want then none
  else
    let off := want >>> NDENTRYSHIFT
    let i := want &&& NDENTRYMASK
    if i ≠ 0 then
      let sub := bitmap off ||| BitVec.allOnes 32 >>> (NDENTRIES - i)
      if sub ≠ BitVec.allOnes 32 then some ((off <<< NDENTRYSHIFT) + ffs (~~~sub) - 1)
      else scanZero bitmap (off + 1) (NDLOSLOTS bits)
    else scanZero bitmap off (NDLOSLOTS bits)

/-- The first loop of `find_last_set`: the last word with a bit set, from `off` down. -/
def lastWord (bitmap : ℕ → BitVec 32) : ℕ → Option ℕ
  | 0 => if bitmap 0 ≠ 0#32 then some 0 else none
  | off + 1 => if bitmap (off + 1) ≠ 0#32 then some (off + 1) else lastWord bitmap off

/-- The second loop of `find_last_set`: the last slot with a file, from `i` down. -/
def lastSlot (ofiles : ℕ → Option φ) : ℕ → ℕ
  | 0 => 0
  | i + 1 => if (ofiles (i + 1)).isNone then lastSlot ofiles i else i + 1

def findLastSet (fd : Filedesc φ) (last : ℕ) : ℕ :=
  if last = 0 then 0
  else
    match lastWord fd.fd_lomap ((last - 1) >>> NDENTRYSHIFT) with
    | none => 0
    | some off =>
      let i := ((off + 1) <<< NDENTRYSHIFT) - 1
      lastSlot fd.fd_ofiles (if last ≤ i then last - 1 else i)

def fdUsed (fdp : Filedesc φ) (fd : ℕ) : Filedesc φ :=
  let off := fd >>> NDENTRYSHIFT
  let lomap := Function.update fdp.fd_lomap off
    (fdp.fd_lomap off ||| 1#32 <<< (fd &&& NDENTRYMASK))
  { fdp with
    fd_lomap := lomap
    fd_himap :=
      if lomap off = BitVec.allOnes 32 then
        Function.update fdp.fd_himap (off >>> NDENTRYSHIFT)
          (fdp.fd_himap (off >>> NDENTRYSHIFT) ||| 1#32 <<< (off &&& NDENTRYMASK))
      else fdp.fd_himap
    fd_lastfile := if fdp.fd_lastfile < fd then fd else fdp.fd_lastfile
    fd_openfd := fdp.fd_openfd + 1 }

def fdUnused (fdp : Filedesc φ) (fd : ℕ) : Filedesc φ :=
  let off := fd >>> NDENTRYSHIFT
  let fdp₁ : Filedesc φ :=
    { fdp with
      fd_freefile := if fd < fdp.fd_freefile then fd else fdp.fd_freefile
      fd_himap :=
        if fdp.fd_lomap off = BitVec.allOnes 32 then
          Function.update fdp.fd_himap (off >>> NDENTRYSHIFT)
            (fdp.fd_himap (off >>> NDENTRYSHIFT) &&& ~~~(1#32 <<< (off &&& NDENTRYMASK)))
        else fdp.fd_himap
      fd_lomap := Function.update fdp.fd_lomap off
        (fdp.fd_lomap off &&& ~~~(1#32 <<< (fd &&& NDENTRYMASK))) }
  { fdp₁ with
    fd_lastfile := if fd = fdp.fd_lastfile then findLastSet fdp₁ fd else fdp.fd_lastfile
    fd_openfd := fdp.fd_openfd - 1 }

/-- The maps as `fdalloc` reads them. -/
def Filedesc.hi (fdp : Filedesc φ) (b : Beyond) (w : ℕ) : BitVec 32 :=
  if w < NDHISLOTS fdp.fd_nfiles then fdp.fd_himap w else b.himap w

def Filedesc.lo (fdp : Filedesc φ) (b : Beyond) (w : ℕ) : BitVec 32 :=
  if w < NDLOSLOTS fdp.fd_nfiles then fdp.fd_lomap w else b.lomap w

/-- `fdalloc` from `restart` on: the descriptor found together with the `want` it was
found for, or an error. -/
def fdallocStep (fdp : Filedesc φ) (b : Beyond) (lim want : ℕ) :
    Loop.Step ℕ (Except Errno (ℕ × ℕ)) Empty :=
  let last := min fdp.fd_nfiles lim
  let i := if want < fdp.fd_freefile then fdp.fd_freefile else want
  let off := i >>> NDENTRYSHIFT
  let fail : Loop.Step ℕ (Except Errno (ℕ × ℕ)) Empty :=
    .done (if lim ≤ fdp.fd_nfiles then .error .EMFILE else .error .ENOSPC)
  match findNextZero (fdp.hi b) off ((last + NDENTRIES - 1) >>> NDENTRYSHIFT) with
  | none => fail
  | some new =>
    match findNextZero (fun w => fdp.lo b (new + w)) (if off < new then 0 else i &&& NDENTRYMASK)
        NDENTRIES with
    -- a free descriptor of this block was below `want`
    | none => .next ((new + 1) <<< NDENTRYSHIFT)
    | some j =>
      let i := j + new <<< NDENTRYSHIFT
      if i < last then .done (.ok (i, want)) else fail

/-- How often `fdalloc` can start over. -/
def fdallocFuel (fdp : Filedesc φ) (lim : ℕ) : ℕ :=
  ((min fdp.fd_nfiles lim + NDENTRIES - 1) >>> NDENTRYSHIFT) + 2

/-- `fdalloc(p, want, &fd)`. -/
def fdalloc (fdp : Filedesc φ) (b : Beyond) (lim want : ℕ) : Filedesc φ × Except Errno ℕ :=
  match Loop.run (fdallocStep fdp b lim) (fdallocFuel fdp lim) want with
  | .returned (.ok (i, want)) _ =>
    let fdp₁ := fdUsed fdp i
    ({ fdp₁ with
        fd_freefile := if want ≤ fdp₁.fd_freefile then i else fdp₁.fd_freefile
        fd_ofileflags := Function.update fdp₁.fd_ofileflags i 0#8 }, .ok i)
  | .returned (.error e) _ => (fdp, .error e)
  | _ => (fdp, .error .EMFILE)

def fdexpand (fdp : Filedesc φ) : Filedesc φ :=
  let nfiles := if fdp.fd_nfiles < NDEXTENT then NDEXTENT else 2 * fdp.fd_nfiles
  { fdp with
    fd_ofiles := fun fd => if fd < fdp.fd_nfiles then fdp.fd_ofiles fd else none
    fd_ofileflags := fun fd => if fd < fdp.fd_nfiles then fdp.fd_ofileflags fd else 0#8
    fd_himap :=
      if NDHISLOTS fdp.fd_nfiles < NDHISLOTS nfiles then
        fun w => if w < NDHISLOTS fdp.fd_nfiles then fdp.fd_himap w else 0#32
      else fdp.fd_himap
    fd_lomap :=
      if NDHISLOTS fdp.fd_nfiles < NDHISLOTS nfiles then
        fun w => if w < NDLOSLOTS fdp.fd_nfiles then fdp.fd_lomap w else 0#32
      else fdp.fd_lomap
    fd_nfiles := nfiles }

/-- One round of `falloc`: `full` tells whether the system has run out of files, `fp` is
the new file. -/
def fallocStep (b : ℕ → Beyond) (lim : ℕ) (full : Bool) (fp : φ) (fdp : Filedesc φ) :
    Loop.Step (Filedesc φ) (Filedesc φ × Except Errno ℕ) Empty :=
  match fdalloc fdp (b fdp.fd_nfiles) lim 0 with
  | (_, .error e) => if e = .ENOSPC then .next (fdexpand fdp) else .done (fdp, .error e)
  | (fdp₁, .ok i) =>
    if full then .done (fdUnused fdp₁ i, .error .ENFILE)
    else .done ({ fdp₁ with fd_ofiles := Function.update fdp₁.fd_ofiles i (some fp) }, .ok i)

/-- `falloc`; the memory behind the maps changes as the table grows. -/
def falloc (b : ℕ → Beyond) (lim : ℕ) (full : Bool) (fp : φ) (fdp : Filedesc φ) :
    Filedesc φ × Except Errno ℕ :=
  match Loop.run (fallocStep b lim full fp) (lim - fdp.fd_nfiles + 1) fdp with
  | .returned r _ => r
  | _ => (fdp, .error .EMFILE)

/-- `finishdup`; `deadlk` tells whether the reference count of the file is exhausted. -/
def finishdup (fdp : Filedesc φ) (fp : φ) (deadlk : Bool) (old new : ℕ) (dup2 : Bool) :
    Filedesc φ × Except Errno ℕ :=
  if deadlk then (fdp, .error .EDEADLK)
  else
    let oldfp := fdp.fd_ofiles new
    let fdp₁ : Filedesc φ :=
      { fdp with
        fd_ofiles := Function.update fdp.fd_ofiles new (some fp)
        fd_ofileflags := Function.update fdp.fd_ofileflags new
          (fdp.fd_ofileflags old &&& ~~~UF_EXCLOSE) }
    (if dup2 ∧ oldfp.isNone then fdUsed fdp₁ new else fdp₁, .ok new)

/-- How a round of `dodup3` ends; the lock is not held between rounds. -/
inductive Dup3 where
  | restart
  | failed (e : Errno)
  | dup (new : ℕ)
  | panic
  deriving DecidableEq, Repr

/-- The end of `dodup3`, where the table has the slot. -/
def dup3Finish (fdp : Filedesc φ) (fp : φ) (deadlk cloexec : Bool) (old new : ℕ) :
    Filedesc φ × Dup3 :=
  match finishdup fdp fp deadlk old new true with
  | (fdp₁, .ok i) =>
    (if cloexec then
        { fdp₁ with
          fd_ofileflags := Function.update fdp₁.fd_ofileflags new
            (fdp₁.fd_ofileflags new ||| UF_EXCLOSE) }
      else fdp₁, .dup i)
  | (fdp₁, .error e) => (fdp₁, .failed e)

/-- One round of `dodup3`; `usable` is `FILE_IS_USABLE`. -/
def dodup3 (fdp : Filedesc φ) (b : Beyond) (lim : ℕ) (usable : φ → Bool) (deadlk cloexec : Bool)
    (old new : ℕ) : Filedesc φ × Dup3 :=
  match if old < fdp.fd_nfiles then fdp.fd_ofiles old else none with
  | none => (fdp, .failed .EBADF)
  | some fp =>
    if usable fp = false then (fdp, .failed .EBADF)
    else if lim ≤ new then (fdp, .failed .EBADF)
    else if old = new then (fdp, .dup new)
    else if fdp.fd_nfiles ≤ new then
      match fdalloc fdp b lim new with
      | (_, .error e) => if e = .ENOSPC then (fdexpand fdp, .restart) else (fdp, .failed e)
      | (fdp₁, .ok i) =>
        if new ≠ i then (fdp₁, .panic)
        else dup3Finish (fdUnused fdp₁ new) fp deadlk cloexec old new
    else dup3Finish fdp fp deadlk cloexec old new

def fdremove (fdp : Filedesc φ) (fd : ℕ) : Filedesc φ :=
  fdUnused { fdp with fd_ofiles := Function.update fdp.fd_ofiles fd none } fd

/-- `fdrelease`; closing the file is outside the table. -/
def fdrelease (fdp : Filedesc φ) (fd : ℕ) : Filedesc φ × Except Errno Unit :=
  if (fdp.fd_ofiles fd).isNone then (fdp, .error .EBADF) else (fdremove fdp fd, .ok ())

/-- A loop `for (i = start; i <= fdp->fd_lastfile; i++)`, the bound being read anew every
time; `n` is the number of rounds still allowed. -/
def forLastfile (body : Filedesc φ → ℕ → Filedesc φ) : ℕ → ℕ → Filedesc φ → Filedesc φ
  | 0, _, fdp => fdp
  | n + 1, i, fdp =>
    if i ≤ fdp.fd_lastfile then forLastfile body n (i + 1) (body fdp i) else fdp

def sysClosefrom (fdp : Filedesc φ) (startfd : ℕ) : Filedesc φ × Except Errno Unit :=
  if fdp.fd_lastfile < startfd then (fdp, .error .EBADF)
  else
    (forLastfile (fun fdp i => (fdrelease fdp i).1) (fdp.fd_lastfile + 1 - startfd) startfd fdp,
      .ok ())

/-- The loop of `fdcopy` that halves the size. -/
def shrink (lastfile : ℕ) (i : ℕ) : ℕ :=
  if 2 * NDEXTENT ≤ i ∧ lastfile * 2 < i then shrink lastfile (i / 2) else i
termination_by i
decreasing_by
  rename_i h
  unfold NDEXTENT at h
  omega

/-- The size `fdcopy` chooses. -/
def copySize (fdp : Filedesc φ) : ℕ :=
  if fdp.fd_lastfile < NDFILE then NDFILE else shrink fdp.fd_lastfile fdp.fd_nfiles

/-- `fdcopy`; `leave` tells which files are not inherited (a full reference count, a
kqueue or a systrace file). -/
def fdcopy (leave : φ → Bool) (fdp : Filedesc φ) : Filedesc φ :=
  let i := copySize fdp
  let newfdp : Filedesc φ :=
    { fdp with
      fd_nfiles := i
      fd_ofiles := fun fd => if fd < i then fdp.fd_ofiles fd else none
      fd_ofileflags := fun fd => if fd < i then fdp.fd_ofileflags fd else 0#8
      fd_himap := fun w => if w < NDHISLOTS i then fdp.fd_himap w else 0#32
      fd_lomap := fun w => if w < NDLOSLOTS i then fdp.fd_lomap w else 0#32 }
  forLastfile
    (fun newfdp i =>
      match newfdp.fd_ofiles i with
      | some fp => if leave fp then fdremove newfdp i else newfdp
      | none => newfdp)
    (newfdp.fd_lastfile + 1) 0 newfdp

end OpenbsdKernel.Descrip
