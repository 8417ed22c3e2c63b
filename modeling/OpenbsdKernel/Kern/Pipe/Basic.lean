import OpenbsdKernel.Lib.Ring
import OpenbsdKernel.Sys.Errno

/-!
# Pipes

`pipe_read` and `pipe_write` of `kern/sys_pipe.c` on one pipe, by any number of threads. A
thread runs until it gives up the processor: in `tsleep`, in `km_alloc`, or in `uiomovei`,
where a page fault may put it to sleep while it holds `PIPE_LOCK`. What makes it go on is an
action of its surroundings.

`inserted` and `returned` are no variables of the kernel: they record the bytes that writes
have put into the buffer and those that reads have taken out of it, in this order. The times,
the selects, the asynchronous notification and the checks under `DIAGNOSTIC` are left out.
-/
namespace OpenbsdKernel.SysPipe

def PIPE_SIZE : ℕ := 16384

def BIG_PIPE_SIZE : ℕ := 64 * 1024

def PIPE_BUF : ℕ := 512

def MINPIPESIZE : ℕ := PIPE_SIZE / 3

def LIMITBIGPIPES : ℤ := 32

/-- `struct pipebuf`; `inp` is the member `in`. -/
structure Pipebuf (β : Type*) where
  cnt : ℕ
  inp : ℕ
  out : ℕ
  size : ℕ
  buffer : ℕ → β

/-- `struct pipe`, with the bits of `pipe_state` as members. -/
structure Pipe (β : Type*) where
  pipe_buffer : Pipebuf β
  pipe_busy : ℕ
  PIPE_WANTR : Bool
  PIPE_WANTW : Bool
  PIPE_WANT : Bool
  PIPE_EOF : Bool
  PIPE_LOCK : Bool
  PIPE_LWANT : Bool

/-- The variables of a call of `pipe_write`. -/
structure Writer where
  uio_resid : ℕ
  orig_resid : ℤ
  FNONBLOCK : Bool
  deriving DecidableEq, Repr

/-- The variables of a call of `pipe_read`. -/
structure Reader where
  uio_resid : ℕ
  nread : ℤ
  FNONBLOCK : Bool
  deriving DecidableEq, Repr

/-- Where a thread stands: in no call of the two functions, with the result of the last one;
or in a call, in a `pipelock`, `km_alloc`, `uiomovei` or `tsleep` that gives up the processor. -/
inductive Call (β : Type*) where
  | returned (error : Option Errno)
  | resizeLock (w : Writer)
  | resizeAlloc (w : Writer)
  /-- In `pipelock`, to transfer bytes into the free space that was found. -/
  | writeLock (w : Writer) (space : ℕ)
  | writeFirst (w : Writer) (size segsize : ℕ)
  /-- In the second `uiomovei`; `seg` are the bytes that the first one has transferred. -/
  | writeSecond (w : Writer) (size segsize : ℕ) (seg : List β)
  | writeWait (w : Writer)
  | readLock (r : Reader)
  | readMove (r : Reader) (size : ℕ)
  | readWait (r : Reader)
  | readRelock (r : Reader)

/-- The pipe, the number of big pipes in the system, and the threads. A thread that sleeps in
`tsleep` goes on once it is `woken`. -/
structure State (ι β : Type*) where
  pipe : Pipe β
  nbigpipe : ℤ
  calls : ι → Call β
  woken : ι → Bool
  inserted : List β
  returned : List β

variable {ι β : Type*} [DecidableEq ι]

namespace Pipebuf

/-- The free space. -/
def space (b : Pipebuf β) : ℕ := b.size - b.cnt

/-- `uiomovei` has put bytes at index `i`. -/
def fill (b : Pipebuf β) (i : ℕ) (bytes : List β) : Pipebuf β :=
  { b with buffer := Ring.fill b.buffer i bytes }

/-- The end of a transfer of `size` bytes into the buffer. -/
def put (b : Pipebuf β) (size segsize : ℕ) : Pipebuf β :=
  { b with
    inp := if b.inp + size ≥ b.size then size - segsize else b.inp + size
    cnt := b.cnt + size }

/-- The end of a transfer of `size` bytes out of the buffer. -/
def get (b : Pipebuf β) (size : ℕ) : Pipebuf β :=
  let out := if b.out + size ≥ b.size then 0 else b.out + size
  if b.cnt - size = 0 then { b with inp := 0, out := 0, cnt := 0 }
  else { b with out := out, cnt := b.cnt - size }

end Pipebuf

namespace State

def setBuffer (s : State ι β) (b : Pipebuf β) : State ι β :=
  { s with pipe := { s.pipe with pipe_buffer := b } }

def setCall (s : State ι β) (t : ι) (c : Call β) : State ι β :=
  { s with calls := Function.update s.calls t c }

/-- `wakeup(cpipe)`: all sleeps on the pipe have this channel. -/
def wakeup (s : State ι β) : State ι β := { s with woken := fun _ => true }

/-- Thread `t` goes to sleep in `tsleep`. -/
def tsleep (s : State ι β) (t : ι) (c : Call β) : State ι β :=
  { s with calls := Function.update s.calls t c, woken := Function.update s.woken t false }

/-- `pipelock` finds `PIPE_LOCK` set. -/
def sleepLock (s : State ι β) (t : ι) (c : Call β) : State ι β :=
  ({ s with pipe := { s.pipe with PIPE_LWANT := true } } : State ι β).tsleep t c

def lock (s : State ι β) : State ι β := { s with pipe := { s.pipe with PIPE_LOCK := true } }

def pipeunlock (s : State ι β) : State ι β :=
  if s.pipe.PIPE_LWANT then
    ({ s with pipe := { s.pipe with PIPE_LOCK := false, PIPE_LWANT := false } } : State ι β).wakeup
  else { s with pipe := { s.pipe with PIPE_LOCK := false } }

def wakeReaders (s : State ι β) : State ι β :=
  if s.pipe.PIPE_WANTR then
    ({ s with pipe := { s.pipe with PIPE_WANTR := false } } : State ι β).wakeup
  else s

def wakeWriters (s : State ι β) : State ι β :=
  if s.pipe.PIPE_WANTW then
    ({ s with pipe := { s.pipe with PIPE_WANTW := false } } : State ι β).wakeup
  else s

/-- `--pipe_busy`. -/
def unbusy (s : State ι β) : State ι β :=
  { s with pipe := { s.pipe with pipe_busy := s.pipe.pipe_busy - 1 } }

/-- `++pipe_busy`. -/
def busy (s : State ι β) : State ι β :=
  { s with pipe := { s.pipe with pipe_busy := s.pipe.pipe_busy + 1 } }

/-- `pipeclose` waits until the pipe is not busy. -/
def wanted (s : State ι β) : Bool := s.pipe.pipe_busy = 0 && s.pipe.PIPE_WANT

/-- `pipe_read` from `unlocked_error` on. -/
def readExit (s : State ι β) (t : ι) (error : Option Errno) : State ι β :=
  let s := s.unbusy
  let s :=
    if s.wanted then
      ({ s with pipe := { s.pipe with PIPE_WANT := false, PIPE_WANTW := false } } :
        State ι β).wakeup
    else if s.pipe.pipe_buffer.cnt < MINPIPESIZE then s.wakeWriters
    else s
  s.setCall t (.returned error)

/-- The loop of `pipe_read` from its head, with the lock held. -/
def readLoop (s : State ι β) (t : ι) (r : Reader) : State ι β :=
  let b := s.pipe.pipe_buffer
  if r.uio_resid = 0 then s.pipeunlock.readExit t none
  else if 0 < b.cnt then
    s.setCall t (.readMove r (min (min (b.size - b.out) b.cnt) r.uio_resid))
  else if s.pipe.PIPE_EOF then s.pipeunlock.readExit t none
  else
    let s := s.wakeWriters
    if 0 < r.nread then s.pipeunlock.readExit t none
    else
      let s := s.pipeunlock
      if r.FNONBLOCK then s.readExit t (some .EAGAIN)
      else
        ({ s with pipe := { s.pipe with PIPE_WANTR := true } } : State ι β).tsleep t (.readWait r)

/-- `pipelock` of `pipe_read`, before the loop or in it. -/
def readLock (s : State ι β) (t : ι) (c : Call β) (r : Reader) : State ι β :=
  if s.pipe.PIPE_LOCK then s.sleepLock t c else s.lock.readLoop t r

/-- The first `pipelock` of `pipe_read`. -/
def readEnter (s : State ι β) (t : ι) (r : Reader) : State ι β :=
  if s.pipe.PIPE_LOCK then s.sleepLock t (.readLock r) else s.lock.busy.readLoop t r

/-- A number as an `int`. -/
def cint (x : ℤ) : ℤ := x.bmod (2 ^ 32)

/-- The `size` bytes at `out` have gone to a reader. -/
def takeOut (s : State ι β) (size : ℕ) : State ι β :=
  { s.setBuffer (s.pipe.pipe_buffer.get size) with
    returned := s.returned ++ Ring.segment s.pipe.pipe_buffer.buffer s.pipe.pipe_buffer.out size }

/-- `uiomovei` of `pipe_read` returns, without an error if `ok`. -/
def readMoved (s : State ι β) (t : ι) (r : Reader) (size : ℕ) (ok : Bool) : State ι β :=
  if ok then
    (s.takeOut size).readLoop t
      { r with uio_resid := r.uio_resid - size, nread := cint (r.nread + size) }
  else s.pipeunlock.readExit t (some .EFAULT)

/-- `pipe_write` from the end of its loop on. -/
def writeExit (s : State ι β) (t : ι) (w : Writer) (error : Option Errno) : State ι β :=
  let s := s.unbusy
  let s :=
    if s.wanted then
      ({ s with pipe := { s.pipe with PIPE_WANT := false, PIPE_WANTR := false } } :
        State ι β).wakeup
    else if 0 < s.pipe.pipe_buffer.cnt then s.wakeReaders
    else s
  s.setCall t (.returned
    (if s.pipe.pipe_buffer.cnt = 0 ∧ w.uio_resid = 0 ∧ error = some .EPIPE then none else error))

/-- The return of `pipe_write` after `pipelock` failed before the loop. -/
def writeAbort (s : State ι β) (t : ι) (error : Errno) : State ι β :=
  let s := s.unbusy
  let s :=
    if s.wanted then
      ({ s with pipe := { s.pipe with PIPE_WANT := false, PIPE_WANTR := false } } :
        State ι β).wakeup
    else s
  s.setCall t (.returned (some error))

def writeSpace (b : Pipebuf β) (w : Writer) : ℕ :=
  if b.space < w.uio_resid ∧ w.orig_resid ≤ PIPE_BUF then 0 else b.space

/-- With the lock held, the transfer into `space` free bytes starts. -/
def writeStart (s : State ι β) (t : ι) (w : Writer) (space : ℕ) : State ι β :=
  let b := s.pipe.pipe_buffer
  let size := min space w.uio_resid
  s.setCall t (.writeFirst w size (min (b.size - b.inp) size))

/-- `retrywrite`. When `PIPE_LOCK` is free nothing happens between the look at the free space
and the check of it under the lock. -/
def retrywrite (s : State ι β) (t : ι) (w : Writer) : State ι β :=
  if s.pipe.PIPE_EOF then s.writeExit t w (some .EPIPE)
  else
    let space := writeSpace s.pipe.pipe_buffer w
    if 0 < space then
      if s.pipe.PIPE_LOCK then s.sleepLock t (.writeLock w space)
      else s.lock.writeStart t w space
    else
      let s := s.wakeReaders
      if w.FNONBLOCK then s.writeExit t w (some .EAGAIN)
      else
        ({ s with pipe := { s.pipe with PIPE_WANTW := true } } : State ι β).tsleep t (.writeWait w)

/-- The loop of `pipe_write` from its head. -/
def writeLoop (s : State ι β) (t : ι) (w : Writer) : State ι β :=
  if w.uio_resid = 0 then s.writeExit t w none else s.retrywrite t w

/-- `pipelock` of the loop, after a sleep. -/
def writeLocked (s : State ι β) (t : ι) (w : Writer) (space : ℕ) : State ι β :=
  if s.pipe.PIPE_LOCK then s.sleepLock t (.writeLock w space)
  else if space > s.pipe.pipe_buffer.space then s.lock.pipeunlock.retrywrite t w
  else s.lock.writeStart t w space

/-- The `bytes` that a writer has transferred count as contents of the buffer. -/
def putIn (s : State ι β) (size segsize : ℕ) (bytes : List β) : State ι β :=
  { s.setBuffer (s.pipe.pipe_buffer.put size segsize) with inserted := s.inserted ++ bytes }

def writeDone (s : State ι β) (t : ι) (w : Writer) (size segsize : ℕ) (bytes : List β) :
    State ι β :=
  (s.putIn size segsize bytes).pipeunlock.writeLoop t { w with uio_resid := w.uio_resid - size }

/-- The first `uiomovei` of `pipe_write` has copied `bytes`, and returns without an error
if `ok`. -/
def firstMoved (s : State ι β) (t : ι) (w : Writer) (size segsize : ℕ) (bytes : List β)
    (ok : Bool) : State ι β :=
  let b := s.pipe.pipe_buffer
  let s := s.setBuffer (b.fill b.inp bytes)
  if ok then
    if segsize < size then s.setCall t (.writeSecond w size segsize bytes)
    else s.writeDone t w size segsize bytes
  else s.pipeunlock.writeExit t { w with uio_resid := w.uio_resid - bytes.length } (some .EFAULT)

/-- The second `uiomovei` of `pipe_write`. -/
def secondMoved (s : State ι β) (t : ι) (w : Writer) (size segsize : ℕ) (seg bytes : List β)
    (ok : Bool) : State ι β :=
  let s := s.setBuffer (s.pipe.pipe_buffer.fill 0 bytes)
  if ok then s.writeDone t w size segsize (seg ++ bytes)
  else
    s.pipeunlock.writeExit t { w with uio_resid := w.uio_resid - (segsize + bytes.length) }
      (some .EFAULT)

def writeEnter (s : State ι β) (t : ι) (w : Writer) : State ι β :=
  s.writeLoop t { w with orig_resid := cint w.uio_resid }

/-- `pipelock` before the buffer is enlarged. -/
def resizeLock (s : State ι β) (t : ι) (w : Writer) : State ι β :=
  if s.pipe.PIPE_LOCK then s.sleepLock t (.resizeLock w) else s.lock.setCall t (.resizeAlloc w)

def resizes (s : State ι β) (uio_resid : ℕ) : Bool :=
  uio_resid > PIPE_SIZE && s.nbigpipe < LIMITBIGPIPES && s.pipe.pipe_buffer.size ≤ PIPE_SIZE &&
    s.pipe.pipe_buffer.cnt = 0

def pipeWrite (s : State ι β) (t : ι) (uio_resid : ℕ) (FNONBLOCK : Bool) : State ι β :=
  if s.pipe.PIPE_EOF then s.setCall t (.returned (some .EPIPE))
  else
    let s := s.busy
    if s.resizes uio_resid then s.resizeLock t ⟨uio_resid, 0, FNONBLOCK⟩
    else s.writeEnter t ⟨uio_resid, 0, FNONBLOCK⟩

/-- `pipespace` with the new buffer that `km_alloc` has returned. -/
def pipespace (s : State ι β) (size : ℕ) (buffer : ℕ → β) : State ι β :=
  { s.setBuffer ⟨0, 0, 0, size, buffer⟩ with
    nbigpipe := if s.pipe.pipe_buffer.size > PIPE_SIZE then s.nbigpipe - 1 else s.nbigpipe }

/-- `nbigpipe++`. -/
def countBig (s : State ι β) : State ι β := { s with nbigpipe := s.nbigpipe + 1 }

/-- `km_alloc` returns, with a buffer or without. -/
def resized (s : State ι β) (t : ι) (w : Writer) : Option (ℕ → β) → State ι β
  | some buffer => (s.pipespace BIG_PIPE_SIZE buffer).countBig.pipeunlock.writeEnter t w
  | none => s.pipeunlock.writeEnter t w

end State

/-- What makes a thread go on, or happens outside of the calls. -/
inductive Act (β : Type*) where
  | read (uio_resid : ℕ) (FNONBLOCK : Bool)
  | write (uio_resid : ℕ) (FNONBLOCK : Bool)
  | wake
  /-- `tsleep` returns because of a signal. -/
  | signal (error : Errno)
  | alloc (buffer : Option (ℕ → β))
  /-- `uiomovei` returns after it has copied these bytes from the writer. -/
  | copyin (bytes : List β) (ok : Bool)
  | copyout (ok : Bool)
  /-- An end of the pipe is closed; `want` if `pipeclose` waits for the calls to end. -/
  | close (want : Bool)
  /-- Other pipes have become big or were closed. -/
  | bigpipes (n : ℤ)

/-- `uiomovei` of `n` bytes has copied `k`: all of them unless it returns an error. -/
def Copied (ok : Bool) (k n : ℕ) : Prop := k ≤ n ∧ (ok = true → k = n)

instance (ok : Bool) (k n : ℕ) : Decidable (Copied ok k n) :=
  inferInstanceAs (Decidable (k ≤ n ∧ (ok = true → k = n)))

/-- Thread `t` goes on, or the pipe is changed from outside; `none` if this cannot happen. -/
def step (s : State ι β) (t : ι) : Act β → Option (State ι β)
  | .read n nb =>
    match s.calls t with
    | .returned _ => some (s.readEnter t ⟨n, 0, nb⟩)
    | _ => none
  | .write n nb =>
    match s.calls t with
    | .returned _ => some (s.pipeWrite t n nb)
    | _ => none
  | .wake =>
    if s.woken t then
      match s.calls t with
      | .resizeLock w => some (s.resizeLock t w)
      | .writeLock w space => some (s.writeLocked t w space)
      | .writeWait w =>
        if s.pipe.PIPE_EOF then some (s.writeExit t w (some .EPIPE)) else some (s.writeLoop t w)
      | .readLock r => some (s.readEnter t r)
      | .readWait r | .readRelock r => some (s.readLock t (.readRelock r) r)
      | _ => none
    else none
  | .signal e =>
    match s.calls t with
    | .resizeLock _ => some (s.writeAbort t e)
    | .writeLock w _ | .writeWait w => some (s.writeExit t w (some e))
    | .readLock _ => some (s.setCall t (.returned (some e)))
    | .readWait _ | .readRelock _ => some (s.readExit t (some e))
    | _ => none
  | .alloc b =>
    match s.calls t with
    | .resizeAlloc w => some (s.resized t w b)
    | _ => none
  | .copyin bytes ok =>
    match s.calls t with
    | .writeFirst w size segsize =>
      if Copied ok bytes.length segsize then
        some (s.firstMoved t w size segsize bytes ok)
      else none
    | .writeSecond w size segsize seg =>
      if Copied ok bytes.length (size - segsize) then
        some (s.secondMoved t w size segsize seg bytes ok)
      else none
    | _ => none
  | .copyout ok =>
    match s.calls t with
    | .readMove r size => some (s.readMoved t r size ok)
    | _ => none
  | .close want =>
    some ({ s with pipe := { s.pipe with
      PIPE_EOF := true
      PIPE_WANT := s.pipe.PIPE_WANT || want } } : State ι β).wakeup
  | .bigpipes n => some { s with nbigpipe := n }

def pipeCreate (buffer : ℕ → β) (nbigpipe : ℤ) : State ι β :=
  ⟨⟨⟨0, 0, 0, PIPE_SIZE, buffer⟩, 0, false, false, false, false, false, false⟩, nbigpipe,
    fun _ => .returned none, fun _ => false, [], []⟩

end OpenbsdKernel.SysPipe
