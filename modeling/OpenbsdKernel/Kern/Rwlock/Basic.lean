import Mathlib.Algebra.BigOperators.Group.Finset.Basic
import Mathlib.Data.Fintype.Basic
import Mathlib.Tactic
import OpenbsdKernel.Sys.Errno

/-!
# Read/write locks

The lock operations of `kern/kern_rwlock.c` as threads that take one atomic step at a
time: a load of `rwl_owner`, a `rw_cas`, the entry on the sleep queue, the sleep itself,
or a `wakeup`. A thread on the sleep queue that a `wakeup` takes off before it has
switched away does not sleep.
-/
namespace OpenbsdKernel.Rwlock

def RWLOCK_WAIT : BitVec 64 := 1#64
def RWLOCK_WRWANT : BitVec 64 := 2#64
def RWLOCK_WRLOCK : BitVec 64 := 4#64
def RWLOCK_MASK : BitVec 64 := 7#64
def RWLOCK_READ_INCR : BitVec 64 := 8#64

/-- `RW_PROC(p)`: the address with the flag bits masked off. -/
def rwProc (p : BitVec 64) : BitVec 64 := p &&& ~~~RWLOCK_MASK

/-- The operation in the low bits of the `flags` of `rw_enter`. -/
inductive RwOp where
  | write
  | read
  | downgrade
  deriving DecidableEq, Repr

/-- `struct rwlock_op` without its scheduling priority. -/
structure RwlockOp where
  inc : BitVec 64
  check : BitVec 64
  wait_set : BitVec 64
  proc_mult : BitVec 64

def rwOps : RwOp → RwlockOp
  | .write => ⟨RWLOCK_WRLOCK, BitVec.allOnes 64, RWLOCK_WAIT ||| RWLOCK_WRWANT, 1#64⟩
  | .read => ⟨RWLOCK_READ_INCR, RWLOCK_WRLOCK, RWLOCK_WAIT, 0#64⟩
  | .downgrade => ⟨RWLOCK_READ_INCR - RWLOCK_WRLOCK, 0#64, 0#64, -1#64⟩

/-- The increment `rw_enter` computes for the current process. -/
def enterInc (op : RwOp) (p : BitVec 64) : BitVec 64 :=
  (rwOps op).inc + rwProc p * (rwOps op).proc_mult

/-- `RW_INTR`, `RW_SLEEPFAIL` and `RW_NOSLEEP`. -/
structure Flags where
  intr : Bool
  sleepfail : Bool
  nosleep : Bool
  deriving DecidableEq, Repr

/-- Where a thread stands; the locals of the C functions are the arguments. -/
inductive Pc where
  /-- Outside, with what the last call returned. -/
  | idle (error : Option Errno)
  /-- `rw_enter_read` before its load, then before its `rw_cas`. -/
  | enterRead
  | enterReadCas (owner : BitVec 64)
  /-- `rw_enter_write` before its `rw_cas`. -/
  | enterWriteCas
  /-- `rw_enter` at `retry`, then through the body of its loop. -/
  | enterLoad (op : RwOp) (flags : Flags)
  | sleepSetup (op : RwOp) (flags : Flags) (o : BitVec 64)
  | sleepCas (op : RwOp) (flags : Flags) (o : BitVec 64)
  | sleepFinish (op : RwOp) (flags : Flags) (do_sleep : Bool)
  | asleep (op : RwOp) (flags : Flags)
  | enterCas (op : RwOp) (flags : Flags) (o : BitVec 64)
  /-- `rw_exit_read` and `rw_exit_write` before their load, then before their `rw_cas`. -/
  | exitRead
  | exitReadCas (owner : BitVec 64)
  | exitWrite
  | exitWriteCas (owner : BitVec 64)
  /-- `rw_exit`: the first load, then the loop. -/
  | exit
  | exitLoad (wrlock : Bool)
  | exitCas (wrlock : Bool) (owner : BitVec 64)
  /-- Before a call of `wakeup`. -/
  | wakeup
  deriving DecidableEq, Repr

/-- Past the `rw_cas` that lets a thread sleep. -/
def Pc.sleeping : Pc → Bool
  | .sleepFinish _ _ true | .asleep _ _ => true
  | _ => false

example : (Pc.idle none).sleeping = false := by simp [Pc.sleeping]

/-- The calls a thread can make. -/
inductive Call where
  | rwEnter (op : RwOp) (flags : Flags)
  | rwEnterRead
  | rwEnterWrite
  | rwExit
  | rwExitRead
  | rwExitWrite
  deriving DecidableEq, Repr

/-- What a thread does next: make a call, take one atomic step of it (with the result
of `sleep_finish_signal`, should the step get there), or receive a signal. -/
inductive Act where
  | call (c : Call)
  | step (error : Option Errno)
  | signal
  deriving DecidableEq, Repr

/-- The lock word and the threads. `onq` says which are on the sleep queue of the lock,
`wr` and `rd` record the holds that calls have returned. -/
structure State (θ : Type*) where
  rwl_owner : BitVec 64
  pc : θ → Pc
  onq : θ → Bool
  wr : θ → Bool
  rd : θ → ℕ

variable {θ : Type*} [DecidableEq θ]

namespace State

/-- `rw_init`, with no thread using the lock. -/
def rwInit : State θ where
  rwl_owner := 0#64
  pc := fun _ => .idle none
  onq := fun _ => false
  wr := fun _ => false
  rd := fun _ => 0

def goto (s : State θ) (t : θ) (pc : Pc) : State θ :=
  { s with pc := Function.update s.pc t pc }

/-- The number of read holds. -/
def readers [Fintype θ] (s : State θ) : ℕ := ∑ t, s.rd t

/-- Holding the lock for writing, or for reading. -/
def Holds (s : State θ) (t : θ) : Prop := s.wr t = true ∨ 0 < s.rd t

instance (s : State θ) (t : θ) : Decidable (s.Holds t) :=
  inferInstanceAs (Decidable (s.wr t = true ∨ 0 < s.rd t))

/-- Start a call. `RW_DOWNGRADE` is for the writer and an exit for a holder; any
thread may try to enter. -/
def call (s : State θ) (t : θ) (c : Call) : Option (State θ) :=
  match c with
  | .rwEnter op flags =>
    if op = .downgrade ∧ s.wr t = false then none else some (s.goto t (.enterLoad op flags))
  | .rwEnterRead => some (s.goto t .enterRead)
  | .rwEnterWrite => some (s.goto t .enterWriteCas)
  | .rwExit => if s.Holds t then some (s.goto t .exit) else none
  | .rwExitRead => if 0 < s.rd t then some (s.goto t .exitRead) else none
  | .rwExitWrite => if s.wr t then some (s.goto t .exitWrite) else none

/-- The rest of the loop body of `rw_enter` once `sleep_finish` returns. -/
def afterSleep (op : RwOp) (flags : Flags) (error : Option Errno) : Pc :=
  if flags.intr ∧ error ≠ none then .idle error
  else if flags.sleepfail then .idle (some .EAGAIN)
  else .enterLoad op flags

/-- What `rw_enter` has after its `rw_cas` succeeded. -/
def entered (s : State θ) (t : θ) : RwOp → State θ
  | .write => { s with wr := Function.update s.wr t true }
  | .read => { s with rd := Function.update s.rd t (s.rd t + 1) }
  | .downgrade =>
    { s with wr := Function.update s.wr t false, rd := Function.update s.rd t (s.rd t + 1) }

def exited (s : State θ) (t : θ) (wrlock : Bool) : State θ :=
  if wrlock then { s with wr := Function.update s.wr t false }
  else { s with rd := Function.update s.rd t (s.rd t - 1) }

/-- The word `rw_exit` stores. -/
def exitSet (wrlock : Bool) (owner : BitVec 64) : BitVec 64 :=
  if wrlock then 0#64
  else (owner - RWLOCK_READ_INCR) &&& ~~~(RWLOCK_WAIT ||| RWLOCK_WRWANT)

/-- One atomic step of the call a thread is in; a sleeping thread has none. -/
def step (proc : θ → BitVec 64) (s : State θ) (t : θ) (error : Option Errno) :
    Option (State θ) :=
  match s.pc t with
  | .idle _ => none
  | .enterRead =>
    if s.rwl_owner &&& RWLOCK_WRLOCK ≠ 0#64 then
      some (s.goto t (.enterLoad .read ⟨false, false, false⟩))
    else some (s.goto t (.enterReadCas s.rwl_owner))
  | .enterReadCas owner =>
    if s.rwl_owner = owner then
      some (({ s with rwl_owner := owner + RWLOCK_READ_INCR }.entered t .read).goto t (.idle none))
    else some (s.goto t (.enterLoad .read ⟨false, false, false⟩))
  | .enterWriteCas =>
    if s.rwl_owner = 0#64 then
      some (({ s with rwl_owner := rwProc (proc t) ||| RWLOCK_WRLOCK }.entered t .write).goto t
        (.idle none))
    else some (s.goto t (.enterLoad .write ⟨false, false, false⟩))
  | .enterLoad op flags =>
    if s.rwl_owner &&& (rwOps op).check ≠ 0#64 then
      if flags.nosleep then some (s.goto t (.idle (some .EBUSY)))
      else some (s.goto t (.sleepSetup op flags s.rwl_owner))
    else some (s.goto t (.enterCas op flags s.rwl_owner))
  | .sleepSetup op flags o =>
    some ({ s with onq := Function.update s.onq t true }.goto t (.sleepCas op flags o))
  | .sleepCas op flags o =>
    if s.rwl_owner = o then
      some ({ s with rwl_owner := o ||| (rwOps op).wait_set }.goto t (.sleepFinish op flags true))
    else some (s.goto t (.sleepFinish op flags false))
  | .sleepFinish op flags do_sleep =>
    if do_sleep ∧ s.onq t then some (s.goto t (.asleep op flags))
    else
      some ({ s with onq := Function.update s.onq t false }.goto t (afterSleep op flags error))
  | .asleep op flags =>
    if s.onq t then none else some (s.goto t (afterSleep op flags error))
  | .enterCas op flags o =>
    if s.rwl_owner = o then
      some (({ s with rwl_owner := o + enterInc op (proc t) }.entered t op).goto t
        (if o &&& (RWLOCK_WRLOCK ||| RWLOCK_WAIT) = RWLOCK_WRLOCK ||| RWLOCK_WAIT then .wakeup
          else .idle none))
    else some (s.goto t (.enterLoad op flags))
  | .exitRead =>
    if s.rwl_owner &&& RWLOCK_WAIT ≠ 0#64 then some (s.goto t .exit)
    else some (s.goto t (.exitReadCas s.rwl_owner))
  | .exitReadCas owner =>
    if s.rwl_owner = owner then
      some (({ s with rwl_owner := owner - RWLOCK_READ_INCR }.exited t false).goto t (.idle none))
    else some (s.goto t .exit)
  | .exitWrite =>
    if s.rwl_owner &&& RWLOCK_WAIT ≠ 0#64 then some (s.goto t .exit)
    else some (s.goto t (.exitWriteCas s.rwl_owner))
  | .exitWriteCas owner =>
    if s.rwl_owner = owner then
      some (({ s with rwl_owner := 0#64 }.exited t true).goto t (.idle none))
    else some (s.goto t .exit)
  | .exit => some (s.goto t (.exitLoad (s.rwl_owner &&& RWLOCK_WRLOCK ≠ 0#64)))
  | .exitLoad wrlock => some (s.goto t (.exitCas wrlock s.rwl_owner))
  | .exitCas wrlock owner =>
    if s.rwl_owner = owner then
      some (({ s with rwl_owner := exitSet wrlock owner }.exited t wrlock).goto t
        (if owner &&& RWLOCK_WAIT ≠ 0#64 then .wakeup else .idle none))
    else some (s.goto t (.exitLoad wrlock))
  | .wakeup => some ({ s with onq := fun _ => false }.goto t (.idle none))

def sleepFlags (s : State θ) (t : θ) : Option Flags :=
  match s.pc t with
  | .sleepCas _ flags _ | .sleepFinish _ flags _ | .asleep _ flags => some flags
  | _ => none

/-- A signal takes a thread that sleeps with `RW_INTR` off the queue. -/
def signal (s : State θ) (t : θ) : Option (State θ) :=
  match s.sleepFlags t with
  | some flags =>
    if flags.intr then some { s with onq := Function.update s.onq t false } else none
  | none => none

def act (proc : θ → BitVec 64) (s : State θ) (t : θ) : Act → Option (State θ)
  | .call c =>
    match s.pc t with
    | .idle _ => s.call t c
    | _ => none
  | .step error => s.step proc t error
  | .signal => s.signal t

/-- An interleaving of the threads in which the read holds fit the reader count. -/
def run [Fintype θ] (proc : θ → BitVec 64) (s : State θ) : List (θ × Act) → Option (State θ)
  | [] => some s
  | (t, a) :: acts =>
    match s.act proc t a with
    | some s' => if s'.readers < 2 ^ 61 then run proc s' acts else none
    | none => none

/-- Asleep on the lock and not woken: the `rw_cas` before the sleep succeeded and no
`wakeup` or signal has come since. -/
def Asleep (s : State θ) (t : θ) : Prop := (s.pc t).sleeping = true ∧ s.onq t = true

instance (s : State θ) (t : θ) : Decidable (s.Asleep t) :=
  inferInstanceAs (Decidable ((s.pc t).sleeping = true ∧ s.onq t = true))

end State

end OpenbsdKernel.Rwlock
