import Mathlib
import OpenbsdKernel.Kern.Sem.Undo

/-!
# System V semaphores

`semget`, `semop`, `semctl` and `semexit` of `kern/sysv_sem.c`. Sets and their arrays lie at
addresses that the allocators hand out again after a removal; what a call reads through a
stale pointer is what lies there then. A call gives up the processor in `pool_get`, `malloc`,
`copyin` and `tsleep`, so it is a sequence of steps of its thread. Permission checks are
represented by the value `ipcperm` returns.
-/
namespace OpenbsdKernel.SysvSem

structure Sem where
  semval : BitVec 16
  semncnt : BitVec 16
  semzcnt : BitVec 16
  deriving DecidableEq, Repr

/-- `struct semid_ds`; `sem_base` is an address. -/
structure Semid where
  key : BitVec 32
  seq : ℕ
  sem_base : ℕ
  sem_nsems : ℕ
  deriving DecidableEq, Repr

/-- `struct sembuf` with the two flags. -/
structure Sembuf where
  sem_num : BitVec 16
  sem_op : BitVec 16
  IPC_NOWAIT : Bool
  SEM_UNDO : Bool
  deriving DecidableEq, Repr

/-- The arguments of `semget`. -/
structure Semget where
  key : BitVec 32
  nsems : ℤ
  IPC_CREAT : Bool
  IPC_EXCL : Bool
  deriving DecidableEq, Repr

def IPC_PRIVATE : BitVec 32 := 0#32

def IPCID_TO_IX (id : BitVec 32) : ℕ := id.toNat % 65536

def IPCID_TO_SEQ (id : BitVec 32) : ℕ := id.toNat / 65536

/-- The set a call works on: slot, sequence number and the address `semaptr`. The code does
not keep `gone`, which says that the set has been removed since. -/
structure Target where
  ix : ℕ
  seq : ℕ
  semaptr : ℕ
  gone : Bool
  deriving DecidableEq, Repr

/-- Where a call has given up the processor. In `tsleep`, `base` and `num` locate `semptr`,
`zero` tells the two counters apart and `woken` records a `wakeup`. -/
inductive Call where
  | poolGet (g : Semget)
  | malloc (g : Semget) (item : ℕ)
  | copyin (u : Target) (nsops : ℕ)
  | asleep (u : Target) (sops : List Sembuf) (do_undos base num : ℕ) (zero woken : Bool)
  | semuWait (u : Target) (sops applied rest : List Sembuf) (do_wakeup : Bool)
  | setall (u : Target) (nsems : ℕ)
  deriving DecidableEq, Repr

inductive Outcome where
  | ok (retval : ℕ)
  | failed (e : Errno)
  | pending
  | panic (message : String)
  | crash
  deriving DecidableEq, Repr

/-- The semaphore facility, and what the threads `τ` of the processes `ρ` are doing in it. -/
structure State (τ ρ : Type*) where
  sema : ℕ → Option ℕ
  semseqs : ℕ → ℕ
  semtot : ℤ
  items : ℕ → Semid
  bases : ℕ → ℕ → Sem
  undos : Undos ρ
  calls : τ → Option Call

/-- The facility after `seminit`. -/
def seminit (τ ρ : Type*) : State τ ρ where
  sema _ := none
  semseqs _ := 0
  semtot := 0
  items _ := ⟨0, 0, 0, 0⟩
  bases _ _ := ⟨0, 0, 0⟩
  undos := ⟨[], 0⟩
  calls _ := none

variable {τ ρ : Type*} [DecidableEq τ] [DecidableEq ρ]

/-- Thread `t` is at `c`, or back in user mode for `none`. -/
def State.setCall (s : State τ ρ) (t : τ) (c : Option Call) : State τ ρ :=
  { s with calls := Function.update s.calls t c }

/-- `wakeup(&sema[ix])`, for one call. -/
def Call.wake (ix : ℕ) : Call → Call
  | .asleep u sops do_undos base num zero woken =>
    .asleep u sops do_undos base num zero (woken || u.ix = ix)
  | c => c

def State.wakeup (s : State τ ρ) (ix : ℕ) : State τ ρ :=
  { s with calls := fun t => (s.calls t).map (Call.wake ix) }

def Target.lose (u : Target) (ix : ℕ) : Target := { u with gone := u.gone || u.ix = ix }

/-- The set in slot `ix` is removed under a call. -/
def Call.lose (ix : ℕ) : Call → Call
  | .copyin u nsops => .copyin (u.lose ix) nsops
  | .asleep u sops do_undos base num zero woken =>
    .asleep (u.lose ix) sops do_undos base num zero woken
  | .semuWait u sops applied rest do_wakeup => .semuWait (u.lose ix) sops applied rest do_wakeup
  | .setall u nsems => .setall (u.lose ix) nsems
  | c => c

/-- The check of `semid` at the start of `semop` and `semctl`. -/
def State.lookup (info : Seminfo) (s : State τ ρ) (semid : BitVec 32) : Option Target :=
  let ix := IPCID_TO_IX semid
  if info.semmni ≤ ix then none
  else
    match s.sema ix with
    | none => none
    | some a =>
      if (s.items a).seq ≠ IPCID_TO_SEQ semid then none
      else some ⟨ix, IPCID_TO_SEQ semid, a, false⟩

/-- `semget` up to `pool_get`; the error is the one returned before it. -/
def semgetCheck (info : Seminfo) (s : State τ ρ) (g : Semget) : Option Errno :=
  if g.nsems ≤ 0 ∨ g.nsems > info.semmsl then some .EINVAL
  else if g.nsems > info.semmns - s.semtot then some .ENOSPC
  else none

/-- The slot of the set with the public key `key`. -/
def State.findKey (info : Seminfo) (s : State τ ρ) (key : BitVec 32) : Option ℕ :=
  if key = IPC_PRIVATE then none
  else (List.range info.semmni).find? fun ix =>
    match s.sema ix with
    | some a => (s.items a).key = key
    | none => false

/-- `IXSEQ_TO_IPCID`, returned for the set in slot `ix`. -/
def State.semid (s : State τ ρ) (ix : ℕ) : ℕ :=
  match s.sema ix with
  | some a => (s.items a).seq * 65536 + ix % 65536
  | none => 0

/-- The new set at address `item` goes to slot `ix`. -/
def State.create (s : State τ ρ) (g : Semget) (item ix : ℕ) : State τ ρ :=
  let seq := (s.semseqs ix + 1) % 32768
  { s with
    items := Function.update s.items item
      ⟨g.key, seq, (s.items item).sem_base, g.nsems.toNat % 65536⟩
    semseqs := Function.update s.semseqs ix seq
    sema := Function.update s.sema ix (some item)
    semtot := s.semtot + g.nsems }

/-- `semget` from the search for the key on; `item` is the preallocated set. -/
def semgetFind (info : Seminfo) (s : State τ ρ) (g : Semget) (item : Option ℕ)
    (ipcperm : Option Errno) : State τ ρ × Outcome :=
  match s.findKey info g.key with
  | some ix =>
    match ipcperm with
    | some e => (s, .failed e)
    | none =>
      match s.sema ix with
      | none => (s, .crash)
      | some a =>
        if 0 < g.nsems ∧ ((s.items a).sem_nsems : ℤ) < g.nsems then (s, .failed .EINVAL)
        else if g.IPC_CREAT ∧ g.IPC_EXCL then (s, .failed .EEXIST)
        else (s, .ok (s.semid ix))
  | none =>
    match item with
    | none => (s, .failed .ENOENT)
    | some item =>
      match (List.range info.semmni).find? fun ix => s.sema ix = none with
      | none => (s, .failed .ENOSPC)
      | some ix => (s.create g item ix, .ok ((s.create g item ix).semid ix))

/-- `mallocarray` returns the zeroed array `base` for the set at `item`. -/
def State.newBase (s : State τ ρ) (item base : ℕ) : State τ ρ :=
  { s with
    items := Function.update s.items item { s.items item with sem_base := base }
    bases := Function.update s.bases base fun _ => ⟨0, 0, 0⟩ }

def Sem.add (op : BitVec 16) (x : Sem) : Sem := { x with semval := x.semval + op }

def Sem.sub (op : BitVec 16) (x : Sem) : Sem := { x with semval := x.semval - op }

/-- `semncnt` or `semzcnt` goes up by `d`. -/
def Sem.count (zero : Bool) (d : BitVec 16) (x : Sem) : Sem :=
  if zero then { x with semzcnt := x.semzcnt + d } else { x with semncnt := x.semncnt + d }

/-- Semaphore `num` of an array changes. -/
def modify (sems : ℕ → Sem) (num : ℕ) (f : Sem → Sem) : ℕ → Sem :=
  Function.update sems num (f (sems num))

/-- Operation by operation. -/
def applyOps (sops : List Sembuf) (sems : ℕ → Sem) : ℕ → Sem :=
  sops.foldl (fun sems sop => modify sems sop.sem_num.toNat (Sem.add sop.sem_op)) sems

/-- The rollback of the operations `sops`. -/
def rollback (sops : List Sembuf) (sems : ℕ → Sem) : ℕ → Sem :=
  sops.foldl (fun sems sop => modify sems sop.sem_num.toNat (Sem.sub sop.sem_op)) sems

def Sembuf.Undoes (sop : Sembuf) : Prop := sop.SEM_UNDO ∧ sop.sem_op ≠ 0#16

instance (sop : Sembuf) : Decidable sop.Undoes := inferInstanceAs (Decidable (_ ∧ _))

def Sembuf.Blocked (sop : Sembuf) (x : Sem) : Prop :=
  (sop.sem_op.toInt < 0 ∧ (x.semval.toNat : ℤ) + sop.sem_op.toInt < 0) ∨
    (sop.sem_op = 0#16 ∧ x.semval ≠ 0#16)

instance (sop : Sembuf) (x : Sem) : Decidable (sop.Blocked x) :=
  inferInstanceAs (Decidable (_ ∨ _))

/-- Doing the operation on a semaphore sets `do_wakeup`. -/
def Sembuf.wakes (sop : Sembuf) (x : Sem) : Bool :=
  if sop.sem_op.toInt < 0 then x.semval + sop.sem_op = 0#16 ∧ x.semzcnt ≠ 0#16
  else sop.sem_op ≠ 0#16 ∧ x.semncnt ≠ 0#16

/-- How the loop over the operations ends: through, at an operation that is blocked, or at a
semaphore number out of range. -/
inductive Pass where
  | through (sems : ℕ → Sem) (do_undos : ℕ) (do_wakeup : Bool)
  | blocked (sems : ℕ → Sem) (done : List Sembuf) (sop : Sembuf) (do_undos : ℕ)
  | efbig (sems : ℕ → Sem)

/-- The loop over the operations; `done` have been done. -/
def tryOps (nsems : ℕ) (done : List Sembuf) (sems : ℕ → Sem) (do_undos : ℕ) (do_wakeup : Bool) :
    List Sembuf → Pass
  | [] => .through sems do_undos do_wakeup
  | sop :: rest =>
    if nsems ≤ sop.sem_num.toNat then .efbig sems
    else if sop.Blocked (sems sop.sem_num.toNat) then .blocked sems done sop do_undos
    else
      tryOps nsems (done ++ [sop]) (modify sems sop.sem_num.toNat (Sem.add sop.sem_op))
        (if sop.Undoes then do_undos + 1 else do_undos)
        (do_wakeup || sop.wakes (sems sop.sem_num.toNat)) rest

/-- How the undo processing of `semop` ends. -/
inductive Undone (ρ : Type*) where
  | ok (us : Undos ρ)
  | failed (e : Errno) (us : Undos ρ)
  | wait (us : Undos ρ) (applied rest : List Sembuf)
  | panic
  | crash

/-- The adjustments of the operations `applied`, the last one first, are taken back. -/
def revertUndos (info : Seminfo) (pr : ρ) (ix : ℕ) (e : Errno) :
    List Sembuf → Undos ρ → Suptr → Undone ρ
  | [], us, _ => .failed e us
  | sop :: applied, us, suptr =>
    if sop.Undoes then
      match semundoAdjust info pr true us suptr ix sop.sem_num sop.sem_op.toInt with
      | .ok us suptr => revertUndos info pr ix e applied us suptr
      | .fail .. => .panic
      | .wait _ => .panic
      | .crash => .crash
    else revertUndos info pr ix e applied us suptr

/-- The undo processing of the operations `rest`; `applied` are those before them, the last
one first. -/
def applyUndos (info : Seminfo) (pr : ρ) (mem : Bool) (ix : ℕ) (applied : List Sembuf) :
    List Sembuf → Undos ρ → Suptr → Undone ρ
  | [], us, _ => .ok us
  | sop :: rest, us, suptr =>
    if sop.Undoes then
      match semundoAdjust info pr mem us suptr ix sop.sem_num (-sop.sem_op.toInt) with
      | .ok us suptr => applyUndos info pr mem ix (sop :: applied) rest us suptr
      | .fail e us suptr => revertUndos info pr ix e applied us suptr
      | .wait us => .wait us applied (sop :: rest)
      | .crash => .crash
    else applyUndos info pr mem ix (sop :: applied) rest us suptr

/-- The array of the set at address `a`. -/
def State.sems (s : State τ ρ) (a : ℕ) : ℕ → Sem := s.bases (s.items a).sem_base

def State.setSems (s : State τ ρ) (a : ℕ) (sems : ℕ → Sem) : State τ ρ :=
  { s with bases := Function.update s.bases (s.items a).sem_base sems }

/-- The end of `semop` by thread `t` of process `pr` after its undo processing. -/
def semopEnd (s : State τ ρ) (t : τ) (u : Target) (sops : List Sembuf) (do_wakeup : Bool) :
    Undone ρ → State τ ρ × Outcome
  | .ok us =>
    let s := { s with undos := us }.setCall t none
    (if do_wakeup then s.wakeup u.ix else s, .ok 0)
  | .failed e us =>
    ((({ s with undos := us }.setSems u.semaptr (rollback sops (s.sems u.semaptr))).setCall t none),
      .failed e)
  | .wait us applied rest =>
    ({ s with undos := us }.setCall t (some (.semuWait u sops applied rest do_wakeup)), .pending)
  | .panic => (s, .panic "semop - can't undo undos")
  | .crash => (s, .crash)

/-- One turn of the outer loop of `semop`, by thread `t` of process `pr`; `mem` says whether
memory for an undo structure is at hand. -/
def semopPass (info : Seminfo) (pr : ρ) (mem : Bool) (s : State τ ρ) (t : τ) (u : Target)
    (sops : List Sembuf) (do_undos : ℕ) : State τ ρ × Outcome :=
  match tryOps (s.items u.semaptr).sem_nsems [] (s.sems u.semaptr) do_undos false sops with
  | .efbig sems => ((s.setSems u.semaptr sems).setCall t none, .failed .EFBIG)
  | .through sems do_undos do_wakeup =>
    if do_undos ≤ SEMUME then
      semopEnd (s.setSems u.semaptr sems) t u sops do_wakeup
        (if do_undos = 0 then .ok s.undos else applyUndos info pr mem u.ix [] sops s.undos .null)
    else ((s.setSems u.semaptr (rollback sops sems)).setCall t none, .failed .ENOSPC)
  | .blocked sems done sop do_undos =>
    let s := s.setSems u.semaptr (rollback done sems)
    if SEMUME < do_undos then (s.setCall t none, .failed .ENOSPC)
    else if sop.IPC_NOWAIT then (s.setCall t none, .failed .EAGAIN)
    else
      let num := sop.sem_num.toNat
      let zero : Bool := sop.sem_op = 0#16
      ((s.setSems u.semaptr (modify (s.sems u.semaptr) num (Sem.count zero 1#16))).setCall t
        (some (.asleep u sops do_undos (s.items u.semaptr).sem_base num zero false)), .pending)

/-- `semop` up to `copyin`. -/
def semopCheck (info : Seminfo) (s : State τ ρ) (t : τ) (semid : BitVec 32) (nsops : ℕ)
    (ipcperm : Option Errno) : State τ ρ × Outcome :=
  match s.lookup info semid with
  | none => (s, .failed .EINVAL)
  | some u =>
    match ipcperm with
    | some e => (s, .failed e)
    | none =>
      if nsops = 0 then (s, .ok 0)
      else if info.semopm < nsops then (s, .failed .E2BIG)
      else (s.setCall t (some (.copyin u nsops)), .pending)

/-- One semaphore changes, at `base` and `num`. -/
def State.modifySem (s : State τ ρ) (base num : ℕ) (f : Sem → Sem) : State τ ρ :=
  { s with bases := Function.update s.bases base (modify (s.bases base) num f) }

/-- `semop` after `tsleep`, which a signal has ended if `intr`. -/
def semopWake (info : Seminfo) (pr : ρ) (mem : Bool) (s : State τ ρ) (t : τ) (u : Target)
    (sops : List Sembuf) (do_undos base num : ℕ) (zero intr : Bool) : State τ ρ × Outcome :=
  if s.sema u.ix = none ∨ (s.items u.semaptr).seq ≠ u.seq then (s.setCall t none, .failed .EIDRM)
  else
    let s := s.modifySem base num (Sem.count zero (-1#16))
    if intr then (s.setCall t none, .failed .EINTR)
    else semopPass info pr mem s t u sops do_undos

def semctlSetval (info : Seminfo) (s : State τ ρ) (semid : BitVec 32) (semnum val : ℤ)
    (ipcperm : Option Errno) : State τ ρ × Outcome :=
  match s.lookup info semid with
  | none => (s, .failed .EINVAL)
  | some u =>
    match ipcperm with
    | some e => (s, .failed e)
    | none =>
      if semnum < 0 ∨ ((s.items u.semaptr).sem_nsems : ℤ) ≤ semnum then (s, .failed .EINVAL)
      else if (info.semvmx : ℤ) < val then (s, .failed .ERANGE)
      else
        let sems := modify (s.sems u.semaptr) semnum.toNat fun x =>
          { x with semval := BitVec.ofInt 16 val }
        let s := s.setSems u.semaptr sems
        ({ s with undos := semundoClear s.undos u.ix (some semnum) }.wakeup u.ix, .ok 0)

/-- `SETALL` up to the copying of the values. -/
def semctlSetall (info : Seminfo) (s : State τ ρ) (t : τ) (semid : BitVec 32)
    (ipcperm : Option Errno) : State τ ρ × Outcome :=
  match s.lookup info semid with
  | none => (s, .failed .EINVAL)
  | some u =>
    match ipcperm with
    | some e => (s, .failed e)
    | none => (s.setCall t (some (.setall u (s.items u.semaptr).sem_nsems)), .pending)

/-- `SETALL` from the copying of the values on. The values are copied in one after the
other into a buffer for `nsems` of them; only `sem_nsems` is read meanwhile. -/
def setallVals (info : Seminfo) (s : State τ ρ) (t : τ) (u : Target) (nsems : ℕ)
    (vals : Except Errno (List (BitVec 16))) : State τ ρ × Outcome :=
  match vals with
  | .error e => (s.setCall t none, .failed e)
  | .ok vals =>
    haveI := List.decidableBEx (fun v => info.semvmx < v.toNat) vals
    if ∃ v ∈ vals, info.semvmx < v.toNat then (s.setCall t none, .failed .ERANGE)
    else if nsems < vals.length then (s, .crash)
    else
      let sems := fun i =>
        match vals[i]? with
        | some v => { s.sems u.semaptr i with semval := v }
        | none => s.sems u.semaptr i
      let s := (s.setSems u.semaptr sems).setCall t none
      ({ s with undos := semundoClear s.undos u.ix none }.wakeup u.ix, .ok 0)

/-- The set of `u` is freed with its undo entries; `junk` is what the allocators leave in the
freed set and its array. -/
def State.remove (s : State τ ρ) (u : Target) (junk : Semid × (ℕ → Sem)) : State τ ρ :=
  { s with
    semtot := s.semtot - (s.items u.semaptr).sem_nsems
    bases := Function.update s.bases (s.items u.semaptr).sem_base junk.2
    items := Function.update s.items u.semaptr junk.1
    sema := Function.update s.sema u.ix none
    undos := semundoClear s.undos u.ix none
    calls := fun t => (s.calls t).map (Call.lose u.ix) }

/-- `IPC_RMID`. -/
def semctlRmid (info : Seminfo) (s : State τ ρ) (semid : BitVec 32) (junk : Semid × (ℕ → Sem))
    (ipcperm : Option Errno) : State τ ρ × Outcome :=
  match s.lookup info semid with
  | none => (s, .failed .EINVAL)
  | some u =>
    match ipcperm with
    | some e => (s, .failed e)
    | none => ((s.remove u junk).wakeup u.ix, .ok 0)

/-- The loop of `semexit` over the entries of a process. -/
def exitEntries (s : State τ ρ) : List Undo → State τ ρ × Outcome
  | [] => (s, .ok 0)
  | e :: rest =>
    match s.sema e.un_id with
    | none => (s, .panic "semexit - semid not allocated")
    | some a =>
      if ((s.items a).sem_nsems : ℤ) ≤ e.un_num.toInt then (s, .panic "semexit - semnum out of range")
      else if e.un_num.toInt < 0 then (s, .crash)
      else
        let sems := modify (s.sems a) e.un_num.toInt.toNat fun x =>
          if e.un_adjval.toInt < 0 ∧ (x.semval.toNat : ℤ) < -e.un_adjval.toInt then
            { x with semval := 0#16 }
          else { x with semval := x.semval + e.un_adjval }
        exitEntries ((s.setSems a sems).wakeup e.un_id) rest

def semexit (s : State τ ρ) (pr : ρ) : State τ ρ × Outcome :=
  if s.undos.Has pr then
    match exitEntries s (s.undos.entries pr) with
    | (s, .ok v) => ({ s with undos := s.undos.drop pr }, .ok v)
    | r => r
  else (s, .ok 0)

end OpenbsdKernel.SysvSem
