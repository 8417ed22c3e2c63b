import Mathlib.Tactic
import OpenbsdKernel.Sys.Errno

/-!
# Undo structures of the semaphores

`semu_alloc`, `semundo_adjust` and `semundo_clear` of `kern/sysv_sem.c`. Every process with
something to undo has one structure on `semu_list`; processes are elements of an arbitrary
type.
-/
namespace OpenbsdKernel.SysvSem

/-- The number of undo entries of a process. -/
def SEMUME : ℕ := 10

structure Seminfo where
  semmni : ℕ
  semmns : ℕ
  semmnu : ℕ
  semmsl : ℕ
  semopm : ℕ
  semvmx : ℕ

structure Undo where
  un_adjval : BitVec 16
  un_num : BitVec 16
  un_id : ℕ
  deriving DecidableEq, Repr

/-- `struct sem_undo`; `un_cnt` is the length of `un_ent`. -/
structure SemUndo (ρ : Type*) where
  un_proc : ρ
  un_ent : List Undo
  deriving DecidableEq, Repr

/-- The list of structures and the number of them handed out. -/
structure Undos (ρ : Type*) where
  semu_list : List (SemUndo ρ)
  semutot : ℕ
  deriving DecidableEq, Repr

variable {ρ : Type*} [DecidableEq ρ]

/-- Process `pr` has an undo structure. -/
def Undos.Has (us : Undos ρ) (pr : ρ) : Prop := ∃ su ∈ us.semu_list, su.un_proc = pr

instance (us : Undos ρ) (pr : ρ) : Decidable (us.Has pr) :=
  inferInstanceAs (Decidable (∃ su ∈ us.semu_list, su.un_proc = pr))

/-- The entries of process `pr`. -/
def Undos.entries (us : Undos ρ) (pr : ρ) : List Undo :=
  match us.semu_list.find? fun su => su.un_proc = pr with
  | some su => su.un_ent
  | none => []

/-- The entries of the structure of `pr` are replaced. -/
def Undos.setEntries (us : Undos ρ) (pr : ρ) (ent : List Undo) : Undos ρ :=
  { us with semu_list := us.semu_list.map fun su =>
      if su.un_proc = pr then { su with un_ent := ent } else su }

/-- The structure of `pr` is freed. -/
def Undos.drop (us : Undos ρ) (pr : ρ) : Undos ρ :=
  ⟨us.semu_list.filter fun su => su.un_proc ≠ pr, us.semutot - 1⟩

/-- How `semu_alloc` ends: no structure left, a structure of `pr` without entries at the
head of the list, or waiting in `pool_get` because no memory is at hand. -/
inductive SemuAlloc (ρ : Type*) where
  | full
  | got (us : Undos ρ)
  | wait (us : Undos ρ)

/-- `semu_alloc` up to the point where it may wait. -/
def semuAlloc (info : Seminfo) (pr : ρ) (mem : Bool) (us : Undos ρ) : SemuAlloc ρ :=
  if us.semutot = info.semmnu then .full
  else if mem then .got ⟨⟨pr, []⟩ :: us.semu_list, us.semutot + 1⟩
  else .wait { us with semutot := us.semutot + 1 }

/-- The rest of `semu_alloc` after the wait: another thread of the process may have
allocated its structure meanwhile. -/
def semuAllocWaited (pr : ρ) (us : Undos ρ) : Undos ρ :=
  if us.Has pr then { us with semutot := us.semutot - 1 }
  else { us with semu_list := ⟨pr, []⟩ :: us.semu_list }

/-- An entry is for semaphore `num` of set `id`; `un_num` is a `short`. -/
def Undo.IsFor (id : ℕ) (num : ℤ) (e : Undo) : Prop := e.un_id = id ∧ e.un_num.toInt = num

instance (id : ℕ) (num : ℤ) (e : Undo) : Decidable (e.IsFor id num) :=
  inferInstanceAs (Decidable (_ ∧ _))

/-- The entries `rest` after a removed one, when the last of them has moved to its place. -/
def moveLast (rest : List Undo) : List Undo :=
  match rest.getLast? with
  | some last => last :: rest.dropLast
  | none => []

inductive Entries where
  | ok (ent : List Undo)
  | emptied
  | full
  deriving DecidableEq, Repr

/-- The loop of `semundo_adjust`; the entries `kept` have been passed. The result is `none`
if no entry is the requested one. -/
def adjustEntry (id : ℕ) (num : BitVec 16) (adjval : ℤ) (kept : List Undo) :
    List Undo → Option Entries
  | [] => none
  | e :: rest =>
    if e.IsFor id num.toNat then
      let un_adjval := if adjval = 0 then 0#16 else e.un_adjval + BitVec.ofInt 16 adjval
      if un_adjval ≠ 0#16 then some (.ok (kept ++ { e with un_adjval := un_adjval } :: rest))
      else if kept ++ rest = [] then some .emptied
      else some (.ok (kept ++ moveLast rest))
    else adjustEntry id num adjval (kept ++ [e]) rest

/-- The second half of `semundo_adjust`: look for the requested entry or create it. -/
def adjustEntries (ent : List Undo) (id : ℕ) (num : BitVec 16) (adjval : ℤ) : Entries :=
  match adjustEntry id num adjval [] ent with
  | some r => r
  | none =>
    if adjval = 0 then .ok ent
    else if ent.length = SEMUME then .full
    else .ok (ent ++ [⟨BitVec.ofInt 16 adjval, num, id⟩])

/-- The variable `suptr` of `sys_semop`: unset, pointing to the structure of the process,
or pointing to one that has been freed. -/
inductive Suptr where
  | null
  | live
  | dangling (ent : List Undo)

/-- How `semundo_adjust` ends: with success, with an error, waiting for memory, or in
`SLIST_REMOVE` running past the end of the list in search of a freed structure. -/
inductive Adjusted (ρ : Type*) where
  | ok (us : Undos ρ) (suptr : Suptr)
  | fail (e : Errno) (us : Undos ρ) (suptr : Suptr)
  | wait (us : Undos ρ)
  | crash

/-- The second half of `semundo_adjust` on the structure of `pr`. -/
def adjustLive (pr : ρ) (us : Undos ρ) (id : ℕ) (num : BitVec 16) (adjval : ℤ) : Adjusted ρ :=
  match adjustEntries (us.entries pr) id num adjval with
  | .ok ent => .ok (us.setEntries pr ent) .live
  | .emptied => .ok (us.drop pr) (.dangling [])
  | .full => .fail .EINVAL us .live

def semundoAdjust (info : Seminfo) (pr : ρ) (mem : Bool) (us : Undos ρ) (suptr : Suptr) (id : ℕ)
    (num : BitVec 16) (adjval : ℤ) : Adjusted ρ :=
  match suptr with
  | .dangling ent =>
    match adjustEntries ent id num adjval with
    | .ok ent => .ok us (.dangling ent)
    | .emptied => .crash
    | .full => .fail .EINVAL us suptr
  | _ =>
    if us.Has pr then adjustLive pr us id num adjval
    else if adjval = 0 then .ok us .null
    else
      match semuAlloc info pr mem us with
      | .full => .fail .ENOSPC us .null
      | .got us => adjustLive pr us id num adjval
      | .wait us => .wait us

/-- The loop of `semundo_clear` over the entries of one structure, of which `kept` have
been passed; `semnum` is `none` for −1. The fuel bounds the entries left. -/
def clearEntries (id : ℕ) (semnum : Option ℤ) : ℕ → List Undo → List Undo → List Undo
  | 0, kept, ent => kept ++ ent
  | _ + 1, kept, [] => kept
  | fuel + 1, kept, e :: rest =>
    if e.un_id = id then
      if semnum = none ∨ semnum = some e.un_num.toInt then
        -- the last entry moves to the place of the removed one and is looked at next
        if semnum ≠ none then kept ++ moveLast rest
        else clearEntries id semnum fuel kept (moveLast rest)
      else kept ++ e :: rest
    else clearEntries id semnum fuel (kept ++ [e]) rest

def semundoClear (us : Undos ρ) (id : ℕ) (semnum : Option ℤ) : Undos ρ :=
  let cleared := us.semu_list.map fun su =>
    { su with un_ent := clearEntries id semnum su.un_ent.length [] su.un_ent }
  let left := cleared.filter fun su => su.un_ent ≠ []
  ⟨left, us.semutot - (cleared.length - left.length)⟩

end OpenbsdKernel.SysvSem
