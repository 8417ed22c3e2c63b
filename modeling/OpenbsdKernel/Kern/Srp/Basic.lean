import Mathlib.Data.Fintype.Basic
import Mathlib.Data.List.FinRange
import Mathlib.Logic.Function.Basic

/-!
# Shared reference pointers

The hazard records of `kern/kern_srp.c` with their readers and updaters, as an
interleaving of single loads and stores on sequentially consistent memory. A CPU that
looks through its own records does so in one step for each record, since no other CPU
writes them.
-/
namespace OpenbsdKernel.Srp

def SRP_HAZARD_NUM : ℕ := 16

/-- `struct srp_hazard`. -/
structure Hazard (π ν : Type*) where
  sh_p : Option π
  sh_v : Option ν
  deriving DecidableEq, Repr

/-- Where a reader stands. `src` is the reference a call of `srp_follow` started from. -/
inductive Pc (π ν : Type*) where
  | idle
  /-- The loop of `srp_enter`, before it looks at record `i`. -/
  | enter (srp : π) (i : ℕ)
  /-- `srp_v` before its store to `sh_p`, then through the body of its loop. -/
  | publish (srp : π) (i : Fin SRP_HAZARD_NUM) (src : Option (π × ν))
  | load (srp : π) (i : Fin SRP_HAZARD_NUM) (src : Option (π × ν))
  | store (srp : π) (i : Fin SRP_HAZARD_NUM) (v : Option ν) (src : Option (π × ν))
  | check (srp : π) (i : Fin SRP_HAZARD_NUM) (v : Option ν) (src : Option (π × ν))
  /-- The loops of `srp_leave` and `srp_follow`, with `i` records still to look at. -/
  | leave (srp : π) (v : Option ν) (i : ℕ)
  | clear (srp : π) (v : Option ν) (i : Fin SRP_HAZARD_NUM)
  | follow (srp : π) (v : ν) (next : π) (i : ℕ)
  | panic
  deriving DecidableEq, Repr

/-- Where the collection of a replaced value stands: the records `srp_v_referenced` has
still to look at, whether it has found `sh_p` equal, or a pending timeout. -/
inductive GcPc (n : ℕ) where
  | scan (todo : List (Fin n × Fin SRP_HAZARD_NUM))
  | value (r : Fin n × Fin SRP_HAZARD_NUM) (todo : List (Fin n × Fin SRP_HAZARD_NUM))
  | timeout
  deriving DecidableEq, Repr

/-- A replaced value on its way to the destructor. -/
structure Gc (n : ℕ) (π ν : Type*) where
  srp : π
  v : ν
  pc : GcPc n
  deriving DecidableEq, Repr

/-- The memory, the readers and the collections under way. `holds` lists the references
the calls on a CPU have returned, `destroyed` the runs of the destructor. -/
structure State (n : ℕ) (π ν : Type*) where
  ref : π → Option ν
  hazards : Fin n → Fin SRP_HAZARD_NUM → Hazard π ν
  pc : Fin n → Pc π ν
  holds : Fin n → List (π × Option ν)
  gcs : List (Gc n π ν)
  destroyed : List (π × ν)

variable {n : ℕ} {π ν : Type*} [DecidableEq π] [DecidableEq ν]

/-- Nothing stored and nothing referenced. -/
def State.init : State n π ν where
  ref := fun _ => none
  hazards := fun _ _ => ⟨none, none⟩
  pc := fun _ => .idle
  holds := fun _ => []
  gcs := []
  destroyed := []

/-- The records in the order `srp_v_referenced` looks at them. -/
def records (n : ℕ) : List (Fin n × Fin SRP_HAZARD_NUM) :=
  (List.finRange n).flatMap fun c => (List.finRange SRP_HAZARD_NUM).map fun i => (c, i)

/-- What may happen next: a CPU starts a call or makes the next step of one, `srp_update`
makes its exchange, or a collection goes on. -/
inductive Act (n : ℕ) (π ν : Type*) where
  | enter (c : Fin n) (srp : π)
  | leave (c : Fin n) (srp : π) (v : Option ν)
  | follow (c : Fin n) (srp : π) (v : ν) (next : π)
  | step (c : Fin n)
  | update (srp : π) (v : Option ν)
  | gc (j : ℕ)
  deriving DecidableEq, Repr

namespace State

def goto (s : State n π ν) (c : Fin n) (pc : Pc π ν) : State n π ν :=
  { s with pc := Function.update s.pc c pc }

/-- A store to a record of `c`. -/
def setHazard (s : State n π ν) (c : Fin n) (i : Fin SRP_HAZARD_NUM) (h : Hazard π ν) :
    State n π ν :=
  { s with hazards := Function.update s.hazards c (Function.update (s.hazards c) i h) }

def take (s : State n π ν) (c : Fin n) (r : π × Option ν) : State n π ν :=
  { s with holds := Function.update s.holds c (r :: s.holds c) }

def drop (s : State n π ν) (c : Fin n) (r : π × Option ν) : State n π ν :=
  { s with holds := Function.update s.holds c ((s.holds c).erase r) }

/-- The next load or store of a reader. -/
def step (s : State n π ν) (c : Fin n) : State n π ν :=
  match s.pc c with
  | .idle => s
  | .enter srp i =>
    if h : i < SRP_HAZARD_NUM then
      if (s.hazards c ⟨i, h⟩).sh_p = none then s.goto c (.publish srp ⟨i, h⟩ none)
      else s.goto c (.enter srp (i + 1))
    else s.goto c .panic
  | .publish srp i src =>
    let s₁ := s.setHazard c i { s.hazards c i with sh_p := some srp }
    match src with
    | none => s₁.goto c (.load srp i src)
    | some r => (s₁.drop c (r.1, some r.2)).goto c (.load srp i src)
  | .load srp i src => s.goto c (.store srp i (s.ref srp) src)
  | .store srp i v src =>
    (s.setHazard c i { s.hazards c i with sh_v := v }).goto c (.check srp i v src)
  | .check srp i v src =>
    if v = s.ref srp then (s.take c (srp, v)).goto c .idle else s.goto c (.load srp i src)
  | .leave srp v i =>
    if h : 0 < i ∧ i ≤ SRP_HAZARD_NUM then
      if s.hazards c ⟨i - 1, by omega⟩ = ⟨some srp, v⟩ then s.goto c (.clear srp v ⟨i - 1, by omega⟩)
      else s.goto c (.leave srp v (i - 1))
    else s.goto c .panic
  | .clear srp v i =>
    ((s.setHazard c i { s.hazards c i with sh_p := none }).drop c (srp, v)).goto c .idle
  | .follow srp v next i =>
    if h : 0 < i ∧ i ≤ SRP_HAZARD_NUM then
      if s.hazards c ⟨i - 1, by omega⟩ = ⟨some srp, some v⟩ then
        s.goto c (.publish next ⟨i - 1, by omega⟩ (some (srp, v)))
      else s.goto c (.follow srp v next (i - 1))
    else s.goto c .panic
  | .panic => s

/-- The exchange in `srp_update`; a value that was there is handed to `srp_v_gc_start`. -/
def update (s : State n π ν) (srp : π) (v : Option ν) : State n π ν :=
  { s with
    ref := Function.update s.ref srp v
    gcs :=
      match s.ref srp with
      | some ov => s.gcs ++ [⟨srp, ov, .scan (records n)⟩]
      | none => s.gcs }

/-- The next load of `srp_v_referenced` for `g`, with what follows from the last one. -/
def scan (s : State n π ν) (g : Gc n π ν) : Option (GcPc n) :=
  match g.pc with
  | .scan [] => none
  | .scan (r :: todo) =>
    if (s.hazards r.1 r.2).sh_p ≠ some g.srp then some (.scan todo) else some (.value r todo)
  | .value r todo =>
    if (s.hazards r.1 r.2).sh_v ≠ some g.v then some (.scan todo) else some .timeout
  | .timeout => some (.scan (records n))

def gc (s : State n π ν) (j : ℕ) : State n π ν :=
  match s.gcs[j]? with
  | none => s
  | some g =>
    match s.scan g with
    | some pc => { s with gcs := s.gcs.set j { g with pc := pc } }
    | none => { s with gcs := s.gcs.eraseIdx j, destroyed := s.destroyed ++ [(g.srp, g.v)] }

/-- A CPU starts a call between two others, and `srp_leave` and `srp_follow` with a
reference it has. -/
def act (s : State n π ν) : Act n π ν → State n π ν
  | .enter c srp => if s.pc c = .idle then s.goto c (.enter srp 0) else s
  | .leave c srp v =>
    if s.pc c = .idle ∧ (srp, v) ∈ s.holds c then s.goto c (.leave srp v SRP_HAZARD_NUM) else s
  | .follow c srp v next =>
    if s.pc c = .idle ∧ (srp, some v) ∈ s.holds c then
      s.goto c (.follow srp v next SRP_HAZARD_NUM)
    else s
  | .step c => s.step c
  | .update srp v => s.update srp v
  | .gc j => s.gc j

def run (s : State n π ν) (acts : List (Act n π ν)) : State n π ν := acts.foldl act s

end State

/-- The values the updates of a run put in, with their places. -/
def inserted (acts : List (Act n π ν)) : List (π × ν) :=
  acts.filterMap fun
    | .update srp (some v) => some (srp, v)
    | _ => none

end OpenbsdKernel.Srp
