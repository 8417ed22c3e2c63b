import OpenbsdKernel.Kern.Pool.Pages

/-!
# Threads that use a pool

Every thread is idle or somewhere in `pool_get`, `pool_put`, `pool_prime` or `pool_reclaim`, and a
step of it goes from where it holds no mutex to the next such place. `pool_do_get` gives up
`pr_mtx` for `pool_p_alloc`, and so has two halves.
-/
namespace OpenbsdKernel.Pool

/-- The flags of `pool_get` that decide what it does. -/
structure Flags where
  waitok : Bool
  nowait : Bool
  limitfail : Bool
  deriving DecidableEq, Repr

/-- What a thread does after `pool_runqueue`: it sleeps until its request is served, or returns. -/
inductive After
  | sleep
  | done
  deriving DecidableEq, Repr

/-- Who called `pool_do_get`. `pool_runqueue` has items for the requests in `served`, and is about to
get one for `pr`. -/
inductive Caller (ι : Type)
  | get (flags : Flags)
  | queue (served : List (ι × ℕ)) (pr : ι) (prl : List ι) (a : After)
  deriving DecidableEq, Repr

/-- Where a thread is. A request is known by the thread that made it. -/
inductive Pc (ι : Type)
  | idle
  | alloc (c : Caller ι)
  | insert (c : Caller ι) (ph : Option ℕ)
  | request
  | run (prl : List ι) (a : After)
  | serve (served : List (ι × ℕ)) (prl : List ι) (a : After)
  | sleep
  | free (pl : List ℕ) (put : Bool)
  | prime (newpages : ℕ) (pl : List ℕ)
  deriving DecidableEq, Repr

def After.pc {ι : Type} : After → Pc ι
  | .sleep => .sleep
  | .done => .idle

/-- The pool with its requests and all threads; `mem` is what `pool_get_done` stores for a thread,
and `held` the items that were returned by `pool_get` and not given to `pool_put`. -/
structure System (ι : Type) where
  pool : State
  pr_requests : List ι
  pr_requesting : BitVec 32
  mem : ι → Option ℕ
  held : Multiset ℕ
  pc : ι → Pc ι

def System.init (ι : Type) : System ι := ⟨poolInit, [], 0, fun _ => none, 0, fun _ => .idle⟩

section Sections

variable (cfg : Config) {ι : Type} [DecidableEq ι]

/-- `pool_do_get` up to where it gives up `pr_mtx`, or to its end if there is a current page. -/
def poolDoGet (pp : State) : Except Fault (Option ℕ × State) :=
  let pp := { pp with pr_nout := pp.pr_nout + 1 }
  match pp.pr_curpage with
  | none => .ok (none, pp)
  | some _ => (takeItem cfg pp).map fun r => (some r.1, r.2)

/-- `pool_do_get` from where it has `pr_mtx` again and `pool_p_alloc` has returned `ph`. -/
def poolDoGetEnd (pp : State) : Option ℕ → Except Fault (Option ℕ × State)
  | none => .ok (none, { pp with pr_nout := pp.pr_nout - 1 })
  | some ph => (takeItem cfg (poolPInsert cfg pp ph)).map fun r => (some r.1, r.2)

/-- The loop of `pool_runqueue` that gets an item for each request. -/
def runRequests (a : After) : State → List (ι × ℕ) → List ι → Except Fault (State × Pc ι)
  | pp, served, [] => .ok (pp, .serve served [] a)
  | pp, served, pr :: prl =>
    if cfg.pr_hardlimit ≤ pp.pr_nout then .ok (pp, .serve served (pr :: prl) a)
    else
      match poolDoGet cfg pp with
      | .error e => .error e
      | .ok (none, pp) => .ok (pp, .alloc (.queue served pr prl a))
      | .ok (some pi, pp) => runRequests a pp (served ++ [(pr, pi)]) prl

/-- The start of the outer loop of `pool_runqueue`: all requests are moved to `prl`. With none at
all the loop ends. -/
def takeRequests (s : System ι) (t : ι) (prl : List ι) (a : After) : System ι :=
  match prl ++ s.pr_requests with
  | [] => { s with pr_requests := [], pr_requesting := 0, pc := Function.update s.pc t a.pc }
  | prl => { s with pr_requests := [], pr_requesting := 1, pc := Function.update s.pc t (.run prl a) }

def poolRunqueue (s : System ι) (t : ι) (a : After) : System ι :=
  if s.pr_requesting ≠ 0 then
    { s with pr_requesting := s.pr_requesting + 1, pc := Function.update s.pc t a.pc }
  else takeRequests s t [] a

/-- The end of the outer loop of `pool_runqueue`. -/
def endRunqueue (s : System ι) (t : ι) (prl : List ι) (a : After) : System ι :=
  if s.pr_requesting - 1 ≠ 0 then takeRequests s t prl a
  else { s with
    pr_requests := s.pr_requests ++ prl
    pr_requesting := 0
    pc := Function.update s.pc t a.pc }

/-- What the caller of `pool_do_get` does with its result. -/
def resume (s : System ι) (t : ι) : Caller ι → Except Fault (Option ℕ × State) → Except Fault (System ι)
  | _, .error e => .error e
  | .get flags, .ok (none, pp) =>
    .ok { s with pool := pp, pc := Function.update s.pc t (if flags.nowait then .idle else .request) }
  | .get _, .ok (some v, pp) =>
    .ok { s with pool := pp, held := v ::ₘ s.held, pc := Function.update s.pc t .idle }
  | .queue served pr prl a, .ok (none, pp) =>
    .ok { s with pool := pp, pc := Function.update s.pc t (.serve served (pr :: prl) a) }
  | .queue served pr prl a, .ok (some pi, pp) =>
    (runRequests cfg a pp (served ++ [(pr, pi)]) prl).map fun r =>
      { s with pool := r.1, pc := Function.update s.pc t r.2 }

end Sections

/-- What a thread is told: to call a function, what the page allocator returns, or to go on. -/
inductive Act
  | get (flags : Flags)
  | put (v : ℕ) (ticks : BitVec 32)
  | prime (n : BitVec 32)
  | reclaim
  | allocated (addr : Option ℕ)
  | go
  deriving DecidableEq, Repr

section Step

variable (cfg : Config) {ι : Type} [DecidableEq ι]

/-- `pool_p_alloc` with what the page allocator gives. -/
def System.alloc (s : System ι) (t : ι) (pc : Pc ι) : Option ℕ → System ι
  | none => { s with pc := Function.update s.pc t pc }
  | some addr => { s with pool := poolPAlloc cfg s.pool addr, pc := Function.update s.pc t pc }

/-- A step of the thread `t`; what it cannot do where it is changes nothing. -/
def step (s : System ι) (t : ι) (act : Act) : Except Fault (System ι) :=
  match s.pc t, act with
  | .idle, .get flags =>
    if cfg.pr_hardlimit ≤ s.pool.pr_nout then
      .ok { s with pc := Function.update s.pc t (if flags.nowait || flags.limitfail then .idle else .request) }
    else
      match poolDoGet cfg s.pool with
      | .error e => .error e
      | .ok (none, pp) => .ok { s with pool := pp, pc := Function.update s.pc t (.alloc (.get flags)) }
      | .ok (some v, pp) =>
        .ok { s with pool := pp, held := v ::ₘ s.held, pc := Function.update s.pc t .idle }
  | .idle, .put v ticks =>
    (poolPut cfg s.pool v ticks).map fun r =>
      { s with pool := r.1, held := s.held.erase v, pc := Function.update s.pc t (.free r.2 true) }
  | .idle, .prime n => .ok { s with pc := Function.update s.pc t (.prime (newPages cfg n) []) }
  | .idle, .reclaim =>
    let r := poolReclaim cfg s.pool.pr_emptypages s.pool []
    .ok { s with pool := r.1, pc := Function.update s.pc t (.free r.2 false) }
  | .alloc c, .allocated addr => .ok (s.alloc cfg t (.insert c addr) addr)
  | .insert c ph, .go => resume cfg s t c (poolDoGetEnd cfg s.pool ph)
  | .request, .go => .ok (poolRunqueue { s with pr_requests := s.pr_requests ++ [t] } t .sleep)
  | .run prl a, .go =>
    (runRequests cfg a s.pool [] prl).map fun r =>
      { s with pool := r.1, pc := Function.update s.pc t r.2 }
  | .serve ((pr, v) :: served) prl a, .go =>
    .ok { s with mem := Function.update s.mem pr (some v), pc := Function.update s.pc t (.serve served prl a) }
  | .serve [] prl a, .go => .ok (endRunqueue s t prl a)
  | .sleep, .go =>
    match s.mem t with
    | none => .ok s
    | some v => .ok { s with
        mem := Function.update s.mem t none
        held := v ::ₘ s.held
        pc := Function.update s.pc t .idle }
  | .free (ph :: pl) put, .go =>
    (poolPFree s.pool ph).map fun pp => { s with pool := pp, pc := Function.update s.pc t (.free pl put) }
  | .free [] put, .go =>
    .ok (if put then poolRunqueue s t .done else { s with pc := Function.update s.pc t .idle })
  | .prime (newpages + 1) pl, .allocated addr =>
    .ok (match addr with
      | none => s.alloc cfg t (.prime 0 pl) none
      | some ph => s.alloc cfg t (.prime newpages (pl ++ [ph])) (some ph))
  | .prime 0 pl, .go =>
    .ok { s with pool := pl.foldl (poolPInsert cfg) s.pool, pc := Function.update s.pc t .idle }
  | _, _ => .ok s

theorem step_sleep {s : System ι} {t : ι} (hpc : s.pc t = .sleep) (hmem : s.mem t = none) :
    step cfg s t .go = .ok s := by
  simp only [step, hpc, hmem]

end Step

section Accounts

variable {ι : Type}

/-- Items that wait to be delivered. -/
def Caller.items : Caller ι → Multiset ℕ
  | .get _ => 0
  | .queue served _ _ _ => served.map Prod.snd

def Pc.items : Pc ι → Multiset ℕ
  | .alloc c => c.items
  | .insert c _ => c.items
  | .serve served _ _ => served.map Prod.snd
  | _ => 0

/-- Pages that are not inserted, or not any more. -/
def Pc.pages : Pc ι → Multiset ℕ
  | .insert _ (some ph) => {ph}
  | .free pl _ => pl
  | .prime _ pl => pl
  | _ => 0

def Pc.getting : Pc ι → ℕ
  | .alloc _ => 1
  | .insert _ _ => 1
  | _ => 0

/-- Requests that `pool_runqueue` has taken from `pr_requests`. -/
def Caller.prl : Caller ι → Multiset ι
  | .get _ => 0
  | .queue served pr prl _ => served.map Prod.fst + pr :: prl

def Pc.prl : Pc ι → Multiset ι
  | .alloc c => c.prl
  | .insert c _ => c.prl
  | .run prl _ => prl
  | .serve served prl _ => served.map Prod.fst + prl
  | _ => 0

def Caller.waits : Caller ι → Bool
  | .queue _ _ _ .sleep => true
  | _ => false

def Pc.waits : Pc ι → Bool
  | .alloc c => c.waits
  | .insert c _ => c.waits
  | .run _ .sleep => true
  | .serve _ _ .sleep => true
  | .sleep => true
  | _ => false

variable [Fintype ι]

/-- The items that are handed out. -/
def System.out (s : System ι) : Multiset ℕ :=
  s.held + ∑ t, (s.pc t).items + ∑ t, (s.mem t).elim 0 ({·})

def System.outside (s : System ι) : Multiset ℕ := ∑ t, (s.pc t).pages

def System.getting (s : System ι) : ℕ := ∑ t, (s.pc t).getting

def System.queued (s : System ι) : Multiset ι := s.pr_requests + ∑ t, (s.pc t).prl

/-- Threads put back what they hold, and the page allocator gives pages that are not in use. -/
def Act.Allowed (cfg : Config) (s : System ι) : Act → Prop
  | .put v _ => v ∈ s.held
  | .allocated (some addr) => Fresh cfg (s.pool.pages + s.outside) addr
  | _ => True

/-- The states that threads can come to. -/
inductive Reachable (cfg : Config) [DecidableEq ι] : System ι → Prop
  | init : Reachable cfg (System.init ι)
  | step {s s' : System ι} (t : ι) (act : Act) : Reachable cfg s → act.Allowed cfg s →
      Pool.step cfg s t act = .ok s' → Reachable cfg s'

end Accounts

end OpenbsdKernel.Pool
