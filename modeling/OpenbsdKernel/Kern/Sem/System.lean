import OpenbsdKernel.Kern.Sem.Semop

/-!
# Runs of the semaphore facility

The calls of any number of threads, interleaved at the points where they give up the
processor. `exec` is what a thread does until it gives up the processor again; `Allowed`
says which addresses the allocators return, which sleepers are run again and when a process
may exit.
-/
namespace OpenbsdKernel.SysvSem

variable {τ ρ : Type*} [DecidableEq τ] [DecidableEq ρ]

/-- What makes a thread go on: a system call, or what it waits for. `mem` says whether memory
for an undo structure is at hand. -/
inductive Act where
  | semget (g : Semget) (ipcperm : Option Errno)
  | item (a : ℕ)
  | base (b : ℕ) (ipcperm : Option Errno)
  | semop (semid : BitVec 32) (nsops : ℕ) (ipcperm : Option Errno)
  | sops (r : Except Errno (List Sembuf)) (mem : Bool)
  | wake (intr mem : Bool)
  | semu
  | setval (semid : BitVec 32) (semnum val : ℤ) (ipcperm : Option Errno)
  | setall (semid : BitVec 32) (ipcperm : Option Errno)
  | vals (r : Except Errno (List (BitVec 16)))
  | rmid (semid : BitVec 32) (junk : Semid × (ℕ → Sem)) (ipcperm : Option Errno)
  | exit

/-- `semget` from its start. -/
def semgetStart (info : Seminfo) (s : State τ ρ) (t : τ) (g : Semget) (ipcperm : Option Errno) :
    State τ ρ × Outcome :=
  if g.key = IPC_PRIVATE ∨ g.IPC_CREAT then
    match semgetCheck info s g with
    | some e => (s, .failed e)
    | none => (s.setCall t (some (.poolGet g)), .pending)
  else semgetFind info s g none ipcperm

/-- Thread `t` goes on; `none` if this is not what it waits for. -/
def exec (info : Seminfo) (p_p : τ → ρ) (s : State τ ρ) (t : τ) (a : Act) :
    Option (State τ ρ × Outcome) :=
  match s.calls t, a with
  | none, .semget g ipcperm => some (semgetStart info s t g ipcperm)
  | some (.poolGet g), .item a => some (s.setCall t (some (.malloc g a)), .pending)
  | some (.malloc g a), .base b ipcperm =>
    some (semgetFind info ((s.newBase a b).setCall t none) g (some a) ipcperm)
  | none, .semop semid nsops ipcperm => some (semopCheck info s t semid nsops ipcperm)
  | some (.copyin _ _), .sops (.error e) _ => some (s.setCall t none, .failed e)
  | some (.copyin u _), .sops (.ok sops) mem => some (semopPass info (p_p t) mem s t u sops 0)
  | some (.asleep u sops do_undos base num zero _), .wake intr mem =>
    some (semopWake info (p_p t) mem s t u sops do_undos base num zero intr)
  | some (.semuWait u sops applied rest do_wakeup), .semu =>
    some (semopEnd s t u sops do_wakeup
      (applyUndos info (p_p t) true u.ix applied rest (semuAllocWaited (p_p t) s.undos) .live))
  | none, .setval semid semnum val ipcperm => some (semctlSetval info s semid semnum val ipcperm)
  | none, .setall semid ipcperm => some (semctlSetall info s t semid ipcperm)
  | some (.setall u nsems), .vals r => some (setallVals info s t u nsems r)
  | none, .rmid semid junk ipcperm => some (semctlRmid info s semid junk ipcperm)
  | none, .exit => some (semexit s (p_p t))
  | _, _ => none

/-- The call holds the preallocated set at address `a`. -/
def Call.Holds (a : ℕ) : Call → Prop
  | .malloc _ item => item = a
  | _ => False

instance (a : ℕ) : DecidablePred (Call.Holds a)
  | .malloc _ item => inferInstanceAs (Decidable (item = a))
  | .poolGet _ | .copyin .. | .asleep .. | .semuWait .. | .setall .. => isFalse id

/-- The call has asked for `n` operations. -/
def Call.Asked (n : ℕ) : Call → Prop
  | .copyin _ nsops => n = nsops
  | _ => True

instance (n : ℕ) : DecidablePred (Call.Asked n)
  | .copyin _ nsops => inferInstanceAs (Decidable (n = nsops))
  | .poolGet _ | .malloc .. | .asleep .. | .semuWait .. | .setall .. => isTrue trivial

def Call.Woken : Call → Prop
  | .asleep _ _ _ _ _ _ woken => woken
  | _ => True

instance : DecidablePred Call.Woken
  | .asleep _ _ _ _ _ _ woken => inferInstanceAs (Decidable (woken = true))
  | .poolGet _ | .malloc .. | .copyin .. | .semuWait .. | .setall .. => isTrue trivial

/-- The copying loop of the call ends after `n` values. -/
def Call.Copies (items : ℕ → Semid) (n : ℕ) : Call → Prop
  | .setall u _ => n = (items u.semaptr).sem_nsems
  | _ => True

instance (items : ℕ → Semid) (n : ℕ) : DecidablePred (Call.Copies items n)
  | .setall u _ => inferInstanceAs (Decidable (n = (items u.semaptr).sem_nsems))
  | .poolGet _ | .malloc .. | .copyin .. | .asleep .. | .semuWait .. => isTrue trivial

/-- What the allocators, the scheduler and the exit of processes let happen. -/
def Allowed (info : Seminfo) (p_p : τ → ρ) (s : State τ ρ) (t : τ) : Act → Prop
  | .item a => (∀ ix < info.semmni, s.sema ix ≠ some a) ∧ ∀ t', ∀ c ∈ s.calls t', ¬c.Holds a
  | .base b _ => ∀ ix < info.semmni, ∀ a ∈ s.sema ix, (s.items a).sem_base ≠ b
  | .sops (.ok sops) _ => ∀ c ∈ s.calls t, c.Asked sops.length
  | .wake intr _ => intr = false → ∀ c ∈ s.calls t, c.Woken
  | .vals (.ok vals) => ∀ c ∈ s.calls t, c.Copies s.items vals.length
  | .exit => ∀ t', p_p t' = p_p t → s.calls t' = none
  | _ => True

/-- A step of a run. -/
structure Event (τ ρ : Type*) where
  pre : State τ ρ
  thread : τ
  act : Act
  out : Outcome
  post : State τ ρ

/-- The kernel has stopped. -/
def Outcome.Stops : Outcome → Prop
  | .panic _ | .crash => True
  | _ => False

instance : DecidablePred Outcome.Stops
  | .panic _ | .crash => isTrue trivial
  | .ok _ | .failed _ | .pending => isFalse id

/-- The runs from a state in which every step meets the condition `C`. -/
inductive Runs (info : Seminfo) (p_p : τ → ρ) (C : State τ ρ → τ → Act → Prop) :
    State τ ρ → List (Event τ ρ) → State τ ρ → Prop
  | nil (s : State τ ρ) : Runs info p_p C s [] s
  | step {s s₁ s₂ : State τ ρ} {t : τ} {a : Act} {o : Outcome} {tr : List (Event τ ρ)} :
      Allowed info p_p s t a → C s t a → exec info p_p s t a = some (s₁, o) →
        (tr ≠ [] → ¬o.Stops) → Runs info p_p C s₁ tr s₂ →
          Runs info p_p C s (⟨s, t, a, o, s₁⟩ :: tr) s₂

theorem Runs.split {info : Seminfo} {p_p : τ → ρ} {C : State τ ρ → τ → Act → Prop}
    {s s₂ : State τ ρ} {tr₁ tr₂ : List (Event τ ρ)} (h : Runs info p_p C s (tr₁ ++ tr₂) s₂) :
    ∃ s₁, Runs info p_p C s tr₁ s₁ ∧ Runs info p_p C s₁ tr₂ s₂ := by
  induction tr₁ generalizing s with
  | nil => exact ⟨s, .nil s, h⟩
  | cons ev tr₁ ih =>
    cases h with
    | step hal hc hex hstop hrest =>
      obtain ⟨s₁, h₁, h₂⟩ := ih hrest
      refine ⟨s₁, .step hal hc hex ?_ h₁, h₂⟩
      intro hne
      exact hstop (by simp [hne])

theorem Runs.invariant {info : Seminfo} {p_p : τ → ρ} {C : State τ ρ → τ → Act → Prop}
    {I : State τ ρ → Prop}
    (hstep : ∀ s t a s₁ o, I s → Allowed info p_p s t a → C s t a →
      exec info p_p s t a = some (s₁, o) → I s₁)
    {s s' : State τ ρ} {tr : List (Event τ ρ)} (h : Runs info p_p C s tr s') (hs : I s) :
    I s' ∧ ∀ ev ∈ tr, I ev.pre ∧ I ev.post ∧ Allowed info p_p ev.pre ev.thread ev.act ∧
      C ev.pre ev.thread ev.act ∧
      exec info p_p ev.pre ev.thread ev.act = some (ev.post, ev.out) := by
  induction h with
  | nil s => exact ⟨hs, by simp⟩
  | step hal hc hex _ _ ih =>
    have h₁ := hstep _ _ _ _ _ hs hal hc hex
    obtain ⟨hlast, hall⟩ := ih h₁
    refine ⟨hlast, ?_⟩
    simp only [List.mem_cons, forall_eq_or_imp]
    exact ⟨⟨hs, h₁, hal, hc, hex⟩, hall⟩

section Replay

variable [Fintype τ]

instance (info : Seminfo) (p_p : τ → ρ) (s : State τ ρ) (t : τ) :
    DecidablePred (Allowed info p_p s t)
  | .item a => inferInstanceAs
      (Decidable ((∀ ix < info.semmni, s.sema ix ≠ some a) ∧ ∀ t', ∀ c ∈ s.calls t', ¬c.Holds a))
  | .base b _ => inferInstanceAs
      (Decidable (∀ ix < info.semmni, ∀ a ∈ s.sema ix, (s.items a).sem_base ≠ b))
  | .sops (.ok sops) _ => inferInstanceAs (Decidable (∀ c ∈ s.calls t, c.Asked sops.length))
  | .wake intr _ => inferInstanceAs (Decidable (intr = false → ∀ c ∈ s.calls t, c.Woken))
  | .vals (.ok vals) => inferInstanceAs
      (Decidable (∀ c ∈ s.calls t, c.Copies s.items vals.length))
  | .exit => inferInstanceAs (Decidable (∀ t', p_p t' = p_p t → s.calls t' = none))
  | .semget .. | .semop .. | .sops (.error _) _ | .semu | .setval .. | .setall .. |
    .vals (.error _) | .rmid .. => isTrue trivial

variable (C : State τ ρ → τ → Act → Prop) [∀ s t a, Decidable (C s t a)]

/-- The run from `s` in which the threads go on as listed, if the steps meet `C`. -/
def replay (info : Seminfo) (p_p : τ → ρ) (s : State τ ρ) :
    List (τ × Act) → Option (List (Event τ ρ) × State τ ρ)
  | [] => some ([], s)
  | (t, a) :: rest =>
    if Allowed info p_p s t a ∧ C s t a then
      match exec info p_p s t a with
      | some (s₁, o) =>
        if rest ≠ [] ∧ o.Stops then none
        else (replay info p_p s₁ rest).map fun r => (⟨s, t, a, o, s₁⟩ :: r.1, r.2)
      | none => none
    else none

theorem runs_of_replay {info : Seminfo} {p_p : τ → ρ} {s : State τ ρ} {acts : List (τ × Act)}
    {r : List (Event τ ρ) × State τ ρ} (h : r ∈ replay C info p_p s acts) :
    Runs info p_p C s r.1 r.2 := by
  induction acts generalizing s r with
  | nil =>
    obtain rfl : ([], s) = r := by simpa [replay] using h
    exact .nil s
  | cons ta rest ih =>
    obtain ⟨t, a⟩ := ta
    rw [replay] at h
    by_cases hal : Allowed info p_p s t a ∧ C s t a
    · rw [if_pos hal] at h
      cases hex : exec info p_p s t a with
      | none => simp [hex] at h
      | some so =>
        obtain ⟨s₁, o⟩ := so
        simp only [hex] at h
        by_cases hstop : rest ≠ [] ∧ o.Stops
        · simp [hstop] at h
        · rw [if_neg hstop] at h
          obtain ⟨r₁, hrest, rfl⟩ := Option.mem_map.mp h
          refine .step hal.1 hal.2 hex ?_ (ih hrest)
          intro hne hstops
          refine hstop ⟨?_, hstops⟩
          rintro rfl
          obtain rfl : ([], s₁) = r₁ := by simpa [replay] using hrest
          exact hne rfl
    · rw [if_neg hal] at h
      cases h

end Replay

end OpenbsdKernel.SysvSem
