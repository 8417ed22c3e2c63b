import OpenbsdKernel.Kern.Sem.Errors

/-!
# `ENOSPC` from `semop`

`do_undos` is set to 0 before the outer loop and not at the start of each turn. A call that
has slept thus counts the operations of its earlier turns again, although they have been
rolled back, and fails once there are more than `SEMUME` of them in all.
-/
namespace OpenbsdKernel.SysvSem

def carriedOut (nsems : ℕ) : (ℕ → Sem) → List Sembuf → List Sembuf
  | _, [] => []
  | sems, sop :: rest =>
    if sop.sem_num.toNat < nsems ∧ ¬sop.Blocked (sems sop.sem_num.toNat) then
      sop :: carriedOut nsems (modify sems sop.sem_num.toNat (Sem.add sop.sem_op)) rest
    else []

/-- The loop over the operations stops at a semaphore number out of range. -/
def LeavesSet (nsems : ℕ) : (ℕ → Sem) → List Sembuf → Prop
  | _, [] => False
  | sems, sop :: rest =>
    nsems ≤ sop.sem_num.toNat ∨ ¬sop.Blocked (sems sop.sem_num.toNat) ∧
      LeavesSet nsems (modify sems sop.sem_num.toNat (Sem.add sop.sem_op)) rest

instance decidableLeavesSet (nsems : ℕ) :
    (sems : ℕ → Sem) → (sops : List Sembuf) → Decidable (LeavesSet nsems sems sops)
  | _, [] => isFalse id
  | sems, sop :: rest =>
    have := decidableLeavesSet nsems (modify sems sop.sem_num.toNat (Sem.add sop.sem_op)) rest
    inferInstanceAs (Decidable (_ ∨ _ ∧ _))

/-- `do_undos` after the loop, unless the call fails in it. -/
def Pass.do_undos? : Pass → Option ℕ
  | .through _ do_undos _ => some do_undos
  | .blocked _ _ _ do_undos => some do_undos
  | .efbig _ => none

theorem tryOps_do_undos (nsems : ℕ) (done : List Sembuf) (sems : ℕ → Sem) (do_undos : ℕ)
    (wake : Bool) (sops : List Sembuf) :
    (tryOps nsems done sems do_undos wake sops).do_undos? =
      if LeavesSet nsems sems sops then none
      else some (do_undos + undoCount (carriedOut nsems sems sops)) := by
  induction sops generalizing done sems do_undos wake with
  | nil => simp [tryOps, LeavesSet, carriedOut, Pass.do_undos?, undoCount]
  | cons sop rest ih =>
    by_cases hrange : nsems ≤ sop.sem_num.toNat
    · simp [tryOps, LeavesSet, hrange, Pass.do_undos?]
    · by_cases hblocked : sop.Blocked (sems sop.sem_num.toNat)
      · simp [tryOps, LeavesSet, carriedOut, hrange, hblocked, Pass.do_undos?, undoCount]
      · have hcount : (if sop.Undoes then do_undos + 1 else do_undos) = do_undos +
            if sop.Undoes then 1 else 0 := by
          split_ifs <;> rfl
        rw [tryOps, if_neg hrange, if_neg hblocked, ih, hcount]
        simp only [LeavesSet, carriedOut, hrange, hblocked, false_or, not_false_eq_true, true_and,
          and_true, Nat.not_le.mp hrange, if_true, undoCount_cons, add_assoc]

theorem modify_add_semval {sems sems' : ℕ → Sem} (heq : ∀ n, (sems' n).semval = (sems n).semval)
    (num : ℕ) (op : BitVec 16) (n : ℕ) :
    (modify sems' num (Sem.add op) n).semval = (modify sems num (Sem.add op) n).semval := by
  by_cases hn : n = num
  · simp [modify, hn, Sem.add, heq]
  · simp [modify, hn, heq]

theorem turn_congr {nsems : ℕ} {sems sems' : ℕ → Sem} (sops : List Sembuf)
    (heq : ∀ n, (sems' n).semval = (sems n).semval) :
    carriedOut nsems sems' sops = carriedOut nsems sems sops ∧
      (LeavesSet nsems sems' sops ↔ LeavesSet nsems sems sops) := by
  induction sops generalizing sems sems' with
  | nil => exact ⟨rfl, Iff.rfl⟩
  | cons sop rest ih =>
    have hblocked : sop.Blocked (sems' sop.sem_num.toNat) ↔
        sop.Blocked (sems sop.sem_num.toNat) := by
      simp only [Sembuf.Blocked, heq]
    obtain ⟨hdone, hleaves⟩ := ih (modify_add_semval heq sop.sem_num.toNat sop.sem_op)
    constructor
    · simp only [carriedOut, hblocked, hdone]
    · simp only [LeavesSet, hblocked, hleaves]

section Undos

variable {ρ : Type*} [DecidableEq ρ]

theorem revertUndos_failed {info : Seminfo} {pr : ρ} {ix : ℕ} {e e' : Errno} {applied : List Sembuf}
    {us us' : Undos ρ} {suptr : Suptr}
    (h : revertUndos info pr ix e applied us suptr = .failed e' us') : e = e' := by
  induction applied generalizing us suptr with
  | nil => exact (Undone.failed.inj h).1
  | cons sop applied ih =>
    rw [revertUndos] at h
    split_ifs at h
    · split at h
      · exact ih h
      · cases h
      · cases h
      · cases h
    · exact ih h

theorem semundoAdjust_ok {info : Seminfo} {pr : ρ} {mem : Bool} {us us' : Undos ρ}
    {suptr suptr' : Suptr} {id : ℕ} {num : BitVec 16} {adjval : ℤ} (hne : adjval ≠ 0)
    (h : semundoAdjust info pr mem us suptr id num adjval = .ok us' suptr') :
    (suptr' = .live ∧ us'.Has pr) ∨ ∃ ent, suptr' = .dangling ent := by
  have hlive : ∀ us : Undos ρ, us.Has pr → adjustLive pr us id num adjval = .ok us' suptr' →
      (suptr' = .live ∧ us'.Has pr) ∨ ∃ ent, suptr' = .dangling ent := by
    intro us hhas h
    rw [adjustLive] at h
    split at h
    · obtain ⟨rfl, rfl⟩ := Adjusted.ok.inj h
      exact .inl ⟨rfl, us.has_setEntries hhas _⟩
    · obtain ⟨rfl, rfl⟩ := Adjusted.ok.inj h
      exact .inr ⟨[], rfl⟩
    · cases h
  have hrest : semundoAdjust info pr mem us .null id num adjval = .ok us' suptr' →
      (suptr' = .live ∧ us'.Has pr) ∨ ∃ ent, suptr' = .dangling ent := by
    intro h
    rw [semundoAdjust] at h
    · split_ifs at h with hhas
      · exact hlive us hhas h
      · unfold semuAlloc at h
        split_ifs at h
        exact hlive _ ⟨⟨pr, []⟩, by simp, rfl⟩ h
    · rintro _ ⟨⟩
  cases suptr with
  | dangling ent =>
    rw [semundoAdjust] at h
    split at h
    · exact .inr ⟨_, (Adjusted.ok.inj h).2.symm⟩
    · cases h
    · cases h
  | null => exact hrest h
  | live => exact hrest h

theorem semundoAdjust_enospc {info : Seminfo} {pr : ρ} {mem : Bool} {us us' : Undos ρ}
    {suptr suptr' : Suptr} {id : ℕ} {num : BitVec 16} {adjval : ℤ}
    (h : semundoAdjust info pr mem us suptr id num adjval = .fail .ENOSPC us' suptr') :
    us.semutot = info.semmnu ∧ ¬us.Has pr ∧ ∀ ent, suptr ≠ .dangling ent := by
  have hrest : semundoAdjust info pr mem us .null id num adjval = .fail .ENOSPC us' suptr' →
      us.semutot = info.semmnu ∧ ¬us.Has pr := by
    intro h
    rw [semundoAdjust] at h
    · split_ifs at h with hhas
      · exact absurd h (adjustLive_ne_exhausted pr us us' id num adjval suptr')
      · unfold semuAlloc at h
        split_ifs at h with hfull
        · exact ⟨hfull, hhas⟩
        · exact absurd h (adjustLive_ne_exhausted pr _ us' id num adjval suptr')
    · rintro _ ⟨⟩
  cases suptr with
  | dangling ent =>
    rw [semundoAdjust] at h
    split at h <;> cases h
  | null => exact ⟨(hrest h).1, (hrest h).2, by simp⟩
  | live => exact ⟨(hrest h).1, (hrest h).2, by simp⟩

theorem applyUndos_enospc {info : Seminfo} {pr : ρ} {mem : Bool} {ix : ℕ}
    {applied rest : List Sembuf} {us us' : Undos ρ} {suptr : Suptr}
    (hsuptr : suptr = .null ∨ (suptr = .live ∧ us.Has pr) ∨ ∃ ent, suptr = .dangling ent)
    (h : applyUndos info pr mem ix applied rest us suptr = .failed .ENOSPC us') :
    suptr = .null ∧ us.semutot = info.semmnu := by
  induction rest generalizing applied us suptr with
  | nil => cases h
  | cons sop rest ih =>
    rw [applyUndos] at h
    by_cases hop : sop.Undoes
    · rw [if_pos hop] at h
      split at h
      case h_1 us₁ suptr₁ hr =>
        -- the structure is there now, so the rest cannot fail this way
        have hset := semundoAdjust_ok (neg_ne_zero.mpr (op_ne_zero hop)) hr
        obtain ⟨hnull, -⟩ := ih (.inr hset) h
        obtain ⟨hlive, -⟩ | ⟨ent, hent⟩ := hset
        · exact absurd (hlive.symm.trans hnull) (by simp)
        · exact absurd (hent.symm.trans hnull) (by simp)
      case h_2 e us₁ suptr₁ hr =>
        obtain rfl := revertUndos_failed h
        obtain ⟨htot, hhas, hne⟩ := semundoAdjust_enospc hr
        obtain hnull | ⟨-, hlive⟩ | ⟨ent, hent⟩ := hsuptr
        · exact ⟨hnull, htot⟩
        · exact absurd hlive hhas
        · exact absurd hent (hne ent)
      · cases h
      · cases h
    · rw [if_neg hop] at h
      exact ih hsuptr h

end Undos

section Calls

variable {τ ρ : Type*} [DecidableEq τ] [DecidableEq ρ]

def Event.turn (ev : Event τ ρ) : Option (Target × List Sembuf) :=
  match ev.pre.calls ev.thread, ev.act with
  | some (.copyin u _), .sops (.ok sops) _ => some (u, sops)
  | some (.asleep u sops _ _ _ _ _), .wake false _ =>
    if ev.pre.sema u.ix = none ∨ (ev.pre.items u.semaptr).seq ≠ u.seq then none else some (u, sops)
  | _, _ => none

def Event.did (ev : Event τ ρ) : List Sembuf :=
  match ev.turn with
  | some (u, sops) =>
    carriedOut (ev.pre.items u.semaptr).sem_nsems (ev.pre.sems u.semaptr) sops
  | none => []

/-- The turn stops at a semaphore number out of range. -/
def Event.LeavesSet (ev : Event τ ρ) : Prop :=
  ∃ r ∈ ev.turn,
    SysvSem.LeavesSet (ev.pre.items r.1.semaptr).sem_nsems (ev.pre.sems r.1.semaptr) r.2

/-- The number of undos that the turns of the call of thread `t` have asked for, after one more
step. -/
def tried (t : τ) (k : ℕ) (ev : Event τ ρ) : ℕ :=
  if ev.thread = t then
    match ev.act with
    | .semop .. => 0
    | _ => k + undoCount ev.did
  else k

/-- The operations the call of a step is about. -/
def Event.vector (ev : Event τ ρ) : List Sembuf :=
  match ev.act, ev.pre.calls ev.thread with
  | .sops (.ok sops) _, _ => sops
  | _, some (.asleep _ sops _ _ _ _ _) => sops
  | _, some (.semuWait _ sops _ _ _) => sops
  | _, _ => []

/-- A step of a call of `semop`. -/
def Act.OfSemop : Act → Prop
  | .semop .. | .sops .. | .wake .. | .semu => True
  | _ => False

instance : DecidablePred Act.OfSemop
  | .semop .. | .sops .. | .wake .. | .semu => isTrue trivial
  | .semget .. | .item _ | .base .. | .setval .. | .setall .. | .vals _ | .rmid .. | .exit =>
    isFalse id

/-- `ipcperm` and `copyin` fail with their own errors. -/
def Act.Usual : Act → Prop
  | .semop _ _ (some e) => e = .EACCES
  | .sops (.error e) _ => e = .EFAULT
  | _ => True

instance : DecidablePred Act.Usual
  | .semop _ _ (some e) => inferInstanceAs (Decidable (e = .EACCES))
  | .sops (.error e) _ => inferInstanceAs (Decidable (e = .EFAULT))
  | .semop _ _ none | .sops (.ok _) _ | .semget .. | .item _ | .base .. | .wake .. | .semu
  | .setval .. | .setall .. | .vals _ | .rmid .. | .exit => isTrue trivial

/-- `do_undos` of the call, which has been put to sleep, is what its turns have asked for. -/
def Call.Tried (k : ℕ) : Call → Prop
  | .copyin _ _ => k = 0
  | .asleep _ _ do_undos _ _ _ _ => do_undos = k ∧ k ≤ SEMUME
  | .semuWait _ _ _ _ _ => k ≤ SEMUME
  | _ => True

variable {info : Seminfo} {p_p : τ → ρ} {s s' : State τ ρ} {t : τ} {o : Outcome}

omit [DecidableEq ρ] in
@[simp] theorem still_setCall (c : Option Call) : (s.setCall t c).still t = c.map Call.still := by
  simp [State.still, State.setCall]

omit [DecidableEq τ] [DecidableEq ρ] in
@[simp] theorem tried_still {k : ℕ} {c : Call} : c.still.Tried k ↔ c.Tried k := by
  cases c <;> rfl

/-- The end of a call that has asked for `k` undos. -/
structure EndSpec (info : Seminfo) (us : Undos ρ) (t : τ) (k : ℕ) (r : State τ ρ × Outcome) :
    Prop where
  tried : ¬r.2.Stops → ∀ c ∈ r.1.still t, c.Tried k
  exhausted : r.2 = .failed .ENOSPC → us.semutot = info.semmnu ∨ SEMUME < k

omit [DecidableEq ρ] in
theorem semopEnd_tried {k : ℕ} (hk : k ≤ SEMUME) (u : Target) (sops : List Sembuf) (wake : Bool)
    {r : Undone ρ} {us : Undos ρ}
    (hr : ∀ us', r = .failed .ENOSPC us' → us.semutot = info.semmnu) :
    EndSpec info us t k (semopEnd s t u sops wake r) := by
  cases r with
  | ok us' =>
    refine ⟨?_, by simp [semopEnd]⟩
    intro _ c hc
    simp only [semopEnd] at hc
    split_ifs at hc
    · simp at hc
    · simp at hc
  | failed e us' =>
    refine ⟨fun _ c hc => by simp [semopEnd] at hc, ?_⟩
    intro ho
    obtain rfl : e = .ENOSPC := Outcome.failed.inj ho
    exact .inl (hr us' rfl)
  | wait us' applied rest =>
    refine ⟨?_, by simp [semopEnd]⟩
    intro _ c hc
    obtain rfl : Call.still _ = c := by simpa [semopEnd] using hc
    exact hk
  | panic => exact ⟨fun hstop => absurd trivial hstop, by simp [semopEnd]⟩
  | crash => exact ⟨fun hstop => absurd trivial hstop, by simp [semopEnd]⟩

theorem semopPass_tried (pr : ρ) (mem : Bool) (u : Target) (sops : List Sembuf) (d : ℕ)
    {nsems : ℕ} {sems : ℕ → Sem} (hnsems : (s.items u.semaptr).sem_nsems = nsems)
    (hsems : s.sems u.semaptr = sems) {r : State τ ρ × Outcome}
    (hr : semopPass info pr mem s t u sops d = r) :
    EndSpec info s.undos t (d + undoCount (carriedOut nsems sems sops)) r ∧
      (SysvSem.LeavesSet nsems sems sops → r.2 ≠ .failed .ENOSPC) ∧
      (SEMUME < d + undoCount (carriedOut nsems sems sops) →
        ¬SysvSem.LeavesSet nsems sems sops → r.2 = .failed .ENOSPC) := by
  subst hr hnsems hsems
  have hcount := tryOps_do_undos (s.items u.semaptr).sem_nsems [] (s.sems u.semaptr) d false sops
  unfold semopPass
  generalize tryOps (s.items u.semaptr).sem_nsems [] (s.sems u.semaptr) d false sops = r at hcount
  split_ifs at hcount with hleaves
  · cases r with
    | efbig sems =>
      refine ⟨⟨fun _ c hc => by simp at hc, by simp⟩, fun _ => by simp, fun _ h => absurd hleaves h⟩
    | through _ _ _ => cases hcount
    | blocked _ _ _ _ => cases hcount
  · cases r with
    | efbig sems => cases hcount
    | through sems d' wake =>
      obtain rfl := Option.some.inj hcount
      dsimp only
      refine ⟨?_, fun h => absurd h hleaves, ?_⟩
      · split_ifs with hle hzero
        · exact semopEnd_tried hle u sops wake (by simp)
        · exact semopEnd_tried hle u sops wake fun us' h => (applyUndos_enospc (.inl rfl) h).2
        · exact ⟨fun _ c hc => by simp at hc, fun _ => .inr (Nat.not_le.mp hle)⟩
      · intro hlt _
        rw [if_neg (Nat.not_le.mpr hlt)]
    | blocked sems done sop d' =>
      obtain rfl := Option.some.inj hcount
      dsimp only
      refine ⟨?_, fun h => absurd h hleaves, ?_⟩
      · split_ifs with hlt hnowait
        · exact ⟨fun _ c hc => by simp at hc, fun _ => .inr hlt⟩
        · exact ⟨fun _ c hc => by simp at hc, by simp⟩
        · refine ⟨?_, by simp⟩
          intro _ c hc
          obtain rfl : Call.still _ = c := by simpa using hc
          exact ⟨rfl, Nat.not_lt.mp hlt⟩
      · intro hlt _
        rw [if_pos hlt]

/-- A step of a call of `semop` whose turns have asked for `k` undos. -/
structure TurnAccounted (info : Seminfo) (k : ℕ) (ev : Event τ ρ) : Prop where
  spec : EndSpec info ev.pre.undos ev.thread k (ev.post, ev.out)
  leaves : ev.LeavesSet → ev.out ≠ .failed .ENOSPC
  fails : SEMUME < k → ¬ev.LeavesSet → ev.out = .failed .ENOSPC

omit [DecidableEq τ] [DecidableEq ρ] in
theorem turnAccounted_of_turn_none {k : ℕ} (hk : k ≤ SEMUME) {ev : Event τ ρ}
    (hturn : ev.turn = none)
    (htried : ¬ev.out.Stops → ∀ c ∈ ev.post.still ev.thread, c.Tried k)
    (hout : ev.out = .failed .ENOSPC → ev.pre.undos.semutot = info.semmnu) :
    TurnAccounted info k ev where
  spec := ⟨htried, fun ho => .inl (hout ho)⟩
  leaves := by
    rintro ⟨r, hr, -⟩
    rw [hturn] at hr
    cases hr
  fails hlt := absurd hk (Nat.not_le.mpr hlt)

theorem turnAccounted_of_turn {k : ℕ} {ev : Event τ ρ} {u : Target} {sops : List Sembuf}
    (hturn : ev.turn = some (u, sops)) (s : State τ ρ) (hundos : s.undos = ev.pre.undos)
    (hitems : s.items = ev.pre.items)
    (hval : ∀ n, (s.sems u.semaptr n).semval = (ev.pre.sems u.semaptr n).semval) (pr : ρ)
    (mem : Bool) (hex : semopPass info pr mem s ev.thread u sops k = (ev.post, ev.out)) :
    TurnAccounted info (k + undoCount ev.did) ev := by
  obtain ⟨hdone, hleaves⟩ := @turn_congr (ev.pre.items u.semaptr).sem_nsems _ _ sops hval
  obtain ⟨hspec, hout, hfails⟩ := semopPass_tried pr mem u sops k
    (by rw [hitems]) rfl hex
  rw [hdone, hundos] at hspec
  have hdid : ev.did =
      carriedOut (ev.pre.items u.semaptr).sem_nsems (ev.pre.sems u.semaptr) sops := by
    rw [Event.did, hturn]
  have hiff : ev.LeavesSet ↔
      SysvSem.LeavesSet (ev.pre.items u.semaptr).sem_nsems (ev.pre.sems u.semaptr) sops := by
    simp [Event.LeavesSet, hturn]
  refine ⟨hdid ▸ hspec, fun h => hout (hleaves.mpr (hiff.mp h)), fun hlt h => ?_⟩
  rw [hdid] at hlt
  exact hfails (hdone ▸ hlt) (fun hl => h (hiff.mpr (hleaves.mp hl)))

omit [DecidableEq τ] [DecidableEq ρ] in
theorem still_of_calls {c : Call} (h : s.calls t = some c) : c.still ∈ s.still t := by
  simp [State.still, h]

omit [DecidableEq ρ] in
theorem semopCheck_cases (info : Seminfo) (s : State τ ρ) (t : τ) (semid : BitVec 32) (nsops : ℕ)
    (ipcperm : Option Errno) :
    ((semopCheck info s t semid nsops ipcperm).1 = s ∧
      ∀ e, (semopCheck info s t semid nsops ipcperm).2 = .failed e →
        e = .EINVAL ∨ e = .E2BIG ∨ ipcperm = some e) ∨
    ∃ u, semopCheck info s t semid nsops ipcperm =
      (s.setCall t (some (.copyin u nsops)), .pending) := by
  unfold semopCheck
  split
  · exact .inl ⟨rfl, fun e he => .inl (Outcome.failed.inj he).symm⟩
  · split
    · refine .inl ⟨rfl, fun e he => .inr (.inr ?_)⟩
      rw [Outcome.failed.inj he]
    · split_ifs
      · exact .inl ⟨rfl, fun e he => by cases he⟩
      · exact .inl ⟨rfl, fun e he => .inr (.inl (Outcome.failed.inj he).symm)⟩
      · exact .inr ⟨_, rfl⟩

theorem semop_step_tried {k : ℕ} (hinv : ∀ c ∈ s.still t, c.Tried k) {a : Act} (hop : a.OfSemop)
    (husual : a.Usual) (hex : exec info p_p s t a = some (s', o)) :
    TurnAccounted info (tried t k ⟨s, t, a, o, s'⟩) ⟨s, t, a, o, s'⟩ := by
  have hk : ∀ c, s.calls t = some c → c.Tried k :=
    fun c hc => tried_still.mp (hinv _ (still_of_calls hc))
  cases a with
  | semop semid nsops ipcperm =>
    cases hcall : s.calls t with
    | some c => cases c <;> simp [exec, hcall] at hex
    | none =>
      have hnone : s.still t = none := by simp [State.still, hcall]
      simp only [exec, hcall, Option.some.injEq] at hex
      have hzero : tried t k ⟨s, t, .semop semid nsops ipcperm, o, s'⟩ = 0 := by simp [tried]
      have hturn : Event.turn ⟨s, t, .semop semid nsops ipcperm, o, s'⟩ = none := by
        simp [Event.turn, hcall]
      rw [hzero]
      obtain ⟨hsame, hfail⟩ | ⟨u, hcopy⟩ := semopCheck_cases info s t semid nsops ipcperm
      · obtain rfl : s = s' := by rw [← hsame, hex]
        refine turnAccounted_of_turn_none (Nat.zero_le _) hturn
          (fun _ c hc => by simp [hnone] at hc) ?_
        intro ho
        obtain he | he | rfl := hfail .ENOSPC (by rw [hex]; exact ho)
        · cases he
        · cases he
        · cases husual
      · obtain ⟨rfl, rfl⟩ := Prod.mk.inj (hcopy.symm.trans hex)
        refine turnAccounted_of_turn_none (Nat.zero_le _) hturn ?_ (by simp)
        intro _ c hc
        obtain rfl : Call.still _ = c := by simpa using hc
        rfl
  | sops r mem =>
    cases hcall : s.calls t with
    | none => simp [exec, hcall] at hex
    | some c =>
      cases c with
      | copyin u nsops =>
        obtain rfl : k = 0 := hk _ hcall
        cases r with
        | error e =>
          simp only [exec, hcall, Option.some.injEq] at hex
          obtain ⟨rfl, rfl⟩ := Prod.mk.inj hex
          obtain rfl : e = .EFAULT := husual
          have hturn : Event.turn ⟨s, t, .sops (.error .EFAULT) mem, .failed .EFAULT,
              s.setCall t none⟩ = none := by simp [Event.turn, hcall]
          simp only [tried, Event.did, hturn]
          exact turnAccounted_of_turn_none (Nat.zero_le _) hturn
            (fun _ c hc => by simp at hc) (by simp)
        | ok sops =>
          simp only [exec, hcall, Option.some.injEq] at hex
          have hturn : Event.turn ⟨s, t, .sops (.ok sops) mem, o, s'⟩ = some (u, sops) := by
            simp [Event.turn, hcall]
          simp only [tried, if_true]
          exact turnAccounted_of_turn hturn s rfl rfl (fun _ => rfl) (p_p t) mem hex
      | _ => cases r <;> simp [exec, hcall] at hex
  | wake intr mem =>
    cases hcall : s.calls t with
    | none => simp [exec, hcall] at hex
    | some c =>
      cases c with
      | asleep u sops d base num zero woken =>
        obtain ⟨rfl, hle⟩ := hk _ hcall
        simp only [exec, hcall, Option.some.injEq, semopWake] at hex
        simp only [tried, if_true]
        split_ifs at hex with hgone hintr
        · obtain ⟨rfl, rfl⟩ := Prod.mk.inj hex
          have hturn : Event.turn ⟨s, t, .wake intr mem, .failed .EIDRM, s.setCall t none⟩ =
              none := by
            cases intr <;> simp [Event.turn, hcall, hgone]
          simp only [Event.did, hturn]
          exact turnAccounted_of_turn_none hle hturn (fun _ c hc => by simp at hc) (by simp)
        · obtain ⟨rfl, rfl⟩ := Prod.mk.inj hex
          subst hintr
          have hturn : Event.turn ⟨s, t, .wake true mem, .failed .EINTR,
              (s.modifySem base num (Sem.count zero (-1#16))).setCall t none⟩ = none := by
            simp [Event.turn, hcall]
          simp only [Event.did, hturn]
          exact turnAccounted_of_turn_none hle hturn (fun _ c hc => by simp at hc) (by simp)
        · obtain rfl : intr = false := by simpa using hintr
          have hturn : Event.turn ⟨s, t, .wake false mem, o, s'⟩ = some (u, sops) := by
            simp [Event.turn, hcall, hgone]
          exact turnAccounted_of_turn hturn (s.modifySem base num (Sem.count zero (-1#16))) rfl rfl
            (fun n => modifySem_semval s base num zero (-1#16) (s.items u.semaptr).sem_base n)
            (p_p t) mem hex
      | _ => simp [exec, hcall] at hex
  | semu =>
    cases hcall : s.calls t with
    | none => simp [exec, hcall] at hex
    | some c =>
      cases c with
      | semuWait u sops applied rest wake =>
        have hle : k ≤ SEMUME := hk _ hcall
        simp only [exec, hcall, Option.some.injEq] at hex
        have hturn : Event.turn ⟨s, t, .semu, o, s'⟩ = none := by simp [Event.turn, hcall]
        simp only [tried, Event.did, hturn, if_true]
        have hhas : (semuAllocWaited (p_p t) s.undos).Has (p_p t) := by
          unfold semuAllocWaited
          split_ifs with hhas
          · exact hhas
          · exact ⟨⟨p_p t, []⟩, by simp, rfl⟩
        have hspec : EndSpec info s.undos t k (s', o) := by
          rw [← hex]
          exact semopEnd_tried hle u sops wake fun us' h =>
            absurd (applyUndos_enospc (.inr (.inl ⟨rfl, hhas⟩)) h).1 (by simp)
        refine turnAccounted_of_turn_none hle hturn hspec.tried fun ho => ?_
        exact (hspec.exhausted ho).resolve_right (Nat.not_lt.mpr hle)
      | _ => simp [exec, hcall] at hex
  | _ => exact hop.elim

theorem still_of_other {a : Act} (hop : ¬a.OfSemop) (hex : exec info p_p s t a = some (s', o)) :
    s'.still t = s.still t ∨
      ∃ c : Option Call, s'.still t = c.map Call.still ∧ ∀ c' ∈ c, c'.stage = .other := by
  unfold exec at hex
  split at hex
  case h_14 => cases hex
  case h_4 | h_5 | h_6 | h_7 | h_8 => exact absurd trivial hop
  all_goals
    have hs := congrArg Prod.fst (Option.some.inj hex)
    dsimp only at hs
    subst hs
  case h_1 g ipcperm hcall =>
    rw [semgetStart]
    split_ifs
    · split
      · exact .inl rfl
      · exact .inr ⟨some (.poolGet g), still_setCall _, by simp [Call.stage]⟩
    · obtain heq | ⟨a, n, hitem, -, -⟩ := semgetFind_cases s g none ipcperm
      · exact .inl (by rw [heq])
      · cases hitem
  case h_2 g a hcall => exact .inr ⟨some (.malloc g a), still_setCall _, by simp [Call.stage]⟩
  case h_3 g a b ipcperm hcall =>
    refine .inr ⟨none, ?_, by simp⟩
    obtain heq | ⟨a, n, -, -, hcreate⟩ :=
      semgetFind_cases ((s.newBase a b).setCall t none) g (some a) ipcperm
    · rw [heq, still_setCall]
    · rw [hcreate]
      exact still_setCall none
  case h_9 semid semnum val ipcperm hcall =>
    left
    rw [semctlSetval]
    split
    · rfl
    · split
      · rfl
      · split_ifs
        · rfl
        · rfl
        · rw [still_wakeup]
          rfl
  case h_10 semid ipcperm hcall =>
    rw [semctlSetall]
    split
    · exact .inl rfl
    · split
      · exact .inl rfl
      · exact .inr ⟨some _, still_setCall _, by simp [Call.stage]⟩
  case h_11 u nsems vals hcall =>
    unfold setallVals
    split
    · exact .inr ⟨none, still_setCall none, by simp⟩
    · split_ifs
      · exact .inr ⟨none, still_setCall none, by simp⟩
      · exact .inl rfl
      · refine .inr ⟨none, ?_, by simp⟩
        rw [still_wakeup]
        exact still_setCall none
  case h_12 semid junk ipcperm hcall =>
    left
    rw [semctlRmid]
    split
    · rfl
    · split
      · rfl
      · rw [still_wakeup, still_remove]
  case h_13 =>
    left
    unfold semexit
    split_ifs
    · have hstill := still_exitEntries s (s.undos.entries (p_p t)) t
      split
      · rename_i hr
        rw [hr] at hstill
        exact hstill
      · exact hstill
    · rfl

omit [DecidableEq τ] [DecidableEq ρ] in
theorem turn_of_other {ev : Event τ ρ} (hop : ¬ev.act.OfSemop) : ev.turn = none := by
  unfold Event.turn
  split
  · rename_i hact
    rw [hact] at hop
    exact absurd trivial hop
  · rename_i hact
    rw [hact] at hop
    exact absurd trivial hop
  · rfl

theorem step_tried {k : ℕ} (hinv : ∀ c ∈ s.still t, c.Tried k) {t' : τ} {a : Act} (husual : a.Usual)
    (hex : exec info p_p s t' a = some (s', o)) (hstop : ¬o.Stops) :
    ∀ c ∈ s'.still t, c.Tried (tried t k ⟨s, t', a, o, s'⟩) := by
  by_cases ht : t' = t
  · subst ht
    by_cases hop : a.OfSemop
    · exact (semop_step_tried hinv hop husual hex).spec.tried hstop
    · have hk : tried t' k ⟨s, t', a, o, s'⟩ = k := by
        have hturn : Event.turn ⟨s, t', a, o, s'⟩ = none := turn_of_other hop
        rw [tried, if_pos rfl, Event.did, hturn]
        split
        · rename_i hact
          cases hact
          exact absurd trivial hop
        · rfl
      rw [hk]
      obtain hsame | ⟨c₀, hself, hother⟩ := still_of_other hop hex
      · rwa [hsame]
      · intro c hc
        rw [hself] at hc
        obtain ⟨c₁, hc₁, rfl⟩ := Option.mem_map.mp hc
        have hstage := hother c₁ hc₁
        cases c₁ <;> trivial
  · rw [still_exec (fun h => ht h.symm) hex]
    simpa [tried, ht] using hinv

theorem run_accounted {tr : List (Event τ ρ)} {ev : Event τ ρ}
    (h : Runs info p_p (fun _ _ a => a.Usual) s (tr ++ [ev]) s') {k : ℕ}
    (hinv : ∀ c ∈ s.still ev.thread, c.Tried k) (hop : ev.act.OfSemop) :
    TurnAccounted info ((tr ++ [ev]).foldl (tried ev.thread) k) ev := by
  induction tr generalizing s k with
  | nil =>
    cases h with
    | step _ husual hex _ _ => exact semop_step_tried hinv hop husual hex
  | cons ev₀ tr ih =>
    cases h with
    | step _ husual hex hstop hrest =>
      exact ih hrest (step_tried hinv husual hex (hstop (by simp)))

/-- Too many undos are asked for, or all undo structures have been handed out. -/
def Event.Excused (info : Seminfo) (ev : Event τ ρ) : Prop :=
  SEMUME < undoCount ev.vector ∨ ev.pre.undos.semutot = info.semmnu

/-- `semop` fails with `ENOSPC` only for one of the two reasons if and only if the turns of the
call have not asked for more than `SEMUME` undos in all, or there is such a reason, or the
last turn stops at a semaphore number out of range. -/
theorem semop_enospc {tr : List (Event τ ρ)} {ev : Event τ ρ}
    (h : Runs info p_p (fun _ _ a => a.Usual) (seminit τ ρ) (tr ++ [ev]) s)
    (hop : ev.act.OfSemop) :
    (ev.out = .failed .ENOSPC → ev.Excused info) ↔
      (tr ++ [ev]).foldl (tried ev.thread) 0 ≤ SEMUME ∨ ev.Excused info ∨ ev.LeavesSet := by
  have hacc := run_accounted h (k := 0) (by simp [State.still, seminit]) hop
  constructor
  · intro hout
    by_cases hle : (tr ++ [ev]).foldl (tried ev.thread) 0 ≤ SEMUME
    · exact .inl hle
    · by_cases hleaves : ev.LeavesSet
      · exact .inr (.inr hleaves)
      · exact .inr (.inl (hout (hacc.fails (Nat.not_le.mp hle) hleaves)))
  · rintro (hle | hexc | hleaves) ho
    · exact .inr ((hacc.spec.exhausted ho).resolve_right (Nat.not_lt.mpr hle))
    · exact hexc
    · exact absurd ho (hacc.leaves hleaves)

end Calls

/-- Two operations with an undo, of which the second one has to wait. -/
def waitActs : List (Fin 3 × Act) :=
  haveI := neZero_procs
  [(1, .semop 65536#32 2 none),
    (1, .sops (.ok [⟨0#16, 1#16, false, true⟩, ⟨1#16, -1#16, false, true⟩]) true)]

/-- `SETVAL` wakes the call up, which finds that it has to wait again. -/
def vainActs : List (Fin 3 × Act) :=
  haveI := neZero_procs
  [(2, .setval 65536#32 0 0 none), (1, .wake false true)]

theorem semop_enospc_woken :
    ∃ tr ev s, Runs defaultInfo id (fun _ _ a => a.Usual) (seminit (Fin 3) (Fin 3)) (tr ++ [ev]) s ∧
      ev.act.OfSemop ∧ ((ev.out = .failed .ENOSPC → ev.Excused defaultInfo) ↔
        (tr ++ [ev]).foldl (tried ev.thread) 0 ≤ SEMUME ∨ ev.Excused defaultInfo ∨
          ev.LeavesSet) := by
  have hsome : (replay (fun _ _ a => a.Usual) defaultInfo id (seminit (Fin 3) (Fin 3))
      (createActs ++ waitActs ++ vainActs)).isSome := by decide +kernel
  obtain ⟨r, hr⟩ := Option.isSome_iff_exists.mp hsome
  have hlast : ∀ r ∈ replay (fun _ _ a => a.Usual) defaultInfo id (seminit (Fin 3) (Fin 3))
      (createActs ++ waitActs ++ vainActs), ∃ ev ∈ r.1.getLast?, ev.act.OfSemop := by
    decide +kernel
  obtain ⟨ev, hev, hop⟩ := hlast r hr
  have hruns := runs_of_replay (fun _ _ a => a.Usual) hr
  rw [← List.dropLast_append_getLast? ev hev] at hruns
  exact ⟨r.1.dropLast, ev, r.2, hruns, hop, semop_enospc hruns hop⟩

/-- In its eleventh turn the call has asked for eleven undos, though its operations have two
and no undo structure has been handed out. -/
theorem enospc_after_ten_sleeps :
    ∃ tr ev s, Runs defaultInfo id (fun _ _ a => a.Usual) (seminit (Fin 3) (Fin 3)) (tr ++ [ev]) s ∧
      ev.act.OfSemop ∧ ev.out = .failed .ENOSPC ∧ undoCount ev.vector = 2 ∧
      ev.pre.undos.semutot = 0 := by
  have hsome : (replay (fun _ _ a => a.Usual) defaultInfo id (seminit (Fin 3) (Fin 3))
      (createActs ++ waitActs ++ (List.replicate 10 vainActs).flatten)).isSome := by decide +kernel
  obtain ⟨r, hr⟩ := Option.isSome_iff_exists.mp hsome
  have hlast : ∀ r ∈ replay (fun _ _ a => a.Usual) defaultInfo id (seminit (Fin 3) (Fin 3))
      (createActs ++ waitActs ++ (List.replicate 10 vainActs).flatten),
      ∃ ev ∈ r.1.getLast?, ev.act.OfSemop ∧ ev.out = .failed .ENOSPC ∧
        undoCount ev.vector = 2 ∧ ev.pre.undos.semutot = 0 := by decide +kernel
  obtain ⟨ev, hev, hall⟩ := hlast r hr
  have hruns := runs_of_replay (fun _ _ a => a.Usual) hr
  rw [← List.dropLast_append_getLast? ev hev] at hruns
  exact ⟨r.1.dropLast, ev, r.2, hruns, hall⟩

end OpenbsdKernel.SysvSem
