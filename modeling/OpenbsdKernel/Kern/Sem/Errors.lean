import OpenbsdKernel.Kern.Sem.Safety

/-!
# Failing calls of `semop`

A call that ends in an error leaves the semaphore values, the undo values and the counts of
waiting processes as if it had not been made, provided that it does not stop at a semaphore
number out of range after operations that have an effect: that exit has no rollback.
-/
namespace OpenbsdKernel.SysvSem

variable {τ ρ : Type*} [DecidableEq τ] [DecidableEq ρ]

/-- When the operations reach a semaphore number out of range, those before cancel out. -/
def Cancels (nsems : ℕ) (sems : ℕ → Sem) (sops : List Sembuf) : Prop :=
  ∀ k < sops.length, ∀ sop ∈ sops[k]?, nsems ≤ sop.sem_num.toNat →
    Doable nsems sems (sops.take k) → ∀ x ∈ sops.take k, opTotal (sops.take k) x.sem_num.toNat = 0

instance decidableDoable (nsems : ℕ) :
    (sems : ℕ → Sem) → (sops : List Sembuf) → Decidable (Doable nsems sems sops)
  | _, [] => isTrue trivial
  | sems, sop :: rest =>
    have := decidableDoable nsems (modify sems sop.sem_num.toNat (Sem.add sop.sem_op)) rest
    inferInstanceAs (Decidable (_ ∧ _ ∧ _))

instance (nsems : ℕ) (sems : ℕ → Sem) : DecidablePred (Cancels nsems sems) := fun sops =>
  inferInstanceAs (Decidable (∀ k < sops.length, ∀ sop ∈ sops[k]?, nsems ≤ sop.sem_num.toNat →
    Doable nsems sems (sops.take k) → ∀ x ∈ sops.take k, opTotal (sops.take k) x.sem_num.toNat = 0))

/-- The call, about to do its operations `sops` or to go on after a wait for memory, will not
leave a part of them done. -/
def Call.Whole (s : State τ ρ) (pr : ρ) (sops : List Sembuf) : Call → Prop
  | .copyin u _ => Cancels (s.items u.semaptr).sem_nsems (s.sems u.semaptr) sops
  | .asleep u sops _ _ _ _ _ => Cancels (s.items u.semaptr).sem_nsems (s.sems u.semaptr) sops
  | .semuWait _ _ _ rest _ => (s.undos.entries pr).length + undoCount rest ≤ SEMUME
  | _ => True

instance (s : State τ ρ) (pr : ρ) (sops : List Sembuf) : DecidablePred (Call.Whole s pr sops)
  | .copyin _ _ => inferInstanceAs (Decidable (Cancels _ _ sops))
  | .asleep _ sops _ _ _ _ _ => inferInstanceAs (Decidable (Cancels _ _ sops))
  | .semuWait _ _ _ _ _ => inferInstanceAs (Decidable (_ ≤ _))
  | .poolGet _ | .malloc .. | .setall .. => isTrue trivial

/-- The operations a step brings in. -/
def Act.ops : Act → List Sembuf
  | .sops (.ok l) _ => l
  | _ => []

/-- The condition for failing calls to have no effect. -/
def Atomic (info : Seminfo) (p_p : τ → ρ) (s : State τ ρ) (t : τ) (a : Act) : Prop :=
  Sound info s t a ∧ ∀ c ∈ s.calls t, c.Whole s (p_p t) a.ops

instance [Fintype τ] (info : Seminfo) (p_p : τ → ρ) (s : State τ ρ) (t : τ) (a : Act) :
    Decidable (Atomic info p_p s t a) :=
  inferInstanceAs (Decidable (_ ∧ _))

def Quiet (s s' : State τ ρ) : Prop :=
  (∀ b n, (s'.bases b n).semval = (s.bases b n).semval) ∧
    ∀ q i n, s'.undos.value q i n = s.undos.value q i n

/-- `semzcnt` or `semncnt`. -/
def Sem.counter (zero : Bool) (x : Sem) : BitVec 16 := if zero then x.semzcnt else x.semncnt

/-- How far a call of `semop` has got. -/
inductive Stage where
  | before
  | asleep (base num : ℕ) (zero : Bool)
  | waiting
  | other

def Call.stage : Call → Stage
  | .copyin _ _ => .before
  | .asleep _ _ _ base num zero _ => .asleep base num zero
  | .semuWait _ _ _ _ _ => .waiting
  | _ => .other

example (u : Target) (n : ℕ) : (Call.copyin u n : Call).stage = .before := by simp [Call.stage]

/-- What the stage of a call accounts for in a count of waiting processes. -/
def Stage.share (base num : ℕ) (zero : Bool) : Option Stage → BitVec 16
  | some (.asleep b n z) => if b = base ∧ n = num ∧ z = zero then 1 else 0
  | _ => 0

@[simp] theorem share_none (base num : ℕ) (zero : Bool) : Stage.share base num zero none = 0 := rfl

/-- The stage of the call of thread `t`. -/
def State.stage (s : State τ ρ) (t : τ) : Option Stage := (s.calls t).map Call.stage

/-- The step has no effect but to count thread `t` as waiting where it is asleep now. -/
structure Counted (s s' : State τ ρ) (t : τ) : Prop where
  quiet : Quiet s s'
  counts : ∀ b n z, (s'.bases b n).counter z =
    (s.bases b n).counter z + Stage.share b n z (s'.stage t)

/-- A step of thread `t` that has no effect but on the counts, for itself. -/
structure Neutral (s s' : State τ ρ) (t : τ) : Prop where
  quiet : Quiet s s'
  counts : ∀ b n z, (s'.bases b n).counter z + Stage.share b n z (s.stage t) =
    (s.bases b n).counter z + Stage.share b n z (s'.stage t)

section Steps

variable {info : Seminfo} {p_p : τ → ρ} {s : State τ ρ} {t : τ}

omit [DecidableEq ρ] in
@[simp] theorem stage_setCall (c : Option Call) : (s.setCall t c).stage t = c.map Call.stage := by
  simp [State.stage, State.setCall]

omit [DecidableEq τ] in
theorem Quiet.refl (s : State τ ρ) : Quiet s s := ⟨fun _ _ => rfl, fun _ _ _ => rfl⟩

theorem counted_idle (s : State τ ρ) (t : τ) : Counted s (s.setCall t none) t where
  quiet := Quiet.refl s
  counts b n z := by
    rw [stage_setCall, Option.map_none, share_none, add_zero]
    rfl

theorem Doable.congr {nsems : ℕ} {sems sems' : ℕ → Sem} {sops : List Sembuf}
    (heq : ∀ n, (sems' n).semval = (sems n).semval) (h : Doable nsems sems' sops) :
    Doable nsems sems sops := by
  induction sops generalizing sems sems' with
  | nil => trivial
  | cons sop rest ih =>
    obtain ⟨hlt, hfree, hrest⟩ := h
    refine ⟨hlt, ?_, ih ?_ hrest⟩
    · simpa only [Sembuf.Blocked, heq] using hfree
    · intro n
      by_cases hn : n = sop.sem_num.toNat
      · simp [modify, hn, Sem.add, heq]
      · simp [modify, hn, heq]

theorem Cancels.applyOps {nsems : ℕ} {sems sems' : ℕ → Sem} {pre post : List Sembuf} {sop : Sembuf}
    (h : Cancels nsems sems (pre ++ sop :: post)) (hout : nsems ≤ sop.sem_num.toNat)
    (heq : ∀ n, (sems' n).semval = (sems n).semval) (hdo : Doable nsems sems' pre) :
    SysvSem.applyOps pre sems' = sems' := by
  have htake : (pre ++ sop :: post).take pre.length = pre := List.take_left
  have hcancel := h pre.length (by simp) sop (by simp) hout
  rw [htake] at hcancel
  funext n
  have hzero : opTotal pre n = 0 := by
    by_cases hn : ∃ x ∈ pre, x.sem_num.toNat = n
    · obtain ⟨x, hx, rfl⟩ := hn
      exact hcancel (hdo.congr heq) x hx
    · push Not at hn
      have hnil : pre.filter (fun x => x.sem_num.toNat = n) = [] := by
        rw [List.filter_eq_nil_iff]
        intro x hx
        simpa using hn x hx
      simp [opTotal, hnil]
  rw [applyOps_apply, hzero]
  simp [Sem.add]

theorem semopPass_counted (hgood : s.undos.Good) {pr : ρ} {mem : Bool} {u : Target}
    {sops : List Sembuf} (hshort : Short sops) {sems : ℕ → Sem}
    (hcancel : Cancels (s.items u.semaptr).sem_nsems sems sops)
    (heq : ∀ n, (s.sems u.semaptr n).semval = (sems n).semval) (do_undos : ℕ) {s' : State τ ρ}
    {o : Outcome} (h : semopPass info pr mem s t u sops do_undos = (s', o)) :
    (∀ e, o = .failed e → Counted s s' t ∧ s'.stage t = none) ∧
    (o = .pending → s'.stage t = some .waiting ∨
      (Counted s s' t ∧ ∃ b n z, s'.stage t = some (.asleep b n z))) := by
  have hspec := semopPass_spec info pr mem s t u sops do_undos
  rw [h] at hspec
  generalize hr : (s', o) = r at hspec
  cases hspec with
  | efbig pre post sop hsplit hout hdo =>
    obtain ⟨rfl, rfl⟩ := Prod.mk.inj hr
    subst hsplit
    rw [hcancel.applyOps hout heq hdo, setSems_sems]
    exact ⟨fun _ _ => ⟨counted_idle s t, stage_setCall none⟩, by simp⟩
  | failed e =>
    obtain ⟨rfl, rfl⟩ := Prod.mk.inj hr
    exact ⟨fun _ _ => ⟨counted_idle s t, stage_setCall none⟩, by simp⟩
  | asleep num d zero =>
    obtain ⟨rfl, rfl⟩ := Prod.mk.inj hr
    refine ⟨by simp, fun _ => .inr ⟨⟨⟨?_, fun _ _ _ => rfl⟩, ?_⟩, _, _, _, stage_setCall _⟩⟩
    · intro b n
      simp only [State.setCall, State.setSems, State.sems]
      by_cases hb : b = (s.items u.semaptr).sem_base
      · subst hb
        by_cases hn : n = num
        · cases zero <;> simp [modify, hn, Sem.count]
        · simp [modify, hn]
      · simp [hb]
    · intro b n z
      rw [stage_setCall]
      simp only [State.setCall, State.setSems, State.sems, Option.map_some, Call.stage, Stage.share]
      by_cases hb : b = (s.items u.semaptr).sem_base
      · subst hb
        by_cases hn : n = num
        · subst hn
          cases zero <;> cases z <;> simp [modify, Sem.count, Sem.counter]
        · simp [modify, hn, Ne.symm hn]
      · simp [hb, Ne.symm hb]
  | through wake hdo hcount =>
    have hload : Loaded s.undos s.undos pr .null sops := ⟨hgood, .inl ⟨rfl, .inl rfl⟩⟩
    cases hu : applyUndos info pr mem u.ix [] sops s.undos .null with
    | ok us' =>
      rw [hu] at hr
      simp only [semopEnd] at hr
      obtain ⟨-, rfl⟩ := Prod.mk.inj hr
      simp
    | failed e us' =>
      rw [hu] at hr
      have hkeeps := applyUndos_keeps info pr mem u.ix [] sops (.inl hload)
        (by simpa using hshort) (by rw [hu]; rfl)
      have hvalue := applyUndos_failed_value info pr mem u.ix [] sops s.undos
        (.inl ⟨hload, hcount, trivial, fun i n => by rw [undoTotal_nil, sub_zero]⟩)
        (by simpa using hshort) hu
      have hstate : s' = { s with undos := us' }.setCall t none := by
        have hs := congrArg Prod.fst hr
        simpa [semopEnd, State.setSems, State.sems, rollback_applyOps] using hs
      obtain rfl := hstate
      refine ⟨fun _ _ => ⟨⟨⟨fun _ _ => rfl, ?_⟩, ?_⟩, stage_setCall none⟩, ?_⟩
      · intro q i n
        by_cases hq : q = pr
        · subst hq
          exact hvalue i n
        · exact congrFun (congrFun (hkeeps.others q hq) i) n
      · intro b n z
        rw [stage_setCall, Option.map_none, share_none, add_zero]
        rfl
      · have ho := congrArg Prod.snd hr
        intro hpend
        rw [hpend] at ho
        simp [semopEnd] at ho
    | wait us' applied rest =>
      rw [hu] at hr
      simp only [semopEnd] at hr
      obtain ⟨rfl, rfl⟩ := Prod.mk.inj hr
      exact ⟨by simp, fun _ => .inl (stage_setCall _)⟩
    | panic =>
      rw [hu] at hr
      obtain ⟨-, rfl⟩ := Prod.mk.inj hr
      simp
    | crash =>
      rw [hu] at hr
      obtain ⟨-, rfl⟩ := Prod.mk.inj hr
      simp

/-- A step fails otherwise than with `EIDRM`, or gives up the processor in `tsleep`, without
any effect but on the counts; the exception is the wait for memory. -/
def StepNeutral (s s' : State τ ρ) (t : τ) (o : Outcome) : Prop :=
  (∀ e, o = .failed e → e ≠ .EIDRM → Neutral s s' t ∧ s'.stage t = none) ∧
  (o = .pending → s'.stage t = some .waiting ∨
    (Neutral s s' t ∧ ∃ b n z, s'.stage t = some (.asleep b n z)))

theorem before_step {a : Act} (hinv : Inv info s) (hat : Atomic info p_p s t a) {s' : State τ ρ}
    {o : Outcome} (hex : exec info p_p s t a = some (s', o)) {u : Target} {n : ℕ}
    (hcall : s.calls t = some (.copyin u n)) : StepNeutral s s' t o := by
  have hshare : ∀ b n z, Stage.share b n z (s.stage t) = 0 := by
    intro b n z
    simp [State.stage, hcall, Call.stage, Stage.share]
  have hneutral : ∀ s', Counted s s' t → Neutral s s' t := fun s' h =>
    ⟨h.quiet, fun b n z => by rw [hshare, add_zero, h.counts]⟩
  cases a with
  | sops r mem =>
    cases r with
    | error e =>
      simp only [exec, hcall, Option.some.injEq, Prod.mk.injEq] at hex
      obtain ⟨rfl, rfl⟩ := hex
      exact ⟨fun _ _ _ => ⟨hneutral _ (counted_idle s t), stage_setCall none⟩, by simp⟩
    | ok sops =>
      simp only [exec, hcall, Option.some.injEq] at hex
      obtain ⟨hfail, hpend⟩ :=
        semopPass_counted hinv.undos hat.1 (hat.2 _ hcall) (fun _ => rfl) 0 hex
      exact ⟨fun e he _ => ⟨hneutral s' (hfail e he).1, (hfail e he).2⟩,
        fun ho => (hpend ho).imp_right fun h => ⟨hneutral s' h.1, h.2⟩⟩
  | _ => simp [exec, hcall] at hex

omit [DecidableEq τ] [DecidableEq ρ] in
theorem modifySem_semval (s : State τ ρ) (base num : ℕ) (zero : Bool) (d : BitVec 16) (b n : ℕ) :
    ((s.modifySem base num (Sem.count zero d)).bases b n).semval = (s.bases b n).semval := by
  by_cases hb : b = base
  · subst hb
    by_cases hn : n = num
    · cases zero <;> simp [State.modifySem, modify, hn, Sem.count]
    · simp [State.modifySem, modify, hn]
  · simp [State.modifySem, hb]

omit [DecidableEq τ] [DecidableEq ρ] in
theorem modifySem_counter (s : State τ ρ) (base num : ℕ) (zero : Bool) (b n : ℕ) (z : Bool) :
    ((s.modifySem base num (Sem.count zero (-1#16))).bases b n).counter z +
      Stage.share b n z (some (.asleep base num zero)) = (s.bases b n).counter z := by
  rw [Stage.share]
  by_cases hb : b = base
  · subst hb
    by_cases hn : n = num
    · subst hn
      cases zero <;> cases z <;> simp [State.modifySem, modify, Sem.count, Sem.counter, add_assoc]
    · simp [State.modifySem, modify, hn, Ne.symm hn]
  · simp [State.modifySem, hb, Ne.symm hb]

theorem asleep_step {a : Act} (hinv : Inv info s) (hat : Atomic info p_p s t a) {s' : State τ ρ}
    {o : Outcome} (hex : exec info p_p s t a = some (s', o)) {u : Target} {sops : List Sembuf}
    {d base num : ℕ} {zero woken : Bool}
    (hcall : s.calls t = some (.asleep u sops d base num zero woken)) : StepNeutral s s' t o := by
  have hstart : s.stage t = some (.asleep base num zero) := by simp [State.stage, hcall, Call.stage]
  cases a with
  | wake intr mem =>
    simp only [exec, hcall, Option.some.injEq, semopWake] at hex
    by_cases hgone : s.sema u.ix = none ∨ (s.items u.semaptr).seq ≠ u.seq
    · rw [if_pos hgone] at hex
      obtain ⟨-, rfl⟩ := Prod.mk.inj hex
      refine ⟨?_, by simp⟩
      rintro e he hne
      exact absurd (Outcome.failed.inj he).symm hne
    · rw [if_neg hgone] at hex
      have hneutral : ∀ s', Counted (s.modifySem base num (Sem.count zero (-1#16))) s' t →
          Neutral s s' t := by
        intro s' h
        refine ⟨⟨?_, h.quiet.2⟩, ?_⟩
        · intro b n
          rw [h.quiet.1, modifySem_semval]
        · intro b n z
          have e₁ := h.counts b n z
          have e₂ := modifySem_counter s base num zero b n z
          rw [hstart]
          linear_combination e₁ + e₂
      split_ifs at hex
      · obtain ⟨rfl, rfl⟩ := Prod.mk.inj hex
        exact ⟨fun _ _ _ => ⟨hneutral _ (counted_idle _ t), stage_setCall none⟩, by simp⟩
      · obtain ⟨hfail, hpend⟩ := semopPass_counted
          (s := s.modifySem base num (Sem.count zero (-1#16))) hinv.undos (hinv.calls t _ hcall).2
          (hat.2 _ hcall) (fun n => modifySem_semval s base num zero (-1#16) _ n) d hex
        exact ⟨fun e he _ => ⟨hneutral s' (hfail e he).1, (hfail e he).2⟩,
          fun ho => (hpend ho).imp_right fun h => ⟨hneutral s' h.1, h.2⟩⟩
  | _ => simp [exec, hcall] at hex

/-- A call that has waited for memory and finds room in the structure does not fail. -/
theorem waiting_step {a : Act} (hinv : Inv info s) (hat : Atomic info p_p s t a) {s' : State τ ρ}
    {o : Outcome} (hex : exec info p_p s t a = some (s', o)) {u : Target}
    {sops applied rest : List Sembuf} {wake : Bool}
    (hcall : s.calls t = some (.semuWait u sops applied rest wake)) :
    (∀ e, o ≠ .failed e) ∧ (o = .pending → s'.stage t = some .waiting) := by
  cases a with
  | semu =>
    simp only [exec, hcall, Option.some.injEq] at hex
    obtain ⟨-, -, hwait⟩ := hinv.calls t _ hcall
    have hroom : (s.undos.entries (p_p t)).length + undoCount rest ≤ SEMUME := hat.2 _ hcall
    obtain ⟨us₀, hlist, hload⟩ := Loaded.waited hinv.undos (p_p t) hwait.rest
    have hentries : us₀.entries (p_p t) = s.undos.entries (p_p t) := by
      rw [Undos.entries, Undos.entries, hlist]
    have hhas : (semuAllocWaited (p_p t) s.undos).Has (p_p t) := by
      unfold semuAllocWaited
      split_ifs with hhas
      · exact hhas
      · exact s.undos.has_alloc (p_p t) _
    cases hu : applyUndos info (p_p t) true u.ix applied rest
        (semuAllocWaited (p_p t) s.undos) .live with
    | ok us' =>
      rw [hu] at hex
      obtain ⟨-, rfl⟩ := Prod.mk.inj hex
      simp
    | failed e us' =>
      refine absurd hu (applyUndos_room info (p_p t) true u.ix applied rest us₀
        (.inl ⟨hload, hhas, ?_⟩) fun x hx => hwait.short x ((hwait.mem x).mpr (by simp [hx])))
      rw [hentries]
      exact hroom
    | wait us' applied' rest' =>
      rw [hu] at hex
      obtain ⟨rfl, rfl⟩ := Prod.mk.inj hex
      exact ⟨by simp, fun _ => stage_setCall _⟩
    | panic =>
      rw [hu] at hex
      obtain ⟨-, rfl⟩ := Prod.mk.inj hex
      simp
    | crash =>
      rw [hu] at hex
      obtain ⟨-, rfl⟩ := Prod.mk.inj hex
      simp
  | _ => simp [exec, hcall] at hex

/-- A call without the marks that other threads leave in it. -/
def Call.still : Call → Call
  | .copyin u nsops => .copyin { u with gone := false } nsops
  | .asleep u sops do_undos base num zero _ =>
    .asleep { u with gone := false } sops do_undos base num zero false
  | .semuWait u sops applied rest do_wakeup =>
    .semuWait { u with gone := false } sops applied rest do_wakeup
  | .setall u nsems => .setall { u with gone := false } nsems
  | c => c

def State.still (s : State τ ρ) (t : τ) : Option Call := (s.calls t).map Call.still

theorem still_wake (c : Call) (ix : ℕ) : (c.wake ix).still = c.still := by cases c <;> rfl

theorem still_lose (c : Call) (ix : ℕ) : (c.lose ix).still = c.still := by cases c <;> rfl

omit [DecidableEq τ] [DecidableEq ρ] in
@[simp] theorem still_wakeup (s : State τ ρ) (ix : ℕ) (t : τ) : (s.wakeup ix).still t = s.still t := by
  simp only [State.still, State.wakeup, Option.map_map]
  congr 1
  funext c
  exact still_wake c ix

omit [DecidableEq τ] [DecidableEq ρ] in
@[simp] theorem still_remove (s : State τ ρ) (u : Target) (junk : Semid × (ℕ → Sem)) (t : τ) :
    (s.remove u junk).still t = s.still t := by
  simp only [State.still, State.remove, Option.map_map]
  congr 1
  funext c
  exact still_lose c u.ix

omit [DecidableEq ρ] in
theorem still_setCall_of_ne (s : State τ ρ) {t t' : τ} (h : t ≠ t') (c : Option Call) :
    (s.setCall t' c).still t = s.still t := by
  simp [State.still, State.setCall, h]

omit [DecidableEq τ] [DecidableEq ρ] in
theorem still_exitEntries (s : State τ ρ) (ent : List Undo) (t : τ) :
    (exitEntries s ent).1.still t = s.still t := by
  induction ent generalizing s with
  | nil => rfl
  | cons e ent ih =>
    rw [exitEntries]
    split
    · rfl
    · dsimp only
      split_ifs
      · rfl
      · rfl
      · rw [ih, still_wakeup]
        rfl

omit [DecidableEq ρ] in
theorem still_semopEnd (s : State τ ρ) {t t' : τ} (h : t ≠ t') (u : Target) (sops : List Sembuf)
    (wake : Bool) (r : Undone ρ) : (semopEnd s t' u sops wake r).1.still t = s.still t := by
  cases r with
  | ok us =>
    simp only [semopEnd]
    split_ifs
    · rw [still_wakeup, still_setCall_of_ne _ h]
      rfl
    · rw [still_setCall_of_ne _ h]
      rfl
  | failed e us =>
    simp only [semopEnd]
    rw [still_setCall_of_ne _ h]
    rfl
  | wait us applied rest =>
    simp only [semopEnd]
    rw [still_setCall_of_ne _ h]
    rfl
  | panic => rfl
  | crash => rfl

theorem still_semopPass (s : State τ ρ) {t t' : τ} (h : t ≠ t') (pr : ρ) (mem : Bool) (u : Target)
    (sops : List Sembuf) (d : ℕ) :
    (semopPass info pr mem s t' u sops d).1.still t = s.still t := by
  have hspec := semopPass_spec info pr mem s t' u sops d
  generalize semopPass info pr mem s t' u sops d = r at hspec
  cases hspec with
  | efbig => exact still_setCall_of_ne _ h none
  | failed => exact still_setCall_of_ne _ h none
  | asleep => exact still_setCall_of_ne _ h _
  | through => exact still_semopEnd _ h u sops _ _

theorem still_exec {t' : τ} (h : t ≠ t') {a : Act} {s' : State τ ρ} {o : Outcome}
    (hex : exec info p_p s t' a = some (s', o)) : s'.still t = s.still t := by
  unfold exec at hex
  split at hex
  case h_14 => cases hex
  all_goals
    have hs := congrArg Prod.fst (Option.some.inj hex)
    dsimp only at hs
    rw [← hs]
  case h_1 g ipcperm hcall =>
    rw [semgetStart]
    split_ifs
    · split
      · rfl
      · exact still_setCall_of_ne s h _
    · obtain hsame | ⟨a, k, hnone, -, -⟩ := semgetFind_cases s g none ipcperm
      · rw [hsame]
      · cases hnone
  case h_2 => exact still_setCall_of_ne s h _
  case h_3 g a b ipcperm hcall =>
    obtain hsame | ⟨a', k, -, -, hcreate⟩ :=
      semgetFind_cases ((s.newBase a b).setCall t' none) g (some a) ipcperm
    · rw [hsame, still_setCall_of_ne _ h]
      rfl
    · rw [hcreate]
      exact still_setCall_of_ne (s.newBase a b) h none
  case h_4 semid nsops ipcperm hcall =>
    rw [semopCheck]
    split
    · rfl
    · split
      · rfl
      · split_ifs
        · rfl
        · rfl
        · exact still_setCall_of_ne s h _
  case h_5 => exact still_setCall_of_ne s h none
  case h_6 => exact still_semopPass s h _ _ _ _ _
  case h_7 u sops d base num zero woken intr mem hcall =>
    rw [semopWake]
    split_ifs
    · exact still_setCall_of_ne s h none
    · exact still_setCall_of_ne (s.modifySem base num (Sem.count zero (-1#16))) h none
    · exact still_semopPass (s.modifySem base num (Sem.count zero (-1#16))) h _ _ _ _ _
  case h_8 => exact still_semopEnd s h _ _ _ _
  case h_9 semid semnum val ipcperm hcall =>
    rw [semctlSetval]
    split
    · rfl
    · split
      · rfl
      · split_ifs
        · rfl
        · rfl
        · rw [still_wakeup]
          rfl
  case h_10 semid ipcperm hcall =>
    rw [semctlSetall]
    split
    · rfl
    · split
      · rfl
      · exact still_setCall_of_ne s h _
  case h_11 u nsems vals hcall =>
    unfold setallVals
    split
    · exact still_setCall_of_ne s h none
    · split_ifs
      · exact still_setCall_of_ne s h none
      · rfl
      · rw [still_wakeup]
        exact still_setCall_of_ne (s.setSems _ _) h none
  case h_12 semid junk ipcperm hcall =>
    rw [semctlRmid]
    split
    · rfl
    · split
      · rfl
      · rw [still_wakeup, still_remove]
  case h_13 =>
    unfold semexit
    split_ifs
    · have hstill := still_exitEntries s (s.undos.entries (p_p t')) t
      split
      · rename_i hr
        rw [hr] at hstill
        exact hstill
      · exact hstill
    · rfl

omit [DecidableEq τ] [DecidableEq ρ] in
theorem stage_eq_still (s : State τ ρ) (t : τ) : s.stage t = (s.still t).map Call.stage := by
  have hstage : ∀ c : Call, c.stage = c.still.stage := by
    intro c
    cases c <;> rfl
  simp only [State.stage, State.still, Option.map_map]
  congr 1
  funext c
  exact hstage c

theorem stage_exec {t' : τ} (h : t ≠ t') {a : Act} {s' : State τ ρ} {o : Outcome}
    (hex : exec info p_p s t' a = some (s', o)) : s'.stage t = s.stage t := by
  rw [stage_eq_still, stage_eq_still, still_exec h hex]

end Steps

/-- The steps of thread `t`. -/
def own (t : τ) (tr : List (Event τ ρ)) : List (Event τ ρ) := tr.filter fun ev => ev.thread = t

/-- What the steps of thread `t` change a count of waiting processes by, in all. -/
def net (t : τ) (tr : List (Event τ ρ)) (b n : ℕ) (z : Bool) : BitVec 16 :=
  ((own t tr).map fun ev => (ev.post.bases b n).counter z - (ev.pre.bases b n).counter z).sum

def Act.isSemop : Act → Bool
  | .semop .. => true
  | _ => false

/-- The steps of thread `t` are those of one call of `semop`, which fails with `e`. -/
structure FailedCall (t : τ) (e : Errno) (tr : List (Event τ ρ)) : Prop where
  start : ∃ ev ∈ (own t tr).head?, ev.act.isSemop = true
  pending : ∀ ev ∈ (own t tr).dropLast, ev.out = .pending
  last : ∃ ev ∈ (own t tr).getLast?, ev.out = .failed e

section Calls

variable {info : Seminfo} {p_p : τ → ρ} {s s' : State τ ρ} {t : τ} {e : Errno}

omit [DecidableEq ρ] in
theorem own_cons_of_ne {ev : Event τ ρ} (h : ev.thread ≠ t) (tr : List (Event τ ρ)) :
    own t (ev :: tr) = own t tr := by
  simp [own, h]

omit [DecidableEq ρ] in
theorem own_cons_of_eq {ev : Event τ ρ} (h : ev.thread = t) (tr : List (Event τ ρ)) :
    own t (ev :: tr) = ev :: own t tr := by
  simp [own, h]

theorem rest_of_call {tr : List (Event τ ρ)} (h : Runs info p_p (Atomic info p_p) s tr s')
    (hinv : Inv info s) {st : Stage} (hstage : s.stage t = some st) (hst : st ≠ .other)
    (hpend : ∀ ev ∈ (own t tr).dropLast, ev.out = .pending)
    (hlast : ∃ ev ∈ (own t tr).getLast?, ev.out = .failed e) (he : e ≠ .EIDRM) :
    st ≠ .waiting ∧ (∀ ev ∈ tr, ev.thread = t → Quiet ev.pre ev.post) ∧
      ∀ b n z, net t tr b n z + Stage.share b n z (s.stage t) = 0 := by
  induction h generalizing st with
  | nil s => simp [own] at hlast
  | @step s s₁ s₂ t₁ a o tr hal hat hex _ hrest ih =>
    have hinv₁ := hinv.step hal hat.1 hex
    by_cases ht : t₁ = t
    · subst ht
      have hown : own t₁ (⟨s, t₁, a, o, s₁⟩ :: tr) = ⟨s, t₁, a, o, s₁⟩ :: own t₁ tr :=
        own_cons_of_eq rfl tr
      rw [hown] at hpend hlast
      have hquiet : Neutral s s₁ t₁ → (∀ ev ∈ tr, ev.thread = t₁ → Quiet ev.pre ev.post) →
          ∀ ev ∈ Event.mk s t₁ a o s₁ :: tr, ev.thread = t₁ → Quiet ev.pre ev.post := by
        intro hn hrest ev hev hthread
        obtain rfl | hev := List.mem_cons.mp hev
        · exact hn.quiet
        · exact hrest ev hev hthread
      have hneutral : Neutral s s₁ t₁ →
          (∀ b n z, net t₁ tr b n z + Stage.share b n z (s₁.stage t₁) = 0) →
          ∀ b n z, net t₁ (⟨s, t₁, a, o, s₁⟩ :: tr) b n z + Stage.share b n z (s.stage t₁) = 0 := by
        intro hn hnet b n z
        have e₁ := hn.counts b n z
        have e₂ := hnet b n z
        rw [net, hown, List.map_cons, List.sum_cons, ← net]
        linear_combination e₁ + e₂
      -- a call in the wait for memory can only go on waiting or succeed
      have hcases : (StepNeutral s s₁ t₁ o ∧ st ≠ .waiting) ∨
          ((∀ e, o ≠ .failed e) ∧ (o = .pending → s₁.stage t₁ = some .waiting)) := by
        cases hcall : s.calls t₁ with
        | none => simp [State.stage, hcall] at hstage
        | some c =>
          obtain rfl : c.stage = st := by simpa [State.stage, hcall] using hstage
          cases c with
          | copyin u n => exact .inl ⟨before_step hinv hat hex hcall, by simp [Call.stage]⟩
          | asleep u sops d base num zero woken =>
            exact .inl ⟨asleep_step hinv hat hex hcall, by simp [Call.stage]⟩
          | semuWait u sops applied rest wake => exact .inr (waiting_step hinv hat hex hcall)
          | _ => exact absurd rfl hst
      by_cases hnil : own t₁ tr = []
      · obtain rfl : o = .failed e := by simpa [hnil] using hlast
        have hnone : ∀ ev ∈ tr, ev.thread ≠ t₁ := by
          intro ev hev hthread
          have hmem : ev ∈ own t₁ tr := List.mem_filter.mpr ⟨hev, by simpa using hthread⟩
          rw [hnil] at hmem
          cases hmem
        obtain ⟨hstep, hw⟩ | ⟨hfail, -⟩ := hcases
        · obtain ⟨hn, hidle⟩ := hstep.1 e rfl he
          refine ⟨hw, hquiet hn fun ev hev hthread => absurd hthread (hnone ev hev), hneutral hn ?_⟩
          intro b n z
          simp [net, hnil, hidle]
        · exact absurd rfl (hfail e)
      · rw [List.dropLast_cons_of_ne_nil hnil] at hpend
        rw [List.getLast?_cons_of_ne_nil hnil] at hlast
        have ho : o = .pending := hpend _ List.mem_cons_self
        have hpend' := fun ev hev => hpend ev (List.mem_cons_of_mem _ hev)
        obtain ⟨hstep, hw⟩ | ⟨-, hwait⟩ := hcases
        · obtain hwait | ⟨hn, b, n, z, hasleep⟩ := hstep.2 ho
          · exact absurd rfl (ih hinv₁ hwait (by simp) hpend' hlast).1
          · obtain ⟨-, hrestq, hnet⟩ := ih hinv₁ hasleep (by simp) hpend' hlast
            exact ⟨hw, hquiet hn hrestq, hneutral hn hnet⟩
        · exact absurd rfl (ih hinv₁ (hwait ho) (by simp) hpend' hlast).1
    · have hne : t ≠ t₁ := fun h => ht h.symm
      rw [own_cons_of_ne ht] at hpend hlast
      have hstage₁ : s₁.stage t = some st := by rw [stage_exec hne hex, hstage]
      obtain ⟨hw, hquiet, hnet⟩ := ih hinv₁ hstage₁ hst hpend hlast
      refine ⟨hw, ?_, ?_⟩
      · intro ev hev hthread
        obtain rfl | hev := List.mem_cons.mp hev
        · exact absurd hthread ht
        · exact hquiet ev hev hthread
      · intro b n z
        rw [net, own_cons_of_ne ht, ← net, hstage, ← hstage₁]
        exact hnet b n z

theorem start_step {a : Act} (ha : a.isSemop = true) {o : Outcome}
    (hex : exec info p_p s t a = some (s', o)) (ho : o = .pending ∨ ∃ e, o = .failed e) :
    Quiet s s' ∧ (∀ b n, s'.bases b n = s.bases b n) ∧ (o = .pending → s'.stage t = some .before) := by
  cases a with
  | semop semid nsops ipcperm =>
    cases hcall : s.calls t with
    | some c => cases c <;> simp [exec, hcall] at hex
    | none =>
      simp only [exec, hcall, Option.some.injEq, semopCheck] at hex
      have hsame : s' = s ∨ ∃ u, s' = s.setCall t (some (.copyin u nsops)) ∧ o = .pending := by
        split at hex
        · exact .inl (Prod.mk.inj hex).1.symm
        · split at hex
          · exact .inl (Prod.mk.inj hex).1.symm
          · split_ifs at hex
            · exact .inl (Prod.mk.inj hex).1.symm
            · exact .inl (Prod.mk.inj hex).1.symm
            · exact .inr ⟨_, (Prod.mk.inj hex).1.symm, (Prod.mk.inj hex).2.symm⟩
      obtain rfl | ⟨u, rfl, -⟩ := hsame
      · refine ⟨Quiet.refl s', fun _ _ => rfl, ?_⟩
        rintro rfl
        split at hex
        · cases hex
        · split at hex
          · cases hex
          · split_ifs at hex
            · cases hex
            · cases hex
            · rw [← (Prod.mk.inj hex).1, stage_setCall]
              rfl
      · exact ⟨Quiet.refl s, fun _ _ => rfl, fun _ => stage_setCall _⟩
  | _ => cases ha

theorem failed_call {tr : List (Event τ ρ)} (h : Runs info p_p (Atomic info p_p) s tr s')
    (hinv : Inv info s) (hcall : FailedCall t e tr) (he : e ≠ .EIDRM) :
    (∀ ev ∈ tr, ev.thread = t → Quiet ev.pre ev.post) ∧ ∀ b n z, net t tr b n z = 0 := by
  induction h with
  | nil s =>
    obtain ⟨ev, hev, -⟩ := hcall.start
    simp [own] at hev
  | @step s s₁ s₂ t₁ a o tr hal hat hex _ hrest ih =>
    have hinv₁ := hinv.step hal hat.1 hex
    by_cases ht : t₁ = t
    · subst ht
      have hown : own t₁ (⟨s, t₁, a, o, s₁⟩ :: tr) = ⟨s, t₁, a, o, s₁⟩ :: own t₁ tr :=
        own_cons_of_eq rfl tr
      obtain ⟨hstart, hpend, hlast⟩ := hcall
      rw [hown] at hstart hpend hlast
      have ha : a.isSemop = true := by simpa using hstart
      have hnet : (∀ b n, s₁.bases b n = s.bases b n) → (∀ b n z, net t₁ tr b n z = 0) →
          ∀ b n z, net t₁ (⟨s, t₁, a, o, s₁⟩ :: tr) b n z = 0 := by
        intro hsame hzero b n z
        rw [net, hown, List.map_cons, List.sum_cons, ← net, hzero, hsame, sub_self, add_zero]
      by_cases hnil : own t₁ tr = []
      · have ho : o = .failed e := by simpa [hnil] using hlast
        obtain ⟨hq, hsame, -⟩ := start_step ha hex (.inr ⟨e, ho⟩)
        refine ⟨?_, hnet hsame fun b n z => by simp [net, hnil]⟩
        intro ev hev hthread
        obtain rfl | hev := List.mem_cons.mp hev
        · exact hq
        · have hmem : ev ∈ own t₁ tr := List.mem_filter.mpr ⟨hev, by simpa using hthread⟩
          rw [hnil] at hmem
          cases hmem
      · rw [List.dropLast_cons_of_ne_nil hnil] at hpend
        rw [List.getLast?_cons_of_ne_nil hnil] at hlast
        have ho : o = .pending := hpend _ List.mem_cons_self
        obtain ⟨hq, hsame, hstage⟩ := start_step ha hex (.inl ho)
        obtain ⟨-, hquiet, hzero⟩ := rest_of_call hrest hinv₁ (hstage ho) (by simp)
          (fun ev hev => hpend ev (List.mem_cons_of_mem _ hev)) hlast he
        refine ⟨?_, hnet hsame ?_⟩
        · intro ev hev hthread
          obtain rfl | hev := List.mem_cons.mp hev
          · exact hq
          · exact hquiet ev hev hthread
        · intro b n z
          simpa [hstage ho, Stage.share] using hzero b n z
    · have hown : own t (⟨s, t₁, a, o, s₁⟩ :: tr) = own t tr := own_cons_of_ne ht tr
      obtain ⟨hstart, hpend, hlast⟩ := hcall
      rw [hown] at hstart hpend hlast
      obtain ⟨hquiet, hzero⟩ := ih hinv₁ ⟨hstart, hpend, hlast⟩
      refine ⟨?_, ?_⟩
      · intro ev hev hthread
        obtain rfl | hev := List.mem_cons.mp hev
        · exact absurd hthread ht
        · exact hquiet ev hev hthread
      · intro b n z
        rw [net, hown, ← net]
        exact hzero b n z

/-- In runs that meet the condition, a call of `semop` that fails otherwise than with `EIDRM`
changes no semaphore value and no undo value in any of its steps, and in all of them
together no count of waiting processes. -/
theorem semop_error_restores {tr₀ tr : List (Event τ ρ)}
    (h : Runs info p_p (Atomic info p_p) (seminit τ ρ) (tr₀ ++ tr) s)
    (hcall : FailedCall t e tr) (he : e ≠ .EIDRM) :
    (∀ ev ∈ tr, ev.thread = t →
      (∀ b n, (ev.post.bases b n).semval = (ev.pre.bases b n).semval) ∧
      ∀ pr ix num, ev.post.undos.value pr ix num = ev.pre.undos.value pr ix num) ∧
    ∀ b n z, net t tr b n z = 0 := by
  obtain ⟨s₁, h₁, h₂⟩ := h.split
  obtain ⟨hinv, -⟩ := h₁.invariant
    (fun _ _ _ _ _ hi hal hat hex => Inv.step hi hal hat.1 hex) (inv_seminit info)
  exact failed_call h₂ hinv hcall he

end Calls

def createActs : List (Fin 3 × Act) :=
  haveI := neZero_procs
  [(0, .semget ⟨IPC_PRIVATE, 2, false, false⟩ none), (0, .item 0), (0, .base 0 none)]

/-- An increment that is taken back, since the decrement after it may not wait. -/
def nowaitActs : List (Fin 3 × Act) :=
  haveI := neZero_procs
  [(1, .semop 65536#32 2 none),
    (1, .sops (.ok [⟨0#16, 1#16, false, true⟩, ⟨1#16, -1#16, true, true⟩]) true)]

theorem semop_error_restores_nowait :
    ∃ tr₀ tr s, Runs defaultInfo id (Atomic defaultInfo id) (seminit (Fin 3) (Fin 3)) (tr₀ ++ tr) s ∧
      FailedCall 1 .EAGAIN tr ∧ ∀ b n z, net 1 tr b n z = 0 := by
  have hsome : (replay (Atomic defaultInfo id) defaultInfo id (seminit (Fin 3) (Fin 3))
      (createActs ++ nowaitActs)).isSome := by decide +kernel
  obtain ⟨r, hr⟩ := Option.isSome_iff_exists.mp hsome
  have hfailed : ∀ r ∈ replay (Atomic defaultInfo id) defaultInfo id (seminit (Fin 3) (Fin 3))
      (createActs ++ nowaitActs), (∃ ev ∈ (own 1 (r.1.drop 3)).head?, ev.act.isSemop = true) ∧
      (∀ ev ∈ (own 1 (r.1.drop 3)).dropLast, ev.out = .pending) ∧
      ∃ ev ∈ (own 1 (r.1.drop 3)).getLast?, ev.out = .failed .EAGAIN := by decide +kernel
  obtain ⟨hstart, hpend, hlast⟩ := hfailed r hr
  have hcall : FailedCall 1 .EAGAIN (r.1.drop 3) := ⟨hstart, hpend, hlast⟩
  have hruns := runs_of_replay (Atomic defaultInfo id) hr
  rw [← List.take_append_drop 3 r.1] at hruns
  exact ⟨r.1.take 3, r.1.drop 3, r.2, hruns, hcall,
    (semop_error_restores hruns hcall (by simp)).2⟩

/-- An increment before an operation on a semaphore that the set does not have. -/
def efbigActs : List (Fin 3 × Act) :=
  haveI := neZero_procs
  [(1, .semop 65536#32 2 none),
    (1, .sops (.ok [⟨0#16, 1#16, false, false⟩, ⟨5#16, 1#16, false, false⟩]) true)]

theorem efbig_keeps_increment :
    ∃ tr₀ tr s, Runs defaultInfo id (fun _ _ _ => True) (seminit (Fin 3) (Fin 3)) (tr₀ ++ tr) s ∧
      FailedCall 1 .EFBIG tr ∧
      ∃ ev ∈ tr, ev.thread = 1 ∧ (ev.pre.bases 0 0).semval = 0#16 ∧
        (ev.post.bases 0 0).semval = 1#16 := by
  have hsome : (replay (fun _ _ _ => True) defaultInfo id (seminit (Fin 3) (Fin 3))
      (createActs ++ efbigActs)).isSome := by decide +kernel
  obtain ⟨r, hr⟩ := Option.isSome_iff_exists.mp hsome
  have hfailed : ∀ r ∈ replay (fun _ _ _ => True) defaultInfo id (seminit (Fin 3) (Fin 3))
      (createActs ++ efbigActs), ((∃ ev ∈ (own 1 (r.1.drop 3)).head?, ev.act.isSemop = true) ∧
      (∀ ev ∈ (own 1 (r.1.drop 3)).dropLast, ev.out = .pending) ∧
      ∃ ev ∈ (own 1 (r.1.drop 3)).getLast?, ev.out = .failed .EFBIG) ∧
      ∃ ev ∈ r.1.drop 3, ev.thread = 1 ∧ (ev.pre.bases 0 0).semval = 0#16 ∧
        (ev.post.bases 0 0).semval = 1#16 := by decide +kernel
  obtain ⟨⟨hstart, hpend, hlast⟩, hbad⟩ := hfailed r hr
  have hruns := runs_of_replay (fun _ _ _ => True) hr
  rw [← List.take_append_drop 3 r.1] at hruns
  exact ⟨r.1.take 3, r.1.drop 3, r.2, hruns, ⟨hstart, hpend, hlast⟩, hbad⟩

end OpenbsdKernel.SysvSem
