import OpenbsdKernel.Kern.Sem.Semop
import OpenbsdKernel.Kern.Sem.Safety

/-!
# The range of semaphore values

`SETVAL` and `SETALL` compare with `semvmx`; positive operations, the adjustments of
`semexit` and the rollback after a wait for memory do not, and `SETVAL` lets negative values
pass. The condition `Fits` says for each step what these comparisons would have to find; in
runs that meet it the values stay between 0 and `semvmx`.
-/
namespace OpenbsdKernel.SysvSem

variable {τ ρ : Type*} [DecidableEq τ] [DecidableEq ρ]

/-- Every positive operation that the loop does finds room below `semvmx`. -/
def Room (semvmx nsems : ℕ) : (ℕ → Sem) → List Sembuf → Prop
  | _, [] => True
  | sems, sop :: rest =>
    sop.sem_num.toNat < nsems → ¬sop.Blocked (sems sop.sem_num.toNat) →
      (0 < sop.sem_op.toInt →
        ((sems sop.sem_num.toNat).semval.toNat : ℤ) + sop.sem_op.toInt ≤ semvmx) ∧
      Room semvmx nsems (modify sems sop.sem_num.toNat (Sem.add sop.sem_op)) rest

/-- Every operation can be taken back from the values as they are now. -/
def Back (semvmx : ℕ) : (ℕ → Sem) → List Sembuf → Prop
  | _, [] => True
  | sems, sop :: rest =>
    (0 ≤ ((sems sop.sem_num.toNat).semval.toNat : ℤ) - sop.sem_op.toInt ∧
      ((sems sop.sem_num.toNat).semval.toNat : ℤ) - sop.sem_op.toInt ≤ semvmx) ∧
      Back semvmx (modify sems sop.sem_num.toNat (Sem.sub sop.sem_op)) rest

/-- Every positive adjustment at an exit finds room below `semvmx`. -/
def ExitRoom (semvmx : ℕ) : State τ ρ → List Undo → Prop
  | _, [] => True
  | s, e :: rest =>
    (∀ a ∈ s.sema e.un_id, 0 ≤ e.un_num.toInt → e.un_num.toInt < (s.items a).sem_nsems →
      0 < e.un_adjval.toInt →
        ((s.sems a e.un_num.toInt.toNat).semval.toNat : ℤ) + e.un_adjval.toInt ≤ semvmx) ∧
      ExitRoom semvmx (exitEntries s [e]).1 rest

/-- The set and the operations that a step of a call of `semop` tries. -/
def attempt : Call → Act → Option (Target × List Sembuf)
  | .copyin u _, .sops (.ok sops) _ => some (u, sops)
  | .asleep u sops _ _ _ _ _, .wake false _ => some (u, sops)
  | _, _ => none

/-- An adjustment could not be made. -/
def Undone.Fails : Undone ρ → Prop
  | .failed _ _ => True
  | _ => False

instance : DecidablePred (Undone.Fails : Undone ρ → Prop)
  | .failed _ _ => isTrue trivial
  | .ok _ | .wait .. | .panic | .crash => isFalse id

/-- When the undo processing fails after a wait, what was done can be taken back. -/
def Call.Back (info : Seminfo) (s : State τ ρ) (pr : ρ) : Call → Prop
  | .semuWait u sops applied rest _ =>
    (applyUndos info pr true u.ix applied rest (semuAllocWaited pr s.undos) .live).Fails →
      SysvSem.Back info.semvmx (s.sems u.semaptr) sops
  | _ => True

/-- No removal, and nothing leaves the range for want of a check. -/
def Fits (info : Seminfo) (p_p : τ → ρ) (s : State τ ρ) (t : τ) : Act → Prop
  | .rmid _ _ _ => False
  | .setval semid semnum val none => ∀ u ∈ s.lookup info semid, 0 ≤ semnum →
      semnum < (s.items u.semaptr).sem_nsems → 0 ≤ val
  | .semu => ∀ c ∈ s.calls t, c.Back info s (p_p t)
  | .exit => ExitRoom info.semvmx s (s.undos.entries (p_p t))
  | a => ∀ c ∈ s.calls t, ∀ r ∈ attempt c a,
      Room info.semvmx (s.items r.1.semaptr).sem_nsems (s.sems r.1.semaptr) r.2

section Decide

instance decidableRoom (semvmx nsems : ℕ) :
    (sems : ℕ → Sem) → (sops : List Sembuf) → Decidable (Room semvmx nsems sems sops)
  | _, [] => isTrue trivial
  | sems, sop :: rest =>
    have := decidableRoom semvmx nsems (modify sems sop.sem_num.toNat (Sem.add sop.sem_op)) rest
    inferInstanceAs (Decidable (_ → _ → _ ∧ _))

instance decidableBack (semvmx : ℕ) :
    (sems : ℕ → Sem) → (sops : List Sembuf) → Decidable (Back semvmx sems sops)
  | _, [] => isTrue trivial
  | sems, sop :: rest =>
    have := decidableBack semvmx (modify sems sop.sem_num.toNat (Sem.sub sop.sem_op)) rest
    inferInstanceAs (Decidable ((_ ∧ _) ∧ _))

instance decidableExitRoom (semvmx : ℕ) :
    (s : State τ ρ) → (ent : List Undo) → Decidable (ExitRoom semvmx s ent)
  | _, [] => isTrue trivial
  | s, e :: rest =>
    have := decidableExitRoom semvmx (exitEntries s [e]).1 rest
    inferInstanceAs (Decidable ((∀ a ∈ s.sema e.un_id, _ → _ → _ → _) ∧ _))

instance (info : Seminfo) (s : State τ ρ) (pr : ρ) : DecidablePred (Call.Back info s pr)
  | .semuWait .. => inferInstanceAs (Decidable (Undone.Fails _ → SysvSem.Back _ _ _))
  | .poolGet _ | .malloc .. | .copyin .. | .asleep .. | .setall .. => isTrue trivial

instance (info : Seminfo) (p_p : τ → ρ) (s : State τ ρ) (t : τ) :
    DecidablePred (Fits info p_p s t)
  | .rmid _ _ _ => isFalse id
  | .setval semid semnum _ none => inferInstanceAs (Decidable (∀ u ∈ s.lookup info semid,
      0 ≤ semnum → semnum < (s.items u.semaptr).sem_nsems → _))
  | .semu => inferInstanceAs (Decidable (∀ c ∈ s.calls t, c.Back info s (p_p t)))
  | .exit => inferInstanceAs (Decidable (ExitRoom info.semvmx s (s.undos.entries (p_p t))))
  | .semget .. | .item _ | .base .. | .semop .. | .sops .. | .wake .. | .setval _ _ _ (some _) |
    .setall .. | .vals _ => inferInstanceAs (Decidable (∀ c ∈ s.calls t, ∀ r ∈ attempt c _,
      Room info.semvmx (s.items r.1.semaptr).sem_nsems (s.sems r.1.semaptr) r.2))

end Decide

/-- The values of a set are in range. -/
def InRange (semvmx : ℕ) (sems : ℕ → Sem) : Prop := ∀ num, (sems num).semval.toNat ≤ semvmx

theorem InRange.modify {semvmx num : ℕ} {sems : ℕ → Sem} {f : Sem → Sem} (h : InRange semvmx sems)
    (hf : (f (sems num)).semval.toNat ≤ semvmx) : InRange semvmx (modify sems num f) := by
  intro n
  by_cases hn : n = num
  · subst hn
    simpa [SysvSem.modify] using hf
  · simpa [SysvSem.modify, hn] using h n

theorem InRange.count {semvmx : ℕ} {sems : ℕ → Sem} (h : InRange semvmx sems) (num : ℕ) (zero : Bool)
    (d : BitVec 16) : InRange semvmx (SysvSem.modify sems num (Sem.count zero d)) := by
  refine h.modify ?_
  have hsame : ((sems num).count zero d).semval = (sems num).semval := by
    cases zero <;> rfl
  rw [hsame]
  exact h num

theorem toNat_add_of_nonneg {v op : BitVec 16} {m : ℕ} (hlo : 0 ≤ (v.toNat : ℤ) + op.toInt)
    (hhi : (v.toNat : ℤ) + op.toInt ≤ m) : (v + op).toNat ≤ m := by
  have hv := v.isLt
  have ho := op.isLt
  rw [BitVec.toInt_eq_toNat_cond] at hlo hhi
  rw [BitVec.toNat_add]
  split_ifs at hlo hhi <;> omega

theorem toNat_sub_of_nonneg {v op : BitVec 16} {m : ℕ} (hlo : 0 ≤ (v.toNat : ℤ) - op.toInt)
    (hhi : (v.toNat : ℤ) - op.toInt ≤ m) : (v - op).toNat ≤ m := by
  have hv := v.isLt
  have ho := op.isLt
  rw [BitVec.toInt_eq_toNat_cond] at hlo hhi
  rw [BitVec.toNat_sub]
  split_ifs at hlo hhi <;> omega

/-- An operation that is not blocked keeps the range if a positive one finds room. -/
theorem add_inRange {semvmx : ℕ} {sop : Sembuf} {x : Sem} (h : x.semval.toNat ≤ semvmx)
    (hblocked : ¬sop.Blocked x)
    (hroom : 0 < sop.sem_op.toInt → (x.semval.toNat : ℤ) + sop.sem_op.toInt ≤ semvmx) :
    (x.add sop.sem_op).semval.toNat ≤ semvmx := by
  have hneg : ¬(sop.sem_op.toInt < 0 ∧ (x.semval.toNat : ℤ) + sop.sem_op.toInt < 0) :=
    fun hb => hblocked (.inl hb)
  apply toNat_add_of_nonneg
  · by_contra hlt
    exact hneg ⟨by omega, by omega⟩
  · by_cases hpos : 0 < sop.sem_op.toInt
    · exact hroom hpos
    · omega

theorem room_congr {semvmx nsems : ℕ} {sops : List Sembuf} {sems sems' : ℕ → Sem}
    (heq : ∀ num, (sems' num).semval = (sems num).semval) :
    Room semvmx nsems sems' sops ↔ Room semvmx nsems sems sops := by
  induction sops generalizing sems sems' with
  | nil => rfl
  | cons sop rest ih =>
    have hmod : ∀ num, (modify sems' sop.sem_num.toNat (Sem.add sop.sem_op) num).semval =
        (modify sems sop.sem_num.toNat (Sem.add sop.sem_op) num).semval := by
      intro num
      by_cases hn : num = sop.sem_num.toNat <;> simp [modify, hn, Sem.add, heq]
    simp only [Room, Sembuf.Blocked, heq, ih hmod]

/-- After each operation that the loop does the values are in range. -/
theorem Room.inRange {semvmx nsems : ℕ} {sops : List Sembuf} {sems : ℕ → Sem}
    (h : Room semvmx nsems sems sops) (hsems : InRange semvmx sems) (k : ℕ)
    (hdo : Doable nsems sems (sops.take k)) : InRange semvmx (applyOps (sops.take k) sems) := by
  induction sops generalizing sems k with
  | nil => simpa [applyOps] using hsems
  | cons sop rest ih =>
    cases k with
    | zero => simpa [applyOps] using hsems
    | succ k =>
      obtain ⟨hrange, hblocked, hdo⟩ := hdo
      obtain ⟨hroom, hrest⟩ := h hrange hblocked
      exact ih hrest (hsems.modify (add_inRange (hsems _) hblocked hroom)) k hdo

theorem Back.inRange {semvmx : ℕ} {sops : List Sembuf} {sems : ℕ → Sem}
    (h : SysvSem.Back semvmx sems sops) (hsems : InRange semvmx sems) :
    InRange semvmx (rollback sops sems) := by
  induction sops generalizing sems with
  | nil => simpa [rollback] using hsems
  | cons sop rest ih =>
    obtain ⟨⟨hlo, hhi⟩, hrest⟩ := h
    exact ih hrest (hsems.modify (toNat_sub_of_nonneg hlo hhi))

/-- The address of the set that the call works on. -/
def Call.set : Call → Option ℕ
  | .copyin u _ | .asleep u _ _ _ _ _ _ | .semuWait u _ _ _ _ | .setall u _ => some u.semaptr
  | _ => none

/-- Calls work on existing sets, a preallocated set is held by one call and in no slot, and
the values of all sets are in range. -/
structure Values (info : Seminfo) (s : State τ ρ) : Prop where
  slots : ∀ ix a, s.sema ix = some a → ix < info.semmni
  there : ∀ t, ∀ c ∈ s.calls t, ∀ a ∈ c.set, ∃ ix, s.sema ix = some a
  apart : ∀ t, ∀ c ∈ s.calls t, ∀ a, c.Holds a → ∀ ix, s.sema ix ≠ some a
  held : ∀ t t' a, (∃ c ∈ s.calls t, c.Holds a) → (∃ c ∈ s.calls t', c.Holds a) → t = t'
  values : ∀ ix a, s.sema ix = some a → InRange info.semvmx (s.sems a)

section Invariant
variable {info : Seminfo} {s : State τ ρ}

omit [DecidableEq τ] [DecidableEq ρ] in
theorem values_seminit (info : Seminfo) : Values info (seminit τ ρ) := by
  constructor <;> simp [seminit]

omit [DecidableEq τ] [DecidableEq ρ] in
theorem Values.setUndos (h : Values info s) (us : Undos ρ) : Values info { s with undos := us } :=
  ⟨h.slots, h.there, h.apart, h.held, h.values⟩

omit [DecidableEq τ] [DecidableEq ρ] in
theorem Values.setSems (h : Values info s) (a : ℕ) {sems : ℕ → Sem}
    (hsems : InRange info.semvmx sems) : Values info (s.setSems a sems) where
  slots := h.slots
  there := h.there
  apart := h.apart
  held := h.held
  values ix b hb := by
    by_cases hbase : (s.items b).sem_base = (s.items a).sem_base
    · simpa [State.sems, State.setSems, hbase] using hsems
    · simpa [State.sems, State.setSems, hbase] using h.values ix b hb

omit [DecidableEq τ] [DecidableEq ρ] in
theorem Values.modifyCount (h : Values info s) (base num : ℕ) (zero : Bool) (d : BitVec 16) :
    Values info (s.modifySem base num (Sem.count zero d)) where
  slots := h.slots
  there := h.there
  apart := h.apart
  held := h.held
  values ix b hb := by
    have hold := h.values ix b hb
    by_cases hbase : (s.items b).sem_base = base
    · subst hbase
      simpa [State.sems, State.modifySem] using hold.count num zero d
    · simpa [State.sems, State.modifySem, hbase] using hold

theorem wake_set (c : Call) (ix : ℕ) : (c.wake ix).set = c.set := by
  cases c <;> rfl

omit [DecidableEq τ] [DecidableEq ρ] in
theorem Values.wakeup (h : Values info s) (ix : ℕ) : Values info (s.wakeup ix) where
  slots := h.slots
  there t c hc := by
    obtain ⟨c₀, hc₀, rfl⟩ := Option.mem_map.mp hc
    rw [wake_set]
    exact h.there t c₀ hc₀
  apart t c hc a hold := by
    obtain ⟨c₀, hc₀, rfl⟩ := Option.mem_map.mp hc
    exact h.apart t c₀ hc₀ a ((wake_holds ix a).mp hold)
  held t t' a := by
    rintro ⟨c, hc, hold⟩ ⟨c', hc', hold'⟩
    obtain ⟨c₀, hc₀, rfl⟩ := Option.mem_map.mp hc
    obtain ⟨c₀', hc₀', rfl⟩ := Option.mem_map.mp hc'
    exact h.held t t' a ⟨c₀, hc₀, (wake_holds ix a).mp hold⟩ ⟨c₀', hc₀', (wake_holds ix a).mp hold'⟩
  values := h.values

omit [DecidableEq ρ] in
theorem mem_setCall {t t' : τ} {call : Option Call} {c : Call} (h : c ∈ (s.setCall t call).calls t') :
    (t' = t ∧ c ∈ call) ∨ (t' ≠ t ∧ c ∈ s.calls t') := by
  by_cases ht : t' = t
  · subst ht
    simp only [State.setCall, Function.update_self] at h
    exact .inl ⟨rfl, h⟩
  · simp only [State.setCall, Function.update_of_ne ht] at h
    exact .inr ⟨ht, h⟩

omit [DecidableEq ρ] in
/-- A call goes to a new place; what it holds there no other call holds and no slot has. -/
theorem Values.setCall (h : Values info s) (t : τ) {call : Option Call}
    (hset : ∀ c ∈ call, ∀ a ∈ c.set, ∃ ix, s.sema ix = some a)
    (hheld : ∀ c ∈ call, ∀ a, c.Holds a →
      (∀ ix, s.sema ix ≠ some a) ∧ ∀ t', ∀ c' ∈ s.calls t', ¬c'.Holds a) :
    Values info (s.setCall t call) where
  slots := h.slots
  there t' c hc := by
    obtain ⟨-, hc⟩ | ⟨-, hc⟩ := mem_setCall hc
    · exact hset c hc
    · exact h.there t' c hc
  apart t' c hc a hold := by
    obtain ⟨-, hc⟩ | ⟨-, hc⟩ := mem_setCall hc
    · exact (hheld c hc a hold).1
    · exact h.apart t' c hc a hold
  held t₁ t₂ a := by
    rintro ⟨c, hc, hold⟩ ⟨c', hc', hold'⟩
    obtain ⟨h₁, hc⟩ | ⟨-, hc⟩ := mem_setCall hc <;> obtain ⟨h₂, hc'⟩ | ⟨-, hc'⟩ := mem_setCall hc'
    · rw [h₁, h₂]
    · exact absurd hold' ((hheld c hc a hold).2 t₂ c' hc')
    · exact absurd hold ((hheld c' hc' a hold').2 t₁ c hc)
    · exact h.held t₁ t₂ a ⟨c, hc, hold⟩ ⟨c', hc', hold'⟩
  values := h.values

omit [DecidableEq ρ] in
theorem Values.idle (h : Values info s) (t : τ) : Values info (s.setCall t none) :=
  h.setCall t (by simp) (by simp)

omit [DecidableEq ρ] in
theorem Values.enter (h : Values info s) (t : τ) {c : Call}
    (hset : ∀ a ∈ c.set, ∃ ix, s.sema ix = some a) (hfree : ∀ a, ¬c.Holds a) :
    Values info (s.setCall t (some c)) := by
  refine h.setCall t ?_ ?_
  · intro c' hc'
    obtain rfl := Option.mem_some_iff.mp hc'
    exact hset
  · intro c' hc' a hold
    obtain rfl := Option.mem_some_iff.mp hc'
    exact absurd hold (hfree a)

omit [DecidableEq ρ] in
theorem Values.semopEnd (h : Values info s) (t : τ) {u : Target}
    (hu : ∃ ix, s.sema ix = some u.semaptr) (sops : List Sembuf) (wake : Bool) {r : Undone ρ}
    (hback : r.Fails → InRange info.semvmx (rollback sops (s.sems u.semaptr))) :
    Values info (SysvSem.semopEnd s t u sops wake r).1 := by
  cases r with
  | ok us =>
    simp only [SysvSem.semopEnd]
    split_ifs
    · exact ((h.setUndos us).idle t).wakeup u.ix
    · exact (h.setUndos us).idle t
  | failed e us => exact ((h.setUndos us).setSems _ (hback trivial)).idle t
  | wait us applied rest =>
    refine (h.setUndos us).enter t ?_ fun a => id
    simpa [Call.set] using hu
  | panic => exact h
  | crash => exact h

theorem Values.semopPass (h : Values info s) (t : τ) {u : Target}
    (hu : ∃ ix, s.sema ix = some u.semaptr) {sops : List Sembuf}
    (hroom : Room info.semvmx (s.items u.semaptr).sem_nsems (s.sems u.semaptr) sops) (pr : ρ)
    (mem : Bool) (do_undos : ℕ) :
    Values info (SysvSem.semopPass info pr mem s t u sops do_undos).1 := by
  obtain ⟨ix, hix⟩ := hu
  have hsems := h.values ix _ hix
  have hspec := semopPass_spec info pr mem s t u sops do_undos
  generalize SysvSem.semopPass info pr mem s t u sops do_undos = r at hspec
  cases hspec with
  | efbig pre post sop hsplit hout hdo =>
    have hpre := hroom.inRange hsems pre.length (by rwa [hsplit, List.take_left])
    rw [hsplit, List.take_left] at hpre
    exact (h.setSems _ hpre).idle t
  | failed => exact h.idle t
  | asleep num =>
    refine (h.setSems u.semaptr (hsems.count num _ 1#16)).enter t ?_ fun a => id
    intro a ha
    obtain rfl : u.semaptr = a := by simpa [Call.set] using ha
    exact ⟨ix, hix⟩
  | through wake hdo =>
    have hall := hroom.inRange hsems sops.length (by rwa [List.take_length])
    rw [List.take_length] at hall
    refine (h.setSems u.semaptr hall).semopEnd t ⟨ix, hix⟩ sops wake fun _ => ?_
    rw [sems_setSems, rollback_applyOps]
    exact hsems

theorem Values.semopWake (h : Values info s) (t : τ) {u : Target}
    (hu : ∃ ix, s.sema ix = some u.semaptr) {sops : List Sembuf} {intr : Bool}
    (hroom : intr = false →
      Room info.semvmx (s.items u.semaptr).sem_nsems (s.sems u.semaptr) sops) (pr : ρ)
    (mem : Bool) (do_undos base num : ℕ) (zero : Bool) :
    Values info (SysvSem.semopWake info pr mem s t u sops do_undos base num zero intr).1 := by
  unfold SysvSem.semopWake
  by_cases hgone : s.sema u.ix = none ∨ (s.items u.semaptr).seq ≠ u.seq
  · rw [if_pos hgone]
    exact h.idle t
  · rw [if_neg hgone]
    have hcount := h.modifyCount base num zero (-1#16)
    dsimp only
    by_cases hintr : intr = true
    · rw [if_pos hintr]
      exact hcount.idle t
    · rw [if_neg hintr]
      refine hcount.semopPass t hu ?_ pr mem do_undos
      refine (room_congr fun n => ?_).mpr (hroom (by simpa using hintr))
      by_cases hbase : (s.items u.semaptr).sem_base = base
      · subst hbase
        by_cases hn : n = num
        · subst hn
          cases zero <;> simp [State.sems, State.modifySem, modify, Sem.count]
        · simp [State.sems, State.modifySem, modify, hn]
      · simp [State.sems, State.modifySem, hbase]

omit [DecidableEq τ] [DecidableEq ρ] in
theorem Values.semctlSetval (h : Values info s) {semid : BitVec 32} {semnum val : ℤ}
    {ipcperm : Option Errno}
    (hval : ipcperm = none → ∀ u ∈ s.lookup info semid, 0 ≤ semnum →
      semnum < (s.items u.semaptr).sem_nsems → 0 ≤ val) :
    Values info (SysvSem.semctlSetval info s semid semnum val ipcperm).1 := by
  unfold SysvSem.semctlSetval
  cases hu : s.lookup info semid with
  | none => exact h
  | some u =>
    cases ipcperm with
    | some e => exact h
    | none =>
      dsimp only
      split_ifs with hnum hmax
      · exact h
      · exact h
      · push Not at hnum
        have hpos := hval rfl u hu hnum.1 hnum.2
        have hv : (BitVec.ofInt 16 val).toNat ≤ info.semvmx := by
          rw [BitVec.toNat_ofInt]
          omega
        have hsems := h.values u.ix u.semaptr (lookup_aimed hu).1.2.1
        exact Values.wakeup (Values.setUndos (h.setSems _ (hsems.modify hv)) _) u.ix

omit [DecidableEq ρ] in
theorem Values.setallVals (h : Values info s) (t : τ) {u : Target}
    (hu : ∃ ix, s.sema ix = some u.semaptr) (nsems : ℕ) (vals : Except Errno (List (BitVec 16))) :
    Values info (SysvSem.setallVals info s t u nsems vals).1 := by
  obtain ⟨ix, hix⟩ := hu
  unfold SysvSem.setallVals
  cases vals with
  | error e => exact h.idle t
  | ok vals =>
    dsimp only
    split_ifs with hmax hlen
    · exact h.idle t
    · exact h
    · refine Values.wakeup (Values.setUndos ((h.setSems _ ?_).idle t) _) u.ix
      intro i
      dsimp only
      cases hv : vals[i]? with
      | none => exact h.values ix _ hix i
      | some v =>
        push Not at hmax
        exact hmax v (List.mem_of_getElem? hv)

omit [DecidableEq τ] [DecidableEq ρ] in
theorem Values.exitEntries (h : Values info s) {ent : List Undo}
    (hroom : ExitRoom info.semvmx s ent) : Values info (SysvSem.exitEntries s ent).1 := by
  induction ent generalizing s with
  | nil => exact h
  | cons e rest ih =>
    obtain ⟨hfirst, hrest⟩ := hroom
    cases ha : s.sema e.un_id with
    | none => simpa [SysvSem.exitEntries, ha] using h
    | some a =>
      by_cases hout : ((s.items a).sem_nsems : ℤ) ≤ e.un_num.toInt
      · simpa [SysvSem.exitEntries, ha, hout] using h
      by_cases hneg : e.un_num.toInt < 0
      · simpa [SysvSem.exitEntries, ha, hout, hneg] using h
      simp only [SysvSem.exitEntries, ha, if_neg hout, if_neg hneg] at hrest ⊢
      refine ih (Values.wakeup (h.setSems a ?_) e.un_id) hrest
      have hsems := h.values e.un_id a ha
      refine hsems.modify ?_
      have hx := hsems e.un_num.toInt.toNat
      split_ifs with hsmall
      · exact Nat.zero_le _
      · refine toNat_add_of_nonneg ?_ ?_
        · by_contra hlt
          exact hsmall ⟨by omega, by omega⟩
        · by_cases hpos : 0 < e.un_adjval.toInt
          · exact hfirst a ha (by omega) (by omega) hpos
          · omega

omit [DecidableEq τ] in
theorem Values.semexit (h : Values info s) {pr : ρ}
    (hroom : ExitRoom info.semvmx s (s.undos.entries pr)) :
    Values info (SysvSem.semexit s pr).1 := by
  have hent := h.exitEntries hroom
  unfold SysvSem.semexit
  split_ifs
  · generalize SysvSem.exitEntries s (s.undos.entries pr) = r at hent
    obtain ⟨s', o⟩ := r
    cases o with
    | ok v => exact hent.setUndos _
    | _ => exact hent
  · exact h

omit [DecidableEq τ] [DecidableEq ρ] in
theorem Values.newBase (h : Values info s) {a : ℕ} (hslot : ∀ ix, s.sema ix ≠ some a) (b : ℕ) :
    Values info (s.newBase a b) where
  slots := h.slots
  there := h.there
  apart := h.apart
  held := h.held
  values ix x hx := by
    have hxa : x ≠ a := by
      rintro rfl
      exact hslot ix hx
    by_cases hbase : (s.items x).sem_base = b
    · intro num
      simp [State.sems, State.newBase, hxa, hbase]
    · simpa [State.sems, State.newBase, hxa, hbase] using h.values ix x hx

omit [DecidableEq τ] [DecidableEq ρ] in
theorem newBase_inRange (s : State τ ρ) (a b semvmx : ℕ) : InRange semvmx ((s.newBase a b).sems a) := by
  intro num
  simp [State.sems, State.newBase]

omit [DecidableEq τ] [DecidableEq ρ] in
theorem Values.create (h : Values info s) (g : Semget) {a k : ℕ} (hslot : ∀ ix, s.sema ix ≠ some a)
    (hfree : ∀ t, ∀ c ∈ s.calls t, ¬c.Holds a) (hk : k < info.semmni) (hnone : s.sema k = none)
    (hnew : InRange info.semvmx (s.sems a)) : Values info (s.create g a k) := by
  have hsema : ∀ ix x, (s.create g a k).sema ix = some x → (ix = k ∧ x = a) ∨ s.sema ix = some x := by
    intro ix x hx
    by_cases hix : ix = k
    · left
      subst hix
      exact ⟨rfl, by simpa [State.create, eq_comm] using hx⟩
    · right
      simpa [State.create, hix] using hx
  refine ⟨?_, ?_, ?_, h.held, ?_⟩
  · intro ix x hx
    obtain ⟨rfl, -⟩ | hx := hsema ix x hx
    · exact hk
    · exact h.slots ix x hx
  · intro t c hc x hx
    obtain ⟨ix, hix⟩ := h.there t c hc x hx
    have hne : ix ≠ k := by
      rintro rfl
      rw [hnone] at hix
      cases hix
    exact ⟨ix, by simp [State.create, hne, hix]⟩
  · intro t c hc x hold ix hix
    obtain ⟨-, rfl⟩ | hix := hsema ix x hix
    · exact hfree t c hc hold
    · exact h.apart t c hc x hold ix hix
  · intro ix x hx
    obtain ⟨-, rfl⟩ | hold := hsema ix x hx
    · simpa [State.sems, State.create] using hnew
    · have hxa : x ≠ a := by
        rintro rfl
        exact hslot ix hold
      simpa [State.sems, State.create, hxa] using h.values ix x hold

omit [DecidableEq ρ] in
theorem Values.semgetBase (h : Values info s) {t : τ} {g : Semget} {a : ℕ}
    (hcall : s.calls t = some (.malloc g a)) (b : ℕ) (ipcperm : Option Errno) :
    Values info (semgetFind info ((s.newBase a b).setCall t none) g (some a) ipcperm).1 := by
  have hslot : ∀ ix, s.sema ix ≠ some a := h.apart t _ hcall a rfl
  have hvalues : Values info ((s.newBase a b).setCall t none) := (h.newBase hslot b).idle t
  obtain hsame | ⟨a', k, heq, hnew, hcreate⟩ :=
    semgetFind_cases ((s.newBase a b).setCall t none) g (some a) ipcperm
  · rw [hsame]
    exact hvalues
  · obtain rfl := Option.some.inj heq
    rw [hcreate]
    obtain ⟨hk, hnone⟩ := newSlot_free hnew
    refine hvalues.create g hslot ?_ hk hnone (newBase_inRange s a b _)
    intro t' c hc hold
    obtain ⟨-, hc⟩ | ⟨ht, hc⟩ := mem_setCall hc
    · cases hc
    · exact ht (h.held t' t a ⟨c, hc, hold⟩ ⟨_, hcall, rfl⟩)

variable {p_p : τ → ρ}

theorem Values.step (h : Values info s) {t : τ} {a : Act} {s' : State τ ρ} {o : Outcome}
    (hal : Allowed info p_p s t a) (hfits : Fits info p_p s t a)
    (hex : exec info p_p s t a = some (s', o)) : Values info s' := by
  have hlookup : ∀ semid, ∀ u ∈ s.lookup info semid, ∀ a ∈ some u.semaptr,
      ∃ ix, s.sema ix = some a := by
    intro semid u hu a ha
    obtain rfl := Option.some.inj ha
    exact ⟨u.ix, (lookup_aimed hu).1.2.1⟩
  unfold exec at hex
  split at hex
  case h_1 g ipcperm hcall =>
    have hs : (semgetStart info s t g ipcperm).1 = s' := congrArg Prod.fst (Option.some.inj hex)
    rw [← hs, semgetStart]
    split_ifs
    · split
      · exact h
      · exact h.enter t (by simp [Call.set]) fun a => id
    · obtain hsame | ⟨a, k, hnone, -, -⟩ := semgetFind_cases s g none ipcperm
      · rw [hsame]
        exact h
      · cases hnone
  case h_2 g a hcall =>
    obtain ⟨rfl, -⟩ := Prod.mk.inj (Option.some.inj hex)
    refine h.setCall t ?_ ?_
    · intro c hc
      obtain rfl := Option.mem_some_iff.mp hc
      simp [Call.set]
    · intro c hc x hold
      obtain rfl := Option.mem_some_iff.mp hc
      obtain rfl : a = x := hold
      exact ⟨fun ix hix => hal.1 ix (h.slots ix a hix) hix, hal.2⟩
  case h_3 g a b ipcperm hcall =>
    have hs := congrArg Prod.fst (Option.some.inj hex)
    dsimp only at hs
    rw [← hs]
    exact h.semgetBase hcall b ipcperm
  case h_4 semid nsops ipcperm hcall =>
    have hs : (semopCheck info s t semid nsops ipcperm).1 = s' :=
      congrArg Prod.fst (Option.some.inj hex)
    rw [← hs, semopCheck]
    cases hu : s.lookup info semid with
    | none => exact h
    | some u =>
      cases ipcperm with
      | some e => exact h
      | none =>
        dsimp only
        split_ifs
        · exact h
        · exact h
        · exact h.enter t (hlookup semid u hu) fun a => id
  case h_5 u n e mem hcall =>
    obtain ⟨rfl, -⟩ := Prod.mk.inj (Option.some.inj hex)
    exact h.idle t
  case h_6 u n sops mem hcall =>
    have hs := congrArg Prod.fst (Option.some.inj hex)
    dsimp only at hs
    rw [← hs]
    exact h.semopPass t (h.there t _ hcall _ rfl) (hfits _ hcall _ rfl) (p_p t) mem 0
  case h_7 u sops d base num zero woken intr mem hcall =>
    have hs := congrArg Prod.fst (Option.some.inj hex)
    dsimp only at hs
    rw [← hs]
    refine h.semopWake t (h.there t _ hcall _ rfl) ?_ (p_p t) mem d base num zero
    rintro rfl
    exact hfits _ hcall _ rfl
  case h_8 u sops applied rest wake hcall =>
    have hs := congrArg Prod.fst (Option.some.inj hex)
    dsimp only at hs
    rw [← hs]
    obtain ⟨ix, hix⟩ := h.there t _ hcall _ rfl
    refine h.semopEnd t ⟨ix, hix⟩ sops wake fun hfails => ?_
    exact Back.inRange (hfits _ hcall hfails) (h.values ix _ hix)
  case h_9 semid semnum val ipcperm hcall =>
    have hs := congrArg Prod.fst (Option.some.inj hex)
    dsimp only at hs
    rw [← hs]
    refine h.semctlSetval ?_
    rintro rfl
    exact hfits
  case h_10 semid ipcperm hcall =>
    have hs : (semctlSetall info s t semid ipcperm).1 = s' :=
      congrArg Prod.fst (Option.some.inj hex)
    rw [← hs, semctlSetall]
    cases hu : s.lookup info semid with
    | none => exact h
    | some u =>
      cases ipcperm with
      | some e => exact h
      | none => exact h.enter t (hlookup semid u hu) fun a => id
  case h_11 u nsems vals hcall =>
    have hs := congrArg Prod.fst (Option.some.inj hex)
    dsimp only at hs
    rw [← hs]
    exact h.setallVals t (h.there t _ hcall _ rfl) nsems vals
  case h_12 => exact hfits.elim
  case h_13 hcall =>
    have hs := congrArg Prod.fst (Option.some.inj hex)
    dsimp only at hs
    rw [← hs]
    exact h.semexit hfits
  case h_14 => cases hex

omit [DecidableEq τ] in
theorem fits_room {t : τ} {a : Act} (h : Fits info p_p s t a) {c : Call} (hc : c ∈ s.calls t)
    {r : Target × List Sembuf} (hr : r ∈ attempt c a) :
    Room info.semvmx (s.items r.1.semaptr).sem_nsems (s.sems r.1.semaptr) r.2 := by
  cases a with
  | sops l mem => exact h c hc r hr
  | wake intr mem => exact h c hc r hr
  | _ => cases c <;> cases hr

/-- In runs that meet the condition all semaphore values are at most `semvmx` whenever a
thread gives up the processor, and also after each single operation of every attempt of a
call of `semop`. -/
theorem semval_in_range {tr : List (Event τ ρ)}
    (h : Runs info p_p (Fits info p_p) (seminit τ ρ) tr s) :
    (∀ ix a, s.sema ix = some a → ∀ num, (s.sems a num).semval.toNat ≤ info.semvmx) ∧
    ∀ ev ∈ tr, (∀ ix a, ev.post.sema ix = some a → ∀ num,
        (ev.post.sems a num).semval.toNat ≤ info.semvmx) ∧
      ∀ c ∈ ev.pre.calls ev.thread, ∀ r ∈ attempt c ev.act, ∀ k,
        Doable (ev.pre.items r.1.semaptr).sem_nsems (ev.pre.sems r.1.semaptr) (r.2.take k) →
          ∀ num, (applyOps (r.2.take k) (ev.pre.sems r.1.semaptr) num).semval.toNat ≤
            info.semvmx := by
  obtain ⟨hlast, hevents⟩ := h.invariant
    (fun _ _ _ _ _ hv hal hfits hex => Values.step hv hal hfits hex) (values_seminit info)
  refine ⟨hlast.values, fun ev hev => ?_⟩
  obtain ⟨hpre, hpost, -, hfits, -⟩ := hevents ev hev
  refine ⟨hpost.values, fun c hc r hr k hdo => ?_⟩
  have hset : r.1.semaptr ∈ c.set := by
    unfold attempt at hr
    split at hr
    · obtain rfl := Option.some.inj hr
      rfl
    · obtain rfl := Option.some.inj hr
      rfl
    · cases hr
  obtain ⟨ix, hix⟩ := hpre.there ev.thread c hc _ hset
  exact (fits_room hfits hc hr).inRange (hpre.values ix _ hix) k hdo

end Invariant

/-- An increment up to the maximum that is taken back at the exit of its process. -/
def upToMaximum : List (Fin 2 × Act) :=
  [(0, .semget ⟨IPC_PRIVATE, 2, false, false⟩ none), (0, .item 0), (0, .base 0 none),
    (0, .setval 65536#32 0 32766 none), (1, .semop 65536#32 1 none),
    (1, .sops (.ok [⟨0#16, 1#16, false, true⟩]) true), (1, .exit)]

theorem semval_in_range_maximum :
    ∃ tr s, Runs defaultInfo id (Fits defaultInfo id) (seminit (Fin 2) (Fin 2)) tr s ∧
      tr.length = 7 ∧ ∀ ix a, s.sema ix = some a → ∀ num, (s.sems a num).semval.toNat ≤ 32767 := by
  have hsome : (replay (Fits defaultInfo id) defaultInfo id (seminit (Fin 2) (Fin 2))
      upToMaximum).isSome := by decide +kernel
  obtain ⟨r, hr⟩ := Option.isSome_iff_exists.mp hsome
  have hlen : ∀ r ∈ replay (Fits defaultInfo id) defaultInfo id (seminit (Fin 2) (Fin 2))
      upToMaximum, r.1.length = 7 := by decide +kernel
  have hruns := runs_of_replay (Fits defaultInfo id) hr
  exact ⟨r.1, r.2, hruns, hlen r hr, (semval_in_range hruns).1⟩

/-- An increment beyond the maximum, and a negative argument of `SETVAL`. -/
def beyondMaximum : List (Fin 2 × Act) :=
  [(0, .semget ⟨IPC_PRIVATE, 2, false, false⟩ none), (0, .item 0), (0, .base 0 none),
    (0, .setval 65536#32 0 32767 none), (1, .semop 65536#32 1 none),
    (1, .sops (.ok [⟨0#16, 1#16, false, false⟩]) true), (0, .setval 65536#32 1 (-1) none)]

theorem semval_exceeds_semvmx :
    ∃ tr s, Runs defaultInfo id (fun _ _ _ => True) (seminit (Fin 2) (Fin 2)) tr s ∧
      (∀ ev ∈ tr, ¬ev.out.Stops) ∧ s.sema 0 = some 0 ∧
      defaultInfo.semvmx < (s.sems 0 0).semval.toNat ∧ (s.sems 0 0).semval = 32768#16 ∧
      defaultInfo.semvmx < (s.sems 0 1).semval.toNat ∧ (s.sems 0 1).semval = 65535#16 := by
  have hsome : (replay (fun _ _ _ => True) defaultInfo id (seminit (Fin 2) (Fin 2))
      beyondMaximum).isSome := by decide +kernel
  obtain ⟨r, hr⟩ := Option.isSome_iff_exists.mp hsome
  have hbad : ∀ r ∈ replay (fun _ _ _ => True) defaultInfo id (seminit (Fin 2) (Fin 2))
      beyondMaximum, (∀ ev ∈ r.1, ¬ev.out.Stops) ∧ r.2.sema 0 = some 0 ∧
      defaultInfo.semvmx < (r.2.sems 0 0).semval.toNat ∧ (r.2.sems 0 0).semval = 32768#16 ∧
      defaultInfo.semvmx < (r.2.sems 0 1).semval.toNat ∧ (r.2.sems 0 1).semval = 65535#16 := by
    decide +kernel
  exact ⟨r.1, r.2, runs_of_replay (fun _ _ _ => True) hr, hbad r hr⟩

end OpenbsdKernel.SysvSem
