import OpenbsdKernel.Kern.Sem.System

/-!
# Removal of semaphore sets

What holds across the removal of sets and the reuse of their slots and addresses. A call
that slept over the removal of its set looks at the slot and at the sequence number in the
freed set; the condition `Sound` says when these do not deceive it, and that no set is
removed under a call that does not look again at all.
-/
namespace OpenbsdKernel.SysvSem

variable {τ ρ : Type*} [DecidableEq τ] [DecidableEq ρ]

/-- The call works on the set in slot `ix` and will not look again whether it exists. -/
def Call.Inside (ix : ℕ) : Call → Prop
  | .copyin u _ | .semuWait u _ _ _ _ | .setall u _ => u.ix = ix
  | _ => False

/-- The set the call sleeps on. -/
def Call.sleepsOn : Call → Option Target
  | .asleep u _ _ _ _ _ _ => some u
  | _ => none

instance (ix : ℕ) : DecidablePred (Call.Inside ix)
  | .copyin u _ | .semuWait u _ _ _ _ | .setall u _ => inferInstanceAs (Decidable (u.ix = ix))
  | .poolGet _ | .malloc .. | .asleep .. => isFalse id

/-- The arguments of `semget` and the address of the preallocated set. -/
def Call.creates : Call → Option (Semget × ℕ)
  | .malloc g a => some (g, a)
  | _ => none

/-- The slot in which `semget` creates a set. -/
def State.newSlot (info : Seminfo) (s : State τ ρ) (g : Semget) : Option ℕ :=
  match s.findKey info g.key with
  | some _ => none
  | none => (List.range info.semmni).find? fun ix => s.sema ix = none

/-- A sleeper on a removed set finds its slot in use and its own sequence number at the
address of the set. -/
def Target.Deceived (sema : ℕ → Option ℕ) (seqs : ℕ → ℕ) (u : Target) : Prop :=
  u.gone = true ∧ sema u.ix ≠ none ∧ seqs u.semaptr = u.seq

def State.seqs (s : State τ ρ) (a : ℕ) : ℕ := (s.items a).seq

/-- The semaphore numbers to keep in undo entries fit a `short`; no set is removed under a
call that will not look again; and what is put at the address of a removed set, by `semget`
or by the allocators, does not deceive a sleeper. -/
def Sound (info : Seminfo) (s : State τ ρ) (t : τ) : Act → Prop
  | .sops (.ok sops) _ => Short sops
  | .rmid semid junk none => ∀ u ∈ s.lookup info semid, ∀ t', ∀ c ∈ s.calls t', ¬c.Inside u.ix ∧
      ∀ v ∈ c.sleepsOn, ¬v.Deceived (Function.update s.sema u.ix none)
        (Function.update s.seqs u.semaptr junk.1.seq)
  | .base _ _ => ∀ own ∈ s.calls t, ∀ new ∈ own.creates, ∀ k ∈ s.newSlot info new.1,
      ∀ t', ∀ c ∈ s.calls t', ∀ v ∈ c.sleepsOn,
        ¬v.Deceived (Function.update s.sema k (some new.2))
          (Function.update s.seqs new.2 ((s.semseqs k + 1) % 32768))
  | _ => True

instance (sema : ℕ → Option ℕ) (seqs : ℕ → ℕ) : DecidablePred (Target.Deceived sema seqs) :=
  fun u => inferInstanceAs (Decidable (u.gone = true ∧ sema u.ix ≠ none ∧ seqs u.semaptr = u.seq))

instance : DecidablePred Short := fun sops =>
  inferInstanceAs (Decidable (∀ sop ∈ sops, sop.Undoes → sop.sem_num.toNat < 32768))

instance [Fintype τ] (info : Seminfo) (s : State τ ρ) (t : τ) : DecidablePred (Sound info s t)
  | .sops (.ok sops) _ => inferInstanceAs (Decidable (Short sops))
  | .rmid semid junk none => inferInstanceAs (Decidable (∀ u ∈ s.lookup info semid, ∀ t',
      ∀ c ∈ s.calls t', ¬c.Inside u.ix ∧ ∀ v ∈ c.sleepsOn,
        ¬v.Deceived (Function.update s.sema u.ix none)
          (Function.update s.seqs u.semaptr junk.1.seq)))
  | .base _ _ => inferInstanceAs (Decidable (∀ own ∈ s.calls t, ∀ new ∈ own.creates,
      ∀ k ∈ s.newSlot info new.1, ∀ t', ∀ c ∈ s.calls t', ∀ v ∈ c.sleepsOn,
        ¬v.Deceived (Function.update s.sema k (some new.2))
          (Function.update s.seqs new.2 ((s.semseqs k + 1) % 32768))))
  | .semget .. | .item _ | .semop .. | .sops (.error _) _ | .wake .. | .semu | .setval .. |
    .setall .. | .vals _ | .rmid _ _ (some _) | .exit => isTrue trivial

/-- The set of the call is there. -/
def Aimed (sema : ℕ → Option ℕ) (items : ℕ → Semid) (u : Target) : Prop :=
  u.gone = false ∧ sema u.ix = some u.semaptr ∧ (items u.semaptr).seq = u.seq

/-- The set of the call has been removed and the call will find out. -/
def Lost (sema : ℕ → Option ℕ) (items : ℕ → Semid) (u : Target) : Prop :=
  u.gone = true ∧ (sema u.ix = none ∨ (items u.semaptr).seq ≠ u.seq)

/-- The wait for memory is at the first of the operations to account for. -/
structure Waiting (sops applied rest : List Sembuf) : Prop where
  split : sops = applied.reverse ++ rest
  short : Short sops
  count : undoCount sops ≤ SEMUME
  applied : ∀ sop ∈ applied, ¬sop.Undoes
  rest : ∃ sop ∈ rest, sop.Undoes

theorem Waiting.mem {sops applied rest : List Sembuf} (h : Waiting sops applied rest) (sop : Sembuf) :
    sop ∈ sops ↔ sop ∈ rest ++ applied := by
  rw [h.split, List.mem_append, List.mem_append, List.mem_reverse, or_comm]

/-- What a call may rely on. -/
def Call.Ok (sema : ℕ → Option ℕ) (items : ℕ → Semid) : Call → Prop
  | .poolGet _ => True
  | .malloc _ a => ∀ ix, sema ix ≠ some a
  | .copyin u _ => Aimed sema items u
  | .asleep u sops _ _ _ _ _ => (Aimed sema items u ∨ Lost sema items u) ∧ Short sops
  | .semuWait u sops applied rest _ =>
    Aimed sema items u ∧ (∀ sop ∈ sops, sop.sem_num.toNat < (items u.semaptr).sem_nsems) ∧
      Waiting sops applied rest
  | .setall u _ => Aimed sema items u

/-- Number `num` of the set in slot `ix` is a semaphore. -/
def Named (sema : ℕ → Option ℕ) (items : ℕ → Semid) (ix : ℕ) (num : BitVec 16) : Prop :=
  ∃ a, sema ix = some a ∧ num.toNat < (items a).sem_nsems ∧ num.toNat < 32768

/-- Slots hold different sets, a preallocated set is held by one call and in no slot, and
undo entries are for semaphores of existing sets. -/
structure Inv (info : Seminfo) (s : State τ ρ) : Prop where
  slots : ∀ ix a, s.sema ix = some a → ix < info.semmni
  inj : ∀ ix ix' a, s.sema ix = some a → s.sema ix' = some a → ix = ix'
  undos : s.undos.Good
  entries : s.undos.All (Named s.sema s.items)
  calls : ∀ t, ∀ c ∈ s.calls t, c.Ok s.sema s.items
  held : ∀ t t' a, (∃ c ∈ s.calls t, c.Holds a) → (∃ c ∈ s.calls t', c.Holds a) → t = t'

omit [DecidableEq τ] [DecidableEq ρ] in
theorem inv_seminit (info : Seminfo) : Inv info (seminit τ ρ) where
  slots := by simp [seminit]
  inj := by simp [seminit]
  undos := ⟨by simp [seminit], by simp [seminit]⟩
  entries := by simp [seminit, Undos.All]
  calls := by simp [seminit]
  held := by simp [seminit]

section Inv

variable {info : Seminfo} {s : State τ ρ}

omit [DecidableEq τ] [DecidableEq ρ] in
theorem Inv.setBases (h : Inv info s) (bases : ℕ → ℕ → Sem) :
    Inv info { s with bases := bases } :=
  ⟨h.slots, h.inj, h.undos, h.entries, h.calls, h.held⟩

omit [DecidableEq τ] [DecidableEq ρ] in
theorem Inv.setSems (h : Inv info s) (a : ℕ) (sems : ℕ → Sem) : Inv info (s.setSems a sems) :=
  h.setBases _

omit [DecidableEq τ] [DecidableEq ρ] in
theorem Inv.setUndos (h : Inv info s) {us : Undos ρ} (hgood : us.Good)
    (hall : us.All (Named s.sema s.items)) : Inv info { s with undos := us } :=
  ⟨h.slots, h.inj, hgood, hall, h.calls, h.held⟩

theorem wake_ok {sema : ℕ → Option ℕ} {items : ℕ → Semid} {c : Call} (ix : ℕ) :
    (c.wake ix).Ok sema items ↔ c.Ok sema items := by
  cases c <;> rfl

theorem wake_holds {c : Call} (ix a : ℕ) : (c.wake ix).Holds a ↔ c.Holds a := by
  cases c <;> rfl

omit [DecidableEq τ] [DecidableEq ρ] in
theorem Inv.wakeup (h : Inv info s) (ix : ℕ) : Inv info (s.wakeup ix) where
  slots := h.slots
  inj := h.inj
  undos := h.undos
  entries := h.entries
  calls t c hc := by
    obtain ⟨c₀, hc₀, rfl⟩ := Option.mem_map.mp hc
    exact (wake_ok ix).mpr (h.calls t c₀ hc₀)
  held t t' a := by
    rintro ⟨c, hc, hold⟩ ⟨c', hc', hold'⟩
    obtain ⟨c₀, hc₀, rfl⟩ := Option.mem_map.mp hc
    obtain ⟨c₀', hc₀', rfl⟩ := Option.mem_map.mp hc'
    exact h.held t t' a ⟨c₀, hc₀, (wake_holds ix a).mp hold⟩ ⟨c₀', hc₀', (wake_holds ix a).mp hold'⟩

omit [DecidableEq ρ] in
theorem Inv.setCall (h : Inv info s) (t : τ) {call : Option Call}
    (hok : ∀ c ∈ call, c.Ok s.sema s.items) (hfree : ∀ c ∈ call, ∀ a, ¬c.Holds a) :
    Inv info (s.setCall t call) where
  slots := h.slots
  inj := h.inj
  undos := h.undos
  entries := h.entries
  calls t' c hc := by
    by_cases ht : t' = t
    · subst ht
      simp only [State.setCall, Function.update_self] at hc
      exact hok c hc
    · simp only [State.setCall, Function.update_of_ne ht] at hc
      exact h.calls t' c hc
  held t₁ t₂ a := by
    rintro ⟨c, hc, hold⟩ ⟨c', hc', hold'⟩
    by_cases h₁ : t₁ = t
    · subst h₁
      simp only [State.setCall, Function.update_self] at hc
      exact absurd hold (hfree c hc a)
    · by_cases h₂ : t₂ = t
      · subst h₂
        simp only [State.setCall, Function.update_self] at hc'
        exact absurd hold' (hfree c' hc' a)
      · simp only [State.setCall, Function.update_of_ne h₁] at hc
        simp only [State.setCall, Function.update_of_ne h₂] at hc'
        exact h.held t₁ t₂ a ⟨c, hc, hold⟩ ⟨c', hc', hold'⟩

omit [DecidableEq ρ] in
theorem Inv.idle (h : Inv info s) (t : τ) : Inv info (s.setCall t none) :=
  h.setCall t (by simp) (by simp)

omit [DecidableEq ρ] in
theorem Inv.enter (h : Inv info s) (t : τ) {c : Call} (hok : c.Ok s.sema s.items)
    (hfree : ∀ a, ¬c.Holds a) : Inv info (s.setCall t (some c)) := by
  refine h.setCall t ?_ ?_
  · intro c' hc'
    obtain rfl := Option.mem_some_iff.mp hc'
    exact hok
  · intro c' hc'
    obtain rfl := Option.mem_some_iff.mp hc'
    exact hfree

omit [DecidableEq τ] [DecidableEq ρ] in
theorem lookup_aimed {semid : BitVec 32} {u : Target} (h : u ∈ s.lookup info semid) :
    Aimed s.sema s.items u ∧ u.ix = IPCID_TO_IX semid := by
  simp only [State.lookup, Option.mem_def] at h
  split_ifs at h with hix
  split at h
  · cases h
  · rename_i a ha
    split_ifs at h with hseq
    obtain rfl := Option.some.inj h
    exact ⟨⟨rfl, ha, not_not.mp hseq⟩, rfl⟩

theorem Inv.semopEnd (h : Inv info s) (t : τ) {u : Target} (haim : Aimed s.sema s.items u)
    {sops : List Sembuf} (hin : ∀ sop ∈ sops, sop.sem_num.toNat < (s.items u.semaptr).sem_nsems)
    (hshort : Short sops) (hcount : undoCount sops ≤ SEMUME) (wake : Bool) {pr : ρ} {mem : Bool}
    {applied rest : List Sembuf} (hsplit : sops = applied.reverse ++ rest)
    (hnone : ∀ sop ∈ applied, ¬sop.Undoes) {us₀ us : Undos ρ} {suptr : Suptr}
    (hlist : us₀.semu_list = s.undos.semu_list) (hload : Loaded us₀ us pr suptr rest) :
    Inv info (SysvSem.semopEnd s t u sops wake
      (applyUndos info pr mem u.ix applied rest us suptr)).1 := by
  have hmem : ∀ sop ∈ rest ++ applied, sop ∈ sops := by
    intro sop hsop
    rw [hsplit, List.mem_append, List.mem_reverse]
    exact (List.mem_append.mp hsop).symm
  have hshort' : Short (rest ++ applied) := fun sop hsop => hshort sop (hmem sop hsop)
  have hkeeps : ∀ us', (applyUndos info pr mem u.ix applied rest us suptr).undos? = some us' →
      us'.Good ∧ us'.All (Named s.sema s.items) := by
    intro us' hr
    have hk := applyUndos_keeps info pr mem u.ix applied rest (.inl hload) hshort' hr
    have hall : us₀.All (Named s.sema s.items) := by
      rw [Undos.All, hlist]
      exact h.entries
    refine ⟨hk.good, hk.all _ hall ?_⟩
    intro sop hsop hop
    exact ⟨u.semaptr, haim.2.1, hin sop (hmem sop hsop), hshort' sop hsop hop⟩
  cases hr : applyUndos info pr mem u.ix applied rest us suptr with
  | ok us' =>
    obtain ⟨hgood, hall⟩ := hkeeps us' (by rw [hr]; rfl)
    simp only [SysvSem.semopEnd]
    split_ifs
    · exact ((h.setUndos hgood hall).idle t).wakeup u.ix
    · exact (h.setUndos hgood hall).idle t
  | failed e us' =>
    obtain ⟨hgood, hall⟩ := hkeeps us' (by rw [hr]; rfl)
    exact ((h.setUndos hgood hall).setBases _).idle t
  | wait us' applied' rest' =>
    obtain ⟨hgood, hall⟩ := hkeeps us' (by rw [hr]; rfl)
    obtain ⟨hsplit', hnone', hsome, -⟩ := applyUndos_wait hload
      (fun sop hsop => hshort' sop (List.mem_append_left _ hsop)) hr
    refine (h.setUndos hgood hall).enter t ⟨haim, hin, ?_, hshort, hcount, ?_, hsome⟩ fun a => id
    · rw [hsplit, hsplit']
    · intro sop hsop hop
      obtain hold | hnew := hnone' sop hsop
      · exact hnone sop hold hop
      · exact hnew hop
  | panic => exact h
  | crash => exact h

theorem Inv.semopPass (h : Inv info s) (t : τ) {u : Target} (haim : Aimed s.sema s.items u)
    {sops : List Sembuf} (hshort : Short sops) (pr : ρ) (mem : Bool) (do_undos : ℕ) :
    Inv info (SysvSem.semopPass info pr mem s t u sops do_undos).1 := by
  have hspec := semopPass_spec info pr mem s t u sops do_undos
  generalize SysvSem.semopPass info pr mem s t u sops do_undos = r at hspec
  cases hspec with
  | efbig => exact (h.setSems _ _).idle t
  | failed => exact h.idle t
  | asleep => exact Inv.enter (h.setSems _ _) t ⟨.inl haim, hshort⟩ fun a => id
  | through wake hdo hcount =>
    exact Inv.semopEnd (h.setSems _ _) t haim hdo.inRange hshort hcount wake rfl (by simp) rfl
      ⟨h.undos, .inl ⟨rfl, .inl rfl⟩⟩

theorem Inv.semopWake (h : Inv info s) (t : τ) {u : Target}
    (haim : Aimed s.sema s.items u ∨ Lost s.sema s.items u) {sops : List Sembuf}
    (hshort : Short sops) (pr : ρ) (mem : Bool) (do_undos base num : ℕ) (zero intr : Bool) :
    Inv info (SysvSem.semopWake info pr mem s t u sops do_undos base num zero intr).1 := by
  unfold SysvSem.semopWake
  by_cases hgone : s.sema u.ix = none ∨ (s.items u.semaptr).seq ≠ u.seq
  · rw [if_pos hgone]
    exact h.idle t
  · rw [if_neg hgone]
    have haim : Aimed s.sema s.items u := haim.resolve_right fun hlost => hgone hlost.2
    have hcount : Inv info (s.modifySem base num (Sem.count zero (-1#16))) := h.setBases _
    dsimp only
    split_ifs
    · exact hcount.idle t
    · exact hcount.semopPass t haim hshort pr mem do_undos

omit [DecidableEq τ] in
theorem Loaded.waited (hgood : s.undos.Good) (pr : ρ) {rest : List Sembuf}
    (hop : ∃ sop ∈ rest, sop.Undoes) :
    ∃ us₀, us₀.semu_list = s.undos.semu_list ∧
      Loaded us₀ (semuAllocWaited pr s.undos) pr .live rest := by
  unfold semuAllocWaited
  split_ifs with hhas
  · exact ⟨{ s.undos with semutot := s.undos.semutot - 1 }, rfl,
      ⟨hgood.procs, hgood.structs⟩, .inl ⟨rfl, .inr rfl⟩⟩
  · exact ⟨s.undos, rfl, hgood, .inr ⟨hhas, rfl, ⟨_, rfl⟩, hop⟩⟩

omit [DecidableEq τ] [DecidableEq ρ] in
theorem Inv.semctlSetval (h : Inv info s) (semid : BitVec 32) (semnum val : ℤ)
    (ipcperm : Option Errno) : Inv info (SysvSem.semctlSetval info s semid semnum val ipcperm).1 := by
  unfold SysvSem.semctlSetval
  cases s.lookup info semid with
  | none => exact h
  | some u =>
    cases ipcperm with
    | some e => exact h
    | none =>
      dsimp only
      split_ifs
      · exact h
      · exact h
      · exact Inv.wakeup (Inv.setUndos (h.setSems _ _) (h.undos.clear _ _) (h.entries.clear _ _)) _

omit [DecidableEq ρ] in
theorem Inv.setallVals (h : Inv info s) (t : τ) (u : Target) (nsems : ℕ)
    (vals : Except Errno (List (BitVec 16))) :
    Inv info (SysvSem.setallVals info s t u nsems vals).1 := by
  unfold SysvSem.setallVals
  cases vals with
  | error e => exact h.idle t
  | ok vals =>
    dsimp only
    split_ifs
    · exact h.idle t
    · exact h
    · exact Inv.wakeup (Inv.setUndos (Inv.idle (h.setSems _ _) t) (h.undos.clear _ _)
        (h.entries.clear _ _)) _

omit [DecidableEq τ] [DecidableEq ρ] in
theorem exitEntries_spec (h : Inv info s) {ent : List Undo}
    (hent : ∀ e ∈ ent, Named s.sema s.items e.un_id e.un_num) :
    ∃ s', exitEntries s ent = (s', .ok 0) ∧ Inv info s' ∧ s'.undos = s.undos := by
  induction ent generalizing s with
  | nil => exact ⟨s, rfl, h, rfl⟩
  | cons e ent ih =>
    obtain ⟨a, ha, hnum, hshort⟩ := hent e List.mem_cons_self
    have hint := toInt_of_short hshort
    have hrest := fun x hx => hent x (List.mem_cons_of_mem e hx)
    rw [exitEntries]
    simp only [ha]
    rw [if_neg (by omega), if_neg (by omega)]
    exact ih ((h.setSems _ _).wakeup e.un_id) hrest

omit [DecidableEq τ] in
theorem Inv.named_entries (h : Inv info s) (pr : ρ) :
    ∀ e ∈ s.undos.entries pr, Named s.sema s.items e.un_id e.un_num := by
  by_cases hpr : s.undos.Has pr
  · obtain ⟨su, hsu, -, heq⟩ := hpr.entries
    rw [heq]
    exact h.entries su hsu
  · rw [Undos.entries_of_not_has hpr]
    simp

omit [DecidableEq τ] in
theorem Inv.semexit (h : Inv info s) (pr : ρ) :
    Inv info (SysvSem.semexit s pr).1 ∧ (SysvSem.semexit s pr).2 = .ok 0 := by
  unfold SysvSem.semexit
  split_ifs
  · obtain ⟨s', hr, hinv, -⟩ := exitEntries_spec h (h.named_entries pr)
    rw [hr]
    exact ⟨hinv.setUndos (hinv.undos.drop pr) (hinv.entries.drop pr), rfl⟩
  · exact ⟨h, rfl⟩

theorem Call.Ok.congr {sema sema' : ℕ → Option ℕ} {items items' : ℕ → Semid} {c : Call}
    (h : c.Ok sema items)
    (hlive : ∀ ix a, sema ix = some a → sema' ix = some a ∧ items' a = items a)
    (hlost : ∀ u ∈ c.sleepsOn, Lost sema items u → Lost sema' items' u)
    (hheld : ∀ a, c.Holds a → ∀ ix, sema' ix ≠ some a) : c.Ok sema' items' := by
  have haimed : ∀ u, Aimed sema items u → Aimed sema' items' u := by
    rintro u ⟨hgone, hslot, hseq⟩
    obtain ⟨hslot', hitem⟩ := hlive u.ix u.semaptr hslot
    exact ⟨hgone, hslot', by rw [hitem, hseq]⟩
  cases c with
  | poolGet g => trivial
  | malloc g a => exact hheld a rfl
  | copyin u n => exact haimed u h
  | asleep u sops d b n z w =>
    exact ⟨h.1.imp (haimed u) (hlost u rfl), h.2⟩
  | semuWait u sops applied rest w =>
    obtain ⟨haim, hin, hwait⟩ := h
    obtain ⟨-, hitem⟩ := hlive u.ix u.semaptr haim.2.1
    exact ⟨haimed u haim, by rwa [hitem], hwait⟩
  | setall u n => exact haimed u h

theorem Named.congr {sema sema' : ℕ → Option ℕ} {items items' : ℕ → Semid} {ix : ℕ}
    {num : BitVec 16} (h : Named sema items ix num)
    (hlive : ∀ a, sema ix = some a → sema' ix = some a ∧ items' a = items a) :
    Named sema' items' ix num := by
  obtain ⟨a, hslot, hnum, hshort⟩ := h
  obtain ⟨hslot', hitem⟩ := hlive a hslot
  exact ⟨a, hslot', by rwa [hitem], hshort⟩

omit [DecidableEq ρ] in
theorem Inv.item (h : Inv info s) (t : τ) (g : Semget) {a : ℕ}
    (hslot : ∀ ix < info.semmni, s.sema ix ≠ some a) (hfree : ∀ t', ∀ c ∈ s.calls t', ¬c.Holds a) :
    Inv info (s.setCall t (some (.malloc g a))) where
  slots := h.slots
  inj := h.inj
  undos := h.undos
  entries := h.entries
  calls t' c hc := by
    by_cases ht : t' = t
    · subst ht
      obtain rfl : Call.malloc g a = c := by simpa [State.setCall] using hc
      intro ix hix
      exact hslot ix (h.slots ix a hix) hix
    · simp only [State.setCall, Function.update_of_ne ht] at hc
      exact h.calls t' c hc
  held t₁ t₂ b := by
    have hother : ∀ t', t' ≠ t → ∀ c ∈ (s.setCall t (some (.malloc g a))).calls t', c ∈ s.calls t' := by
      intro t' ht c hc
      simpa only [State.setCall, Function.update_of_ne ht] using hc
    have hself : ∀ c ∈ (s.setCall t (some (.malloc g a))).calls t, c.Holds b → a = b := by
      intro c hc hold
      obtain rfl : Call.malloc g a = c := by simpa [State.setCall] using hc
      exact hold
    rintro ⟨c, hc, hold⟩ ⟨c', hc', hold'⟩
    by_cases h₁ : t₁ = t <;> by_cases h₂ : t₂ = t
    · rw [h₁, h₂]
    · subst h₁
      obtain rfl := hself c hc hold
      exact absurd hold' (hfree t₂ c' (hother t₂ h₂ c' hc'))
    · subst h₂
      obtain rfl := hself c' hc' hold'
      exact absurd hold (hfree t₁ c (hother t₁ h₁ c hc))
    · exact h.held t₁ t₂ b ⟨c, hother t₁ h₁ c hc, hold⟩ ⟨c', hother t₂ h₂ c' hc', hold'⟩

omit [DecidableEq ρ] in
/-- The thread that holds the address `a` gives it up: no other call holds it. -/
theorem Inv.release (h : Inv info s) {t : τ} {g : Semget} {a : ℕ}
    (hcall : s.calls t = some (.malloc g a)) :
    ∀ t', ∀ c ∈ (s.setCall t none).calls t', ¬c.Holds a := by
  intro t' c hc hold
  by_cases ht : t' = t
  · subst ht
    simp [State.setCall] at hc
  · simp only [State.setCall, Function.update_of_ne ht] at hc
    exact ht (h.held t' t a ⟨c, hc, hold⟩ ⟨_, hcall, rfl⟩)

omit [DecidableEq τ] [DecidableEq ρ] in
theorem Inv.newBase (h : Inv info s) {a : ℕ} (hslot : ∀ ix, s.sema ix ≠ some a) (b : ℕ) :
    Inv info (s.newBase a b) where
  slots := h.slots
  inj := h.inj
  undos := h.undos
  entries su hsu e he := by
    refine (h.entries su hsu e he).congr ?_
    intro x hx
    refine ⟨hx, Function.update_of_ne ?_ _ _⟩
    rintro rfl
    exact hslot _ hx
  calls t c hc := by
    refine (h.calls t c hc).congr ?_ ?_ ?_
    · intro ix x hx
      refine ⟨hx, Function.update_of_ne ?_ _ _⟩
      rintro rfl
      exact hslot ix hx
    · rintro u - ⟨hgone, hlost⟩
      refine ⟨hgone, hlost.imp_right ?_⟩
      by_cases hu : u.semaptr = a
      · simp [State.newBase, hu]
      · simp [State.newBase, hu]
    · intro x hold ix hx
      cases c with
      | malloc g y =>
        obtain rfl : y = x := hold
        exact h.calls t _ hc ix hx
      | _ => exact hold.elim
  held := h.held

omit [DecidableEq τ] [DecidableEq ρ] in
theorem Inv.create (h : Inv info s) (g : Semget) {a k : ℕ} (hslot : ∀ ix, s.sema ix ≠ some a)
    (hfree : ∀ t, ∀ c ∈ s.calls t, ¬c.Holds a) (hk : k < info.semmni) (hnone : s.sema k = none)
    (hsound : ∀ t, ∀ c ∈ s.calls t, ∀ v ∈ c.sleepsOn,
      ¬v.Deceived (Function.update s.sema k (some a))
        (Function.update s.seqs a ((s.semseqs k + 1) % 32768))) :
    Inv info (s.create g a k) := by
  have hlive : ∀ ix x, s.sema ix = some x →
      (s.create g a k).sema ix = some x ∧ (s.create g a k).items x = s.items x := by
    intro ix x hx
    have hix : ix ≠ k := by
      rintro rfl
      rw [hnone] at hx
      cases hx
    have hxa : x ≠ a := by
      rintro rfl
      exact hslot ix hx
    exact ⟨by simp [State.create, hix, hx], by simp [State.create, hxa]⟩
  have hsema : ∀ ix x, (s.create g a k).sema ix = some x → (ix = k ∧ x = a) ∨ s.sema ix = some x := by
    intro ix x hx
    by_cases hix : ix = k
    · left
      subst hix
      exact ⟨rfl, by simpa [State.create, eq_comm] using hx⟩
    · right
      simpa [State.create, hix] using hx
  refine ⟨?_, ?_, h.undos, ?_, ?_, h.held⟩
  · intro ix x hx
    obtain ⟨rfl, -⟩ | hx := hsema ix x hx
    · exact hk
    · exact h.slots ix x hx
  · intro ix ix' x hx hx'
    obtain ⟨rfl, rfl⟩ | hold := hsema ix x hx <;> obtain ⟨rfl, hxa⟩ | hold' := hsema ix' x hx'
    · rfl
    · exact absurd hold' (hslot ix')
    · subst hxa
      exact absurd hold (hslot ix)
    · exact h.inj ix ix' x hold hold'
  · intro su hsu e he
    exact (h.entries su hsu e he).congr (hlive e.un_id)
  · intro t c hc
    refine (h.calls t c hc).congr hlive ?_ ?_
    · rintro u hu ⟨hgone, -⟩
      refine ⟨hgone, ?_⟩
      by_contra hboth
      push Not at hboth
      refine hsound t c hc u hu ⟨hgone, hboth.1, ?_⟩
      rw [← hboth.2]
      by_cases hua : u.semaptr = a
      · simp [State.create, hua]
      · simp [State.create, State.seqs, hua]
    · intro x hold ix hx
      obtain ⟨-, rfl⟩ | hx := hsema ix x hx
      · exact hfree t c hc hold
      · cases c with
        | malloc g y =>
          obtain rfl : y = x := hold
          exact h.calls t _ hc ix hx
        | _ => exact hold.elim

theorem lose_holds {c : Call} (ix a : ℕ) : (c.lose ix).Holds a ↔ c.Holds a := by
  cases c <;> rfl

omit [DecidableEq τ] [DecidableEq ρ] in
theorem Inv.remove (h : Inv info s) {u : Target} (hu : Aimed s.sema s.items u)
    (junk : Semid × (ℕ → Sem))
    (hsound : ∀ t, ∀ c ∈ s.calls t, ¬c.Inside u.ix ∧
      ∀ v ∈ c.sleepsOn, ¬v.Deceived (Function.update s.sema u.ix none)
        (Function.update s.seqs u.semaptr junk.1.seq)) :
    Inv info (s.remove u junk) := by
  have hsema : ∀ ix x, (s.remove u junk).sema ix = some x → ix ≠ u.ix ∧ s.sema ix = some x := by
    intro ix x hx
    by_cases hix : ix = u.ix
    · subst hix
      simp [State.remove] at hx
    · exact ⟨hix, by simpa [State.remove, hix] using hx⟩
  have hlive : ∀ ix x, ix ≠ u.ix → s.sema ix = some x →
      (s.remove u junk).sema ix = some x ∧ (s.remove u junk).items x = s.items x := by
    intro ix x hix hx
    have hxu : x ≠ u.semaptr := by
      rintro rfl
      exact hix (h.inj ix u.ix _ hx hu.2.1)
    exact ⟨by simp [State.remove, hix, hx], by simp [State.remove, hxu]⟩
  have haimed : ∀ v, Aimed s.sema s.items v → v.ix ≠ u.ix →
      Aimed (s.remove u junk).sema (s.remove u junk).items (v.lose u.ix) ∧
        (s.remove u junk).items v.semaptr = s.items v.semaptr := by
    rintro v ⟨hgone, hslot, hseq⟩ hix
    obtain ⟨hslot', hitem⟩ := hlive v.ix v.semaptr hix hslot
    refine ⟨⟨by simp [Target.lose, hgone, hix], hslot', ?_⟩, hitem⟩
    change ((s.remove u junk).items v.semaptr).seq = v.seq
    rw [hitem, hseq]
  refine ⟨?_, ?_, h.undos.clear _ _, ?_, ?_, ?_⟩
  · intro ix x hx
    exact h.slots ix x (hsema ix x hx).2
  · intro ix ix' x hx hx'
    exact h.inj ix ix' x (hsema ix x hx).2 (hsema ix' x hx').2
  · intro su hsu e he
    obtain ⟨hnamed, hne⟩ := h.entries.clear_set u.ix su hsu e he
    exact hnamed.congr fun x hx => hlive e.un_id x hne hx
  · intro t c hc
    obtain ⟨c₀, hc₀, rfl⟩ := Option.mem_map.mp hc
    obtain ⟨hinside, hsleep⟩ := hsound t c₀ hc₀
    have hok := h.calls t c₀ hc₀
    cases c₀ with
    | poolGet g => trivial
    | malloc g a =>
      intro ix hx
      exact hok ix (hsema ix a hx).2
    | copyin v n => exact (haimed v hok hinside).1
    | setall v n => exact (haimed v hok hinside).1
    | semuWait v sops applied rest w =>
      obtain ⟨haim, hin, hwait⟩ := hok
      obtain ⟨haim', hitem⟩ := haimed v haim hinside
      refine ⟨haim', ?_, hwait⟩
      change ∀ sop ∈ sops, sop.sem_num.toNat < ((s.remove u junk).items v.semaptr).sem_nsems
      rwa [hitem]
    | asleep v sops d b n z w =>
      refine ⟨?_, hok.2⟩
      by_cases hix : v.ix = u.ix
      · refine .inr ⟨by simp [Target.lose, hix], .inl ?_⟩
        change (s.remove u junk).sema v.ix = none
        simp [State.remove, hix]
      · obtain haim | ⟨hgone, hlost⟩ := hok.1
        · exact .inl (haimed v haim hix).1
        · refine .inr ⟨by simp [Target.lose, hgone], ?_⟩
          by_contra hboth
          push Not at hboth
          have hseq : ((s.remove u junk).items v.semaptr).seq = v.seq := hboth.2
          refine hsleep v rfl ⟨hgone, hboth.1, ?_⟩
          rw [← hseq]
          by_cases hptr : v.semaptr = u.semaptr
          · simp [State.remove, hptr]
          · simp [State.remove, State.seqs, hptr]
  · rintro t t' a ⟨c, hc, hold⟩ ⟨c', hc', hold'⟩
    obtain ⟨c₀, hc₀, rfl⟩ := Option.mem_map.mp hc
    obtain ⟨c₀', hc₀', rfl⟩ := Option.mem_map.mp hc'
    exact h.held t t' a ⟨c₀, hc₀, (lose_holds _ a).mp hold⟩ ⟨c₀', hc₀', (lose_holds _ a).mp hold'⟩

end Inv

section Runs

variable {info : Seminfo} {p_p : τ → ρ} {s : State τ ρ}

omit [DecidableEq τ] [DecidableEq ρ] in
theorem findKey_congr {s' : State τ ρ} (hsema : s'.sema = s.sema)
    (hkey : ∀ a, (s'.items a).key = (s.items a).key) (key : BitVec 32) :
    s'.findKey info key = s.findKey info key := by
  simp only [State.findKey, hsema, hkey]

omit [DecidableEq τ] [DecidableEq ρ] in
theorem semgetFind_cases (s : State τ ρ) (g : Semget) (item : Option ℕ) (ipcperm : Option Errno) :
    (semgetFind info s g item ipcperm).1 = s ∨
    ∃ a k, item = some a ∧ s.newSlot info g = some k ∧
      (semgetFind info s g item ipcperm).1 = s.create g a k := by
  unfold semgetFind State.newSlot
  cases s.findKey info g.key with
  | some ix =>
    left
    cases ipcperm with
    | some e => rfl
    | none =>
      dsimp only
      split
      · rfl
      · split_ifs <;> rfl
  | none =>
    cases item with
    | none => exact .inl rfl
    | some a =>
      cases hfree : (List.range info.semmni).find? fun ix => s.sema ix = none with
      | none => exact .inl rfl
      | some k => exact .inr ⟨a, k, rfl, rfl, rfl⟩

omit [DecidableEq τ] [DecidableEq ρ] in
theorem newSlot_free {g : Semget} {k : ℕ} (h : s.newSlot info g = some k) :
    k < info.semmni ∧ s.sema k = none := by
  unfold State.newSlot at h
  split at h
  · cases h
  · refine ⟨?_, by simpa using List.find?_some h⟩
    simpa using List.mem_of_find?_eq_some h

omit [DecidableEq ρ] in
theorem Inv.semgetBase (h : Inv info s) {t : τ} {g : Semget} {a : ℕ}
    (hcall : s.calls t = some (.malloc g a)) (b : ℕ) (ipcperm : Option Errno)
    (hsound : ∀ k ∈ s.newSlot info g, ∀ t', ∀ c ∈ s.calls t', ∀ v ∈ c.sleepsOn,
      ¬v.Deceived (Function.update s.sema k (some a))
        (Function.update s.seqs a ((s.semseqs k + 1) % 32768))) :
    Inv info (semgetFind info ((s.newBase a b).setCall t none) g (some a) ipcperm).1 := by
  have hslot : ∀ ix, s.sema ix ≠ some a := h.calls t _ hcall
  have hinv : Inv info ((s.newBase a b).setCall t none) := (h.newBase hslot b).idle t
  obtain hsame | ⟨a', k, heq, hnew, hcreate⟩ :=
    semgetFind_cases ((s.newBase a b).setCall t none) g (some a) ipcperm
  · rw [hsame]
    exact hinv
  · obtain rfl := Option.some.inj heq
    rw [hcreate]
    have hkeys : ((s.newBase a b).setCall t none).newSlot info g = s.newSlot info g := by
      have hkey : ((s.newBase a b).setCall t none).findKey info g.key = s.findKey info g.key := by
        refine findKey_congr ?_ ?_ g.key
        · rfl
        · intro x
          by_cases hx : x = a <;> simp [State.newBase, State.setCall, hx]
      simp only [State.newSlot, hkey]
      rfl
    have hseqs : ((s.newBase a b).setCall t none).seqs = s.seqs := by
      funext x
      by_cases hx : x = a <;> simp [State.newBase, State.setCall, State.seqs, hx]
    obtain ⟨hk, hnone⟩ := newSlot_free hnew
    refine hinv.create g hslot ((h.newBase hslot b).release hcall) hk hnone ?_
    intro t' c hc v hv
    rw [hseqs]
    by_cases ht : t' = t
    · subst ht
      simp [State.setCall] at hc
    · simp only [State.setCall, Function.update_of_ne ht] at hc
      exact hsound k (by rw [← hkeys]; exact hnew) t' c hc v hv

theorem Inv.step (h : Inv info s) {t : τ} {a : Act} {s' : State τ ρ} {o : Outcome}
    (hal : Allowed info p_p s t a) (hsound : Sound info s t a)
    (hex : exec info p_p s t a = some (s', o)) : Inv info s' := by
  unfold exec at hex
  split at hex
  case h_1 g ipcperm hcall =>
    have hs : (semgetStart info s t g ipcperm).1 = s' := congrArg Prod.fst (Option.some.inj hex)
    rw [← hs, semgetStart]
    split_ifs
    · split
      · exact h
      · exact h.enter t trivial fun a => id
    · obtain hsame | ⟨a, k, hnone, -, -⟩ := semgetFind_cases s g none ipcperm
      · rw [hsame]
        exact h
      · cases hnone
  case h_2 g a hcall =>
    obtain ⟨rfl, -⟩ := Prod.mk.inj (Option.some.inj hex)
    exact h.item t g hal.1 hal.2
  case h_3 g a b ipcperm hcall =>
    have hs := congrArg Prod.fst (Option.some.inj hex)
    dsimp only at hs
    rw [← hs]
    exact h.semgetBase hcall b ipcperm (hsound _ hcall _ rfl)
  case h_4 semid nsops ipcperm hcall =>
    have hs : (semopCheck info s t semid nsops ipcperm).1 = s' :=
      congrArg Prod.fst (Option.some.inj hex)
    rw [← hs, semopCheck]
    cases hu : s.lookup info semid with
    | none => exact h
    | some u =>
      cases ipcperm with
      | some e => exact h
      | none =>
        dsimp only
        split_ifs
        · exact h
        · exact h
        · exact h.enter t (lookup_aimed hu).1 fun a => id
  case h_5 u n e mem hcall =>
    obtain ⟨rfl, -⟩ := Prod.mk.inj (Option.some.inj hex)
    exact h.idle t
  case h_6 u n sops mem hcall =>
    have hs := congrArg Prod.fst (Option.some.inj hex)
    dsimp only at hs
    rw [← hs]
    exact h.semopPass t (h.calls t _ hcall) hsound (p_p t) mem 0
  case h_7 u sops d base num zero woken intr mem hcall =>
    have hs := congrArg Prod.fst (Option.some.inj hex)
    dsimp only at hs
    rw [← hs]
    obtain ⟨haim, hshort⟩ := h.calls t _ hcall
    exact h.semopWake t haim hshort (p_p t) mem d base num zero intr
  case h_8 u sops applied rest wake hcall =>
    have hs := congrArg Prod.fst (Option.some.inj hex)
    dsimp only at hs
    rw [← hs]
    obtain ⟨haim, hin, hwait⟩ := h.calls t _ hcall
    obtain ⟨us₀, hlist, hload⟩ := Loaded.waited h.undos (p_p t) hwait.rest
    exact h.semopEnd t haim hin hwait.short hwait.count wake hwait.split hwait.applied hlist hload
  case h_9 semid semnum val ipcperm hcall =>
    have hs := congrArg Prod.fst (Option.some.inj hex)
    dsimp only at hs
    rw [← hs]
    exact h.semctlSetval semid semnum val ipcperm
  case h_10 semid ipcperm hcall =>
    have hs : (semctlSetall info s t semid ipcperm).1 = s' :=
      congrArg Prod.fst (Option.some.inj hex)
    rw [← hs, semctlSetall]
    cases hu : s.lookup info semid with
    | none => exact h
    | some u =>
      cases ipcperm with
      | some e => exact h
      | none => exact h.enter t (lookup_aimed hu).1 fun a => id
  case h_11 u nsems vals hcall =>
    have hs := congrArg Prod.fst (Option.some.inj hex)
    dsimp only at hs
    rw [← hs]
    exact h.setallVals t u nsems vals
  case h_12 semid junk ipcperm hcall =>
    have hs : (semctlRmid info s semid junk ipcperm).1 = s' :=
      congrArg Prod.fst (Option.some.inj hex)
    rw [← hs, semctlRmid]
    cases hu : s.lookup info semid with
    | none => exact h
    | some u =>
      cases ipcperm with
      | some e => exact h
      | none => exact (h.remove (lookup_aimed hu).1 junk (hsound u hu)).wakeup u.ix
  case h_13 hcall =>
    have hs := congrArg Prod.fst (Option.some.inj hex)
    dsimp only at hs
    rw [← hs]
    exact (h.semexit (p_p t)).1
  case h_14 => cases hex

/-- In runs that meet the condition, a sleeper whose set has been removed finds out and
touches nothing, every undo entry is for a semaphore of an existing set, and no exit of a
process panics. -/
theorem semaphore_removal {tr : List (Event τ ρ)}
    (h : Runs info p_p (Sound info) (seminit τ ρ) tr s) :
    (∀ ev ∈ tr, ∀ intr mem, ev.act = .wake intr mem → ∀ c ∈ ev.pre.calls ev.thread,
      ∀ u ∈ c.sleepsOn, u.gone = true →
        ev.out = .failed .EIDRM ∧ ev.post = ev.pre.setCall ev.thread none) ∧
    (∀ su ∈ s.undos.semu_list, ∀ e ∈ su.un_ent, ∃ a, s.sema e.un_id = some a ∧
      0 ≤ e.un_num.toInt ∧ e.un_num.toInt < (s.items a).sem_nsems) ∧
    ∀ pr, (semexit s pr).2 = .ok 0 := by
  obtain ⟨hinv, hevents⟩ := h.invariant
    (fun _ _ _ _ _ hi hal hc hex => Inv.step hi hal hc hex) (inv_seminit info)
  refine ⟨?_, ?_, fun pr => (hinv.semexit pr).2⟩
  · intro ev hev intr mem hact c hc u hu hgone
    obtain ⟨hpre, -, -, -, hex⟩ := hevents ev hev
    cases c with
    | asleep v sops d b n z w =>
      obtain rfl : v = u := by simpa [Call.sleepsOn] using hu
      obtain ⟨haim, -⟩ := hpre.calls ev.thread _ hc
      obtain ⟨hlive, -⟩ | ⟨-, hlost⟩ := haim
      · rw [hgone] at hlive
        cases hlive
      · have hcall : ev.pre.calls ev.thread = some (.asleep v sops d b n z w) := hc
        simp only [exec, hcall, hact, semopWake, if_pos hlost, Option.some.injEq,
          Prod.mk.injEq] at hex
        exact ⟨hex.2.symm, hex.1.symm⟩
    | _ => simp [Call.sleepsOn] at hu
  · intro su hsu e he
    obtain ⟨a, hslot, hnum, hshort⟩ := hinv.entries su hsu e he
    have hint := toInt_of_short hshort
    exact ⟨a, hslot, by omega, by omega⟩

end Runs

/-- The limits of a kernel as configured by default. -/
def defaultInfo : Seminfo := ⟨10, 60, 30, 60, 100, 32767⟩

/-- What the pool and `free` leave in a freed set with its array. -/
def poison : Semid × (ℕ → Sem) := (⟨0xdeadbeef#32, 0xbeef, 0, 0⟩, fun _ => ⟨0, 0, 0⟩)

theorem neZero_procs : NeZero 3 := inferInstance

/-- Process 1 sleeps on a set of process 0, which removes it and creates another one in the
same slot and at the same address. -/
def removalActs : List (Fin 3 × Act) :=
  haveI := neZero_procs
  [(0, .semget ⟨IPC_PRIVATE, 2, false, false⟩ none), (0, .item 0), (0, .base 0 none),
    (1, .semop 65536#32 1 none), (1, .sops (.ok [⟨1#16, -1#16, false, true⟩]) true),
    (0, .rmid 65536#32 poison none),
    (0, .semget ⟨IPC_PRIVATE, 1, false, false⟩ none), (0, .item 0), (0, .base 1 none),
    (1, .wake false true)]

theorem semaphore_removal_sleeper :
    ∃ tr s, Runs defaultInfo id (Sound defaultInfo) (seminit (Fin 3) (Fin 3)) tr s ∧
      (∃ ev ∈ tr, ev.out = .failed .EIDRM) ∧ ∀ pr, (semexit s pr).2 = .ok 0 := by
  have hsome : (replay (Sound defaultInfo) defaultInfo id (seminit (Fin 3) (Fin 3))
      removalActs).isSome := by decide +kernel
  obtain ⟨r, hr⟩ := Option.isSome_iff_exists.mp hsome
  have hlast : ∀ r ∈ replay (Sound defaultInfo) defaultInfo id (seminit (Fin 3) (Fin 3))
      removalActs, ∃ ev ∈ r.1, ev.out = .failed .EIDRM := by decide +kernel
  have hruns := runs_of_replay (Sound defaultInfo) hr
  exact ⟨r.1, r.2, hruns, hlast r hr, (semaphore_removal hruns).2.2⟩

/-- As before, but the new set in the slot was preallocated before the removal, so that the
address of the removed set goes to another new set, which happens to have the sequence
number of the removed one. Process 1 works on that set under the slot of the other. -/
def deceivingActs : List (Fin 3 × Act) :=
  haveI := neZero_procs
  [(0, .semget ⟨IPC_PRIVATE, 2, false, false⟩ none), (0, .item 0), (0, .base 0 none),
    (1, .semop 65536#32 1 none), (1, .sops (.ok [⟨1#16, -1#16, false, true⟩]) true),
    (2, .semget ⟨IPC_PRIVATE, 1, false, false⟩ none), (2, .item 1),
    (0, .rmid 65536#32 poison none), (2, .base 1 none),
    (0, .semget ⟨IPC_PRIVATE, 2, false, false⟩ none), (0, .item 0), (0, .base 2 none),
    (0, .setval 65537#32 1 1 none), (1, .wake false true), (1, .exit)]

theorem semexit_panics :
    ∃ tr s, Runs defaultInfo id (fun _ _ _ => True) (seminit (Fin 3) (Fin 3)) tr s ∧
      (∃ ev ∈ tr, ev.thread = 1 ∧ (∃ c ∈ ev.pre.calls 1, ∃ u ∈ c.sleepsOn, u.gone = true) ∧
        ev.out = .ok 0) ∧
      ∃ ev ∈ tr, ev.out = .panic "semexit - semnum out of range" := by
  have hsome : (replay (fun _ _ _ => True) defaultInfo id (seminit (Fin 3) (Fin 3))
      deceivingActs).isSome := by decide +kernel
  obtain ⟨r, hr⟩ := Option.isSome_iff_exists.mp hsome
  have hbad : ∀ r ∈ replay (fun _ _ _ => True) defaultInfo id (seminit (Fin 3) (Fin 3))
      deceivingActs, (∃ ev ∈ r.1, ev.thread = 1 ∧
        (∃ c ∈ ev.pre.calls 1, ∃ u ∈ c.sleepsOn, u.gone = true) ∧ ev.out = .ok 0) ∧
      ∃ ev ∈ r.1, ev.out = .panic "semexit - semnum out of range" := by decide +kernel
  exact ⟨r.1, r.2, runs_of_replay _ hr, hbad r hr⟩

end OpenbsdKernel.SysvSem
