import OpenbsdKernel.Kern.Sem.Errors

/-!
# The account kept in the undo structures

The undo value of a process for a semaphore is minus the sum of its operations with
`SEM_UNDO` since the semaphore was last set. The condition leaves out what breaks the
account: a sum that does not fit a `short`, a structure that is freed in the middle of a
call, whose later operations are then accounted for in freed memory, and the clearing of a
semaphore whose entry does not come first among those of its set.
-/
namespace OpenbsdKernel.SysvSem

variable {τ ρ : Type*} [DecidableEq τ] [DecidableEq ρ]

/-- The sum of the operations to account for on semaphore `num`. -/
def undoSum (sops : List Sembuf) (num : ℤ) : ℤ :=
  ((sops.filter fun sop => sop.Undoes ∧ (sop.sem_num.toNat : ℤ) = num).map fun sop =>
    sop.sem_op.toInt).sum

/-- What `pr` owes semaphore `num` of the set in slot `ix` after a step, if it owed `x`
before. -/
def Event.account (p_p : τ → ρ) (pr : ρ) (ix : ℕ) (num : ℤ) (ev : Event τ ρ) (x : ℤ) : ℤ :=
  let commit (u : Target) (sops : List Sembuf) : ℤ :=
    if p_p ev.thread = pr ∧ u.ix = ix then x - undoSum sops num else x
  match ev.out with
  | .ok _ =>
    match ev.act, ev.pre.calls ev.thread with
    | .sops (.ok sops) _, some (.copyin u _) => commit u sops
    | .wake _ _, some (.asleep u sops _ _ _ _ _) => commit u sops
    | .semu, some (.semuWait u sops _ _ _) => commit u sops
    | .setval semid semnum _ _, _ => if IPCID_TO_IX semid = ix ∧ semnum = num then 0 else x
    | .vals _, some (.setall u _) => if u.ix = ix then 0 else x
    | .rmid semid _ _, _ => if IPCID_TO_IX semid = ix then 0 else x
    | .exit, _ => if p_p ev.thread = pr then 0 else x
    | _, _ => x
  | _ => x

example (p_p : τ → ρ) (pr : ρ) (ix : ℕ) (num x : ℤ) (ev : Event τ ρ) (h : ev.out = .crash) :
    ev.account p_p pr ix num x = x := by
  simp [Event.account, h]

/-- What `pr` owes semaphore `num` of the set in slot `ix` after a run. -/
def owed (p_p : τ → ρ) (pr : ρ) (ix : ℕ) (num : ℤ) (tr : List (Event τ ρ)) : ℤ :=
  tr.foldl (fun x ev => ev.account p_p pr ix num x) 0

/-- The operations can be accounted for: the values fit a `short`, and while operations to
account for remain, some value is not 0. -/
structure Clean (us : Undos ρ) (pr : ρ) (ix : ℕ) (sops : List Sembuf) : Prop where
  fits : ∀ sop ∈ sops, sop.Undoes →
    -32768 ≤ (us.value pr ix sop.sem_num.toNat).toInt - undoSum sops sop.sem_num.toNat ∧
      (us.value pr ix sop.sem_num.toNat).toInt - undoSum sops sop.sem_num.toNat ≤ 32767
  survives : ∀ k < sops.length, (∃ sop ∈ sops.take k, sop.Undoes) → (∃ sop ∈ sops.drop k, sop.Undoes) →
    ∃ key ∈ (us.entries pr).map (fun e => (e.un_id, e.un_num.toInt)) ++
        sops.map (fun sop => (ix, (sop.sem_num.toNat : ℤ))),
      us.value pr key.1 key.2 - undoTotal ix (sops.take k) key.1 key.2 ≠ 0

instance (us : Undos ρ) (pr : ρ) (ix : ℕ) (sops : List Sembuf) : Decidable (Clean us pr ix sops) :=
  decidable_of_iff (_ ∧ _) ⟨fun h => ⟨h.1, h.2⟩, fun h => ⟨h.1, h.2⟩⟩

/-- The call, about to do its operations `sops` or to go on after a wait for memory, can
account for them if they can be done. -/
def Call.Fair (s : State τ ρ) (pr : ρ) (sops : List Sembuf) : Call → Prop
  | .copyin u _ => Doable (s.items u.semaptr).sem_nsems (s.sems u.semaptr) sops →
      Clean s.undos pr u.ix sops
  | .asleep u sops _ _ _ _ _ => Doable (s.items u.semaptr).sem_nsems (s.sems u.semaptr) sops →
      Clean s.undos pr u.ix sops
  | .semuWait u _ _ rest _ => Clean s.undos pr u.ix rest
  | _ => True

/-- The entry for a semaphore, if there is one, comes first among those of its set. -/
def First (us : Undos ρ) (ix : ℕ) (num : ℤ) : Prop :=
  ∀ su ∈ us.semu_list, (∃ e ∈ su.un_ent, e.IsFor ix num) →
    ∀ e ∈ su.un_ent.find? fun e => e.un_id = ix, e.IsFor ix num

/-- The condition for the account to be kept. -/
def Accounted (info : Seminfo) (p_p : τ → ρ) (s : State τ ρ) (t : τ) (a : Act) : Prop :=
  Sound info s t a ∧
    match a with
    | .sops (.ok sops) _ => ∀ c ∈ s.calls t, c.Fair s (p_p t) sops
    | .wake false _ => ∀ c ∈ s.calls t, c.Fair s (p_p t) []
    | .semu => ∀ c ∈ s.calls t, c.Fair s (p_p t) []
    | .setval semid semnum _ none => First s.undos (IPCID_TO_IX semid) semnum
    | _ => True

instance (s : State τ ρ) (pr : ρ) (sops : List Sembuf) : DecidablePred (Call.Fair s pr sops)
  | .copyin _ _ => inferInstanceAs (Decidable (_ → Clean _ _ _ _))
  | .asleep _ _ _ _ _ _ _ => inferInstanceAs (Decidable (_ → Clean _ _ _ _))
  | .semuWait _ _ _ _ _ => inferInstanceAs (Decidable (Clean _ _ _ _))
  | .poolGet _ | .malloc .. | .setall .. => isTrue trivial

instance (us : Undos ρ) (ix : ℕ) (num : ℤ) : Decidable (First us ix num) :=
  inferInstanceAs (Decidable (∀ su ∈ us.semu_list, (∃ e ∈ su.un_ent, e.IsFor ix num) →
    ∀ e ∈ su.un_ent.find? fun e => e.un_id = ix, e.IsFor ix num))

instance [Fintype τ] (info : Seminfo) (p_p : τ → ρ) (s : State τ ρ) (t : τ) :
    DecidablePred (Accounted info p_p s t)
  | .sops (.ok sops) _ => inferInstanceAs (Decidable (_ ∧ ∀ c ∈ s.calls t, c.Fair s (p_p t) sops))
  | .wake false _ | .semu => inferInstanceAs (Decidable (_ ∧ ∀ c ∈ s.calls t, c.Fair s (p_p t) []))
  | .setval semid semnum _ none =>
    inferInstanceAs (Decidable (_ ∧ First s.undos (IPCID_TO_IX semid) semnum))
  | .semget .. | .item _ | .base .. | .semop .. | .sops (.error _) _ | .wake true _ |
    .setval _ _ _ (some _) | .setall .. | .vals _ | .rmid .. | .exit =>
    inferInstanceAs (Decidable (_ ∧ True))

theorem undoTotal_self (ix : ℕ) (sops : List Sembuf) (num : ℤ) :
    undoTotal ix sops ix num = BitVec.ofInt 16 (undoSum sops num) := by
  induction sops with
  | nil => rfl
  | cons sop sops ih =>
    by_cases hop : sop.Undoes
    · rw [undoTotal_cons_of_pos ix hop, ih]
      by_cases hnum : (sop.sem_num.toNat : ℤ) = num
      · simp [undoSum, hop, hnum, single, BitVec.ofInt_add]
      · simp [undoSum, hop, hnum, single]
    · rw [undoTotal_cons_of_neg ix hop, ih]
      simp [undoSum, hop]

theorem undoTotal_of_ne {ix i : ℕ} (h : ix ≠ i) (sops : List Sembuf) (num : ℤ) :
    undoTotal ix sops i num = 0 := by
  induction sops with
  | nil => rfl
  | cons sop sops ih =>
    by_cases hop : sop.Undoes
    · rw [undoTotal_cons_of_pos ix hop, ih]
      simp [single, h]
    · rw [undoTotal_cons_of_neg ix hop, ih]

theorem undoSum_eq_zero {sops : List Sembuf} {num : ℤ}
    (h : ∀ sop ∈ sops, sop.Undoes → (sop.sem_num.toNat : ℤ) ≠ num) : undoSum sops num = 0 := by
  have hnil : sops.filter (fun sop => sop.Undoes ∧ (sop.sem_num.toNat : ℤ) = num) = [] := by
    rw [List.filter_eq_nil_iff]
    intro sop hsop hboth
    have hboth := of_decide_eq_true hboth
    exact h sop hsop hboth.1 hboth.2
  rw [undoSum, hnil]
  rfl

theorem Clean.notEmptied {us : Undos ρ} {pr : ρ} {ix : ℕ} {sops : List Sembuf}
    (h : Clean us pr ix sops) : NotEmptied (us.value pr) ix sops := by
  rintro a b rfl ha ⟨x, hx, hop⟩
  have htake : (a ++ b).take a.length = a := List.take_left
  have hdrop : (a ++ b).drop a.length = b := List.drop_left
  have hlt : a.length < (a ++ b).length := by
    have hpos := List.length_pos_of_mem hx
    rw [List.length_append]
    omega
  have hkey := h.survives a.length hlt
  rw [htake, hdrop] at hkey
  obtain ⟨key, -, hne⟩ := hkey ha ⟨x, hx, hop⟩
  exact ⟨key.1, key.2, hne⟩

theorem Clean.toInt {us us' : Undos ρ} {pr : ρ} {ix : ℕ} {sops : List Sembuf}
    (h : Clean us pr ix sops)
    (hval : ∀ i n, us'.value pr i n = us.value pr i n - undoTotal ix sops i n) (i : ℕ) (n : ℤ) :
    (us'.value pr i n).toInt =
      (us.value pr i n).toInt - if ix = i then undoSum sops n else 0 := by
  rw [hval]
  by_cases hi : ix = i
  · subst hi
    rw [if_pos rfl, undoTotal_self]
    by_cases hn : ∃ sop ∈ sops, sop.Undoes ∧ (sop.sem_num.toNat : ℤ) = n
    · obtain ⟨sop, hsop, hop, rfl⟩ := hn
      obtain ⟨hlo, hhi⟩ := h.fits sop hsop hop
      rw [BitVec.toInt_sub, BitVec.toInt_ofInt, Int.sub_bmod_bmod]
      exact Int.bmod_eq_of_le (by simpa using hlo) (by simp; omega)
    · push Not at hn
      rw [undoSum_eq_zero hn]
      simp
  · rw [if_neg hi, undoTotal_of_ne hi]
    simp

theorem clear_set_value {us : Undos ρ} (h : us.Good) (id : ℕ) (pr : ρ) (i : ℕ) (n : ℤ) :
    (semundoClear us id none).value pr i n = if id = i then 0 else us.value pr i n := by
  rw [Undos.value, Undos.value, semundoClear_entries h.procs,
    entValue_perm (clearEntries_none id _ [] (us.entries pr) le_rfl), List.nil_append]
  induction us.entries pr with
  | nil => simp
  | cons e ent ih =>
    by_cases hid : e.un_id = id
    · rw [List.filter_cons_of_neg (by simpa using hid), ih, entValue_cons, hid]
      split_ifs with hi
      · rfl
      · simp [single, hi]
    · rw [List.filter_cons_of_pos (by simpa using hid), entValue_cons, ih, entValue_cons]
      split_ifs with hi
      · subst hi
        simp [single, hid]
      · rfl

theorem clear_entries {us : Undos ρ} (h : us.Good) {id : ℕ} {num : ℤ} (hfirst : First us id num)
    (pr : ρ) :
    ((∀ e ∈ us.entries pr, ¬e.IsFor id num) ∧
      (semundoClear us id (some num)).entries pr = us.entries pr) ∨
    ∃ e, e.IsFor id num ∧
      (us.entries pr).Perm (e :: (semundoClear us id (some num)).entries pr) := by
  rw [semundoClear_entries h.procs]
  obtain ⟨hsame, hstop⟩ | ⟨pre, e, post, hsplit, hfor, hperm⟩ :=
    clearEntries_some id _ num [] (us.entries pr) le_rfl
  · left
    refine ⟨?_, hsame⟩
    obtain hnone | ⟨x, hx, hfind, hxfor⟩ := hstop
    · intro e he hfor
      exact hnone e he hfor.1
    · intro e he hfor
      have hhas : us.Has pr := by
        by_contra hno
        rw [Undos.entries_of_not_has hno] at hx
        cases hx
      obtain ⟨su, hsu, -, heq⟩ := hhas.entries
      rw [heq] at he hfind
      exact hxfor (hfirst su hsu ⟨e, he, hfor⟩ x hfind)
  · right
    refine ⟨e, hfor, ?_⟩
    rw [hsplit] at hperm ⊢
    exact List.perm_middle.trans (hperm.symm.cons e)

theorem clear_one_value {us : Undos ρ} (h : us.Good) {id : ℕ} {num : ℤ} (hfirst : First us id num)
    (pr : ρ) (i : ℕ) (n : ℤ) :
    (semundoClear us id (some num)).value pr i n =
      if id = i ∧ num = n then 0 else us.value pr i n := by
  rw [Undos.value, Undos.value]
  obtain ⟨hnone, heq⟩ | ⟨e, hfor, hperm⟩ := clear_entries h hfirst pr
  · rw [heq]
    split_ifs with hkey
    · obtain ⟨rfl, rfl⟩ := hkey
      exact entValue_of_forall_not hnone
    · rfl
  · have hgood := (h.entries pr).perm hperm
    split_ifs with hkey
    · obtain ⟨rfl, rfl⟩ := hkey
      have hself := hgood.entValue_of_mem List.mem_cons_self
      rw [hfor.1, hfor.2, entValue_cons, hfor.1, hfor.2] at hself
      simpa [single] using hself
    · rw [entValue_perm hperm, entValue_cons, hfor.1, hfor.2]
      simp [single, hkey]

section Steps

variable {info : Seminfo} {p_p : τ → ρ} {s : State τ ρ} {t : τ}

theorem steady_of_none {v₀ : ℕ → ℤ → BitVec 16} {ix : ℕ} {applied : List Sembuf}
    (h : ∀ sop ∈ applied, ¬sop.Undoes) : Steady v₀ ix applied := by
  induction applied with
  | nil => trivial
  | cons sop applied ih =>
    refine ⟨ih fun x hx => h x (List.mem_cons_of_mem sop hx), ?_⟩
    intro hop
    exact absurd hop (h sop List.mem_cons_self)

/-- The end of `semop` succeeds with the undo processing, or leaves the undo values alone. -/
theorem semopEnd_value {pr : ρ} {mem : Bool} {u : Target} {sops applied rest : List Sembuf}
    {wake : Bool} {us₀ us : Undos ρ} {suptr : Suptr} (hlist : us₀.semu_list = s.undos.semu_list)
    (hload : Loaded us₀ us pr suptr rest) (hshort : Short (rest ++ applied))
    (hcount : undoCount rest ≤ SEMUME) (hnone : ∀ sop ∈ applied, ¬sop.Undoes) {s' : State τ ρ}
    {o : Outcome}
    (h : semopEnd s t u sops wake (applyUndos info pr mem u.ix applied rest us suptr) = (s', o)) :
    (o = .ok 0 ∧ applyUndos info pr mem u.ix applied rest us suptr = .ok s'.undos) ∨
    ((∀ v, o ≠ .ok v) ∧ ∀ q i n, s'.undos.value q i n = s.undos.value q i n) := by
  have hentries : ∀ us' : Undos ρ, us'.semu_list = s.undos.semu_list →
      ∀ q i n, us'.value q i n = s.undos.value q i n := by
    intro us' heq q i n
    rw [Undos.value, Undos.value, Undos.entries, Undos.entries, heq]
  cases hr : applyUndos info pr mem u.ix applied rest us suptr with
  | ok us' =>
    rw [hr] at h
    obtain ⟨rfl, rfl⟩ := Prod.mk.inj h
    left
    refine ⟨rfl, ?_⟩
    split_ifs <;> rfl
  | failed e us' =>
    have hkeeps := applyUndos_keeps info pr mem u.ix applied rest (.inl hload) hshort
      (by rw [hr]; rfl)
    have hvalue := applyUndos_failed_value info pr mem u.ix applied rest us₀
      (.inl ⟨hload, hcount, steady_of_none hnone, fun i n => by
        rw [undoTotal_eq_zero hnone, sub_zero]⟩) hshort hr
    rw [hr] at h
    obtain ⟨rfl, rfl⟩ := Prod.mk.inj h
    refine .inr ⟨by simp, ?_⟩
    intro q i n
    rw [← hentries us₀ hlist]
    by_cases hq : q = pr
    · subst hq
      exact hvalue i n
    · exact congrFun (congrFun (hkeeps.others q hq) i) n
  | wait us' applied' rest' =>
    obtain ⟨-, -, -, hsame⟩ := applyUndos_wait hload
      (fun sop hsop => hshort sop (List.mem_append_left _ hsop)) hr
    rw [hr] at h
    obtain ⟨rfl, rfl⟩ := Prod.mk.inj h
    exact .inr ⟨by simp, hentries us' (hsame.trans hlist)⟩
  | panic =>
    rw [hr] at h
    obtain ⟨rfl, rfl⟩ := Prod.mk.inj h
    exact .inr ⟨by simp, fun _ _ _ => rfl⟩
  | crash =>
    rw [hr] at h
    obtain ⟨rfl, rfl⟩ := Prod.mk.inj h
    exact .inr ⟨by simp, fun _ _ _ => rfl⟩

/-- The values of `pr` after its operations `sops` on the set in slot `ix`; those of the
other processes are the same. -/
def Committed (us us' : Undos ρ) (pr : ρ) (ix : ℕ) (sops : List Sembuf) : Prop :=
  ∀ q i n, (us'.value q i n).toInt =
    (us.value q i n).toInt - if pr = q ∧ ix = i then undoSum sops n else 0

theorem applyUndos_committed {pr : ρ} {mem : Bool} {ix : ℕ} {applied rest : List Sembuf}
    {us₀ us us' : Undos ρ} {suptr : Suptr} (hload : Loaded us₀ us pr suptr rest)
    (hshort : Short (rest ++ applied)) (hclean : Clean us₀ pr ix rest)
    (h : applyUndos info pr mem ix applied rest us suptr = .ok us') :
    Committed us₀ us' pr ix rest := by
  intro q i n
  by_cases hq : pr = q
  · subst hq
    have hvalue := applyUndos_ok_value info pr mem ix applied rest hload
      (fun sop hsop => hshort sop (List.mem_append_left _ hsop)) hclean.notEmptied h
    rw [hclean.toInt hvalue]
    simp
  · have hkeeps := applyUndos_keeps info pr mem ix applied rest (.inl hload) hshort
      (by rw [h]; rfl)
    rw [hkeeps.others q (fun h => hq h.symm)]
    simp [hq]

theorem semopPass_value {pr : ρ} {mem : Bool} {u : Target} {sops : List Sembuf} {d : ℕ}
    (hgood : s.undos.Good) (hshort : Short sops) {s' : State τ ρ} {o : Outcome}
    (hclean : Doable (s.items u.semaptr).sem_nsems (s.sems u.semaptr) sops →
      Clean s.undos pr u.ix sops)
    (h : semopPass info pr mem s t u sops d = (s', o)) :
    (o = .ok 0 ∧ Committed s.undos s'.undos pr u.ix sops) ∨
    ((∀ v, o ≠ .ok v) ∧ ∀ q i n, s'.undos.value q i n = s.undos.value q i n) := by
  have hspec := semopPass_spec info pr mem s t u sops d
  rw [h] at hspec
  generalize hr : (s', o) = r at hspec
  cases hspec with
  | efbig =>
    obtain ⟨rfl, rfl⟩ := Prod.mk.inj hr
    exact .inr ⟨by simp, fun _ _ _ => rfl⟩
  | failed =>
    obtain ⟨rfl, rfl⟩ := Prod.mk.inj hr
    exact .inr ⟨by simp, fun _ _ _ => rfl⟩
  | asleep =>
    obtain ⟨rfl, rfl⟩ := Prod.mk.inj hr
    exact .inr ⟨by simp, fun _ _ _ => rfl⟩
  | through wake hdo hcount =>
    have hload : Loaded s.undos s.undos pr .null sops := ⟨hgood, .inl ⟨rfl, .inl rfl⟩⟩
    have hshort' : Short (sops ++ []) := by simpa using hshort
    obtain ⟨ho, hu⟩ | hsame := semopEnd_value (s := s.setSems u.semaptr _) rfl hload hshort' hcount
      (by simp) hr.symm
    · exact .inl ⟨ho, applyUndos_committed hload hshort' (hclean hdo) hu⟩
    · exact .inr hsame

/-- Minus the undo values is what the account says after a step, if it was before. -/
def StepAccounts (p_p : τ → ρ) (ev : Event τ ρ) : Prop :=
  ∀ pr ix num, (ev.post.undos.value pr ix num).toInt =
    ev.account p_p pr ix num (ev.pre.undos.value pr ix num).toInt

omit [DecidableEq τ] in
theorem account_of_not_ok {ev : Event τ ρ} (ho : ∀ v, ev.out ≠ .ok v)
    (h : ∀ q i n, ev.post.undos.value q i n = ev.pre.undos.value q i n) : StepAccounts p_p ev := by
  intro pr ix num
  rw [h, Event.account]
  split
  · rename_i v hv
    exact absurd hv (ho v)
  · rfl

omit [DecidableEq τ] in
theorem account_sops {sops : List Sembuf} {mem : Bool} {s' : State τ ρ} {o : Outcome} {u : Target}
    {n : ℕ} (hcall : s.calls t = some (.copyin u n))
    (h : (o = .ok 0 ∧ Committed s.undos s'.undos (p_p t) u.ix sops) ∨
      ((∀ v, o ≠ .ok v) ∧ ∀ q i n, s'.undos.value q i n = s.undos.value q i n)) :
    StepAccounts p_p ⟨s, t, .sops (.ok sops) mem, o, s'⟩ := by
  obtain ⟨rfl, hcom⟩ | ⟨ho, hsame⟩ := h
  · intro pr ix num
    simp only [Event.account, hcall, hcom pr ix num]
    split_ifs <;> simp
  · exact account_of_not_ok ho hsame

omit [DecidableEq τ] in
theorem account_wake {sops : List Sembuf} {intr mem : Bool} {s' : State τ ρ} {o : Outcome}
    {u : Target} {d base num : ℕ} {zero woken : Bool}
    (hcall : s.calls t = some (.asleep u sops d base num zero woken))
    (h : (o = .ok 0 ∧ Committed s.undos s'.undos (p_p t) u.ix sops) ∨
      ((∀ v, o ≠ .ok v) ∧ ∀ q i n, s'.undos.value q i n = s.undos.value q i n)) :
    StepAccounts p_p ⟨s, t, .wake intr mem, o, s'⟩ := by
  obtain ⟨rfl, hcom⟩ | ⟨ho, hsame⟩ := h
  · intro pr ix n
    simp only [Event.account, hcall, hcom pr ix n]
    split_ifs <;> simp
  · exact account_of_not_ok ho hsame

omit [DecidableEq τ] in
/-- A step on which the account does not depend leaves the undo values alone. -/
theorem account_same {ev : Event τ ρ} (hundos : ev.post.undos = ev.pre.undos)
    (hacc : ∀ pr ix num x, ev.account p_p pr ix num x = x) : StepAccounts p_p ev := by
  intro pr ix num
  rw [hundos, hacc]

theorem Undos.entries_congr {us us' : Undos ρ} (h : us'.semu_list = us.semu_list) (pr : ρ) :
    us'.entries pr = us.entries pr := by
  rw [Undos.entries, Undos.entries, h]

theorem Clean.congr {us us' : Undos ρ} (h : us'.semu_list = us.semu_list) {pr : ρ} {ix : ℕ}
    {sops : List Sembuf} (hc : Clean us pr ix sops) : Clean us' pr ix sops := by
  have hvalue : us'.value pr = us.value pr := by
    funext i n
    rw [Undos.value, Undos.value, Undos.entries_congr h]
  refine ⟨?_, ?_⟩
  · rw [hvalue]
    exact hc.fits
  · rw [hvalue, Undos.entries_congr h]
    exact hc.survives

theorem undoSum_append (a b : List Sembuf) (num : ℤ) :
    undoSum (a ++ b) num = undoSum a num + undoSum b num := by
  simp [undoSum]

theorem undoSum_of_none {sops : List Sembuf} (h : ∀ sop ∈ sops, ¬sop.Undoes) (num : ℤ) :
    undoSum sops num = 0 :=
  undoSum_eq_zero fun sop hsop hop => absurd hop (h sop hsop)

theorem account_semu (hinv : Inv info s) {s' : State τ ρ} {o : Outcome} {u : Target}
    {sops applied rest : List Sembuf} {wake : Bool}
    (hcall : s.calls t = some (.semuWait u sops applied rest wake))
    (hclean : Clean s.undos (p_p t) u.ix rest)
    (h : semopEnd s t u sops wake (applyUndos info (p_p t) true u.ix applied rest
      (semuAllocWaited (p_p t) s.undos) .live) = (s', o)) :
    StepAccounts p_p ⟨s, t, .semu, o, s'⟩ := by
  obtain ⟨-, -, hwait⟩ := hinv.calls t _ hcall
  obtain ⟨us₀, hlist, hload⟩ := Loaded.waited hinv.undos (p_p t) hwait.rest
  have hshort : Short (rest ++ applied) := fun sop hsop => hwait.short sop ((hwait.mem sop).mpr hsop)
  have hcount : undoCount rest ≤ SEMUME := by
    have hsub : undoCount sops = undoCount applied.reverse + undoCount rest := by
      rw [hwait.split, undoCount, List.countP_append]
      rfl
    have hle := hwait.count
    omega
  have hsum : ∀ num, undoSum sops num = undoSum rest num := by
    intro num
    rw [hwait.split, undoSum_append, undoSum_of_none, zero_add]
    simpa using hwait.applied
  obtain ⟨rfl, hu⟩ | ⟨ho, hsame⟩ := semopEnd_value hlist hload hshort hcount hwait.applied h
  · have hcom := applyUndos_committed hload hshort (hclean.congr hlist) hu
    intro pr ix num
    have hvalue : us₀.value pr ix num = s.undos.value pr ix num := by
      rw [Undos.value, Undos.value, Undos.entries_congr hlist]
    simp only [Event.account, hcall, hcom pr ix num, hsum, hvalue]
    split_ifs <;> simp
  · exact account_of_not_ok ho hsame

omit [DecidableEq τ] in
theorem account_exit (hinv : Inv info s) {s' : State τ ρ} {o : Outcome}
    (h : semexit s (p_p t) = (s', o)) : StepAccounts p_p ⟨s, t, .exit, o, s'⟩ := by
  have ho : o = .ok 0 := by
    have hsnd := (hinv.semexit (p_p t)).2
    rw [h] at hsnd
    exact hsnd
  subst ho
  have hundos : s'.undos.entries = (s.undos.drop (p_p t)).entries := by
    unfold semexit at h
    split_ifs at h with hhas
    · obtain ⟨s₁, hend, -, hsame⟩ := exitEntries_spec hinv (hinv.named_entries (p_p t))
      simp only [hend, Prod.mk.injEq] at h
      rw [← h.1, ← hsame]
    · obtain ⟨rfl, -⟩ := Prod.mk.inj h
      funext q
      rw [Undos.entries_drop]
      split_ifs with hq
      · rw [hq, Undos.entries_of_not_has hhas]
      · rfl
  intro pr ix num
  simp only [Event.account, Undos.value, hundos, Undos.entries_drop]
  by_cases hq : p_p t = pr
  · simp [hq]
  · simp [hq, Ne.symm hq]

omit [DecidableEq τ] in
theorem account_setval (hinv : Inv info s) {semid : BitVec 32} {semnum val : ℤ}
    {ipcperm : Option Errno} (hacc : Accounted info p_p s t (.setval semid semnum val ipcperm))
    {s' : State τ ρ} {o : Outcome} (h : semctlSetval info s semid semnum val ipcperm = (s', o)) :
    StepAccounts p_p ⟨s, t, .setval semid semnum val ipcperm, o, s'⟩ := by
  have hfail : ∀ e, (s, Outcome.failed e) = (s', o) →
      StepAccounts p_p ⟨s, t, .setval semid semnum val ipcperm, o, s'⟩ := by
    intro e heq
    obtain ⟨rfl, rfl⟩ := Prod.mk.inj heq
    exact account_of_not_ok (by simp) fun _ _ _ => rfl
  unfold semctlSetval at h
  cases hu : s.lookup info semid with
  | none =>
    rw [hu] at h
    exact hfail _ h
  | some u =>
    rw [hu] at h
    cases ipcperm with
    | some e => exact hfail _ h
    | none =>
      dsimp only at h
      split_ifs at h
      · exact hfail _ h
      · exact hfail _ h
      · obtain ⟨rfl, rfl⟩ := Prod.mk.inj h
        have hix := (lookup_aimed hu).2
        intro pr ix num
        simp only [Event.account, ← hix]
        have hfirst : First s.undos u.ix semnum := hix ▸ hacc.2
        change ((semundoClear s.undos u.ix (some semnum)).value pr ix num).toInt = _
        rw [clear_one_value hinv.undos hfirst]
        split_ifs <;> rfl

theorem account_vals (hinv : Inv info s) {u : Target} {nsems : ℕ}
    (hcall : s.calls t = some (.setall u nsems)) {vals : Except Errno (List (BitVec 16))}
    {s' : State τ ρ} {o : Outcome} (h : setallVals info s t u nsems vals = (s', o)) :
    StepAccounts p_p ⟨s, t, .vals vals, o, s'⟩ := by
  unfold setallVals at h
  cases vals with
  | error e =>
    obtain ⟨rfl, rfl⟩ := Prod.mk.inj h
    exact account_of_not_ok (by simp) fun _ _ _ => rfl
  | ok vals =>
    dsimp only at h
    split_ifs at h
    · obtain ⟨rfl, rfl⟩ := Prod.mk.inj h
      exact account_of_not_ok (by simp) fun _ _ _ => rfl
    · obtain ⟨rfl, rfl⟩ := Prod.mk.inj h
      exact account_of_not_ok (by simp) fun _ _ _ => rfl
    · obtain ⟨rfl, rfl⟩ := Prod.mk.inj h
      intro pr ix num
      simp only [Event.account, hcall]
      change ((semundoClear s.undos u.ix none).value pr ix num).toInt = _
      rw [clear_set_value hinv.undos]
      split_ifs <;> rfl

omit [DecidableEq τ] in
theorem account_rmid (hinv : Inv info s) {semid : BitVec 32} {junk : Semid × (ℕ → Sem)}
    {ipcperm : Option Errno} {s' : State τ ρ} {o : Outcome}
    (h : semctlRmid info s semid junk ipcperm = (s', o)) :
    StepAccounts p_p ⟨s, t, .rmid semid junk ipcperm, o, s'⟩ := by
  unfold semctlRmid at h
  cases hu : s.lookup info semid with
  | none =>
    rw [hu] at h
    obtain ⟨rfl, rfl⟩ := Prod.mk.inj h
    exact account_of_not_ok (by simp) fun _ _ _ => rfl
  | some u =>
    rw [hu] at h
    cases ipcperm with
    | some e =>
      obtain ⟨rfl, rfl⟩ := Prod.mk.inj h
      exact account_of_not_ok (by simp) fun _ _ _ => rfl
    | none =>
      obtain ⟨rfl, rfl⟩ := Prod.mk.inj h
      intro pr ix num
      simp only [Event.account, ← (lookup_aimed hu).2]
      change ((semundoClear s.undos u.ix none).value pr ix num).toInt = _
      rw [clear_set_value hinv.undos]
      split_ifs <;> rfl

theorem account_step (hinv : Inv info s) {a : Act} (hacc : Accounted info p_p s t a)
    {s' : State τ ρ} {o : Outcome} (hex : exec info p_p s t a = some (s', o)) :
    StepAccounts p_p ⟨s, t, a, o, s'⟩ := by
  unfold exec at hex
  split at hex
  case h_14 => cases hex
  all_goals rw [Option.some.injEq] at hex
  case h_1 g ipcperm hcall =>
    refine account_same ?_ fun pr ix num x => by simp only [Event.account]; split <;> rfl
    have hs := congrArg Prod.fst hex
    dsimp only at hs
    rw [← hs, semgetStart]
    split_ifs
    · split <;> rfl
    · obtain hsame | ⟨a, k, hnone, -, -⟩ := semgetFind_cases s g none ipcperm
      · rw [hsame]
      · cases hnone
  case h_2 g a hcall =>
    refine account_same ?_ fun pr ix num x => by simp only [Event.account]; split <;> rfl
    rw [← (Prod.mk.inj hex).1]
    rfl
  case h_3 g a b ipcperm hcall =>
    refine account_same ?_ fun pr ix num x => by simp only [Event.account]; split <;> rfl
    have hs := congrArg Prod.fst hex
    dsimp only at hs
    rw [← hs]
    obtain hsame | ⟨a', k, -, -, hcreate⟩ :=
      semgetFind_cases ((s.newBase a b).setCall t none) g (some a) ipcperm
    · rw [hsame]
      rfl
    · rw [hcreate]
      rfl
  case h_4 semid nsops ipcperm hcall =>
    refine account_same ?_ fun pr ix num x => by simp only [Event.account]; split <;> rfl
    have hs := congrArg Prod.fst hex
    dsimp only at hs
    rw [← hs, semopCheck]
    split
    · rfl
    · split
      · rfl
      · split_ifs <;> rfl
  case h_5 u n e mem hcall =>
    obtain ⟨rfl, rfl⟩ := Prod.mk.inj hex
    exact account_of_not_ok (by simp) fun _ _ _ => rfl
  case h_6 u n sops mem hcall =>
    exact account_sops hcall (semopPass_value hinv.undos hacc.1 (hacc.2 _ hcall) hex)
  case h_7 u sops d base num zero woken intr mem hcall =>
    refine account_wake hcall ?_
    unfold semopWake at hex
    split_ifs at hex with hgone hintr
    · obtain ⟨rfl, rfl⟩ := Prod.mk.inj hex
      exact .inr ⟨by simp, fun _ _ _ => rfl⟩
    · obtain ⟨rfl, rfl⟩ := Prod.mk.inj hex
      exact .inr ⟨by simp, fun _ _ _ => rfl⟩
    · have hfair : intr = false := by simpa using hintr
      subst hfair
      refine semopPass_value (s := s.modifySem base num (Sem.count zero (-1#16))) hinv.undos
        (hinv.calls t _ hcall).2 ?_ hex
      intro hdo
      exact hacc.2 _ hcall (hdo.congr fun n => (modifySem_semval s base num zero (-1#16) _ n))
  case h_8 u sops applied rest wake hcall => exact account_semu hinv hcall (hacc.2 _ hcall) hex
  case h_9 semid semnum val ipcperm hcall => exact account_setval hinv hacc hex
  case h_10 semid ipcperm hcall =>
    refine account_same ?_ fun pr ix num x => by simp only [Event.account]; split <;> rfl
    have hs := congrArg Prod.fst hex
    dsimp only at hs
    rw [← hs, semctlSetall]
    split
    · rfl
    · split <;> rfl
  case h_11 u nsems vals hcall => exact account_vals hinv hcall hex
  case h_12 semid junk ipcperm hcall => exact account_rmid hinv hex
  case h_13 hcall => exact account_exit hinv hex

theorem account_run {tr : List (Event τ ρ)} {s' : State τ ρ}
    (h : Runs info p_p (Accounted info p_p) s tr s') (hinv : Inv info s) (pr : ρ) (ix : ℕ) (num : ℤ) :
    (s'.undos.value pr ix num).toInt =
      tr.foldl (fun x ev => ev.account p_p pr ix num x) (s.undos.value pr ix num).toInt := by
  induction h with
  | nil s => rfl
  | step hal hacc hex _ _ ih =>
    rw [ih (hinv.step hal hacc.1 hex), List.foldl_cons, account_step hinv hacc hex pr ix num]

theorem setval_entries (hinv : Inv info s) {semid : BitVec 32} {semnum val : ℤ}
    {ipcperm : Option Errno} (hacc : Accounted info p_p s t (.setval semid semnum val ipcperm))
    {s' : State τ ρ}
    (hex : exec info p_p s t (.setval semid semnum val ipcperm) = some (s', .ok 0)) (pr : ρ) :
    (∀ e ∈ s'.undos.entries pr, ¬e.IsFor (IPCID_TO_IX semid) semnum) ∧
    ∀ e, ¬e.IsFor (IPCID_TO_IX semid) semnum →
      (e ∈ s'.undos.entries pr ↔ e ∈ s.undos.entries pr) := by
  cases hcall : s.calls t with
  | some c => cases c <;> simp [exec, hcall] at hex
  | none =>
    simp only [exec, hcall, Option.some.injEq, semctlSetval] at hex
    cases hu : s.lookup info semid with
    | none => simp [hu] at hex
    | some u =>
      cases ipcperm with
      | some e => simp [hu] at hex
      | none =>
        simp only [hu] at hex
        split_ifs at hex
        · simp at hex
        · simp at hex
        · obtain ⟨rfl, -⟩ := Prod.mk.inj hex
          have hix := (lookup_aimed hu).2
          have hfirst : First s.undos u.ix semnum := hix ▸ hacc.2
          change (∀ e ∈ (semundoClear s.undos u.ix (some semnum)).entries pr, _) ∧
            ∀ e, _ → (e ∈ (semundoClear s.undos u.ix (some semnum)).entries pr ↔ _)
          rw [← hix]
          obtain ⟨hnone, heq⟩ | ⟨x, hfor, hperm⟩ := clear_entries hinv.undos hfirst pr
          · rw [heq]
            exact ⟨hnone, fun _ _ => Iff.rfl⟩
          · have hgood := (hinv.undos.entries pr).perm hperm
            refine ⟨?_, ?_⟩
            · intro e he hefor
              have hne := List.rel_of_pairwise_cons hgood.keys he
              exact hne ⟨hfor.1.trans hefor.1.symm, BitVec.eq_of_toInt_eq (hfor.2.trans hefor.2.symm)⟩
            · intro e hefor
              rw [hperm.mem_iff, List.mem_cons]
              refine ⟨.inr, ?_⟩
              rintro (rfl | he)
              · exact absurd hfor hefor
              · exact he

/-- In runs that meet the condition, the undo value of every process for every semaphore is
what the account says, and `SETVAL` clears the entries for the one semaphore it sets. -/
theorem undo_accounts {tr : List (Event τ ρ)}
    (h : Runs info p_p (Accounted info p_p) (seminit τ ρ) tr s) :
    (∀ pr ix num,
      (∀ e ∈ s.undos.entries pr, e.IsFor ix num → e.un_adjval.toInt = owed p_p pr ix num tr) ∧
      ((∀ e ∈ s.undos.entries pr, ¬e.IsFor ix num) → owed p_p pr ix num tr = 0)) ∧
    ∀ ev ∈ tr, ∀ semid semnum val ipcperm, ev.act = .setval semid semnum val ipcperm →
      ev.out = .ok 0 → ∀ pr,
        (∀ e ∈ ev.post.undos.entries pr, ¬e.IsFor (IPCID_TO_IX semid) semnum) ∧
        ∀ e, ¬e.IsFor (IPCID_TO_IX semid) semnum →
          (e ∈ ev.post.undos.entries pr ↔ e ∈ ev.pre.undos.entries pr) := by
  obtain ⟨hinv, hevents⟩ := h.invariant
    (fun _ _ _ _ _ hi hal hacc hex => Inv.step hi hal hacc.1 hex) (inv_seminit info)
  have hvalue : ∀ pr ix num, (s.undos.value pr ix num).toInt = owed p_p pr ix num tr :=
    account_run h (inv_seminit info)
  refine ⟨?_, ?_⟩
  · intro pr ix num
    refine ⟨?_, ?_⟩
    · rintro e he ⟨rfl, rfl⟩
      rw [← hvalue, Undos.value, (hinv.undos.entries pr).entValue_of_mem he]
    · intro hnone
      rw [← hvalue, Undos.value, entValue_of_forall_not hnone]
      rfl
  · intro ev hev semid semnum val ipcperm hact hout pr
    obtain ⟨hpre, -, -, hacc, hex⟩ := hevents ev hev
    rw [hact] at hacc hex
    rw [hout] at hex
    exact setval_entries hpre hacc hex pr

end Steps

/-- Process 1 has undo entries for both semaphores of a set, and process 0 sets semaphore
`semnum`. -/
def setvalActs (semnum : ℤ) : List (Fin 3 × Act) :=
  haveI := neZero_procs
  [(0, .semget ⟨IPC_PRIVATE, 2, false, false⟩ none), (0, .item 0), (0, .base 0 none),
    (1, .semop 65536#32 2 none),
    (1, .sops (.ok [⟨0#16, 1#16, false, true⟩, ⟨1#16, 1#16, false, true⟩]) true),
    (0, .setval 65536#32 semnum 0 none)]

theorem undo_accounts_setval :
    ∃ tr s, Runs defaultInfo id (Accounted defaultInfo id) (seminit (Fin 3) (Fin 3)) tr s ∧
      owed id 1 0 0 tr = 0 ∧ owed id 1 0 1 tr = -1 ∧
      ∀ e ∈ s.undos.entries 1, e.IsFor 0 1 → e.un_adjval.toInt = -1 := by
  have hsome : (replay (Accounted defaultInfo id) defaultInfo id (seminit (Fin 3) (Fin 3))
      (setvalActs 0)).isSome := by decide +kernel
  obtain ⟨r, hr⟩ := Option.isSome_iff_exists.mp hsome
  have howed : ∀ r ∈ replay (Accounted defaultInfo id) defaultInfo id (seminit (Fin 3) (Fin 3))
      (setvalActs 0), owed id 1 0 0 r.1 = 0 ∧ owed id 1 0 1 r.1 = -1 := by decide +kernel
  have hruns := runs_of_replay (Accounted defaultInfo id) hr
  obtain ⟨h₀, h₁⟩ := howed r hr
  refine ⟨r.1, r.2, hruns, h₀, h₁, ?_⟩
  rw [← h₁]
  exact ((undo_accounts hruns).1 1 0 1).1

/-- The entry for semaphore 1 comes second and survives `SETVAL`. -/
theorem setval_keeps_entry :
    ∃ tr s, Runs defaultInfo id (fun _ _ _ => True) (seminit (Fin 3) (Fin 3)) tr s ∧
      (∀ ev ∈ tr, ev.out = .pending ∨ ∃ v, ev.out = .ok v) ∧ owed id 1 0 1 tr = 0 ∧
      ∃ e ∈ s.undos.entries 1, e.IsFor 0 1 ∧ e.un_adjval.toInt = -1 := by
  have hsome : (replay (fun _ _ _ => True) defaultInfo id (seminit (Fin 3) (Fin 3))
      (setvalActs 1)).isSome := by decide +kernel
  obtain ⟨r, hr⟩ := Option.isSome_iff_exists.mp hsome
  have hbad : ∀ r ∈ replay (fun _ _ _ => True) defaultInfo id (seminit (Fin 3) (Fin 3))
      (setvalActs 1), r.1.map Event.out = [.pending, .pending, .ok 65536, .pending, .ok 0, .ok 0] ∧
      owed id 1 0 1 r.1 = 0 ∧
      ∃ e ∈ r.2.undos.entries 1, e.IsFor 0 1 ∧ e.un_adjval.toInt = -1 := by decide +kernel
  obtain ⟨hout, howed, hentry⟩ := hbad r hr
  refine ⟨r.1, r.2, runs_of_replay _ hr, ?_, howed, hentry⟩
  intro ev hev
  have hmem : ev.out ∈ r.1.map Event.out := List.mem_map_of_mem hev
  rw [hout] at hmem
  simp only [List.mem_cons, List.not_mem_nil, or_false] at hmem
  obtain h | h | h | h | h | h := hmem
  · exact .inl h
  · exact .inl h
  · exact .inr ⟨_, h⟩
  · exact .inl h
  · exact .inr ⟨_, h⟩
  · exact .inr ⟨_, h⟩

end OpenbsdKernel.SysvSem
