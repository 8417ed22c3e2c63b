import Mathlib.Data.BitVec
import OpenbsdKernel.Kern.Sem.Undo

/-!
# What the undo structures hold

The undo value of a process for a semaphore, and what `semundo_adjust` and `semundo_clear`
make of it. Entries move within their structure, so values are sums over entries; a
semaphore has at most one.
-/
namespace OpenbsdKernel.SysvSem

/-- The undo value of a structure for semaphore `num` of set `id`. -/
def entValue (ent : List Undo) (id : ℕ) (num : ℤ) : BitVec 16 :=
  ((ent.filter fun e => e.IsFor id num).map Undo.un_adjval).sum

/-- A value for semaphore `num` of set `id` only. -/
def single (id : ℕ) (num : ℤ) (v : BitVec 16) (id' : ℕ) (num' : ℤ) : BitVec 16 :=
  if id = id' ∧ num = num' then v else 0

@[simp] theorem entValue_nil (id : ℕ) (num : ℤ) : entValue [] id num = 0 := rfl

theorem entValue_cons (e : Undo) (ent : List Undo) (id : ℕ) (num : ℤ) :
    entValue (e :: ent) id num = single e.un_id e.un_num.toInt e.un_adjval id num +
      entValue ent id num := by
  by_cases h : e.IsFor id num
  · simp [entValue, single, h, h.1, h.2]
  · have h' : ¬(e.un_id = id ∧ e.un_num.toInt = num) := h
    simp [entValue, single, h, h']

theorem entValue_append (a b : List Undo) (id : ℕ) (num : ℤ) :
    entValue (a ++ b) id num = entValue a id num + entValue b id num := by
  simp [entValue]

theorem entValue_perm {a b : List Undo} (h : a.Perm b) (id : ℕ) (num : ℤ) :
    entValue a id num = entValue b id num :=
  ((h.filter _).map _).sum_eq

/-- No two entries are for one semaphore and none has the value 0. -/
structure GoodEntries (ent : List Undo) : Prop where
  keys : ent.Pairwise fun a b => ¬(a.un_id = b.un_id ∧ a.un_num = b.un_num)
  values : ∀ e ∈ ent, e.un_adjval ≠ 0#16

theorem GoodEntries.perm {a b : List Undo} (h : GoodEntries a) (hp : a.Perm b) :
    GoodEntries b where
  keys := by
    refine h.keys.perm hp ?_
    intro x y hxy hyx
    exact hxy ⟨hyx.1.symm, hyx.2.symm⟩
  values e he := h.values e (hp.mem_iff.mpr he)

theorem GoodEntries.sublist {a b : List Undo} (h : GoodEntries b) (hs : a.Sublist b) :
    GoodEntries a :=
  ⟨h.keys.sublist hs, fun e he => h.values e (hs.subset he)⟩

theorem GoodEntries.entValue_of_mem {ent : List Undo} (h : GoodEntries ent) {e : Undo}
    (he : e ∈ ent) : entValue ent e.un_id e.un_num.toInt = e.un_adjval := by
  obtain ⟨a, b, rfl⟩ := List.append_of_mem he
  have hkeys := h.perm List.perm_middle
  have hfree : (a ++ b).filter (fun x => x.IsFor e.un_id e.un_num.toInt) = [] := by
    rw [List.filter_eq_nil_iff]
    intro x hx hfor
    have hne := List.rel_of_pairwise_cons hkeys.keys hx
    have hfor : x.IsFor e.un_id e.un_num.toInt := by simpa using hfor
    exact hne ⟨hfor.1.symm, (BitVec.eq_of_toInt_eq hfor.2).symm⟩
  rw [entValue_perm List.perm_middle, entValue_cons]
  simp [single, entValue, hfree]

theorem entValue_of_forall_not {ent : List Undo} {id : ℕ} {num : ℤ}
    (h : ∀ e ∈ ent, ¬e.IsFor id num) : entValue ent id num = 0 := by
  have hnil : ent.filter (fun e => e.IsFor id num) = [] := by
    rw [List.filter_eq_nil_iff]
    intro e he
    simpa using h e he
  simp [entValue, hnil]

theorem moveLast_perm (rest : List Undo) : (moveLast rest).Perm rest := by
  unfold moveLast
  cases hlast : rest.getLast? with
  | none => simp_all
  | some last =>
    have hsplit : rest.dropLast ++ [last] = rest := List.dropLast_append_getLast? last hlast
    have hmoved := (List.perm_append_singleton last rest.dropLast).symm
    rwa [hsplit] at hmoved

theorem adjustEntry_none {id : ℕ} {num : BitVec 16} {adjval : ℤ} {kept ent : List Undo}
    (h : adjustEntry id num adjval kept ent = none) : ∀ e ∈ ent, ¬e.IsFor id num.toNat := by
  induction ent generalizing kept with
  | nil => simp
  | cons x ent ih =>
    rw [adjustEntry] at h
    by_cases hx : x.IsFor id num.toNat
    · rw [if_pos hx] at h
      grind
    · rw [if_neg hx] at h
      simp only [List.mem_cons, forall_eq_or_imp]
      exact ⟨hx, ih h⟩

/-- The entry that an adjustment finds. -/
theorem adjustEntry_some {id : ℕ} {num : BitVec 16} {adjval : ℤ} (hne : adjval ≠ 0)
    {kept ent : List Undo} {r : Entries} (h : adjustEntry id num adjval kept ent = some r) :
    ∃ pre e post, ent = pre ++ e :: post ∧ e.IsFor id num.toNat ∧
      r = if e.un_adjval + BitVec.ofInt 16 adjval ≠ 0#16 then
          .ok (kept ++ pre ++ { e with un_adjval := e.un_adjval + BitVec.ofInt 16 adjval } :: post)
        else if kept ++ pre ++ post = [] then .emptied
        else .ok (kept ++ pre ++ moveLast post) := by
  induction ent generalizing kept with
  | nil => simp [adjustEntry] at h
  | cons x ent ih =>
    rw [adjustEntry] at h
    by_cases hx : x.IsFor id num.toNat
    · rw [if_pos hx] at h
      refine ⟨[], x, ent, rfl, hx, ?_⟩
      simp only [hne, if_false, List.append_nil] at h ⊢
      grind
    · rw [if_neg hx] at h
      obtain ⟨pre, e, post, rfl, hfor, hr⟩ := ih h
      refine ⟨x :: pre, e, post, rfl, hfor, ?_⟩
      simpa using hr

/-- What an adjustment by a value other than 0 can do. -/
theorem adjustEntries_cases (ent : List Undo) (id : ℕ) (num : BitVec 16) {adjval : ℤ}
    (hne : adjval ≠ 0) :
    (∃ pre e post, ent = pre ++ e :: post ∧ e.IsFor id num.toNat ∧
      e.un_adjval + BitVec.ofInt 16 adjval ≠ 0#16 ∧
      adjustEntries ent id num adjval =
        .ok (pre ++ { e with un_adjval := e.un_adjval + BitVec.ofInt 16 adjval } :: post)) ∨
    (∃ pre e post ent', ent = pre ++ e :: post ∧ e.IsFor id num.toNat ∧
      e.un_adjval + BitVec.ofInt 16 adjval = 0 ∧ pre ++ post ≠ [] ∧ ent'.Perm (pre ++ post) ∧
      adjustEntries ent id num adjval = .ok ent') ∨
    (∃ e, ent = [e] ∧ e.IsFor id num.toNat ∧ e.un_adjval + BitVec.ofInt 16 adjval = 0 ∧
      adjustEntries ent id num adjval = .emptied) ∨
    (ent.length = SEMUME ∧ adjustEntries ent id num adjval = .full) ∨
    ((∀ e ∈ ent, ¬e.IsFor id num.toNat) ∧ ent.length ≠ SEMUME ∧
      adjustEntries ent id num adjval = .ok (ent ++ [⟨BitVec.ofInt 16 adjval, num, id⟩])) := by
  unfold adjustEntries
  cases hentry : adjustEntry id num adjval [] ent with
  | some r =>
    obtain ⟨pre, e, post, rfl, hfor, hr⟩ := adjustEntry_some hne hentry
    simp only [List.nil_append] at hr
    by_cases hv : e.un_adjval + BitVec.ofInt 16 adjval ≠ 0#16
    · left
      refine ⟨pre, e, post, rfl, hfor, hv, ?_⟩
      simp only [hr, if_pos hv]
    · push Not at hv
      right
      by_cases hempty : pre ++ post = []
      · right; left
        obtain ⟨rfl, rfl⟩ := List.append_eq_nil_iff.mp hempty
        exact ⟨e, rfl, hfor, hv, by simp [hr, hv]⟩
      · left
        refine ⟨pre, e, post, pre ++ moveLast post, rfl, hfor, hv, hempty,
          (moveLast_perm post).append_left pre, ?_⟩
        simp only [hr, hv, ne_eq, not_true_eq_false, if_false, if_neg hempty]
  | none =>
    right; right; right
    simp only [if_neg hne]
    by_cases hfull : ent.length = SEMUME
    · exact .inl ⟨hfull, by simp [hfull]⟩
    · exact .inr ⟨adjustEntry_none hentry, hfull, by simp [hfull]⟩

theorem toInt_of_short {num : BitVec 16} (h : num.toNat < 32768) : num.toInt = num.toNat := by
  rw [BitVec.toInt_eq_toNat_cond]
  split_ifs <;> omega

section Adjusted

variable {ent ent' : List Undo} {id : ℕ} {num : BitVec 16} {adjval : ℤ}

theorem adjustEntries_value (hshort : num.toNat < 32768) (hne : adjval ≠ 0)
    (h : adjustEntries ent id num adjval = .ok ent') (i : ℕ) (n : ℤ) :
    entValue ent' i n = entValue ent i n + single id num.toNat (BitVec.ofInt 16 adjval) i n := by
  obtain ⟨pre, e, post, rfl, hfor, -, hr⟩ | ⟨pre, e, post, ent₁, rfl, hfor, hv, -, hperm, hr⟩ |
    ⟨e, rfl, -, -, hr⟩ | ⟨-, hr⟩ | ⟨-, -, hr⟩ := adjustEntries_cases ent id num hne
  all_goals rw [hr] at h
  case inr.inr.inl => cases h
  case inr.inr.inr.inl => cases h
  all_goals obtain rfl : _ = ent' := by simpa using h
  · simp only [entValue_append, entValue_cons, hfor.1, hfor.2, single]
    split_ifs <;> ring
  · rw [entValue_perm hperm]
    simp only [entValue_append, entValue_cons, hfor.1, hfor.2, single]
    split_ifs
    · linear_combination -hv
    · ring
  · simp [entValue_append, entValue_cons, toInt_of_short hshort]

theorem adjustEntries_emptied (hne : adjval ≠ 0) (h : adjustEntries ent id num adjval = .emptied)
    (i : ℕ) (n : ℤ) :
    entValue ent i n + single id num.toNat (BitVec.ofInt 16 adjval) i n = 0 := by
  obtain ⟨_, _, _, _, _, _, hr⟩ | ⟨_, _, _, _, _, _, _, _, _, hr⟩ | ⟨e, rfl, hfor, hv, -⟩ |
    ⟨-, hr⟩ | ⟨-, -, hr⟩ := adjustEntries_cases ent id num hne
  · rw [hr] at h; cases h
  · rw [hr] at h; cases h
  · simp only [entValue_cons, entValue_nil, hfor.1, hfor.2, single]
    split_ifs
    · linear_combination hv
    · ring
  · rw [hr] at h; cases h
  · rw [hr] at h; cases h

theorem GoodEntries.adjusted (hg : GoodEntries ent) (hshort : num.toNat < 32768) (hne : adjval ≠ 0)
    (hv : BitVec.ofInt 16 adjval ≠ 0#16) (h : adjustEntries ent id num adjval = .ok ent') :
    GoodEntries ent' ∧ ent' ≠ [] := by
  obtain ⟨pre, e, post, rfl, hfor, hval, hr⟩ | ⟨pre, e, post, ent₁, rfl, -, -, hnil, hperm, hr⟩ |
    ⟨e, rfl, -, -, hr⟩ | ⟨-, hr⟩ | ⟨hfree, -, hr⟩ := adjustEntries_cases ent id num hne
  all_goals rw [hr] at h
  case inr.inr.inl => cases h
  case inr.inr.inr.inl => cases h
  all_goals obtain rfl : _ = ent' := by simpa using h
  · refine ⟨⟨?_, ?_⟩, by simp⟩
    · have hkeys := hg.keys
      rw [List.pairwise_append, List.pairwise_cons] at hkeys ⊢
      simpa using hkeys
    · intro x hx
      simp only [List.mem_append, List.mem_cons] at hx
      obtain hx | rfl | hx := hx
      · exact hg.values x (by simp [hx])
      · exact hval
      · exact hg.values x (by simp [hx])
  · refine ⟨(hg.sublist ?_).perm hperm.symm, ?_⟩
    · exact List.Sublist.append_left (List.sublist_cons_self e post) pre
    · rintro rfl
      exact hnil (List.nil_perm.mp hperm)
  · refine ⟨⟨?_, ?_⟩, by simp⟩
    · rw [List.pairwise_append]
      refine ⟨hg.keys, List.pairwise_singleton _ _, ?_⟩
      intro x hx y hy hxy
      obtain rfl := List.mem_singleton.mp hy
      refine hfree x hx ⟨hxy.1, ?_⟩
      rw [hxy.2, toInt_of_short hshort]
    · intro x hx
      obtain hx | rfl : x ∈ ent ∨ x = _ := by simpa using hx
      · exact hg.values x hx
      · exact hv

/-- An adjustment brings in no entry for another semaphore. -/
theorem adjustEntries_all {Q : ℕ → BitVec 16 → Prop} (hall : ∀ e ∈ ent, Q e.un_id e.un_num)
    (hnew : Q id num) (hne : adjval ≠ 0) (h : adjustEntries ent id num adjval = .ok ent') :
    ∀ e ∈ ent', Q e.un_id e.un_num := by
  obtain ⟨pre, e, post, rfl, -, -, hr⟩ | ⟨pre, e, post, ent₁, rfl, -, -, -, hperm, hr⟩ |
    ⟨e, rfl, -, -, hr⟩ | ⟨-, hr⟩ | ⟨-, -, hr⟩ := adjustEntries_cases ent id num hne
  all_goals rw [hr] at h
  case inr.inr.inl => cases h
  case inr.inr.inr.inl => cases h
  all_goals obtain rfl : _ = ent' := by simpa using h
  · intro x hx
    simp only [List.mem_append, List.mem_cons] at hx hall
    obtain hx | rfl | hx := hx
    · exact hall x (.inl hx)
    · exact hall e (.inr (.inl rfl))
    · exact hall x (.inr (.inr hx))
  · intro x hx
    refine hall x ?_
    have hx := hperm.mem_iff.mp hx
    simp only [List.mem_append, List.mem_cons] at hx ⊢
    tauto
  · intro x hx
    obtain hx | rfl : x ∈ ent ∨ x = _ := by simpa using hx
    · exact hall x hx
    · exact hnew

theorem adjustEntries_length (hne : adjval ≠ 0) (h : adjustEntries ent id num adjval = .ok ent') :
    ent'.length ≤ ent.length + 1 := by
  obtain ⟨pre, e, post, rfl, -, -, hr⟩ | ⟨pre, e, post, ent₁, rfl, -, -, -, hperm, hr⟩ |
    ⟨e, rfl, -, -, hr⟩ | ⟨-, hr⟩ | ⟨-, -, hr⟩ := adjustEntries_cases ent id num hne
  all_goals rw [hr] at h
  case inr.inr.inl => cases h
  case inr.inr.inr.inl => cases h
  all_goals obtain rfl : _ = ent' := by simpa using h
  · simp
  · rw [hperm.length_eq]
    simp only [List.length_append, List.length_cons]
    omega
  · simp

theorem adjustEntries_full (hne : adjval ≠ 0) (h : adjustEntries ent id num adjval = .full) :
    ent.length = SEMUME := by
  obtain ⟨_, _, _, _, _, _, hr⟩ | ⟨_, _, _, _, _, _, _, _, _, hr⟩ | ⟨_, _, _, _, hr⟩ |
    ⟨hfull, -⟩ | ⟨-, -, hr⟩ := adjustEntries_cases ent id num hne
  · rw [hr] at h; cases h
  · rw [hr] at h; cases h
  · rw [hr] at h; cases h
  · exact hfull
  · rw [hr] at h; cases h

end Adjusted

variable {ρ : Type*} [DecidableEq ρ]

/-- The undo value of process `pr` for semaphore `num` of set `id`. -/
def Undos.value (us : Undos ρ) (pr : ρ) (id : ℕ) (num : ℤ) : BitVec 16 :=
  entValue (us.entries pr) id num

/-- A process has at most one structure, and no structure is empty. -/
structure Undos.Good (us : Undos ρ) : Prop where
  procs : (us.semu_list.map SemUndo.un_proc).Nodup
  structs : ∀ su ∈ us.semu_list, GoodEntries su.un_ent ∧ su.un_ent ≠ []

/-- Every entry is for a semaphore with `Q`. -/
def Undos.All (Q : ℕ → BitVec 16 → Prop) (us : Undos ρ) : Prop :=
  ∀ su ∈ us.semu_list, ∀ e ∈ su.un_ent, Q e.un_id e.un_num

theorem Undos.entries_of_not_has {us : Undos ρ} {pr : ρ} (h : ¬us.Has pr) : us.entries pr = [] := by
  have hnone : us.semu_list.find? (fun su => su.un_proc = pr) = none := by
    rw [List.find?_eq_none]
    intro su hsu hpr
    exact h ⟨su, hsu, by simpa using hpr⟩
  rw [Undos.entries, hnone]

theorem Undos.Has.entries {us : Undos ρ} {pr : ρ} (h : us.Has pr) :
    ∃ su ∈ us.semu_list, su.un_proc = pr ∧ us.entries pr = su.un_ent := by
  obtain ⟨su, hsu, hpr⟩ := h
  cases hfind : us.semu_list.find? (fun su => su.un_proc = pr) with
  | none =>
    rw [List.find?_eq_none] at hfind
    exact absurd hpr (by simpa using hfind su hsu)
  | some su' =>
    refine ⟨su', List.mem_of_find?_eq_some hfind, ?_, ?_⟩
    · simpa using List.find?_some hfind
    · rw [Undos.entries, hfind]

theorem Undos.Good.entries {us : Undos ρ} (h : us.Good) (pr : ρ) : GoodEntries (us.entries pr) := by
  by_cases hpr : us.Has pr
  · obtain ⟨su, hsu, -, heq⟩ := hpr.entries
    rw [heq]
    exact (h.structs su hsu).1
  · rw [Undos.entries_of_not_has hpr]
    exact ⟨List.Pairwise.nil, by simp⟩

theorem Undos.entries_of_mem {us : Undos ρ} (h : (us.semu_list.map SemUndo.un_proc).Nodup)
    {su : SemUndo ρ} (hsu : su ∈ us.semu_list) : us.entries su.un_proc = su.un_ent := by
  obtain ⟨su', hsu', hpr, heq⟩ := Undos.Has.entries ⟨su, hsu, rfl⟩
  rw [heq, List.inj_on_of_nodup_map h hsu' hsu hpr]

theorem Undos.Good.value_ne {us : Undos ρ} (h : us.Good) {pr : ρ} (hpr : us.Has pr) :
    ∃ id num, us.value pr id num ≠ 0 := by
  obtain ⟨su, hsu, -, heq⟩ := hpr.entries
  obtain ⟨e, he⟩ := List.exists_mem_of_ne_nil _ (h.structs su hsu).2
  refine ⟨e.un_id, e.un_num.toInt, ?_⟩
  rw [Undos.value, heq, (h.structs su hsu).1.entValue_of_mem he]
  exact (h.structs su hsu).1.values e he

theorem Undos.entries_setEntries (us : Undos ρ) {pr : ρ} (h : us.Has pr) (ent : List Undo) (q : ρ) :
    (us.setEntries pr ent).entries q = if q = pr then ent else us.entries q := by
  have hfind : (us.setEntries pr ent).semu_list.find? (fun su => su.un_proc = q) =
      (us.semu_list.find? (fun su => su.un_proc = q)).map fun su =>
        if su.un_proc = pr then { su with un_ent := ent } else su := by
    rw [Undos.setEntries, List.find?_map]
    congr 2
    funext su
    simp only [Function.comp_apply]
    split_ifs <;> rfl
  rw [Undos.entries, hfind]
  split_ifs with hq
  · subst hq
    obtain ⟨su, hsu, hpr⟩ := h
    cases hs : us.semu_list.find? (fun su => su.un_proc = q) with
    | none =>
      rw [List.find?_eq_none] at hs
      exact absurd hpr (by simpa using hs su hsu)
    | some su' =>
      have hpr' : su'.un_proc = q := by simpa using List.find?_some hs
      simp [hpr']
  · rw [Undos.entries]
    cases hs : us.semu_list.find? (fun su => su.un_proc = q) with
    | none => rfl
    | some su' =>
      have hpr' : su'.un_proc = q := by simpa using List.find?_some hs
      have hne : su'.un_proc ≠ pr := by rw [hpr']; exact hq
      simp [hne]

theorem Undos.entries_drop (us : Undos ρ) (pr q : ρ) :
    (us.drop pr).entries q = if q = pr then [] else us.entries q := by
  split_ifs with hq
  · apply Undos.entries_of_not_has
    rintro ⟨su, hsu, rfl⟩
    simp [Undos.drop, hq] at hsu
  · rw [Undos.entries, Undos.entries, Undos.drop, List.find?_filter]
    congr 2
    funext su
    by_cases hsu : su.un_proc = q
    · simp [hsu, hq]
    · simp [hsu]

theorem Undos.Good.drop {us : Undos ρ} (h : us.Good) (pr : ρ) : (us.drop pr).Good where
  procs := h.procs.sublist (List.filter_sublist.map _)
  structs su hsu := h.structs su (List.mem_of_mem_filter hsu)

theorem Undos.All.drop {Q : ℕ → BitVec 16 → Prop} {us : Undos ρ} (h : us.All Q) (pr : ρ) :
    (us.drop pr).All Q :=
  fun su hsu => h su (List.mem_of_mem_filter hsu)

theorem Undos.has_setEntries {us : Undos ρ} {pr : ρ} (h : us.Has pr) (ent : List Undo) :
    (us.setEntries pr ent).Has pr := by
  obtain ⟨su, hsu, rfl⟩ := h
  refine ⟨{ su with un_ent := ent }, ?_, rfl⟩
  rw [Undos.setEntries, List.mem_map]
  exact ⟨su, hsu, by simp⟩

/-- Only the structure of `pr` may be empty. -/
theorem Undos.good_setEntries {us : Undos ρ} {pr : ρ} {ent : List Undo}
    (hprocs : (us.semu_list.map SemUndo.un_proc).Nodup)
    (hothers : ∀ su ∈ us.semu_list, su.un_proc ≠ pr → GoodEntries su.un_ent ∧ su.un_ent ≠ [])
    (hent : GoodEntries ent) (hne : ent ≠ []) : (us.setEntries pr ent).Good where
  procs := by
    have hsame : (us.setEntries pr ent).semu_list.map SemUndo.un_proc =
        us.semu_list.map SemUndo.un_proc := by
      rw [Undos.setEntries, List.map_map]
      congr 1
      funext su
      simp only [Function.comp_apply]
      split_ifs <;> rfl
    rw [hsame]
    exact hprocs
  structs su hsu := by
    rw [Undos.setEntries, List.mem_map] at hsu
    obtain ⟨su₀, hsu₀, rfl⟩ := hsu
    split_ifs with hpr
    · exact ⟨hent, hne⟩
    · exact hothers su₀ hsu₀ hpr

theorem Undos.All.setEntries {Q : ℕ → BitVec 16 → Prop} {us : Undos ρ} (h : us.All Q) {pr : ρ}
    {ent : List Undo} (hent : ∀ e ∈ ent, Q e.un_id e.un_num) : (us.setEntries pr ent).All Q := by
  intro su hsu
  rw [Undos.setEntries, List.mem_map] at hsu
  obtain ⟨su₀, hsu₀, rfl⟩ := hsu
  split_ifs with hpr
  · exact hent
  · exact h su₀ hsu₀

/-- The undo values of `pr`, and of no other process, go up by `d`. -/
structure Changed (us us' : Undos ρ) (pr : ρ) (d : ℕ → ℤ → BitVec 16) : Prop where
  good : us'.Good
  value : ∀ q i n, us'.value q i n = us.value q i n + if q = pr then d i n else 0

section SemundoAdjust

variable {us : Undos ρ} {pr : ρ} {id : ℕ} {num : BitVec 16} {adjval : ℤ}

/-- The structure of `pr` may be one that was just allocated. -/
theorem adjustLive_cases (hhas : us.Has pr) (hprocs : (us.semu_list.map SemUndo.un_proc).Nodup)
    (hothers : ∀ su ∈ us.semu_list, su.un_proc ≠ pr → GoodEntries su.un_ent ∧ su.un_ent ≠ [])
    (hgood : GoodEntries (us.entries pr)) (hshort : num.toNat < 32768) (hne : adjval ≠ 0)
    (hv : BitVec.ofInt 16 adjval ≠ 0#16) :
    (∃ us', adjustLive pr us id num adjval = .ok us' .live ∧ us'.Has pr ∧
      Changed us us' pr (single id num.toNat (BitVec.ofInt 16 adjval)) ∧
      (us'.entries pr).length ≤ (us.entries pr).length + 1 ∧
      ∀ Q, us.All Q → Q id num → us'.All Q) ∨
    (∃ us', adjustLive pr us id num adjval = .ok us' (.dangling []) ∧
      Changed us us' pr (single id num.toNat (BitVec.ofInt 16 adjval)) ∧
      (∀ i n, us'.value pr i n = 0) ∧ ∀ Q, us.All Q → us'.All Q) ∨
    ((us.entries pr).length = SEMUME ∧ adjustLive pr us id num adjval = .fail .EINVAL us .live) := by
  unfold adjustLive
  cases hadj : adjustEntries (us.entries pr) id num adjval with
  | ok ent =>
    left
    obtain ⟨hent, hnil⟩ := hgood.adjusted hshort hne hv hadj
    refine ⟨us.setEntries pr ent, rfl, Undos.has_setEntries hhas ent,
      ⟨Undos.good_setEntries hprocs hothers hent hnil, ?_⟩, ?_, ?_⟩
    · intro q i n
      rw [Undos.value, Undos.value, us.entries_setEntries hhas]
      split_ifs with hq
      · rw [hq, adjustEntries_value hshort hne hadj]
      · rw [add_zero]
    · rw [us.entries_setEntries hhas, if_pos rfl]
      exact adjustEntries_length hne hadj
    · intro Q hall hnew
      obtain ⟨su, hsu, -, heq⟩ := hhas.entries
      refine hall.setEntries (adjustEntries_all ?_ hnew hne hadj)
      rw [heq]
      exact hall su hsu
  | emptied =>
    right; left
    refine ⟨us.drop pr, rfl, ⟨⟨?_, ?_⟩, ?_⟩, ?_, fun Q hall => hall.drop pr⟩
    · exact hprocs.sublist (List.filter_sublist.map _)
    · intro su hsu
      obtain ⟨hsu, hpr⟩ := List.mem_filter.mp hsu
      exact hothers su hsu (by simpa using hpr)
    · intro q i n
      rw [Undos.value, Undos.value, us.entries_drop]
      split_ifs with hq
      · rw [hq, adjustEntries_emptied hne hadj, entValue_nil]
      · rw [add_zero]
    · intro i n
      rw [Undos.value, us.entries_drop, if_pos rfl, entValue_nil]
  | full => exact .inr (.inr ⟨adjustEntries_full hne hadj, rfl⟩)

/-- The list with a structure just allocated for `pr`. -/
def Undos.alloc (us : Undos ρ) (pr : ρ) (semutot : ℕ) : Undos ρ :=
  ⟨⟨pr, []⟩ :: us.semu_list, semutot⟩

omit [DecidableEq ρ] in
theorem Undos.has_alloc (us : Undos ρ) (pr : ρ) (tot : ℕ) : (us.alloc pr tot).Has pr :=
  ⟨⟨pr, []⟩, List.mem_cons_self, rfl⟩

theorem Undos.entries_alloc {us : Undos ρ} {pr : ρ} (h : ¬us.Has pr) (tot : ℕ) (q : ρ) :
    (us.alloc pr tot).entries q = us.entries q := by
  by_cases hq : pr = q
  · subst hq
    rw [Undos.entries_of_not_has h]
    simp [Undos.entries, Undos.alloc]
  · simp [Undos.entries, Undos.alloc, hq]

omit [DecidableEq ρ] in
theorem Undos.all_alloc {Q : ℕ → BitVec 16 → Prop} {us : Undos ρ} (h : us.All Q) (pr : ρ) (tot : ℕ) :
    (us.alloc pr tot).All Q := by
  intro su hsu
  obtain rfl | hsu := List.mem_cons.mp hsu
  · simp
  · exact h su hsu

omit [DecidableEq ρ] in
theorem Undos.Good.procs_alloc (hg : us.Good) (h : ¬us.Has pr) (tot : ℕ) :
    ((us.alloc pr tot).semu_list.map SemUndo.un_proc).Nodup := by
  rw [Undos.alloc, List.map_cons, List.nodup_cons]
  refine ⟨?_, hg.procs⟩
  intro hmem
  obtain ⟨su, hsu, hpr⟩ := List.mem_map.mp hmem
  exact h ⟨su, hsu, hpr⟩

omit [DecidableEq ρ] in
theorem Undos.Good.others_alloc (hg : us.Good) (tot : ℕ) :
    ∀ su ∈ (us.alloc pr tot).semu_list, su.un_proc ≠ pr → GoodEntries su.un_ent ∧ su.un_ent ≠ [] := by
  intro su hsu hpr
  obtain rfl | hsu := List.mem_cons.mp hsu
  · exact absurd rfl hpr
  · exact hg.structs su hsu

/-- How `semundo_adjust` by a value other than 0 ends on the list of structures. -/
inductive AdjustSpec (us : Undos ρ) (pr : ρ) (id : ℕ) (num : BitVec 16) (v : BitVec 16) (mem : Bool) :
    Adjusted ρ → Prop
  | live {us'} (has : us'.Has pr) (changed : Changed us us' pr (single id num.toNat v))
      (grown : (us'.entries pr).length ≤ (us.entries pr).length + 1)
      (all : ∀ Q, us.All Q → Q id num → us'.All Q) : AdjustSpec us pr id num v mem (.ok us' .live)
  | freed {us'} (changed : Changed us us' pr (single id num.toNat v))
      (zero : ∀ i n, us'.value pr i n = 0) (all : ∀ Q, us.All Q → us'.All Q) :
      AdjustSpec us pr id num v mem (.ok us' (.dangling []))
  | full (length : (us.entries pr).length = SEMUME) :
      AdjustSpec us pr id num v mem (.fail .EINVAL us .live)
  | exhausted (has : ¬us.Has pr) : AdjustSpec us pr id num v mem (.fail .ENOSPC us .null)
  | wait (has : ¬us.Has pr) (hmem : mem = false) :
      AdjustSpec us pr id num v mem (.wait { us with semutot := us.semutot + 1 })

theorem adjustLive_spec (hg : us.Good) (hhas : us.Has pr) (hshort : num.toNat < 32768)
    (hne : adjval ≠ 0) (hv : BitVec.ofInt 16 adjval ≠ 0#16) (mem : Bool) :
    AdjustSpec us pr id num (BitVec.ofInt 16 adjval) mem (adjustLive pr us id num adjval) := by
  obtain ⟨us', hr, hhas', hch, hlen, hall⟩ | ⟨us', hr, hch, hz, hall⟩ | ⟨hlen, hr⟩ :=
    adjustLive_cases hhas hg.procs (fun su hsu _ => hg.structs su hsu) (hg.entries pr)
      hshort hne hv
  · rw [hr]; exact .live hhas' hch hlen hall
  · rw [hr]; exact .freed hch hz hall
  · rw [hr]; exact .full hlen

theorem adjustLive_alloc_spec (hg : us.Good) (hhas : ¬us.Has pr) (tot : ℕ)
    (hshort : num.toNat < 32768) (hne : adjval ≠ 0) (hv : BitVec.ofInt 16 adjval ≠ 0#16)
    (mem : Bool) :
    AdjustSpec us pr id num (BitVec.ofInt 16 adjval) mem
      (adjustLive pr (us.alloc pr tot) id num adjval) := by
  have hentries := Undos.entries_alloc hhas tot
  have hempty : (us.alloc pr tot).entries pr = [] := by
    rw [hentries, Undos.entries_of_not_has hhas]
  have hchanged : ∀ {us' d}, Changed (us.alloc pr tot) us' pr d → Changed us us' pr d := by
    intro us' d hch
    refine ⟨hch.good, ?_⟩
    intro q i n
    rw [hch.value, Undos.value, Undos.value, hentries]
  obtain ⟨us', hr, hhas', hch, hlen, hall⟩ | ⟨us', hr, hch, hz, hall⟩ | ⟨hlen, -⟩ :=
    adjustLive_cases (us.has_alloc pr tot) (hg.procs_alloc hhas tot) (hg.others_alloc tot)
      (by rw [hentries]; exact hg.entries pr) hshort hne hv
  · rw [hr]
    refine .live hhas' (hchanged hch) ?_ (fun Q h => hall Q (Undos.all_alloc h pr tot))
    rwa [hentries] at hlen
  · rw [hr]
    exact .freed (hchanged hch) hz (fun Q h => hall Q (Undos.all_alloc h pr tot))
  · rw [hempty] at hlen
    cases hlen

theorem semundoAdjust_spec (info : Seminfo) (mem : Bool) (hg : us.Good) {suptr : Suptr}
    (hsuptr : suptr = .null ∨ suptr = .live) (hshort : num.toNat < 32768) (hne : adjval ≠ 0)
    (hv : BitVec.ofInt 16 adjval ≠ 0#16) :
    AdjustSpec us pr id num (BitVec.ofInt 16 adjval) mem
      (semundoAdjust info pr mem us suptr id num adjval) := by
  have hnull : semundoAdjust info pr mem us suptr id num adjval =
      semundoAdjust info pr mem us .null id num adjval := by
    obtain rfl | rfl := hsuptr <;> rfl
  rw [hnull]
  simp only [semundoAdjust]
  by_cases hhas : us.Has pr
  · rw [if_pos hhas]
    exact adjustLive_spec hg hhas hshort hne hv mem
  · rw [if_neg hhas, if_neg hne]
    unfold semuAlloc
    split_ifs with htot hmem
    · exact .exhausted hhas
    · exact adjustLive_alloc_spec hg hhas _ hshort hne hv mem
    · exact .wait hhas (by simpa using hmem)

end SemundoAdjust

/-- Clearing a whole set leaves the entries of the other sets. -/
theorem clearEntries_none (id fuel : ℕ) (kept ent : List Undo) (h : ent.length ≤ fuel) :
    (clearEntries id none fuel kept ent).Perm (kept ++ ent.filter fun e => e.un_id ≠ id) := by
  induction fuel generalizing kept ent with
  | zero =>
    obtain rfl := List.length_eq_zero_iff.mp (Nat.le_zero.mp h)
    simp [clearEntries]
  | succ fuel ih =>
    cases ent with
    | nil => simp [clearEntries]
    | cons e rest =>
      rw [List.length_cons, Nat.succ_le_succ_iff] at h
      by_cases hid : e.un_id = id
      · have hmoved := moveLast_perm rest
        simp only [clearEntries, hid, if_true, true_or, ne_eq, not_true_eq_false, if_false]
        refine (ih kept (moveLast rest) (by rwa [hmoved.length_eq])).trans ?_
        rw [List.filter_cons_of_neg (by simpa using hid)]
        exact (hmoved.filter _).append_left kept
      · simp only [clearEntries, hid, if_false]
        refine (ih (kept ++ [e]) rest h).trans ?_
        rw [List.filter_cons_of_pos (by simpa using hid), List.append_assoc]
        rfl

/-- Clearing one semaphore removes an entry for it or nothing: the loop ends at the first
entry of the set. -/
theorem clearEntries_some (id fuel : ℕ) (num : ℤ) (kept ent : List Undo) (h : ent.length ≤ fuel) :
    (clearEntries id (some num) fuel kept ent = kept ++ ent ∧
      ((∀ e ∈ ent, e.un_id ≠ id) ∨
        ∃ e ∈ ent, ent.find? (fun e => e.un_id = id) = some e ∧ ¬e.IsFor id num)) ∨
    ∃ pre e post, ent = pre ++ e :: post ∧ e.IsFor id num ∧
      (clearEntries id (some num) fuel kept ent).Perm (kept ++ (pre ++ post)) := by
  induction fuel generalizing kept ent with
  | zero =>
    obtain rfl := List.length_eq_zero_iff.mp (Nat.le_zero.mp h)
    simp [clearEntries]
  | succ fuel ih =>
    cases ent with
    | nil => simp [clearEntries]
    | cons e rest =>
      rw [List.length_cons, Nat.succ_le_succ_iff] at h
      by_cases hid : e.un_id = id
      · by_cases hnum : num = e.un_num.toInt
        · right
          refine ⟨[], e, rest, rfl, ⟨hid, hnum.symm⟩, ?_⟩
          simp only [clearEntries, hid, hnum]
          exact (moveLast_perm rest).append_left kept
        · left
          have hfor : ¬e.IsFor id num := fun hfor => hnum hfor.2.symm
          refine ⟨by simp [clearEntries, hid, hnum], .inr ⟨e, by simp, by simp [hid], hfor⟩⟩
      · have hclear : clearEntries id (some num) (fuel + 1) kept (e :: rest) =
            clearEntries id (some num) fuel (kept ++ [e]) rest := by
          simp [clearEntries, hid]
        rw [hclear]
        obtain ⟨hsame, hstop⟩ | ⟨pre, x, post, rfl, hfor, hperm⟩ := ih (kept ++ [e]) rest h
        · left
          refine ⟨by simp [hsame], ?_⟩
          obtain hnone | ⟨x, hx, hfind, hfor⟩ := hstop
          · exact .inl (by simpa [hid] using hnone)
          · exact .inr ⟨x, by simp [hx], by simp [hid, hfind], hfor⟩
        · exact .inr ⟨e :: pre, x, post, rfl, hfor, by simpa using hperm⟩

omit [DecidableEq ρ] in
theorem semundoClear_procs {us : Undos ρ} (h : (us.semu_list.map SemUndo.un_proc).Nodup) (id : ℕ)
    (semnum : Option ℤ) : ((semundoClear us id semnum).semu_list.map SemUndo.un_proc).Nodup := by
  refine List.Nodup.sublist (List.filter_sublist.map _) ?_
  rw [List.map_map]
  exact h

theorem semundoClear_entries {us : Undos ρ} (h : (us.semu_list.map SemUndo.un_proc).Nodup) (id : ℕ)
    (semnum : Option ℤ) (pr : ρ) :
    (semundoClear us id semnum).entries pr =
      clearEntries id semnum (us.entries pr).length [] (us.entries pr) := by
  by_cases hhas : (semundoClear us id semnum).Has pr
  · obtain ⟨su', hsu', hpr, heq⟩ := hhas.entries
    obtain ⟨hmem, -⟩ := List.mem_filter.mp hsu'
    obtain ⟨su, hsu, rfl⟩ := List.mem_map.mp hmem
    rw [heq, ← hpr, Undos.entries_of_mem h hsu]
  · rw [Undos.entries_of_not_has hhas]
    by_cases hold : us.Has pr
    · obtain ⟨su, hsu, hpr, heq⟩ := hold.entries
      by_contra hne
      refine hhas ⟨{ su with un_ent := clearEntries id semnum su.un_ent.length [] su.un_ent }, ?_, hpr⟩
      rw [heq] at hne
      exact List.mem_filter.mpr ⟨List.mem_map_of_mem hsu, by simpa using Ne.symm hne⟩
    · rw [Undos.entries_of_not_has hold]
      simp [clearEntries]

/-- Clearing takes entries away. -/
theorem clearEntries_subset (id : ℕ) (semnum : Option ℤ) (ent : List Undo) :
    ∃ ent', (clearEntries id semnum ent.length [] ent).Perm ent' ∧ ent'.Sublist ent := by
  cases semnum with
  | none =>
    exact ⟨_, clearEntries_none id _ [] ent le_rfl, by simp⟩
  | some num =>
    obtain ⟨hsame, -⟩ | ⟨pre, e, post, rfl, -, hperm⟩ := clearEntries_some id _ num [] ent le_rfl
    · exact ⟨ent, by rw [hsame, List.nil_append], List.Sublist.refl ent⟩
    · refine ⟨pre ++ post, by simpa using hperm, ?_⟩
      exact List.Sublist.append_left (List.sublist_cons_self e post) pre

omit [DecidableEq ρ] in
theorem Undos.Good.clear {us : Undos ρ} (h : us.Good) (id : ℕ) (semnum : Option ℤ) :
    (semundoClear us id semnum).Good where
  procs := semundoClear_procs h.procs id semnum
  structs su' hsu' := by
    obtain ⟨hmem, hne⟩ := List.mem_filter.mp hsu'
    obtain ⟨su, hsu, rfl⟩ := List.mem_map.mp hmem
    obtain ⟨ent', hperm, hsub⟩ := clearEntries_subset id semnum su.un_ent
    exact ⟨((h.structs su hsu).1.sublist hsub).perm hperm.symm, by simpa using hne⟩

omit [DecidableEq ρ] in
theorem Undos.All.clear {Q : ℕ → BitVec 16 → Prop} {us : Undos ρ} (h : us.All Q) (id : ℕ)
    (semnum : Option ℤ) : (semundoClear us id semnum).All Q := by
  intro su' hsu' e he
  obtain ⟨hmem, -⟩ := List.mem_filter.mp hsu'
  obtain ⟨su, hsu, rfl⟩ := List.mem_map.mp hmem
  obtain ⟨ent', hperm, hsub⟩ := clearEntries_subset id semnum su.un_ent
  exact h su hsu e (hsub.subset (hperm.mem_iff.mp he))

omit [DecidableEq ρ] in
/-- No entry of a cleared set is left. -/
theorem Undos.All.clear_set {Q : ℕ → BitVec 16 → Prop} {us : Undos ρ} (h : us.All Q) (id : ℕ) :
    (semundoClear us id none).All fun i num => Q i num ∧ i ≠ id := by
  intro su' hsu' e he
  refine ⟨h.clear id none su' hsu' e he, ?_⟩
  obtain ⟨hmem, -⟩ := List.mem_filter.mp hsu'
  obtain ⟨su, hsu, rfl⟩ := List.mem_map.mp hmem
  have he := (clearEntries_none id _ [] su.un_ent le_rfl).mem_iff.mp he
  simpa using (List.mem_filter.mp he).2

end OpenbsdKernel.SysvSem
