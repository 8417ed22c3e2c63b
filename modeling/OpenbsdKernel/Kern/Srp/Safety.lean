import Mathlib.Data.Finset.Card
import Mathlib.Tactic
import OpenbsdKernel.Kern.Srp.Basic

/-!
# References outlive their readers

A reference that a reader has got stands in one of its records, and a collection passes no
record in which its value stands. So the destructor does not run while there is a
reader. `srp_follow` gives up the record of a node before it reads from it; a second
invariant says what a collection has to pay attention to for that to be safe.
-/
namespace OpenbsdKernel.Srp

variable {n : ℕ} {π ν : Type*} [DecidableEq π] [DecidableEq ν]

/-- The record `srp_v` is at work on. -/
def Pc.busy : Pc π ν → Option (Fin SRP_HAZARD_NUM)
  | .load _ i _ | .store _ i _ _ | .check _ i _ _ => some i
  | _ => none

/-- The record and the node of a call of `srp_follow` that has given up the reference to
the node. -/
def Pc.transit : Pc π ν → Option (Fin SRP_HAZARD_NUM × (π × ν))
  | .load _ i src | .store _ i _ src | .check _ i _ src => src.map fun r => (i, r)
  | _ => none

/-- Record `i` stands for a reference that was returned. -/
def Solid (hz : Fin SRP_HAZARD_NUM → Hazard π ν) (pc : Pc π ν) (i : Fin SRP_HAZARD_NUM)
    (r : π × Option ν) : Prop :=
  hz i = ⟨some r.1, r.2⟩ ∧ pc.busy ≠ some i

instance (hz : Fin SRP_HAZARD_NUM → Hazard π ν) (pc : Pc π ν) (i : Fin SRP_HAZARD_NUM)
    (r : π × Option ν) : Decidable (Solid hz pc i r) :=
  inferInstanceAs (Decidable (_ ∧ _))

def Backed (hz : Fin SRP_HAZARD_NUM → Hazard π ν) (pc : Pc π ν) (holds : List (π × Option ν)) :
    Prop :=
  ∀ r, holds.count r ≤ (Finset.univ.filter fun i => Solid hz pc i r).card

def PcOk (hz : Fin SRP_HAZARD_NUM → Hazard π ν) (holds : List (π × Option ν)) : Pc π ν → Prop
  | .idle | .enter _ _ | .panic => True
  | .publish _ i none => (hz i).sh_p = none
  | .publish _ i (some r) => hz i = ⟨some r.1, some r.2⟩ ∧ (r.1, some r.2) ∈ holds
  | .load srp i _ | .store srp i _ _ => (hz i).sh_p = some srp
  | .check srp i v _ => hz i = ⟨some srp, v⟩
  | .leave srp v _ => (srp, v) ∈ holds
  | .clear srp v i => hz i = ⟨some srp, v⟩ ∧ (srp, v) ∈ holds
  | .follow srp v _ _ => (srp, some v) ∈ holds

theorem Backed.exists_solid {hz : Fin SRP_HAZARD_NUM → Hazard π ν} {pc : Pc π ν}
    {holds : List (π × Option ν)} (h : Backed hz pc holds) {r : π × Option ν} (hr : r ∈ holds) :
    ∃ i, Solid hz pc i r := by
  have hpos : 0 < (Finset.univ.filter fun i => Solid hz pc i r).card :=
    Nat.lt_of_lt_of_le (List.count_pos_iff.mpr hr) (h r)
  obtain ⟨i, hi⟩ := Finset.card_pos.mp hpos
  exact ⟨i, (Finset.mem_filter.mp hi).2⟩

/-- A step that changes no record that stands for a reference. -/
theorem Backed.congr {hz hz' : Fin SRP_HAZARD_NUM → Hazard π ν} {pc pc' : Pc π ν}
    {holds : List (π × Option ν)} (h : Backed hz pc holds)
    (hsolid : ∀ i r, Solid hz pc i r → Solid hz' pc' i r) : Backed hz' pc' holds := by
  intro r
  apply (h r).trans
  apply Finset.card_le_card
  intro i hi
  rw [Finset.mem_filter] at hi ⊢
  exact ⟨hi.1, hsolid i r hi.2⟩

/-- A reference is returned, and record `i` stands for it. -/
theorem Backed.take {hz hz' : Fin SRP_HAZARD_NUM → Hazard π ν} {pc pc' : Pc π ν}
    {holds : List (π × Option ν)} (h : Backed hz pc holds) {i : Fin SRP_HAZARD_NUM}
    {r : π × Option ν} (hnew : Solid hz' pc' i r) (hold : ¬ Solid hz pc i r)
    (hsolid : ∀ j t, Solid hz pc j t → Solid hz' pc' j t) : Backed hz' pc' (r :: holds) := by
  intro t
  by_cases htr : t = r
  · subst htr
    rw [List.count_cons_self]
    have hsub : insert i (Finset.univ.filter fun j => Solid hz pc j t) ⊆
        Finset.univ.filter fun j => Solid hz' pc' j t := by
      intro j hj
      rw [Finset.mem_insert, Finset.mem_filter] at hj
      rw [Finset.mem_filter]
      rcases hj with rfl | hj
      · exact ⟨Finset.mem_univ _, hnew⟩
      · exact ⟨hj.1, hsolid j t hj.2⟩
    have hcard := Finset.card_le_card hsub
    rw [Finset.card_insert_of_notMem (by simp [hold])] at hcard
    have := h t
    omega
  · rw [List.count_cons_of_ne (Ne.symm htr)]
    exact h.congr hsolid t

/-- A reference is given up, and record `i` no longer stands for it. -/
theorem Backed.drop {hz hz' : Fin SRP_HAZARD_NUM → Hazard π ν} {pc pc' : Pc π ν}
    {holds : List (π × Option ν)} (h : Backed hz pc holds) {i : Fin SRP_HAZARD_NUM}
    {r : π × Option ν} (hi : hz i = ⟨some r.1, r.2⟩) (hr : r ∈ holds)
    (hsolid : ∀ j t, j ≠ i → Solid hz pc j t → Solid hz' pc' j t) :
    Backed hz' pc' (holds.erase r) := by
  intro t
  by_cases htr : t = r
  · subst htr
    rw [List.count_erase_self]
    have hsub : (Finset.univ.filter fun j => Solid hz pc j t).erase i ⊆
        Finset.univ.filter fun j => Solid hz' pc' j t := by
      intro j hj
      rw [Finset.mem_erase, Finset.mem_filter] at hj
      rw [Finset.mem_filter]
      exact ⟨hj.2.1, hsolid j t hj.1 hj.2.2⟩
    have hcard := Finset.card_le_card hsub
    have herase := Finset.pred_card_le_card_erase (s := Finset.univ.filter fun j => Solid hz pc j t)
      (a := i)
    have := h t
    omega
  · rw [List.count_erase_of_ne htr]
    apply (h t).trans
    apply Finset.card_le_card
    intro j hj
    rw [Finset.mem_filter] at hj ⊢
    have hji : j ≠ i := by
      rintro rfl
      have heq := hi.symm.trans hj.2.1
      simp only [Hazard.mk.injEq, Option.some.injEq] at heq
      exact htr (Prod.ext heq.1.symm heq.2.symm)
    exact ⟨hj.1, hsolid j t hji hj.2⟩

omit [DecidableEq π] [DecidableEq ν] in
theorem solid_update {hz : Fin SRP_HAZARD_NUM → Hazard π ν} {pc pc' : Pc π ν}
    {i j : Fin SRP_HAZARD_NUM} {h : Hazard π ν} {r : π × Option ν} (hij : j ≠ i)
    (hbusy : pc'.busy = pc.busy ∨ pc'.busy = some i ∨ pc'.busy = none) (hj : Solid hz pc j r) :
    Solid (Function.update hz i h) pc' j r := by
  refine ⟨?_, ?_⟩
  · rw [Function.update_of_ne hij]
    exact hj.1
  · rcases hbusy with hb | hb | hb
    · rw [hb]
      exact hj.2
    · rw [hb]
      exact fun heq => hij (Option.some.inj heq).symm
    · rw [hb]
      simp

def State.LocalOk (s : State n π ν) (c : Fin n) : Prop :=
  PcOk (s.hazards c) (s.holds c) (s.pc c) ∧ Backed (s.hazards c) (s.pc c) (s.holds c)

theorem localOk_congr {s t : State n π ν} {c : Fin n} (h : s.LocalOk c)
    (hhz : t.hazards c = s.hazards c) (hpc : t.pc c = s.pc c) (hholds : t.holds c = s.holds c) :
    t.LocalOk c := by
  unfold State.LocalOk
  rw [hhz, hpc, hholds]
  exact h

theorem localOk_goto {s : State n π ν} {c : Fin n} (h : s.LocalOk c) {pc : Pc π ν}
    (hok : PcOk (s.hazards c) (s.holds c) pc) (hbusy : pc.busy = none ∨ pc.busy = (s.pc c).busy) :
    (s.goto c pc).LocalOk c := by
  refine ⟨?_, ?_⟩
  · simpa [State.goto] using hok
  · simp only [State.goto, Function.update_self]
    apply h.2.congr
    intro i r hi
    refine ⟨hi.1, ?_⟩
    rcases hbusy with hb | hb
    · rw [hb]
      simp
    · rw [hb]
      exact hi.2

theorem step_localOk {s : State n π ν} {c : Fin n} (h : s.LocalOk c) : (s.step c).LocalOk c := by
  have hok := h.1
  have hbacked := h.2
  unfold State.step
  cases hpc : s.pc c with
  | idle => exact h
  | enter srp i =>
    simp only
    split_ifs with hi hfree
    · exact localOk_goto h hfree (Or.inl rfl)
    · exact localOk_goto h trivial (Or.inl rfl)
    · exact localOk_goto h trivial (Or.inl rfl)
  | publish srp i src =>
    rw [hpc] at hok hbacked
    cases src with
    | none =>
      have hfree : (s.hazards c i).sh_p = none := hok
      refine ⟨?_, ?_⟩
      · simp [State.goto, State.setHazard, PcOk]
      · simp only [State.goto, State.setHazard, Function.update_self]
        apply hbacked.congr
        intro j r hj
        have hji : j ≠ i := by
          rintro rfl
          rw [hj.1] at hfree
          cases hfree
        exact solid_update hji (Or.inr (Or.inl rfl)) hj
    | some r =>
      obtain ⟨hrec, hmem⟩ := hok
      refine ⟨?_, ?_⟩
      · simp [State.goto, State.setHazard, State.drop, PcOk]
      · simp only [State.goto, State.setHazard, State.drop, Function.update_self]
        apply hbacked.drop (i := i) hrec hmem
        intro j t hji hj
        exact solid_update hji (Or.inr (Or.inl rfl)) hj
  | load srp i src =>
    rw [hpc] at hok
    exact localOk_goto h hok (Or.inr (by rw [hpc]; rfl))
  | store srp i v src =>
    rw [hpc] at hok hbacked
    have hrec : (s.hazards c i).sh_p = some srp := hok
    refine ⟨?_, ?_⟩
    · simp [State.goto, State.setHazard, PcOk, hrec]
    · simp only [State.goto, State.setHazard, Function.update_self]
      apply hbacked.congr
      intro j r hj
      have hji : j ≠ i := by
        rintro rfl
        exact hj.2 rfl
      exact solid_update hji (Or.inl rfl) hj
  | check srp i v src =>
    rw [hpc] at hok hbacked
    have hrec : s.hazards c i = ⟨some srp, v⟩ := hok
    simp only
    split_ifs with hcur
    · refine ⟨?_, ?_⟩
      · simp [State.goto, State.take, PcOk]
      · simp only [State.goto, State.take, Function.update_self]
        apply hbacked.take (i := i)
        · exact ⟨hrec, by simp [Pc.busy]⟩
        · exact fun hsolid => hsolid.2 rfl
        · intro j t hj
          exact ⟨hj.1, by simp [Pc.busy]⟩
    · refine localOk_goto h ?_ (Or.inr (by rw [hpc]; rfl))
      change (s.hazards c i).sh_p = some srp
      rw [hrec]
  | leave srp v i =>
    rw [hpc] at hok
    simp only
    split_ifs with hi hrec
    · exact localOk_goto h ⟨hrec, hok⟩ (Or.inl rfl)
    · exact localOk_goto h hok (Or.inl rfl)
    · exact localOk_goto h trivial (Or.inl rfl)
  | clear srp v i =>
    rw [hpc] at hok hbacked
    obtain ⟨hrec, hmem⟩ := hok
    refine ⟨?_, ?_⟩
    · simp [State.goto, State.setHazard, State.drop, PcOk]
    · simp only [State.goto, State.setHazard, State.drop, Function.update_self]
      apply hbacked.drop (i := i) hrec hmem
      intro j t hji hj
      exact solid_update hji (Or.inr (Or.inr rfl)) hj
  | follow srp v next i =>
    rw [hpc] at hok
    simp only
    split_ifs with hi hrec
    · exact localOk_goto h ⟨hrec, hok⟩ (Or.inl rfl)
    · exact localOk_goto h hok (Or.inl rfl)
    · exact localOk_goto h trivial (Or.inl rfl)
  | panic => exact h

/-- A step of one reader touches nothing of the others, of the updates and of the
collections. -/
theorem step_frame (s : State n π ν) (c : Fin n) :
    (s.step c).ref = s.ref ∧ (s.step c).gcs = s.gcs ∧ (s.step c).destroyed = s.destroyed ∧
      ∀ d, d ≠ c → (s.step c).hazards d = s.hazards d ∧ (s.step c).pc d = s.pc d ∧
        (s.step c).holds d = s.holds d := by
  have hgoto : ∀ pc : Pc π ν, (s.goto c pc).ref = s.ref ∧ (s.goto c pc).gcs = s.gcs ∧
      (s.goto c pc).destroyed = s.destroyed ∧
      ∀ d, d ≠ c → (s.goto c pc).hazards d = s.hazards d ∧ (s.goto c pc).pc d = s.pc d ∧
        (s.goto c pc).holds d = s.holds d := by
    intro pc
    refine ⟨rfl, rfl, rfl, fun d hd => ⟨rfl, ?_, rfl⟩⟩
    exact Function.update_of_ne hd _ _
  unfold State.step
  cases hpc : s.pc c with
  | idle | panic => exact ⟨rfl, rfl, rfl, fun d _ => ⟨rfl, rfl, rfl⟩⟩
  | enter srp i =>
    simp only
    split_ifs <;> exact hgoto _
  | publish srp i src =>
    cases src with
    | none =>
      refine ⟨rfl, rfl, rfl, fun d hd => ?_⟩
      simp [State.goto, State.setHazard, hd]
    | some r =>
      refine ⟨rfl, rfl, rfl, fun d hd => ?_⟩
      simp [State.goto, State.setHazard, State.drop, hd]
  | load srp i src => exact hgoto _
  | store srp i v src =>
    refine ⟨rfl, rfl, rfl, fun d hd => ?_⟩
    simp [State.goto, State.setHazard, hd]
  | check srp i v src =>
    simp only
    split_ifs
    · refine ⟨rfl, rfl, rfl, fun d hd => ?_⟩
      simp [State.goto, State.take, hd]
    · exact hgoto _
  | leave srp v i =>
    simp only
    split_ifs <;> exact hgoto _
  | clear srp v i =>
    refine ⟨rfl, rfl, rfl, fun d hd => ?_⟩
    simp [State.goto, State.setHazard, State.drop, hd]
  | follow srp v next i =>
    simp only
    split_ifs <;> exact hgoto _

/-- Record `i` of `c` stands for the reference `r`, or, where `w` asks for it, `srp_follow`
is at work on it coming from `r`. -/
def State.Uses (w : Bool) (s : State n π ν) (c : Fin n) (i : Fin SRP_HAZARD_NUM) (r : π × ν) :
    Prop :=
  Solid (s.hazards c) (s.pc c) i (r.1, some r.2) ∨ w = true ∧ (s.pc c).transit = some (i, r)

omit [DecidableEq π] [DecidableEq ν] in
theorem uses_congr {w : Bool} {s t : State n π ν} {c : Fin n} {i : Fin SRP_HAZARD_NUM} {r : π × ν}
    (h : t.Uses w c i r) (hhz : t.hazards c = s.hazards c) (hpc : t.pc c = s.pc c) :
    s.Uses w c i r := by
  unfold State.Uses at h ⊢
  rw [← hhz, ← hpc]
  exact h

omit [DecidableEq π] [DecidableEq ν] in
theorem uses_goto {w : Bool} {s : State n π ν} {c : Fin n} {pc : Pc π ν} {i : Fin SRP_HAZARD_NUM}
    {r : π × ν} (h : (s.goto c pc).Uses w c i r)
    (hbusy : (s.pc c).busy = none ∨ (s.pc c).busy = pc.busy)
    (htransit : pc.transit = none ∨ pc.transit = (s.pc c).transit) : s.Uses w c i r := by
  unfold State.Uses at h ⊢
  simp only [State.goto, Function.update_self] at h
  rcases h with hsolid | ⟨hw, htr⟩
  · refine Or.inl ⟨hsolid.1, ?_⟩
    rcases hbusy with hb | hb
    · rw [hb]
      simp
    · rw [hb]
      exact hsolid.2
  · rcases htransit with ht | ht
    · rw [ht] at htr
      cases htr
    · exact Or.inr ⟨hw, ht ▸ htr⟩

/-- A reader comes to use a reference only while it is the current one, or from a use it
has already. -/
theorem step_uses {w : Bool} {s : State n π ν} {c : Fin n} (hlocal : s.LocalOk c)
    {i : Fin SRP_HAZARD_NUM} {r : π × ν} (h : (s.step c).Uses w c i r) :
    s.Uses w c i r ∨ s.ref r.1 = some r.2 := by
  have hok := hlocal.1
  unfold State.step at h
  cases hpc : s.pc c with
  | idle | panic =>
    rw [hpc] at h
    exact Or.inl h
  | enter srp j =>
    rw [hpc] at h
    simp only at h
    left
    split_ifs at h <;> exact uses_goto h (Or.inl (by rw [hpc]; rfl)) (Or.inl rfl)
  | publish srp j src =>
    rw [hpc] at h hok
    left
    cases src with
    | none =>
      rcases h with hsolid | ⟨-, htr⟩
      · simp only [State.goto, State.setHazard, Function.update_self] at hsolid
        have hji : i ≠ j := fun heq => hsolid.2 (by rw [heq]; rfl)
        refine Or.inl ⟨?_, by rw [hpc]; simp [Pc.busy]⟩
        rw [← hsolid.1, Function.update_of_ne hji]
      · simp [State.goto, State.setHazard, Pc.transit] at htr
    | some t =>
      rcases h with hsolid | ⟨-, htr⟩
      · simp only [State.goto, State.setHazard, State.drop, Function.update_self] at hsolid
        have hji : i ≠ j := fun heq => hsolid.2 (by rw [heq]; rfl)
        refine Or.inl ⟨?_, by rw [hpc]; simp [Pc.busy]⟩
        rw [← hsolid.1, Function.update_of_ne hji]
      · -- the record still stood for the node
        simp only [State.goto, State.setHazard, State.drop, Function.update_self, Pc.transit,
          Option.map_some, Option.some.injEq, Prod.mk.injEq] at htr
        obtain ⟨rfl, rfl⟩ := htr
        exact Or.inl ⟨hok.1, by rw [hpc]; simp [Pc.busy]⟩
  | load srp j src =>
    rw [hpc] at h
    exact Or.inl (uses_goto h (Or.inr (by rw [hpc]; rfl)) (Or.inr (by rw [hpc]; rfl)))
  | store srp j v src =>
    rw [hpc] at h
    left
    rcases h with hsolid | ⟨hw, htr⟩
    · simp only [State.goto, State.setHazard, Function.update_self] at hsolid
      have hji : i ≠ j := fun heq => hsolid.2 (by rw [heq]; rfl)
      refine Or.inl ⟨?_, ?_⟩
      · rw [← hsolid.1, Function.update_of_ne hji]
      · rw [hpc]
        exact fun heq => hji (Option.some.inj heq).symm
    · refine Or.inr ⟨hw, ?_⟩
      simpa [State.goto, State.setHazard, Pc.transit, hpc] using htr
  | check srp j v src =>
    rw [hpc] at h hok
    simp only at h
    split_ifs at h with hcur
    · rcases h with hsolid | ⟨-, htr⟩
      · simp only [State.goto, State.take, Function.update_self] at hsolid
        by_cases hji : i = j
        · right
          subst hji
          have heq := hsolid.1.symm.trans hok
          simp only [Hazard.mk.injEq, Option.some.injEq] at heq
          rw [heq.1, ← hcur, ← heq.2]
        · left
          refine Or.inl ⟨hsolid.1, ?_⟩
          rw [hpc]
          exact fun heq => hji (Option.some.inj heq).symm
      · simp [State.goto, State.take, Pc.transit] at htr
    · exact Or.inl (uses_goto h (Or.inr (by rw [hpc]; rfl)) (Or.inr (by rw [hpc]; rfl)))
  | leave srp v j =>
    rw [hpc] at h
    simp only at h
    left
    split_ifs at h <;> exact uses_goto h (Or.inl (by rw [hpc]; rfl)) (Or.inl rfl)
  | clear srp v j =>
    rw [hpc] at h
    left
    rcases h with hsolid | ⟨-, htr⟩
    · simp only [State.goto, State.setHazard, State.drop, Function.update_self] at hsolid
      have hji : i ≠ j := by
        rintro rfl
        have := hsolid.1
        simp at this
      refine Or.inl ⟨?_, by rw [hpc]; simp [Pc.busy]⟩
      rw [← hsolid.1, Function.update_of_ne hji]
    · simp [State.goto, State.setHazard, State.drop, Pc.transit] at htr
  | follow srp v next j =>
    rw [hpc] at h
    simp only at h
    left
    split_ifs at h <;> exact uses_goto h (Or.inl (by rw [hpc]; rfl)) (Or.inl rfl)

end OpenbsdKernel.Srp
