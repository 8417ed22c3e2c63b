import OpenbsdKernel.Net.Hfsc.Curve

/-!
# Times of a class

What `net/hfsc.c` computes from the curves of a class while it is backlogged: the eligible time in
`hfsc_init_ed` and `hfsc_update_ed`, and the virtual time in `hfsc_init_vf` and `hfsc_update_vf`.
The lists of classes that are sorted by these times are taken to be sorted as long as the times do
not decrease.
-/
namespace OpenbsdKernel.Hfsc

/-- The fields of `struct hfsc_class` that are about its times. -/
structure Class where
  cl_deadline : RuntimeSc
  cl_eligible : RuntimeSc
  cl_cumul : Word
  cl_e : Word
  cl_d : Word
  cl_virtual : RuntimeSc
  cl_total : Word
  cl_vt : Word
  cl_initvt : Word
  cl_vtoff : Word
  cl_vtadj : Word
  deriving DecidableEq

/-- What the parent says when a class becomes active: the virtual time of the last of its active
children, `cl_cvtmin` and `cl_cvtmax`, and whether its period is still that of the class. -/
structure Parent where
  last : Option Word
  cl_cvtmin : Word
  cl_cvtmax : Word
  samePeriod : Bool
  deriving DecidableEq

def Class.create (rsc fsc : InternalSc) : Class :=
  ⟨rtscInit rsc 0 0, rtscInit rsc 0 0, 0, 0, 0, rtscInit fsc 0 0, 0, 0, 0, 0, 0⟩

/-- `hfsc_init_ed` -/
def initEd (rsc : InternalSc) (cur_time next_len : Word) (cl : Class) : Class :=
  let deadline := rtscMin cl.cl_deadline rsc cur_time cl.cl_cumul
  let eligible := if rsc.sm1 ≤ rsc.sm2 then { deadline with dx := 0, dy := 0 } else deadline
  { cl with
    cl_deadline := deadline
    cl_eligible := eligible
    cl_e := rtscY2x eligible cl.cl_cumul
    cl_d := rtscY2x deadline (cl.cl_cumul + next_len) }

/-- `len` bytes are served in real time, and `hfsc_update_ed` is called. -/
def updateEd (len next_len : Word) (cl : Class) : Class :=
  let cumul := cl.cl_cumul + len
  { cl with
    cl_cumul := cumul
    cl_e := rtscY2x cl.cl_eligible cumul
    cl_d := rtscY2x cl.cl_deadline (cumul + next_len) }

/-- The virtual time that `hfsc_init_vf` starts a backlogged period with. -/
def startVt (p : Parent) (cl : Class) : Class :=
  match p.last with
  | some last =>
    let vt := if p.cl_cvtmin ≠ 0 then (p.cl_cvtmin + last) / 2 else last
    if p.samePeriod = false ∨ cl.cl_vt < vt then { cl with cl_vt := vt } else cl
  | none => { cl with cl_vtoff := cl.cl_vtoff + p.cl_cvtmax, cl_vt := 0 }

/-- `hfsc_init_vf` for a class that becomes active. -/
def initVf (fsc : InternalSc) (p : Parent) (cl : Class) : Class :=
  let cl := startVt p cl
  let vt := cl.cl_vt + cl.cl_vtoff
  let virtual := rtscMin cl.cl_virtual fsc vt cl.cl_total
  let cl := { cl with cl_initvt := cl.cl_vt, cl_vtadj := 0 }
  if virtual.x = vt then
    { cl with cl_virtual := { virtual with x := virtual.x - cl.cl_vtoff }, cl_vtoff := 0 }
  else { cl with cl_virtual := virtual }

/-- `hfsc_update_vf` for a class that stays active, with the `cl_cvtmin` of its parent. -/
def updateVf (len cvtmin : Word) (cl : Class) : Class :=
  let total := cl.cl_total + len
  let vt := rtscY2x cl.cl_virtual total - cl.cl_vtoff + cl.cl_vtadj
  if vt < cvtmin then { cl with cl_total := total, cl_vt := cvtmin, cl_vtadj := cl.cl_vtadj + (cvtmin - vt) }
  else { cl with cl_total := total, cl_vt := vt }

/-- `hfsc_update_vf` for a class whose last packet is sent. -/
def endVf (len : Word) (cl : Class) : Class := { cl with cl_total := cl.cl_total + len }

section Eligible

variable {sc : Sc} {cl : Class}

/-- The states of a class in a period in which it has packets. -/
inductive EdPeriod (sc : Sc) : Class → Prop
  | init {c : Class} (h : Derived (sc2isc sc) c.cl_deadline) (cur_time next_len : Word) :
      EdPeriod sc (initEd (sc2isc sc) cur_time next_len c)
  | update {c : Class} (h : EdPeriod sc c) (len next_len : Word) : EdPeriod sc (updateEd len next_len c)

theorem EdPeriod.spec (h : EdPeriod sc cl) :
    Derived (sc2isc sc) cl.cl_eligible ∧ cl.cl_e = rtscY2x cl.cl_eligible cl.cl_cumul := by
  induction h with
  | @init cl h cur_time next_len =>
    refine ⟨?_, rfl⟩
    have hmin := h.min cur_time cl.cl_cumul
    rw [initEd]
    dsimp only
    split
    · next hconvex => exact hmin.eligible hconvex
    · exact hmin
  | update h len next_len ih => exact ⟨ih.1, rfl⟩

/-- No number of `hfsc_update_ed` is too large. -/
structure EdFits (len : Word) (cl : Class) : Prop where
  cumul : cl.cl_cumul.toNat + len.toNat ≤ 2 ^ 63
  joint : cl.cl_eligible.jointY ≤ 2 ^ 63
  time : exactY2x cl.cl_eligible (cl.cl_cumul.toNat + len.toNat) ≤ (2 ^ 63 : ℕ)

theorem EdPeriod.le_updateEd (h : EdPeriod sc cl) {len : Word} (hfits : EdFits len cl) (next_len : Word) :
    cl.cl_e ≤ (updateEd len next_len cl).cl_e := by
  obtain ⟨hderived, he⟩ := h.spec
  have hsum : (cl.cl_cumul + len).toNat = cl.cl_cumul.toNat + len.toNat :=
    toNat_add_of_lt (by have := hfits.cumul; omega)
  rw [he]
  refine hderived.segments.rtscY2x_mono (BitVec.le_def.2 (by omega)) hfits.joint ?_
  rw [hsum]
  exact hfits.time

end Eligible

section Virtual

variable {sc : Sc} {cl : Class}

/-- The virtual time of a class is not ahead of its curve. -/
def NotAhead (cl : Class) : Prop :=
  cl.cl_vt.toNat + cl.cl_vtoff.toNat ≤ (rtscY2x cl.cl_virtual cl.cl_total).toNat + cl.cl_vtadj.toNat

instance (cl : Class) : Decidable (NotAhead cl) := inferInstanceAs (Decidable (_ ≤ _))

/-- The step keeps the virtual time from decreasing: the class is not ahead of its curve, or it is
chosen for its virtual time, which `cl_cvtmin` has reached then, and the new one does not wrap. -/
def Meets (len cvtmin : Word) (cl : Class) : Prop :=
  NotAhead cl ∨ cl.cl_vt ≤ cvtmin ∧
    cl.cl_vtoff.toNat ≤ (rtscY2x cl.cl_virtual (cl.cl_total + len)).toNat + cl.cl_vtadj.toNat

/-- No number of `hfsc_update_vf` is too large. -/
structure VfFits (len cvtmin : Word) (cl : Class) : Prop where
  total : cl.cl_total.toNat + len.toNat ≤ 2 ^ 63
  joint : cl.cl_virtual.jointY ≤ 2 ^ 63
  time : exactY2x cl.cl_virtual (cl.cl_total.toNat + len.toNat) ≤ (2 ^ 63 : ℕ)
  vt : (rtscY2x cl.cl_virtual (cl.cl_total + len)).toNat + cl.cl_vtadj.toNat ≤ 2 ^ 63
  adj : cl.cl_vtadj.toNat + cvtmin.toNat ≤ 2 ^ 63

/-- The states of a class in backlogged periods whose steps meet the condition. -/
inductive VfPeriod (sc : Sc) : Class → Prop
  | init {c : Class} (h : Derived (sc2isc sc) c.cl_virtual) (p : Parent) : VfPeriod sc (initVf (sc2isc sc) p c)
  | update {c : Class} (h : VfPeriod sc c) (len cvtmin : Word) (hmeets : Meets len cvtmin c)
      (hfits : VfFits len cvtmin c) : VfPeriod sc (updateVf len cvtmin c)

theorem derived_startVt {isc : InternalSc} (h : Derived isc cl.cl_virtual) (p : Parent) :
    Derived isc (startVt p cl).cl_virtual := by
  have hite (q : Prop) [Decidable q] (vt : Word) :
      Derived isc (if q then { cl with cl_vt := vt } else cl).cl_virtual := by
    split
    · exact h
    · exact h
  rw [startVt]
  cases p.last with
  | some last => exact hite _ _
  | none => exact h

theorem derived_initVf {isc : InternalSc} (h : Derived isc cl.cl_virtual) (p : Parent) :
    Derived isc (initVf isc p cl).cl_virtual := by
  have hmin := (derived_startVt h p).min ((startVt p cl).cl_vt + (startVt p cl).cl_vtoff) (startVt p cl).cl_total
  rw [initVf]
  dsimp only
  split
  · exact hmin.moved _
  · exact hmin

theorem updateVf_virtual (len cvtmin : Word) (cl : Class) : (updateVf len cvtmin cl).cl_virtual = cl.cl_virtual := by
  rw [updateVf]
  split <;> rfl

theorem VfPeriod.derived (h : VfPeriod sc cl) : Derived (sc2isc sc) cl.cl_virtual := by
  induction h with
  | init h p => exact derived_initVf h p
  | update h len cvtmin hmeets hfits ih =>
    rw [updateVf_virtual]
    exact ih

/-- A step that meets the condition does not decrease the virtual time, and the class is not ahead of
its curve afterwards. -/
theorem updateVf_spec (h : Derived (sc2isc sc) cl.cl_virtual) {len cvtmin : Word} (hmeets : Meets len cvtmin cl)
    (hfits : VfFits len cvtmin cl) :
    cl.cl_vt ≤ (updateVf len cvtmin cl).cl_vt ∧ NotAhead (updateVf len cvtmin cl) := by
  have hsum : (cl.cl_total + len).toNat = cl.cl_total.toNat + len.toNat :=
    toNat_add_of_lt (by have := hfits.total; omega)
  have hle : cl.cl_total ≤ cl.cl_total + len := BitVec.le_def.2 (by omega)
  have htime := h.segments.rtscY2x_mono hle hfits.joint (by rw [hsum]; exact hfits.time)
  rw [BitVec.le_def] at htime
  set t₁ := rtscY2x cl.cl_virtual cl.cl_total with ht₁
  set t₂ := rtscY2x cl.cl_virtual (cl.cl_total + len) with ht₂
  have hoff : cl.cl_vtoff.toNat ≤ t₂.toNat + cl.cl_vtadj.toNat := by
    rcases hmeets with hahead | ⟨-, hoff⟩
    · rw [NotAhead, ← ht₁] at hahead
      omega
    · exact hoff
  have hvt : (t₂ - cl.cl_vtoff + cl.cl_vtadj).toNat = t₂.toNat + cl.cl_vtadj.toNat - cl.cl_vtoff.toNat := by
    have hbound := hfits.vt
    rw [← ht₂] at hbound
    have := cl.cl_vtoff.isLt
    rw [BitVec.toNat_add, BitVec.toNat_sub, Nat.mod_add_mod,
      show 2 ^ 64 - cl.cl_vtoff.toNat + t₂.toNat + cl.cl_vtadj.toNat =
        t₂.toNat + cl.cl_vtadj.toNat - cl.cl_vtoff.toNat + 2 ^ 64 by omega, Nat.add_mod_right]
    exact Nat.mod_eq_of_lt (by omega)
  rw [updateVf, ← ht₂]
  by_cases hmin : t₂ - cl.cl_vtoff + cl.cl_vtadj < cvtmin
  · rw [if_pos hmin]
    rw [BitVec.lt_def, hvt] at hmin
    refine ⟨BitVec.le_def.2 ?_, ?_⟩
    · rcases hmeets with hahead | ⟨hle, -⟩
      · rw [NotAhead, ← ht₁] at hahead
        change cl.cl_vt.toNat ≤ cvtmin.toNat
        omega
      · exact BitVec.le_def.1 hle
    · have hadj := hfits.adj
      rw [NotAhead]
      dsimp only
      rw [← ht₂, BitVec.toNat_add, BitVec.toNat_sub, hvt]
      omega
  · rw [if_neg hmin]
    rw [BitVec.lt_def, hvt] at hmin
    refine ⟨BitVec.le_def.2 ?_, ?_⟩
    · change cl.cl_vt.toNat ≤ (t₂ - cl.cl_vtoff + cl.cl_vtadj).toNat
      rw [hvt]
      rcases hmeets with hahead | ⟨hle, -⟩
      · rw [NotAhead, ← ht₁] at hahead
        omega
      · rw [BitVec.le_def] at hle
        omega
    · rw [NotAhead]
      dsimp only
      rw [← ht₂, hvt]
      omega

theorem VfPeriod.le_updateVf (h : VfPeriod sc cl) {len cvtmin : Word} (hmeets : Meets len cvtmin cl)
    (hfits : VfFits len cvtmin cl) :
    cl.cl_vt ≤ (updateVf len cvtmin cl).cl_vt ∧ NotAhead (updateVf len cvtmin cl) :=
  updateVf_spec h.derived hmeets hfits

theorem le_exactY2x (rtsc : RuntimeSc) (y : ℕ) : (rtsc.x.toNat : ℕ∞) ≤ exactY2x rtsc y := by
  have hjoint : (rtsc.x.toNat : ℕ∞) ≤ rtsc.jointX := Nat.cast_le.2 (Nat.le_add_right _ _)
  rw [exactY2x]
  split
  · exact le_rfl
  · split
    · split
      · exact hjoint
      · exact le_self_add
    · exact hjoint.trans le_self_add

theorem notAhead_of_start (h : Derived (sc2isc sc) cl.cl_virtual)
    (hstart : cl.cl_virtual.x = cl.cl_vt + cl.cl_vtoff) (hsum : cl.cl_vt.toNat + cl.cl_vtoff.toNat ≤ 2 ^ 63)
    (hjoint : cl.cl_virtual.jointY ≤ 2 ^ 63)
    (hfit : exactY2x cl.cl_virtual cl.cl_total.toNat ≤ (2 ^ 63 : ℕ)) : NotAhead cl := by
  have hexact := h.segments.rtscY2x_exact (by omega) (le_two_pow_63 hfit)
  have hle : cl.cl_virtual.x.toNat ≤ (rtscY2x cl.cl_virtual cl.cl_total).toNat := by
    have hle := le_exactY2x cl.cl_virtual cl.cl_total.toNat
    rw [← hexact] at hle
    exact Nat.cast_le.1 hle
  rw [hstart, toNat_add_of_lt (by omega)] at hle
  exact hle.trans (Nat.le_add_right _ _)

end Virtual

/-- The projections of every curve of a class are monotone, and neither eligible nor virtual times
decrease in a period, but for a class that `hfsc_init_vf` put ahead of a curve it left as it was and that is
then chosen in real time, or whose new virtual time wraps. -/
theorem times_monotone (sc : Sc) :
    (∀ rtsc, Derived (sc2isc sc) rtsc →
      (∀ y₁ y₂ : Word, y₁ ≤ y₂ → rtsc.jointY ≤ 2 ^ 63 → exactY2x rtsc y₂.toNat ≤ (2 ^ 63 : ℕ) →
        rtscY2x rtsc y₁ ≤ rtscY2x rtsc y₂) ∧
      (∀ x₁ x₂ : Word, x₁ ≤ x₂ → rtsc.jointX ≤ 2 ^ 63 → exactX2y rtsc x₂.toNat ≤ 2 ^ 63 →
        rtscX2y rtsc x₁ ≤ rtscX2y rtsc x₂)) ∧
    (∀ cl, EdPeriod sc cl → ∀ len next_len, EdFits len cl → cl.cl_e ≤ (updateEd len next_len cl).cl_e) ∧
    (∀ cl, VfPeriod sc cl →
      (cl.cl_virtual.x = cl.cl_vt + cl.cl_vtoff → cl.cl_vt.toNat + cl.cl_vtoff.toNat ≤ 2 ^ 63 →
        cl.cl_virtual.jointY ≤ 2 ^ 63 → exactY2x cl.cl_virtual cl.cl_total.toNat ≤ (2 ^ 63 : ℕ) →
        NotAhead cl) ∧
      ∀ len cvtmin, Meets len cvtmin cl → VfFits len cvtmin cl →
        cl.cl_vt ≤ (updateVf len cvtmin cl).cl_vt ∧ NotAhead (updateVf len cvtmin cl)) := by
  refine ⟨fun rtsc h => ⟨?_, ?_⟩, fun cl h len next_len hfits => h.le_updateEd hfits next_len, fun cl h => ⟨?_, ?_⟩⟩
  · intro y₁ y₂ hle hjoint hfit
    exact h.segments.rtscY2x_mono hle hjoint hfit
  · intro x₁ x₂ hle hjoint hfit
    exact h.segments.rtscX2y_mono hle hjoint hfit
  · exact notAhead_of_start h.derived
  · intro len cvtmin hmeets hfits
    exact h.le_updateVf hmeets hfits

def burstSc : Sc := ⟨8000000, 10, 4000000⟩

def burstClass : Class := Class.create (sc2isc burstSc) (sc2isc burstSc)

def restarted : Class :=
  initVf (sc2isc burstSc) ⟨none, 0, 20000000, false⟩
    (endVf 9000 (updateVf 9000 0 (initVf (sc2isc burstSc) ⟨none, 0, 0, false⟩ burstClass)))

/-- The curves are moved to the start of the period, and the second packet is behind their joint. -/
theorem times_monotone_burst :
    rtscY2x (rtscMin (rtscInit (sc2isc burstSc) 0 0) (sc2isc burstSc) 20000000 18000) 27000 ≤
      rtscY2x (rtscMin (rtscInit (sc2isc burstSc) 0 0) (sc2isc burstSc) 20000000 18000) 36000 ∧
    (updateEd 9000 1500 (initEd (sc2isc burstSc) 20000000 9000 { burstClass with cl_cumul := 18000 })).cl_e ≤
      (updateEd 9000 1500 (updateEd 9000 1500
        (initEd (sc2isc burstSc) 20000000 9000 { burstClass with cl_cumul := 18000 }))).cl_e ∧
    (updateVf 9000 0 restarted).cl_vt ≤ (updateVf 9000 0 (updateVf 9000 0 restarted)).cl_vt := by
  obtain ⟨hcurves, heligible, hvirtual⟩ := times_monotone burstSc
  refine ⟨?_, ?_, ?_⟩
  · exact (hcurves _ (.min (.init 0 0) _ _)).1 _ _ (by decide) (by decide) (by decide)
  · exact heligible _ (.update (.init (.init 0 0) _ _) _ _) _ _ ⟨by decide, by decide, by decide⟩
  · have hperiod : VfPeriod burstSc restarted := by
      refine .init ?_ _
      rw [endVf, updateVf_virtual]
      exact derived_initVf (.init 0 0) _
    have hahead := (hvirtual _ hperiod).1 (by decide) (by decide) (by decide) (by decide)
    have hfits : VfFits 9000 0 restarted := ⟨by decide, by decide, by decide, by decide, by decide⟩
    have hahead' := ((hvirtual _ hperiod).2 _ _ (.inl hahead) hfits).2
    exact ((hvirtual _ (hperiod.update _ _ (.inl hahead) hfits)).2 _ _ (.inl hahead')
      ⟨by decide, by decide, by decide, by decide, by decide⟩).1

def evenSc : Sc := ⟨4000000000, 0, 4000000000⟩

def evenClass : Class := Class.create (sc2isc evenSc) (sc2isc evenSc)

/-- The class is active, passive, and again active while its parent has other active classes. -/
def resumed : Class :=
  initVf (sc2isc evenSc) ⟨some 1966500, 1965500, 0, true⟩
    (endVf 60000 ((updateVf 60000 0)^[63] (initVf (sc2isc evenSc) ⟨none, 0, 0, false⟩ evenClass)))

theorem resumed_eq : resumed = { evenClass with cl_total := 3840000, cl_vt := 1966000, cl_initvt := 1966000 } := by
  decide +kernel

/-- The class is chosen for its deadline before the virtual times have come to its own. -/
theorem virtualTime_decreases :
    VfFits 1500 1965500 resumed ∧ (updateVf 1500 1965500 resumed).cl_vt < resumed.cl_vt := by
  rw [resumed_eq]
  refine ⟨⟨?_, ?_, ?_, ?_, ?_⟩, ?_⟩
  · decide +kernel
  · decide +kernel
  · decide +kernel
  · decide +kernel
  · decide +kernel
  · decide +kernel

/-- In a new period of the parent `cl_vtoff` may be ahead of the curve: the difference wraps around. -/
example :
    let cl := initVf (sc2isc evenSc) ⟨none, 0, 1965500, false⟩ { evenClass with cl_total := 3840000 }
    (updateVf 64 0 cl).cl_vt = -468 ∧ (updateVf 1500 0 (updateVf 64 0 cl)).cl_vt = 300 := by
  decide +kernel

end OpenbsdKernel.Hfsc
