import Mathlib.Data.ENat.Basic
import Mathlib.Tactic

/-!
# Service curves

The curves of `net/hfsc.c`: two segments, with slopes and inverse slopes that are rounded on their
own in two scales of fixed point, and an infinity for rates that are zero. All sums are modulo the
size of a word.
-/
namespace OpenbsdKernel.Hfsc

abbrev Word := BitVec 64

def SM_SHIFT : ℕ := 24
def ISM_SHIFT : ℕ := 10
def SM_MASK : Word := 1#64 <<< SM_SHIFT - 1
def ISM_MASK : Word := 1#64 <<< ISM_SHIFT - 1
def HFSC_FREQ : Word := 1000000 <<< 8
def HFSC_HT_INFINITY : Word := 0xffffffffffffffff

/-- `struct hfsc_sc` -/
structure Sc where
  m1 : BitVec 32
  d : BitVec 32
  m2 : BitVec 32
  deriving DecidableEq, Repr

/-- `struct hfsc_internal_sc` -/
structure InternalSc where
  sm1 : Word
  ism1 : Word
  dx : Word
  dy : Word
  sm2 : Word
  ism2 : Word
  deriving DecidableEq, Repr

/-- `struct hfsc_runtime_sc` -/
structure RuntimeSc where
  x : Word
  y : Word
  sm1 : Word
  ism1 : Word
  dx : Word
  dy : Word
  sm2 : Word
  ism2 : Word
  deriving DecidableEq, Repr

def segX2y (x sm : Word) : Word := (x >>> SM_SHIFT) * sm + (((x &&& SM_MASK) * sm) >>> SM_SHIFT)

def segY2x (y ism : Word) : Word :=
  if y = 0 then 0
  else if ism = HFSC_HT_INFINITY then HFSC_HT_INFINITY
  else (y >>> ISM_SHIFT) * ism + (((y &&& ISM_MASK) * ism) >>> ISM_SHIFT)

def m2sm (m : BitVec 32) : Word := (m.setWidth 64 <<< SM_SHIFT) / 8 / HFSC_FREQ

def m2ism (m : BitVec 32) : Word :=
  if m = 0 then HFSC_HT_INFINITY else (HFSC_FREQ <<< ISM_SHIFT) * 8 / m.setWidth 64

def d2dx (d : BitVec 32) : Word := d.setWidth 64 * HFSC_FREQ / 1000

/-- `hfsc_sc2isc` -/
def sc2isc (sc : Sc) : InternalSc where
  sm1 := m2sm sc.m1
  ism1 := m2ism sc.m1
  dx := d2dx sc.d
  dy := segX2y (d2dx sc.d) (m2sm sc.m1)
  sm2 := m2sm sc.m2
  ism2 := m2ism sc.m2

/-- `hfsc_rtsc_init` -/
def rtscInit (isc : InternalSc) (x y : Word) : RuntimeSc :=
  ⟨x, y, isc.sm1, isc.ism1, isc.dx, isc.dy, isc.sm2, isc.ism2⟩

/-- `hfsc_rtsc_y2x` -/
def rtscY2x (rtsc : RuntimeSc) (y : Word) : Word :=
  if y < rtsc.y then rtsc.x
  else if y ≤ rtsc.y + rtsc.dy then
    if rtsc.dy = 0 then rtsc.x + rtsc.dx else rtsc.x + segY2x (y - rtsc.y) rtsc.ism1
  else rtsc.x + rtsc.dx + segY2x (y - rtsc.y - rtsc.dy) rtsc.ism2

/-- `hfsc_rtsc_x2y` -/
def rtscX2y (rtsc : RuntimeSc) (x : Word) : Word :=
  if x ≤ rtsc.x then rtsc.y
  else if x ≤ rtsc.x + rtsc.dx then rtsc.y + segX2y (x - rtsc.x) rtsc.sm1
  else rtsc.y + rtsc.dy + segX2y (x - rtsc.x - rtsc.dx) rtsc.sm2

/-- Where the two curves intersect, from the start at `x` on. -/
def intersection (rtsc : RuntimeSc) (isc : InternalSc) (x y y1 : Word) : Word :=
  let dx := ((y1 - y) <<< SM_SHIFT) / (isc.sm1 - isc.sm2)
  if x < rtsc.x + rtsc.dx then dx + (rtsc.x + rtsc.dx - x) else dx

/-- `hfsc_rtsc_min` -/
def rtscMin (rtsc : RuntimeSc) (isc : InternalSc) (x y : Word) : RuntimeSc :=
  let y1 := rtscX2y rtsc x
  if isc.sm1 ≤ isc.sm2 then
    if y1 < y then rtsc else { rtsc with x := x, y := y }
  else if y1 ≤ y then rtsc
  else
    let y2 := rtscX2y rtsc (x + isc.dx)
    if y + isc.dy ≤ y2 then { rtsc with x := x, y := y, dx := isc.dx, dy := isc.dy }
    else
      let dx := intersection rtsc isc x y y1
      { rtsc with x := x, y := y, dx := dx, dy := segX2y dx isc.sm1 }

/-- The curves of a class: what `hfsc_rtsc_init` and `hfsc_rtsc_min` leave, the eligible curve that
`hfsc_init_ed` makes of a convex one, and the virtual curve that `hfsc_init_vf` moves. -/
inductive Derived (isc : InternalSc) : RuntimeSc → Prop
  | init (x y : Word) : Derived isc (rtscInit isc x y)
  | min {rtsc} (h : Derived isc rtsc) (x y : Word) : Derived isc (rtscMin rtsc isc x y)
  | eligible {rtsc} (h : Derived isc rtsc) (hconvex : isc.sm1 ≤ isc.sm2) :
      Derived isc { rtsc with dx := 0, dy := 0 }
  | moved {rtsc} (h : Derived isc rtsc) (vtoff : Word) : Derived isc { rtsc with x := rtsc.x - vtoff }

/-- The time that `y` bytes take at an inverse slope. -/
def exactTime (y : ℕ) (ism : Word) : ℕ∞ :=
  if y = 0 then 0 else if ism = HFSC_HT_INFINITY then ⊤ else ((y * ism.toNat / 2 ^ ISM_SHIFT : ℕ) : ℕ∞)

/-- The bytes that are served in the time `x` at a slope. -/
def exactBytes (x : ℕ) (sm : Word) : ℕ := x * sm.toNat / 2 ^ SM_SHIFT

/-- The point where the segments of a curve meet. -/
def RuntimeSc.jointX (rtsc : RuntimeSc) : ℕ := rtsc.x.toNat + rtsc.dx.toNat

def RuntimeSc.jointY (rtsc : RuntimeSc) : ℕ := rtsc.y.toNat + exactBytes rtsc.dx.toNat rtsc.sm1

/-- The x-projection without bounds on numbers. -/
def exactY2x (rtsc : RuntimeSc) (y : ℕ) : ℕ∞ :=
  if y < rtsc.y.toNat then rtsc.x.toNat
  else if y ≤ rtsc.jointY then
    if rtsc.jointY = rtsc.y.toNat then rtsc.jointX
    else rtsc.x.toNat + exactTime (y - rtsc.y.toNat) rtsc.ism1
  else rtsc.jointX + exactTime (y - rtsc.jointY) rtsc.ism2

/-- The y-projection without bounds on numbers. -/
def exactX2y (rtsc : RuntimeSc) (x : ℕ) : ℕ :=
  if x ≤ rtsc.x.toNat then rtsc.y.toNat
  else if x ≤ rtsc.jointX then rtsc.y.toNat + exactBytes (x - rtsc.x.toNat) rtsc.sm1
  else rtsc.jointY + exactBytes (x - rtsc.jointX) rtsc.sm2

/-- What is kept of the segments of a curve. -/
structure Segments (rtsc : RuntimeSc) : Prop where
  joint : rtsc.dy = segX2y rtsc.dx rtsc.sm1
  sm1 : rtsc.sm1.toNat < 2 ^ 26
  sm2 : rtsc.sm2.toNat < 2 ^ 26
  ism1 : rtsc.ism1 = HFSC_HT_INFINITY ∨ rtsc.ism1.toNat < 2 ^ 42
  ism2 : rtsc.ism2 = HFSC_HT_INFINITY ∨ rtsc.ism2.toNat < 2 ^ 42
  /-- Both roundings are down, and a slope that is not zero has an inverse. -/
  inverse : rtsc.sm1 ≠ 0 → rtsc.ism1 ≠ HFSC_HT_INFINITY ∧
    rtsc.sm1.toNat * rtsc.ism1.toNat ≤ 2 ^ SM_SHIFT * 2 ^ ISM_SHIFT

section FixedPoint

variable {x y sm ism : Word} {m : BitVec 32}

theorem split_mul_div (k x s : ℕ) : x / 2 ^ k * s + x % 2 ^ k * s / 2 ^ k = x * s / 2 ^ k := by
  have hpos : 0 < 2 ^ k := Nat.two_pow_pos k
  conv_rhs => rw [← Nat.div_add_mod x (2 ^ k), Nat.add_mul, Nat.mul_assoc]
  rw [Nat.mul_add_div hpos]

theorem toNat_lowBits (x : Word) (k : ℕ) (hk : k < 64) : (x &&& (1#64 <<< k - 1)).toNat = x.toNat % 2 ^ k := by
  have hlt : 2 ^ k < 2 ^ 64 := Nat.pow_lt_pow_right (by decide) hk
  have hmask : (1#64 <<< k - 1).toNat = 2 ^ k - 1 := by
    have hshift : (1#64 <<< k).toNat = 2 ^ k := by
      rw [BitVec.toNat_shiftLeft, BitVec.toNat_ofNat, Nat.shiftLeft_eq, Nat.mod_eq_of_lt (by decide : 1 < 2 ^ 64),
        Nat.one_mul, Nat.mod_eq_of_lt hlt]
    have hle : (1 : Word) ≤ 1#64 <<< k := by
      rw [BitVec.le_def, hshift]
      exact Nat.one_le_two_pow
    rw [BitVec.toNat_sub_of_le hle, hshift]
    rfl
  rw [BitVec.toNat_and, hmask, Nat.and_two_pow_sub_one_eq_mod]

theorem toNat_scaled {v s : Word} {k : ℕ} (hk : k < 64) (hlow : s.toNat * 2 ^ k ≤ 2 ^ 64)
    (hfit : v.toNat * s.toNat / 2 ^ k < 2 ^ 64) :
    ((v >>> k) * s + (((v &&& (1#64 <<< k - 1)) * s) >>> k)).toNat = v.toNat * s.toNat / 2 ^ k := by
  have hmod : v.toNat % 2 ^ k < 2 ^ k := Nat.mod_lt _ (Nat.two_pow_pos k)
  have hprod : v.toNat % 2 ^ k * s.toNat < 2 ^ 64 := by
    by_cases hzero : s.toNat = 0
    · rw [hzero, Nat.mul_zero]
      decide
    · calc v.toNat % 2 ^ k * s.toNat < 2 ^ k * s.toNat :=
            Nat.mul_lt_mul_of_pos_right hmod (Nat.pos_of_ne_zero hzero)
        _ ≤ 2 ^ 64 := by rwa [Nat.mul_comm]
  have hsum := split_mul_div k v.toNat s.toNat
  have hupper : v.toNat / 2 ^ k * s.toNat < 2 ^ 64 := by
    rw [← hsum] at hfit
    exact (Nat.le_add_right _ _).trans_lt hfit
  rw [BitVec.toNat_add, BitVec.toNat_mul, BitVec.toNat_ushiftRight, BitVec.toNat_ushiftRight, BitVec.toNat_mul,
    toNat_lowBits v k hk, Nat.shiftRight_eq_div_pow, Nat.shiftRight_eq_div_pow, Nat.mod_eq_of_lt hprod,
    Nat.mod_eq_of_lt hupper, hsum, Nat.mod_eq_of_lt hfit]

theorem toNat_segX2y (hsm : sm.toNat < 2 ^ 26) (hfit : exactBytes x.toNat sm < 2 ^ 64) :
    (segX2y x sm).toNat = exactBytes x.toNat sm :=
  toNat_scaled (by decide) (by simp only [SM_SHIFT]; omega) hfit

theorem toNat_segY2x (hism : ism = HFSC_HT_INFINITY ∨ ism.toNat < 2 ^ 42)
    (hfit : exactTime y.toNat ism < (2 ^ 64 : ℕ)) : ((segY2x y ism).toNat : ℕ∞) = exactTime y.toNat ism := by
  rw [exactTime] at hfit ⊢
  rw [segY2x]
  by_cases hzero : y = 0
  · rw [hzero]
    rfl
  · have hne : y.toNat ≠ 0 := fun h => hzero (BitVec.eq_of_toNat_eq h)
    rw [if_neg hne] at hfit ⊢
    rw [if_neg hzero]
    by_cases hinf : ism = HFSC_HT_INFINITY
    · rw [if_pos hinf] at hfit
      exact absurd hfit (not_lt.2 le_top)
    · rw [if_neg hinf] at hfit ⊢
      rw [if_neg hinf]
      have hlt := hism.resolve_left hinf
      congr 1
      exact toNat_scaled (by decide) (by simp only [ISM_SHIFT]; omega) (Nat.cast_lt.1 hfit)

theorem toNat_m2sm (m : BitVec 32) : (m2sm m).toNat = m.toNat * 2 ^ SM_SHIFT / (8 * HFSC_FREQ.toNat) := by
  have hm := m.isLt
  rw [m2sm, BitVec.toNat_udiv, BitVec.toNat_udiv, BitVec.toNat_shiftLeft, BitVec.toNat_setWidth,
    Nat.mod_eq_of_lt (by omega : m.toNat < 2 ^ 64), Nat.shiftLeft_eq,
    Nat.mod_eq_of_lt (by simp only [SM_SHIFT]; omega), Nat.div_div_eq_div_mul]
  rfl

theorem toNat_m2ism (hm : m ≠ 0) :
    (m2ism m).toNat = HFSC_FREQ.toNat * 2 ^ ISM_SHIFT * 8 / m.toNat := by
  have hlt := m.isLt
  rw [m2ism, if_neg hm, BitVec.toNat_udiv, BitVec.toNat_setWidth, Nat.mod_eq_of_lt (by omega : m.toNat < 2 ^ 64)]
  rfl

theorem m2sm_lt (m : BitVec 32) : (m2sm m).toNat < 2 ^ 26 := by
  have hm := m.isLt
  have hfreq : HFSC_FREQ.toNat = 256000000 := by decide
  rw [toNat_m2sm, hfreq]
  simp only [SM_SHIFT]
  omega

theorem m2ism_lt (hm : m ≠ 0) : (m2ism m).toNat < 2 ^ 42 := by
  have hfreq : HFSC_FREQ.toNat = 256000000 := by decide
  rw [toNat_m2ism hm, hfreq]
  refine (Nat.div_le_self _ _).trans_lt ?_
  simp only [ISM_SHIFT]
  omega

theorem m2ism_or (m : BitVec 32) : m2ism m = HFSC_HT_INFINITY ∨ (m2ism m).toNat < 2 ^ 42 := by
  by_cases hm : m = 0
  · exact .inl (if_pos hm)
  · exact .inr (m2ism_lt hm)

/-- The slope and the inverse slope of a rate are not more than inverse. -/
theorem m2sm_mul_m2ism (hm : m2sm m ≠ 0) : m2ism m ≠ HFSC_HT_INFINITY ∧
    (m2sm m).toNat * (m2ism m).toNat ≤ 2 ^ SM_SHIFT * 2 ^ ISM_SHIFT := by
  have hne : m ≠ 0 := by
    rintro rfl
    exact hm (by decide)
  have hpos : 0 < m.toNat := Nat.pos_of_ne_zero fun h => hne (BitVec.eq_of_toNat_eq h)
  refine ⟨fun hinf => ?_, ?_⟩
  · have hlt := m2ism_lt hne
    rw [hinf] at hlt
    exact absurd hlt (by decide)
  · rw [toNat_m2sm, toNat_m2ism hne]
    set f := 8 * HFSC_FREQ.toNat with hf
    have hfpos : 0 < f := by
      rw [hf]
      decide
    have hsm : m.toNat * 2 ^ SM_SHIFT / f * f ≤ m.toNat * 2 ^ SM_SHIFT := Nat.div_mul_le_self _ _
    have hism : HFSC_FREQ.toNat * 2 ^ ISM_SHIFT * 8 / m.toNat * m.toNat ≤ HFSC_FREQ.toNat * 2 ^ ISM_SHIFT * 8 :=
      Nat.div_mul_le_self _ _
    set a := m.toNat * 2 ^ SM_SHIFT / f
    set b := HFSC_FREQ.toNat * 2 ^ ISM_SHIFT * 8 / m.toNat
    -- cancel the rate and the frequency
    refine Nat.le_of_mul_le_mul_right ?_ (Nat.mul_pos hfpos hpos)
    calc a * b * (f * m.toNat) = a * f * (b * m.toNat) := by ring
      _ ≤ m.toNat * 2 ^ SM_SHIFT * (HFSC_FREQ.toNat * 2 ^ ISM_SHIFT * 8) := Nat.mul_le_mul hsm hism
      _ = 2 ^ SM_SHIFT * 2 ^ ISM_SHIFT * (f * m.toNat) := by rw [hf]; ring

end FixedPoint

section Curves

variable {isc : InternalSc} {sc : Sc} {rtsc : RuntimeSc}

/-- The slopes of a curve are those of its class. -/
structure SlopesOf (isc : InternalSc) (rtsc : RuntimeSc) : Prop where
  sm1 : rtsc.sm1 = isc.sm1
  ism1 : rtsc.ism1 = isc.ism1
  sm2 : rtsc.sm2 = isc.sm2
  ism2 : rtsc.ism2 = isc.ism2
  joint : rtsc.dy = segX2y rtsc.dx isc.sm1

theorem segX2y_zero (sm : Word) : segX2y 0 sm = 0 := by
  simp [segX2y]

theorem SlopesOf.rtscMin (hisc : isc.dy = segX2y isc.dx isc.sm1) (h : SlopesOf isc rtsc) (x y : Word) :
    SlopesOf isc (rtscMin rtsc isc x y) := by
  rw [Hfsc.rtscMin]
  dsimp only
  by_cases hconvex : isc.sm1 ≤ isc.sm2
  · rw [if_pos hconvex]
    split
    · exact h
    · exact ⟨h.sm1, h.ism1, h.sm2, h.ism2, h.joint⟩
  · rw [if_neg hconvex]
    split
    · exact h
    · split
      · exact ⟨h.sm1, h.ism1, h.sm2, h.ism2, hisc⟩
      · exact ⟨h.sm1, h.ism1, h.sm2, h.ism2, rfl⟩

theorem Derived.slopesOf (hisc : isc.dy = segX2y isc.dx isc.sm1) (h : Derived isc rtsc) : SlopesOf isc rtsc := by
  induction h with
  | init x y => exact ⟨rfl, rfl, rfl, rfl, hisc⟩
  | min h x y ih => exact ih.rtscMin hisc x y
  | eligible h hconvex ih => exact ⟨ih.sm1, ih.ism1, ih.sm2, ih.ism2, (segX2y_zero isc.sm1).symm⟩
  | moved h vtoff ih => exact ⟨ih.sm1, ih.ism1, ih.sm2, ih.ism2, ih.joint⟩

theorem Derived.segments (h : Derived (sc2isc sc) rtsc) : Segments rtsc := by
  obtain ⟨hsm1, hism1, hsm2, hism2, hjoint⟩ := h.slopesOf rfl
  refine ⟨?_, ?_, ?_, ?_, ?_, ?_⟩
  · rw [hjoint, hsm1]
  · rw [hsm1]
    exact m2sm_lt sc.m1
  · rw [hsm2]
    exact m2sm_lt sc.m2
  · rw [hism1]
    exact m2ism_or sc.m1
  · rw [hism2]
    exact m2ism_or sc.m2
  · rw [hsm1, hism1]
    exact m2sm_mul_m2ism

end Curves

section Exact

variable {rtsc : RuntimeSc}

theorem exactBytes_mono (sm : Word) {x₁ x₂ : ℕ} (h : x₁ ≤ x₂) : exactBytes x₁ sm ≤ exactBytes x₂ sm :=
  Nat.div_le_div_right (Nat.mul_le_mul_right _ h)

theorem exactTime_mono (ism : Word) {y₁ y₂ : ℕ} (h : y₁ ≤ y₂) : exactTime y₁ ism ≤ exactTime y₂ ism := by
  rw [exactTime, exactTime]
  by_cases hzero : y₁ = 0
  · rw [if_pos hzero]
    exact bot_le
  · rw [if_neg hzero, if_neg (show ¬y₂ = 0 by omega)]
    split
    · exact le_rfl
    · exact Nat.cast_le.2 (Nat.div_le_div_right (Nat.mul_le_mul_right _ h))

theorem exactX2y_mono (rtsc : RuntimeSc) {x₁ x₂ : ℕ} (h : x₁ ≤ x₂) : exactX2y rtsc x₁ ≤ exactX2y rtsc x₂ := by
  have hjoint : rtsc.jointX - rtsc.x.toNat = rtsc.dx.toNat := Nat.add_sub_cancel_left _ _
  rw [exactX2y, exactX2y]
  by_cases hx₁ : x₁ ≤ rtsc.x.toNat
  · rw [if_pos hx₁]
    split
    · exact le_rfl
    · split
      · exact Nat.le_add_right _ _
      · exact (Nat.le_add_right _ _).trans (Nat.le_add_right _ _)
  · rw [if_neg hx₁, if_neg (show ¬x₂ ≤ rtsc.x.toNat by omega)]
    by_cases hseg₁ : x₁ ≤ rtsc.jointX
    · rw [if_pos hseg₁]
      split
      · exact Nat.add_le_add_left (exactBytes_mono _ (by omega)) _
      · refine le_trans ?_ (Nat.le_add_right _ _)
        exact Nat.add_le_add_left (exactBytes_mono _ (by omega)) _
    · rw [if_neg hseg₁, if_neg (show ¬x₂ ≤ rtsc.jointX by omega)]
      exact Nat.add_le_add_left (exactBytes_mono _ (by omega)) _

/-- The time for the bytes of the first segment is not longer than the segment. -/
theorem Segments.exactTime_joint (h : Segments rtsc) (hne : rtsc.jointY ≠ rtsc.y.toNat) :
    exactTime (exactBytes rtsc.dx.toNat rtsc.sm1) rtsc.ism1 ≤ rtsc.dx.toNat := by
  have hdy : exactBytes rtsc.dx.toNat rtsc.sm1 ≠ 0 := fun hzero => hne (by rw [RuntimeSc.jointY, hzero, Nat.add_zero])
  have hsm : rtsc.sm1 ≠ 0 := by
    intro hzero
    rw [exactBytes, hzero] at hdy
    simp at hdy
  obtain ⟨hinf, hinv⟩ := h.inverse hsm
  rw [exactTime, if_neg hdy, if_neg hinf]
  refine Nat.cast_le.2 (Nat.div_le_of_le_mul ?_)
  have hbytes : exactBytes rtsc.dx.toNat rtsc.sm1 * 2 ^ SM_SHIFT ≤ rtsc.dx.toNat * rtsc.sm1.toNat :=
    Nat.div_mul_le_self _ _
  refine Nat.le_of_mul_le_mul_right ?_ (Nat.two_pow_pos SM_SHIFT)
  calc exactBytes rtsc.dx.toNat rtsc.sm1 * rtsc.ism1.toNat * 2 ^ SM_SHIFT
      = exactBytes rtsc.dx.toNat rtsc.sm1 * 2 ^ SM_SHIFT * rtsc.ism1.toNat := by ring
    _ ≤ rtsc.dx.toNat * rtsc.sm1.toNat * rtsc.ism1.toNat := Nat.mul_le_mul_right _ hbytes
    _ = rtsc.dx.toNat * (rtsc.sm1.toNat * rtsc.ism1.toNat) := by ring
    _ ≤ rtsc.dx.toNat * (2 ^ SM_SHIFT * 2 ^ ISM_SHIFT) := Nat.mul_le_mul_left _ hinv
    _ = 2 ^ ISM_SHIFT * rtsc.dx.toNat * 2 ^ SM_SHIFT := by ring

theorem Segments.exactY2x_mono (h : Segments rtsc) {y₁ y₂ : ℕ} (hle : y₁ ≤ y₂) :
    exactY2x rtsc y₁ ≤ exactY2x rtsc y₂ := by
  have hstart : (rtsc.x.toNat : ℕ∞) ≤ rtsc.jointX := Nat.cast_le.2 (Nat.le_add_right _ _)
  rw [exactY2x, exactY2x]
  by_cases hy₁ : y₁ < rtsc.y.toNat
  · rw [if_pos hy₁]
    split
    · exact le_rfl
    · split
      · split
        · exact hstart
        · exact le_self_add
      · exact hstart.trans le_self_add
  · rw [if_neg hy₁, if_neg (show ¬y₂ < rtsc.y.toNat by omega)]
    by_cases hseg₁ : y₁ ≤ rtsc.jointY
    · rw [if_pos hseg₁]
      by_cases hflat : rtsc.jointY = rtsc.y.toNat
      · rw [if_pos hflat, if_pos hflat]
        split
        · exact le_rfl
        · exact le_self_add
      · rw [if_neg hflat, if_neg hflat]
        split
        · exact add_le_add_right (exactTime_mono _ (by omega)) _
        · refine le_trans ?_ le_self_add
          -- up to the joint the first segment stays in front of it
          have hbytes : y₁ - rtsc.y.toNat ≤ exactBytes rtsc.dx.toNat rtsc.sm1 := by
            rw [RuntimeSc.jointY] at hseg₁
            omega
          have htime := (exactTime_mono rtsc.ism1 hbytes).trans (h.exactTime_joint hflat)
          rw [RuntimeSc.jointX, Nat.cast_add]
          exact add_le_add_right htime _
    · rw [if_neg hseg₁, if_neg (show ¬y₂ ≤ rtsc.jointY by omega)]
      exact add_le_add_right (exactTime_mono _ (by omega)) _

end Exact

section Words

variable {rtsc : RuntimeSc}

theorem toNat_add_of_lt {a b : Word} (h : a.toNat + b.toNat < 2 ^ 64) : (a + b).toNat = a.toNat + b.toNat := by
  rw [BitVec.toNat_add, Nat.mod_eq_of_lt h]

theorem Segments.toNat_dy (h : Segments rtsc) (hfit : rtsc.jointY < 2 ^ 64) :
    rtsc.dy.toNat = exactBytes rtsc.dx.toNat rtsc.sm1 := by
  rw [h.joint]
  exact toNat_segX2y h.sm1 ((Nat.le_add_left _ _).trans_lt hfit)

theorem Segments.toNat_jointY (h : Segments rtsc) (hfit : rtsc.jointY < 2 ^ 64) :
    (rtsc.y + rtsc.dy).toNat = rtsc.jointY := by
  have hdy := h.toNat_dy hfit
  rw [toNat_add_of_lt, hdy]
  · rfl
  · rw [hdy]
    exact hfit

theorem toNat_jointX (hfit : rtsc.jointX < 2 ^ 64) : (rtsc.x + rtsc.dx).toNat = rtsc.jointX := toNat_add_of_lt hfit

theorem Segments.rtscX2y_exact (h : Segments rtsc) {x : Word} (hjoint : rtsc.jointX < 2 ^ 64)
    (hfit : exactX2y rtsc x.toNat < 2 ^ 64) : (rtscX2y rtsc x).toNat = exactX2y rtsc x.toNat := by
  rw [exactX2y] at hfit ⊢
  rw [rtscX2y]
  by_cases hx : x.toNat ≤ rtsc.x.toNat
  · rw [if_pos (BitVec.le_def.2 hx), if_pos hx]
  · rw [if_neg hx] at hfit ⊢
    rw [if_neg (mt BitVec.le_def.1 hx)]
    have hsub : (x - rtsc.x).toNat = x.toNat - rtsc.x.toNat :=
      BitVec.toNat_sub_of_le (BitVec.le_def.2 (not_le.1 hx).le)
    have hcond : x ≤ rtsc.x + rtsc.dx ↔ x.toNat ≤ rtsc.jointX := by
      rw [BitVec.le_def, toNat_jointX hjoint]
    by_cases hseg : x.toNat ≤ rtsc.jointX
    · rw [if_pos hseg] at hfit ⊢
      rw [if_pos (hcond.2 hseg)]
      have hbytes := toNat_segX2y (x := x - rtsc.x) h.sm1 (by rw [hsub]; omega)
      rw [hsub] at hbytes
      rw [toNat_add_of_lt (by rw [hbytes]; exact hfit), hbytes]
    · rw [if_neg hseg] at hfit ⊢
      rw [if_neg (mt hcond.1 hseg)]
      have hjointY : rtsc.jointY < 2 ^ 64 := (Nat.le_add_right _ _).trans_lt hfit
      have hrest : (x - rtsc.x - rtsc.dx).toNat = x.toNat - rtsc.jointX := by
        have hle : rtsc.dx.toNat ≤ (x - rtsc.x).toNat := by
          rw [hsub]
          rw [RuntimeSc.jointX] at hseg
          omega
        rw [BitVec.toNat_sub_of_le (BitVec.le_def.2 hle), hsub, RuntimeSc.jointX]
        omega
      have hbytes := toNat_segX2y (x := x - rtsc.x - rtsc.dx) h.sm2 (by rw [hrest]; omega)
      rw [hrest] at hbytes
      have hsum := h.toNat_jointY hjointY
      rw [toNat_add_of_lt (by rw [hbytes, hsum]; exact hfit), hbytes, hsum]

theorem toNat_add_time {a t : Word} {n : ℕ} {e : ℕ∞} (ha : a.toNat = n) (hfit : (n : ℕ∞) + e < (2 ^ 64 : ℕ))
    (ht : e < (2 ^ 64 : ℕ) → (t.toNat : ℕ∞) = e) : ((a + t).toNat : ℕ∞) = n + e := by
  have he := ht (le_add_self.trans_lt hfit)
  rw [← he, ← ha] at hfit ⊢
  rw [toNat_add_of_lt (by exact_mod_cast hfit), Nat.cast_add]

theorem Segments.rtscY2x_exact (h : Segments rtsc) {y : Word} (hjoint : rtsc.jointY < 2 ^ 64)
    (hfit : exactY2x rtsc y.toNat < (2 ^ 64 : ℕ)) : ((rtscY2x rtsc y).toNat : ℕ∞) = exactY2x rtsc y.toNat := by
  rw [exactY2x] at hfit ⊢
  rw [rtscY2x]
  by_cases hy : y.toNat < rtsc.y.toNat
  · rw [if_pos (BitVec.lt_def.2 hy), if_pos hy]
  · rw [if_neg hy] at hfit ⊢
    rw [if_neg (mt BitVec.lt_def.1 hy)]
    have hsub : (y - rtsc.y).toNat = y.toNat - rtsc.y.toNat :=
      BitVec.toNat_sub_of_le (BitVec.le_def.2 (not_lt.1 hy))
    have hcond : y ≤ rtsc.y + rtsc.dy ↔ y.toNat ≤ rtsc.jointY := by
      rw [BitVec.le_def, h.toNat_jointY hjoint]
    have hdy := h.toNat_dy hjoint
    have hflat : rtsc.dy = 0 ↔ rtsc.jointY = rtsc.y.toNat := by
      rw [RuntimeSc.jointY, ← hdy, Nat.add_eq_left, ← BitVec.toNat_inj]
      rfl
    by_cases hseg : y.toNat ≤ rtsc.jointY
    · rw [if_pos hseg] at hfit ⊢
      rw [if_pos (hcond.2 hseg)]
      by_cases hzero : rtsc.jointY = rtsc.y.toNat
      · rw [if_pos hzero] at hfit ⊢
        rw [if_pos (hflat.2 hzero), toNat_jointX (by exact_mod_cast hfit)]
      · rw [if_neg hzero] at hfit ⊢
        rw [if_neg (mt hflat.1 hzero)]
        refine toNat_add_time rfl hfit fun hlt => ?_
        rw [← hsub] at hlt ⊢
        exact toNat_segY2x h.ism1 hlt
    · rw [if_neg hseg] at hfit ⊢
      rw [if_neg (mt hcond.1 hseg)]
      have hjointX : rtsc.jointX < 2 ^ 64 := by exact_mod_cast le_self_add.trans_lt hfit
      have hrest : (y - rtsc.y - rtsc.dy).toNat = y.toNat - rtsc.jointY := by
        have hle : rtsc.dy.toNat ≤ (y - rtsc.y).toNat := by
          rw [hsub, hdy]
          rw [RuntimeSc.jointY] at hseg
          omega
        rw [BitVec.toNat_sub_of_le (BitVec.le_def.2 hle), hsub, hdy, RuntimeSc.jointY]
        omega
      refine toNat_add_time (toNat_jointX hjointX) hfit fun hlt => ?_
      rw [← hrest] at hlt ⊢
      exact toNat_segY2x h.ism2 hlt

theorem le_two_pow_63 {n : ℕ∞} (h : n ≤ (2 ^ 63 : ℕ)) : n < (2 ^ 64 : ℕ) := h.trans_lt (Nat.cast_lt.2 (by decide))

theorem Segments.rtscY2x_mono (h : Segments rtsc) {y₁ y₂ : Word} (hle : y₁ ≤ y₂) (hjoint : rtsc.jointY ≤ 2 ^ 63)
    (hfit : exactY2x rtsc y₂.toNat ≤ (2 ^ 63 : ℕ)) : rtscY2x rtsc y₁ ≤ rtscY2x rtsc y₂ := by
  have hmono := h.exactY2x_mono (BitVec.le_def.1 hle)
  have h₁ := h.rtscY2x_exact (by omega) (le_two_pow_63 (hmono.trans hfit))
  have h₂ := h.rtscY2x_exact (by omega) (le_two_pow_63 hfit)
  rw [← h₁, ← h₂] at hmono
  exact BitVec.le_def.2 (Nat.cast_le.1 hmono)

theorem Segments.rtscX2y_mono (h : Segments rtsc) {x₁ x₂ : Word} (hle : x₁ ≤ x₂) (hjoint : rtsc.jointX ≤ 2 ^ 63)
    (hfit : exactX2y rtsc x₂.toNat ≤ 2 ^ 63) : rtscX2y rtsc x₁ ≤ rtscX2y rtsc x₂ := by
  have hmono := exactX2y_mono rtsc (BitVec.le_def.1 hle)
  have h₁ := h.rtscX2y_exact (x := x₁) (by omega) (by omega)
  have h₂ := h.rtscX2y_exact (x := x₂) (by omega) (by omega)
  rw [← h₁, ← h₂] at hmono
  exact BitVec.le_def.2 hmono

end Words

end OpenbsdKernel.Hfsc
