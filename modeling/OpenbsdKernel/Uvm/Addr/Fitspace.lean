import OpenbsdKernel.Lib.AlignUp
import OpenbsdKernel.Uvm.Addr.Basic

/-!
# Fitting a request into free space

An address fits when it has the residue that was asked for and its range, gaps included,
lies between the bounds. `uvm_addr_fitspace` finds the least and the greatest of them, and
fails when there is none.
-/
namespace OpenbsdKernel.UvmAddr

/-- The addresses of the right residue whose range with both gaps is within the bounds.
The alignment is at least a page. -/
def Fits (PAGE_SHIFT : Fin 64) (low high sz align offset before_gap after_gap : vaddr_t) : Set ℕ :=
  {a | a ≡ offset.toNat [MOD max align.toNat (2 ^ PAGE_SHIFT.val)] ∧
    low.toNat + before_gap.toNat ≤ a ∧ a + sz.toNat + after_gap.toNat ≤ high.toNat}

section Align
variable {PAGE_SHIFT k : Fin 64} {offset : vaddr_t}

theorem MAX_toNat (a b : vaddr_t) : (MAX a b).toNat = max a.toNat b.toNat := by
  rw [MAX]
  split_ifs with h
  · exact (Nat.max_eq_left (BitVec.lt_def.mp h).le).symm
  · exact (Nat.max_eq_right (Nat.le_of_not_lt fun hlt => h (BitVec.lt_def.mpr hlt))).symm

theorem MIN_toNat (a b : vaddr_t) : (MIN a b).toNat = min a.toNat b.toNat := by
  rw [MIN]
  split_ifs with h
  · exact (Nat.min_eq_left (BitVec.lt_def.mp h).le).symm
  · exact (Nat.min_eq_right (Nat.le_of_not_lt fun hlt => h (BitVec.lt_def.mpr hlt))).symm

theorem toNat_and_not_mask (y : vaddr_t) (k : Fin 64) :
    (y &&& ~~~(BitVec.twoPow 64 k - 1)).toNat = y.toNat - y.toNat % 2 ^ k.val := by
  have hneg : ~~~(BitVec.twoPow 64 k - 1#64) = -BitVec.twoPow 64 k := by
    rw [BitVec.not_eq_neg_add]
    bv_omega
  rw [← toNat_and_neg_twoPow y k.isLt, ← hneg]
  rfl

theorem and_mask_eq_zero (y : vaddr_t) (k : Fin 64) :
    y &&& (BitVec.twoPow 64 k - 1) = 0 ↔ y.toNat % 2 ^ k.val = 0 := by
  have hmask : (BitVec.twoPow 64 k - 1#64).toNat = 2 ^ k.val - 1 := by
    have hpos : 0 < 2 ^ k.val := Nat.two_pow_pos k.val
    rw [BitVec.toNat_sub_of_le, BitVec.toNat_twoPow_of_lt k.isLt]
    · rfl
    · rw [BitVec.le_def, BitVec.toNat_twoPow_of_lt k.isLt]
      exact hpos
  have hand : (y &&& (BitVec.twoPow 64 k - 1)).toNat = y.toNat % 2 ^ k.val := by
    rw [BitVec.toNat_and, show (BitVec.twoPow 64 k - 1).toNat = 2 ^ k.val - 1 from hmask,
      Nat.and_two_pow_sub_one_eq_mod]
  rw [← hand]
  exact ⟨fun h => by rw [h]; rfl, fun h => BitVec.eq_of_toNat_eq h⟩

theorem MAX_page (PAGE_SHIFT k : Fin 64) :
    MAX (BitVec.twoPow 64 k) (PAGE_SIZE PAGE_SHIFT) = BitVec.twoPow 64 (max k PAGE_SHIFT : Fin 64) := by
  refine BitVec.eq_of_toNat_eq ?_
  rw [MAX_toNat, PAGE_SIZE, BitVec.toNat_twoPow_of_lt k.isLt,
    BitVec.toNat_twoPow_of_lt PAGE_SHIFT.isLt, BitVec.toNat_twoPow_of_lt (Fin.isLt _)]
  rcases le_total k PAGE_SHIFT with h | h
  · rw [max_eq_right h, max_eq_right (Nat.pow_le_pow_right (by omega) h)]
  · rw [max_eq_left h, max_eq_left (Nat.pow_le_pow_right (by omega) h)]

theorem max_align (PAGE_SHIFT k : Fin 64) :
    max (BitVec.twoPow 64 k).toNat (2 ^ PAGE_SHIFT.val) = 2 ^ (max k PAGE_SHIFT : Fin 64).val := by
  have h := congrArg BitVec.toNat (MAX_page PAGE_SHIFT k)
  rwa [MAX_toNat, PAGE_SIZE, BitVec.toNat_twoPow_of_lt PAGE_SHIFT.isLt,
    BitVec.toNat_twoPow_of_lt (max k PAGE_SHIFT).isLt] at h

theorem assertions (PAGE_SHIFT : Fin 64) (ho : offset < BitVec.twoPow 64 k)
    (hpage : offset.toNat % 2 ^ PAGE_SHIFT.val = 0) :
    (offset < BitVec.twoPow 64 k ∨ BitVec.twoPow 64 k = 0 ∧ offset = 0) ∧
      BitVec.twoPow 64 k &&& (BitVec.twoPow 64 k - 1) = 0 ∧ offset &&& PAGE_MASK PAGE_SHIFT = 0 := by
  refine ⟨.inl ho, ?_, (and_mask_eq_zero offset PAGE_SHIFT).mpr hpage⟩
  rw [and_mask_eq_zero, BitVec.toNat_twoPow_of_lt k.isLt, Nat.mod_self]

theorem block_le (x : vaddr_t) (k : Fin 64) :
    x.toNat - x.toNat % 2 ^ k.val + 2 ^ k.val ≤ 2 ^ 64 := by
  have hdvd : 2 ^ k.val ∣ 2 ^ 64 := Nat.pow_dvd_pow 2 k.isLt.le
  have hbase : 2 ^ k.val ∣ x.toNat - x.toNat % 2 ^ k.val := Nat.dvd_sub_mod _
  obtain ⟨c, hc⟩ := hdvd
  obtain ⟨b, hb⟩ := hbase
  have hlt : 2 ^ k.val * b < 2 ^ k.val * c := by
    rw [← hb, ← hc]
    exact (Nat.sub_le _ _).trans_lt x.isLt
  have hbc : b + 1 ≤ c := Nat.lt_of_mul_lt_mul_left hlt
  rw [hb, hc]
  exact Nat.mul_le_mul_left _ hbc

theorem block_modEq (x A s : ℕ) : x - x % A + s ≡ s [MOD A] := by
  have hbase : x - x % A ≡ 0 [MOD A] := Nat.modEq_zero_iff_dvd.mpr (Nat.dvd_sub_mod x)
  simpa using hbase.add_right s

/-- The address before it is compared: the residue in the block of `x`. -/
theorem adjusted_toNat (PAGE_SHIFT : Fin 64) (x : vaddr_t) (ho : offset < BitVec.twoPow 64 k) :
    offset.toNat < 2 ^ (max k PAGE_SHIFT : Fin 64).val ∧
      ((x &&& ~~~(BitVec.twoPow 64 (max k PAGE_SHIFT : Fin 64) - 1)) + offset).toNat =
        x.toNat - x.toNat % 2 ^ (max k PAGE_SHIFT : Fin 64).val + offset.toNat := by
  have hlt : offset.toNat < 2 ^ (max k PAGE_SHIFT : Fin 64).val := by
    rw [BitVec.lt_def, BitVec.toNat_twoPow_of_lt k.isLt] at ho
    exact ho.trans_le (Nat.pow_le_pow_right (by omega) (Fin.val_le_of_le (le_max_left k PAGE_SHIFT)))
  have hblock := block_le x (max k PAGE_SHIFT)
  refine ⟨hlt, ?_⟩
  rw [BitVec.toNat_add, toNat_and_not_mask, Nat.mod_eq_of_lt (by omega)]

/-- Up to the end of the word the result is the least address of the residue. -/
theorem align_forward_spec (x : vaddr_t) (ho : offset < BitVec.twoPow 64 k)
    (hpage : offset.toNat % 2 ^ PAGE_SHIFT.val = 0) :
    ∃ r, uvm_addr_align_forward PAGE_SHIFT x (BitVec.twoPow 64 k) offset = some r ∧
      (r < x → 2 ^ 64 ≤ alignUp x.toNat (2 ^ (max k PAGE_SHIFT : Fin 64).val) offset.toNat) ∧
      (¬ r < x → r.toNat = alignUp x.toNat (2 ^ (max k PAGE_SHIFT : Fin 64).val) offset.toNat) := by
  obtain ⟨h1, h2, h3⟩ := assertions PAGE_SHIFT ho hpage
  obtain ⟨holt, hadj⟩ := adjusted_toNat PAGE_SHIFT x ho
  have hblock := block_le x (max k PAGE_SHIFT)
  have htwo : (BitVec.twoPow 64 (max k PAGE_SHIFT : Fin 64)).toNat =
      2 ^ (max k PAGE_SHIFT : Fin 64).val := BitVec.toNat_twoPow_of_lt (max k PAGE_SHIFT).isLt
  rw [uvm_addr_align_forward, MAX_page]
  simp only [guard, h1, h2, h3, if_true, Option.pure_def, Option.bind_eq_bind, Option.bind_some,
    Option.some.injEq, exists_eq_left']
  set A := 2 ^ (max k PAGE_SHIFT : Fin 64).val
  set adj := (x &&& ~~~(BitVec.twoPow 64 (max k PAGE_SHIFT : Fin 64) - 1)) + offset
  have hA : 0 < A := by positivity
  have hmod := Nat.mod_lt x.toNat hA
  have hle := Nat.mod_le x.toNat A
  have hx := x.isLt
  have heq : ∀ y, y ≡ offset.toNat [MOD A] → x.toNat ≤ y → y < x.toNat + A →
      alignUp x.toNat A offset.toNat = y := fun y hy hlo hhi =>
    eq_of_modEq_of_lt ((alignUp_modEq hA).trans hy.symm) ((alignUp_lt hA).trans_le (by omega))
      (hhi.trans_le (by have := le_alignUp x.toNat A offset.toNat; omega))
  have hres := block_modEq x.toNat A offset.toNat
  by_cases hlt : adj < x
  · have hup : alignUp x.toNat A offset.toNat = x.toNat - x.toNat % A + offset.toNat + A := by
      refine heq _ (by simpa using hres) ?_ ?_
      · omega
      · rw [BitVec.lt_def, hadj] at hlt
        omega
    have hsum : (adj + BitVec.twoPow 64 (max k PAGE_SHIFT : Fin 64)).toNat =
        (x.toNat - x.toNat % A + offset.toNat + A) % 2 ^ 64 := by
      rw [BitVec.toNat_add, hadj, htwo]
    rw [BitVec.lt_def, hadj] at hlt
    rw [if_pos (by rw [BitVec.lt_def, hadj]; exact hlt), BitVec.lt_def, hsum, hup]
    constructor
    · intro h
      by_contra hlt'
      rw [Nat.mod_eq_of_lt (by omega)] at h
      omega
    · intro h
      by_contra hne
      have hge : 2 ^ 64 ≤ x.toNat - x.toNat % A + offset.toNat + A := by
        by_contra hlt'
        exact hne (Nat.mod_eq_of_lt (by omega))
      refine h ?_
      omega
  · rw [if_neg hlt]
    have hup : alignUp x.toNat A offset.toNat = x.toNat - x.toNat % A + offset.toNat := by
      rw [BitVec.lt_def, hadj] at hlt
      exact heq _ hres (by omega) (by omega)
    exact ⟨fun h => absurd h hlt, fun _ => by rw [hadj, hup]⟩

theorem align_backward_spec (x : vaddr_t) (ho : offset < BitVec.twoPow 64 k)
    (hpage : offset.toNat % 2 ^ PAGE_SHIFT.val = 0) {y : ℕ} (hyx : y ≤ x.toNat)
    (hy : y ≡ offset.toNat [MOD 2 ^ (max k PAGE_SHIFT : Fin 64).val]) :
    ∃ r, uvm_addr_align_backward PAGE_SHIFT x (BitVec.twoPow 64 k) offset = some r ∧ r ≤ x ∧
      r.toNat ≡ offset.toNat [MOD 2 ^ (max k PAGE_SHIFT : Fin 64).val] ∧
      x.toNat < r.toNat + 2 ^ (max k PAGE_SHIFT : Fin 64).val := by
  obtain ⟨h1, h2, h3⟩ := assertions PAGE_SHIFT ho hpage
  obtain ⟨holt, hadj⟩ := adjusted_toNat PAGE_SHIFT x ho
  have htwo : (BitVec.twoPow 64 (max k PAGE_SHIFT : Fin 64)).toNat =
      2 ^ (max k PAGE_SHIFT : Fin 64).val := BitVec.toNat_twoPow_of_lt (max k PAGE_SHIFT).isLt
  rw [uvm_addr_align_backward, MAX_page]
  simp only [guard, h1, h2, h3, if_true, Option.pure_def, Option.bind_eq_bind, Option.bind_some,
    Option.some.injEq, exists_eq_left']
  set A := 2 ^ (max k PAGE_SHIFT : Fin 64).val
  set adj := (x &&& ~~~(BitVec.twoPow 64 (max k PAGE_SHIFT : Fin 64) - 1)) + offset
  have hA : 0 < A := by positivity
  have hmod := Nat.mod_lt x.toNat hA
  have hle := Nat.mod_le x.toNat A
  have hx := x.isLt
  have hres := block_modEq x.toNat A offset.toNat
  by_cases hlt : adj > x
  · rw [if_pos hlt]
    rw [gt_iff_lt, BitVec.lt_def, hadj] at hlt
    -- the block before exists, for `y` is in it or further down
    have hblock : A ≤ x.toNat - x.toNat % A + offset.toNat := by
      have hyr : y + A ≤ x.toNat - x.toNat % A + offset.toNat := by
        by_contra hgt
        have := le_of_modEq_of_lt (hres.trans hy.symm) (by omega)
        omega
      omega
    have hsub : (adj - BitVec.twoPow 64 (max k PAGE_SHIFT : Fin 64)).toNat =
        x.toNat - x.toNat % A + offset.toNat - A := by
      rw [BitVec.toNat_sub_of_le (by rw [BitVec.le_def, htwo, hadj]; exact hblock), hadj, htwo]
    refine ⟨?_, ?_, ?_⟩
    · rw [BitVec.le_def, hsub]
      omega
    · rw [hsub]
      refine Nat.ModEq.trans ?_ hres
      exact (Nat.modEq_iff_dvd' (Nat.sub_le _ _)).mpr ⟨1, by omega⟩
    · rw [hsub]
      omega
  · rw [if_neg hlt]
    rw [gt_iff_lt, BitVec.lt_def, hadj] at hlt
    refine ⟨?_, by rw [hadj]; exact hres, by rw [hadj]; omega⟩
    rw [BitVec.le_def, hadj]
    omega

end Align

/-- What `uvm_addr_fitspace` is for. -/
def FitspaceRight (fits : Set ℕ) : Option (Except Errno (vaddr_t × vaddr_t)) → Prop
  | some (.ok (min_result, max_result)) =>
    IsLeast fits min_result.toNat ∧ IsGreatest fits max_result.toNat
  | some (.error _) => fits = ∅
  | none => False

section Fitspace
variable {PAGE_SHIFT k : Fin 64} {sz offset before_gap after_gap : vaddr_t}

theorem fitspace_spec (low high : vaddr_t) (ho : offset < BitVec.twoPow 64 k)
    (hpage : offset.toNat % 2 ^ PAGE_SHIFT.val = 0)
    (hsum : sz.toNat + before_gap.toNat + after_gap.toNat < 2 ^ 64) :
    FitspaceRight (Fits PAGE_SHIFT low high sz (BitVec.twoPow 64 k) offset before_gap after_gap)
      (uvm_addr_fitspace PAGE_SHIFT low high sz (BitVec.twoPow 64 k) offset before_gap
        after_gap) := by
  have hlow := low.isLt
  have hhigh := high.isLt
  have hA : 0 < 2 ^ (max k PAGE_SHIFT : Fin 64).val := by positivity
  rw [uvm_addr_fitspace, Fits, max_align]
  by_cases h1 : low > high
  · rw [if_pos h1]
    rw [gt_iff_lt, BitVec.lt_def] at h1
    refine Set.eq_empty_of_forall_notMem fun a ha => ?_
    obtain ⟨-, hlo, hhi⟩ := ha
    omega
  have hle : low.toNat ≤ high.toNat := by
    rw [gt_iff_lt, BitVec.lt_def] at h1
    omega
  have hspace : (high - low).toNat = high.toNat - low.toNat :=
    BitVec.toNat_sub_of_le (BitVec.le_def.mpr hle)
  have hneed : (sz + before_gap + after_gap).toNat =
      sz.toNat + before_gap.toNat + after_gap.toNat := by
    rw [BitVec.toNat_add, BitVec.toNat_add]
    omega
  rw [if_neg h1]
  dsimp only
  by_cases h2 : high - low < sz + before_gap + after_gap
  · rw [if_pos h2]
    rw [BitVec.lt_def, hspace, hneed] at h2
    refine Set.eq_empty_of_forall_notMem fun a ha => ?_
    obtain ⟨-, hlo, hhi⟩ := ha
    omega
  rw [if_neg h2]
  rw [BitVec.lt_def, hspace, hneed] at h2
  have htmp : (low + before_gap).toNat = low.toNat + before_gap.toNat := by
    rw [BitVec.toNat_add]
    omega
  have htmp' : (high - (after_gap + sz)).toNat = high.toNat - (after_gap.toNat + sz.toNat) := by
    have hgap : (after_gap + sz).toNat = after_gap.toNat + sz.toNat := by
      rw [BitVec.toNat_add]
      omega
    rw [BitVec.toNat_sub_of_le (by rw [BitVec.le_def, hgap]; omega), hgap]
  have hend : (high - after_gap - sz).toNat = high.toNat - (after_gap.toNat + sz.toNat) := by
    rw [BitVec.toNat_sub, BitVec.toNat_sub]
    omega
  obtain ⟨r, hr, hover, hfwd⟩ := align_forward_spec (low + before_gap) ho hpage
  set A := 2 ^ (max k PAGE_SHIFT : Fin 64).val
  rw [htmp] at hover hfwd
  have hleast : ∀ a, a ≡ offset.toNat [MOD A] → low.toNat + before_gap.toNat ≤ a →
      alignUp (low.toNat + before_gap.toNat) A offset.toNat ≤ a := fun a ha hlo => alignUp_le hA hlo ha
  simp only [hr, Option.bind_eq_bind, Option.bind_some]
  by_cases h3 : r < low + before_gap
  · rw [if_pos h3]
    refine Set.eq_empty_of_forall_notMem fun a ha => ?_
    obtain ⟨hmod, hlo, hhi⟩ := ha
    have := hleast a hmod hlo
    have := hover h3
    omega
  have hrup := hfwd h3
  rw [if_neg h3]
  by_cases h4 : high - after_gap - sz < r
  · rw [if_pos h4]
    rw [BitVec.lt_def, hend, hrup] at h4
    refine Set.eq_empty_of_forall_notMem fun a ha => ?_
    obtain ⟨hmod, hlo, hhi⟩ := ha
    have := hleast a hmod hlo
    omega
  have hrle : r.toNat ≤ (high - (after_gap + sz)).toNat := by
    rw [BitVec.lt_def, hend] at h4
    omega
  have hrmod : r.toNat ≡ offset.toNat [MOD A] := by
    rw [hrup]
    exact alignUp_modEq hA
  have hrlow : low.toNat + before_gap.toNat ≤ r.toNat := by
    rw [hrup]
    exact le_alignUp _ _ _
  obtain ⟨r', hr', hle', hmod', hlt'⟩ :=
    align_backward_spec (high - (after_gap + sz)) ho hpage hrle hrmod
  have hrr' : r.toNat ≤ r'.toNat :=
    le_of_modEq_of_lt (hrmod.trans hmod'.symm) (hrle.trans_lt hlt')
  have h5 : ¬ r' > high - (after_gap + sz) := BitVec.not_lt.mpr hle'
  have h6 : ¬ r > r' := BitVec.not_lt.mpr (BitVec.le_def.mpr hrr')
  rw [if_neg h4]
  simp only [hr', Option.bind_some, if_neg h5, if_neg h6]
  rw [BitVec.le_def, htmp'] at hle'
  rw [htmp'] at hlt'
  refine ⟨⟨⟨hrmod, hrlow, by omega⟩, fun a ha => ?_⟩, ⟨⟨hmod', by omega, by omega⟩, fun a ha => ?_⟩⟩
  · rw [hrup]
    exact hleast a ha.1 ha.2.1
  · obtain ⟨hmod, -, hhi⟩ := ha
    exact le_of_modEq_of_lt (hmod.trans hmod'.symm) (by omega)

end Fitspace

end OpenbsdKernel.UvmAddr
