import OpenbsdKernel.Net.Art.Store

/-!
# Where a prefix belongs

An address leads from the first table down to a leaf. A prefix belongs to the one
table on that way whose stride its length ends in, at the index made of the bits of
the stride; the index and the table determine the prefix.
-/
namespace OpenbsdKernel.Art

/-- Bit `i` of an address, the first bit being the most significant one. -/
def bit (addr : List UInt8) (i : ℕ) : Bool := (addr.getD (i / 8) 0).toNat.testBit (7 - i % 8)

/-- Two addresses agree in their first `plen` bits. -/
def SamePrefix (x y : List UInt8) (plen : ℕ) : Prop := ∀ i < plen, bit x i = bit y i

theorem SamePrefix.symm {x y : List UInt8} {p : ℕ} (h : SamePrefix x y p) : SamePrefix y x p :=
  fun i hi => (h i hi).symm

theorem SamePrefix.trans {x y z : List UInt8} {p : ℕ} (h : SamePrefix x y p)
    (h' : SamePrefix y z p) : SamePrefix x z p :=
  fun i hi => (h i hi).trans (h' i hi)

theorem SamePrefix.mono {x y : List UInt8} {p q : ℕ} (h : SamePrefix x y p) (hq : q ≤ p) :
    SamePrefix x y q :=
  fun i hi => h i (hi.trans_le hq)

/-- The bits of an address that a table covers, as a number. -/
def Table.strideOf (at_ : Table) (addr : List UInt8) : ℕ :=
  let a := fun i => (addr.getD (at_.at_offset / 8 + i) 0).toNat
  if at_.at_bits = 8 then a 0 else 256 * a 0 + a 1

namespace Root.Wf
variable {ar : Root} (h : ar.Wf) {t : ℕ} {a : Table} (ht : ar.tables t = some a)
include h ht

theorem offset_byte : a.at_offset % 8 = 0 := by
  rw [(h.fits ht).offset]
  exact h.strides.offset_byte (h.fits ht).level.le

theorem strideOf_lt (addr : List UInt8) : a.strideOf addr < 2 ^ a.at_bits := by
  have h0 := (addr.getD (a.at_offset / 8 + 0) 0).toNat_lt
  have h1 := (addr.getD (a.at_offset / 8 + 1) 0).toNat_lt
  obtain e | e := h.bits_eq ht
  · simp only [Table.strideOf, e, if_true]
    omega
  · simp only [Table.strideOf, e]
    rw [if_neg (by omega)]
    omega

theorem bindex_eq (addr : List UInt8) {plen : ℕ} (hlo : a.at_offset ≤ plen)
    (hhi : plen ≤ a.at_offset + a.at_bits) :
    art_bindex a addr plen = some (a.strideOf addr / 2 ^ (a.at_bits - (plen - a.at_offset)) +
      2 ^ (plen - a.at_offset)) := by
  have hoff := h.offset_byte ht
  have hmask : ∀ x : UInt8, x.toNat &&& 255 = x.toNat := by
    intro x
    have hx := x.toNat_lt
    rw [show 255 = 2 ^ 8 - 1 by norm_num, Nat.and_two_pow_sub_one_eq_mod]
    exact Nat.mod_eq_of_lt hx
  have hjoin : ∀ x y : UInt8, x.toNat * 256 ||| y.toNat = 256 * x.toNat + y.toNat := by
    intro x y
    have hor := Nat.shiftLeft_add_eq_or_of_lt y.toNat_lt x.toNat
    rw [Nat.shiftLeft_eq] at hor
    norm_num at hor
    omega
  rw [art_bindex, if_neg (by omega)]
  obtain e | e := h.bits_eq ht
  · simp [e, hoff, Table.strideOf, hmask, Nat.shiftRight_eq_div_pow, Nat.shiftLeft_eq]
  · simp [e, hoff, Table.strideOf, hmask, hjoin, Nat.shiftRight_eq_div_pow, Nat.shiftLeft_eq]

theorem bindex_spec {addr : List UInt8} {plen i : ℕ} (hi : art_bindex a addr plen = some i) :
    2 ^ (plen - a.at_offset) ≤ i ∧ i < 2 ^ (plen - a.at_offset + 1) := by
  have hrange : a.at_offset ≤ plen ∧ plen ≤ a.at_offset + a.at_bits := by
    by_contra hc
    rw [art_bindex, if_pos (by omega)] at hi
    simp at hi
  rw [h.bindex_eq ht addr hrange.1 hrange.2, Option.some.injEq] at hi
  have hlt : a.strideOf addr / 2 ^ (a.at_bits - (plen - a.at_offset)) <
      2 ^ (plen - a.at_offset) := by
    rw [Nat.div_lt_iff_lt_mul (by positivity), ← pow_add]
    have hlt := h.strideOf_lt ht addr
    rwa [show plen - a.at_offset + (a.at_bits - (plen - a.at_offset)) = a.at_bits by omega]
  rw [pow_succ]
  generalize a.strideOf addr / 2 ^ (a.at_bits - (plen - a.at_offset)) = v at hi hlt
  omega

theorem findex_eq (addr : List UInt8) :
    art_findex a addr = some (a.strideOf addr + a.at_minfringe) := by
  rw [art_findex, h.bindex_eq ht addr (by omega) le_rfl, (h.fits ht).minfringe]
  simp

theorem testBit_strideOf {m : ℕ} (addr : List UInt8) (hm : m < a.at_bits) :
    (a.strideOf addr).testBit m = bit addr (a.at_offset + a.at_bits - 1 - m) := by
  have hoff := h.offset_byte ht
  obtain e | e := h.bits_eq ht
  · simp only [Table.strideOf, e, if_true, bit]
    rw [show (a.at_offset + 8 - 1 - m) / 8 = a.at_offset / 8 + 0 by omega,
      show 7 - (a.at_offset + 8 - 1 - m) % 8 = m by omega]
  · simp only [Table.strideOf, e, bit]
    rw [if_neg (by omega), show 256 = 2 ^ 8 by norm_num,
      Nat.testBit_two_pow_mul_add _ (UInt8.toNat_lt _)]
    split_ifs with hm8
    · rw [show (a.at_offset + 16 - 1 - m) / 8 = a.at_offset / 8 + 1 by omega,
        show 7 - (a.at_offset + 16 - 1 - m) % 8 = m by omega]
    · rw [show (a.at_offset + 16 - 1 - m) / 8 = a.at_offset / 8 + 0 by omega,
        show 7 - (a.at_offset + 16 - 1 - m) % 8 = m - 8 by omega]

/-- The index is made of the bits from the start of the stride to the end of the prefix. -/
theorem bindex_congr_iff {x y : List UInt8} {plen : ℕ} (hlo : a.at_offset ≤ plen)
    (hhi : plen ≤ a.at_offset + a.at_bits) :
    art_bindex a x plen = art_bindex a y plen ↔
      ∀ i, a.at_offset ≤ i → i < plen → bit x i = bit y i := by
  set d := a.at_bits - (plen - a.at_offset) with hd
  have hdiv : art_bindex a x plen = art_bindex a y plen ↔
      a.strideOf x / 2 ^ d = a.strideOf y / 2 ^ d := by
    rw [h.bindex_eq ht x hlo hhi, h.bindex_eq ht y hlo hhi, Option.some.injEq, Nat.add_right_cancel_iff]
  have htest : ∀ (z : List UInt8) (m : ℕ), m < plen - a.at_offset →
      (a.strideOf z / 2 ^ d).testBit m = bit z (plen - 1 - m) := by
    intro z m hm
    rw [Nat.testBit_div_two_pow, h.testBit_strideOf ht z (by omega)]
    congr 1
    omega
  rw [hdiv]
  constructor
  · intro heq i hi hip
    have := htest x (plen - 1 - i) (by omega)
    rw [heq, htest y _ (by omega), show plen - 1 - (plen - 1 - i) = i by omega] at this
    exact this.symm
  · intro hbits
    refine Nat.eq_of_testBit_eq fun m => ?_
    by_cases hm : m < plen - a.at_offset
    · rw [htest x m hm, htest y m hm, hbits _ (by omega) (by omega)]
    · have hz : ∀ z : List UInt8, (a.strideOf z / 2 ^ d).testBit m = false := by
        intro z
        rw [Nat.testBit_div_two_pow]
        refine Nat.testBit_lt_two_pow ((h.strideOf_lt ht z).trans_le ?_)
        exact Nat.pow_le_pow_right (by omega) (by omega)
      rw [hz x, hz y]

end Root.Wf

/-- `t` is one of the tables that `addr` leads through. -/
inductive Path (ar : Root) (addr : List UInt8) : ℕ → Prop
  | root : Path ar addr ar.ar_root
  | child {t j c : ℕ} {a : Table} : Path ar addr t → ar.tables t = some a →
      art_findex a addr = some j → a.at_heap j = .child c → Path ar addr c

namespace Path
variable {ar : Root} {x y : List UInt8} {t u : ℕ} {a b : Table}

theorem root_level (h : ar.Wf) (ha : ar.tables ar.ar_root = some a) : a.at_level = 0 := by
  obtain ⟨r, hr, -, hl⟩ := h.root
  obtain rfl : a = r := Option.some.inj (ha.symm.trans hr)
  exact hl

theorem unique (h : ar.Wf) (hp : Path ar x t) (hq : Path ar x u) (ha : ar.tables t = some a)
    (hb : ar.tables u = some b) (hl : a.at_level = b.at_level) : t = u := by
  induction hp generalizing u a b with
  | root =>
    cases hq with
    | root => rfl
    | child _ hd _ hk =>
      obtain ⟨-, -, e, he, -, -, hle⟩ := h.child hd hk
      obtain rfl : b = e := Option.some.inj (hb.symm.trans he)
      have := root_level h ha
      omega
  | @child p j c d hp hd hj hk ih =>
    obtain ⟨-, -, e, he, -, -, hle⟩ := h.child hd hk
    obtain rfl : a = e := Option.some.inj (ha.symm.trans he)
    cases hq with
    | root =>
      have := root_level h hb
      omega
    | @child q i _ d' hq hd' hi hk' =>
      obtain ⟨-, -, e', he', -, -, hle'⟩ := h.child hd' hk'
      obtain rfl : b = e' := Option.some.inj (hb.symm.trans he')
      obtain rfl := ih hq hd hd' (by omega)
      obtain rfl : d = d' := Option.some.inj (hd.symm.trans hd')
      obtain rfl : j = i := Option.some.inj (hj.symm.trans hi)
      exact Entry.child.inj (hk.symm.trans hk')

theorem goes_on (h : ar.Wf) (hp : Path ar x t) (hq : Path ar x u) (ha : ar.tables t = some a)
    (hb : ar.tables u = some b) (hl : a.at_level < b.at_level) :
    ∃ j c, art_findex a x = some j ∧ a.at_heap j = .child c := by
  induction hq generalizing b with
  | root =>
    have := root_level h hb
    omega
  | @child q j c d hq hd hj hk ih =>
    obtain ⟨-, -, e, he, -, -, hle⟩ := h.child hd hk
    obtain rfl : b = e := Option.some.inj (hb.symm.trans he)
    by_cases hlt : a.at_level < d.at_level
    · exact ih hd hlt
    · obtain rfl := hp.unique h hq ha hd (by omega)
      obtain rfl : a = d := Option.some.inj (ha.symm.trans hd)
      exact ⟨j, c, hj, hk⟩

/-- Addresses that agree up to a table lead through it alike. -/
theorem congr (h : ar.Wf) (hp : Path ar x t) (ha : ar.tables t = some a)
    (hxy : SamePrefix x y a.at_offset) : Path ar y t := by
  induction hp generalizing a with
  | root => exact .root
  | @child q j c d hq hd hj hk ih =>
    obtain ⟨-, -, e, he, -, -, hle⟩ := h.child hd hk
    obtain rfl : a = e := Option.some.inj (ha.symm.trans he)
    have hoff : a.at_offset = d.at_offset + d.at_bits := by
      rw [h.offset_eq hd, (h.fits ha).offset, hle]
    refine .child (ih hd (hxy.mono (by omega))) hd ?_ hk
    rw [← hj, art_findex, art_findex, h.bindex_congr_iff hd (by omega) le_rfl]
    intro i _ hi
    exact (hxy i (by omega)).symm

theorem same (h : ar.Wf) (hp : Path ar x t) (hq : Path ar y t) (ha : ar.tables t = some a) :
    SamePrefix x y a.at_offset := by
  induction hp generalizing a with
  | root =>
    intro i hi
    rw [(h.fits ha).offset, root_level h ha] at hi
    simp [Root.offset] at hi
  | @child p j c d hp hd hj hk ih =>
    obtain ⟨-, -, e, he, -, -, hle⟩ := h.child hd hk
    obtain rfl : a = e := Option.some.inj (ha.symm.trans he)
    cases hq with
    | root => exact absurd rfl (h.child_ne_root hd hk)
    | @child q i _ d' hq hd' hi hk' =>
      obtain ⟨rfl, rfl⟩ := h.child_unique hd hd' hk hk'
      obtain rfl : d = d' := Option.some.inj (hd.symm.trans hd')
      have hoff : a.at_offset = d.at_offset + d.at_bits := by
        rw [h.offset_eq hd, (h.fits ha).offset, hle]
      have heq : art_findex d x = art_findex d y := hj.trans hi.symm
      rw [art_findex, art_findex, h.bindex_congr_iff hd (by omega) le_rfl] at heq
      intro m hm
      by_cases hlow : m < d.at_offset
      · exact ih hq hd m hlow
      · exact heq m (by omega) (by omega)

theorem like {br : Root} (hl : ar.Like br) (hp : Path ar x t) : Path br x t := by
  induction hp with
  | root =>
    rw [← hl.root]
    exact .root
  | child _ hd hj hk ih =>
    obtain ⟨e, he, hde⟩ := hl.table hd
    refine .child ih he ?_ ((hde.child _ _).mpr hk)
    rw [← hj]
    simp [art_findex, art_bindex, hde.offset, hde.bits]

end Path

/-- The prefix of `addr` and `plen` belongs to index `i` of table `t`. -/
structure Located (ar : Root) (addr : List UInt8) (plen t i : ℕ) (a : Table) : Prop where
  table : ar.tables t = some a
  path : Path ar addr t
  above : a.at_offset < plen
  within : plen ≤ a.at_offset + a.at_bits
  index : art_bindex a addr plen = some i

namespace Located
variable {ar : Root} {x y : List UInt8} {p q t u i j : ℕ} {a b : Table}

theorem level_eq (h : ar.Wf) (hx : Located ar x p t i a) (hy : Located ar y p u j b) :
    a.at_level = b.at_level := by
  have hxa := hx.above
  have hxw := hx.within
  have hya := hy.above
  have hyw := hy.within
  rw [h.offset_eq hx.table] at hxw
  rw [h.offset_eq hy.table] at hyw
  rw [(h.fits hx.table).offset] at hxa
  rw [(h.fits hy.table).offset] at hya
  by_contra hne
  obtain hlt | hlt := Nat.lt_or_gt_of_ne hne
  · have := ar.offset_mono (show a.at_level + 1 ≤ b.at_level from hlt)
    omega
  · have := ar.offset_mono (show b.at_level + 1 ≤ a.at_level from hlt)
    omega

theorem unique (h : ar.Wf) (hx : Located ar x p t i a) (hy : Located ar x p u j b) :
    t = u ∧ i = j := by
  obtain rfl := hx.path.unique h hy.path hx.table hy.table (hx.level_eq h hy)
  obtain rfl : a = b := Option.some.inj (hx.table.symm.trans hy.table)
  exact ⟨rfl, Option.some.inj (hx.index.symm.trans hy.index)⟩

theorem congr (h : ar.Wf) (hx : Located ar x p t i a) (hxy : SamePrefix x y p) :
    Located ar y p t i a := by
  refine ⟨hx.table, hx.path.congr h hx.table (hxy.mono hx.above.le), hx.above, hx.within, ?_⟩
  rw [← hx.index, h.bindex_congr_iff hx.table hx.above.le hx.within]
  exact fun m _ hm => (hxy m hm).symm

/-- An index tells the length of the prefixes that belong to it. -/
theorem plen_eq (h : ar.Wf) (hx : Located ar x p t i a) (hy : Located ar y q t i b) : p = q := by
  obtain rfl : a = b := Option.some.inj (hx.table.symm.trans hy.table)
  obtain ⟨hx1, hx2⟩ := h.bindex_spec hx.table hx.index
  obtain ⟨hy1, hy2⟩ := h.bindex_spec hy.table hy.index
  have h1 := (Nat.pow_lt_pow_iff_right (by omega)).mp (hx1.trans_lt hy2)
  have h2 := (Nat.pow_lt_pow_iff_right (by omega)).mp (hy1.trans_lt hx2)
  have := hx.above
  have := hy.above
  omega

theorem same (h : ar.Wf) (hx : Located ar x p t i a) (hy : Located ar y p t i b) :
    SamePrefix x y p := by
  obtain rfl : a = b := Option.some.inj (hx.table.symm.trans hy.table)
  have hidx : art_bindex a x p = art_bindex a y p := hx.index.trans hy.index.symm
  rw [h.bindex_congr_iff hx.table hx.above.le hx.within] at hidx
  intro m hm
  by_cases hlow : m < a.at_offset
  · exact hx.path.same h hy.path hx.table m hlow
  · exact hidx m (by omega) hm

theorem two_le (h : ar.Wf) (hx : Located ar x p t i a) : 2 ≤ i := by
  obtain ⟨hlo, -⟩ := h.bindex_spec hx.table hx.index
  have := hx.above
  have hpow : 2 ^ 1 ≤ 2 ^ (p - a.at_offset) := Nat.pow_le_pow_right (by omega) (by omega)
  omega

theorem lt (h : ar.Wf) (hx : Located ar x p t i a) : i < 2 * a.at_minfringe := by
  obtain ⟨-, hhi⟩ := h.bindex_spec hx.table hx.index
  have := hx.within
  have hpow : 2 ^ (p - a.at_offset + 1) ≤ 2 ^ (a.at_bits + 1) :=
    Nat.pow_le_pow_right (by omega) (by omega)
  rw [(h.fits hx.table).minfringe]
  rw [pow_succ] at hpow
  omega

theorem like {br : Root} (hl : ar.Like br) (hab : a.Like b) (hb : br.tables t = some b)
    (hx : Located ar x p t i a) : Located br x p t i b := by
  refine ⟨hb, hx.path.like hl, ?_, ?_, ?_⟩
  · rw [hab.offset]
    exact hx.above
  · rw [hab.offset, hab.bits]
    exact hx.within
  · rw [← hx.index]
    simp [art_bindex, hab.offset, hab.bits]

end Located

/-- The loop of lookup finds the table that a prefix belongs to, or that there is none. -/
theorem lookupLoop_spec {ar : Root} (h : ar.Wf) {x : List UInt8} {plen : ℕ} :
    ∀ (fuel t : ℕ) (a : Table), Path ar x t →
      ar.tables t = some a → a.at_offset < plen → ar.ar_nlvl ≤ a.at_level + fuel →
      (∃ u i b, lookupLoop ar x plen fuel t = some (some u) ∧ Located ar x plen u i b) ∨
        (lookupLoop ar x plen fuel t = some none ∧ ∀ u i b, ¬ Located ar x plen u i b) := by
  intro fuel
  induction fuel with
  | zero =>
    intro t a _ ha _ hf
    have := (h.fits ha).level
    omega
  | succ fuel ih =>
    intro t a hp ha hoff hf
    by_cases hlt : plen > a.at_offset + a.at_bits
    · have hj := h.findex_eq ha x
      cases hk : a.at_heap (a.strideOf x + a.at_minfringe) with
      | child c =>
        obtain ⟨-, -, b, hb, -, -, hl⟩ := h.child ha hk
        have hstep : lookupLoop ar x plen (fuel + 1) t = lookupLoop ar x plen fuel c := by
          simp [lookupLoop, ha, hlt, hj, hk]
        have hboff : b.at_offset = a.at_offset + a.at_bits := by
          rw [h.offset_eq ha, (h.fits hb).offset, hl]
        rw [hstep]
        exact ih c b (.child hp ha hj hk) hb (by omega) (by omega)
      | node an =>
        refine .inr ⟨by simp [lookupLoop, ha, hlt, hj, hk], fun u i b hloc => ?_⟩
        have hw := hloc.within
        have hle : ¬ b.at_level ≤ a.at_level := by
          intro hle
          have := ar.offset_mono (show b.at_level + 1 ≤ a.at_level + 1 by omega)
          rw [h.offset_eq hloc.table] at hw
          rw [h.offset_eq ha] at hlt
          omega
        obtain ⟨j, c, hj', hk'⟩ := hp.goes_on h hloc.path ha hloc.table (by omega)
        obtain rfl := Option.some.inj (hj.symm.trans hj')
        simp [hk] at hk'
    · have hidx := h.bindex_eq ha x hoff.le (show plen ≤ _ by omega)
      exact .inl ⟨t, _, a, by simp [lookupLoop, ha, hlt], ha, hp, hoff, by omega, hidx⟩

theorem lookup_place {ar : Root} (h : ar.Wf) (x : List UInt8) {plen : ℕ} (hpos : 0 < plen) :
    (∃ u i b, lookupLoop ar x plen ar.ar_nlvl ar.ar_root = some (some u) ∧
        Located ar x plen u i b) ∨
      (lookupLoop ar x plen ar.ar_nlvl ar.ar_root = some none ∧
        ∀ u i b, ¬ Located ar x plen u i b) := by
  obtain ⟨r, hr, -, hl⟩ := h.root
  refine lookupLoop_spec h _ _ r .root hr ?_ (by omega)
  rw [(h.fits hr).offset, hl]
  exact hpos

end OpenbsdKernel.Art
