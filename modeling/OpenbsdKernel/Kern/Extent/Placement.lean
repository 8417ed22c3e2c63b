import OpenbsdKernel.Kern.Extent.DoAlloc

/-!
# Where a subregion is placed

Between two regions of the list, the search looks at the first aligned address past
the end of the one in front, moved to the next boundary if the request would cross
it. Read as natural numbers these starts do not wrap, and a start below `2 ^ 64` is
the one the code computes. A gap that holds the request at such a start is a right
place for it as long as the start is aligned; where one of the two alignments made
before the loop wraps, no place is right.
-/
namespace OpenbsdKernel.SubrExtent

open Ivl

/-- The arguments pass the checks of `extent_do_alloc`, and `alignment` and `boundary`
are the powers of two that its comment asks for. -/
structure SubArgs.Ok (ex : Extent) (a : SubArgs) : Prop where
  start_ge : ex.ex_start ≤ a.substart
  start_le : a.substart ≤ ex.ex_end
  end_le : a.subend ≤ ex.ex_end
  end_ge : ex.ex_start ≤ a.subend
  size_pos : 1#64 ≤ a.size
  size_le : a.size - 1#64 ≤ a.subend - a.substart
  alignment : IsPow2 a.alignment
  boundary : a.boundary = 0#64 ∨ (IsPow2 a.boundary ∧ a.size ≤ a.boundary)

section Place

variable {ex : Extent} {a : SubArgs} {newstart : BitVec 64} {rev rest : List Region} {rp : Region}

theorem SubArgs.Ok.size_toNat (h : a.Ok ex) : 1 ≤ a.size.toNat := h.size_pos

theorem SubArgs.Ok.end_toNat (h : a.Ok ex) : a.subend.toNat ≤ ex.ex_end.toNat := h.end_le

theorem extentDoAlloc_checked (h : a.Ok ex) (myrp : ErFlags) :
    extentDoAlloc ex a myrp = doAllocStart ex a myrp := by
  have h1 := h.start_ge
  have h2 := h.start_le
  have h3 := h.end_le
  have h4 := h.end_ge
  have h5 := h.size_pos
  have h6 := h.size_le
  have hsub : ¬ (a.substart < ex.ex_start ∨ ex.ex_end < a.substart ∨ ex.ex_end < a.subend ∨
      a.subend < ex.ex_start) := by bv_omega
  have hsize : ¬ (a.size < 1#64 ∨ a.subend - a.substart < a.size - 1#64) := by
    rintro (h | h)
    · bv_omega
    · exact BitVec.not_le.mpr h h6
  have halign : ¬ a.alignment = 0#64 := by
    intro h0
    have := h.alignment.toNat_pos
    rw [h0] at this
    exact absurd this (by decide)
  have hbound : ¬ (a.boundary ≠ 0#64 ∧ a.boundary < a.size) := by
    rintro ⟨h1, h2⟩
    rcases h.boundary with h0 | ⟨-, h0⟩
    · exact h1 h0
    · exact BitVec.not_le.mpr h2 h0
  rw [extentDoAlloc, if_neg hsub, if_neg hsize, if_neg halign, if_neg hbound]

/-- The first aligned start in the gap behind the regions `rev`. -/
def firstStart (a : SubArgs) : List Region → ℕ
  | [] => a.aligned a.substart.toNat
  | last :: _ => a.aligned (max a.substart.toNat (last.er_end.toNat + 1))

/-- The first address past the gap in front of the regions `rest`. -/
def gapEnd (ex : Extent) : List Region → ℕ
  | [] => ex.ex_end.toNat + 1
  | next :: _ => next.er_start.toNat

/-- The request fits at `start` in the gap in front of `rest` and in the subregion. -/
def Fits (ex : Extent) (a : SubArgs) (start : ℕ) (rest : List Region) : Prop :=
  start + a.size.toNat ≤ gapEnd ex rest ∧ start + a.size.toNat ≤ a.subend.toNat + 1

/-- Where boundaries are counted from. -/
def boundaryBase (ex : Extent) (a : SubArgs) : BitVec 64 :=
  if a.flags.boundzero then 0#64 else ex.ex_start

/-- The first boundary above an address. -/
def nextBoundary (ex : Extent) (a : SubArgs) (x : ℕ) : ℕ :=
  alignUp (x + 1) a.boundary.toNat (boundaryBase ex a).toNat

theorem leOv_size (hsize : 1 ≤ a.size.toNat) (s z : BitVec 64) :
    leOv s a.size z ↔ s.toNat + a.size.toNat ≤ z.toNat := by
  constructor
  · rintro ⟨h1, h2⟩
    bv_omega
  · intro h
    constructor <;> bv_omega

theorem leOv_last (hsize : 1 ≤ a.size.toNat) (s z : BitVec 64) :
    leOv s (a.size - 1#64) z ↔ s.toNat + a.size.toNat ≤ z.toNat + 1 := by
  constructor
  · rintro ⟨h1, h2⟩
    bv_omega
  · intro h
    constructor <;> bv_omega

theorem nextBoundary_gt (ex : Extent) (a : SubArgs) (x : ℕ) : x < nextBoundary ex a x := le_alignUp (x + 1) _ _

theorem nextBoundary_le (hb : IsPow2 a.boundary) {x m : ℕ} (hx : x < m)
    (hm : m ≡ (boundaryBase ex a).toNat [MOD a.boundary.toNat]) : nextBoundary ex a x ≤ m :=
  alignUp_le hb.toNat_pos hx hm

/-- Above a boundary the next one is a whole period away. -/
theorem nextBoundary_next (hb : IsPow2 a.boundary) (x : ℕ) :
    nextBoundary ex a x + a.boundary.toNat ≤ nextBoundary ex a (nextBoundary ex a x) := by
  by_contra hlt
  have h1 := nextBoundary_gt ex a (nextBoundary ex a x)
  have h2 : nextBoundary ex a (nextBoundary ex a x) ≡ nextBoundary ex a x [MOD a.boundary.toNat] :=
    (alignUp_modEq hb.toNat_pos).trans (alignUp_modEq hb.toNat_pos).symm
  have := eq_of_modEq_of_lt h2 (by omega) (by omega)
  omega

/-- The last address before the next boundary, as the code computes it: past the last
boundary it is either below the extent or the last address of all. -/
theorem dontcross_cases (hb : IsPow2 a.boundary) :
    let dontcross := extentAlign (newstart + 1#64) a.boundary
      (if a.flags.boundzero then 0#64 else ex.ex_start) - 1#64
    (dontcross.toNat + 1 = nextBoundary ex a newstart.toNat ∧
        nextBoundary ex a newstart.toNat ≤ 2 ^ 64) ∨
      (2 ^ 64 < nextBoundary ex a newstart.toNat ∧ dontcross < ex.ex_start) := by
  intro dontcross
  have hpos := hb.toNat_pos
  have hle := hb.le
  have hgt := nextBoundary_gt ex a newstart.toNat
  have hn := newstart.isLt
  have hlt : nextBoundary ex a newstart.toNat < newstart.toNat + 1 + a.boundary.toNat :=
    alignUp_lt hpos
  obtain ⟨low, hlow⟩ : ∃ low, low = (boundaryBase ex a).toNat % a.boundary.toNat := ⟨_, rfl⟩
  have hlowlt : low < a.boundary.toNat := by
    rw [hlow]
    exact Nat.mod_lt _ hpos
  have hlowle : low ≤ (boundaryBase ex a).toNat := by
    rw [hlow]
    exact Nat.mod_le _ _
  have hbase : (boundaryBase ex a).toNat ≤ ex.ex_start.toNat := by
    unfold boundaryBase
    split_ifs
    · exact Nat.zero_le _
    · exact le_rfl
  have hwrap : 2 ^ 64 ≤ nextBoundary ex a newstart.toNat →
      nextBoundary ex a newstart.toNat - 2 ^ 64 = low := by
    intro h
    rw [hlow]
    exact alignUp_wrap hb.dvd hpos hn h
  have hval : (extentAlign (newstart + 1#64) a.boundary (boundaryBase ex a)).toNat =
      nextBoundary ex a newstart.toNat % 2 ^ 64 := by
    rw [toNat_extentAlign hb]
    by_cases hmax : newstart.toNat + 1 = 2 ^ 64
    · have hzero : (newstart + 1#64).toNat = 0 := by bv_omega
      have hself : alignUp 0 a.boundary.toNat (boundaryBase ex a).toNat = low := by
        simp [alignUp, hlow]
      have := hwrap (by omega)
      rw [hzero, hself]
      omega
    · have hsucc : (newstart + 1#64).toNat = newstart.toNat + 1 := by bv_omega
      rw [hsucc]
      rfl
  have hdef : dontcross = extentAlign (newstart + 1#64) a.boundary (boundaryBase ex a) - 1#64 := rfl
  by_cases hsmall : nextBoundary ex a newstart.toNat < 2 ^ 64
  · rw [Nat.mod_eq_of_lt hsmall] at hval
    have hd : dontcross.toNat + 1 = nextBoundary ex a newstart.toNat := by bv_omega
    exact .inl ⟨hd, hsmall.le⟩
  · have hlowval := hwrap (by omega)
    have hmod : nextBoundary ex a newstart.toNat % 2 ^ 64 = low := by omega
    rw [hmod] at hval
    by_cases hzero : low = 0
    · have hd : dontcross.toNat + 1 = 2 ^ 64 := by bv_omega
      exact .inl ⟨by omega, by omega⟩
    · have hd : dontcross.toNat + 1 = low := by bv_omega
      refine .inr ⟨by omega, ?_⟩
      rw [BitVec.lt_def]
      omega

/-- Where the request starts in a gap with the given first start: there, or at the next
boundary, if that lies above the extent's first address and the request would cross it. -/
def shifted (ex : Extent) (a : SubArgs) (n : ℕ) : ℕ :=
  if a.boundary ≠ 0#64 ∧ ex.ex_start.toNat < nextBoundary ex a n ∧
      nextBoundary ex a n < n + a.size.toNat then nextBoundary ex a n
  else n

/-- The start is moved to a boundary, and a whole period further is past the last address. -/
def GivesUp (ex : Extent) (a : SubArgs) (n : ℕ) : Prop :=
  n < shifted ex a n ∧ 2 ^ 64 < shifted ex a n + a.boundary.toNat

instance (ex : Extent) (a : SubArgs) (n : ℕ) : Decidable (GivesUp ex a n) :=
  inferInstanceAs (Decidable (_ ∧ _))

theorem le_shifted (ex : Extent) (a : SubArgs) (n : ℕ) : n ≤ shifted ex a n := by
  unfold shifted
  split_ifs
  · exact (nextBoundary_gt ex a n).le
  · exact le_rfl

theorem shifted_zero (hb : a.boundary = 0#64) (n : ℕ) : shifted ex a n = n := by
  simp [shifted, hb]

theorem shifted_pos {n : ℕ} (hb : a.boundary ≠ 0#64) (hlo : ex.ex_start.toNat < nextBoundary ex a n)
    (hcross : nextBoundary ex a n < n + a.size.toNat) : shifted ex a n = nextBoundary ex a n :=
  if_pos ⟨hb, hlo, hcross⟩

theorem shifted_neg {n : ℕ} (h : nextBoundary ex a n ≤ ex.ex_start.toNat ∨
    n + a.size.toNat ≤ nextBoundary ex a n) : shifted ex a n = n := by
  rw [shifted, if_neg]
  omega

/-- The boundary check of a gap whose first start leaves the request room up to `L`: it lets
the start pass that `shifted` names, unless the request does not fit there or the boundary
after next is past the last address. -/
theorem checkBoundary_cases {fits : BitVec 64 → Bool} (misfit : Boundary) {L : ℕ} (hok : a.Ok ex)
    (hfit : newstart.toNat + a.size.toNat ≤ L) (hL : L ≤ a.subend.toNat + 1)
    (hfits : ∀ t, fits t = true ↔ t.toNat + a.size.toNat ≤ L) :
    (shifted ex a newstart.toNat + a.size.toNat ≤ L ∧ ¬ GivesUp ex a newstart.toNat ∧
        ∃ s : BitVec 64, s.toNat = shifted ex a newstart.toNat ∧
          checkBoundary ex a newstart fits misfit = .place s) ∨
      (shifted ex a newstart.toNat + a.size.toNat ≤ L ∧ GivesUp ex a newstart.toNat ∧
        checkBoundary ex a newstart fits misfit = .fail) ∨
      (L < shifted ex a newstart.toNat + a.size.toNat ∧
        checkBoundary ex a newstart fits misfit = misfit) := by
  have hsize := hok.size_toNat
  have hend := hok.end_toNat
  have hlast := ex.ex_end.isLt
  have hgt := nextBoundary_gt ex a newstart.toNat
  have hstay : shifted ex a newstart.toNat = newstart.toNat →
      checkBoundary ex a newstart fits misfit = .place newstart →
      shifted ex a newstart.toNat + a.size.toNat ≤ L ∧ ¬ GivesUp ex a newstart.toNat ∧
        ∃ s : BitVec 64, s.toNat = shifted ex a newstart.toNat ∧
          checkBoundary ex a newstart fits misfit = .place s := by
    intro hs hp
    refine ⟨hs.symm ▸ hfit, fun h => ?_, newstart, hs.symm, hp⟩
    have := h.1
    omega
  have hin : ∀ d : BitVec 64, newstart.toNat ≤ d.toNat →
      checkEnd ex a.size newstart d = .place newstart := by
    intro d hd
    rw [checkEnd, if_neg]
    bv_omega
  by_cases h0 : a.boundary = 0#64
  · exact .inl (hstay (shifted_zero h0 _) (by rw [checkBoundary, if_pos h0]))
  obtain ⟨hb, hge⟩ : IsPow2 a.boundary ∧ a.size ≤ a.boundary := by
    rcases hok.boundary with h1 | h1
    · exact absurd h1 h0
    · exact h1
  have hpos := hb.toNat_pos
  have hle := hb.le
  have hcases := @dontcross_cases ex a newstart hb
  rw [checkBoundary, if_neg h0] at hstay ⊢
  dsimp only at hstay hcases ⊢
  generalize extentAlign (newstart + 1#64) a.boundary
    (if a.flags.boundzero = true then 0#64 else ex.ex_start) - 1#64 = dontcross at hstay hcases ⊢
  have hnewend : (newstart + (a.size - 1#64)).toNat = newstart.toNat + a.size.toNat - 1 := by
    bv_omega
  by_cases hlo : dontcross < ex.ex_start
  · -- no boundary above the start is seen
    have hlo' : dontcross.toNat < ex.ex_start.toNat := hlo
    rw [if_pos hlo] at hstay ⊢
    refine .inl (hstay (shifted_neg ?_) (hin _ (by omega)))
    rcases hcases with ⟨hd, -⟩ | ⟨hbig, -⟩
    · exact .inl (by omega)
    · exact .inr (by omega)
  · obtain ⟨hd, hbig⟩ := hcases.resolve_right fun h => hlo h.2
    have hlo' : ex.ex_start.toNat ≤ dontcross.toNat := BitVec.not_lt.mp hlo
    rw [if_neg hlo] at hstay ⊢
    by_cases hcross : dontcross < newstart + (a.size - 1#64)
    · -- the request crosses the boundary
      have hcross' : dontcross.toNat < newstart.toNat + a.size.toNat - 1 := by
        rw [BitVec.lt_def, hnewend] at hcross
        exact hcross
      have hs : shifted ex a newstart.toNat = nextBoundary ex a newstart.toNat :=
        shifted_pos h0 (by omega) (by omega)
      have hval : (dontcross + 1#64).toNat = nextBoundary ex a newstart.toNat := by bv_omega
      rw [if_pos hcross]
      by_cases hroom : shifted ex a newstart.toNat + a.size.toNat ≤ L
      · have hroom' : fits (dontcross + 1#64) = true := by
          rw [hfits, hval, ← hs]
          exact hroom
        rw [if_pos hroom', checkEnd]
        by_cases hup : 2 ^ 64 < shifted ex a newstart.toNat + a.boundary.toNat
        · refine .inr (.inl ⟨hroom, ⟨by omega, hup⟩, if_pos (.inr ?_)⟩)
          bv_omega
        · refine .inl ⟨hroom, fun h => hup h.2, dontcross + 1#64, hval.trans hs.symm, if_neg ?_⟩
          bv_omega
      · have hroom' : ¬ fits (dontcross + 1#64) = true := by
          rw [hfits, hval, ← hs]
          exact hroom
        rw [if_neg hroom']
        exact .inr (.inr ⟨not_le.mp hroom, rfl⟩)
    · -- the request ends before the boundary
      have hcross' : newstart.toNat + a.size.toNat - 1 ≤ dontcross.toNat := by
        rw [BitVec.lt_def, hnewend] at hcross
        exact Nat.not_lt.mp hcross
      rw [if_neg hcross] at hstay ⊢
      exact .inl (hstay (shifted_neg (.inr (by omega))) (hin _ (by omega)))

/-- The search stands in the gap between `rev` and `rest`, at its first aligned start. -/
structure At (ex : Extent) (a : SubArgs) (newstart : BitVec 64) (rev rest : List Region) : Prop where
  split : rev.reverse ++ rest = ex.ex_regions
  start : newstart.toNat = firstStart a rev
  ahead : ∀ r ∈ rest, a.substart ≤ r.er_end

/-- A place for the request between two neighbours of the list. -/
structure Placed (ex : Extent) (a : SubArgs) (newstart : BitVec 64) (rev rest : List Region) :
    Prop where
  split : rev.reverse ++ rest = ex.ex_regions
  before : ∀ r ∈ rev, r.er_end < newstart
  after : ∀ r ∈ rest, newstart.toNat + a.size.toNat ≤ r.er_start.toNat
  lower : a.substart ≤ newstart
  upper : newstart.toNat + a.size.toNat ≤ a.subend.toNat + 1
  nocross : a.boundary ≠ 0#64 →
    newstart.toNat + a.size.toNat ≤ nextBoundary ex a newstart.toNat

theorem firstStart_ge (a : SubArgs) (rev : List Region) : a.substart.toNat ≤ firstStart a rev := by
  cases rev with
  | nil => exact le_alignUp _ _ _
  | cons last rev => exact (le_max_left _ _).trans (le_alignUp _ _ _)

theorem firstStart_modEq (h : IsPow2 a.alignment) (rev : List Region) :
    firstStart a rev ≡ a.skew.toNat [MOD a.alignment.toNat] := by
  cases rev with
  | nil => exact alignUp_modEq h.toNat_pos
  | cons last rev => exact alignUp_modEq h.toNat_pos

theorem lt_firstStart (hs : Sorted (ivls (rev.reverse ++ rest))) {r : Region} (hr : r ∈ rev) :
    r.er_end.toNat < firstStart a rev := by
  cases rev with
  | nil => cases hr
  | cons last rev =>
    have hlast : last.er_end.toNat < firstStart a (last :: rev) :=
      (le_max_right a.substart.toNat (last.er_end.toNat + 1)).trans (le_alignUp _ _ _)
    rcases List.mem_cons.mp hr with rfl | hr
    · exact hlast
    · have hs' : Sorted (ivls (rev.reverse ++ last :: rest)) := by simpa using hs
      have h1 := lt_of_before hs' (List.mem_reverse.mpr hr)
      have h2 := Region.start_le_end hs' (r := last) (by simp)
      exact (lt_of_lt_of_le h1 h2).trans hlast

theorem placed_of_fits (hw : ex.WF) (hok : a.Ok ex) (hsplit : rev.reverse ++ rest = ex.ex_regions)
    (hs : newstart.toNat = shifted ex a (firstStart a rev))
    (hfit : Fits ex a (shifted ex a (firstStart a rev)) rest) : Placed ex a newstart rev rest := by
  have hsorted : Sorted (ivls (rev.reverse ++ rest)) := hsplit ▸ hw.sorted
  have hge := firstStart_ge a rev
  have hle := le_shifted ex a (firstStart a rev)
  have hlo : ex.ex_start.toNat ≤ a.substart.toNat := hok.start_ge
  have hfit' := hfit.1
  refine ⟨hsplit, fun r hr => ?_, ?_, ?_, hs ▸ hfit.2, fun h0 => ?_⟩
  · have hlt := lt_firstStart (a := a) hsorted hr
    rw [BitVec.lt_def]
    omega
  · -- what lies past the first region ahead lies past all that follow
    cases rest with
    | nil => simp
    | cons rp rest =>
      have hnext : newstart.toNat + a.size.toNat ≤ rp.er_start.toNat := hs ▸ hfit'
      intro r hr
      rcases List.mem_cons.mp hr with rfl | hr
      · exact hnext
      · have h1 : rp.er_end.toNat < r.er_start.toNat := lt_of_after hsorted hr
        have h2 : rp.er_start.toNat ≤ rp.er_end.toNat :=
          Region.start_le_end hsorted (r := rp) (by simp)
        omega
  · rw [BitVec.le_def]
    omega
  · obtain ⟨hb, hsize⟩ : IsPow2 a.boundary ∧ a.size ≤ a.boundary := by
      rcases hok.boundary with h1 | h1
      · exact absurd h1 h0
      · exact h1
    have hsize' : a.size.toNat ≤ a.boundary.toNat := hsize
    have hgt := nextBoundary_gt ex a (firstStart a rev)
    rw [hs]
    by_cases hcross : nextBoundary ex a (firstStart a rev) < firstStart a rev + a.size.toNat
    · rw [shifted_pos h0 (by omega) hcross]
      have := @nextBoundary_next ex a hb (firstStart a rev)
      omega
    · rw [shifted_neg (.inr (not_lt.mp hcross))]
      exact not_lt.mp hcross

/-- Both alignments made before the loop stay in the address space: that of `substart`,
and that of the address past a region which holds the aligned `substart`. -/
def NoWrap (ex : Extent) (a : SubArgs) : Prop :=
  a.aligned a.substart.toNat < 2 ^ 64 ∧
    ∀ r ∈ ex.ex_regions, r.er_start.toNat < a.aligned a.substart.toNat →
      a.aligned a.substart.toNat ≤ r.er_end.toNat → a.aligned (r.er_end.toNat + 1) < 2 ^ 64

theorem passRegions_spec {l rev' rest' : List Region}
    (h : passRegions newstart rev l = (rev', rest')) (hrev : ∀ r ∈ rev, r.er_start < newstart) :
    rev'.reverse ++ rest' = rev.reverse ++ l ∧ (∀ r ∈ rev', r.er_start < newstart) ∧
      ∀ r ∈ rest'.head?, newstart ≤ r.er_start := by
  induction l generalizing rev with
  | nil =>
    cases h
    exact ⟨rfl, hrev, by simp⟩
  | cons rp l ih =>
    unfold passRegions at h
    split_ifs at h with hstop
    · cases h
      exact ⟨rfl, hrev, by simpa using hstop⟩
    · obtain ⟨heq, hlast, hhead⟩ := ih h (by
        intro r hr
        rcases List.mem_cons.mp hr with rfl | hr
        · exact BitVec.not_le.mp hstop
        · exact hrev r hr)
      exact ⟨by simpa using heq, hlast, hhead⟩

theorem firstGap_at (hw : ex.WF) (hok : a.Ok ex) (hn : NoWrap ex a) :
    At ex a (firstGap ex a).1 (firstGap ex a).2.1 (firstGap ex a).2.2 := by
  obtain ⟨hfirst, hover⟩ := hn
  have hval := a.toNat_align hok.alignment a.substart
  rw [if_pos hfirst] at hval
  have hge : a.substart.toNat ≤ a.aligned a.substart.toNat := le_alignUp _ _ _
  unfold firstGap
  obtain ⟨⟨rev, rest⟩, hpass⟩ : ∃ p, passRegions (a.align a.substart) [] ex.ex_regions = p := ⟨_, rfl⟩
  obtain ⟨hsplit, hrev, hhead⟩ := passRegions_spec hpass (by simp)
  simp only [List.reverse_nil, List.nil_append] at hsplit
  have hs : Sorted (ivls (rev.reverse ++ rest)) := hsplit ▸ hw.sorted
  have hahead : ∀ r ∈ rest, a.substart ≤ r.er_end := by
    cases rest with
    | nil => simp
    | cons rp rest =>
      have h1 : a.align a.substart ≤ rp.er_start := hhead rp (by simp)
      have h2 := Region.start_le_end hs (r := rp) (by simp)
      intro r hr
      rcases List.mem_cons.mp hr with rfl | hr
      · bv_omega
      · have h3 := lt_of_after hs hr
        have h4 := Region.start_le_end hs (r := r) (by simp [hr])
        bv_omega
  dsimp only
  rw [hpass]
  cases rev with
  | nil => exact ⟨hsplit, hval, hahead⟩
  | cons last rev =>
    refine ⟨hsplit, ?_, hahead⟩
    have hmem : last ∈ ex.ex_regions := by
      rw [← hsplit]
      simp
    have hbefore : last.er_start.toNat < a.aligned a.substart.toNat := by
      rw [← hval]
      exact hrev last (by simp)
    dsimp only
    split_ifs with hle
    · -- a region holds the aligned start
      have hle' : a.aligned a.substart.toNat ≤ last.er_end.toNat := by
        rw [← hval]
        exact hle
      have hnext := hover last hmem hbefore hle'
      rcases a.align_succ hok.alignment last.er_end with ⟨-, h1, -⟩ | ⟨h1, -, -⟩
      · rw [h1, firstStart, max_eq_right (by omega)]
      · omega
    · have hlt : last.er_end.toNat + 1 ≤ a.aligned a.substart.toNat := by
        rw [← hval]
        exact BitVec.not_le.mp hle
      rw [hval, firstStart]
      exact (alignUp_eq_of_le hok.alignment.toNat_pos (le_max_left _ _) (max_le hge hlt)).symm

theorem firstGap_before (hok : a.Ok ex) (hfirst : a.aligned a.substart.toNat < 2 ^ 64) :
    ∀ r ∈ (firstGap ex a).2.1, r.er_start.toNat < a.aligned a.substart.toNat := by
  have hval := a.toNat_align hok.alignment a.substart
  rw [if_pos hfirst] at hval
  unfold firstGap
  obtain ⟨⟨rev, rest⟩, hpass⟩ : ∃ p, passRegions (a.align a.substart) [] ex.ex_regions = p := ⟨_, rfl⟩
  obtain ⟨-, hrev, -⟩ := passRegions_spec hpass (by simp)
  dsimp only
  rw [hpass, ← hval]
  cases rev with
  | nil => simp
  | cons last rev => exact hrev

/-- The first gap splits the list, also where an alignment has wrapped. -/
theorem firstGap_split (ex : Extent) (a : SubArgs) :
    (firstGap ex a).2.1.reverse ++ (firstGap ex a).2.2 = ex.ex_regions := by
  unfold firstGap
  obtain ⟨⟨rev, rest⟩, hpass⟩ : ∃ p, passRegions (a.align a.substart) [] ex.ex_regions = p := ⟨_, rfl⟩
  obtain ⟨hsplit, -, -⟩ := passRegions_spec hpass (by simp)
  dsimp only
  rw [hpass]
  cases rev <;> exact hsplit

/-- The call panics only where the first alignment wraps. -/
theorem not_wraps_of_low (hok : a.Ok ex) (hlow : a.align a.substart < ex.ex_start) :
    ¬ a.aligned a.substart.toNat < 2 ^ 64 := by
  intro h
  have hval := a.toNat_align hok.alignment a.substart
  rw [if_pos h] at hval
  have h1 : a.substart.toNat ≤ a.aligned a.substart.toNat := le_alignUp _ _ _
  have h2 := hok.start_ge
  bv_omega

/-- What an answer of zero promises. -/
structure Good (ex : Extent) (a : SubArgs) (s : BitVec 64) (regions : List Region) : Prop where
  lower : a.substart ≤ s
  upper : s.toNat + (a.size.toNat - 1) ≤ a.subend.toNat
  aligned : a.alignment.toNat ∣ (s - a.skew).toNat
  nocross : a.boundary ≠ 0#64 → ∀ m : ℕ, m ≡ (boundaryBase ex a).toNat [MOD a.boundary.toNat] →
    s.toNat < m → s.toNat + (a.size.toNat - 1) < m
  free : Disjoint ex.allocated (request s (s + (a.size - 1#64)))
  inserted : Inserted s (s + (a.size - 1#64)) ex.ex_regions regions

/-- A word is congruent to the skew exactly when its distance to it is a multiple of
the alignment, whatever the subtraction wraps. -/
theorem modEq_skew_iff (h : IsPow2 a.alignment) (s : BitVec 64) :
    s.toNat ≡ a.skew.toNat [MOD a.alignment.toNat] ↔ a.alignment.toNat ∣ (s - a.skew).toNat := by
  have hsum := congrArg BitVec.toNat (BitVec.sub_add_cancel s a.skew)
  rw [BitVec.toNat_add] at hsum
  have hmod : s.toNat ≡ (s - a.skew).toNat + a.skew.toNat [MOD a.alignment.toNat] := by
    have h64 : s.toNat ≡ (s - a.skew).toNat + a.skew.toNat [MOD 2 ^ 64] := by
      rw [← hsum]
      exact Nat.mod_modEq _ _
    exact h64.of_dvd h.dvd
  have hskew : s.toNat ≡ a.skew.toNat [MOD a.alignment.toNat] ↔
      (s - a.skew).toNat + a.skew.toNat ≡ 0 + a.skew.toNat [MOD a.alignment.toNat] := by
    rw [Nat.zero_add]
    exact ⟨fun h => hmod.symm.trans h, fun h => hmod.trans h⟩
  rw [hskew, ← Nat.modEq_zero_iff_dvd]
  exact ⟨fun h => Nat.ModEq.add_right_cancel' _ h, fun h => Nat.ModEq.add_right _ h⟩

theorem Placed.gap (h : Placed ex a newstart rev rest) (hw : ex.WF) (hok : a.Ok ex) :
    Gap newstart a.size rev rest := by
  have hsize := hok.size_toNat
  have hupper := h.upper
  have hend := a.subend.isLt
  refine ⟨h.split ▸ hw.sorted, by bv_omega, h.before, fun r hr => ?_⟩
  have := h.after r hr
  bv_omega

theorem Placed.good_iff (h : Placed ex a newstart rev rest) (hw : ex.WF) (hok : a.Ok ex)
    (myrp : ErFlags) :
    Good ex a newstart (extentInsertAndOptimize ex newstart a.size rev rest myrp).ex_regions ↔
      newstart.toNat ≡ a.skew.toNat [MOD a.alignment.toNat] := by
  have hsize := hok.size_toNat
  have hgap := h.gap hw hok
  have hupper := h.upper
  have hins := insertAndOptimize_inserted ex myrp hgap
  rw [h.split] at hins
  refine ⟨fun hg => (modEq_skew_iff hok.alignment newstart).mpr hg.aligned, fun hal =>
    ⟨h.lower, by omega, (modEq_skew_iff hok.alignment newstart).mp hal, ?_, ?_, hins⟩⟩
  · intro h0 m hm hlt
    have hcross := h.nocross h0
    have hb : IsPow2 a.boundary := by
      rcases hok.boundary with h1 | h1
      · exact absurd h1 h0
      · exact h1.1
    have := nextBoundary_le hb hlt hm
    omega
  · rw [Extent.allocated, ← h.split, ivls_append]
    apply disjoint_cover
    intro x hx
    rcases List.mem_append.mp hx with hx | hx
    · exact .inl (hgap.lt_ivls x hx)
    · exact .inr (hgap.ivls_lt x hx)

/-- An address that the request could be given: in the subregion, aligned and free. -/
structure Usable (ex : Extent) (a : SubArgs) (s : BitVec 64) : Prop where
  lower : a.substart ≤ s
  upper : s.toNat + (a.size.toNat - 1) ≤ a.subend.toNat
  aligned : a.alignment.toNat ∣ (s - a.skew).toNat
  free : Disjoint ex.allocated (request s (s + (a.size - 1#64)))

theorem Good.usable {s : BitVec 64} {regions : List Region} (h : Good ex a s regions) :
    Usable ex a s := ⟨h.lower, h.upper, h.aligned, h.free⟩

theorem Usable.apart {s : BitVec 64} (h : Usable ex a s) (hw : ex.WF) (hok : a.Ok ex) {r : Region}
    (hr : r ∈ ex.ex_regions) :
    r.er_end.toNat < s.toNat ∨ s.toNat + a.size.toNat ≤ r.er_start.toNat := by
  have hsize := hok.size_toNat
  have hupper := h.upper
  have hend := a.subend.isLt
  have hlast : (s + (a.size - 1#64)).toNat = s.toNat + (a.size.toNat - 1) := by bv_omega
  have hle : r.er_start.toNat ≤ r.er_end.toNat := Region.start_le_end hw.sorted hr
  by_contra hno
  push Not at hno
  have hmem : max r.er_start.toNat s.toNat ∈ ex.allocated :=
    mem_allocated.mpr ⟨r, hr, le_max_left _ _, max_le hle hno.1⟩
  refine Set.disjoint_left.mp h.free hmem ⟨le_max_right _ _, ?_⟩
  rw [hlast]
  exact max_le (by omega) (by omega)

/-- Where one of the two alignments wraps, no address is a right answer. -/
theorem Usable.noWrap {s : BitVec 64} (h : Usable ex a s) (hw : ex.WF) (hok : a.Ok ex) :
    NoWrap ex a := by
  have hmod := (modEq_skew_iff hok.alignment s).mpr h.aligned
  have hsize := hok.size_toNat
  have hs := s.isLt
  have hpos := hok.alignment.toNat_pos
  have hle : a.aligned a.substart.toNat ≤ s.toNat := alignUp_le hpos h.lower hmod
  refine ⟨by omega, fun r hr h1 h2 => ?_⟩
  rcases h.apart hw hok hr with hbefore | hafter
  · have : a.aligned (r.er_end.toNat + 1) ≤ s.toNat := alignUp_le hpos hbefore hmod
    omega
  · omega

end Place

def subNowait (fast boundzero : Bool) : SubFlags := ⟨exNowait, fast, boundzero⟩

end OpenbsdKernel.SubrExtent
