import OpenbsdKernel.Kern.Extent.Search

/-!
# Refusals and the best fit

Without a boundary the candidates of the search are all gaps that hold the request: an
answer of `EAGAIN` means that there is none, and the gap chosen is the best fit but for
the address that the last gap is charged too many.
-/
namespace OpenbsdKernel.SubrExtent

open Ivl

/-- What a search that need not check boundaries ends with. -/
theorem doAllocStart_plain {ex : Extent} {a : SubArgs} (hw : ex.WF) (hok : a.Ok ex)
    (hb : a.boundary = 0#64) (hlow : ¬ a.align a.substart < ex.ex_start) (myrp : ErFlags) :
    match (fitting ex a (firstGap ex a).1.toNat (firstGap ex a).2.1 (firstGap ex a).2.2).argmin
      (weight ex a) with
    | some c => ∃ s : BitVec 64, (doAllocStart ex a myrp).2 = .allocated s ∧ s.toNat = c.start
    | none => (doAllocStart ex a myrp).2 =
        if a.flags.waitspace then .sleep else .ret .EAGAIN := by
  have hres := doAllocStart_result hw hok hlow myrp
  rw [places_zero hb, List.map_congr_left fun c _ => moved_zero hb c, List.map_id'] at hres
  cases hmin : (fitting ex a (firstGap ex a).1.toNat (firstGap ex a).2.1
      (firstGap ex a).2.2).argmin (weight ex a) with
  | none =>
    rw [hmin] at hres
    exact hres
  | some c =>
    rw [hmin] at hres
    obtain ⟨s, hs, hcall⟩ := hres
    exact ⟨s, by rw [hcall], hs⟩

/-- The answer `EAGAIN` means that no address of the subregion would have done. -/
theorem extentDoAlloc_eagain {ex : Extent} {a : SubArgs} {myrp : ErFlags} (hw : ex.WF)
    (hok : a.Ok ex) (hb : a.boundary = 0#64)
    (hr : (extentDoAlloc ex a myrp).2 = .ret .EAGAIN) : ¬ ∃ s, Usable ex a s := by
  rintro ⟨s, hs⟩
  have hn := hs.noWrap hw hok
  obtain ⟨rev, rest, hholds⟩ := hs.holds hw hok
  have hmem := (mem_fitting_iff hw hok hn (c := ⟨firstStart a rev, rev, rest⟩)).mpr ⟨hholds, rfl⟩
  rw [extentDoAlloc_checked hok] at hr
  by_cases hlow : a.align a.substart < ex.ex_start
  · rw [doAllocStart, if_pos hlow] at hr
    cases hr
  · have hres := doAllocStart_plain hw hok hb hlow myrp
    cases hmin : (fitting ex a (firstGap ex a).1.toNat (firstGap ex a).2.1
        (firstGap ex a).2.2).argmin (weight ex a) with
    | none =>
      rw [List.argmin_eq_none.mp hmin] at hmem
      cases hmem
    | some c =>
      rw [hmin] at hres
      obtain ⟨t, ht, -⟩ := hres
      rw [ht] at hr
      cases hr

/-- Sixteen aligned addresses do not fit on either side of the region. -/
theorem extentDoAlloc_eagain_oneRegion :
    ¬ ∃ s, Usable oneRegion ⟨0, 40, 16, 16, 0, 0, subNowait false false⟩ s :=
  @extentDoAlloc_eagain _ _ ⟨true, false⟩ oneRegion_wf
    ⟨by decide, by decide, by decide, by decide, by decide, by decide, ⟨4, by decide, by decide⟩,
      .inl rfl⟩ rfl (by decide)

/-- The address is the first aligned one of a gap that holds the request, and no such gap
leaves less free behind the request. -/
def BestFit (ex : Extent) (a : SubArgs) (s : BitVec 64) : Prop :=
  ∃ rev rest, Holds ex a rev rest ∧ s.toNat = firstStart a rev ∧
    ∀ rev' rest', Holds ex a rev' rest' →
      leftover ex a (firstStart a rev) rest ≤ leftover ex a (firstStart a rev') rest'

/-- A gap ended by a region past the subregion holds the request and leaves exactly one
address less than the best of the other gaps. -/
def OneShort (ex : Extent) (a : SubArgs) : Prop :=
  ∃ rev rest rev' rest', Holds ex a rev rest ∧ PastEnd a rest ∧ Holds ex a rev' rest' ∧
    leftover ex a (firstStart a rev') rest' = leftover ex a (firstStart a rev) rest + 1 ∧
    ∀ rev₁ rest₁, Holds ex a rev₁ rest₁ →
      leftover ex a (firstStart a rev₁) rest₁ ≤ leftover ex a (firstStart a rev) rest →
        PastEnd a rest₁

section BestFit

variable {ex : Extent} {a : SubArgs}

/-- The least of the computed overheads belongs to a best fit unless the last gap is one
address short. -/
theorem bestFit_iff (hw : ex.WF) (hok : a.Ok ex) (hn : NoWrap ex a) (hfast : a.flags.fast = false)
    {c : Cand} {s : BitVec 64} (hs : s.toNat = c.start)
    (hmin : (fitting ex a (firstGap ex a).1.toNat (firstGap ex a).2.1
      (firstGap ex a).2.2).argmin (weight ex a) = some c) :
    BestFit ex a s ↔ ¬ OneShort ex a := by
  have hsize := hok.size_toNat
  have hmem : ∀ {d : Cand}, d ∈ fitting ex a (firstGap ex a).1.toNat (firstGap ex a).2.1
      (firstGap ex a).2.2 ↔ Holds ex a d.rev d.rest ∧ d.start = firstStart a d.rev :=
    mem_fitting_iff hw hok hn
  have hweight : ∀ d, weight ex a d = d.ovh ex a := fun d => by simp [weight, hfast]
  obtain ⟨hc, hstart⟩ := hmem.mp (List.argmin_mem hmin)
  have hle : ∀ rev rest, Holds ex a rev rest → c.ovh ex a ≤ (Cand.mk (firstStart a rev) rev rest).ovh
      ex a := by
    intro rev rest h
    rw [← hweight, ← hweight]
    exact List.le_of_mem_argmin (hmem.mpr ⟨h, rfl⟩) hmin
  constructor
  · rintro ⟨rev, rest, h, hrev, hbest⟩ ⟨l, m, l', m', hl, hpast, hl', hone, hthird⟩
    -- the address names the gap that was chosen
    obtain ⟨h1, h2⟩ := h.unique hw hsize hc (hrev.symm.trans (hs.trans hstart))
    subst h1
    subst h2
    have hshort := hbest l m hl
    have hp := hthird _ _ h hshort
    obtain ⟨h1, h2⟩ := h.unique_pastEnd hw hl hp hpast
    obtain ⟨l₁, l₂, hsplit, hfirst⟩ := argmin_split hmin
    have hother : (⟨firstStart a l', l', m'⟩ : Cand) ∈ l₁ ++ c :: l₂ :=
      hsplit ▸ hmem.mpr ⟨hl', rfl⟩
    have hnp : ¬ PastEnd a m' := by
      intro hp'
      obtain ⟨h3, h4⟩ := hl.unique_pastEnd hw hl' hpast hp'
      rw [h3, h4] at hone
      omega
    have hweigh : weight ex a c = weight ex a ⟨firstStart a l', l', m'⟩ := by
      rw [hweight, hweight, Cand.ovh, Cand.ovh, if_pos hp, if_neg hnp, hone, hstart, h1, h2]
    have horder : (l₁ ++ c :: l₂).Pairwise fun c d => ∃ r ∈ c.rest.head?, r ∈ d.rev := by
      rw [← hsplit]
      exact (gaps_pairwise _).filter _
    rcases List.mem_append.mp hother with hin | hin
    · have := hfirst _ hin
      omega
    · rcases List.mem_cons.mp hin with heq | hin
      · rw [← heq] at hp
        exact hnp hp
      · have hlate := (List.pairwise_cons.mp (List.pairwise_append.mp horder).2.1).1 _ hin
        exact hc.pastEnd_last hw hl' hp hlate
  · intro hno
    refine ⟨c.rev, c.rest, hc, hs.trans hstart, fun rev rest h => ?_⟩
    by_contra hlt
    have hovh := hle rev rest h
    simp only [Cand.ovh, hstart] at hovh
    -- only a gap past the end can leave less, and then exactly one address less
    have hp : PastEnd a rest := by
      by_contra hp
      rw [if_neg hp] at hovh
      omega
    have hnp : ¬ PastEnd a c.rest := by
      intro hp'
      rw [if_pos hp, if_pos hp'] at hovh
      omega
    rw [if_pos hp, if_neg hnp] at hovh
    refine hno ⟨rev, rest, c.rev, c.rest, h, hp, hc, by omega, fun l m hl hm => ?_⟩
    by_contra hp'
    have hovh' := hle l m hl
    simp only [Cand.ovh, hstart] at hovh'
    rw [if_neg hp', if_neg hnp] at hovh'
    omega

/-- Without `EX_FAST` and without a boundary, an answer is a best fit exactly when no
alignment wraps and the last gap is not one address short; a search that wraps meets this
only where it panics or finds no room behind its wrapped start. -/
theorem extentDoAlloc_bestFit {myrp : ErFlags} {r : Extent × SubResult} (hw : ex.WF)
    (hok : a.Ok ex) (hb : a.boundary = 0#64) (hfast : a.flags.fast = false)
    (hr : r = extentDoAlloc ex a myrp ∨ r = resumeDoAlloc ex a myrp none) :
    (∀ s, r.2 = .allocated s → BestFit ex a s) ↔
      (NoWrap ex a ∧ ¬ OneShort ex a) ∨
        (¬ NoWrap ex a ∧ (a.align a.substart < ex.ex_start ∨
          ∀ c ∈ gaps a (firstGap ex a).1.toNat (firstGap ex a).2.1 (firstGap ex a).2.2,
            ¬ Fits ex a c.start c.rest)) := by
  have hstart : r = doAllocStart ex a myrp := by
    rcases hr with rfl | rfl
    · exact extentDoAlloc_checked hok myrp
    · simp [resumeDoAlloc]
  subst hstart
  have hroom : (∀ c ∈ gaps a (firstGap ex a).1.toNat (firstGap ex a).2.1 (firstGap ex a).2.2,
      ¬ Fits ex a c.start c.rest) ↔
        fitting ex a (firstGap ex a).1.toNat (firstGap ex a).2.1 (firstGap ex a).2.2 = [] := by
    simp [fitting, List.filter_eq_nil_iff]
  rw [hroom]
  by_cases hlow : a.align a.substart < ex.ex_start
  · have hres : (doAllocStart ex a myrp).2 = .panic := by rw [doAllocStart, if_pos hlow]
    have hn : ¬ NoWrap ex a := fun h => not_wraps_of_low hok hlow h.1
    refine iff_of_true (fun s hs => ?_) (.inr ⟨hn, .inl hlow⟩)
    rw [hres] at hs
    cases hs
  have hres := doAllocStart_plain hw hok hb hlow myrp
  cases hmin : (fitting ex a (firstGap ex a).1.toNat (firstGap ex a).2.1
      (firstGap ex a).2.2).argmin (weight ex a) with
  | none =>
    rw [hmin] at hres
    have hnil := List.argmin_eq_none.mp hmin
    refine iff_of_true (fun s hs => ?_) ?_
    · rw [hres] at hs
      split_ifs at hs
    · by_cases hn : NoWrap ex a
      · refine .inl ⟨hn, ?_⟩
        rintro ⟨rev, rest, -, -, h, -⟩
        have hin := (mem_fitting_iff hw hok hn (c := ⟨firstStart a rev, rev, rest⟩)).mpr ⟨h, rfl⟩
        rw [hnil] at hin
        cases hin
      · exact .inr ⟨hn, .inr hnil⟩
  | some c =>
    rw [hmin] at hres
    obtain ⟨s, hs, hcs⟩ := hres
    have hall : (∀ t, (doAllocStart ex a myrp).2 = .allocated t → BestFit ex a t) ↔
        BestFit ex a s := by
      constructor
      · intro h
        exact h s hs
      · intro h t ht
        rw [hs] at ht
        cases ht
        exact h
    have hne : fitting ex a (firstGap ex a).1.toNat (firstGap ex a).2.1
        (firstGap ex a).2.2 ≠ [] := by
      intro hnil
      rw [hnil] at hmin
      cases hmin
    rw [hall]
    by_cases hn : NoWrap ex a
    · rw [bestFit_iff hw hok hn hfast hcs hmin]
      simp [hn]
    · refine iff_of_false ?_ ?_
      · rintro ⟨rev, rest, h, -, -⟩
        exact hn (h.noWrap hw hok)
      · rintro (⟨h, -⟩ | ⟨-, h | h⟩)
        · exact hn h
        · exact hlow h
        · exact hne h

end BestFit

/-- The smaller of the two gaps is chosen. -/
theorem extentDoAlloc_bestFit_oneRegion :
    BestFit oneRegion ⟨0, 99, 5, 1, 0, 0, subNowait false false⟩ 0 := by
  have hok : SubArgs.Ok oneRegion ⟨0, 99, 5, 1, 0, 0, subNowait false false⟩ :=
    ⟨by decide, by decide, by decide, by decide, by decide, by decide, ⟨0, by decide, by decide⟩,
      .inl rfl⟩
  have hn : NoWrap oneRegion ⟨0, 99, 5, 1, 0, 0, subNowait false false⟩ := by
    refine ⟨by decide, fun r hr h1 h2 => ?_⟩
    simp only [oneRegion, List.mem_singleton] at hr
    subst hr
    exact absurd h1 (by decide)
  have hno : ¬ OneShort oneRegion ⟨0, 99, 5, 1, 0, 0, subNowait false false⟩ := by
    rintro ⟨rev, rest, -, -, h, ⟨r, hr, hpast⟩, -⟩
    have hmem : r ∈ oneRegion.ex_regions := by
      rw [← h.split]
      exact List.mem_append_right _ (List.mem_of_mem_head? hr)
    simp only [oneRegion, List.mem_singleton] at hmem
    subst hmem
    exact absurd hpast (by decide)
  exact (@extentDoAlloc_bestFit _ _ ⟨true, false⟩ _ oneRegion_wf hok rfl rfl (.inl rfl)).mpr
    (.inl ⟨hn, hno⟩) 0 (by decide)

/-- Gaps of four and of three addresses; the second ends where the last region begins. -/
def twoGaps : Extent :=
  ⟨0, 99, [⟨0, 9, ⟨true, false⟩⟩, ⟨14, 26, ⟨true, false⟩⟩, ⟨30, 99, ⟨true, false⟩⟩], false, false,
    false, false, []⟩

/-- Two addresses below thirty. -/
def twoRequest : SubArgs := ⟨0, 29, 2, 1, 0, 0, subNowait false false⟩

/-- The request goes to the gap of four addresses, although the gap of three holds it and
would have only one address left. -/
theorem extentDoAlloc_twoGaps :
    twoGaps.WF ∧ twoRequest.Ok twoGaps ∧ twoRequest.boundary = 0#64 ∧
      (extentDoAlloc twoGaps twoRequest ⟨true, false⟩).2 = .allocated 10 ∧
      ¬ BestFit twoGaps twoRequest 10 := by
  have hw : twoGaps.WF := by
    constructor
    · simp [twoGaps, sorted_cons, Region.ivl]
    · rintro c hc
      obtain ⟨r, hr, -, h2⟩ := mem_allocated.mp hc
      have hle : r.er_end.toNat ≤ (99#64).toNat := by
        simp only [twoGaps, List.mem_cons, List.not_mem_nil, or_false] at hr
        rcases hr with rfl | rfl | rfl <;> decide
      exact ⟨Nat.zero_le c, h2.trans hle⟩
  refine ⟨hw, ⟨by decide, by decide, by decide, by decide, by decide, by decide,
    ⟨0, by decide, by decide⟩, .inl rfl⟩, rfl, by decide, ?_⟩
  rintro ⟨rev, rest, h, hstart, hbest⟩
  have hfirst : Holds twoGaps twoRequest [⟨0, 9, ⟨true, false⟩⟩]
      [⟨14, 26, ⟨true, false⟩⟩, ⟨30, 99, ⟨true, false⟩⟩] := ⟨rfl, by decide⟩
  have hsecond : Holds twoGaps twoRequest [⟨14, 26, ⟨true, false⟩⟩, ⟨0, 9, ⟨true, false⟩⟩]
      [⟨30, 99, ⟨true, false⟩⟩] := ⟨rfl, by decide⟩
  obtain ⟨rfl, rfl⟩ := h.unique hw (by decide) hfirst (hstart.symm.trans (by decide))
  exact absurd (hbest _ _ hsecond) (by decide)

end OpenbsdKernel.SubrExtent
