import OpenbsdKernel.Kern.Extent.Search

/-!
# Right answers

Which gap the search takes is decided by the list and the arguments: the first of the
cheapest gaps that hold the request. Its start is aligned unless it was moved to a
boundary, and that is all an answer can be wrong about as long as no alignment wraps.
-/
namespace OpenbsdKernel.SubrExtent

open Ivl

/-- A gap that holds the request at the start it is moved to. -/
structure Takes (ex : Extent) (a : SubArgs) (rev rest : List Region) : Prop where
  split : rev.reverse ++ rest = ex.ex_regions
  fits : Fits ex a (shifted ex a (firstStart a rev)) rest

/-- Such a gap, in front of the first in which the search gives up. -/
structure Reached (ex : Extent) (a : SubArgs) (rev rest : List Region) : Prop
    extends Takes ex a rev rest where
  going : ∀ rev' rest', Takes ex a rev' rest' → rev'.length ≤ rev.length →
    ¬ GivesUp ex a (firstStart a rev')

def cost (ex : Extent) (a : SubArgs) (rev rest : List Region) : ℕ :=
  weight ex a ⟨shifted ex a (firstStart a rev), rev, rest⟩

/-- The first of the gaps with the least overhead. -/
structure Preferred (ex : Extent) (a : SubArgs) (rev rest : List Region) : Prop
    extends Reached ex a rev rest where
  least : ∀ rev' rest', Reached ex a rev' rest' → cost ex a rev rest < cost ex a rev' rest' ∨
    (cost ex a rev rest = cost ex a rev' rest' ∧ rev.length ≤ rev'.length)

section Answers

variable {ex : Extent} {a : SubArgs} {rev rest : List Region}

theorem split_unique {l m l' m' : List Region} (h : l.reverse ++ m = l'.reverse ++ m')
    (hlen : l.length = l'.length) : l = l' ∧ m = m' := by
  obtain ⟨h1, h2⟩ := List.append_inj h (by simpa using hlen)
  exact ⟨List.reverse_inj.mp h1, h2⟩

theorem length_le_gaps {n : ℕ} {c : Cand} (hc : c ∈ gaps a n rev rest) :
    rev.length ≤ c.rev.length := by
  induction rest generalizing n rev with
  | nil =>
    cases List.mem_singleton.mp hc
    exact le_rfl
  | cons rp rest ih =>
    rcases List.mem_cons.mp hc with rfl | hc
    · exact le_rfl
    · exact (Nat.le_succ _).trans (ih hc)

theorem gaps_ordered (n : ℕ) :
    (gaps a n rev rest).Pairwise fun c d => c.rev.length < d.rev.length := by
  induction rest generalizing n rev with
  | nil => simp [gaps]
  | cons rp rest ih => exact .cons (fun d hd => length_le_gaps hd) (ih _)

theorem places_ordered (n : ℕ) :
    (places ex a n rev rest).Pairwise fun c d => c.rev.length < d.rev.length :=
  (((gaps_ordered n).filter _).filter _).sublist (List.takeWhile_sublist _)

/-- Where nothing wraps, the candidates are the gaps of the list that the search reaches. -/
theorem mem_places_iff (hw : ex.WF) (hok : a.Ok ex) (hn : NoWrap ex a) {c : Cand} :
    c ∈ places ex a (firstGap ex a).1.toNat (firstGap ex a).2.1 (firstGap ex a).2.2 ↔
      Reached ex a c.rev c.rest ∧ c.start = firstStart a c.rev := by
  obtain ⟨l, hl⟩ : ∃ l, l = (fitting ex a (firstGap ex a).1.toNat (firstGap ex a).2.1
      (firstGap ex a).2.2).filter fun c => Fits ex a (shifted ex a c.start) c.rest := ⟨_, rfl⟩
  have hmem : ∀ d : Cand, d ∈ l ↔ Takes ex a d.rev d.rest ∧ d.start = firstStart a d.rev := by
    intro d
    rw [hl, List.mem_filter, decide_eq_true_eq, mem_fitting_iff hw hok hn]
    constructor
    · rintro ⟨⟨h, hs⟩, hfit⟩
      exact ⟨⟨h.split, hs ▸ hfit⟩, hs⟩
    · rintro ⟨h, hs⟩
      exact ⟨⟨⟨h.split, h.fits.of_shifted⟩, hs⟩, hs.symm ▸ h.fits⟩
  have hsorted : l.Pairwise fun c d => c.rev.length < d.rev.length := by
    rw [hl]
    exact ((gaps_ordered _).filter _).filter _
  rw [places, ← hl, mem_takeWhile_iff hsorted, hmem]
  constructor
  · rintro ⟨⟨h, hs⟩, hall⟩
    refine ⟨⟨h, fun rev' rest' h' hle => ?_⟩, hs⟩
    exact of_decide_eq_true (hall ⟨firstStart a rev', rev', rest'⟩ ((hmem _).mpr ⟨h', rfl⟩) hle)
  · rintro ⟨h, hs⟩
    refine ⟨⟨h.toTakes, hs⟩, fun d hd hle => decide_eq_true ?_⟩
    obtain ⟨h', hs'⟩ := (hmem d).mp hd
    rw [hs']
    exact h.going _ _ h' hle

theorem preferred_iff (hw : ex.WF) (hok : a.Ok ex) (hn : NoWrap ex a) {m : Cand}
    (hmin : ((places ex a (firstGap ex a).1.toNat (firstGap ex a).2.1 (firstGap ex a).2.2).map
      (Cand.moved ex a)).argmin (weight ex a) = some m) :
    m.start = shifted ex a (firstStart a m.rev) ∧
      (Preferred ex a rev rest ↔ rev = m.rev ∧ rest = m.rest) := by
  obtain ⟨c, hc, rfl⟩ := List.mem_map.mp (List.argmin_mem hmin)
  obtain ⟨hreach, hstart⟩ := (mem_places_iff hw hok hn).mp hc
  have hmoved : c.moved ex a = ⟨shifted ex a (firstStart a c.rev), c.rev, c.rest⟩ := by
    rw [Cand.moved, hstart]
  have hmem : ∀ {rev' rest'}, Reached ex a rev' rest' →
      (⟨shifted ex a (firstStart a rev'), rev', rest'⟩ : Cand) ∈
        (places ex a (firstGap ex a).1.toNat (firstGap ex a).2.1 (firstGap ex a).2.2).map
          (Cand.moved ex a) := fun {rev' rest'} h =>
    List.mem_map.mpr ⟨⟨firstStart a rev', rev', rest'⟩, (mem_places_iff hw hok hn).mpr ⟨h, rfl⟩, rfl⟩
  obtain ⟨l₁, l₂, hsplit, hfirst⟩ := argmin_split hmin
  have horder : (l₁ ++ c.moved ex a :: l₂).Pairwise fun c d => c.rev.length < d.rev.length := by
    rw [← hsplit]
    exact List.pairwise_map.mpr (places_ordered _)
  have hleast : ∀ rev' rest', Reached ex a rev' rest' →
      cost ex a c.rev c.rest < cost ex a rev' rest' ∨
        (cost ex a c.rev c.rest = cost ex a rev' rest' ∧ c.rev.length ≤ rev'.length) := by
    intro rev' rest' h
    have hin := hmem h
    have hle : cost ex a c.rev c.rest ≤ cost ex a rev' rest' := by
      have := List.le_of_mem_argmin hin hmin
      rwa [hmoved] at this
    rw [hsplit] at hin
    rcases List.mem_append.mp hin with hin | hin
    · have := hfirst _ hin
      rw [hmoved] at this
      exact .inl this
    · refine hle.lt_or_eq.imp_right fun heq => ⟨heq, ?_⟩
      rcases List.mem_cons.mp hin with heq | hin
      · exact (congrArg (fun c : Cand => c.rev.length) heq).ge
      · exact ((List.pairwise_cons.mp (List.pairwise_append.mp horder).2.1).1 _ hin).le
  refine ⟨congrArg (shifted ex a) hstart, fun h => ?_, ?_⟩
  · -- two first ones of the cheapest stand at the same place
    have h1 := hleast _ _ h.toReached
    have h2 := h.least _ _ hreach
    have hlen : rev.length = c.rev.length := by omega
    exact split_unique (h.split.trans hreach.split.symm) hlen
  · rintro ⟨rfl, rfl⟩
    exact ⟨hreach, hleast⟩

/-- From a start that has wrapped, no gap is reached. -/
theorem places_eq_nil_iff {n : ℕ} : places ex a n rev rest = [] ↔
    ∀ c ∈ (gaps a n rev rest).find? fun c => Fits ex a (shifted ex a c.start) c.rest,
      GivesUp ex a c.start := by
  have hfilter : (fitting ex a n rev rest).filter (fun c => Fits ex a (shifted ex a c.start) c.rest) =
      (gaps a n rev rest).filter fun c => Fits ex a (shifted ex a c.start) c.rest := by
    rw [fitting, List.filter_filter]
    refine List.filter_congr fun c _ => ?_
    simp only [← Bool.decide_and, decide_eq_decide]
    exact ⟨fun h => h.1, fun h => ⟨h, h.of_shifted⟩⟩
  rw [places, hfilter, ← List.head?_filter]
  cases (gaps a n rev rest).filter fun c => Fits ex a (shifted ex a c.start) c.rest with
  | nil => simp
  | cons c l => by_cases hup : GivesUp ex a c.start <;> simp [hup]

/-- An answer, of a new call or of one woken up, is right exactly when no alignment wraps
and the start in the preferred gap is aligned; a search that wraps is right only where it
panics or finds no room behind its wrapped start. -/
theorem extentDoAlloc_good {myrp : ErFlags} {r : Extent × SubResult} (hw : ex.WF) (hok : a.Ok ex)
    (hr : r = extentDoAlloc ex a myrp ∨ r = resumeDoAlloc ex a myrp none) :
    (∀ s, r.2 = .allocated s → Good ex a s r.1.ex_regions) ↔
      (NoWrap ex a ∧ ∀ rev rest, Preferred ex a rev rest →
        shifted ex a (firstStart a rev) ≡ a.skew.toNat [MOD a.alignment.toNat]) ∨
      (¬ NoWrap ex a ∧ (a.align a.substart < ex.ex_start ∨
        ∀ c ∈ (gaps a (firstGap ex a).1.toNat (firstGap ex a).2.1 (firstGap ex a).2.2).find?
          fun c => Fits ex a (shifted ex a c.start) c.rest, GivesUp ex a c.start)) := by
  have hstart : r = doAllocStart ex a myrp := by
    rcases hr with rfl | rfl
    · exact extentDoAlloc_checked hok myrp
    · simp [resumeDoAlloc]
  subst hstart
  rw [← places_eq_nil_iff]
  by_cases hlow : a.align a.substart < ex.ex_start
  · have hn : ¬ NoWrap ex a := fun h => not_wraps_of_low hok hlow h.1
    refine iff_of_true (fun s hs => ?_) (.inr ⟨hn, .inl hlow⟩)
    rw [doAllocStart, if_pos hlow] at hs
    cases hs
  have hres := doAllocStart_result hw hok hlow myrp
  cases hmin : ((places ex a (firstGap ex a).1.toNat (firstGap ex a).2.1 (firstGap ex a).2.2).map
      (Cand.moved ex a)).argmin (weight ex a) with
  | none =>
    rw [hmin] at hres
    have hnil := List.map_eq_nil_iff.mp (List.argmin_eq_none.mp hmin)
    refine iff_of_true (fun s hs => ?_) ?_
    · rw [hres] at hs
      split_ifs at hs
    · by_cases hn : NoWrap ex a
      · refine .inl ⟨hn, fun rev rest h => ?_⟩
        have hin := (@mem_places_iff ex a hw hok hn ⟨firstStart a rev, rev, rest⟩).mpr
          ⟨h.toReached, rfl⟩
        rw [hnil] at hin
        cases hin
      · exact .inr ⟨hn, .inr hnil⟩
  | some m =>
    rw [hmin] at hres
    obtain ⟨s, hs, hcall⟩ := hres
    have hall : (∀ t, (doAllocStart ex a myrp).2 = .allocated t →
        Good ex a t (doAllocStart ex a myrp).1.ex_regions) ↔
          Good ex a s (extentInsertAndOptimize ex s a.size m.rev m.rest myrp).ex_regions := by
      rw [hcall]
      exact ⟨fun h => h s rfl, fun h t ht => by cases ht; exact h⟩
    rw [hall]
    by_cases hn : NoWrap ex a
    · obtain ⟨hm, -⟩ := @preferred_iff ex a [] [] hw hok hn m hmin
      have hpref := (preferred_iff hw hok hn hmin).2.mpr ⟨rfl, rfl⟩
      have hplaced := placed_of_fits hw hok hpref.split (hs.trans hm) hpref.fits
      rw [hplaced.good_iff hw hok myrp, hs, hm]
      simp only [hn, not_true_eq_false, true_and, false_and, or_false]
      constructor
      · intro hal rev rest h
        obtain ⟨rfl, -⟩ := (preferred_iff hw hok hn hmin).2.mp h
        exact hal
      · exact fun h => h _ _ hpref
    · refine iff_of_false (fun h => hn (h.usable.noWrap hw hok)) ?_
      rintro (⟨h, -⟩ | ⟨-, h | h⟩)
      · exact hn h
      · exact hlow h
      · rw [h] at hmin
        cases hmin

end Answers

def oddExtent : Extent := ⟨1, 99, [⟨20, 25, ⟨true, false⟩⟩], false, false, false, false, []⟩

/-- Boundaries are counted from address 1, so none of them is aligned. -/
def oddRequest : SubArgs := ⟨1, 99, 8, 4, 0, 16, subNowait true false⟩

/-- In the gap behind the region the request would be moved to 33; the first fit does not
come there. -/
theorem extentDoAlloc_good_firstGap :
    Good oddExtent oddRequest 4 [⟨4, 11, ⟨true, false⟩⟩, ⟨20, 25, ⟨true, false⟩⟩] := by
  have hw : oddExtent.WF := by
    refine ⟨by simp [oddExtent, sorted_cons, Region.ivl], ?_⟩
    rintro c hc
    obtain ⟨r, hr, h1, h2⟩ := mem_allocated.mp hc
    simp only [oddExtent, List.mem_singleton] at hr
    subst hr
    exact ⟨le_trans (by decide) h1, le_trans h2 (by decide)⟩
  have hok : oddRequest.Ok oddExtent :=
    ⟨by decide, by decide, by decide, by decide, by decide, by decide, ⟨2, by decide, by decide⟩,
      .inr ⟨⟨4, by decide, by decide⟩, by decide⟩⟩
  have hn : NoWrap oddExtent oddRequest := by
    refine ⟨by decide, fun r hr h1 h2 => ?_⟩
    simp only [oddExtent, List.mem_singleton] at hr
    subst hr
    exact absurd h1 (by decide)
  have hfirst : Reached oddExtent oddRequest [] oddExtent.ex_regions := by
    refine ⟨⟨rfl, by decide⟩, fun rev' rest' _ hle => ?_⟩
    rw [List.length_eq_zero_iff.mp (Nat.le_zero.mp hle)]
    decide
  have hrun : extentDoAlloc oddExtent oddRequest ⟨true, false⟩ =
      ({ oddExtent with
          ex_regions := [⟨4, 11, ⟨true, false⟩⟩, ⟨20, 25, ⟨true, false⟩⟩] }, .allocated 4) := by
    decide
  have h := (extentDoAlloc_good hw hok (.inl rfl)).mpr (.inl ⟨hn, fun rev rest h => ?_⟩) 4
    (by rw [hrun])
  · rw [hrun] at h
    exact h
  · have hlen : rev.length ≤ 0 := (h.least _ _ hfirst).elim (fun hlt => absurd hlt (by simp [cost,
      weight, oddRequest, subNowait])) fun h => h.2
    rw [List.length_eq_zero_iff.mp (Nat.le_zero.mp hlen)]
    decide

/-- The whole address space with its upper part allocated. -/
def topAllocated : Extent := ⟨0, -1, [⟨10, -1, ⟨true, false⟩⟩], false, false, false, false, []⟩

/-- A request for one of the last addresses, aligned to sixteen. -/
def topRequest : SubArgs := ⟨-7, -1, 1, 16, 0, 0, subNowait false false⟩

/-- A request that begins inside the last region. -/
def insideRequest : SubArgs := ⟨20, -1, 16, 16, 0, 0, subNowait false false⟩

/-- A request whose skew is no multiple of its boundary. -/
def skewRequest : SubArgs := ⟨0, 99, 8, 16, 4, 8, subNowait true false⟩

/-- Alignment wraps at `substart` and address 0 is returned; it wraps past the region that
holds `substart`, and the region is cut off; a boundary moves the start to an address
that is not aligned. -/
theorem extentDoAlloc_wrong :
    (wholeSpace.WF ∧ topRequest.Ok wholeSpace ∧
      (extentDoAlloc wholeSpace topRequest ⟨true, false⟩).2 = .allocated 0 ∧
      ∀ regions, ¬ Good wholeSpace topRequest 0 regions) ∧
    (topAllocated.WF ∧ insideRequest.Ok topAllocated ∧
      extentDoAlloc topAllocated insideRequest ⟨true, false⟩ =
        ({ topAllocated with ex_regions := [⟨10, 15, ⟨true, false⟩⟩] }, .allocated 0) ∧
      ∀ regions, ¬ Good topAllocated insideRequest 0 regions) ∧
    (noDescriptors.WF ∧ skewRequest.Ok noDescriptors ∧
      (extentDoAlloc noDescriptors skewRequest ⟨true, false⟩).2 = .allocated 8 ∧
      ∀ regions, ¬ Good noDescriptors skewRequest 8 regions) := by
  refine ⟨⟨?_, ?_, by decide, ?_⟩, ⟨?_, ?_, by decide, ?_⟩, ⟨?_, ?_, by decide, ?_⟩⟩
  · exact ⟨by simp [wholeSpace], by simp [Extent.allocated, wholeSpace]⟩
  · exact ⟨by decide, by decide, by decide, by decide, by decide, by decide,
      ⟨4, by decide, by decide⟩, .inl rfl⟩
  · intro regions h
    exact absurd h.lower (by decide)
  · refine ⟨by simp [topAllocated, sorted_cons, Region.ivl], ?_⟩
    rintro c hc
    obtain ⟨r, hr, h1, h2⟩ := mem_allocated.mp hc
    simp only [topAllocated, List.mem_singleton] at hr
    subst hr
    exact ⟨Nat.zero_le c, h2⟩
  · exact ⟨by decide, by decide, by decide, by decide, by decide, by decide,
      ⟨4, by decide, by decide⟩, .inl rfl⟩
  · intro regions h
    exact absurd h.lower (by decide)
  · exact ⟨by simp [noDescriptors], by simp [Extent.allocated, noDescriptors]⟩
  · exact ⟨by decide, by decide, by decide, by decide, by decide, by decide,
      ⟨4, by decide, by decide⟩, .inr ⟨⟨3, by decide, by decide⟩, by decide⟩⟩
  · intro regions h
    exact absurd h.aligned (by decide)

end OpenbsdKernel.SubrExtent
