import OpenbsdKernel.Kern.Extent.Placement
import Mathlib.Data.List.MinMax
import Mathlib.Data.List.TakeWhile

/-!
# Which gap is chosen

The search is a scan over the list of gaps. It takes the first one with the least
overhead among those that hold the request where its start is moved to, but sees no gap
from the first on in which the boundary after the one it moves to is past the last
address. The overhead of a gap is what the request leaves free behind itself, except that
the last gap is charged one address too many when a region past the subregion ends it.
-/
namespace OpenbsdKernel.SubrExtent

open Ivl

/-- A gap with the start that the search considers in it. -/
structure Cand where
  start : ℕ
  rev : List Region
  rest : List Region
  deriving DecidableEq, Repr

/-- The gaps from a position of the search on. -/
def gaps (a : SubArgs) : ℕ → List Region → List Region → List Cand
  | n, rev, [] => [⟨n, rev, []⟩]
  | n, rev, rp :: rest =>
    ⟨n, rev, rp :: rest⟩ :: gaps a (a.aligned (rp.er_end.toNat + 1)) (rp :: rev) rest

/-- What the request leaves free in a gap behind itself. -/
def leftover (ex : Extent) (a : SubArgs) (start : ℕ) (rest : List Region) : ℕ :=
  gapEnd ex rest - (start + a.size.toNat)

def PastEnd (a : SubArgs) (rest : List Region) : Prop := ∃ r ∈ rest.head?, a.subend < r.er_start

instance (ex : Extent) (a : SubArgs) (start : ℕ) (rest : List Region) :
    Decidable (Fits ex a start rest) := inferInstanceAs (Decidable (_ ∧ _))

instance (a : SubArgs) (rest : List Region) : Decidable (PastEnd a rest) := by
  unfold PastEnd
  cases rest.head? with
  | none => exact isFalse (by simp)
  | some r => exact decidable_of_iff (a.subend < r.er_start) (by simp)

def Cand.ovh (ex : Extent) (a : SubArgs) (c : Cand) : ℕ :=
  leftover ex a c.start c.rest + if PastEnd a c.rest then 1 else 0

/-- The gaps that hold the request at their first start. -/
def fitting (ex : Extent) (a : SubArgs) (n : ℕ) (rev rest : List Region) : List Cand :=
  (gaps a n rev rest).filter fun c => Fits ex a c.start c.rest

/-- The gap with the start that the request gets in it. -/
def Cand.moved (ex : Extent) (a : SubArgs) (c : Cand) : Cand := ⟨shifted ex a c.start, c.rev, c.rest⟩

/-- The candidates: the gaps that hold the request at its moved start, up to the first in
which the search gives up. -/
def places (ex : Extent) (a : SubArgs) (n : ℕ) (rev rest : List Region) : List Cand :=
  ((fitting ex a n rev rest).filter fun c => Fits ex a (shifted ex a c.start) c.rest).takeWhile
    fun c => ¬ GivesUp ex a c.start

/-- What a search minimises; the first fit takes whatever comes first. -/
def weight (ex : Extent) (a : SubArgs) (c : Cand) : ℕ := if a.flags.fast then 0 else c.ovh ex a

section Scan

variable {ex : Extent} {a : SubArgs} {newstart : BitVec 64} {rev rest : List Region} {rp : Region}

theorem argmin_cons_cons {α : Type*} (f : α → ℕ) (b c : α) (l : List α) :
    (b :: c :: l).argmin f = ((if f c < f b then c else b) :: l).argmin f := by
  unfold List.argmin
  simp only [List.foldl_cons, List.argAux]
  split_ifs <;> rfl

theorem argmin_cons_of_le {α : Type*} {f : α → ℕ} {b : α} {l : List α}
    (h : ∀ c ∈ l, f b ≤ f c) : (b :: l).argmin f = some b := by
  induction l with
  | nil => rfl
  | cons c l ih =>
    rw [argmin_cons_cons, if_neg (Nat.not_lt.mpr (h c (by simp)))]
    exact ih fun d hd => h d (List.mem_cons_of_mem c hd)

/-- Whatever stands in front of the first minimum is larger. -/
theorem argmin_split {α : Type*} {f : α → ℕ} {l : List α} {m : α} (h : l.argmin f = some m) :
    ∃ l₁ l₂, l = l₁ ++ m :: l₂ ∧ ∀ c ∈ l₁, f m < f c := by
  induction l with
  | nil => cases h
  | cons b l ih =>
    rw [List.argmin_cons] at h
    cases hl : l.argmin f with
    | none =>
      rw [hl] at h
      cases h
      exact ⟨[], l, rfl, by simp⟩
    | some c =>
      rw [hl] at h
      dsimp only at h
      split_ifs at h with hlt
      · cases h
        obtain ⟨l₁, l₂, rfl, hl₁⟩ := ih hl
        refine ⟨b :: l₁, l₂, rfl, fun d hd => ?_⟩
        rcases List.mem_cons.mp hd with rfl | hd
        · exact hlt
        · exact hl₁ d hd
      · cases h
        exact ⟨[], l, rfl, by simp⟩

theorem mem_takeWhile_iff {α : Type*} {f : α → ℕ} {p : α → Bool} {l : List α}
    (hl : l.Pairwise fun b c => f b < f c) {c : α} :
    c ∈ l.takeWhile p ↔ c ∈ l ∧ ∀ b ∈ l, f b ≤ f c → p b = true := by
  induction l with
  | nil => simp
  | cons b l ih =>
    obtain ⟨hb, hl⟩ := List.pairwise_cons.mp hl
    cases hp : p b with
    | false =>
      rw [List.takeWhile_cons_of_neg (by simp [hp])]
      refine iff_of_false (by simp) ?_
      rintro ⟨hc, hall⟩
      have hle : f b ≤ f c := by
        rcases List.mem_cons.mp hc with rfl | hc
        · exact le_rfl
        · exact (hb c hc).le
      have := hall b (by simp) hle
      simp [hp] at this
    | true =>
      rw [List.takeWhile_cons_of_pos hp, List.mem_cons, List.mem_cons, ih hl]
      constructor
      · rintro (rfl | ⟨hc, hall⟩)
        · refine ⟨.inl rfl, fun d hd hle => ?_⟩
          rcases List.mem_cons.mp hd with rfl | hd
          · exact hp
          · exact absurd hle (not_le.mpr (hb d hd))
        · refine ⟨.inr hc, fun d hd hle => ?_⟩
          rcases List.mem_cons.mp hd with rfl | hd
          · exact hp
          · exact hall d hd hle
      · rintro ⟨rfl | hc, hall⟩
        · exact .inl rfl
        · exact .inr ⟨hc, fun d hd => hall d (List.mem_cons_of_mem b hd)⟩

theorem fitting_past (hsize : 1 ≤ a.size.toNat) {n : ℕ} (hn : a.subend.toNat < n)
    (hrest : ∀ r ∈ rest, a.subend.toNat < a.aligned (r.er_end.toNat + 1)) :
    fitting ex a n rev rest = [] := by
  have hhead : ∀ l : List Region, ¬ Fits ex a n l := by
    rintro l ⟨-, h⟩
    omega
  induction rest generalizing n rev with
  | nil => simp [fitting, gaps, hhead]
  | cons rp rest ih =>
    have hnext := hrest rp (by simp)
    have htail : fitting ex a (a.aligned (rp.er_end.toNat + 1)) (rp :: rev) rest = [] :=
      ih hnext (fun r hr => hrest r (List.mem_cons_of_mem rp hr)) (by rintro l ⟨-, h⟩; omega)
    unfold fitting at htail ⊢
    rw [gaps, List.filter_cons, if_neg (by simpa using hhead _), htail]

/-- The choice that the search carries, as a candidate. -/
def Best.cand (best : Best) : Cand := ⟨best.start.toNat, best.rev, best.rest⟩

def Best.cands (best : Best) : List Cand := if best.ovh = 0#64 then [] else [best.cand]

/-- The recorded overhead is that of the candidate, and a first fit records nothing. -/
structure BestOk (ex : Extent) (a : SubArgs) (best : Best) : Prop where
  fast : a.flags.fast = true → best.ovh = 0#64
  ovh : best.ovh ≠ 0#64 → best.ovh.toNat = best.cand.ovh ex a

def Chooses (ex : Extent) (a : SubArgs) (scan : Scan) (l : List Cand) : Prop :=
  (chooseGap a scan).map (fun p => Cand.mk p.1.toNat p.2.1 p.2.2) = l.argmin (weight ex a)

theorem chooses_fail {best : Best} (hb : BestOk ex a best) :
    Chooses ex a (.fail best) best.cands := by
  unfold Chooses chooseGap Best.cands
  by_cases h0 : best.ovh = 0#64
  · simp [h0]
  · have hfast : a.flags.fast = false := by
      by_contra h
      exact h0 (hb.fast (by simpa using h))
    simp [h0, hfast, Best.cand]

theorem chooses_candidate {best : Best} {ovh : BitVec 64} {l : List Cand} {next : Best → Scan}
    (hb : BestOk ex a best) (hovh : ovh.toNat = (Cand.mk newstart.toNat rev rest).ovh ex a)
    (hnext : ∀ b, BestOk ex a b → Chooses ex a (next b) (b.cands ++ l)) :
    Chooses ex a
      (if a.flags.fast ∨ ovh = 0#64 then .found newstart rev rest
        else next (best.improve ovh newstart rev rest))
      (best.cands ++ ⟨newstart.toNat, rev, rest⟩ :: l) := by
  have hweight : a.flags.fast = false → ∀ c, weight ex a c = c.ovh ex a := by
    intro hf c
    simp [weight, hf]
  by_cases hfast : a.flags.fast = true
  · have h0 := hb.fast hfast
    have hall : ∀ c d, weight ex a c ≤ weight ex a d := fun c d => by simp [weight, hfast]
    rw [if_pos (.inl hfast), Best.cands, if_pos h0, List.nil_append, Chooses,
      argmin_cons_of_le fun c _ => hall _ c]
    rfl
  · simp only [Bool.not_eq_true] at hfast
    have hw := hweight hfast
    by_cases hzero : ovh = 0#64
    · -- an exact fit
      have hmin : ∀ c, weight ex a ⟨newstart.toNat, rev, rest⟩ ≤ weight ex a c := by
        intro c
        rw [hw, ← hovh, hzero]
        exact Nat.zero_le _
      rw [if_pos (.inr hzero), Chooses, Best.cands]
      by_cases h0 : best.ovh = 0#64
      · rw [if_pos h0, List.nil_append, argmin_cons_of_le fun c _ => hmin c]
        rfl
      · have hlt : weight ex a ⟨newstart.toNat, rev, rest⟩ < weight ex a best.cand := by
          rw [hw, hw, ← hovh, ← hb.ovh h0, hzero]
          bv_omega
        rw [if_neg h0, List.cons_append, List.nil_append, argmin_cons_cons, if_pos hlt,
          argmin_cons_of_le fun c _ => hmin c]
        rfl
    · rw [if_neg (by simp [hfast, hzero])]
      have hnew : BestOk ex a ⟨ovh, newstart, rev, rest⟩ :=
        ⟨fun h => absurd h (by simp [hfast]), fun _ => hovh⟩
      have hcands : (Best.mk ovh newstart rev rest).cands = [⟨newstart.toNat, rev, rest⟩] := by
        simp [Best.cands, hzero, Best.cand]
      by_cases h0 : best.ovh = 0#64
      · rw [Best.improve, if_pos (.inl h0)]
        have h := hnext _ hnew
        rw [hcands] at h
        rw [Best.cands, if_pos h0]
        exact h
      · have hcand : best.cands = [best.cand] := by simp [Best.cands, h0]
        rw [hcand, Chooses, List.cons_append, List.nil_append, argmin_cons_cons, hw, hw, ← hovh,
          ← hb.ovh h0]
        by_cases hlt : ovh < best.ovh
        · have hlt' : ovh.toNat < best.ovh.toNat := hlt
          rw [Best.improve, if_pos (.inr hlt), if_pos hlt']
          have h := hnext _ hnew
          rw [hcands] at h
          exact h
        · have hno : ¬ (best.ovh = 0#64 ∨ ovh < best.ovh) := by
            rintro (h | h)
            · exact h0 h
            · exact hlt h
          have hno' : ¬ ovh.toNat < best.ovh.toNat := hlt
          rw [Best.improve, if_neg hno, if_neg hno']
          have h := hnext _ hb
          rw [hcand] at h
          exact h

theorem fitting_cons (n : ℕ) : fitting ex a n rev (rp :: rest) =
    (if Fits ex a n (rp :: rest) then [⟨n, rev, rp :: rest⟩] else []) ++
      fitting ex a (a.aligned (rp.er_end.toNat + 1)) (rp :: rev) rest := by
  unfold fitting
  rw [gaps, List.filter_cons]
  by_cases h : Fits ex a n (rp :: rest) <;> simp [h]

theorem places_of_fitting {n : ℕ} (h : fitting ex a n rev rest = []) : places ex a n rev rest = [] := by
  simp [places, h]

theorem Fits.of_shifted {n : ℕ} (h : Fits ex a (shifted ex a n) rest) : Fits ex a n rest := by
  have hle := le_shifted ex a n
  exact ⟨by have := h.1; omega, by have := h.2; omega⟩

section Places

variable {n : ℕ} {l : List Cand}

/-- The candidates after a gap, in front of those that follow it. -/
def putPlace (ex : Extent) (a : SubArgs) (c : Cand) (l : List Cand) : List Cand :=
  if Fits ex a (shifted ex a c.start) c.rest then if GivesUp ex a c.start then [] else c :: l
  else l

theorem putPlace_skip {c : Cand} (h : ¬ Fits ex a (shifted ex a c.start) c.rest) :
    putPlace ex a c l = l := if_neg h

theorem putPlace_stop {c : Cand} (h : Fits ex a (shifted ex a c.start) c.rest)
    (hup : GivesUp ex a c.start) : putPlace ex a c l = [] := by
  rw [putPlace, if_pos h, if_pos hup]

theorem putPlace_take {c : Cand} (h : Fits ex a (shifted ex a c.start) c.rest)
    (hup : ¬ GivesUp ex a c.start) : putPlace ex a c l = c :: l := by
  rw [putPlace, if_pos h, if_neg hup]

theorem places_nil : places ex a n rev [] = putPlace ex a ⟨n, rev, []⟩ [] := by
  by_cases h : Fits ex a n []
  · by_cases h' : Fits ex a (shifted ex a n) []
    · by_cases hup : GivesUp ex a n <;> simp [places, fitting, gaps, putPlace, h, h', hup]
    · simp [places, fitting, gaps, putPlace, h, h']
  · have h' : ¬ Fits ex a (shifted ex a n) [] := fun h' => h h'.of_shifted
    simp [places, fitting, gaps, putPlace, h, h']

theorem places_cons : places ex a n rev (rp :: rest) = putPlace ex a ⟨n, rev, rp :: rest⟩
    (places ex a (a.aligned (rp.er_end.toNat + 1)) (rp :: rev) rest) := by
  rw [places, fitting_cons]
  by_cases h : Fits ex a n (rp :: rest)
  · by_cases h' : Fits ex a (shifted ex a n) (rp :: rest)
    · by_cases hup : GivesUp ex a n <;> simp [places, putPlace, h, h', hup]
    · simp [places, putPlace, h, h']
  · have h' : ¬ Fits ex a (shifted ex a n) (rp :: rest) := fun h' => h h'.of_shifted
    simp [places, putPlace, h, h']

/-- Without a boundary nothing is moved and the search never gives up. -/
theorem places_zero (hb : a.boundary = 0#64) : places ex a n rev rest = fitting ex a n rev rest := by
  have hup : ∀ c : Cand, ¬ GivesUp ex a c.start := by
    intro c h
    have := h.1
    rw [shifted_zero hb] at this
    exact lt_irrefl _ this
  have hfit : ∀ c ∈ fitting ex a n rev rest, Fits ex a (shifted ex a c.start) c.rest := by
    intro c hc
    rw [shifted_zero hb]
    simpa using (List.mem_filter.mp hc).2
  rw [places, List.filter_eq_self.mpr fun c hc => decide_eq_true (hfit c hc),
    List.takeWhile_eq_self_iff.mpr fun c _ => decide_eq_true (hup c)]

theorem moved_zero (hb : a.boundary = 0#64) (c : Cand) : c.moved ex a = c := by
  rw [Cand.moved, shifted_zero hb]

end Places

theorem lastGap_chooses (hok : a.Ok ex) {best : Best} {exend : BitVec 64}
    (hbest : BestOk ex a best) (hend : a.subend ≤ exend)
    (hexend : exend.toNat + 1 = gapEnd ex rest + if PastEnd a rest then 1 else 0)
    (hgap : a.subend.toNat + 1 ≤ gapEnd ex rest) :
    Chooses ex a (lastGap ex a newstart exend rev rest best)
      (best.cands ++ (putPlace ex a ⟨newstart.toNat, rev, rest⟩ []).map (Cand.moved ex a)) := by
  have hsize := hok.size_toNat
  have hfits : ∀ t : BitVec 64, leOv t (a.size - 1#64) a.subend ↔ Fits ex a t.toNat rest := by
    intro t
    rw [leOv_last hsize]
    exact ⟨fun h => ⟨h.trans hgap, h⟩, fun h => h.2⟩
  unfold lastGap
  by_cases hfit : Fits ex a newstart.toNat rest
  · rw [if_pos ((hfits newstart).mpr hfit)]
    have hcheck := checkBoundary_cases .fail hok hfit.2 le_rfl
      (fun t => decide_eq_true_iff.trans (leOv_last hsize t a.subend))
    rcases hcheck with ⟨hroom, hup, s, hs, hplace⟩ | ⟨hroom, hup, hfail⟩ | ⟨hno, hfail⟩
    · have hroom' : Fits ex a (shifted ex a newstart.toNat) rest := ⟨hroom.trans hgap, hroom⟩
      have hmoved : (Cand.mk newstart.toNat rev rest).moved ex a = ⟨s.toNat, rev, rest⟩ := by
        rw [Cand.moved, hs]
      rw [hplace, putPlace_take hroom' hup, List.map_cons, hmoved]
      have hovh : (exend - s - (a.size - 1#64)).toNat = (Cand.mk s.toNat rev rest).ovh ex a := by
        have hval : (exend - s - (a.size - 1#64)).toNat =
            exend.toNat + 1 - (s.toNat + a.size.toNat) := by
          bv_omega
        rw [hval, hexend]
        dsimp only [Cand.ovh, leftover]
        omega
      exact chooses_candidate hbest hovh fun b hb => by
        rw [List.map_nil, List.append_nil]
        exact chooses_fail hb
    · rw [hfail, putPlace_stop ⟨hroom.trans hgap, hroom⟩ hup, List.map_nil, List.append_nil]
      exact chooses_fail hbest
    · have hno' : ¬ Fits ex a (shifted ex a newstart.toNat) rest := fun h => absurd h.2 (not_le.mpr hno)
      rw [hfail, putPlace_skip hno', List.map_nil, List.append_nil]
      exact chooses_fail hbest
  · have hno : ¬ Fits ex a (shifted ex a newstart.toNat) rest := fun h => hfit h.of_shifted
    rw [if_neg fun h => hfit ((hfits newstart).mp h), putPlace_skip hno, List.map_nil,
      List.append_nil]
    exact chooses_fail hbest

/-- The search behind a region that is not past the subregion. -/
def behindRegion (ex : Extent) (a : SubArgs) (rev : List Region) (rp : Region) (rest : List Region)
    (best : Best) : Scan :=
  if a.align (rp.er_end + 1#64) < rp.er_end then .fail best
  else searchGaps ex a (a.align (rp.er_end + 1#64)) (rp :: rev) rest best

/-- What becomes of the gap in front of a region, by the answer of the boundary check. -/
def inGap (ex : Extent) (a : SubArgs) (rev : List Region) (rp : Region) (rest : List Region) (best : Best) :
    Boundary → Scan
  | .skip => behindRegion ex a rev rp rest best
  | .fail => .fail best
  | .place s =>
    if a.flags.fast ∨ rp.er_start - s - a.size = 0#64 then .found s rev (rp :: rest)
    else behindRegion ex a rev rp rest (best.improve (rp.er_start - s - a.size) s rev (rp :: rest))

theorem searchGaps_cons {rp : Region} {best : Best} (hpast : ¬a.subend < rp.er_start) :
    searchGaps ex a newstart rev (rp :: rest) best =
      if leOv newstart a.size rp.er_start then
        inGap ex a rev rp rest best (checkBoundary ex a newstart (fun s => leOv s a.size rp.er_start) .skip)
      else behindRegion ex a rev rp rest best := by
  rw [searchGaps, scanGaps, if_neg hpast]
  dsimp only
  by_cases h1 : leOv newstart a.size rp.er_start
  · rw [if_pos h1, if_pos h1]
    cases checkBoundary ex a newstart (fun s => leOv s a.size rp.er_start) .skip with
    | skip =>
      dsimp only [inGap, behindRegion, searchGaps]
      split_ifs <;> rfl
    | fail => rfl
    | place s =>
      dsimp only [inGap, behindRegion, searchGaps]
      by_cases h2 : a.flags.fast = true ∨ rp.er_start - s - a.size = 0#64
      · rw [if_pos h2, if_pos h2]
      · rw [if_neg h2, if_neg h2]
        split_ifs <;> rfl
  · rw [if_neg h1, if_neg h1]
    dsimp only [behindRegion, searchGaps]
    split_ifs <;> rfl

theorem searchGaps_chooses (hok : a.Ok ex) {best : Best} (hs : Sorted (ivls rest))
    (hbest : BestOk ex a best) :
    Chooses ex a (searchGaps ex a newstart rev rest best)
      (best.cands ++ (places ex a newstart.toNat rev rest).map (Cand.moved ex a)) := by
  have hsize := hok.size_toNat
  induction rest generalizing newstart rev best with
  | nil =>
    rw [places_nil]
    exact lastGap_chooses hok hbest hok.end_le (by simp [gapEnd, PastEnd])
      (Nat.succ_le_succ hok.end_toNat)
  | cons rp rest ih =>
    obtain ⟨hle, hlt, hrest⟩ := sorted_cons.mp hs
    have hpos := hok.alignment.toNat_pos
    rw [places_cons]
    by_cases hpast : a.subend < rp.er_start
    · -- the last gap in front of a region past the subregion
      have hpast' : a.subend.toNat < rp.er_start.toNat := hpast
      have hnone : fitting ex a (a.aligned (rp.er_end.toNat + 1)) (rp :: rev) rest = [] := by
        have hle' : rp.er_start.toNat ≤ rp.er_end.toNat := hle
        refine fitting_past hsize ((by omega : a.subend.toNat < rp.er_end.toNat + 1).trans_le
          (le_alignUp _ _ _)) fun r hr => ?_
        have h1 : rp.er_end.toNat < r.er_start.toNat := hlt r.ivl (List.mem_map_of_mem hr)
        have h2 : r.er_start.toNat ≤ r.er_end.toNat := Region.start_le_end hrest hr
        exact (by omega : a.subend.toNat < r.er_end.toNat + 1).trans_le (le_alignUp _ _ _)
      have hstep : searchGaps ex a newstart rev (rp :: rest) best =
          lastGap ex a newstart rp.er_start rev (rp :: rest) best := by
        rw [searchGaps, scanGaps, if_pos hpast]
      have hp : PastEnd a (rp :: rest) := ⟨rp, by simp, hpast⟩
      rw [hstep, places_of_fitting hnone]
      exact lastGap_chooses hok hbest (by bv_omega) (by rw [if_pos hp]; rfl) hpast'
    · have hp : ¬ PastEnd a (rp :: rest) := by
        rintro ⟨r, hr, h⟩
        cases hr
        exact hpast h
      have hle' : rp.er_start.toNat ≤ a.subend.toNat := BitVec.not_lt.mp hpast
      -- what follows the region, whichever choice is carried there
      have hnext : ∀ b, BestOk ex a b → Chooses ex a (behindRegion ex a rev rp rest b) (b.cands ++
          (places ex a (a.aligned (rp.er_end.toNat + 1)) (rp :: rev) rest).map
            (Cand.moved ex a)) := by
        intro b hb
        rw [behindRegion]
        rcases a.align_succ hok.alignment rp.er_end with ⟨-, hval, hno⟩ | ⟨hbig, -, hyes⟩
        · rw [if_neg hno, ← hval]
          exact ih hrest hb
        · have hend := a.subend.isLt
          rw [if_pos hyes, places_of_fitting (fitting_past hsize (by omega) ?_), List.map_nil,
            List.append_nil]
          · exact chooses_fail hb
          · intro r hr
            have h1 : rp.er_end.toNat < r.er_start.toNat := hlt r.ivl (List.mem_map_of_mem hr)
            have h2 : r.er_start.toNat ≤ r.er_end.toNat := Region.start_le_end hrest hr
            have h3 : a.aligned (rp.er_end.toNat + 1) ≤ a.aligned (r.er_end.toNat + 1) :=
              alignUp_mono hpos (by omega)
            omega
      have hfits : ∀ n : ℕ, n + a.size.toNat ≤ rp.er_start.toNat ↔ Fits ex a n (rp :: rest) :=
        fun n => ⟨fun h => ⟨h, by omega⟩, fun h => h.1⟩
      rw [searchGaps_cons hpast]
      by_cases hfit : Fits ex a newstart.toNat (rp :: rest)
      · rw [if_pos ((leOv_size hsize _ _).mpr ((hfits _).mpr hfit))]
        have hcheck := checkBoundary_cases .skip hok ((hfits _).mpr hfit) (by omega)
          (fun t => decide_eq_true_iff.trans (leOv_size hsize t rp.er_start))
        rcases hcheck with ⟨hroom, hup, s, hs, hplace⟩ | ⟨hroom, hup, hfail⟩ | ⟨hno, hmis⟩
        · have hmoved : (Cand.mk newstart.toNat rev (rp :: rest)).moved ex a =
              ⟨s.toNat, rev, rp :: rest⟩ := by
            rw [Cand.moved, hs]
          rw [hplace, putPlace_take ((hfits _).mp hroom) hup, List.map_cons, hmoved]
          have hovh : (rp.er_start - s - a.size).toNat =
              (Cand.mk s.toNat rev (rp :: rest)).ovh ex a := by
            rw [Cand.ovh, if_neg hp, leftover, gapEnd]
            bv_omega
          exact chooses_candidate hbest hovh hnext
        · rw [hfail, putPlace_stop ((hfits _).mp hroom) hup, List.map_nil, List.append_nil]
          exact chooses_fail hbest
        · rw [hmis, putPlace_skip fun h => absurd ((hfits _).mpr h) (not_le.mpr hno)]
          exact hnext best hbest
      · rw [if_neg fun h => hfit ((hfits _).mp ((leOv_size hsize _ _).mp h)),
          putPlace_skip fun h => hfit h.of_shifted]
        exact hnext best hbest

theorem gaps_split {n : ℕ} (hn : n = firstStart a rev) (hahead : ∀ r ∈ rest, a.substart ≤ r.er_end)
    {c : Cand} (hc : c ∈ gaps a n rev rest) :
    c.rev.reverse ++ c.rest = rev.reverse ++ rest ∧ c.start = firstStart a c.rev := by
  induction rest generalizing n rev with
  | nil =>
    cases List.mem_singleton.mp hc
    exact ⟨rfl, hn⟩
  | cons rp rest ih =>
    rcases List.mem_cons.mp hc with rfl | hc
    · exact ⟨rfl, hn⟩
    · have hle : a.substart.toNat ≤ rp.er_end.toNat + 1 :=
        (hahead rp (by simp) : a.substart.toNat ≤ rp.er_end.toNat).trans (Nat.le_succ _)
      have h := @ih (rp :: rev) _ (by rw [firstStart, max_eq_right hle])
        (fun r hr => hahead r (List.mem_cons_of_mem rp hr)) hc
      exact ⟨by simpa using h.1, h.2⟩

theorem mem_gaps {n : ℕ} (hn : n = firstStart a rev) (hahead : ∀ r ∈ rest, a.substart ≤ r.er_end)
    {l rest' : List Region} (hsplit : rest = l ++ rest') :
    ⟨firstStart a (l.reverse ++ rev), l.reverse ++ rev, rest'⟩ ∈ gaps a n rev rest := by
  induction l generalizing n rev rest with
  | nil =>
    subst hsplit
    subst hn
    cases rest <;> simp [gaps]
  | cons rp l ih =>
    subst hsplit
    have hle : a.substart.toNat ≤ rp.er_end.toNat + 1 :=
      (hahead rp (by simp) : a.substart.toNat ≤ rp.er_end.toNat).trans (Nat.le_succ _)
    have h := @ih (rp :: rev) (l ++ rest') _ (by rw [firstStart, max_eq_right hle])
      (fun r hr => hahead r (List.mem_cons_of_mem rp hr)) rfl
    rw [List.cons_append, gaps]
    apply List.mem_cons_of_mem
    simpa using h

theorem rev_subset_gaps {n : ℕ} {c : Cand} (hc : c ∈ gaps a n rev rest) : rev ⊆ c.rev := by
  induction rest generalizing n rev with
  | nil =>
    cases List.mem_singleton.mp hc
    exact List.Subset.refl rev
  | cons rp rest ih =>
    rcases List.mem_cons.mp hc with rfl | hc
    · exact List.Subset.refl rev
    · exact List.Subset.trans (List.subset_cons_self rp rev) (ih hc)

/-- Candidates stand in the order of their gaps: the region that ends one is in front of
all the following. -/
theorem gaps_pairwise (n : ℕ) :
    (gaps a n rev rest).Pairwise fun c d => ∃ r ∈ c.rest.head?, r ∈ d.rev := by
  induction rest generalizing n rev with
  | nil => simp [gaps]
  | cons rp rest ih =>
    apply List.Pairwise.cons
    · intro d hd
      exact ⟨rp, by simp, rev_subset_gaps hd (by simp)⟩
    · exact ih _

/-- A gap that holds the request. -/
structure Holds (ex : Extent) (a : SubArgs) (rev rest : List Region) : Prop where
  split : rev.reverse ++ rest = ex.ex_regions
  fits : Fits ex a (firstStart a rev) rest

theorem Holds.order {rev' rest' : List Region} (h : Holds ex a rev rest)
    (h' : Holds ex a rev' rest') :
    (rev = rev' ∧ rest = rest') ∨ (∃ r ∈ rest.head?, r ∈ rev') ∨ ∃ r ∈ rest'.head?, r ∈ rev := by
  have heq : rev.reverse ++ rest = rev'.reverse ++ rest' := h.split.trans h'.split.symm
  rcases List.append_eq_append_iff.mp heq with ⟨l, h1, h2⟩ | ⟨l, h1, h2⟩
  · cases l with
    | nil =>
      left
      simp only [List.append_nil, List.nil_append] at h1 h2
      exact ⟨(List.reverse_inj.mp h1).symm, h2⟩
    | cons r l =>
      right
      left
      refine ⟨r, by simp [h2], ?_⟩
      apply List.mem_reverse.mp
      rw [h1]
      simp
  · cases l with
    | nil =>
      left
      simp only [List.append_nil, List.nil_append] at h1 h2
      exact ⟨List.reverse_inj.mp h1, h2.symm⟩
    | cons r l =>
      right
      right
      refine ⟨r, by simp [h2], ?_⟩
      apply List.mem_reverse.mp
      rw [h1]
      simp

theorem Holds.lt_of_head {rev' rest' : List Region} (hw : ex.WF) (h : Holds ex a rev rest)
    (h' : Holds ex a rev' rest') {r : Region} (hr : r ∈ rest.head?) (hr' : r ∈ rev') :
    firstStart a rev + a.size.toNat ≤ r.er_start.toNat ∧ r.er_start.toNat < firstStart a rev' := by
  have hs : Sorted (ivls (rev'.reverse ++ rest')) := h'.split ▸ hw.sorted
  have hlt := lt_firstStart (a := a) hs hr'
  have hle : r.er_start.toNat ≤ r.er_end.toNat :=
    Region.start_le_end hs (List.mem_append_left _ (List.mem_reverse.mpr hr'))
  cases rest with
  | nil => cases hr
  | cons rp rest =>
    cases hr
    exact ⟨h.fits.1, by omega⟩

theorem Holds.unique {rev' rest' : List Region} (hw : ex.WF) (hsize : 1 ≤ a.size.toNat)
    (h : Holds ex a rev rest) (h' : Holds ex a rev' rest')
    (hstart : firstStart a rev = firstStart a rev') : rev = rev' ∧ rest = rest' := by
  rcases h.order h' with heq | ⟨r, hr, hr'⟩ | ⟨r, hr, hr'⟩
  · exact heq
  · have := h.lt_of_head hw h' hr hr'
    omega
  · have := h'.lt_of_head hw h hr hr'
    omega

theorem Holds.pastEnd_last {rev' rest' : List Region} (hw : ex.WF) (h : Holds ex a rev rest)
    (h' : Holds ex a rev' rest') (hp : PastEnd a rest) : ¬ ∃ r ∈ rest.head?, r ∈ rev' := by
  obtain ⟨q, hq, hpast⟩ := hp
  rintro ⟨r, hr, hr'⟩
  cases Option.mem_unique hq hr
  have h1 := h.lt_of_head hw h' hr hr'
  have h2 := h'.fits.2
  have h3 : a.subend.toNat < q.er_start.toNat := hpast
  omega

theorem Holds.unique_pastEnd {rev' rest' : List Region} (hw : ex.WF) (h : Holds ex a rev rest)
    (h' : Holds ex a rev' rest') (hp : PastEnd a rest) (hp' : PastEnd a rest') :
    rev = rev' ∧ rest = rest' := by
  rcases h.order h' with heq | hr | hr
  · exact heq
  · exact absurd hr (h.pastEnd_last hw h' hp)
  · exact absurd hr (h'.pastEnd_last hw h hp')

theorem Holds.noWrap (hw : ex.WF) (hok : a.Ok ex) (h : Holds ex a rev rest) : NoWrap ex a := by
  have hpos := hok.alignment.toNat_pos
  have hsize := hok.size_toNat
  have hend := a.subend.isLt
  have hfit := h.fits
  have hmod := firstStart_modEq hok.alignment rev
  have hle : a.aligned a.substart.toNat ≤ firstStart a rev :=
    alignUp_le hpos (firstStart_ge a rev) hmod
  refine ⟨by have := hfit.2; omega, fun r hr h1 h2 => ?_⟩
  have hs : Sorted (ivls (rev.reverse ++ rest)) := h.split ▸ hw.sorted
  rw [← h.split] at hr
  rcases List.mem_append.mp hr with hr | hr
  · have hlt := lt_firstStart (a := a) hs (List.mem_reverse.mp hr)
    have : a.aligned (r.er_end.toNat + 1) ≤ firstStart a rev := alignUp_le hpos hlt hmod
    have := hfit.2
    omega
  · exfalso
    cases rest with
    | nil => cases hr
    | cons rp rest =>
      have hfirst : firstStart a rev + a.size.toNat ≤ rp.er_start.toNat := hfit.1
      have hrp : rp.er_start.toNat ≤ r.er_start.toNat := by
        rcases List.mem_cons.mp hr with rfl | hr
        · exact le_rfl
        · have h3 : rp.er_end.toNat < r.er_start.toNat := lt_of_after hs hr
          have h4 : rp.er_start.toNat ≤ rp.er_end.toNat :=
            Region.start_le_end hs (r := rp) (by simp)
          omega
      omega

/-- Where nothing wraps, the candidates are exactly the gaps of the list that hold the
request. -/
theorem mem_fitting_iff (hw : ex.WF) (hok : a.Ok ex) (hn : NoWrap ex a) {c : Cand} :
    c ∈ fitting ex a (firstGap ex a).1.toNat (firstGap ex a).2.1 (firstGap ex a).2.2 ↔
      Holds ex a c.rev c.rest ∧ c.start = firstStart a c.rev := by
  have hat := firstGap_at hw hok hn
  unfold fitting
  rw [List.mem_filter, decide_eq_true_eq]
  constructor
  · rintro ⟨hc, hfits⟩
    obtain ⟨hsplit, hstart⟩ := gaps_split hat.start hat.ahead hc
    exact ⟨⟨hsplit.trans hat.split, hstart ▸ hfits⟩, hstart⟩
  · rintro ⟨hc, hstart⟩
    refine ⟨?_, hstart ▸ hc.fits⟩
    have hmem : ∀ l, (firstGap ex a).2.2 = l ++ c.rest →
        c.rev = l.reverse ++ (firstGap ex a).2.1 →
        c ∈ gaps a (firstGap ex a).1.toNat (firstGap ex a).2.1 (firstGap ex a).2.2 := by
      intro l hl hrev
      have h := mem_gaps hat.start hat.ahead hl
      rw [← hrev, ← hstart] at h
      exact h
    rcases List.append_eq_append_iff.mp (hat.split.trans hc.split.symm) with
      ⟨l, h1, h2⟩ | ⟨l, h1, h2⟩
    · apply hmem l h2
      rw [← List.reverse_reverse c.rev, h1, List.reverse_append, List.reverse_reverse]
    · cases l with
      | nil =>
        apply hmem [] (by simpa using h2.symm)
        simpa using congrArg List.reverse h1.symm
      | cons r l =>
        -- the gap would end before the aligned start of the subregion
        exfalso
        have hr : r ∈ (firstGap ex a).2.1 := by
          apply List.mem_reverse.mp
          rw [h1]
          simp
        have hlt := firstGap_before hok hn.1 r hr
        have hfit := hc.fits.1
        rw [h2] at hfit
        have hle : a.aligned a.substart.toNat ≤ firstStart a c.rev :=
          alignUp_le hok.alignment.toNat_pos (firstStart_ge a c.rev)
            (firstStart_modEq hok.alignment c.rev)
        have hend : firstStart a c.rev + a.size.toNat ≤ r.er_start.toNat := hfit
        omega

theorem Usable.holds {s : BitVec 64} (h : Usable ex a s) (hw : ex.WF) (hok : a.Ok ex) :
    ∃ rev rest, Holds ex a rev rest := by
  have hmod := (modEq_skew_iff hok.alignment s).mpr h.aligned
  have hsize := hok.size_toNat
  have hpos := hok.alignment.toNat_pos
  have hupper := h.upper
  have hlow : a.substart.toNat ≤ s.toNat := h.lower
  obtain ⟨l, hl⟩ : ∃ l, l = ex.ex_regions.takeWhile fun r => r.er_end.toNat < s.toNat := ⟨_, rfl⟩
  obtain ⟨m, hm⟩ : ∃ m, m = ex.ex_regions.dropWhile fun r => r.er_end.toNat < s.toNat := ⟨_, rfl⟩
  have hsplit : l ++ m = ex.ex_regions := by
    rw [hl, hm]
    exact List.takeWhile_append_dropWhile
  have hbefore : ∀ r ∈ l, r.er_end.toNat < s.toNat := by
    intro r hr
    rw [hl] at hr
    simpa using List.mem_takeWhile_imp hr
  have hstart : firstStart a l.reverse ≤ s.toNat := by
    cases hrev : l.reverse with
    | nil => exact alignUp_le hpos hlow hmod
    | cons last rev =>
      have hlast : last ∈ l := by
        apply List.mem_reverse.mp
        rw [hrev]
        simp
      exact alignUp_le hpos (max_le hlow (hbefore last hlast)) hmod
  have hend : s.toNat + a.size.toNat ≤ gapEnd ex m := by
    cases m with
    | nil =>
      have := hok.end_toNat
      rw [gapEnd]
      omega
    | cons r m =>
      have hr : r ∈ ex.ex_regions := by
        rw [← hsplit]
        simp
      have hno : ¬ r.er_end.toNat < s.toNat := by
        have hhead := List.head?_dropWhile_not (fun r : Region => r.er_end.toNat < s.toNat)
          ex.ex_regions
        rw [← hm] at hhead
        simpa using hhead
      rcases h.apart hw hok hr with h1 | h1
      · exact absurd h1 hno
      · exact h1
  exact ⟨l.reverse, m, ⟨by simpa using hsplit, by omega, by omega⟩⟩

theorem doAllocStart_result (hw : ex.WF) (hok : a.Ok ex) (hlow : ¬ a.align a.substart < ex.ex_start)
    (myrp : ErFlags) :
    match ((places ex a (firstGap ex a).1.toNat (firstGap ex a).2.1 (firstGap ex a).2.2).map
      (Cand.moved ex a)).argmin (weight ex a) with
    | some c => ∃ s : BitVec 64, s.toNat = c.start ∧ doAllocStart ex a myrp =
        (extentInsertAndOptimize ex s a.size c.rev c.rest myrp, .allocated s)
    | none => (doAllocStart ex a myrp).2 =
        if a.flags.waitspace then .sleep else .ret .EAGAIN := by
  have hs : Sorted (ivls (firstGap ex a).2.2) := by
    have h := hw.sorted
    rw [← firstGap_split ex a, ivls_append] at h
    exact (sorted_append.mp h).2.1
  have hchoose : Chooses ex a (searchGaps ex a (firstGap ex a).1 (firstGap ex a).2.1
      (firstGap ex a).2.2 ⟨0#64, 0#64, [], []⟩)
      ((places ex a (firstGap ex a).1.toNat (firstGap ex a).2.1 (firstGap ex a).2.2).map
        (Cand.moved ex a)) :=
    searchGaps_chooses hok hs ⟨fun _ => rfl, fun h => absurd rfl h⟩
  unfold Chooses at hchoose
  rw [← hchoose]
  unfold doAllocStart
  rw [if_neg hlow]
  dsimp only
  cases chooseGap a (searchGaps ex a (firstGap ex a).1 (firstGap ex a).2.1 (firstGap ex a).2.2
      ⟨0#64, 0#64, [], []⟩) with
  | none =>
    dsimp only [Option.map]
    split_ifs <;> rfl
  | some p =>
    obtain ⟨s, rev, rest⟩ := p
    exact ⟨s, rfl, rfl⟩

end Scan

end OpenbsdKernel.SubrExtent
