import OpenbsdKernel.Netinet.IpReass.Datagram

/-!
# Fragments in any order

The queue of the fragments that have arrived, and what each further fragment makes of it: none
is cut, a repeated one is dropped, and the queue is complete when no fragment is missing.
-/
namespace OpenbsdKernel.IpInput

open Reassembly

/-- The entries are those of the fragments `A`. -/
structure Gathered (frags A fragq : List Ipqent) : Prop where
  ordered : ents.Ordered fragq
  like : ∀ q ∈ fragq, ∃ f ∈ A, Like frags q f
  all : ∀ f ∈ A, ∃ q ∈ fragq, Like frags q f

section Queue

variable {D : Mbuf} {frags A fragq : List Ipqent} {e first f : Ipqent}

/-- The first entry with the congestion mark of the new fragment. -/
def markedBy (e first : Ipqent) : Ipqent :=
  if ecn e.ipqe_ip = 3#8 then
    { first with ipqe_ip := { first.ipqe_ip with ip_tos := first.ipqe_ip.ip_tos ||| 3#8 } }
  else first

theorem or_three_of_and_three {t : BitVec 8} (h : t &&& 3#8 = 3#8) : t ||| 3#8 = t := by
  revert t
  decide

theorem ecnCheck_eq (h : ecn e.ipqe_ip = 0#8 ↔ ecn first.ipqe_ip = 0#8) :
    ecnCheck e first = some (markedBy e first) := by
  by_cases he : ecn e.ipqe_ip = 3#8
  · have hne : ecn first.ipqe_ip ≠ 0#8 := by
      rw [ne_eq, ← h, he]
      decide
    by_cases hfirst : ecn first.ipqe_ip = 3#8
    · have htos := or_three_of_and_three hfirst
      simp [ecnCheck, markedBy, he, hfirst, htos]
    · simp [ecnCheck, markedBy, he, hfirst, hne]
  · simp only [ecnCheck, markedBy, he, false_and, if_false, ne_eq]
    rw [if_neg fun hc => hc.2 (h.1 hc.1)]

theorem Like.markedBy (h : Like frags first f) (he : e ∈ frags)
    (hecn : ecn e.ipqe_ip = 0#8 ↔ ecn f.ipqe_ip = 0#8) :
    Like frags (IpInput.markedBy e first) f := by
  unfold IpInput.markedBy
  split
  · next hce =>
    refine ⟨h.m, h.mff, ?_, .inr ⟨?_, ?_, e, he, hce⟩⟩
    · rw [h.ip]
    · obtain htos | ⟨htos, -⟩ := h.tos
      · rw [htos]
      · simp [htos, BitVec.or_assoc]
    · rw [ne_eq, ← hecn, hce]
      decide
  · exact h

/-- The entry that ends behind the beginning of a fragment and is not behind it is its own. -/
theorem IsCut.eq_of_covers (h : IsCut D frags) (hf : f ∈ frags) (he : e ∈ frags)
    (hoff : f.off ≤ e.off) (hfin : e.off < f.fin) : f = e := by
  obtain heq | hle | hle := h.apart hf he
  · exact heq
  · omega
  · -- `e` has no data, so it is the last one and nothing ends behind it
    exfalso
    obtain ⟨last, hlast, -⟩ := h.last
    have hlen : e.len = 0 := by
      rw [Ipqent.fin] at hle
      omega
    have hel := h.eq_last hlast he (.inr hlen)
    have hD := h.last_fin hlast
    have hf' := h.fin_le hf
    rw [← hel, Ipqent.fin] at hD
    omega

theorem IsCut.trimFront_eq (h : IsCut D frags) (hA : A ⊆ frags) (hg : Gathered frags A fragq)
    (he : e ∈ frags) :
    ents.trimFront e (ents.before e fragq).getLast? = none ∧ e ∈ A ∨
      ents.trimFront e (ents.before e fragq).getLast? = some e ∧
        ∀ p ∈ ents.before e fragq, p.fin ≤ e.off := by
  have hown : ∀ p ∈ (ents.before e fragq).getLast?, e.off < p.fin → e ∈ A ∧ p.fin = e.fin := by
    intro p hp hlt
    have hmem := List.mem_of_getLast? hp
    obtain ⟨f, hf, hlike⟩ := hg.like p (Pieces.mem_of_mem_before hmem)
    have hoff : p.off ≤ e.off := Pieces.off_of_mem_before hmem
    rw [hlike.off_eq] at hoff
    rw [hlike.fin_eq] at hlt ⊢
    obtain rfl := h.eq_of_covers (hA hf) he hoff hlt
    exact ⟨hf, rfl⟩
  cases hlast : (ents.before e fragq).getLast? with
  | none =>
    rw [List.getLast?_eq_none_iff] at hlast
    exact .inr ⟨rfl, by simp [hlast]⟩
  | some p =>
    by_cases hlt : e.off < p.fin
    · obtain ⟨hmem, hfin⟩ := hown p hlast hlt
      refine .inl ⟨?_, hmem⟩
      have hlen : e.len ≤ p.fin - e.off := by
        rw [hfin, Ipqent.fin]
        omega
      simp [Pieces.trimFront, not_le.2 hlt, hlen]
    · refine .inr ⟨by simp [Pieces.trimFront, not_lt.1 hlt], ?_⟩
      intro q hq
      have hle : q.fin ≤ p.fin := hg.ordered.before.fin_le_last hlast hq
      omega

theorem IsCut.le_of_after (h : IsCut D frags) (hA : A ⊆ frags) (hg : Gathered frags A fragq)
    (he : e ∈ frags) {q : Ipqent} (hq : q ∈ ents.after e fragq) : e.fin ≤ q.off := by
  obtain ⟨f, hf, hlike⟩ := hg.like q (Pieces.mem_of_mem_after hq)
  have hlt : e.off < q.off := hg.ordered.off_of_mem_after hq
  rw [hlike.off_eq] at hlt ⊢
  obtain rfl | hle | hle := h.apart (hA hf) he
  · omega
  · rw [Ipqent.fin] at hle
    omega
  · exact hle

theorem IsCut.trimAfter_eq (h : IsCut D frags) (hA : A ⊆ frags) (hg : Gathered frags A fragq)
    (he : e ∈ frags) : ents.trimAfter e (ents.after e fragq) = ents.after e fragq := by
  have hle := fun q hq => h.le_of_after (q := q) hA hg he hq
  cases hafter : ents.after e fragq with
  | nil => rfl
  | cons q rest =>
    rw [hafter] at hle
    exact Pieces.trimAfter_stop (hle q (by simp))

theorem Gathered.place (hg : Gathered frags A fragq)
    (hbefore : ∀ p ∈ ents.before e fragq, p.fin ≤ e.off)
    (hafter : ∀ q ∈ ents.after e fragq, e.fin ≤ q.off) :
    Gathered frags (A ++ [e]) (ents.before e fragq ++ e :: ents.after e fragq) := by
  have hmem : ∀ q, q ∈ ents.before e fragq ++ e :: ents.after e fragq ↔ q ∈ fragq ∨ q = e := by
    intro q
    have hsplit : q ∈ fragq ↔ q ∈ ents.before e fragq ∨ q ∈ ents.after e fragq := by
      rw [← List.mem_append, Pieces.before_append_after]
    simp only [List.mem_append, List.mem_cons, hsplit]
    tauto
  refine ⟨?_, ?_, ?_⟩
  · refine List.pairwise_append.2 ⟨hg.ordered.before,
      List.pairwise_cons.2 ⟨hafter, hg.ordered.after⟩, ?_⟩
    intro p hp q hq
    obtain rfl | hq := List.mem_cons.1 hq
    · exact hbefore p hp
    · exact hg.ordered.before_after hp hq
  · intro q hq
    obtain hq | rfl := (hmem q).1 hq
    · obtain ⟨f, hf, hlike⟩ := hg.like q hq
      exact ⟨f, by simp [hf], hlike⟩
    · exact ⟨q, by simp, Like.refl frags q⟩
  · intro f hf
    obtain hf | hf := List.mem_append.1 hf
    · obtain ⟨q, hq, hlike⟩ := hg.all f hf
      exact ⟨q, (hmem q).2 (.inl hq), hlike⟩
    · rw [List.mem_singleton.1 hf]
      exact ⟨e, (hmem e).2 (.inr rfl), Like.refl frags e⟩

theorem IsCut.all_of_chain (h : IsCut D frags) (hA : A ⊆ frags) (hg : Gathered frags A fragq)
    {next : ℕ} {p : Ipqent} (hchain : ents.Chain 0 fragq next) (hp : fragq.getLast? = some p)
    (hmff : p.ipqe_mff = false) : ∀ f ∈ frags, f ∈ A := by
  obtain ⟨last, hlast, -⟩ := h.last
  obtain ⟨l, hl, hlike⟩ := hg.like p (List.mem_of_getLast? hp)
  have hll : l = last := h.eq_last hlast (hA hl) (.inl (hlike.mff ▸ hmff))
  have hnext : p.fin ≤ next := ((chain_ordered hchain).2 p (List.mem_of_getLast? hp)).2
  have hD : p.fin = D.length := by
    rw [hlike.fin_eq, hll, h.last_fin hlast]
  intro f hf
  by_cases hlen : f.len = 0
  · rw [h.eq_last hlast hf (.inr hlen), ← hll]
    exact hl
  · have hfin := h.fin_le hf
    rw [Ipqent.fin] at hfin
    obtain ⟨q, hq, hhas⟩ := hchain.covers (x := f.off) ⟨Nat.zero_le _, by omega⟩
    obtain ⟨g, hg', hlike'⟩ := hg.like q hq
    have hoff : q.off ≤ f.off := hhas.1
    have hlt : f.off < q.fin := hhas.2
    rw [hlike'.off_eq] at hoff
    rw [hlike'.fin_eq] at hlt
    rw [← h.eq_of_covers (hA hg') hf hoff hlt]
    exact hg'

theorem IsCut.chain_of_all (h : IsCut D frags) (hA : A ⊆ frags) (hg : Gathered frags A fragq)
    (hall : ∀ f ∈ frags, f ∈ A) :
    ents.Chain 0 fragq D.length ∧ ∃ p, fragq.getLast? = some p ∧ p.ipqe_mff = false := by
  obtain ⟨last, hlast, hmff⟩ := h.last
  have hin : ∀ q ∈ fragq, 0 ≤ ents.off q ∧ ents.fin q ≤ D.length := by
    intro q hq
    obtain ⟨f, hf, hlike⟩ := hg.like q hq
    rw [ents_fin, hlike.fin_eq]
    exact ⟨Nat.zero_le _, h.fin_le (hA hf)⟩
  constructor
  · refine hg.ordered.chain (Nat.zero_le _) hin ?_
    intro x h0 hx
    obtain ⟨f, hf, hhas⟩ := h.chain.covers ⟨h0, hx⟩
    obtain ⟨q, hq, hlike⟩ := hg.all f (hall f hf)
    refine ⟨q, hq, ?_⟩
    rw [Pieces.Has, ents_off, ents_fin, hlike.off_eq, hlike.fin_eq]
    exact hhas
  · obtain ⟨q, hq, hlike⟩ := hg.all last (hall last (List.mem_of_getLast? hlast))
    obtain ⟨p, hp⟩ := Option.isSome_iff_exists.1 (List.getLast?_isSome.2 (List.ne_nil_of_mem hq))
    refine ⟨p, hp, ?_⟩
    obtain ⟨f, hf, hlike'⟩ := hg.like p (List.mem_of_getLast? hp)
    obtain ⟨front, rfl⟩ := List.getLast?_eq_some_iff.1 hp
    have hqD : q.fin = D.length := hlike.fin_eq.trans (h.last_fin hlast)
    obtain hq | hq := List.mem_append.1 hq
    · -- the last fragment lies before the last entry, which then has no data
      have hle : q.fin ≤ p.off := (List.pairwise_append.1 hg.ordered).2.2 q hq p (by simp)
      have hpD := (hin p (by simp)).2
      have hlen : f.len = 0 := by
        rw [← hlike'.len_eq]
        simp only [ents_fin, Ipqent.fin] at hpD hle hqD
        omega
      rw [hlike'.mff, h.eq_last hlast (hA hf) (.inr hlen), hmff]
    · rw [← List.mem_singleton.1 hq, hlike.mff, hmff]

end Queue

/-- The service field of the datagram: that of its first fragment, with a congestion mark that
arrived behind it. -/
def tosAfter (f : Ipqent) (arrived : List Ipqent) : BitVec 8 :=
  if ∃ g ∈ (arrived.dropWhile (· ≠ f)).tail, ecn g.ipqe_ip = 3#8 then f.ipqe_ip.ip_tos ||| 3#8
  else f.ipqe_ip.ip_tos

/-- The queue while fragments are missing. -/
structure Waiting (frags A : List Ipqent) (fp : Ipq) : Prop where
  key : ∀ f ∈ frags, fp.matches f.ipqe_ip = true
  gathered : Gathered frags A fp.ipq_fragq
  tos : ∀ q ∈ fp.ipq_fragq.head?, q.off = 0 → ∀ f ∈ frags, f.off = 0 →
    q.ipqe_ip.ip_tos = tosAfter f A

section Header

variable {D : Mbuf} {frags A fragq : List Ipqent} {e first f : Ipqent} {fp : Ipq}

theorem dropWhile_concat_of_mem (h : f ∈ A) (e : Ipqent) :
    ((A ++ [e]).dropWhile (· ≠ f)).tail = (A.dropWhile (· ≠ f)).tail ++ [e] := by
  induction A with
  | nil => simp at h
  | cons a A ih =>
    by_cases ha : a = f
    · simp [ha]
    · have hf : f ∈ A := (List.mem_cons.1 h).resolve_left (Ne.symm ha)
      simpa [ha] using ih hf

theorem dropWhile_concat_self (h : f ∉ A) : ((A ++ [f]).dropWhile (· ≠ f)).tail = [] := by
  induction A with
  | nil => simp
  | cons a A ih =>
    have ha : a ≠ f := fun heq => h (by simp [heq])
    simpa [ha] using ih fun hf => h (by simp [hf])

theorem tosAfter_self (h : f ∉ A) : tosAfter f (A ++ [f]) = f.ipqe_ip.ip_tos := by
  rw [tosAfter, dropWhile_concat_self h]
  simp

theorem tosAfter_concat (h : f ∈ A) (htos : first.ipqe_ip.ip_tos = tosAfter f A) :
    (markedBy e first).ipqe_ip.ip_tos = tosAfter f (A ++ [e]) := by
  rw [tosAfter, dropWhile_concat_of_mem h]
  by_cases hce : ecn e.ipqe_ip = 3#8
  · rw [if_pos ⟨e, by simp, hce⟩, markedBy, if_pos hce]
    simp only [htos, tosAfter]
    split
    · rw [BitVec.or_assoc, BitVec.or_self]
    · rfl
  · rw [markedBy, if_neg hce, htos, tosAfter]
    simp [or_and_right, exists_or, hce]

theorem markedBy_off (e first : Ipqent) : (markedBy e first).off = first.off := by
  unfold markedBy
  split
  · rfl
  · rfl

theorem Waiting.marked (h : IsCut D frags) (hA : A ⊆ frags) (hw : Waiting frags A fp)
    (hfp : fp.ipq_fragq = first :: fragq) (he : e ∈ frags) :
    ecnCheck e first = some (markedBy e first) ∧
    Gathered frags A (markedBy e first :: fragq) ∧
    (first.off = 0 → ∀ f ∈ frags, f.off = 0 →
      f ∈ A ∧ (markedBy e first).ipqe_ip.ip_tos = tosAfter f (A ++ [e])) := by
  have hg := hw.gathered
  rw [hfp] at hg
  obtain ⟨f, hf, hlike⟩ := hg.like first (by simp)
  have hecn : ecn e.ipqe_ip = 0#8 ↔ ecn f.ipqe_ip = 0#8 := h.ecn e he f (hA hf)
  have hlike' := hlike.markedBy he hecn
  refine ⟨ecnCheck_eq (hecn.trans hlike.ecn_eq.symm), ⟨?_, ?_, ?_⟩, ?_⟩
  · obtain ⟨hfirst, hrest⟩ := List.pairwise_cons.1 hg.ordered
    refine List.pairwise_cons.2 ⟨?_, hrest⟩
    intro q hq
    have hle : first.fin ≤ q.off := hfirst q hq
    rw [hlike.fin_eq] at hle
    rw [ents_fin, hlike'.fin_eq]
    exact hle
  · intro q hq
    obtain rfl | hq := List.mem_cons.1 hq
    · exact ⟨f, hf, hlike'⟩
    · exact hg.like q (by simp [hq])
  · intro g hgA
    obtain ⟨q, hq, hq'⟩ := hg.all g hgA
    obtain rfl | hq := List.mem_cons.1 hq
    · exact ⟨markedBy e q, by simp, hq'.markedBy he (h.ecn e he g (hA hgA))⟩
    · exact ⟨q, by simp [hq], hq'⟩
  · intro hoff g hgf hg0
    rw [hlike.off_eq] at hoff
    have hfg := h.eq_of_off_zero (hA hf) hgf hoff hg0
    rw [← hfg]
    refine ⟨hf, tosAfter_concat hf ?_⟩
    rw [← hlike.off_eq] at hoff
    exact hw.tos first (by simp [hfp]) hoff f (hA hf) (hlike.off_eq ▸ hoff)

end Header

section Fragment

variable {D : Mbuf} {frags A fragq : List Ipqent} {e first f : Ipqent} {fp : Ipq}

theorem Gathered.again (hg : Gathered frags A fragq) (he : e ∈ A) :
    Gathered frags (A ++ [e]) fragq := by
  refine ⟨hg.ordered, ?_, ?_⟩
  · intro q hq
    obtain ⟨f, hf, hlike⟩ := hg.like q hq
    exact ⟨f, by simp [hf], hlike⟩
  · intro f hf
    obtain hf | hf := List.mem_append.1 hf
    · exact hg.all f hf
    · rw [List.mem_singleton.1 hf]
      exact hg.all e he

theorem head?_place (h : first.off ≤ e.off) :
    (ents.before e (first :: fragq) ++ e :: ents.after e (first :: fragq)).head? = some first := by
  rw [Pieces.before_cons_of_le h]
  rfl

theorem head?_place_of_lt (h : e.off < first.off) :
    (ents.before e (first :: fragq) ++ e :: ents.after e (first :: fragq)).head? = some e := by
  rw [Pieces.before_cons_of_lt h]
  rfl

/-- What a fragment makes of the queue: it is put in its place, or it was there before. -/
theorem Waiting.ipReassQueue (h : IsCut D frags) (hA : A ⊆ frags) (hw : Waiting frags A fp)
    (hne : fp.ipq_fragq ≠ []) (he : e ∈ frags) (n : ℤ) :
    ∃ fp' n', Waiting frags (A ++ [e]) fp' ∧ fp'.ipq_fragq ≠ [] ∧
      (IpInput.ipReassQueue e fp n = ipComplete fp' n' ∨
        IpInput.ipReassQueue e fp n = some ⟨some fp', none, n'⟩ ∧ e ∈ A) := by
  obtain ⟨first, fragq, hfp⟩ := List.exists_cons_of_ne_nil hne
  obtain ⟨hcheck, hg, htos⟩ := hw.marked h hA hfp he
  have hoff := markedBy_off e first
  unfold IpInput.ipReassQueue
  simp only [hfp, hcheck]
  generalize markedBy e first = first' at *
  obtain ⟨hnone, hmem⟩ | ⟨hsome, hbefore⟩ := h.trimFront_eq hA hg he
  · refine ⟨{ fp with ipq_fragq := first' :: fragq }, n - 1, ⟨hw.key, hg.again hmem, ?_⟩, by simp,
      .inr ⟨?_, hmem⟩⟩
    · intro q hq h0 f hf hf0
      obtain rfl : first' = q := by simpa using hq
      exact (htos (hoff ▸ h0) f hf hf0).2
    · have hdrop : dropProvided e ((first' :: fragq).takeWhile fun q => q.off ≤ e.off).getLast? =
          none := (dropProvided_eq e _).trans hnone
      rw [hdrop]
  · have hplace := hg.place hbefore fun q hq => h.le_of_after hA hg he hq
    let placed := ents.before e (first' :: fragq) ++ e :: ents.after e (first' :: fragq)
    refine ⟨{ fp with ipq_fragq := placed },
      (trimSucceeding e (ents.after e (first' :: fragq)) n).2, ⟨hw.key, hplace, ?_⟩,
      by simp [placed], .inl ?_⟩
    · intro q hq h0 f hf hf0
      simp only [placed] at hq
      by_cases hle : first'.off ≤ e.off
      · rw [head?_place hle] at hq
        obtain rfl : first' = q := by simpa using hq
        exact (htos (hoff ▸ h0) f hf hf0).2
      · -- the new fragment is the first one, and it has not arrived before
        rw [head?_place_of_lt (not_le.1 hle)] at hq
        obtain rfl : e = q := by simpa using hq
        obtain rfl := h.eq_of_off_zero hf he hf0 h0
        refine (tosAfter_self fun hmem => hle ?_).symm
        obtain ⟨q, hq, hlike⟩ := hg.all f hmem
        have hq0 : q.off = 0 := hlike.off_eq.trans hf0
        obtain rfl | hq := List.mem_cons.1 hq
        · omega
        · have : first'.off ≤ q.off := hg.ordered.off_le hq
          omega
    · have hdrop : dropProvided e ((first' :: fragq).takeWhile fun q => q.off ≤ e.off).getLast? =
          some e := (dropProvided_eq e _).trans hsome
      have hafter : (trimSucceeding e ((first' :: fragq).dropWhile fun q => q.off ≤ e.off) n).1 =
          ents.after e (first' :: fragq) := (trimSucceeding_eq e _ n).trans (h.trimAfter_eq hA hg he)
      simp only [hdrop, hafter]
      rfl

theorem Waiting.ipComplete_missing (h : IsCut D frags) (hA : A ⊆ frags) (hw : Waiting frags A fp)
    (hne : fp.ipq_fragq ≠ []) (hf : f ∈ frags) (hmiss : f ∉ A) (n : ℤ) :
    ipComplete fp n = some ⟨some fp, none, n⟩ := by
  obtain ⟨q, hq⟩ := Option.isSome_iff_exists.1 (List.isSome_head?.2 hne)
  obtain ⟨p, hp⟩ := Option.isSome_iff_exists.1 (List.getLast?_isSome.2 hne)
  unfold ipComplete
  cases hnext : nextOff 0 fp.ipq_fragq with
  | none => rfl
  | some next =>
    have hchain := nextOff_eq_some.1 hnext
    cases hmff : p.ipqe_mff with
    | true => simp [hq, hp, hmff]
    | false => exact absurd (h.all_of_chain hA hw.gathered hchain hp hmff f hf) hmiss

theorem Waiting.ipComplete_all (h : IsCut D frags) (hA : A ⊆ frags) (hw : Waiting frags A fp)
    (hall : ∀ f ∈ frags, f ∈ A) (n : ℤ) :
    ∃ f ∈ frags, f.off = 0 ∧ ipComplete fp n = some ⟨none, some ({ f.ipqe_ip with
      ip_tos := tosAfter f A, ip_len := D.length }, D), n - fp.ipq_fragq.length⟩ := by
  obtain ⟨hchain, p, hp, hmff⟩ := h.chain_of_all hA hw.gathered hall
  have hdata : ∀ q ∈ fp.ipq_fragq, q.ipqe_m = (D.drop q.off).take q.len := by
    intro q hq
    obtain ⟨f, hf, hlike⟩ := hw.gathered.like q hq
    rw [hlike.m, hlike.off_eq, hlike.len_eq]
    exact h.data f (hA hf)
  have hflat : fp.ipq_fragq.flatMap Ipqent.ipqe_m = D := by
    rw [hchain.flatMap hdata]
    simp
  obtain ⟨q, rest, hfragq⟩ := List.exists_cons_of_ne_nil (List.ne_nil_of_mem (List.mem_of_getLast? hp))
  obtain ⟨f, hf, hlike⟩ := hw.gathered.like q (by simp [hfragq])
  have hq0 : q.off = 0 := by
    rw [hfragq] at hchain
    exact hchain.1
  have hf0 : f.off = 0 := hlike.off_eq ▸ hq0
  refine ⟨f, hA hf, hf0, ?_⟩
  have htos := hw.tos q (by simp [hfragq]) hq0 f (hA hf) hf0
  have hkey := hw.key f (hA hf)
  simp only [Ipq.matches, decide_eq_true_eq] at hkey
  have hsize := h.size f (hA hf) hf0
  have hhl : q.ipqe_ip.ip_hl = f.ipqe_ip.ip_hl := by
    rw [hlike.ip]
  have hle : D.length + 4 * f.ipqe_ip.ip_hl ≤ IP_MAXPACKET := by omega
  have hmod : D.length % 65536 = D.length := by
    rw [IP_MAXPACKET] at hle
    omega
  have hhead : fp.ipq_fragq.head? = some q := by simp [hfragq]
  unfold ipComplete
  rw [nextOff_eq_some.2 hchain]
  simp only [hhead, hp, hmff, hhl, hflat]
  rw [if_neg (by simp), if_neg (not_lt.2 hle), hlike.ip, htos, ← hkey.2.1, ← hkey.2.2.1]
  simp [htons, hmod]

end Fragment

/-- Fragments given to `ip_reass` one after the other: what it returns for each. -/
def feed : State → List Ipqent → Option (List (Option (Ip × Mbuf)) × State)
  | st, [] => some ([], st)
  | st, e :: es =>
    (reassemble true st e).bind fun (m, st) => (feed st es).map fun (ms, st) => (m :: ms, st)

/-- No queue but the one of the fragments `A` was touched. -/
def Stands (frags : List Ipqent) (st : State) (A : List Ipqent) (st' : State) : Prop :=
  A = [] ∧ st' = st ∨
    ∃ fp, st'.ipq = fp :: st.ipq ∧ fp.ipq_fragq ≠ [] ∧ Waiting frags A fp

section Feed

variable {D : Mbuf} {frags A : List Ipqent} {e f : Ipqent} {fp : Ipq} {st st' : State}

theorem feed_concat (st : State) (es : List Ipqent) (e : Ipqent) :
    feed st (es ++ [e]) = (feed st es).bind fun (ms, st) =>
      (reassemble true st e).map fun (m, st) => (ms ++ [m], st) := by
  induction es generalizing st with
  | nil =>
    cases h : reassemble true st e with
    | none => simp [feed, h]
    | some r => simp [feed, h]
  | cons a es ih =>
    cases h : reassemble true st a with
    | none => simp [feed, h]
    | some r =>
      cases h' : feed r.2 es with
      | none => simp [feed, h, h', ih]
      | some r' =>
        cases h'' : reassemble true r'.2 e with
        | none => simp [feed, h, h', h'', ih]
        | some r'' => simp [feed, h, h', h'', ih]

theorem waiting_single (h : IsCut D frags) (he : e ∈ frags) (ttl : ℕ) :
    Waiting frags [e] ⟨ttl, e.ipqe_ip.ip_p, e.ipqe_ip.ip_id, e.ipqe_ip.ip_src, e.ipqe_ip.ip_dst,
      [e]⟩ := by
  refine ⟨?_, ⟨List.pairwise_singleton _ _, ?_, ?_⟩, ?_⟩
  · intro f hf
    simpa [Ipq.matches] using h.key f hf e he
  · intro q hq
    exact ⟨q, hq, Like.refl frags q⟩
  · intro f hf
    exact ⟨f, hf, Like.refl frags f⟩
  · intro q hq h0 f hf hf0
    obtain rfl : e = q := by simpa using hq
    obtain rfl := h.eq_of_off_zero hf he hf0 h0
    exact (tosAfter_self (A := []) (by simp)).symm

theorem reassemble_step (h : IsCut D frags)
    (hfree : ∀ fp ∈ st.ipq, ∀ f ∈ frags, fp.matches f.ipqe_ip = false) (hA : A ⊆ frags)
    (he : e ∈ frags) (hst : Stands frags st A st') :
    ∃ fp n, Waiting frags (A ++ [e]) fp ∧ fp.ipq_fragq ≠ [] ∧
      (reassemble true st' e = (ipComplete fp n).map (fun r =>
        (r.m, ⟨r.fp.toList ++ st.ipq, r.ip_frags⟩)) ∨
      reassemble true st' e = some (none, ⟨fp :: st.ipq, n⟩) ∧ e ∈ A) := by
  obtain ⟨rfl, rfl⟩ | ⟨fp, hipq, hne, hw⟩ := hst
  · refine ⟨_, st'.ip_frags + 1, waiting_single h he IPFRAGTTL, by simp, .inl ?_⟩
    have hdrop : (st'.ipq.dropWhile fun fp => !fp.matches e.ipqe_ip) = [] := by
      simpa using fun fp hfp => hfree fp hfp e he
    simp [reassemble, hdrop, ipReass]
  · obtain ⟨fp', n', hw', hne', hstep⟩ := hw.ipReassQueue h hA hne he (st'.ip_frags + 1)
    have hmatch := hw.key e he
    refine ⟨fp', n', hw', hne', ?_⟩
    obtain hstep | ⟨hstep, hmem⟩ := hstep
    · exact .inl (by simp [reassemble, hipq, hmatch, ipReass, hstep])
    · exact .inr ⟨by simp [reassemble, hipq, hmatch, ipReass, hstep], hmem⟩

theorem feed_missing (h : IsCut D frags)
    (hfree : ∀ fp ∈ st.ipq, ∀ f ∈ frags, fp.matches f.ipqe_ip = false) (hA : A ⊆ frags)
    (hf : f ∈ frags) (hmiss : f ∉ A) :
    ∃ st', feed st A = some (List.replicate A.length none, st') ∧ Stands frags st A st' := by
  induction A using List.reverseRecOn with
  | nil => exact ⟨st, rfl, .inl ⟨rfl, rfl⟩⟩
  | append_singleton A e ih =>
    have hA' : A ⊆ frags := fun a ha => hA (by simp [ha])
    obtain ⟨st₁, hfeed, hst₁⟩ := ih hA' fun hmem => hmiss (by simp [hmem])
    obtain ⟨fp, n, hw, hne, hstep⟩ := reassemble_step h hfree hA' (hA (by simp : e ∈ A ++ [e])) hst₁
    have hstands : ∀ n, Stands frags st (A ++ [e]) ⟨fp :: st.ipq, n⟩ := fun n =>
      .inr ⟨fp, rfl, hne, hw⟩
    refine ⟨⟨fp :: st.ipq, n⟩, ?_, hstands n⟩
    have hnone : reassemble true st₁ e = some (none, ⟨fp :: st.ipq, n⟩) := by
      obtain hstep | ⟨hstep, -⟩ := hstep
      · rw [hstep, hw.ipComplete_missing h hA hne hf hmiss]
        rfl
      · exact hstep
    simp [feed_concat, hfeed, hnone, List.replicate_succ']

theorem feed_complete (h : IsCut D frags)
    (hfree : ∀ fp ∈ st.ipq, ∀ f ∈ frags, fp.matches f.ipqe_ip = false) (hA : A ⊆ frags)
    (he : e ∈ frags) (hf : f ∈ frags) (hmiss : f ∉ A) (hall : ∀ f ∈ frags, f ∈ A ++ [e]) :
    ∃ f ∈ frags, f.off = 0 ∧ ∃ st', feed st (A ++ [e]) =
      some (List.replicate A.length none ++ [some ({ f.ipqe_ip with
        ip_tos := tosAfter f (A ++ [e]), ip_len := D.length }, D)], st') ∧ st'.ipq = st.ipq := by
  obtain ⟨st₁, hfeed, hst₁⟩ := feed_missing h hfree hA hf hmiss
  obtain ⟨fp, n, hw, hne, hstep⟩ := reassemble_step h hfree hA he hst₁
  have hA' : A ++ [e] ⊆ frags := by
    simpa [List.append_subset] using ⟨hA, he⟩
  have hnew : e ∉ A := by
    intro hmem
    have := hall f hf
    rw [List.mem_append, List.mem_singleton] at this
    exact hmiss (this.elim id fun heq => heq ▸ hmem)
  obtain ⟨f₀, hf₀, hoff, hcomplete⟩ := hw.ipComplete_all h hA' hall n
  refine ⟨f₀, hf₀, hoff, ⟨st.ipq, n - fp.ipq_fragq.length⟩, ?_, rfl⟩
  obtain hstep | ⟨-, hmem⟩ := hstep
  · simp [feed_concat, hfeed, hstep, hcomplete]
  · exact absurd hmem hnew

/-- Fragments of a cut in any order and repeated at will: nothing is returned while one is
missing, and the last one missing gives the datagram back under the header of the fragment at
offset 0. Whatever arrives, the entries are counted and no queue is empty. -/
theorem ip_reass_correct :
    (∀ (D : Mbuf) (frags : List Ipqent) (st : State), IsCut D frags →
      (∀ fp ∈ st.ipq, ∀ f ∈ frags, fp.matches f.ipqe_ip = false) →
      ∀ A ⊆ frags, (∃ f ∈ frags, f ∉ A) →
        (∃ st', feed st A = some (List.replicate A.length none, st')) ∧
        ∀ e ∈ frags, (∀ f ∈ frags, f ∈ A ++ [e]) →
          ∃ f ∈ frags, f.off = 0 ∧ ∃ st', feed st (A ++ [e]) =
            some (List.replicate A.length none ++ [some ({ f.ipqe_ip with
              ip_tos := tosAfter f (A ++ [e]), ip_len := D.length }, D)], st') ∧
            st'.ipq = st.ipq) ∧
    ∀ st, Reached st → Counted st := by
  refine ⟨?_, fun st h => h.counted⟩
  intro D frags st h hfree A hA ⟨f, hf, hmiss⟩
  obtain ⟨st', hfeed, -⟩ := feed_missing h hfree hA hf hmiss
  exact ⟨⟨st', hfeed⟩, fun e he hall => feed_complete h hfree hA he hf hmiss hall⟩

end Feed

/-- The header of a fragment with the ECN bits `tos`. -/
def sampleIp (tos : BitVec 8) (off : ℕ) : Ip := ⟨5, tos, 8, 7#16, off, 17#8, 1#32, 2#32, []⟩

def sampleFrags : List Ipqent :=
  [⟨sampleIp 2#8 0, List.replicate 8 1#8, true⟩, ⟨sampleIp 3#8 8, List.replicate 8 2#8, false⟩]

def sampleData : Mbuf := List.replicate 8 1#8 ++ List.replicate 8 2#8

theorem sample_isCut : IsCut sampleData sampleFrags where
  chain := by simp [sampleFrags, sampleData, Pieces.Chain, Pieces.fin, ents, Ipqent.off, Ipqent.len,
    sampleIp]
  data := by decide
  more := by decide
  last := ⟨_, rfl, rfl⟩
  key := by decide
  size := by decide
  ecn := by decide

/-- The two fragments in the other order, the second one twice. -/
theorem ip_reass_correct_two : ∃ f ∈ sampleFrags, f.off = 0 ∧ ∃ st',
    feed State.initial (sampleFrags.drop 1 ++ sampleFrags.drop 1 ++ [sampleFrags.head (by decide)]) =
      some ([none, none, some ({ f.ipqe_ip with ip_tos := 2#8, ip_len := 16 }, sampleData)], st') := by
  obtain ⟨f, hf, h0, st', hfeed, -⟩ := (ip_reass_correct.1 sampleData sampleFrags State.initial
    sample_isCut (by simp [State.initial]) (sampleFrags.drop 1 ++ sampleFrags.drop 1)
    (by decide) (by decide)).2 (sampleFrags.head (by decide)) (by decide) (by decide)
  have htos : ∀ f ∈ sampleFrags, f.off = 0 → tosAfter f
      (sampleFrags.drop 1 ++ sampleFrags.drop 1 ++ [sampleFrags.head (by decide)]) = 2#8 := by
    decide
  rw [htos f hf h0] at hfeed
  exact ⟨f, hf, h0, st', hfeed⟩

/-- The mark of the second fragment is added to the header of the first. -/
theorem ip_reass_marks : ¬ ∀ (D : Mbuf) (frags : List Ipqent), IsCut D frags →
    ∀ A ⊆ frags, ∀ e ∈ frags, (∃ f ∈ frags, f ∉ A) → (∀ f ∈ frags, f ∈ A ++ [e]) →
      ∃ f ∈ frags, f.off = 0 ∧ ∃ st', feed State.initial (A ++ [e]) =
        some (List.replicate A.length none ++
          [some ({ f.ipqe_ip with ip_len := D.length }, D)], st') := by
  intro h
  obtain ⟨f, hf, h0, st', hfeed⟩ := h sampleData sampleFrags sample_isCut (sampleFrags.take 1)
    (by decide) (sampleFrags.getLast (by decide)) (by decide) (by decide) (by decide)
  have hrun : feed State.initial (sampleFrags.take 1 ++ [sampleFrags.getLast (by decide)]) =
      some ([none, some ({ sampleIp 3#8 0 with ip_len := 16 }, sampleData)], ⟨[], 0⟩) := by decide
  have hfirst : f = ⟨sampleIp 2#8 0, List.replicate 8 1#8, true⟩ := by
    have hall : ∀ f ∈ sampleFrags, f.off = 0 → f = ⟨sampleIp 2#8 0, List.replicate 8 1#8, true⟩ := by
      decide
    exact hall f hf h0
  rw [hrun, hfirst] at hfeed
  revert hfeed
  simp [sampleFrags, sampleIp]

end OpenbsdKernel.IpInput
