import OpenbsdKernel.Netinet.IpReass.Count

/-!
# The fragments of a datagram give it back

Fragments of one cut of a datagram, in any order and repeated at will: the queue holds one
entry for each that has arrived, and with the last one missing the datagram is returned.
-/
namespace OpenbsdKernel.IpInput

open Reassembly

def ents : Pieces Ipqent := ⟨Ipqent.off, Ipqent.len, Ipqent.cut⟩

@[simp] theorem ents_off (q : Ipqent) : ents.off q = q.off := rfl
@[simp] theorem ents_len (q : Ipqent) : ents.len q = q.len := rfl
@[simp] theorem ents_fin (q : Ipqent) : ents.fin q = q.fin := rfl

section Loops

variable {e : Ipqent} {fragq : List Ipqent}

theorem dropProvided_eq (e : Ipqent) (last : Option Ipqent) :
    dropProvided e last = ents.trimFront e last := by
  cases last with
  | none => rfl
  | some p =>
    by_cases hlt : e.off < p.fin
    · by_cases hlen : e.len ≤ p.fin - e.off
      · simp [dropProvided, Pieces.trimFront, hlt, not_le.2 hlt, hlen]
      · simp [dropProvided, Pieces.trimFront, hlt, not_le.2 hlt, hlen]
        rfl
    · simp [dropProvided, Pieces.trimFront, hlt, not_lt.1 hlt]

theorem trimSucceeding_eq (e : Ipqent) (fragq : List Ipqent) (n : ℤ) :
    (trimSucceeding e fragq n).1 = ents.trimAfter e fragq := by
  induction fragq generalizing n with
  | nil => rfl
  | cons q fragq ih =>
    by_cases hlt : q.off < e.fin
    · by_cases hlen : e.fin - q.off < q.len
      · have htrim : ents.trimAfter e (q :: fragq) = q.cut (e.fin - q.off) :: fragq :=
          Pieces.trimAfter_cut hlt hlen
        simp [trimSucceeding, hlt, hlen, htrim]
      · have htrim : ents.trimAfter e (q :: fragq) = ents.trimAfter e fragq :=
          Pieces.trimAfter_drop hlt (not_lt.1 hlen)
        simp [trimSucceeding, hlt, hlen, htrim, ih]
    · have htrim : ents.trimAfter e (q :: fragq) = q :: fragq := Pieces.trimAfter_stop (not_lt.1 hlt)
      simp [trimSucceeding, hlt, htrim]

theorem nextOff_eq_some {a b : ℕ} : nextOff a fragq = some b ↔ ents.Chain a fragq b := by
  induction fragq generalizing a with
  | nil => simp [nextOff, Pieces.Chain]
  | cons q fragq ih =>
    by_cases hoff : q.off = a
    · have hfin : ents.fin q = a + q.len := by
        rw [ents_fin, Ipqent.fin, hoff]
      simp [nextOff, Pieces.Chain, hoff, hfin, ih]
    · simp [nextOff, Pieces.Chain, hoff]

end Loops

/-- The fragments of a datagram with payload `D`, as `ip_reass` gets them: each begins where the
one before ends, all but the last have more fragments and data, they belong together, and the
ECN bits do not mix. -/
structure IsCut (D : Mbuf) (frags : List Ipqent) : Prop where
  chain : ents.Chain 0 frags D.length
  data : ∀ q ∈ frags, q.ipqe_m = (D.drop q.off).take q.len
  more : ∀ q ∈ frags.dropLast, q.ipqe_mff = true ∧ 0 < q.len
  last : ∃ q, frags.getLast? = some q ∧ q.ipqe_mff = false
  key : ∀ q ∈ frags, ∀ q' ∈ frags, q.ipqe_ip.ip_id = q'.ipqe_ip.ip_id ∧
    q.ipqe_ip.ip_src = q'.ipqe_ip.ip_src ∧ q.ipqe_ip.ip_dst = q'.ipqe_ip.ip_dst ∧
    q.ipqe_ip.ip_p = q'.ipqe_ip.ip_p
  size : ∀ q ∈ frags, q.off = 0 → 4 * q.ipqe_ip.ip_hl + D.length ≤ IP_MAXPACKET
  ecn : ∀ q ∈ frags, ∀ q' ∈ frags, ecn q.ipqe_ip = 0#8 ↔ ecn q'.ipqe_ip = 0#8

/-- An entry for a fragment: the congestion mark of another one may have been added to it. -/
structure Like (frags : List Ipqent) (q f : Ipqent) : Prop where
  m : q.ipqe_m = f.ipqe_m
  mff : q.ipqe_mff = f.ipqe_mff
  ip : q.ipqe_ip = { f.ipqe_ip with ip_tos := q.ipqe_ip.ip_tos }
  tos : q.ipqe_ip.ip_tos = f.ipqe_ip.ip_tos ∨
    (q.ipqe_ip.ip_tos = f.ipqe_ip.ip_tos ||| 3#8 ∧ IpInput.ecn f.ipqe_ip ≠ 0#8 ∧
      ∃ g ∈ frags, IpInput.ecn g.ipqe_ip = 3#8)

section Cut

variable {D : Mbuf} {frags : List Ipqent} {q f g : Ipqent}

theorem Like.refl (frags : List Ipqent) (f : Ipqent) : Like frags f f := ⟨rfl, rfl, rfl, .inl rfl⟩

theorem Like.off_eq (h : Like frags q f) : q.off = f.off := by
  rw [Ipqent.off, h.ip]
  rfl

theorem Like.len_eq (h : Like frags q f) : q.len = f.len := by
  rw [Ipqent.len, h.ip]
  rfl

theorem Like.fin_eq (h : Like frags q f) : q.fin = f.fin := by
  rw [Ipqent.fin, h.off_eq, h.len_eq, Ipqent.fin]

theorem Like.ecn_eq (h : Like frags q f) : ecn q.ipqe_ip = 0#8 ↔ ecn f.ipqe_ip = 0#8 := by
  obtain htos | ⟨htos, hne, -⟩ := h.tos
  · rw [ecn, ecn, htos]
  · refine ⟨fun h0 => absurd h0 ?_, fun h0 => absurd h0 hne⟩
    rw [ecn, htos]
    generalize f.ipqe_ip.ip_tos = t
    revert t
    decide

theorem chain_ordered {a b : ℕ} (h : ents.Chain a frags b) :
    ents.Ordered frags ∧ ∀ q ∈ frags, a ≤ q.off ∧ q.fin ≤ b := by
  induction frags generalizing a with
  | nil => exact ⟨List.Pairwise.nil, by simp⟩
  | cons q frags ih =>
    obtain ⟨hoff, hrest⟩ := h
    obtain ⟨hord, hin⟩ := ih hrest
    have hle := hrest.le
    simp only [ents_off, ents_fin] at hoff hin hle
    have hfin : q.off ≤ q.fin := by simp [Ipqent.fin]
    refine ⟨List.pairwise_cons.2 ⟨fun r hr => (hin r hr).1, hord⟩, ?_⟩
    intro r hr
    obtain rfl | hr := List.mem_cons.1 hr
    · exact ⟨hoff.ge, hle⟩
    · have := hin r hr
      exact ⟨by omega, this.2⟩

theorem IsCut.fin_le (h : IsCut D frags) (hf : f ∈ frags) : f.fin ≤ D.length :=
  ((chain_ordered h.chain).2 f hf).2

/-- Two fragments are the same, or one ends before the other begins. -/
theorem IsCut.apart (h : IsCut D frags) (hf : f ∈ frags) (hg : g ∈ frags) :
    f = g ∨ f.fin ≤ g.off ∨ g.fin ≤ f.off := by
  by_contra hne
  rw [not_or, not_or] at hne
  have hsymm : Std.Symm fun a b : Ipqent => a.fin ≤ b.off ∨ b.fin ≤ a.off :=
    ⟨fun _ _ h => h.symm⟩
  have hpair : frags.Pairwise fun a b : Ipqent => a.fin ≤ b.off ∨ b.fin ≤ a.off :=
    (chain_ordered h.chain).1.imp fun hle => .inl hle
  exact (hpair.forall hf hg hne.1).elim hne.2.1 hne.2.2

theorem IsCut.eq_last (h : IsCut D frags) {last : Ipqent} (hlast : frags.getLast? = some last)
    (hf : f ∈ frags) (hend : f.ipqe_mff = false ∨ f.len = 0) : f = last := by
  by_contra hne
  obtain ⟨front, heq⟩ := List.getLast?_eq_some_iff.1 hlast
  have hmem : f ∈ frags.dropLast := by
    rw [heq, List.dropLast_concat]
    rw [heq] at hf
    obtain hf | hf := List.mem_append.1 hf
    · exact hf
    · exact absurd (List.mem_singleton.1 hf) hne
  have hmore := h.more f hmem
  obtain hmff | hlen := hend
  · rw [hmore.1] at hmff
    cases hmff
  · omega

theorem IsCut.last_fin (h : IsCut D frags) {last : Ipqent} (hlast : frags.getLast? = some last) :
    last.fin = D.length := by
  have hchain := h.chain
  obtain ⟨front, rfl⟩ := List.getLast?_eq_some_iff.1 hlast
  have hend : ∀ {l : List Ipqent} {a b : ℕ}, ents.Chain a (l ++ [last]) b → last.fin = b := by
    intro l
    induction l with
    | nil =>
      intro a b hc
      exact hc.2
    | cons q l ih =>
      intro a b hc
      exact ih hc.2
  exact hend hchain

/-- There is one fragment at offset 0. -/
theorem IsCut.eq_of_off_zero (h : IsCut D frags) (hf : f ∈ frags) (hg : g ∈ frags)
    (hf0 : f.off = 0) (hg0 : g.off = 0) : f = g := by
  obtain ⟨last, hlast, -⟩ := h.last
  have hmem := List.mem_of_getLast? hlast
  -- a fragment without data ends the datagram, which is empty then
  have hempty : ∀ {a b : Ipqent}, a ∈ frags → b ∈ frags → a.off = 0 → b.off = 0 → a.fin ≤ 0 →
      a = b := by
    intro a b ha hb ha0 hb0 hfin
    have hlen : a.len = 0 := by
      rw [Ipqent.fin] at hfin
      omega
    have hal := h.eq_last hlast ha (.inr hlen)
    have hD := h.last_fin hlast
    have hb' := h.fin_le hb
    rw [← hal] at hD
    rw [Ipqent.fin] at hb'
    exact hal.trans (h.eq_last hlast hb (.inr (by omega))).symm
  obtain heq | hle | hle := h.apart hf hg
  · exact heq
  · exact hempty hf hg hf0 hg0 (by omega)
  · exact (hempty hg hf hg0 hf0 (by omega)).symm

end Cut

end OpenbsdKernel.IpInput
