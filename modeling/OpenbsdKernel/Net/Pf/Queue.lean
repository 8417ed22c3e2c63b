import OpenbsdKernel.Net.Pf.Fragment

/-!
# The invariant of a fragment queue

The entries are in order, none is empty, and all but the last have more fragments behind
them. What else holds of an entry is a parameter that cutting its front must keep.
-/
namespace OpenbsdKernel.PfNorm

open Reassembly

def frents : Pieces Frent := ⟨Frent.fe_off, Frent.fe_len, Frent.cut⟩

@[simp] theorem frents_off (e : Frent) : frents.off e = e.fe_off := rfl
@[simp] theorem frents_len (e : Frent) : frents.len e = e.fe_len := rfl
@[simp] theorem frents_fin (e : Frent) : frents.fin e = e.fin := rfl
@[simp] theorem frents_cut (i : ℕ) (e : Frent) : frents.cut i e = e.cut i := rfl

theorem u16_of_le {n : ℕ} (h : n ≤ IP_MAXPACKET) : u16 n = n :=
  Nat.mod_eq_of_lt (Nat.lt_succ_of_le h)

/-- An entry in its bounds that satisfies `good`. -/
structure Held (good : Frent → Prop) (e : Frent) : Prop where
  len_pos : 0 < e.fe_len
  fin_le : e.fin ≤ IP_MAXPACKET
  good : good e

/-- Cutting the front of an entry keeps `good`. -/
def Stable (good : Frent → Prop) : Prop :=
  ∀ e i, Held good e → i < e.fe_len → good (e.cut i)

section Cut

variable {good : Frent → Prop} {e : Frent} {i : ℕ}

theorem Held.cut_off (h : Held good e) (hi : i < e.fe_len) : (e.cut i).fe_off = e.fe_off + i := by
  have := h.fin_le
  simp only [Frent.fin] at this
  exact u16_of_le (by omega)

theorem Held.cut_len (h : Held good e) (hi : i < e.fe_len) : (e.cut i).fe_len = e.fe_len - i := by
  have := h.fin_le
  simp only [Frent.fin] at this
  exact u16_of_le (by omega)

theorem Stable.lawful (hgood : Stable good) : frents.Lawful (Held good) where
  off_cut h hi := h.cut_off hi
  len_cut h hi := h.cut_len hi
  ok_cut {e i} h hi := by
    have hoff := h.cut_off hi
    have hlen := h.cut_len hi
    have hfin := h.fin_le
    refine ⟨?_, ?_, hgood e i h hi⟩
    · simp only [frents_len, frents_cut] at hi ⊢
      omega
    · simp only [frents_len, frents_cut, Frent.fin] at hi hfin ⊢
      omega

end Cut

section Loops

variable {good : Frent → Prop} {e : Frent} {queue : List Frent} {n : ℕ}

/-- Cutting the entries behind, without IPv6: the library's loop, and the entries given back. -/
theorem cutAfter_inet (hok : ∀ q ∈ queue, Held good q) (he : Held good e)
    (hn : queue.length ≤ n) :
    cutAfter false e queue n =
      some (frents.trimAfter e queue, n - (queue.length - (frents.trimAfter e queue).length)) := by
  induction queue generalizing n with
  | nil => simp [cutAfter, Pieces.trimAfter]
  | cons q queue ih =>
    have hfin := he.fin_le
    have hcut : u16 (e.fin - q.fe_off) = e.fin - q.fe_off := u16_of_le (by omega)
    have hq : queue.length + 1 ≤ n := by simpa using hn
    have hle := frents.length_trimAfter_le e queue
    by_cases hlt : q.fe_off < e.fin
    · by_cases hlen : e.fin - q.fe_off < q.fe_len
      · have htrim : frents.trimAfter e (q :: queue) = q.cut (e.fin - q.fe_off) :: queue :=
          Pieces.trimAfter_cut hlt hlen
        simp [cutAfter, hlt, hcut, hlen, htrim]
      · have htrim : frents.trimAfter e (q :: queue) = frents.trimAfter e queue :=
          Pieces.trimAfter_drop hlt (not_lt.1 hlen)
        simp only [cutAfter, hlt, hcut, hlen, htrim, if_true, if_false, Bool.false_eq_true]
        rw [ih (fun q hq => hok q (by simp [hq])) (by omega), List.length_cons]
        congr 2
        omega
    · have htrim : frents.trimAfter e (q :: queue) = q :: queue :=
        Pieces.trimAfter_stop (not_lt.1 hlt)
      simp [cutAfter, hlt, htrim]

theorem precut_inet (last : Option Frent) (hlast : ∀ p ∈ last, p.fin ≤ IP_MAXPACKET) :
    precut false e last =
      match frents.trimFront e last with
      | none => .drop
      | some e' => .keep e' := by
  cases last with
  | none => rfl
  | some p =>
    have hp := hlast p rfl
    have hcut : u16 (p.fin - e.fe_off) = p.fin - e.fe_off := u16_of_le (by omega)
    by_cases hlt : e.fe_off < p.fin
    · by_cases hlen : e.fe_len ≤ p.fin - e.fe_off
      · simp [precut, Pieces.trimFront, hcut, hlt, not_le.2 hlt, hlen]
      · simp [precut, Pieces.trimFront, hcut, hlt, not_le.2 hlt, hlen]
    · simp [precut, Pieces.trimFront, hlt, not_lt.1 hlt]

theorem precut_inet6 (last : Option Frent) :
    precut true e last = if ∃ p ∈ last, p.fin > e.fe_off then .free else .keep e := by
  cases last with
  | none => simp [precut]
  | some p => by_cases h : p.fin > e.fe_off <;> simp [precut, h]

theorem cutAfter_inet6 :
    cutAfter true e queue n = if ∃ q ∈ queue.head?, e.fin > q.fe_off then none else some (queue, n) := by
  cases queue with
  | nil => simp [cutAfter]
  | cons q queue => by_cases h : e.fin > q.fe_off <;> simp [cutAfter, h]

end Loops

/-- The entries of a datagram. -/
structure Entries (good : Frent → Prop) (queue : List Frent) : Prop where
  ne_nil : queue ≠ []
  held : ∀ q ∈ queue, Held good q
  ordered : frents.Ordered queue
  more : queue.Pairwise fun a _ => a.fe_mff = true

/-- Between two calls. -/
def Consistent (good : Frent → Prop) (st : State) : Prop :=
  match st.frag with
  | none => st.pf_nfrents = 0
  | some frag => Entries good frag.fr_queue ∧ st.pf_nfrents = frag.fr_queue.length

section Insert

variable {good : Frent → Prop} {e e' last : Frent} {queue queue' : List Frent}

theorem Entries.single (he : Held good e) : Entries good [e] :=
  ⟨by simp, by simpa using he, List.pairwise_singleton _ _, List.pairwise_singleton _ _⟩

/-- A fragment that the checks let pass, with what they say about its end. -/
theorem not_badEnd (h : ¬ badEnd e last) (hlast : last.fin ≤ IP_MAXPACKET) :
    (e.fin < last.fin → e.fe_mff = true) ∧ (last.fin < e.fin → last.fe_mff = true) ∧
      (e.fin = last.fin → e.fe_mff = last.fe_mff) := by
  simp only [badEnd, u16_of_le hlast] at h
  cases hl : last.fe_mff <;> cases he : e.fe_mff <;> simp [hl, he] at h ⊢ <;> omega

theorem Entries.insert (hgood : Stable good) (h : Entries good queue) (he : Held good e)
    (hlast : queue.getLast? = some last) (hend : ¬ badEnd e last)
    (hins : frents.insert e queue = some queue') : Entries good queue' := by
  have hP := hgood.lawful
  obtain ⟨hordered, hheld⟩ := hP.insert_ordered h.held he h.ordered hins
  obtain ⟨hlt, hgt, -⟩ := not_badEnd hend (h.held last (List.mem_of_getLast? hlast)).fin_le
  obtain ⟨e', htrim, rfl⟩ := Pieces.insert_some hins
  have hpl := hP.placed he h.ordered htrim
  have hmff : e'.fe_mff = e.fe_mff := by
    obtain ⟨rfl, -⟩ | ⟨p, -, -, -, rfl⟩ := Pieces.trimFront_some htrim <;> rfl
  have hsplit := frents.before_append_after e queue
  refine ⟨by simp, hheld, hordered, ?_⟩
  have hmore := h.more
  rw [← hsplit] at hmore
  obtain ⟨hbefore, hafter, hcross⟩ := List.pairwise_append.1 hmore
  have hkept : (frents.trimAfter e' (frents.after e queue)).Pairwise fun a _ => a.fe_mff = true := by
    obtain ⟨gone, rest, hq, -, ⟨heq, -⟩ | ⟨q, t, rfl, -, -, heq⟩⟩ :=
      frents.trimAfter_cases e' (frents.after e queue)
    · rw [hq] at hafter
      rw [heq]
      exact (List.pairwise_append.1 hafter).2.1
    · rw [hq] at hafter
      rw [heq]
      exact List.pairwise_cons.2 (List.pairwise_cons.1 (List.pairwise_append.1 hafter).2.1)
  refine List.pairwise_append.2 ⟨hbefore, List.pairwise_cons.2 ⟨?_, hkept⟩, ?_⟩
  · -- an entry is left behind the new one, which therefore does not reach the end
    intro q hq
    rw [hmff]
    refine hlt ?_
    have hold : ∀ q ∈ frents.after e queue, Held good q := fun q hq =>
      h.held q (Pieces.mem_of_mem_after hq)
    obtain ⟨hlow, hq'⟩ := (hP.trimAfter_ordered hold h.ordered.after).2 q hq
    obtain ⟨r, hr, hfin⟩ := hP.fin_of_mem_trimAfter hold hq
    have hle := h.ordered.fin_le_last hlast (Pieces.mem_of_mem_after hr)
    have hpos := hq'.len_pos
    have hend' := hpl.fin
    simp only [frents_fin, frents_off, Frent.fin] at *
    omega
  · intro p hp q _
    by_cases hnil : frents.after e queue = []
    · -- the new entry is the last one, and reaches behind the old last one
      rw [hnil, List.append_nil] at hsplit
      rw [hsplit] at hp
      obtain ⟨front, rfl⟩ := List.getLast?_eq_some_iff.1 hlast
      obtain hp | hp := List.mem_append.1 hp
      · exact (List.pairwise_append.1 h.more).2.2 p hp last (by simp)
      · rw [List.mem_singleton.1 hp]
        refine hgt ?_
        have hle := hpl.last last (by rw [hsplit]; exact hlast)
        have hpos := hpl.ok.len_pos
        have hend' := hpl.fin
        simp only [frents_fin, frents_off, Frent.fin] at *
        omega
    · obtain ⟨r, hr⟩ := List.exists_mem_of_ne_nil _ hnil
      exact hcross p hp r hr

end Insert

/-- The ways through `pf_fillup_fragment` without IPv6. -/
inductive Filling (st : State) (e : Frent) : Filled → Prop
  | bad (h : badFragment e) : Filling st e ⟨st, false, some .frag⟩
  | first (hbad : ¬ badFragment e) (h : st.frag = none) :
      Filling st e ⟨⟨some ⟨[e], e.fe_len⟩, 1⟩, true, none⟩
  | badEnd {frag last} (hbad : ¬ badFragment e) (h : st.frag = some frag)
      (hlast : frag.fr_queue.getLast? = some last) (hend : badEnd e last) :
      Filling st e ⟨⟨some { frag with fr_maxlen := max e.fe_len frag.fr_maxlen }, st.pf_nfrents⟩,
        false, some .frag⟩
  | covered {frag last} (hbad : ¬ badFragment e) (h : st.frag = some frag)
      (hlast : frag.fr_queue.getLast? = some last) (hend : ¬ PfNorm.badEnd e last)
      (hins : frents.insert e frag.fr_queue = none) :
      Filling st e ⟨⟨some { frag with fr_maxlen := max e.fe_len frag.fr_maxlen }, st.pf_nfrents⟩,
        false, none⟩
  | placed {frag last queue'} (hbad : ¬ badFragment e) (h : st.frag = some frag)
      (hlast : frag.fr_queue.getLast? = some last) (hend : ¬ PfNorm.badEnd e last)
      (hins : frents.insert e frag.fr_queue = some queue') :
      Filling st e ⟨⟨some ⟨queue', max e.fe_len frag.fr_maxlen⟩, queue'.length⟩, true, none⟩

/-- The state with the new entry counted. -/
def State.counted (st : State) : State := { st with pf_nfrents := st.pf_nfrents + 1 }

section Filling

variable {good : Frent → Prop} {st : State} {e : Frent}

theorem Held.of_not_bad (hbad : ¬ badFragment e) (he : good e) : Held good e := by
  simp only [badFragment, not_or] at hbad
  exact ⟨Nat.pos_of_ne_zero hbad.1, not_lt.1 hbad.2.2, he⟩

theorem pfFillupFragment_inet (hgood : Stable good) (h : Consistent good st)
    (he : ¬ badFragment e → good e) :
    ∃ r, pfFillupFragment false st.counted e = some r ∧ Filling st e r := by
  unfold pfFillupFragment
  split
  · next hbad => exact ⟨_, rfl, .bad hbad⟩
  next hbad =>
  have hheld := Held.of_not_bad hbad (he hbad)
  obtain ⟨frag, n⟩ := st
  cases frag with
  | none =>
    have hn : n = 0 := h
    subst hn
    exact ⟨_, rfl, .first hbad rfl⟩
  | some frag =>
    obtain ⟨hent, hn⟩ : Entries good frag.fr_queue ∧ n = frag.fr_queue.length := h
    obtain ⟨last, hlast⟩ := Option.isSome_iff_exists.1 (List.getLast?_isSome.2 hent.ne_nil)
    simp only [State.counted, hlast]
    split
    · next hend => exact ⟨_, rfl, .badEnd hbad rfl hlast hend⟩
    next hend =>
    have hsplit : frents.before e frag.fr_queue ++ frents.after e frag.fr_queue = frag.fr_queue :=
      frents.before_append_after e frag.fr_queue
    have hnil : ¬ (frents.before e frag.fr_queue = [] ∧ frents.after e frag.fr_queue = []) := by
      rintro ⟨h1, h2⟩
      rw [h1, h2] at hsplit
      exact hent.ne_nil hsplit.symm
    have hfront := precut_inet (e := e) (frents.before e frag.fr_queue).getLast? fun p hp =>
      (hent.held p (Pieces.mem_of_mem_before (List.mem_of_getLast? hp))).fin_le
    change ∃ r, placeFrent false _ _ e (frents.before e frag.fr_queue) (frents.after e frag.fr_queue) =
      some r ∧ _
    simp only [placeFrent, if_neg hnil, hfront]
    cases htrim : frents.trimFront e (frents.before e frag.fr_queue).getLast? with
    | none =>
      refine ⟨_, rfl, .covered hbad rfl hlast hend ?_⟩
      rw [Pieces.insert, htrim, Option.map_none]
    | some e' =>
      have hpl := hgood.lawful.placed hheld hent.ordered htrim
      have hlen := congrArg List.length hsplit
      rw [List.length_append] at hlen
      have hafter : ∀ q ∈ frents.after e frag.fr_queue, Held good q := fun q hq =>
        hent.held q (Pieces.mem_of_mem_after hq)
      have hins : frents.insert e frag.fr_queue = some (frents.before e frag.fr_queue ++
          e' :: frents.trimAfter e' (frents.after e frag.fr_queue)) := by
        rw [Pieces.insert, htrim, Option.map_some]
      have hcount : n + 1 - ((frents.after e frag.fr_queue).length -
          (frents.trimAfter e' (frents.after e frag.fr_queue)).length) =
          (frents.before e frag.fr_queue ++
            e' :: frents.trimAfter e' (frents.after e frag.fr_queue)).length := by
        have := frents.length_trimAfter_le e' (frents.after e frag.fr_queue)
        simp only [List.length_append, List.length_cons]
        omega
      simp only [cutAfter_inet hafter hpl.ok (n := n + 1) (by omega), hcount]
      exact ⟨_, rfl, .placed hbad rfl hlast hend hins⟩

theorem Filling.consistent {r : Filled} (hgood : Stable good) (h : Consistent good st)
    (he : ¬ badFragment e → good e) (hr : Filling st e r) : Consistent good r.st := by
  cases hr with
  | bad _ => exact h
  | first hbad _ => exact ⟨.single (.of_not_bad hbad (he hbad)), rfl⟩
  | badEnd _ hfrag _ _ =>
    simp only [Consistent, hfrag] at h
    exact h
  | covered _ hfrag _ _ _ =>
    simp only [Consistent, hfrag] at h
    exact h
  | placed hbad hfrag hlast hend hins =>
    simp only [Consistent, hfrag] at h
    exact ⟨h.1.insert hgood (.of_not_bad hbad (he hbad)) hlast hend hins, rfl⟩

end Filling

section Isfull

variable {good : Frent → Prop} {last : Frent} {queue : List Frent} {a : ℕ}

theorem isfullLoop_gap {total : ℕ} {q : Frent} (hlt : u16 (a + q.fe_len) < total)
    (hnext : queue.head?.map Frent.fe_off ≠ some (u16 (a + q.fe_len))) :
    isfullLoop total a (q :: queue) = none := by
  rw [isfullLoop, if_pos ⟨hlt, hnext⟩]

theorem isfullLoop_next {total : ℕ} {q : Frent}
    (h : total ≤ u16 (a + q.fe_len) ∨ queue.head?.map Frent.fe_off = some (u16 (a + q.fe_len))) :
    isfullLoop total a (q :: queue) = isfullLoop total (u16 (a + q.fe_len)) queue := by
  rw [isfullLoop, if_neg]
  rintro ⟨hlt, hnext⟩
  exact h.elim (not_le.2 hlt) hnext

/-- The loop ends with the whole length exactly when there is no gap. -/
theorem isfullLoop_eq (hne : queue ≠ []) (hheld : ∀ q ∈ queue, Held good q)
    (hord : frents.Ordered queue) (hlast : queue.getLast? = some last)
    (hlow : ∀ q ∈ queue.head?, a ≤ q.fe_off) :
    (frents.Chain a queue last.fin → isfullLoop last.fin a queue = some last.fin) ∧
      (¬ frents.Chain a queue last.fin → isfullLoop last.fin a queue = none) := by
  induction queue generalizing a with
  | nil => exact absurd rfl hne
  | cons q queue ih =>
    have hq := hheld q (by simp)
    have hle : q.fin ≤ last.fin := hord.fin_le_last hlast (List.mem_cons_self ..)
    have hmax := (hheld last (List.mem_of_getLast? hlast)).fin_le
    have ha : a ≤ q.fe_off := hlow q (by simp)
    have hu : u16 (a + q.fe_len) = a + q.fe_len := u16_of_le (by simp only [Frent.fin] at *; omega)
    have hfin : q.fin = q.fe_off + q.fe_len := rfl
    cases queue with
    | nil =>
      obtain rfl : q = last := by simpa using hlast
      refine ⟨fun h => ?_, fun h => ?_⟩
      · obtain ⟨hoff, -⟩ := h
        have hoff' : q.fe_off = a := hoff
        rw [isfullLoop_next (.inl (by omega)), hu, isfullLoop, hfin, hoff']
      · have hoff : q.fe_off ≠ a := fun hoff => h ⟨hoff, rfl⟩
        exact isfullLoop_gap (by omega) (by simp)
    | cons r queue =>
      have hr : q.fin ≤ r.fe_off := List.rel_of_pairwise_cons hord (List.mem_cons_self ..)
      have hlast' : (r :: queue).getLast? = some last := by simpa using hlast
      have hrest : frents.Ordered (r :: queue) := List.Pairwise.of_cons hord
      have hlt : q.fin < last.fin := by
        have h1 : r.fin ≤ last.fin := hrest.fin_le_last hlast' (List.mem_cons_self ..)
        have h2 := (hheld r (by simp)).len_pos
        simp only [Frent.fin] at *
        omega
      by_cases hnext : r.fe_off = a + q.fe_len
      · have hoff : q.fe_off = a := by omega
        have hchain : frents.Chain a (q :: r :: queue) last.fin ↔
            frents.Chain q.fin (r :: queue) last.fin := ⟨fun h => h.2, fun h => ⟨hoff, h⟩⟩
        rw [isfullLoop_next (.inr (by simp [hu, hnext])), hu, hchain, hfin, hoff]
        exact ih (by simp) (fun s hs => hheld s (by simp [hs])) hrest hlast'
          (by simpa using hnext.ge)
      · refine ⟨fun hchain => absurd ?_ hnext, fun _ => isfullLoop_gap (by omega) (by simpa [hu] using hnext)⟩
        obtain ⟨hoff, hr, -⟩ := hchain
        have hoff' : q.fe_off = a := hoff
        have hr' : r.fe_off = q.fin := hr
        omega

theorem Entries.chain_iff (h : Entries good queue) (hlast : queue.getLast? = some last) :
    frents.Chain 0 queue last.fin ↔ ∀ x < last.fin, frents.Covers queue x := by
  constructor
  · intro hchain x hx
    exact hchain.covers ⟨Nat.zero_le x, hx⟩
  · intro hcov
    exact h.ordered.chain (Nat.zero_le _)
      (fun q hq => ⟨Nat.zero_le _, h.ordered.fin_le_last hlast hq⟩) fun x _ hx => hcov x hx

theorem pfIsfullFragment_eq {frag : Fragment} (h : Entries good frag.fr_queue)
    (hlast : frag.fr_queue.getLast? = some last) :
    ∃ b, pfIsfullFragment frag = some b ∧
      (b = true ↔ last.fe_mff = false ∧ ∀ x < last.fin, frents.Covers frag.fr_queue x) := by
  have hmax := (h.held last (List.mem_of_getLast? hlast)).fin_le
  simp only [pfIsfullFragment, hlast, u16_of_le hmax]
  cases hmff : last.fe_mff with
  | true => exact ⟨false, by simp, by simp⟩
  | false =>
    obtain ⟨hfull, hgap⟩ := isfullLoop_eq h.ne_nil h.held h.ordered hlast
      (fun q _ => Nat.zero_le q.fe_off)
    rw [← h.chain_iff hlast]
    by_cases hchain : frents.Chain 0 frag.fr_queue last.fin
    · exact ⟨true, by simp [hfull hchain], by simp [hchain]⟩
    · exact ⟨false, by simp [hgap hchain], by simp [hchain]⟩

end Isfull

/-- An entry that agrees with the datagram with payload `D`; with offset 0 it is as it was
received. -/
structure Agrees (D : Mbuf) (src : Frent → Prop) (e : Frent) : Prop where
  fin : e.fin ≤ D.length
  more : e.fe_mff = true ↔ e.fin ≠ D.length
  data : e.payload = (D.drop e.fe_off).take e.fe_len
  whole : e.fe_off = 0 → src e

section Agrees

variable {D : Mbuf} {src src' good good' : Frent → Prop} {e last first : Frent} {queue : List Frent}
  {st : State}

theorem Frent.cut_zero (h : Held good e) : e.cut 0 = e := by
  have hfin := h.fin_le
  simp only [Frent.fin] at hfin
  have h1 : u16 (e.fe_off + 0) = e.fe_off := u16_of_le (by omega)
  have h2 : u16 (e.fe_len - 0) = e.fe_len := u16_of_le (by omega)
  simp only [Frent.cut, h1, h2, List.drop_zero]

theorem stable_agrees (D : Mbuf) (src : Frent → Prop) : Stable (Agrees D src) := by
  intro e i h hi
  have hoff := h.cut_off hi
  have hlen := h.cut_len hi
  have hfin : (e.cut i).fin = e.fin := by
    simp only [Frent.fin, hoff, hlen]
    omega
  refine ⟨hfin ▸ h.good.fin, ?_, ?_, ?_⟩
  · rw [hfin]
    exact h.good.more
  · -- the header is still counted in front of the data, so they are `i` bytes further on
    have hdata := h.good.data
    have hpay : (e.cut i).payload = e.payload.drop i := by
      simp only [Frent.payload, Frent.cut, List.drop_drop, List.drop_take]
      rw [add_comm i]
      congr 1
    rw [hpay, hdata, hoff, hlen, List.drop_take, List.drop_drop]
  · intro h0
    have hi0 : i = 0 := by omega
    subst hi0
    rw [Frent.cut_zero h] at h0 ⊢
    exact h.good.whole h0

theorem Agrees.mono (h : Agrees D src e) (hsub : ∀ e, src e → src' e) : Agrees D src' e :=
  ⟨h.fin, h.more, h.data, fun h0 => hsub e (h.whole h0)⟩

theorem Consistent.mono (h : Consistent good st) (hsub : ∀ e, good e → good' e) :
    Consistent good' st := by
  obtain ⟨frag, n⟩ := st
  cases frag with
  | none => exact h
  | some frag =>
    obtain ⟨hent, hn⟩ := h
    exact ⟨⟨hent.ne_nil, fun q hq => ⟨(hent.held q hq).len_pos, (hent.held q hq).fin_le,
      hsub q (hent.held q hq).good⟩, hent.ordered, hent.more⟩, hn⟩

theorem Agrees.not_badEnd (he : Agrees D src e) (hlast : Held (Agrees D src) last) :
    ¬ badEnd e last := by
  have h1 := he.fin
  have h2 := he.more
  have h3 := hlast.good.fin
  have h4 := hlast.good.more
  simp only [badEnd, u16_of_le hlast.fin_le]
  rintro (⟨hlt, hmff⟩ | hend)
  · exact hmff (h2.2 (by omega))
  · split at hend
    · next hl =>
      have hl' : last.fin = D.length := by
        by_contra hne
        exact hl (h4.2 hne)
      obtain hgt | ⟨heq, hmff⟩ := hend
      · omega
      · exact h2.1 hmff (heq.trans hl')
    · next hl =>
      have hl' : last.fin ≠ D.length := h4.1 (by simpa using hl)
      exact hend.2 (h2.2 (by omega))

/-- The first entry gives its header, and the entries together the payload. -/
theorem joined_eq (hchain : frents.Chain 0 (first :: queue) D.length)
    (hdata : ∀ q ∈ first :: queue, q.payload = (D.drop q.fe_off).take q.fe_len) :
    joined (first :: queue) = first.fe_m.take first.fe_hdrlen ++ D := by
  have hflat := hchain.flatMap hdata
  rw [List.flatMap_cons, Nat.sub_zero, List.drop_zero, List.take_length] at hflat
  have hhead : first.fe_m.take (first.fe_hdrlen + first.fe_len) =
      first.fe_m.take first.fe_hdrlen ++ first.payload := by
    rw [List.take_add, Frent.payload]
  rw [joined, hhead, List.append_assoc, hflat]

end Agrees

end OpenbsdKernel.PfNorm
