import OpenbsdKernel.Net.Pf.Reassemble

/-!
# Reassembly of IPv6 datagrams

`net/pf_norm.c`, `pf_reassemble6`: fragments with their own chains of extension headers. An
overlapping fragment discards the queue; a complete datagram is returned without the fragment
header, with the protocol of its first fragment written into a header found at `extoff`.
Allocations succeed, and `none` is a failed `KASSERT` or the `panic` on a short chain.
-/
namespace OpenbsdKernel.PfNorm

open Reassembly

/-- A packet as `pf_normalize_ip6` passes it: `hdrlen` counts the headers with the fragment
header, and `extoff` is the offset of the last extension header before it, or 0. -/
structure Packet6 where
  m : Mbuf
  hdrlen : ℕ
  extoff : ℕ
  deriving DecidableEq, Repr

/-- `ip6_plen`. -/
def Packet6.plen (p : Packet6) : ℕ := read16 p.m 4

/-- `ip6f_offlg` of the fragment header, in network order. -/
def Packet6.offlg (p : Packet6) : ℕ := read16 p.m (p.hdrlen - 6)

/-- `ip6f_nxt` of the fragment header. -/
def Packet6.nxt (p : Packet6) : BitVec 8 := p.m.getD (p.hdrlen - 8) 0#8

def ip6Frent (p : Packet6) : Frent where
  fe_m := p.m
  fe_hdrlen := p.hdrlen
  fe_extoff := p.extoff
  fe_len := u16 (2 ^ 16 + 40 + p.plen - p.hdrlen)
  fe_off := p.offlg / 8 * 8
  fe_mff := p.offlg % 2 = 1

/-- `struct pf_fragment_tag`. -/
structure FragmentTag where
  ft_hdrlen : ℕ
  ft_extoff : ℕ
  ft_maxlen : ℕ
  deriving DecidableEq, Repr

/-- What a call returns, leaves in `*m0` with its tag, the reason it sets and the state it
leaves. -/
structure Reassembled6 where
  action : Action
  m0 : Option Mbuf
  tag : Option FragmentTag
  reason : Option Reason
  st : State
  deriving DecidableEq, Repr

/-- Where the next-header field of the header at `extoff` is; without one it is `ip6_nxt`. -/
def nxtPlace (extoff : ℕ) : ℕ := if extoff = 0 then 6 else extoff

/-- `m_getptr` and a store: also the end of the chain is found, where nothing of the packet is. -/
def putByte (m : Mbuf) (i : ℕ) (b : BitVec 8) : Option Mbuf :=
  if i ≤ m.length then some (m.set i b) else none

/-- `frag6_deletefraghdr`. -/
def deleteFraghdr (m : Mbuf) (hdrlen : ℕ) : Mbuf := m.take hdrlen ++ m.drop (hdrlen + 8)

def pfReassemble6 (st : State) (p : Packet6) : Option Reassembled6 := do
  let frent := ip6Frent p
  let r ← pfFillupFragment true st.counted frent
  if r.kept = false then return ⟨.drop, some p.m, none, r.reason, r.st⟩
  let frag ← r.st.frag
  let full ← pfIsfullFragment frag
  if full = false then return ⟨.pass, none, none, r.reason, r.st⟩
  let extoff := frent.fe_extoff
  let maxlen := frag.fr_maxlen
  let first ← frag.fr_queue.head?
  let last ← frag.fr_queue.getLast?
  let total := u16 last.fin
  let hdrlen := u16 (2 ^ 16 + first.fe_hdrlen - 8)
  let (m, st) := pfJoinFragment r.st frag
  -- the protocol of the first fragment header
  let proto ← m[hdrlen]?
  let m := write16 (deleteFraghdr m hdrlen) 4 (u16 (hdrlen - 40 + total))
  let m ← putByte m (nxtPlace extoff) proto
  let tag := ⟨hdrlen, extoff, maxlen⟩
  if hdrlen - 40 + total > IP_MAXPACKET then
    return ⟨.drop, some (write16 m 4 0), some tag, some .short, st⟩
  return ⟨.pass, some m, some tag, r.reason, st⟩

def Reassembled6.packet (r : Reassembled6) : Option Mbuf :=
  if r.action = .pass then r.m0 else none

def Overlap (a b : Frent) : Prop := max a.fe_off b.fe_off < min a.fin b.fin

instance (a b : Frent) : Decidable (Overlap a b) := inferInstanceAs (Decidable (_ < _))

/-- The entries queued. -/
def State.queue (st : State) : List Frent := (st.frag.map Fragment.fr_queue).getD []

/-- The fragment overlaps one that is queued. -/
def Overlaps (st : State) (e : Frent) : Prop := ∃ q ∈ st.queue, Overlap e q

instance (st : State) (e : Frent) : Decidable (Overlaps st e) :=
  inferInstanceAs (Decidable (∃ q ∈ st.queue, Overlap e q))

def Refused (st : State) (e : Frent) : Prop :=
  badFragment e ∨ ∃ frag ∈ st.frag, ∃ last ∈ frag.fr_queue.getLast?, badEnd e last

/-- The ways through `pf_fillup_fragment` with IPv6. -/
inductive Filling6 (st : State) (e : Frent) : Filled → Prop
  | refused {frag} (h : Refused st e)
      (hfrag : frag.map Fragment.fr_queue = st.frag.map Fragment.fr_queue) :
      Filling6 st e ⟨⟨frag, st.pf_nfrents⟩, false, some .frag⟩
  | first (hbad : ¬ badFragment e) (h : st.frag = none) :
      Filling6 st e ⟨⟨some ⟨[e], e.fe_len⟩, 1⟩, true, none⟩
  | flushed {frag} (hnot : ¬ Refused st e) (h : st.frag = some frag)
      (hov : ∃ q ∈ frag.fr_queue, Overlap e q) : Filling6 st e ⟨⟨none, 0⟩, false, some .frag⟩
  | placed {frag queue'} (hnot : ¬ Refused st e) (h : st.frag = some frag)
      (hov : ∀ q ∈ frag.fr_queue, ¬ Overlap e q)
      (hins : frents.insert e frag.fr_queue = some queue')
      (hperm : queue'.Perm (e :: frag.fr_queue)) :
      Filling6 st e ⟨⟨some ⟨queue', max e.fe_len frag.fr_maxlen⟩, queue'.length⟩, true, none⟩

section Filling6

variable {good : Frent → Prop} {st : State} {e : Frent} {queue : List Frent}

theorem overlap_iff (h : Entries good queue) (he : Held good e) :
    (∃ q ∈ queue, Overlap e q) ↔
      (∃ p ∈ (frents.before e queue).getLast?, p.fin > e.fe_off) ∨
        ∃ q ∈ (frents.after e queue).head?, e.fin > q.fe_off := by
  have hpos := he.len_pos
  constructor
  · rintro ⟨q, hq, hov⟩
    rw [Overlap, max_lt_iff, lt_min_iff, lt_min_iff] at hov
    rw [← frents.before_append_after e queue] at hq
    obtain hq | hq := List.mem_append.1 hq
    · obtain ⟨p, hp⟩ := Option.isSome_iff_exists.1 (List.getLast?_isSome.2 (List.ne_nil_of_mem hq))
      refine .inl ⟨p, hp, ?_⟩
      have := h.ordered.before.fin_le_last hp hq
      simp only [frents_fin] at this
      omega
    · obtain ⟨r, t, heq⟩ := List.exists_cons_of_ne_nil (List.ne_nil_of_mem hq)
      refine .inr ⟨r, by rw [heq]; rfl, ?_⟩
      have hord := h.ordered.after (e := e)
      rw [heq] at hord hq
      obtain rfl | hq := List.mem_cons.1 hq
      · exact hov.2.1
      · have := hord.off_le hq
        simp only [frents_off] at this
        omega
  · rintro (⟨p, hp, hlt⟩ | ⟨q, hq, hlt⟩)
    · have hmem := List.mem_of_getLast? hp
      have hoff := Pieces.off_of_mem_before hmem
      refine ⟨p, Pieces.mem_of_mem_before hmem, ?_⟩
      simp only [Overlap, frents_off, Frent.fin] at *
      omega
    · have hmem : q ∈ frents.after e queue := List.mem_of_mem_head? hq
      have hoff := h.ordered.off_of_mem_after hmem
      have hq' := (h.held q (Pieces.mem_of_mem_after hmem)).len_pos
      refine ⟨q, Pieces.mem_of_mem_after hmem, ?_⟩
      simp only [Overlap, frents_off, Frent.fin] at *
      omega

theorem insert_of_disjoint (hfront : ¬ ∃ p ∈ (frents.before e queue).getLast?, p.fin > e.fe_off)
    (hafter : ¬ ∃ q ∈ (frents.after e queue).head?, e.fin > q.fe_off) :
    frents.insert e queue = some (frents.before e queue ++ e :: frents.after e queue) := by
  have htrim : frents.trimFront e (frents.before e queue).getLast? = some e := by
    cases hl : (frents.before e queue).getLast? with
    | none => rfl
    | some p =>
      have hp : p.fin ≤ e.fe_off := by
        by_contra hlt
        exact hfront ⟨p, hl, not_le.1 hlt⟩
      simp [Pieces.trimFront, hp]
  have hkeep : frents.trimAfter e (frents.after e queue) = frents.after e queue := by
    cases ha : frents.after e queue with
    | nil => rfl
    | cons q t =>
      refine Pieces.trimAfter_stop ?_
      by_contra hlt
      exact hafter ⟨q, by rw [ha]; rfl, not_le.1 hlt⟩
  rw [Pieces.insert, htrim, Option.map_some, hkeep]

theorem pfFillupFragment_inet6 (h : Consistent good st) (he : ¬ badFragment e → good e) :
    ∃ r, pfFillupFragment true st.counted e = some r ∧ Filling6 st e r := by
  unfold pfFillupFragment
  split
  · next hbad => exact ⟨_, rfl, .refused (.inl hbad) rfl⟩
  next hbad =>
  have hheld := Held.of_not_bad hbad (he hbad)
  obtain ⟨frag, n⟩ := st
  cases frag with
  | none =>
    have hn : n = 0 := h
    subst hn
    exact ⟨_, rfl, .first hbad rfl⟩
  | some frag =>
    obtain ⟨hent, hn⟩ : Entries good frag.fr_queue ∧ n = frag.fr_queue.length := h
    obtain ⟨last, hlast⟩ := Option.isSome_iff_exists.1 (List.getLast?_isSome.2 hent.ne_nil)
    simp only [State.counted, hlast]
    split
    · next hend => exact ⟨_, rfl, .refused (.inr ⟨frag, rfl, last, hlast, hend⟩) rfl⟩
    next hend =>
    have hnot : ¬ Refused ⟨some frag, n⟩ e := by
      rintro (hb | ⟨_, ⟨⟩, last', hl', hend'⟩)
      · exact hbad hb
      · obtain rfl : last' = last := by simpa using hl'.symm.trans hlast
        exact hend hend'
    have hsplit : frents.before e frag.fr_queue ++ frents.after e frag.fr_queue = frag.fr_queue :=
      frents.before_append_after e frag.fr_queue
    have hnil : ¬ (frents.before e frag.fr_queue = [] ∧ frents.after e frag.fr_queue = []) := by
      rintro ⟨h1, h2⟩
      rw [h1, h2] at hsplit
      exact hent.ne_nil hsplit.symm
    have hiff := overlap_iff hent hheld
    have hflush : (⟨⟨none, n + 1 - frag.fr_queue.length - 1⟩, false, some .frag⟩ : Filled) =
        ⟨⟨none, 0⟩, false, some .frag⟩ := by
      have h0 : n + 1 - frag.fr_queue.length - 1 = 0 := by omega
      rw [h0]
    change ∃ r, placeFrent true _ _ e (frents.before e frag.fr_queue) (frents.after e frag.fr_queue) =
      some r ∧ _
    by_cases hfront : ∃ p ∈ (frents.before e frag.fr_queue).getLast?, p.fin > e.fe_off
    · refine ⟨_, ?_, .flushed hnot rfl (hiff.2 (.inl hfront))⟩
      simp only [placeFrent, if_neg hnil, precut_inet6, if_pos hfront, dropFrent, pfFreeFragment,
        Option.map_some, Option.getD_some, hflush]
    by_cases hafter : ∃ q ∈ (frents.after e frag.fr_queue).head?, e.fin > q.fe_off
    · refine ⟨_, ?_, .flushed hnot rfl (hiff.2 (.inr hafter))⟩
      simp only [placeFrent, if_neg hnil, precut_inet6, if_neg hfront, cutAfter_inet6, if_pos hafter,
        dropFrent, pfFreeFragment, Option.map_some, Option.getD_some, hflush]
    · have hov : ∀ q ∈ frag.fr_queue, ¬ Overlap e q := by
        intro q hq hov
        exact (hiff.1 ⟨q, hq, hov⟩).elim hfront hafter
      have hperm : (frents.before e frag.fr_queue ++ e :: frents.after e frag.fr_queue).Perm
          (e :: (frents.before e frag.fr_queue ++ frents.after e frag.fr_queue)) := List.perm_middle
      rw [hsplit] at hperm
      have hlen : n + 1 = (frents.before e frag.fr_queue ++ e :: frents.after e frag.fr_queue).length := by
        rw [hperm.length_eq, hn, List.length_cons]
      refine ⟨_, ?_, .placed hnot rfl hov (insert_of_disjoint hfront hafter) hperm⟩
      simp only [placeFrent, if_neg hnil, precut_inet6, if_neg hfront, cutAfter_inet6, if_neg hafter]
      rw [hlen]

theorem Filling6.consistent {r : Filled} (hgood : Stable good) (h : Consistent good st)
    (he : ¬ badFragment e → good e) (hr : Filling6 st e r) : Consistent good r.st := by
  cases hr with
  | @refused frag _ hfrag =>
    obtain ⟨frag₀, n⟩ := st
    cases frag₀ with
    | none =>
      obtain rfl : frag = none := by simpa using hfrag
      exact h
    | some frag₀ =>
      obtain ⟨frag', rfl, hq⟩ : ∃ frag', frag = some frag' ∧ frag'.fr_queue = frag₀.fr_queue := by
        simpa [Option.map_eq_some_iff] using hfrag
      simp only [Consistent] at h ⊢
      rw [hq]
      exact h
  | first hbad _ => exact ⟨.single (.of_not_bad hbad (he hbad)), rfl⟩
  | flushed _ _ _ => rfl
  | placed hnot hfrag _ hins _ =>
    simp only [Consistent, hfrag] at h
    have hbad : ¬ badFragment e := fun hb => hnot (.inl hb)
    obtain ⟨last, hlast⟩ := Option.isSome_iff_exists.1 (List.getLast?_isSome.2 h.1.ne_nil)
    have hend : ¬ badEnd e last := fun hb => hnot (.inr ⟨_, hfrag, last, hlast, hb⟩)
    exact ⟨h.1.insert hgood (.of_not_bad hbad (he hbad)) hlast hend hins, rfl⟩

end Filling6

/-- What a call that returns comes to. -/
inductive Call6 (st : State) (p : Packet6) (r : Reassembled6) : Prop
  | waits {fr} (hfill : Filling6 st (ip6Frent p) fr) (hst : r.st = fr.st) (hquiet : r.packet = none)
  | complete {fr} (hfill : Filling6 st (ip6Frent p) fr) (hkept : fr.kept = true)
      (hst : r.st = ⟨none, 0⟩)

section Call6

variable {good : Frent → Prop} {st : State} {p : Packet6} {r : Reassembled6}

theorem pfReassemble6_call (hgood : Stable good) (h : Consistent good st)
    (he : ¬ badFragment (ip6Frent p) → good (ip6Frent p)) (hcall : pfReassemble6 st p = some r) :
    Call6 st p r := by
  obtain ⟨fr, hrun, hfill⟩ := pfFillupFragment_inet6 h he
  have hcons := hfill.consistent hgood h he
  cases hkept : fr.kept with
  | false =>
    simp only [pfReassemble6, hrun, hkept, Option.bind_eq_bind, Option.bind_some, if_true] at hcall
    cases hcall
    exact .waits hfill rfl rfl
  | true =>
    obtain ⟨frag, hfrag⟩ : ∃ frag, fr.st.frag = some frag := by
      cases hfill with
      | refused _ _ => cases hkept
      | first _ _ => exact ⟨_, rfl⟩
      | flushed _ _ _ => cases hkept
      | placed _ _ _ _ _ => exact ⟨_, rfl⟩
    obtain ⟨hent, hn⟩ : Entries good frag.fr_queue ∧ fr.st.pf_nfrents = frag.fr_queue.length := by
      simpa only [Consistent, hfrag] using hcons
    obtain ⟨last, hlast⟩ := Option.isSome_iff_exists.1 (List.getLast?_isSome.2 hent.ne_nil)
    obtain ⟨full, hfull, -⟩ := pfIsfullFragment_eq hent hlast
    cases full with
    | false =>
      simp only [pfReassemble6, hrun, hkept, hfrag, hfull, Option.bind_eq_bind, Option.bind_some,
        if_true, if_false, Bool.true_eq_false] at hcall
      cases hcall
      exact .waits hfill rfl rfl
    | true =>
      refine .complete hfill hkept ?_
      have hst : (⟨none, fr.st.pf_nfrents - frag.fr_queue.length⟩ : State) = ⟨none, 0⟩ := by
        rw [hn, Nat.sub_self]
      simp only [pfReassemble6, hrun, hkept, hfrag, hfull, hlast, pfJoinFragment, hst,
        Option.bind_eq_bind, Option.bind_some, if_false, Bool.true_eq_false,
        Option.bind_eq_some_iff] at hcall
      obtain ⟨first, -, proto, -, m, -, hcall⟩ := hcall
      split at hcall
      all_goals
        cases hcall
        rfl

theorem Call6.consistent (hgood : Stable good) (h : Consistent good st)
    (he : ¬ badFragment (ip6Frent p) → good (ip6Frent p)) (hr : Call6 st p r) :
    Consistent good r.st := by
  cases hr with
  | waits hfill hst _ =>
    rw [hst]
    exact hfill.consistent hgood h he
  | complete _ _ hst =>
    rw [hst]
    rfl

theorem Call6.discards_iff (hr : Call6 st p r) :
    (Overlaps st (ip6Frent p) → r.st.frag = none ∧ r.packet = none) ↔
      ¬ (Overlaps st (ip6Frent p) ∧ Refused st (ip6Frent p)) := by
  by_cases hov : Overlaps st (ip6Frent p)
  swap
  · simp [hov]
  simp only [hov, true_imp_iff, true_and]
  obtain ⟨q, hq, hq'⟩ := hov
  have hmem : ∀ {frag}, st.frag = some frag → q ∈ frag.fr_queue := by
    intro frag hfrag
    simpa only [State.queue, hfrag, Option.map_some, Option.getD_some] using hq
  cases hr with
  | waits hfill hst hquiet =>
    rw [hst]
    cases hfill with
    | @refused frag href hfrag =>
      refine ⟨fun hnone => absurd hnone.1 ?_, fun hnot => absurd href hnot⟩
      simp only
      rintro rfl
      rw [State.queue, ← hfrag] at hq
      simp at hq
    | first _ hnone =>
      rw [State.queue, hnone] at hq
      simp at hq
    | flushed hnot _ _ => exact ⟨fun _ => hnot, fun _ => ⟨rfl, hquiet⟩⟩
    | placed _ hfrag hno _ _ => exact absurd hq' (hno q (hmem hfrag))
  | complete hfill hkept _ =>
    cases hfill with
    | refused _ _ => cases hkept
    | first _ hnone =>
      rw [State.queue, hnone] at hq
      simp at hq
    | flushed _ _ _ => cases hkept
    | placed _ hfrag hno _ _ => exact absurd hq' (hno q (hmem hfrag))

theorem Call6.not_overlaps (hr : Call6 st p r) (hpacket : r.packet ≠ none) :
    ¬ Overlaps st (ip6Frent p) := by
  rintro ⟨q, hq, hov⟩
  cases hr with
  | waits _ _ hquiet => exact hpacket hquiet
  | complete hfill hkept _ =>
    cases hfill with
    | refused _ _ => cases hkept
    | first _ hnone =>
      rw [State.queue, hnone] at hq
      simp at hq
    | flushed _ _ _ => cases hkept
    | placed _ hfrag hno _ _ =>
      rw [State.queue, hfrag] at hq
      exact hno q (by simpa using hq) hov

end Call6

/-- Runs with the fragments of one datagram all of whose calls satisfy `P`. The flag says that
since the queue was created a fragment overlapped one that was queued. -/
inductive Run6 (P : State → Frent → Prop) : State → Bool → Prop
  | start : Run6 P .initial false
  | call {st tainted p r} (h : Run6 P st tainted) (hP : P st (ip6Frent p))
      (hcall : pfReassemble6 st p = some r) :
      Run6 P r.st (r.st.frag.isSome && (tainted || decide (Overlaps st (ip6Frent p))))

theorem Run6.consistent {P : State → Frent → Prop} {st : State} {tainted : Bool}
    (h : Run6 P st tainted) : Consistent (fun _ => True) st := by
  have hgood : Stable fun _ => True := fun _ _ _ _ => trivial
  induction h with
  | start => rfl
  | call _ _ hcall ih =>
    exact (pfReassemble6_call hgood ih (fun _ => trivial) hcall).consistent hgood ih fun _ => trivial

/-- Where no overlapping fragment is refused by the checks made before. -/
def Tested (st : State) (e : Frent) : Prop := ¬ (Overlaps st e ∧ Refused st e)

theorem Run6.untainted {st : State} {tainted : Bool} (h : Run6 Tested st tainted) :
    tainted = false := by
  have hgood : Stable fun _ => True := fun _ _ _ _ => trivial
  induction h with
  | start => rfl
  | @call st tainted p r h hP hcall ih =>
    rw [ih, Bool.false_or]
    by_cases hov : Overlaps st (ip6Frent p)
    · have hr := pfReassemble6_call hgood h.consistent (fun _ => trivial) hcall
      rw [(hr.discards_iff.2 hP hov).1]
      rfl
    · rw [decide_eq_false hov, Bool.and_false]

/-- In every state of every run an overlapping fragment discards the queue exactly when the
checks before do not refuse it; and in a run where they never do, no packet comes from a queue
that an overlapping fragment was received for. -/
theorem overlap_discards (st : State) (p : Packet6) (r : Reassembled6)
    (hcall : pfReassemble6 st p = some r) :
    (∀ P tainted, Run6 P st tainted →
      ((Overlaps st (ip6Frent p) → r.st.frag = none ∧ r.packet = none) ↔ Tested st (ip6Frent p))) ∧
    ∀ tainted, Run6 Tested st tainted → Tested st (ip6Frent p) → r.packet ≠ none →
      tainted = false ∧ ¬ Overlaps st (ip6Frent p) := by
  have hgood : Stable fun _ => True := fun _ _ _ _ => trivial
  constructor
  · intro P tainted h
    exact (pfReassemble6_call hgood h.consistent (fun _ => trivial) hcall).discards_iff
  · intro tainted h _ hpacket
    refine ⟨h.untainted, ?_⟩
    exact (pfReassemble6_call hgood h.consistent (fun _ => trivial) hcall).not_overlaps hpacket

def next6 (s : State × Bool) (p : Packet6) : Option (State × Bool) :=
  (pfReassemble6 s.1 p).map fun r =>
    (r.st, r.st.frag.isSome && (s.2 || decide (Overlaps s.1 (ip6Frent p))))

theorem Run6.next {P : State → Frent → Prop} {s s' : State × Bool} {p : Packet6}
    (h : Run6 P s.1 s.2) (hP : P s.1 (ip6Frent p)) (hs : next6 s p = some s') : Run6 P s'.1 s'.2 := by
  obtain ⟨r, hcall, rfl⟩ := Option.map_eq_some_iff.1 hs
  exact .call h hP hcall

theorem Run6.nextAll (ps : List Packet6) : ∀ {s s' : State × Bool}, Run6 (fun _ _ => True) s.1 s.2 →
    ps.foldlM next6 s = some s' → Run6 (fun _ _ => True) s'.1 s'.2 := by
  induction ps with
  | nil =>
    intro s s' h hs
    cases hs
    exact h
  | cons p ps ih =>
    intro s s' h hs
    rw [List.foldlM_cons, Option.bind_eq_bind, Option.bind_eq_some_iff] at hs
    obtain ⟨t, ht, hs⟩ := hs
    exact ih (h.next trivial ht) hs

/-- A fragment without extension headers, with `len` bytes at `off`. -/
def plain6 (off len : ℕ) (more : Bool) : Packet6 where
  m := [0x60, 0, 0, 0, 0, BitVec.ofNat 8 (8 + len), 44, 64] ++ List.replicate 32 0#8 ++
    [17, 0, 0, BitVec.ofNat 8 (off + more.toNat), 0, 0, 0, 1] ++ List.replicate len 7#8
  hdrlen := 48
  extoff := 0

theorem overlap_discards_two : ∃ st r, Run6 Tested st false ∧
    pfReassemble6 st (plain6 16 8 false) = some r ∧ r.packet ≠ none ∧
    ¬ Overlaps st (ip6Frent (plain6 16 8 false)) := by
  have hrun : ((next6 (.initial, false) (plain6 0 16 true)).bind fun s =>
      (pfReassemble6 s.1 (plain6 16 8 false)).map fun r =>
        (s.2, r.packet.isSome, decide (Overlaps s.1 (ip6Frent (plain6 16 8 false))))) =
      some (false, true, false) := by decide +kernel
  obtain ⟨⟨st, tainted⟩, hs, hrun⟩ := Option.bind_eq_some_iff.1 hrun
  obtain ⟨r, hr, heq⟩ := Option.map_eq_some_iff.1 hrun
  simp only [Prod.mk.injEq, decide_eq_false_iff_not] at heq
  obtain ⟨rfl, hpacket, hov⟩ := heq
  have hstart : Run6 Tested .initial false := .start
  have h := Run6.next (s := (.initial, false)) hstart (fun h => absurd h.1 (by decide +kernel)) hs
  have hne : r.packet ≠ none := Option.isSome_iff_ne_none.1 hpacket
  exact ⟨st, r, h, hr, hne,
    ((overlap_discards st _ r hr).2 false h (fun h => absurd h.1 hov) hne).2⟩

/-- The third fragment overlaps the first one, but is refused since it has no more fragments
behind it and ends before the second one; the queue stays, and is completed by the fourth. -/
theorem overlap_kept :
    (¬ ∀ st tainted p r, Run6 (fun _ _ => True) st tainted → pfReassemble6 st p = some r →
      Overlaps st (ip6Frent p) → r.st.frag = none ∧ r.packet = none) ∧
    ¬ ∀ st tainted p r, Run6 (fun _ _ => True) st tainted → pfReassemble6 st p = some r →
      r.packet ≠ none → tainted = false := by
  constructor
  · intro h
    have hrun : ([plain6 0 16 true, plain6 16 8 true].foldlM next6 (.initial, false)).bind
        (fun s => (pfReassemble6 s.1 (plain6 8 8 false)).map fun r =>
          (decide (Overlaps s.1 (ip6Frent (plain6 8 8 false))), r.st.frag.isSome)) =
        some (true, true) := by decide +kernel
    obtain ⟨s, hs, hrun⟩ := Option.bind_eq_some_iff.1 hrun
    obtain ⟨r, hr, heq⟩ := Option.map_eq_some_iff.1 hrun
    simp only [Prod.mk.injEq, decide_eq_true_eq] at heq
    have hnone := (h s.1 s.2 _ r (Run6.nextAll _ .start hs) hr heq.1).1
    rw [hnone] at heq
    cases heq.2
  · intro h
    have hrun : ([plain6 0 16 true, plain6 16 8 true, plain6 8 8 false].foldlM next6
        (.initial, false)).bind (fun s => (pfReassemble6 s.1 (plain6 24 8 false)).map fun r =>
          (s.2, r.packet.isSome)) = some (true, true) := by decide +kernel
    obtain ⟨s, hs, hrun⟩ := Option.bind_eq_some_iff.1 hrun
    obtain ⟨r, hr, heq⟩ := Option.map_eq_some_iff.1 hrun
    simp only [Prod.mk.injEq] at heq
    have hclean := h s.1 s.2 _ r (Run6.nextAll _ .start hs) hr (Option.isSome_iff_ne_none.1 heq.2)
    rw [hclean] at heq
    cases heq.1

/-- A fragment of the datagram with payload `D`, with headers of its own in front: the headers
are whole, the data are those of the datagram at its place, and it has more fragments behind it
unless it reaches the end. The first headers and the payload make no more than a packet. -/
structure FragmentOf6 (D : Mbuf) (p : Packet6) : Prop where
  hdrlen : 48 ≤ p.hdrlen
  word : p.hdrlen < 2 ^ 16
  ext : p.extoff = 0 ∨ (40 ≤ p.extoff ∧ p.extoff < p.hdrlen - 8)
  len : p.hdrlen ≤ 40 + p.plen
  size : 40 + p.plen ≤ p.m.length
  payload : D.length ≤ IP_MAXPACKET
  first : p.offlg / 8 = 0 → p.hdrlen - 48 + D.length ≤ IP_MAXPACKET
  fin : p.offlg / 8 * 8 + (40 + p.plen - p.hdrlen) ≤ D.length
  data : (p.m.drop p.hdrlen).take (40 + p.plen - p.hdrlen) =
    (D.drop (p.offlg / 8 * 8)).take (40 + p.plen - p.hdrlen)
  more : p.offlg % 2 = 1 ↔ p.offlg / 8 * 8 + (40 + p.plen - p.hdrlen) ≠ D.length
  aligned : p.offlg % 2 = 1 → (40 + p.plen - p.hdrlen) % 8 = 0

def Brings6 (p : Packet6) (x : ℕ) : Prop :=
  p.offlg / 8 * 8 ≤ x ∧ x < p.offlg / 8 * 8 + (40 + p.plen - p.hdrlen)

def Received6 (D : Mbuf) (ps : List Packet6) : Prop := ∀ x < D.length, ∃ p ∈ ps, Brings6 p x

def Disjoint6 (ps : List Packet6) : Prop :=
  ps.Pairwise fun p p' => ¬ Overlap (ip6Frent p) (ip6Frent p')

/-- The headers of a fragment without the fragment header, with the length of the datagram, and
the datagram behind them. -/
def unfragmented (p : Packet6) (D : Mbuf) : Mbuf :=
  write16 (p.m.take (p.hdrlen - 8)) 4 (p.hdrlen - 48 + D.length) ++ D

/-- The whole datagram, with the protocol of the fragment header in the last header of the
fragment's own chain. -/
def datagram6 (p : Packet6) (D : Mbuf) : Mbuf := (unfragmented p D).set (nxtPlace p.extoff) p.nxt

def Sent6 (D : Mbuf) (ps : List Packet6) (e : Frent) : Prop :=
  ∃ p ∈ ps, FragmentOf6 D p ∧ e = ip6Frent p

def feed6 : State → List Packet6 → Option (List Reassembled6 × State)
  | st, [] => some ([], st)
  | st, p :: ps => do
    let r ← pfReassemble6 st p
    let (rs, st) ← feed6 r.st ps
    return (r :: rs, st)

section Datagram6

variable {D : Mbuf} {ps : List Packet6} {p : Packet6}

theorem FragmentOf6.fe_len (h : FragmentOf6 D p) :
    (ip6Frent p).fe_len = 40 + p.plen - p.hdrlen := by
  have h1 := h.len
  have h2 := h.fin
  have h3 := h.payload
  simp only [ip6Frent, u16, IP_MAXPACKET] at *
  omega

theorem FragmentOf6.fin_eq (h : FragmentOf6 D p) :
    (ip6Frent p).fin = p.offlg / 8 * 8 + (40 + p.plen - p.hdrlen) := by
  rw [Frent.fin, h.fe_len]
  rfl

theorem FragmentOf6.has_iff (h : FragmentOf6 D p) {x : ℕ} :
    frents.Has (ip6Frent p) x ↔ Brings6 p x := by
  simp only [Pieces.Has, frents_fin, h.fin_eq]
  rfl

theorem FragmentOf6.agrees (h : FragmentOf6 D p) (hp : p ∈ ps) :
    Agrees D (Sent6 D ps) (ip6Frent p) := by
  refine ⟨?_, ?_, ?_, fun _ => ⟨p, hp, h, rfl⟩⟩
  · rw [h.fin_eq]
    exact h.fin
  · rw [h.fin_eq, ← h.more]
    simp [ip6Frent]
  · rw [Frent.payload, h.fe_len]
    exact h.data

theorem FragmentOf6.bad_iff (h : FragmentOf6 D p) :
    badFragment (ip6Frent p) ↔ 40 + p.plen - p.hdrlen = 0 := by
  have hfits := h.payload
  have hfin := h.fin
  have hal := h.aligned
  have hmff : (ip6Frent p).fe_mff = true ↔ p.offlg % 2 = 1 := by simp [ip6Frent]
  rw [badFragment, h.fin_eq, h.fe_len, hmff]
  constructor
  · rintro (h0 | ⟨hmf, h8⟩ | hmax)
    · exact h0
    · exact absurd (hal hmf) h8
    · omega
  · exact fun h0 => .inl h0

theorem Sent6.cons {p : Packet6} {e : Frent} (h : Sent6 D ps e) : Sent6 D (p :: ps) e :=
  h.imp fun _ hp => ⟨List.mem_cons_of_mem _ hp.1, hp.2⟩

end Datagram6

/-- The queue holds the fragments received since the last packet, as they were received. -/
structure Collected6 (D : Mbuf) (ps : List Packet6) (st : State) : Prop where
  consistent : Consistent (Agrees D (Sent6 D ps)) st
  sent : ∀ q ∈ st.queue, Sent6 D ps q
  covers : ∀ x, frents.Covers st.queue x ↔ ∃ p ∈ ps, Brings6 p x

section Collected6

variable {D : Mbuf} {ps : List Packet6} {p : Packet6} {st : State}

theorem Collected6.start (D : Mbuf) : Collected6 D [] .initial :=
  ⟨rfl, by simp [State.queue, State.initial], fun x => by simp [State.queue, State.initial]⟩

theorem Collected6.fill {fr : Filled} (h : Collected6 D ps st) (hp : FragmentOf6 D p)
    (hdis : ∀ p' ∈ ps, ¬ Overlap (ip6Frent p) (ip6Frent p')) (hfill : Filling6 st (ip6Frent p) fr) :
    Collected6 D (p :: ps) fr.st ∧ (fr.kept = false → ∀ x, ¬ Brings6 p x) := by
  have hcons : Consistent (Agrees D (Sent6 D (p :: ps))) st :=
    h.consistent.mono fun _ he => he.mono fun _ => Sent6.cons
  have hgood := stable_agrees D (Sent6 D (p :: ps))
  have hagree : Agrees D (Sent6 D (p :: ps)) (ip6Frent p) := hp.agrees (by simp)
  have hst := hfill.consistent hgood hcons fun _ => hagree
  cases hfill with
  | @refused frag href hfrag =>
    have hq : (⟨frag, st.pf_nfrents⟩ : State).queue = st.queue := by
      simp only [State.queue, hfrag]
    have hnone : ∀ x, ¬ Brings6 p x := by
      obtain hbad | ⟨frag₀, hfrag₀, last, hlast, hend⟩ := href
      · have h0 := hp.bad_iff.1 hbad
        intro x
        simp only [Brings6]
        omega
      · have hfrag₀' : st.frag = some frag₀ := hfrag₀
        simp only [Consistent, hfrag₀'] at hcons
        exact absurd hend (hagree.not_badEnd (hcons.1.held last (List.mem_of_getLast? hlast)))
    refine ⟨⟨hst, fun q hq' => ?_, fun x => ?_⟩, fun _ => hnone⟩
    · rw [hq] at hq'
      exact (h.sent q hq').cons
    · rw [hq, h.covers x]
      simp [hnone x]
  | first hbad hnone =>
    have hempty := h.covers
    simp only [State.queue, hnone, Option.map_none, Option.getD_none, Pieces.covers_nil, false_iff]
      at hempty
    refine ⟨⟨hst, fun q hq => ?_, fun x => ?_⟩, by rintro ⟨⟩⟩
    · obtain rfl : q = ip6Frent p := by simpa [State.queue] using hq
      exact ⟨p, by simp, hp, rfl⟩
    · have hx := hempty x
      have hhas := hp.has_iff (x := x)
      simp only [State.queue, Option.map_some, Option.getD_some, Pieces.covers_cons,
        Pieces.covers_nil, or_false, hhas, List.mem_cons, exists_eq_or_imp]
      exact ⟨.inl, fun h => h.resolve_right hx⟩
  | @flushed frag hnot hfrag hov =>
    exfalso
    obtain ⟨q, hq, hov⟩ := hov
    obtain ⟨p', hp', -, rfl⟩ := h.sent q (by simpa [State.queue, hfrag] using hq)
    exact hdis p' hp' hov
  | @placed frag queue' hnot hfrag hov hins hperm =>
    have hbad : ¬ badFragment (ip6Frent p) := fun hb => hnot (.inl hb)
    have hold : st.queue = frag.fr_queue := by simp [State.queue, hfrag]
    simp only [Consistent, hfrag] at hcons
    refine ⟨⟨hst, fun q hq => ?_, fun x => ?_⟩, by rintro ⟨⟩⟩
    · have hq' : q ∈ ip6Frent p :: frag.fr_queue := hperm.mem_iff.1 (by simpa [State.queue] using hq)
      obtain rfl | hq' := List.mem_cons.1 hq'
      · exact ⟨p, by simp, hp, rfl⟩
      · exact (h.sent q (hold ▸ hq')).cons
    · have hcov := hgood.lawful.covers_insert (x := x) hcons.1.held (.of_not_bad hbad hagree)
        hcons.1.ordered hins
      have hx := h.covers x
      rw [hold] at hx
      simp only [State.queue, Option.map_some, Option.getD_some, hcov, hx, hp.has_iff, List.mem_cons,
        exists_eq_or_imp]
      exact or_comm

theorem deleteFraghdr_joined (hp : FragmentOf6 D p) :
    (p.m.take p.hdrlen ++ D)[p.hdrlen - 8]? = some p.nxt ∧
      deleteFraghdr (p.m.take p.hdrlen ++ D) (p.hdrlen - 8) = p.m.take (p.hdrlen - 8) ++ D := by
  have h1 := hp.hdrlen
  have h2 := hp.len
  have h3 := hp.size
  have hlen : (p.m.take p.hdrlen).length = p.hdrlen := by
    rw [List.length_take]
    omega
  constructor
  · have hlt : p.hdrlen - 8 < p.m.length := by omega
    rw [List.getElem?_append_left (by omega), List.getElem?_take_of_lt (by omega), Packet6.nxt,
      List.getElem?_eq_getElem hlt, List.getD_eq_getElem _ _ hlt]
  · have hsum : p.hdrlen - 8 + 8 = p.hdrlen := by omega
    rw [deleteFraghdr, hsum, List.take_append_of_le_length (by omega), List.take_take,
      Nat.min_eq_left (by omega), List.drop_append_of_le_length hlen.ge,
      List.drop_eq_nil_of_le hlen.le, List.nil_append]

theorem Collected6.step (h : Collected6 D ps st) (hD : D ≠ []) (hnot : ¬ Received6 D ps)
    (hp : FragmentOf6 D p) (hdis : ∀ p' ∈ ps, ¬ Overlap (ip6Frent p) (ip6Frent p')) :
    (¬ Received6 D (p :: ps) ∧ ∃ r, pfReassemble6 st p = some r ∧ r.packet = none ∧
        Collected6 D (p :: ps) r.st) ∨
      (Received6 D (p :: ps) ∧ ∃ p₁ ∈ p :: ps, FragmentOf6 D p₁ ∧ Brings6 p₁ 0 ∧
        ∃ tag reason, pfReassemble6 st p =
          (putByte (unfragmented p₁ D) (nxtPlace p.extoff) p₁.nxt).map fun m =>
            ⟨.pass, some m, some tag, reason, .initial⟩) := by
  have hcons : Consistent (Agrees D (Sent6 D (p :: ps))) st :=
    h.consistent.mono fun _ he => he.mono fun _ => Sent6.cons
  have hgood := stable_agrees D (Sent6 D (p :: ps))
  have hagree : ¬ badFragment (ip6Frent p) → Agrees D (Sent6 D (p :: ps)) (ip6Frent p) :=
    fun _ => hp.agrees (by simp)
  obtain ⟨fr, hrun, hfill⟩ := pfFillupFragment_inet6 hcons hagree
  obtain ⟨hcol, hempty⟩ := h.fill hp hdis hfill
  cases hkept : fr.kept with
  | false =>
    refine .inl ⟨fun hrec => hnot fun x hx => ?_, ⟨.drop, some p.m, none, fr.reason, fr.st⟩, ?_, rfl, hcol⟩
    · obtain ⟨p', hp', hx'⟩ := hrec x hx
      obtain rfl | hp' := List.mem_cons.1 hp'
      · exact absurd hx' (hempty hkept x)
      · exact ⟨p', hp', hx'⟩
    · simp [pfReassemble6, hrun, hkept]
  | true =>
    obtain ⟨frag, hfrag⟩ : ∃ frag, fr.st.frag = some frag := by
      cases hfill with
      | refused _ _ => cases hkept
      | first _ _ => exact ⟨_, rfl⟩
      | flushed _ _ _ => cases hkept
      | placed _ _ _ _ _ => exact ⟨_, rfl⟩
    have hqueue' : fr.st.queue = frag.fr_queue := by simp [State.queue, hfrag]
    obtain ⟨hent, hn⟩ : Entries (Agrees D (Sent6 D (p :: ps))) frag.fr_queue ∧
        fr.st.pf_nfrents = frag.fr_queue.length := by
      simpa only [Consistent, hfrag] using hcol.consistent
    obtain ⟨last, hlast⟩ := Option.isSome_iff_exists.1 (List.getLast?_isSome.2 hent.ne_nil)
    have hlast' := hent.held last (List.mem_of_getLast? hlast)
    obtain ⟨full, hfull, hiff⟩ := pfIsfullFragment_eq hent hlast
    have hcov := hcol.covers
    rw [hqueue'] at hcov
    cases full with
    | false =>
      refine .inl ⟨fun hrec => ?_, ⟨.pass, none, none, fr.reason, fr.st⟩, ?_, rfl, hcol⟩
      · -- the last entry would reach the end and the queue would be full
        have hfin : last.fin = D.length := by
          have hpos : 0 < D.length := List.length_pos_of_ne_nil hD
          obtain ⟨q, hq, hx⟩ := (hcov (D.length - 1)).2 (hrec _ (by omega))
          have h1 := hent.ordered.fin_le_last hlast hq
          have h2 := hlast'.good.fin
          have h3 := hx.2
          simp only [frents_fin] at h1 h3
          omega
        have hmff : last.fe_mff = false := by
          by_contra hmff
          exact hlast'.good.more.1 (by simpa using hmff) hfin
        exact absurd (hiff.2 ⟨hmff, fun x hx => (hcov x).2 (hrec x (hfin ▸ hx))⟩) (by simp)
      · simp [pfReassemble6, hrun, hkept, hfrag, hfull]
    | true =>
      obtain ⟨hmff, hall⟩ := hiff.1 rfl
      have hfin : last.fin = D.length := by
        by_contra hne
        rw [hlast'.good.more.2 hne] at hmff
        cases hmff
      rw [hfin] at hall
      obtain ⟨first, queue, hqueue⟩ := List.exists_cons_of_ne_nil hent.ne_nil
      have hchain := (hent.chain_iff hlast).2 (hfin ▸ hall)
      rw [hfin, hqueue] at hchain
      obtain ⟨p₁, hp₁, hfrag₁, heq⟩ := (hent.held first (by simp [hqueue])).good.whole hchain.1
      refine .inr ⟨fun x hx => (hcov x).1 (hall x hx), p₁, hp₁, hfrag₁, ?_,
        ⟨p₁.hdrlen - 8, p.extoff, frag.fr_maxlen⟩, fr.reason, ?_⟩
      · have hoff : first.fe_off = 0 := hchain.1
        have hpos := (hent.held first (by simp [hqueue])).len_pos
        rw [heq] at hoff
        rw [heq, hfrag₁.fe_len] at hpos
        simp only [Brings6, ip6Frent] at hoff ⊢
        omega
      · have hdata : ∀ q ∈ first :: queue, q.payload = (D.drop q.fe_off).take q.fe_len := fun q hq =>
          (hent.held q (hqueue ▸ hq)).good.data
        have hjoin : joined frag.fr_queue = p₁.m.take p₁.hdrlen ++ D := by
          rw [hqueue, joined_eq hchain hdata, heq]
          rfl
        obtain ⟨hproto, hdelete⟩ := deleteFraghdr_joined hfrag₁
        have h1 := hfrag₁.hdrlen
        have h2 := hfrag₁.word
        have hoff : p₁.offlg / 8 = 0 := by
          have h0 : first.fe_off = 0 := hchain.1
          rw [heq] at h0
          simp only [ip6Frent] at h0
          omega
        have h3 := hfrag₁.first hoff
        have h4 := hfrag₁.len
        have h5 := hfrag₁.size
        have hhdr : u16 (2 ^ 16 + first.fe_hdrlen - 8) = p₁.hdrlen - 8 := by
          rw [heq]
          simp only [ip6Frent, u16]
          omega
        have htotal : u16 last.fin = D.length := by
          rw [u16_of_le hlast'.fin_le, hfin]
        have hsize : p₁.hdrlen - 8 - 40 + D.length = p₁.hdrlen - 48 + D.length := by omega
        have hwrite : write16 (p₁.m.take (p₁.hdrlen - 8) ++ D) 4 (p₁.hdrlen - 48 + D.length) =
            unfragmented p₁ D := write16_append (by rw [List.length_take]; omega)
        have hst : (⟨none, fr.st.pf_nfrents - frag.fr_queue.length⟩ : State) = .initial := by
          rw [hn, Nat.sub_self]
          rfl
        have hhead : frag.fr_queue.head? = some first := by rw [hqueue]; rfl
        have hext : (ip6Frent p).fe_extoff = p.extoff := rfl
        simp only [pfReassemble6, hrun, hkept, hfrag, hfull, hhead, hlast, pfJoinFragment, hjoin, hhdr,
          htotal, hproto, hdelete, hsize, u16_of_le h3, hwrite, hst, hext, Option.bind_eq_bind,
          Option.bind_some, Bool.true_eq_false, if_false, gt_iff_lt, not_lt.2 h3]
        cases putByte (unfragmented p₁ D) (nxtPlace p.extoff) p₁.nxt <;> rfl

theorem Overlap.symm {a b : Frent} (h : Overlap a b) : Overlap b a := by
  rw [Overlap, max_comm, min_comm]
  exact h

theorem Collected6.feed (hD : D ≠ []) : ∀ {ps : List Packet6} {st : State} (next : List Packet6),
    Collected6 D ps st → (∀ p ∈ next, FragmentOf6 D p) → Disjoint6 next →
    (∀ p ∈ next, ∀ p' ∈ ps, ¬ Overlap (ip6Frent p) (ip6Frent p')) →
    ¬ Received6 D (next.reverse ++ ps) →
    ∃ rs st', feed6 st next = some (rs, st') ∧ (∀ r ∈ rs, r.packet = none) ∧
      Collected6 D (next.reverse ++ ps) st' := by
  intro ps st next
  induction next generalizing ps st with
  | nil =>
    intro h _ _ _ _
    exact ⟨[], st, rfl, by simp, by simpa using h⟩
  | cons p next ih =>
    intro h hnext hdis hold hnot
    rw [List.reverse_cons, List.append_assoc, List.singleton_append] at hnot ⊢
    have hsub : ∀ {ps' : List Packet6}, Received6 D ps' → ps' ⊆ next.reverse ++ p :: ps → False := by
      intro ps' hrec hsub
      exact hnot fun x hx => (hrec x hx).imp fun _ hp => ⟨hsub hp.1, hp.2⟩
    obtain ⟨hhead, hdis⟩ := List.pairwise_cons.1 hdis
    obtain ⟨-, r, hrun, hquiet, hcol⟩ | ⟨hrec, -⟩ := h.step hD (fun hrec => hsub hrec (by simp))
      (hnext p (by simp)) (hold p (by simp))
    · obtain ⟨rs, st', hfeed, hrs, hst'⟩ := ih hcol (fun p hp => hnext p (by simp [hp])) hdis
        (fun p' hp' q hq => by
          obtain rfl | hq := List.mem_cons.1 hq
          · exact fun hov => hhead p' hp' hov.symm
          · exact hold p' (by simp [hp']) q hq) hnot
      refine ⟨r :: rs, st', ?_, ?_, hst'⟩
      · simp [feed6, hrun, hfeed]
      · simpa using ⟨hquiet, hrs⟩
    · exact (hsub hrec (by simp)).elim

end Collected6

/-- The fragment that completes the datagram has its last extension header where the first one
has it, or the protocol is in both places already. -/
def SameHeader (p p₁ : Packet6) (D : Mbuf) : Prop :=
  p.extoff = p₁.extoff ∨
    ((unfragmented p₁ D)[nxtPlace p₁.extoff]? = some p₁.nxt ∧
      (nxtPlace p.extoff = (unfragmented p₁ D).length ∨
        (unfragmented p₁ D)[nxtPlace p.extoff]? = some p₁.nxt))

theorem set_eq_self_iff {α : Type*} {w : List α} {a : ℕ} {v : α} (ha : a < w.length) :
    w.set a v = w ↔ w[a]? = some v := by
  constructor
  · intro h
    rw [← h, List.getElem?_set_self (by simpa using ha)]
  · intro h
    refine List.ext_getElem? fun i => ?_
    by_cases hi : a = i
    · subst hi
      rw [List.getElem?_set_self ha, h]
    · rw [List.getElem?_set_ne hi]

theorem putByte_eq_iff {w : Mbuf} {a b : ℕ} {v : BitVec 8} (ha : a < w.length) :
    putByte w b v = some (w.set a v) ↔
      b = a ∨ (w[a]? = some v ∧ (b = w.length ∨ w[b]? = some v)) := by
  by_cases hab : b = a
  · subst hab
    simp [putByte, ha.le]
  simp only [hab, false_or, putByte]
  constructor
  · intro h
    split at h
    swap
    · cases h
    next hb =>
    have hset : w.set b v = w.set a v := by simpa using h
    have hat : w[a]? = some v := by
      have := congrArg (fun l => l[a]?) hset
      simp only [List.getElem?_set_self ha, List.getElem?_set_ne hab] at this
      exact this
    refine ⟨hat, ?_⟩
    obtain hlt | heq := hb.lt_or_eq
    · right
      have := congrArg (fun l => l[b]?) hset
      simp only [List.getElem?_set_self hlt, List.getElem?_set_ne (Ne.symm hab)] at this
      exact this.symm
    · exact .inl heq
  · rintro ⟨hat, hb⟩
    rw [(set_eq_self_iff ha).2 hat]
    obtain rfl | hbt := hb
    · rw [if_pos le_rfl, List.set_eq_of_length_le le_rfl]
    · have hlt : b < w.length := by
        by_contra hge
        rw [List.getElem?_eq_none (not_lt.1 hge)] at hbt
        cases hbt
      rw [if_pos hlt.le, (set_eq_self_iff hlt).2 hbt]

theorem FragmentOf6.place_lt {D : Mbuf} {p : Packet6} (h : FragmentOf6 D p) :
    nxtPlace p.extoff < (unfragmented p D).length := by
  have h1 := h.hdrlen
  have h2 := h.len
  have h3 := h.size
  have h4 := h.ext
  simp only [unfragmented, write16, List.length_append, List.length_set, List.length_take, nxtPlace]
  split <;> omega

theorem FragmentOf6.place_inj {D : Mbuf} {p p₁ : Packet6} (h : FragmentOf6 D p)
    (h₁ : FragmentOf6 D p₁) : nxtPlace p.extoff = nxtPlace p₁.extoff ↔ p.extoff = p₁.extoff := by
  have hp := h.ext
  have hp₁ := h₁.ext
  simp only [nxtPlace]
  split <;> split <;> omega

/-- Fragments that do not overlap, in any order, give nothing until they cover the datagram.
The fragment that completes it then gives the datagram behind the headers of the first fragment
exactly when its own last extension header is in the same place. -/
theorem pfReassemble6_iff {D : Mbuf} {ps : List Packet6} {p p₁ : Packet6} (hD : D ≠ [])
    (hps : ∀ p' ∈ ps ++ [p], FragmentOf6 D p') (hdis : Disjoint6 (ps ++ [p]))
    (hnot : ¬ Received6 D ps) (hrec : Received6 D (p :: ps)) (hp₁ : p₁ ∈ ps ++ [p])
    (hfirst : Brings6 p₁ 0) :
    ∃ rs st, feed6 .initial ps = some (rs, st) ∧ (∀ r ∈ rs, r.packet = none) ∧
      ((∃ r, pfReassemble6 st p = some r ∧ r.packet = some (datagram6 p₁ D)) ↔ SameHeader p p₁ D) := by
  have hrev : ∀ p : Packet6, p ∈ ps.reverse ++ [] ↔ p ∈ ps := by simp
  have hnot' : ¬ Received6 D (ps.reverse ++ []) := by
    intro h
    exact hnot fun x hx => (h x hx).imp fun p hp => ⟨(hrev p).1 hp.1, hp.2⟩
  obtain ⟨hdis', -, hcross⟩ := List.pairwise_append.1 hdis
  obtain ⟨rs, st, hfeed, hquiet, hcol⟩ := Collected6.feed hD ps (Collected6.start D)
    (fun p' hp' => hps p' (by simp [hp'])) hdis' (by simp) hnot'
  refine ⟨rs, st, hfeed, hquiet, ?_⟩
  have hp : FragmentOf6 D p := hps p (by simp)
  obtain ⟨hno, -⟩ | ⟨-, p₂, hp₂, hfrag₂, hfirst₂, tag, reason, hrun⟩ := hcol.step hD hnot' hp
    fun p' hp' hov => hcross p' ((hrev p').1 hp') p (by simp) hov.symm
  · refine absurd (fun x hx => ?_) hno
    obtain ⟨p', hp', hx'⟩ := hrec x hx
    exact ⟨p', by simpa using hp', hx'⟩
  -- both bring the first byte, so they are the same fragment
  have hfrag₁ := hps p₁ hp₁
  obtain rfl : p₂ = p₁ := by
    by_contra hne
    have hsymm : Std.Symm fun p p' => ¬ Overlap (ip6Frent p) (ip6Frent p') :=
      ⟨fun _ _ h hov => h hov.symm⟩
    have hov : ¬ Overlap (ip6Frent p₂) (ip6Frent p₁) :=
      List.Pairwise.forall hdis (by simpa [or_comm] using hp₂) hp₁ hne
    have h1 := hfirst₂
    have h2 := hfirst
    rw [Brings6] at h1 h2
    refine hov ?_
    rw [Overlap, hfrag₁.fin_eq, hfrag₂.fin_eq]
    simp only [ip6Frent]
    omega
  rw [hrun, SameHeader, ← hp.place_inj hfrag₁, ← putByte_eq_iff hfrag₁.place_lt]
  cases hput : putByte (unfragmented p₂ D) (nxtPlace p.extoff) p₂.nxt with
  | none => simp
  | some m => simp [Reassembled6.packet, datagram6]

theorem pfReassemble6_iff_two : ∃ rs st, feed6 .initial [plain6 8 8 false] = some (rs, st) ∧
    (∀ r ∈ rs, r.packet = none) ∧
    ((∃ r, pfReassemble6 st (plain6 0 8 true) = some r ∧
      r.packet = some (datagram6 (plain6 0 8 true) (List.replicate 16 7#8))) ↔
      SameHeader (plain6 0 8 true) (plain6 0 8 true) (List.replicate 16 7#8)) := by
  have h₁ : FragmentOf6 (List.replicate 16 7#8) (plain6 0 8 true) := ⟨by decide, by decide, by decide,
    by decide, by decide, by decide, by decide, by decide, by decide, by decide, by decide⟩
  have h₂ : FragmentOf6 (List.replicate 16 7#8) (plain6 8 8 false) := ⟨by decide, by decide, by decide,
    by decide, by decide, by decide, by decide, by decide, by decide, by decide, by decide⟩
  have hb₁ : ∀ x, Brings6 (plain6 0 8 true) x ↔ x < 8 := fun x => by
    have h0 : (plain6 0 8 true).offlg / 8 * 8 = 0 := by decide
    have h8 : 40 + (plain6 0 8 true).plen - (plain6 0 8 true).hdrlen = 8 := by decide
    simp only [Brings6, h0, h8]
    omega
  have hb₂ : ∀ x, Brings6 (plain6 8 8 false) x ↔ 8 ≤ x ∧ x < 16 := fun x => by
    have h0 : (plain6 8 8 false).offlg / 8 * 8 = 8 := by decide
    have h8 : 40 + (plain6 8 8 false).plen - (plain6 8 8 false).hdrlen = 8 := by decide
    simp only [Brings6, h0, h8]
  refine pfReassemble6_iff (by decide) ?_ ?_ ?_ ?_ (by simp) ((hb₁ 0).2 (by decide))
  · intro p hp
    obtain rfl | rfl : p = plain6 8 8 false ∨ p = plain6 0 8 true := by simpa using hp
    · exact h₂
    · exact h₁
  · exact List.pairwise_pair.2 (by decide)
  · intro h
    obtain ⟨p, hp, hx⟩ := h 0 (by decide)
    rw [List.mem_singleton.1 hp, hb₂] at hx
    omega
  · intro x hx
    have h16 : x < 16 := hx
    by_cases h8 : x < 8
    · exact ⟨_, by simp, (hb₁ x).2 h8⟩
    · exact ⟨_, List.mem_cons_of_mem _ (List.mem_singleton.2 rfl), (hb₂ x).2 (by omega)⟩

def opts6 (off len : ℕ) (more : Bool) : Packet6 where
  m := [0x60, 0, 0, 0, 0, BitVec.ofNat 8 (16 + len), 60, 64] ++ List.replicate 32 0#8 ++
    [44, 0, 1, 4, 0, 0, 0, 0] ++ [17, 0, 0, BitVec.ofNat 8 (off + more.toNat), 0, 0, 0, 1] ++
    List.replicate len 7#8
  hdrlen := 56
  extoff := 40

/-- With the second fragment last, the protocol is written where that fragment has its options,
into the data of the datagram. -/
theorem header_of_last : ¬ ∀ (D : Mbuf) (ps : List Packet6) (p p₁ : Packet6), D ≠ [] →
    (∀ p' ∈ ps ++ [p], FragmentOf6 D p') → Disjoint6 (ps ++ [p]) → ¬ Received6 D ps →
    Received6 D (p :: ps) → p₁ ∈ ps ++ [p] → Brings6 p₁ 0 →
    ∃ rs st r, feed6 .initial ps = some (rs, st) ∧ pfReassemble6 st p = some r ∧
      r.packet = some (datagram6 p₁ D) := by
  intro h
  have h₁ : FragmentOf6 (List.replicate 16 7#8) (plain6 0 8 true) := ⟨by decide, by decide, by decide,
    by decide, by decide, by decide, by decide, by decide, by decide, by decide, by decide⟩
  have h₂ : FragmentOf6 (List.replicate 16 7#8) (opts6 8 8 false) := ⟨by decide, by decide, by decide,
    by decide, by decide, by decide, by decide, by decide, by decide, by decide, by decide⟩
  have hb₁ : ∀ x, Brings6 (plain6 0 8 true) x ↔ x < 8 := fun x => by
    have h0 : (plain6 0 8 true).offlg / 8 * 8 = 0 := by decide
    have h8 : 40 + (plain6 0 8 true).plen - (plain6 0 8 true).hdrlen = 8 := by decide
    simp only [Brings6, h0, h8]
    omega
  have hb₂ : ∀ x, Brings6 (opts6 8 8 false) x ↔ 8 ≤ x ∧ x < 16 := fun x => by
    have h0 : (opts6 8 8 false).offlg / 8 * 8 = 8 := by decide
    have h8 : 40 + (opts6 8 8 false).plen - (opts6 8 8 false).hdrlen = 8 := by decide
    simp only [Brings6, h0, h8]
  obtain ⟨rs, st, r, hfeed, hrun, hpacket⟩ := h (List.replicate 16 7#8) [plain6 0 8 true]
    (opts6 8 8 false) (plain6 0 8 true) (by decide)
    (by
      intro p hp
      obtain rfl | rfl : p = plain6 0 8 true ∨ p = opts6 8 8 false := by simpa using hp
      · exact h₁
      · exact h₂)
    (List.pairwise_pair.2 (by decide))
    (by
      intro h
      obtain ⟨p, hp, hx⟩ := h 8 (by decide)
      rw [List.mem_singleton.1 hp, hb₁] at hx
      omega)
    (by
      intro x hx
      have h16 : x < 16 := hx
      by_cases h8 : x < 8
      · exact ⟨_, List.mem_cons_of_mem _ (List.mem_singleton.2 rfl), (hb₁ x).2 h8⟩
      · exact ⟨_, by simp, (hb₂ x).2 (by omega)⟩)
    (by simp) ((hb₁ 0).2 (by decide))
  have hcode : ((feed6 .initial [plain6 0 8 true]).bind fun s =>
      (pfReassemble6 s.2 (opts6 8 8 false)).map fun r =>
        decide (r.packet = some (datagram6 (plain6 0 8 true) (List.replicate 16 7#8)))) =
      some false := by decide +kernel
  rw [hfeed, Option.bind_some, hrun, Option.map_some, Option.some.injEq, decide_eq_false_iff_not]
    at hcode
  exact hcode hpacket

end OpenbsdKernel.PfNorm
