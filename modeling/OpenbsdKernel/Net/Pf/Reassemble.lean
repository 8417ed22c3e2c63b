import Mathlib.Data.List.GetD
import OpenbsdKernel.Net.Pf.Queue

/-!
# Reassembly of IPv4 datagrams

`net/pf_norm.c`, `pf_reassemble`: a fragment is entered into the queue of its datagram, and a
complete datagram is returned behind the header of its first fragment.
-/
namespace OpenbsdKernel.PfNorm

open Reassembly

def byte (m : Mbuf) (i : ℕ) : ℕ := (m.getD i 0#8).toNat

def read16 (m : Mbuf) (i : ℕ) : ℕ := byte m i * 256 + byte m (i + 1)

def write16 (m : Mbuf) (i n : ℕ) : Mbuf :=
  (m.set i (BitVec.ofNat 8 (n / 256))).set (i + 1) (BitVec.ofNat 8 n)

/-- `ip_hl << 2`. -/
def ipHlen (m : Mbuf) : ℕ := byte m 0 % 16 * 4

def ipLen (m : Mbuf) : ℕ := read16 m 2

/-- `(ntohs(ip_off) & IP_OFFMASK) << 3`. -/
def ipOffset (m : Mbuf) : ℕ := read16 m 6 % 2 ^ 13 * 8

/-- `ntohs(ip_off) & IP_MF`. -/
def ipMf (m : Mbuf) : Bool := read16 m 6 / 2 ^ 13 % 2 = 1

/-- `ip_off &= ~(IP_MF|IP_OFFMASK)`, with the mask in the order of the machine. -/
def clearIpOff (littleEndian : Bool) (m : Mbuf) : Mbuf :=
  if littleEndian then (m.set 6 0#8).set 7 (m.getD 7 0#8 &&& 0xc0#8)
  else (m.set 6 (m.getD 6 0#8 &&& 0xc0#8)).set 7 0#8

inductive Action
  | pass
  | drop
  deriving DecidableEq, Repr

/-- What a call returns, leaves in `*m0`, the reason it sets and the state it leaves. -/
structure Reassembled where
  action : Action
  m0 : Option Mbuf
  reason : Option Reason
  st : State
  deriving DecidableEq, Repr

/-- The entry for a fragment. -/
def ipFrent (m : Mbuf) : Frent where
  fe_m := m
  fe_hdrlen := ipHlen m
  fe_extoff := 0
  fe_len := u16 (2 ^ 16 + ipLen m - ipHlen m)
  fe_off := ipOffset m
  fe_mff := ipMf m

def pfReassemble (littleEndian : Bool) (st : State) (m : Mbuf) : Option Reassembled := do
  let r ← pfFillupFragment false st.counted (ipFrent m)
  if r.kept = false then return ⟨.drop, some m, r.reason, r.st⟩
  let frag ← r.st.frag
  let full ← pfIsfullFragment frag
  -- the mbuf is part of the entry, so `*m0` is NULL
  if full = false then return ⟨.pass, none, r.reason, r.st⟩
  let first ← frag.fr_queue.head?
  let last ← frag.fr_queue.getLast?
  let total := u16 last.fin
  let hdrlen := first.fe_hdrlen
  let (m, st) := pfJoinFragment r.st frag
  let m := clearIpOff littleEndian (write16 m 2 (u16 (hdrlen + total)))
  if hdrlen + total > IP_MAXPACKET then return ⟨.drop, some (write16 m 2 0), some .short, st⟩
  return ⟨.pass, some m, r.reason, st⟩

/-- States reached with fragments of one key. -/
inductive Reached (littleEndian : Bool) : State → Prop
  | start : Reached littleEndian .initial
  | call {st m r} (h : Reached littleEndian st) (hcall : pfReassemble littleEndian st m = some r) :
      Reached littleEndian r.st

/-- The packet a call hands on. -/
def Reassembled.packet (r : Reassembled) : Option Mbuf :=
  if r.action = .pass then r.m0 else none

/-- The calls for a list of fragments, and the state after them. -/
def feed (littleEndian : Bool) : State → List Mbuf → Option (List Reassembled × State)
  | st, [] => some ([], st)
  | st, m :: ms => do
    let r ← pfReassemble littleEndian st m
    let (rs, st) ← feed littleEndian r.st ms
    return (r :: rs, st)

section Step

variable {littleEndian : Bool} {good : Frent → Prop} {st : State} {m : Mbuf}

/-- What a call comes to. -/
inductive Call (littleEndian : Bool) (st : State) (m : Mbuf) : Reassembled → Prop
  | refused {r} (hr : Filling st (ipFrent m) r) (hkept : r.kept = false) :
      Call littleEndian st m ⟨.drop, some m, r.reason, r.st⟩
  | queued {r frag last} (hr : Filling st (ipFrent m) r) (hkept : r.kept = true)
      (hfrag : r.st.frag = some frag) (hlast : frag.fr_queue.getLast? = some last)
      (hgap : ¬ (last.fe_mff = false ∧ ∀ x < last.fin, frents.Covers frag.fr_queue x)) :
      Call littleEndian st m ⟨.pass, none, r.reason, r.st⟩
  | complete {r frag first last queue} (hr : Filling st (ipFrent m) r) (hkept : r.kept = true)
      (hfrag : r.st.frag = some frag) (hqueue : frag.fr_queue = first :: queue)
      (hlast : frag.fr_queue.getLast? = some last) (hmff : last.fe_mff = false)
      (hchain : frents.Chain 0 frag.fr_queue last.fin) (hsize : first.fe_hdrlen + last.fin ≤ IP_MAXPACKET) :
      Call littleEndian st m ⟨.pass, some (clearIpOff littleEndian
        (write16 (joined frag.fr_queue) 2 (first.fe_hdrlen + last.fin))), r.reason, ⟨none, 0⟩⟩
  | toobig {r frag first last queue m'} (hr : Filling st (ipFrent m) r) (hkept : r.kept = true)
      (hfrag : r.st.frag = some frag) (hqueue : frag.fr_queue = first :: queue)
      (hlast : frag.fr_queue.getLast? = some last) (hmff : last.fe_mff = false)
      (hchain : frents.Chain 0 frag.fr_queue last.fin) (hsize : IP_MAXPACKET < first.fe_hdrlen + last.fin) :
      Call littleEndian st m ⟨.drop, some m', some .short, ⟨none, 0⟩⟩

theorem Filling.frag_of_kept {e : Frent} {r : Filled} (hr : Filling st e r) (hkept : r.kept = true) :
    ∃ frag, r.st.frag = some frag := by
  cases hr with
  | bad _ => cases hkept
  | first _ _ => exact ⟨_, rfl⟩
  | badEnd _ _ _ _ => exact ⟨_, rfl⟩
  | covered _ _ _ _ _ => exact ⟨_, rfl⟩
  | placed _ _ _ _ _ => exact ⟨_, rfl⟩

theorem pfReassemble_call (littleEndian : Bool) (m : Mbuf) (hgood : Stable good) (h : Consistent good st)
    (he : ¬ badFragment (ipFrent m) → good (ipFrent m)) :
    ∃ r, pfReassemble littleEndian st m = some r ∧ Call littleEndian st m r := by
  obtain ⟨r, hfill, hr⟩ := pfFillupFragment_inet hgood h he
  have hcons := hr.consistent hgood h he
  cases hkept : r.kept with
  | false => exact ⟨_, by simp [pfReassemble, hfill, hkept], .refused hr hkept⟩
  | true =>
    obtain ⟨frag, hfrag⟩ := hr.frag_of_kept hkept
    obtain ⟨hent, hn⟩ : Entries good frag.fr_queue ∧ r.st.pf_nfrents = frag.fr_queue.length := by
      simpa only [Consistent, hfrag] using hcons
    obtain ⟨last, hlast⟩ := Option.isSome_iff_exists.1 (List.getLast?_isSome.2 hent.ne_nil)
    obtain ⟨full, hfull, hiff⟩ := pfIsfullFragment_eq hent hlast
    cases full with
    | false =>
      refine ⟨_, ?_, .queued hr hkept hfrag hlast (mt hiff.2 (by simp))⟩
      simp [pfReassemble, hfill, hkept, hfrag, hfull]
    | true =>
      obtain ⟨hmff, hcov⟩ := hiff.1 rfl
      have hchain := (hent.chain_iff hlast).2 hcov
      obtain ⟨first, queue, hqueue⟩ := List.exists_cons_of_ne_nil hent.ne_nil
      have hmax := (hent.held last (List.mem_of_getLast? hlast)).fin_le
      have hst : (⟨none, r.st.pf_nfrents - frag.fr_queue.length⟩ : State) = ⟨none, 0⟩ := by
        rw [hn, Nat.sub_self]
      have hhead : frag.fr_queue.head? = some first := by rw [hqueue]; rfl
      by_cases hsize : first.fe_hdrlen + last.fin ≤ IP_MAXPACKET
      · refine ⟨_, ?_, .complete hr hkept hfrag hqueue hlast hmff hchain hsize⟩
        simp [pfReassemble, hfill, hkept, hfrag, hfull, hhead, hlast, pfJoinFragment, u16_of_le hmax,
          u16_of_le hsize, hst, not_lt.2 hsize]
      · let m' := write16 (clearIpOff littleEndian
          (write16 (joined frag.fr_queue) 2 (u16 (first.fe_hdrlen + last.fin)))) 2 0
        refine ⟨⟨.drop, some m', some .short, ⟨none, 0⟩⟩, ?_,
          .toobig hr hkept hfrag hqueue hlast hmff hchain (not_le.1 hsize)⟩
        simp [pfReassemble, hfill, hkept, hfrag, hfull, hhead, hlast, pfJoinFragment, u16_of_le hmax,
          hst, not_le.1 hsize, m']

theorem Call.consistent {r : Reassembled} (hgood : Stable good) (h : Consistent good st)
    (he : ¬ badFragment (ipFrent m) → good (ipFrent m)) (hr : Call littleEndian st m r) :
    Consistent good r.st := by
  cases hr with
  | refused hr _ => exact hr.consistent hgood h he
  | queued hr _ _ _ _ => exact hr.consistent hgood h he
  | complete _ _ _ _ _ _ _ _ => rfl
  | toobig _ _ _ _ _ _ _ _ => rfl

end Step

/-- A fragment of the datagram with payload `D`: its header is whole, its data are those of the
datagram at its place, and it has more fragments behind it unless it reaches the end. The first
header and the payload make no more than a packet. -/
structure FragmentOf (D : Mbuf) (m : Mbuf) : Prop where
  hlen : 20 ≤ ipHlen m
  len : ipHlen m ≤ ipLen m
  size : ipLen m ≤ m.length
  payload : D.length ≤ IP_MAXPACKET
  first : ipOffset m = 0 → ipHlen m + D.length ≤ IP_MAXPACKET
  fin : ipOffset m + (ipLen m - ipHlen m) ≤ D.length
  data : (m.drop (ipHlen m)).take (ipLen m - ipHlen m) =
    (D.drop (ipOffset m)).take (ipLen m - ipHlen m)
  more : ipMf m = true ↔ ipOffset m + (ipLen m - ipHlen m) ≠ D.length
  aligned : ipMf m = true → (ipLen m - ipHlen m) % 8 = 0

/-- The bytes of the datagram a fragment brings. -/
def Brings (m : Mbuf) (x : ℕ) : Prop := ipOffset m ≤ x ∧ x < ipOffset m + (ipLen m - ipHlen m)

/-- The whole datagram was received. -/
def Received (D : Mbuf) (ms : List Mbuf) : Prop := ∀ x < D.length, ∃ m ∈ ms, Brings m x

/-- The header of a fragment, made that of the whole datagram. -/
def header (littleEndian : Bool) (m : Mbuf) (total : ℕ) : Mbuf :=
  clearIpOff littleEndian (write16 (m.take (ipHlen m)) 2 (ipHlen m + total))

def Sent (D : Mbuf) (ms : List Mbuf) (e : Frent) : Prop := ∃ m ∈ ms, FragmentOf D m ∧ e = ipFrent m

section Datagram

variable {D : Mbuf} {ms : List Mbuf} {m : Mbuf}

theorem FragmentOf.fe_len (h : FragmentOf D m) : (ipFrent m).fe_len = ipLen m - ipHlen m := by
  have h1 := h.len
  have h2 := h.fin
  have h3 := h.payload
  simp only [ipFrent, u16, IP_MAXPACKET] at *
  omega

theorem FragmentOf.fin_eq (h : FragmentOf D m) :
    (ipFrent m).fin = ipOffset m + (ipLen m - ipHlen m) := by
  rw [Frent.fin, h.fe_len]
  rfl

theorem FragmentOf.has_iff (h : FragmentOf D m) {x : ℕ} :
    frents.Has (ipFrent m) x ↔ Brings m x := by
  simp only [Pieces.Has, frents_fin, h.fin_eq]
  rfl

theorem FragmentOf.agrees (h : FragmentOf D m) (hm : m ∈ ms) : Agrees D (Sent D ms) (ipFrent m) := by
  refine ⟨?_, ?_, ?_, fun _ => ⟨m, hm, h, rfl⟩⟩
  · rw [h.fin_eq]
    exact h.fin
  · rw [h.fin_eq]
    exact h.more
  · rw [Frent.payload, h.fe_len]
    exact h.data

theorem FragmentOf.bad_iff (h : FragmentOf D m) :
    badFragment (ipFrent m) ↔ ipLen m - ipHlen m = 0 := by
  have hfits := h.payload
  have hfin := h.fin
  have hal := h.aligned
  rw [badFragment, h.fin_eq, h.fe_len]
  constructor
  · rintro (h0 | ⟨hmf, h8⟩ | hmax)
    · exact h0
    · exact absurd (hal hmf) h8
    · omega
  · exact fun h0 => .inl h0

end Datagram

/-- The queue holds what was received since the last packet. -/
structure Collected (D : Mbuf) (ms : List Mbuf) (st : State) : Prop where
  consistent : Consistent (Agrees D (Sent D ms)) st
  covers : ∀ x, (∃ frag ∈ st.frag, frents.Covers frag.fr_queue x) ↔ ∃ m ∈ ms, Brings m x

section Collected

variable {littleEndian : Bool} {D : Mbuf} {ms : List Mbuf} {m : Mbuf} {st : State}

theorem Sent.cons {e : Frent} (h : Sent D ms e) : Sent D (m :: ms) e :=
  h.imp fun _ hm => ⟨List.mem_cons_of_mem _ hm.1, hm.2⟩

theorem Collected.fill {r : Filled} (h : Collected D ms st) (hm : FragmentOf D m)
    (hr : Filling st (ipFrent m) r) : Collected D (m :: ms) r.st := by
  have hcons : Consistent (Agrees D (Sent D (m :: ms))) st :=
    h.consistent.mono fun _ he => he.mono fun _ => Sent.cons
  have hgood := stable_agrees D (Sent D (m :: ms))
  have hagree : Agrees D (Sent D (m :: ms)) (ipFrent m) := hm.agrees (by simp)
  refine ⟨hr.consistent hgood hcons fun _ => hagree, fun x => ?_⟩
  have hold := h.covers x
  simp only [List.mem_cons, exists_eq_or_imp]
  rw [← hold]
  cases hr with
  | bad hbad =>
    have h0 := hm.bad_iff.1 hbad
    have hnone : ¬ Brings m x := by
      simp only [Brings]
      omega
    simp [hnone]
  | first _ hfrag => simp [hfrag, hm.has_iff]
  | badEnd _ hfrag hlast hend =>
    simp only [Consistent, hfrag] at hcons
    exact absurd hend (hagree.not_badEnd (hcons.1.held _ (List.mem_of_getLast? hlast)))
  | covered hbad hfrag _ _ hins =>
    have hcov := Pieces.insert_none (x := x) hins
    rw [hm.has_iff] at hcov
    simp only [hfrag, Option.mem_def, Option.some.injEq, exists_eq_left']
    exact ⟨.inr, fun h => h.elim hcov id⟩
  | placed hbad hfrag _ _ hins =>
    simp only [Consistent, hfrag] at hcons
    have hcov := hgood.lawful.covers_insert (x := x) hcons.1.held (.of_not_bad hbad hagree)
      hcons.1.ordered hins
    rw [hm.has_iff] at hcov
    simp only [hfrag, Option.mem_def, Option.some.injEq, exists_eq_left', hcov]
    exact or_comm

theorem write16_append {h D : Mbuf} {i n : ℕ} (hi : i + 1 < h.length) :
    write16 (h ++ D) i n = write16 h i n ++ D := by
  rw [write16, List.set_append_left _ _ (by omega), List.set_append_left _ _ (by simpa using hi),
    write16]

theorem clearIpOff_append {h D : Mbuf} (hlen : 8 ≤ h.length) :
    clearIpOff littleEndian (h ++ D) = clearIpOff littleEndian h ++ D := by
  have h6 : (h ++ D).getD 6 0#8 = h.getD 6 0#8 := List.getD_append _ _ _ _ (by omega)
  have h7 : (h ++ D).getD 7 0#8 = h.getD 7 0#8 := List.getD_append _ _ _ _ (by omega)
  rw [clearIpOff, clearIpOff, h6, h7]
  split
  all_goals
    rw [List.set_append_left _ _ (by omega), List.set_append_left _ _ (by simp; omega)]

theorem Filling.queue_of_refused {e : Frent} {r : Filled} (hr : Filling st e r)
    (hkept : r.kept = false) {x : ℕ} :
    (∃ frag ∈ r.st.frag, frents.Covers frag.fr_queue x) ↔
      ∃ frag ∈ st.frag, frents.Covers frag.fr_queue x := by
  cases hr with
  | bad _ => rfl
  | first _ _ => cases hkept
  | badEnd _ hfrag _ _ => simp [hfrag]
  | covered _ hfrag _ _ _ => simp [hfrag]
  | placed _ _ _ _ _ => cases hkept

theorem Collected.step (littleEndian : Bool) (h : Collected D ms st) (hD : D ≠ []) (hnot : ¬ Received D ms)
    (hm : FragmentOf D m) :
    ∃ r, pfReassemble littleEndian st m = some r ∧
      ((Received D (m :: ms) ∧ r.action = .pass ∧ r.st = .initial ∧
          ∃ m₁ ∈ m :: ms, ipOffset m₁ = 0 ∧ r.m0 = some (header littleEndian m₁ D.length ++ D)) ∨
        (¬ Received D (m :: ms) ∧ r.packet = none ∧ Collected D (m :: ms) r.st)) := by
  have hcons : Consistent (Agrees D (Sent D (m :: ms))) st :=
    h.consistent.mono fun _ he => he.mono fun _ => Sent.cons
  have hgood := stable_agrees D (Sent D (m :: ms))
  have hagree : ¬ badFragment (ipFrent m) → Agrees D (Sent D (m :: ms)) (ipFrent m) :=
    fun _ => hm.agrees (by simp)
  obtain ⟨r, hrun, hcall⟩ := pfReassemble_call littleEndian m hgood hcons hagree
  refine ⟨r, hrun, ?_⟩
  cases hcall with
  | refused hr hkept =>
    refine .inr ⟨fun hrec => hnot fun x hx => ?_, rfl, h.fill hm hr⟩
    rw [← h.covers x, ← hr.queue_of_refused hkept, (h.fill hm hr).covers x]
    exact hrec x hx
  | @queued r frag last hr hkept hfrag hlast hgap =>
    have hcol := h.fill hm hr
    refine .inr ⟨fun hrec => hgap ?_, rfl, hcol⟩
    have hent : Entries (Agrees D (Sent D (m :: ms))) frag.fr_queue := by
      have := hcol.consistent
      simp only [Consistent, hfrag] at this
      exact this.1
    have hcov : ∀ x < D.length, frents.Covers frag.fr_queue x := by
      intro x hx
      have := (hcol.covers x).2 (hrec x hx)
      simpa only [hfrag, Option.mem_def, Option.some.injEq, exists_eq_left'] using this
    have hlast' := hent.held last (List.mem_of_getLast? hlast)
    have hfin : last.fin = D.length := by
      have hpos : 0 < D.length := List.length_pos_of_ne_nil hD
      obtain ⟨q, hq, hx⟩ := hcov (D.length - 1) (by omega)
      have h1 := hent.ordered.fin_le_last hlast hq
      have h2 := hlast'.good.fin
      have h3 := hx.2
      simp only [frents_fin] at h1 h3
      omega
    refine ⟨?_, hfin ▸ hcov⟩
    by_contra hmff
    exact hlast'.good.more.1 (by simpa using hmff) hfin
  | @complete r frag first last queue hr hkept hfrag hqueue hlast hmff hchain hsize =>
    have hcol := h.fill hm hr
    have hent : Entries (Agrees D (Sent D (m :: ms))) frag.fr_queue := by
      have := hcol.consistent
      simp only [Consistent, hfrag] at this
      exact this.1
    have hlast' := hent.held last (List.mem_of_getLast? hlast)
    have hfin : last.fin = D.length := by
      by_contra hne
      rw [hlast'.good.more.2 hne] at hmff
      cases hmff
    rw [hfin] at hchain hsize ⊢
    have hfirst := hent.held first (by simp [hqueue])
    rw [hqueue] at hchain
    have hoff : first.fe_off = 0 := hchain.1
    obtain ⟨m₁, hm₁, hfrag₁, heq⟩ := hfirst.good.whole hoff
    refine .inl ⟨fun x hx => ?_, rfl, rfl, m₁, hm₁, ?_, ?_⟩
    · rw [← hcol.covers x]
      exact ⟨frag, hfrag, hqueue ▸ hchain.covers ⟨Nat.zero_le x, hx⟩⟩
    · rw [heq] at hoff
      exact hoff
    · have hhdr : first.fe_hdrlen = ipHlen m₁ := by rw [heq]; rfl
      have hm' : first.fe_m = m₁ := by rw [heq]; rfl
      have hlen : 20 ≤ (m₁.take (ipHlen m₁)).length := by
        have h1 := hfrag₁.hlen
        have h2 := hfrag₁.len
        have h3 := hfrag₁.size
        rw [List.length_take]
        omega
      have hdata : ∀ q ∈ first :: queue, q.payload = (D.drop q.fe_off).take q.fe_len := fun q hq =>
        (hent.held q (hqueue ▸ hq)).good.data
      simp only
      rw [hqueue, joined_eq hchain hdata, hhdr, hm', write16_append (by omega),
        clearIpOff_append (by rw [write16, List.length_set, List.length_set]; omega)]
      rfl
  | @toobig r frag first last queue m' hr hkept hfrag hqueue hlast hmff hchain hsize =>
    exfalso
    have hcol := h.fill hm hr
    have hent : Entries (Agrees D (Sent D (m :: ms))) frag.fr_queue := by
      have := hcol.consistent
      simp only [Consistent, hfrag] at this
      exact this.1
    have hfin := (hent.held last (List.mem_of_getLast? hlast)).good.fin
    rw [hqueue] at hchain
    obtain ⟨m₁, -, hfrag₁, heq⟩ := (hent.held first (by simp [hqueue])).good.whole hchain.1
    have hhdr : first.fe_hdrlen = ipHlen m₁ := by rw [heq]; rfl
    have hoff : ipOffset m₁ = 0 := by
      have h0 := hchain.1
      rwa [heq] at h0
    have := hfrag₁.first hoff
    omega

theorem Collected.start (D : Mbuf) : Collected D [] .initial :=
  ⟨rfl, fun x => by simp [State.initial]⟩

theorem Collected.feed (littleEndian : Bool) (hD : D ≠ []) : ∀ {ms : List Mbuf} {st : State} (next : List Mbuf),
    Collected D ms st → (∀ m ∈ next, FragmentOf D m) → ¬ Received D (next.reverse ++ ms) →
    ∃ rs st', PfNorm.feed littleEndian st next = some (rs, st') ∧ (∀ r ∈ rs, r.packet = none) ∧
      Collected D (next.reverse ++ ms) st' := by
  intro ms st next
  induction next generalizing ms st with
  | nil =>
    intro h _ _
    exact ⟨[], st, rfl, by simp, by simpa using h⟩
  | cons m next ih =>
    intro h hnext hnot
    rw [List.reverse_cons, List.append_assoc, List.singleton_append] at hnot ⊢
    have hsub : ∀ {ms' : List Mbuf}, Received D ms' → ms' ⊆ next.reverse ++ m :: ms → False := by
      intro ms' hrec hsub
      exact hnot fun x hx => (hrec x hx).imp fun _ hm => ⟨hsub hm.1, hm.2⟩
    obtain ⟨r, hrun, ⟨hrec, -⟩ | ⟨-, hquiet, hcol⟩⟩ := h.step littleEndian hD
      (fun hrec => hsub hrec (by simp)) (hnext m (by simp))
    · exact (hsub hrec (by simp)).elim
    · obtain ⟨rs, st', hfeed, hrs, hst'⟩ := ih hcol (fun m hm => hnext m (by simp [hm])) hnot
      refine ⟨r :: rs, st', ?_, ?_, hst'⟩
      · simp [PfNorm.feed, hrun, hfeed]
      · simpa using ⟨hquiet, hrs⟩

end Collected

theorem Reached.consistent {littleEndian : Bool} {st : State} (h : Reached littleEndian st) :
    Consistent (fun _ => True) st := by
  have hgood : Stable fun _ => True := fun _ _ _ _ => trivial
  induction h with
  | start => rfl
  | @call st m r _ hcall ih =>
    obtain ⟨r', hrun, hr⟩ := pfReassemble_call littleEndian m hgood ih
      fun _ => trivial
    rw [hcall] at hrun
    cases hrun
    exact hr.consistent hgood ih fun _ => trivial

/-- The queue of a state: in order, no entry empty, more fragments behind all entries but the
last, full exactly when it covers the datagram up to a last entry without more fragments, and
its entries counted. -/
structure QueueOk (st : State) : Prop where
  count : st.pf_nfrents = (st.frag.map fun frag => frag.fr_queue.length).getD 0
  ordered : ∀ frag ∈ st.frag, frag.fr_queue.Pairwise fun a b => a.fin ≤ b.fe_off
  nonempty : ∀ frag ∈ st.frag, ∀ q ∈ frag.fr_queue, 0 < q.fe_len
  more : ∀ frag ∈ st.frag, ∀ q ∈ frag.fr_queue.dropLast, q.fe_mff = true
  full : ∀ frag ∈ st.frag, ∃ last full, frag.fr_queue.getLast? = some last ∧
    pfIsfullFragment frag = some full ∧ (full = true ↔ last.fe_mff = false ∧
      ∀ x < last.fin, ∃ q ∈ frag.fr_queue, q.fe_off ≤ x ∧ x < q.fin)

theorem Consistent.queueOk {good : Frent → Prop} {st : State} (h : Consistent good st) :
    QueueOk st := by
  obtain ⟨frag, n⟩ := st
  cases frag with
  | none => exact ⟨h, by simp, by simp, by simp, by simp⟩
  | some frag =>
    obtain ⟨hent, hn⟩ : Entries good frag.fr_queue ∧ n = frag.fr_queue.length := h
    obtain ⟨last, hlast⟩ := Option.isSome_iff_exists.1 (List.getLast?_isSome.2 hent.ne_nil)
    obtain ⟨full, hfull, hiff⟩ := pfIsfullFragment_eq hent hlast
    constructor
    · exact hn
    · rintro _ ⟨⟩
      exact hent.ordered
    · rintro _ ⟨⟩ q hq
      exact (hent.held q hq).len_pos
    · rintro _ ⟨⟩ q hq
      obtain ⟨front, heq⟩ := List.getLast?_eq_some_iff.1 hlast
      rw [heq, List.dropLast_concat] at hq
      have hmore := hent.more
      rw [heq] at hmore
      exact (List.pairwise_append.1 hmore).2.2 q hq last (by simp)
    · rintro _ ⟨⟩
      exact ⟨last, full, hlast, hfull, hiff⟩

/-- In every state the queue is as it should be, also with the next fragment in it, and no
assertion fails; and the fragments of a datagram, in any order, give it back as soon as they
cover it. -/
theorem pfReassemble_correct (littleEndian : Bool) :
    (∀ st, Reached littleEndian st → QueueOk st ∧
      ∀ m, (∃ r, pfReassemble littleEndian st m = some r) ∧
        ∃ r, pfFillupFragment false st.counted (ipFrent m) = some r ∧ QueueOk r.st) ∧
    ∀ (D : Mbuf) (ms : List Mbuf) (m : Mbuf), D ≠ [] → (∀ m' ∈ ms ++ [m], FragmentOf D m') →
      ¬ Received D ms → Received D (m :: ms) →
      ∃ rs st r, feed littleEndian .initial ms = some (rs, st) ∧ (∀ r ∈ rs, r.packet = none) ∧
        pfReassemble littleEndian st m = some r ∧
        ∃ m₁ ∈ m :: ms, ipOffset m₁ = 0 ∧ r.packet = some (header littleEndian m₁ D.length ++ D) := by
  refine ⟨fun st hst => ?_, fun D ms m hD hms hnot hrec => ?_⟩
  · have h := hst.consistent
    have hgood : Stable fun _ => True := fun _ _ _ _ => trivial
    refine ⟨h.queueOk, fun m => ⟨?_, ?_⟩⟩
    · obtain ⟨r, hr, -⟩ := pfReassemble_call littleEndian m hgood h fun _ => trivial
      exact ⟨r, hr⟩
    · obtain ⟨r, hr, hfill⟩ := pfFillupFragment_inet (e := ipFrent m) hgood h fun _ => trivial
      exact ⟨r, hr, (hfill.consistent hgood h fun _ => trivial).queueOk⟩
  · have hrev : ∀ m : Mbuf, m ∈ ms.reverse ++ [] ↔ m ∈ ms := by simp
    have hnot' : ¬ Received D (ms.reverse ++ []) := by
      intro h
      exact hnot fun x hx => (h x hx).imp fun m hm => ⟨(hrev m).1 hm.1, hm.2⟩
    obtain ⟨rs, st, hfeed, hquiet, hcol⟩ := Collected.feed littleEndian hD ms
      (Collected.start D) (fun m hm => hms m (by simp [hm])) hnot'
    obtain ⟨r, hrun, ⟨-, hpass, -, m₁, hm₁, h0, hm0⟩ | ⟨hno, -⟩⟩ :=
      hcol.step littleEndian hD hnot' (hms m (by simp))
    · refine ⟨rs, st, r, hfeed, hquiet, hrun, m₁, ?_, h0, ?_⟩
      · simpa using hm₁
      · rw [Reassembled.packet, if_pos hpass, hm0]
    · refine absurd (fun x hx => ?_) hno
      obtain ⟨m', hm', hx'⟩ := hrec x hx
      exact ⟨m', by simpa using hm', hx'⟩

/-- The two halves of a datagram of 16 bytes, the second one first. -/
theorem pfReassemble_correct_two :
    let D : Mbuf := (List.range 16).map (BitVec.ofNat 8)
    let hdr (b₆ b₇ : BitVec 8) : Mbuf :=
      [0x45#8, 0, 0, 28, 0, 1, b₆, b₇, 64, 17, 0, 0, 10, 0, 0, 1, 10, 0, 0, 2]
    let m₁ := hdr 0x20 0 ++ D.take 8
    let m₂ := hdr 0 1 ++ D.drop 8
    ∃ rs st r, feed true .initial [m₂] = some (rs, st) ∧ (∀ r ∈ rs, r.packet = none) ∧
      pfReassemble true st m₁ = some r ∧
      ∃ m ∈ [m₁, m₂], ipOffset m = 0 ∧ r.packet = some (header true m 16 ++ D) := by
  intro D hdr m₁ m₂
  have h₁ : FragmentOf D m₁ := ⟨by decide, by decide, by decide, by decide, by decide, by decide,
    by decide, by decide, by decide⟩
  have h₂ : FragmentOf D m₂ := ⟨by decide, by decide, by decide, by decide, by decide, by decide,
    by decide, by decide, by decide⟩
  refine (pfReassemble_correct true).2 D [m₂] m₁ (by decide) ?_ ?_ ?_
  · intro m hm
    obtain rfl | rfl : m = m₂ ∨ m = m₁ := by simpa using hm
    · exact h₂
    · exact h₁
  · intro h
    obtain ⟨m, hm, hx⟩ := h 0 (by decide)
    rw [List.mem_singleton.1 hm] at hx
    exact absurd hx.1 (by decide)
  · intro x hx
    have h16 : x < 16 := hx
    by_cases h8 : x < 8
    · refine ⟨m₁, by simp, ?_, ?_⟩
      · have h0 : ipOffset m₁ = 0 := by decide
        omega
      · have h0 : ipOffset m₁ + (ipLen m₁ - ipHlen m₁) = 8 := by decide
        omega
    · refine ⟨m₂, by simp, ?_, ?_⟩
      · have h0 : ipOffset m₂ = 8 := by decide
        omega
      · have h0 : ipOffset m₂ + (ipLen m₂ - ipHlen m₂) = 16 := by decide
        omega

end OpenbsdKernel.PfNorm
