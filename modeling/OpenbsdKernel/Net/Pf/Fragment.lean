import Mathlib.Tactic
import OpenbsdKernel.Lib.Reassembly

/-!
# The fragment queue of the packet filter

`net/pf_norm.c`: the entries `pf_frent` of one datagram, how a fragment is put in its place
(`pf_fillup_fragment`), when the datagram is complete (`pf_isfull_fragment`) and how it is
joined (`pf_join_fragment`). The state is that of one key; allocations succeed. An mbuf chain
is the list of its bytes, and `none` is a failed `KASSERT`.
-/
namespace OpenbsdKernel.PfNorm

abbrev Mbuf : Type := List (BitVec 8)

def IP_MAXPACKET : ℕ := 65535

/-- A value stored in a `u_int16_t`. -/
def u16 (n : ℕ) : ℕ := n % 2 ^ 16

/-- `struct pf_frent`. -/
structure Frent where
  fe_m : Mbuf
  fe_hdrlen : ℕ
  fe_extoff : ℕ
  fe_len : ℕ
  fe_off : ℕ
  fe_mff : Bool
  deriving DecidableEq, Repr

/-- The fields of `struct pf_fragment` that are read; `fr_af` is given with the key. -/
structure Fragment where
  fr_queue : List Frent
  fr_maxlen : ℕ
  deriving DecidableEq, Repr

/-- The fragment queue of a key, and the number of entries allocated. -/
structure State where
  frag : Option Fragment
  pf_nfrents : ℕ
  deriving DecidableEq, Repr

def State.initial : State := ⟨none, 0⟩

inductive Reason
  | frag
  | short
  | memory
  deriving DecidableEq, Repr

/-- The state a call of `pf_fillup_fragment` leaves, whether it returns the queue, and the reason
it sets. -/
structure Filled where
  st : State
  kept : Bool
  reason : Option Reason
  deriving DecidableEq, Repr

/-- The front of an entry is cut off: `m_adj`, `fe_off` and `fe_len`. -/
def Frent.cut (i : ℕ) (frent : Frent) : Frent :=
  { frent with
    fe_m := frent.fe_m.drop i
    fe_off := u16 (frent.fe_off + i)
    fe_len := u16 (frent.fe_len - i) }

def Frent.fin (frent : Frent) : ℕ := frent.fe_off + frent.fe_len

/-- The loop over the entries behind the new one; `none` is `goto free_fragment`. -/
def cutAfter (inet6 : Bool) (frent : Frent) : List Frent → ℕ → Option (List Frent × ℕ)
  | [], pf_nfrents => some ([], pf_nfrents)
  | after :: next, pf_nfrents =>
    if frent.fin > after.fe_off then
      if inet6 then none
      else
        let aftercut := u16 (frent.fin - after.fe_off)
        if aftercut < after.fe_len then some (after.cut aftercut :: next, pf_nfrents)
        else cutAfter inet6 frent next (pf_nfrents - 1)
    else some (after :: next, pf_nfrents)

/-- The overlap with the entry before the new one. -/
inductive Precut
  | free
  | drop
  | keep (frent : Frent)
  deriving DecidableEq, Repr

def precut (inet6 : Bool) (frent : Frent) : Option Frent → Precut
  | none => .keep frent
  | some prev =>
    if prev.fin > frent.fe_off then
      if inet6 then .free
      else
        let precut := u16 (prev.fin - frent.fe_off)
        if precut ≥ frent.fe_len then .drop else .keep (frent.cut precut)
    else .keep frent

/-- What a fragment must not be, whatever was seen before. -/
def badFragment (frent : Frent) : Prop :=
  frent.fe_len = 0 ∨ (frent.fe_mff ∧ frent.fe_len % 8 ≠ 0) ∨ frent.fin > IP_MAXPACKET

/-- What a fragment must not be after `last` was the last one. -/
def badEnd (frent last : Frent) : Prop :=
  let total := u16 last.fin
  (frent.fin < total ∧ ¬ frent.fe_mff) ∨
    (if ¬ last.fe_mff then frent.fin > total ∨ (frent.fin = total ∧ frent.fe_mff)
     else frent.fin = total ∧ ¬ frent.fe_mff)

instance (frent : Frent) : Decidable (badFragment frent) := inferInstanceAs (Decidable (_ ∨ _))

instance (frent last : Frent) : Decidable (badEnd frent last) := inferInstanceAs (Decidable (_ ∨ _))

/-- The new entry is given back; a flushed queue is given back before. -/
def dropFrent (st : State) (reason : Option Reason) : Option Filled :=
  some ⟨{ st with pf_nfrents := st.pf_nfrents - 1 }, false, reason⟩

def pfFreeFragment (st : State) : State :=
  ⟨none, st.pf_nfrents - (st.frag.map fun frag => frag.fr_queue.length).getD 0⟩

def placeFrent (inet6 : Bool) (st : State) (frag : Fragment) (frent : Frent)
    (before after : List Frent) : Option Filled :=
  -- KASSERT(prev != NULL || after != NULL)
  if before = [] ∧ after = [] then none
  else match precut inet6 frent before.getLast? with
  | .free => dropFrent (pfFreeFragment st) (some .frag)
  | .drop => dropFrent st none
  | .keep frent =>
    match cutAfter inet6 frent after st.pf_nfrents with
    | none => dropFrent (pfFreeFragment st) (some .frag)
    | some (after, pf_nfrents) =>
      some ⟨⟨some { frag with fr_queue := before ++ frent :: after }, pf_nfrents⟩, true, none⟩

/-- `pf_fillup_fragment`; the new entry is counted in `pf_nfrents` already. -/
def pfFillupFragment (inet6 : Bool) (st : State) (frent : Frent) : Option Filled :=
  if badFragment frent then dropFrent st (some .frag)
  else match st.frag with
  | none => some ⟨{ st with frag := some ⟨[frent], frent.fe_len⟩ }, true, none⟩
  | some frag =>
    -- KASSERT(!TAILQ_EMPTY(&frag->fr_queue))
    match frag.fr_queue.getLast? with
    | none => none
    | some last =>
      let frag := { frag with fr_maxlen := max frent.fe_len frag.fr_maxlen }
      let st := { st with frag := some frag }
      if badEnd frent last then dropFrent st (some .frag)
      else placeFrent inet6 st frag frent (frag.fr_queue.takeWhile fun q => q.fe_off ≤ frent.fe_off)
        (frag.fr_queue.dropWhile fun q => q.fe_off ≤ frent.fe_off)

/-- The loop of `pf_isfull_fragment`; `none` is a missing fragment. -/
def isfullLoop (total : ℕ) : ℕ → List Frent → Option ℕ
  | off, [] => some off
  | off, frent :: next =>
    let off := u16 (off + frent.fe_len)
    if off < total ∧ next.head?.map Frent.fe_off ≠ some off then none
    else isfullLoop total off next

def pfIsfullFragment (frag : Fragment) : Option Bool :=
  -- KASSERT(!TAILQ_EMPTY(&frag->fr_queue))
  match frag.fr_queue.getLast? with
  | none => none
  | some last =>
    if last.fe_mff then some false
    else
      let total := u16 last.fin
      match isfullLoop total 0 frag.fr_queue with
      | none => some false
      | some off =>
        if off < total then some false
        -- KASSERT(off == total)
        else if off ≠ total then none
        else some true

def Frent.payload (frent : Frent) : Mbuf := (frent.fe_m.drop frent.fe_hdrlen).take frent.fe_len

/-- The packet `pf_join_fragment` makes: the first entry with its header, and the data of the
others. -/
def joined : List Frent → Mbuf
  | [] => []
  | frent :: queue =>
    frent.fe_m.take (frent.fe_hdrlen + frent.fe_len) ++ queue.flatMap Frent.payload

def pfJoinFragment (st : State) (frag : Fragment) : Mbuf × State :=
  (joined frag.fr_queue, ⟨none, st.pf_nfrents - frag.fr_queue.length⟩)

end OpenbsdKernel.PfNorm
