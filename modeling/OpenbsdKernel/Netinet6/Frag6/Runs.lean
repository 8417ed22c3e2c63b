import Mathlib.Data.List.TakeWhile
import OpenbsdKernel.Netinet6.Frag6.Basic

/-!
# Queues without fragments

A queue is on the list before its first fragment is sure to be queued, and is counted before it
is allocated; fragments that a first fragment makes too long are dequeued without being counted
out. As long as none of this happens, queues have fragments, in order and apart from each other,
and both counters are right.
-/
namespace OpenbsdKernel.Frag6

theorem uInt_cast (a : ℤ) : (uInt a : ℤ) = a % 2 ^ 32 := Int.toNat_of_nonneg (Int.emod_nonneg _ (by decide))

theorem uInt_add (a b : ℤ) : uInt (uInt a + b) = uInt (a + b) := by
  rw [uInt, uInt_cast, Int.emod_add_emod, uInt]

theorem uInt_sub (a b : ℤ) : uInt (uInt a - b) = uInt (a - b) := uInt_add a (-b)

/-- The number of fragments on queues. -/
def fragments (queue : List Ip6q) : ℤ := (queue.map fun q6 => (q6.ip6q_asfrag.length : ℤ)).sum

@[simp] theorem fragments_nil : fragments [] = 0 := rfl

@[simp] theorem fragments_cons (q6 : Ip6q) (queue : List Ip6q) :
    fragments (q6 :: queue) = q6.ip6q_asfrag.length + fragments queue := by simp [fragments]

@[simp] theorem fragments_append (a b : List Ip6q) : fragments (a ++ b) = fragments a + fragments b := by
  simp [fragments]

/-- The counters of so many queues and fragments. -/
def Counters.of (packets frags : ℤ) : Counters := ⟨uInt packets, uInt frags⟩

theorem Counters.of_release (packets frags : ℤ) (q6 : Ip6q) :
    (Counters.of packets frags).release q6 = .of (packets - 1) (frags - q6.ip6q_nfrag) := by
  simp only [Counters.release, Counters.of, uInt_sub]

/-- Fragments in order, each of which ends before the next one begins. -/
structure Ordered (asfrag : List Ip6asfrag) : Prop where
  apart : asfrag.Pairwise fun a b => a.ip6af_off + a.ip6af_frglen ≤ b.ip6af_off
  length : ∀ a ∈ asfrag, 0 ≤ a.ip6af_frglen

/-- A queue as it should be. -/
structure Ip6q.Sound (q6 : Ip6q) : Prop extends Ordered q6.ip6q_asfrag where
  nonempty : q6.ip6q_asfrag ≠ []
  count : q6.ip6q_nfrag = q6.ip6q_asfrag.length

/-- The counters follow a queue among others. -/
structure Follows (packets frags : ℤ) (o : Outcome) : Prop where
  sound : ∀ q6 ∈ o.q6, q6.Sound
  counters : o.counters = .of (packets + o.q6.toList.length) (frags + fragments o.q6.toList)

section Queue

variable {mem : Memory} {p : Packet} {q6 : Ip6q} {packets frags : ℤ} {before after : List Ip6asfrag}
  {ip6af first : Ip6asfrag}

theorem Follows.kept {ret : Return} (hq : q6.Sound) :
    Follows packets frags ⟨some q6, .of (packets + 1) (frags + q6.ip6q_asfrag.length), ret⟩ :=
  ⟨by simpa using hq, by simp⟩

theorem Follows.released {ret : Return} (hq : q6.ip6q_nfrag = q6.ip6q_asfrag.length) :
    Follows packets frags
      ⟨none, (Counters.of (packets + 1) (frags + q6.ip6q_asfrag.length)).release q6, ret⟩ := by
  refine ⟨by simp, ?_⟩
  rw [Counters.of_release, hq]
  simp

theorem insertFragment_follows (hq : Ordered (before ++ ip6af :: after))
    (hcount : q6.ip6q_nfrag = (before ++ after).length) :
    ∃ o, insertFragment mem q6 (.of (packets + 1) (frags + (before ++ after).length)) before ip6af after =
      some o ∧ Follows packets frags o := by
  rw [insertFragment]
  set q6' : Ip6q := { q6 with
    ip6q_asfrag := before ++ ip6af :: after, ip6q_nfrag := q6.ip6q_nfrag + 1 } with hq6'
  have hlen : q6'.ip6q_nfrag = q6'.ip6q_asfrag.length := by
    simp only [hq6', hcount, List.length_append, List.length_cons]
    omega
  have hsound : q6'.Sound := ⟨hq, by simp [hq6'], hlen⟩
  have hcounters : { Counters.of (packets + 1) (frags + (before ++ after).length) with
      frag6_nfrags := uInt ((Counters.of (packets + 1) (frags + (before ++ after).length)).frag6_nfrags + 1) } =
      Counters.of (packets + 1) (frags + q6'.ip6q_asfrag.length) := by
    simp only [Counters.of, uInt_add, hq6', List.length_append, List.length_cons]
    push_cast
    congr 2
    ring
  rw [hcounters]
  have hhead : q6'.ip6q_asfrag ≠ [] := hsound.nonempty
  obtain ⟨first, hfirst⟩ := Option.isSome_iff_exists.1 (List.isSome_head?.2 hhead)
  obtain ⟨last, hlast⟩ := Option.isSome_iff_exists.1 (List.getLast?_isSome.2 hhead)
  simp only [hfirst, hlast]
  split
  · exact ⟨_, rfl, .kept hsound⟩
  · split
    · exact ⟨_, rfl, .kept hsound⟩
    · split
      · exact ⟨_, rfl, .released hlen⟩
      · exact ⟨_, rfl, .released hlen⟩

/-- A fragment goes between two others that it does not overlap. -/
theorem Ordered.insert (hq : Ordered (before ++ after)) (hlen : 0 ≤ ip6af.ip6af_frglen)
    (hbefore : ∀ a ∈ before, a.ip6af_off ≤ ip6af.ip6af_off)
    (hprev : ∀ paf6 ∈ before.getLast?, paf6.ip6af_off + paf6.ip6af_frglen ≤ ip6af.ip6af_off)
    (hnext : ∀ af6 ∈ after.head?, ip6af.ip6af_off + ip6af.ip6af_frglen ≤ af6.ip6af_off) :
    Ordered (before ++ ip6af :: after) := by
  obtain ⟨hb, ha, hcross⟩ := List.pairwise_append.1 hq.apart
  have hlow : ∀ a ∈ before, a.ip6af_off + a.ip6af_frglen ≤ ip6af.ip6af_off := by
    intro a ha
    obtain rfl | ⟨init, paf6, rfl⟩ := List.eq_nil_or_concat before
    · cases ha
    · rw [List.concat_eq_append] at *
      obtain ha | ha := List.mem_append.1 ha
      · exact ((List.pairwise_append.1 hb).2.2 a ha paf6 (by simp)).trans (hbefore paf6 (by simp))
      · rw [List.mem_singleton.1 ha]
        exact hprev paf6 (by simp)
  have hhigh : ∀ b ∈ after, ip6af.ip6af_off + ip6af.ip6af_frglen ≤ b.ip6af_off := by
    intro b hb
    cases after with
    | nil => cases hb
    | cons af6 after =>
      have hfirst := hnext af6 rfl
      obtain rfl | hb := List.mem_cons.1 hb
      · exact hfirst
      · have h1 := (List.pairwise_cons.1 ha).1 b hb
        have h2 := hq.length af6 (by simp)
        omega
  refine ⟨List.pairwise_append.2 ⟨hb, List.pairwise_cons.2 ⟨hhigh, ha⟩, ?_⟩, ?_⟩
  · intro a ha b hb
    obtain rfl | hb := List.mem_cons.1 hb
    · exact hlow a ha
    · exact hcross a ha b hb
  · intro a ha
    simp only [List.mem_append, List.mem_cons] at ha
    obtain ha | rfl | ha := ha
    · exact hq.length a (by simp [ha])
    · exact hlen
    · exact hq.length a (by simp [ha])

theorem ecnCheck_off {flow : BitVec 32} {af6 : Ip6asfrag} (h : ecnCheck flow first = some af6) :
    af6.ip6af_off = first.ip6af_off ∧ af6.ip6af_frglen = first.ip6af_frglen := by
  simp only [ecnCheck] at h
  split at h
  · split at h
    · cases h
    · split at h
      · cases h
        exact ⟨rfl, rfl⟩
      · cases h
        exact ⟨rfl, rfl⟩
  · split at h
    · cases h
    · cases h
      exact ⟨rfl, rfl⟩

theorem Ordered.mark {af6 : Ip6asfrag} {rest : List Ip6asfrag} (hq : Ordered (first :: rest))
    (hoff : af6.ip6af_off = first.ip6af_off ∧ af6.ip6af_frglen = first.ip6af_frglen) :
    Ordered (af6 :: rest) := by
  obtain ⟨h1, h2⟩ := List.pairwise_cons.1 hq.apart
  refine ⟨List.pairwise_cons.2 ⟨?_, h2⟩, ?_⟩
  · rw [hoff.1, hoff.2]
    exact h1
  · intro a ha
    obtain rfl | ha := List.mem_cons.1 ha
    · rw [hoff.2]
      exact hq.length first (by simp)
    · exact hq.length a (by simp [ha])

theorem Packet.frgpartlen_nonneg (p : Packet) (hplen : p.plen ≠ 0) : 0 ≤ p.frgpartlen := by
  have hroom := p.room fun h => hplen (by simp [plen, h])
  simp only [frgpartlen, plen]
  omega

@[simp] theorem Ip6q.record_asfrag (q6 : Ip6q) (p : Packet) : (q6.record p).ip6q_asfrag = q6.ip6q_asfrag := by
  rw [Ip6q.record]
  split <;> rfl

@[simp] theorem Ip6q.record_nfrag (q6 : Ip6q) (p : Packet) : (q6.record p).ip6q_nfrag = q6.ip6q_nfrag := by
  rw [Ip6q.record]
  split <;> rfl

/-- A first fragment that is not too long itself makes no other one too long. -/
def Ip6q.Keeps (q6 : Ip6q) (p : Packet) : Prop :=
  p.fragoff = 0 → tooLong p.unfrglen p.fragoff p.frgpartlen = false →
    ∀ af6 ∈ q6.ip6q_asfrag, p.unfrglen + af6.ip6af_off + af6.ip6af_frglen ≤ IPV6_MAXPACKET

theorem Ip6q.Keeps.dequeue (hkeep : q6.Keeps p)
    (hlong : tooLong (q6.record p).ip6q_unfrglen p.fragoff p.frgpartlen = false) :
    ((q6.record p).dequeue p).ip6q_asfrag = q6.ip6q_asfrag ∧
      ((q6.record p).dequeue p).ip6q_nfrag = q6.ip6q_nfrag := by
  by_cases hoff : p.fragoff = 0
  · have hlen : (q6.record p).ip6q_unfrglen = p.unfrglen := by simp [record, hoff]
    rw [hlen] at hlong
    have hfit := hkeep hoff hlong
    simp only [Ip6q.dequeue, if_pos hoff, hlen, record_asfrag, record_nfrag, and_true]
    refine List.filter_eq_self.2 fun af6 haf6 => ?_
    simpa using hfit af6 haf6
  · simp [Ip6q.dequeue, hoff]

theorem queueFragment_follows (hq : q6.Sound) (hkeep : q6.Keeps p) (hplen : p.plen ≠ 0) :
    ∃ o, queueFragment mem p false q6 (.of (packets + 1) (frags + q6.ip6q_asfrag.length)) = some o ∧
      Follows packets frags o := by
  rw [queueFragment]
  have hrecord : (q6.record p).Sound := by
    refine ⟨?_, ?_, ?_⟩
    · simpa using hq.toOrdered
    · simpa using hq.nonempty
    · simpa using hq.count
  split
  · have hkept : Follows packets frags ⟨some (q6.record p),
        .of (packets + 1) (frags + (q6.record p).ip6q_asfrag.length), .done⟩ := .kept hrecord
    rw [Ip6q.record_asfrag] at hkept
    exact ⟨_, rfl, hkept⟩
  · next hlong =>
    obtain ⟨hfrag, hnfrag⟩ := hkeep.dequeue (Bool.eq_false_iff.2 hlong)
    set q := (q6.record p).dequeue p with hqdef
    have hsound : q.Sound := ⟨hfrag ▸ hq.toOrdered, hfrag ▸ hq.nonempty, by rw [hnfrag, hfrag, hq.count]⟩
    rw [← hfrag]
    simp only [Bool.false_eq_true, if_false]
    split
    · exact ⟨_, rfl, .kept hsound⟩
    · split
      · next hnil => exact absurd hnil hsound.nonempty
      · next first rest hcons =>
        split
        · exact ⟨_, rfl, .kept hsound⟩
        · next af6 hecn =>
          have hord : Ordered (af6 :: rest) := (hcons ▸ hsound.toOrdered).mark (ecnCheck_off hecn)
          have hlen : q.ip6q_asfrag.length = (af6 :: rest).length := by simp [hcons]
          split
          · exact ⟨_, rfl, .released hsound.count⟩
          · next hover =>
            rw [not_or] at hover
            have hsplit := List.takeWhile_append_dropWhile
              (p := fun a : Ip6asfrag => decide (a.ip6af_off ≤ p.asfrag.ip6af_off)) (l := af6 :: rest)
            have hcount : q.ip6q_nfrag = ((af6 :: rest).takeWhile _ ++ (af6 :: rest).dropWhile _).length :=
              hsound.count.trans (hlen.trans (congrArg List.length hsplit.symm))
            rw [hlen, ← congrArg List.length hsplit]
            refine insertFragment_follows (Ordered.insert (hsplit.symm ▸ hord) ?_ ?_ ?_ ?_) hcount
            · exact p.frgpartlen_nonneg hplen
            · intro a ha
              simpa using List.mem_takeWhile_imp ha
            · intro a ha
              by_contra hgt
              exact hover.1 ⟨a, ha, not_le.1 hgt⟩
            · intro a ha
              by_contra hgt
              exact hover.2 ⟨a, ha, not_le.1 hgt⟩

/-- The fragment that a new queue is made for. -/
theorem queueFragment_new (hmem : mem.ip6af = true) (hplen : p.plen ≠ 0)
    (hlong : tooLong ((Ip6q.new p).record p).ip6q_unfrglen p.fragoff p.frgpartlen = false) :
    ∃ o, queueFragment mem p true (Ip6q.new p) (.of (packets + 1) frags) = some o ∧
      Follows packets frags o := by
  have hkeep : (Ip6q.new p).Keeps p := fun _ _ => by simp [Ip6q.new]
  obtain ⟨hfrag, hnfrag⟩ := hkeep.dequeue hlong
  rw [queueFragment]
  simp only [hlong, hmem, Bool.false_eq_true, not_true_eq_false, if_false, if_true, hfrag]
  have hone : Ordered ([] ++ p.asfrag :: []) :=
    ⟨List.pairwise_singleton _ _, fun a ha => List.mem_singleton.1 ha ▸ p.frgpartlen_nonneg hplen⟩
  obtain ⟨o, hrun, ho⟩ : ∃ o, insertFragment mem (((Ip6q.new p).record p).dequeue p)
      (.of (packets + 1) (frags + ([] ++ [] : List Ip6asfrag).length)) [] p.asfrag [] = some o ∧
      Follows packets frags o := insertFragment_follows hone hnfrag
  refine ⟨o, ?_, ho⟩
  simpa [Ip6q.new] using hrun

end Queue

/-- The state as it should be. -/
structure Inv (s : State) : Prop where
  sound : ∀ q6 ∈ s.frag6_queue, q6.Sound
  counters : s.counters = .of s.frag6_queue.length (fragments s.frag6_queue)

theorem inv_initial : Inv .initial := ⟨by simp [State.initial], rfl⟩

/-- The call does not go wrong: a new queue gets its fragment, and no fragment is dequeued for
being too long. -/
def Served (lim : Limits) (mem : Memory) (s : State) (p : Packet) : Prop :=
  intake lim s.counters p = .queue →
    match s.frag6_queue.dropWhile fun q6 => ¬q6.isFor p with
    | q6 :: _ => q6.Keeps p
    | [] => atPacketLimit lim s.counters = false → mem.ip6q = true ∧ mem.ip6af = true ∧
        tooLong ((Ip6q.new p).record p).ip6q_unfrglen p.fragoff p.frgpartlen = false

section State

variable {lim : Limits} {mem : Memory} {s : State} {p : Packet}

theorem intake_plen {c : Counters} (h : intake lim c p = .queue) : p.plen ≠ 0 := by
  intro hplen
  simp [intake, hplen] at h

theorem Follows.inv {before after : List Ip6q} {o : Outcome}
    (ho : Follows (before.length + after.length) (fragments before + fragments after) o)
    (hother : ∀ q6 ∈ before ++ after, q6.Sound) : Inv ⟨before ++ o.q6.toList ++ after, o.counters⟩ := by
  refine ⟨?_, ?_⟩
  · intro q6 hq6
    simp only [List.mem_append, Option.mem_toList] at hq6
    obtain (h | h) | h := hq6
    · exact hother q6 (by simp [h])
    · exact ho.sound q6 h
    · exact hother q6 (by simp [h])
  · rw [ho.counters]
    simp only [List.length_append, fragments_append, Nat.cast_add]
    congr 1 <;> ring

theorem frag6Input_inv (hs : Inv s) (hserved : Served lim mem s p) :
    ∃ s' ret, frag6Input lim mem s p = some (s', ret) ∧ Inv s' := by
  rw [frag6Input]
  split
  · exact ⟨s, _, rfl, hs⟩
  · exact ⟨s, _, rfl, hs⟩
  · next hintake =>
    have hplen := intake_plen hintake
    have hok := hserved hintake
    have hsplit := List.takeWhile_append_dropWhile
      (p := fun q6 : Ip6q => decide (¬q6.isFor p = true)) (l := s.frag6_queue)
    split
    · next q6 after hdrop =>
      rw [hdrop] at hsplit hok
      set before := s.frag6_queue.takeWhile fun q6 => decide (¬q6.isFor p = true)
      have hq6 : q6.Sound := hs.sound q6 (by simp [← hsplit])
      have hc : s.counters = .of (before.length + after.length + 1 : ℤ)
          (fragments before + fragments after + q6.ip6q_asfrag.length) := by
        rw [hs.counters, ← hsplit]
        simp only [List.length_append, List.length_cons, fragments_append, fragments_cons, Nat.cast_add,
          Nat.cast_one]
        congr 1
        ring
      obtain ⟨o, hrun, ho⟩ : ∃ o, queueFragment mem p false q6 (.of (before.length + after.length + 1)
          (fragments before + fragments after + q6.ip6q_asfrag.length)) = some o ∧
          Follows (before.length + after.length) (fragments before + fragments after) o :=
        queueFragment_follows hq6 hok hplen
      rw [hc, hrun]
      refine ⟨_, _, rfl, ho.inv fun q hq => hs.sound q ?_⟩
      rw [← hsplit]
      simp only [List.mem_append, List.mem_cons] at hq ⊢
      tauto
    · next hdrop =>
      rw [hdrop] at hok
      split
      · exact ⟨s, _, rfl, hs⟩
      · next hlimit =>
        obtain ⟨hmemq, hmemaf, hlong⟩ := hok (Bool.eq_false_iff.2 hlimit)
        have hc : { s.counters with frag6_nfragpackets := uInt (s.counters.frag6_nfragpackets + 1) } =
            Counters.of (s.frag6_queue.length + 1 : ℤ) (fragments s.frag6_queue) := by
          rw [hs.counters]
          simp only [Counters.of, uInt_add]
        obtain ⟨o, hrun, ho⟩ : ∃ o, queueFragment mem p true (Ip6q.new p)
            (.of (s.frag6_queue.length + 1) (fragments s.frag6_queue)) = some o ∧
            Follows s.frag6_queue.length (fragments s.frag6_queue) o := queueFragment_new hmemaf hplen hlong
        rw [hc]
        simp only [hmemq, not_true_eq_false, if_false, hrun]
        have hinv : Inv ⟨[] ++ o.q6.toList ++ s.frag6_queue, o.counters⟩ :=
          Follows.inv (by simpa using ho) hs.sound
        exact ⟨_, _, rfl, hinv⟩

/-- Queues with the counters of these and so many others. -/
structure Counted (packets frags : ℤ) (queue : List Ip6q) (c : Counters) : Prop where
  sound : ∀ q6 ∈ queue, q6.Sound
  counters : c = .of (packets + queue.length) (frags + fragments queue)

theorem Counted.release {packets frags : ℤ} {q6 : Ip6q} {queue : List Ip6q} {c : Counters}
    (hc : Counted packets frags (q6 :: queue) c) : Counted packets frags queue (c.release q6) := by
  refine ⟨fun q hq => hc.sound q (by simp [hq]), ?_⟩
  have hcount := (hc.sound q6 (by simp)).count
  rw [hc.counters, Counters.of_release, hcount]
  simp only [List.length_cons, fragments_cons, Nat.cast_add, Nat.cast_one]
  congr 1 <;> ring

theorem tick_counted {packets frags : ℤ} {queue : List Ip6q} {c : Counters}
    (hc : Counted packets frags queue c) : Counted packets frags (tick queue c).1 (tick queue c).2 := by
  induction queue generalizing packets frags c with
  | nil => exact hc
  | cons q6 rest ih =>
    have hq6 := hc.sound q6 (by simp)
    set q6' : Ip6q := { q6 with ip6q_ttl := (q6.ip6q_ttl + 255) % 256 } with hq6'
    have hsound : q6'.Sound := ⟨hq6.toOrdered, hq6.nonempty, hq6.count⟩
    rw [tick]
    simp only [← hq6']
    split
    · exact ih hc.release
    · -- the queue stays, and is one of the others for the rest
      have hrest : Counted (packets + 1) (frags + q6.ip6q_asfrag.length) rest c := by
        refine ⟨fun q hq => hc.sound q (by simp [hq]), ?_⟩
        rw [hc.counters]
        simp only [List.length_cons, fragments_cons, Nat.cast_add, Nat.cast_one]
        congr 1 <;> ring
      have hih := ih hrest
      refine ⟨?_, ?_⟩
      · intro q hq
        obtain rfl | hq := List.mem_cons.1 hq
        · exact hsound
        · exact hih.sound q hq
      · rw [hih.counters]
        simp only [List.length_cons, fragments_cons, Nat.cast_add, Nat.cast_one, hq6']
        congr 1 <;> ring

theorem shrink_counted {packets frags : ℤ} {max : ℕ} {queue : List Ip6q} {c : Counters}
    (hc : Counted packets frags queue c) :
    Counted packets frags (shrink max queue c).1 (shrink max queue c).2 := by
  induction queue generalizing c with
  | nil => exact hc
  | cons q6 rest ih =>
    rw [shrink]
    split
    · exact ih hc.release
    · exact hc

theorem Counted.reverse {packets frags : ℤ} {queue : List Ip6q} {c : Counters}
    (hc : Counted packets frags queue c) : Counted packets frags queue.reverse c := by
  refine ⟨fun q hq => hc.sound q (List.mem_reverse.1 hq), ?_⟩
  rw [hc.counters, List.length_reverse, fragments, fragments, List.map_reverse, List.sum_reverse]

theorem Inv.counted (hs : Inv s) : Counted 0 0 s.frag6_queue s.counters :=
  ⟨hs.sound, by rw [hs.counters, zero_add, zero_add]⟩

theorem Counted.inv {queue : List Ip6q} {c : Counters} (hc : Counted 0 0 queue c) : Inv ⟨queue, c⟩ :=
  ⟨hc.sound, by rw [hc.counters, zero_add, zero_add]⟩

theorem frag6Slowtimo_inv (hs : Inv s) : Inv (frag6Slowtimo lim s) :=
  (shrink_counted (tick_counted hs.counted).reverse).reverse.inv

theorem foldl_release_counted {packets frags : ℤ} {queue : List Ip6q} {c : Counters}
    (hc : Counted packets frags queue c) : Counted packets frags [] (queue.foldl Counters.release c) := by
  induction queue generalizing c with
  | nil => exact hc
  | cons q6 rest ih => exact ih hc.release

theorem frag6Drain_inv (hs : Inv s) : Inv (frag6Drain s) := (foldl_release_counted hs.counted).inv

end State

/-- What the rest of the stack does with the queues. -/
inductive Event
  | input (lim : Limits) (mem : Memory) (p : Packet)
  | slowtimo (lim : Limits)
  | drain
  deriving DecidableEq, Repr

def step (s : State) : Event → Option State
  | .input lim mem p => (frag6Input lim mem s p).map Prod.fst
  | .slowtimo lim => some (frag6Slowtimo lim s)
  | .drain => some (frag6Drain s)

def run : State → List Event → Option State
  | s, [] => some s
  | s, e :: es => (step s e).bind fun s => run s es

def Event.Served (s : State) : Event → Prop
  | .input lim mem p => Frag6.Served lim mem s p
  | .slowtimo _ | .drain => True

/-- No call of the run goes wrong. -/
def RunServed : State → List Event → Prop
  | _, [] => True
  | s, e :: es => e.Served s ∧ ∀ s', step s e = some s' → RunServed s' es

/-- Every queue has fragments, in the order of their offsets and without common bytes, and the
counters count them. -/
structure Sane (s : State) : Prop where
  nonempty : ∀ q6 ∈ s.frag6_queue, q6.ip6q_asfrag ≠ []
  sorted : ∀ q6 ∈ s.frag6_queue, q6.ip6q_asfrag.Pairwise fun a b => a.ip6af_off ≤ b.ip6af_off
  disjoint : ∀ q6 ∈ s.frag6_queue, q6.ip6q_asfrag.Pairwise fun a b =>
    ∀ x, a.ip6af_off ≤ x → x < a.ip6af_off + a.ip6af_frglen → b.ip6af_off ≤ x →
      ¬x < b.ip6af_off + b.ip6af_frglen
  packets : s.counters.frag6_nfragpackets = uInt s.frag6_queue.length
  frags : s.counters.frag6_nfrags = uInt (fragments s.frag6_queue)

theorem Inv.sane {s : State} (hs : Inv s) : Sane s where
  nonempty q6 hq6 := (hs.sound q6 hq6).nonempty
  sorted q6 hq6 := by
    have hq := hs.sound q6 hq6
    refine hq.apart.imp_of_mem fun {a b} ha _ hab => ?_
    have := hq.length a ha
    omega
  disjoint q6 hq6 := by
    refine (hs.sound q6 hq6).apart.imp fun {a b} hab x _ h2 h3 _ => ?_
    omega
  packets := by rw [hs.counters, Counters.of]
  frags := by rw [hs.counters, Counters.of]

theorem step_inv {s : State} {e : Event} (hs : Inv s) (he : e.Served s) :
    ∃ s', step s e = some s' ∧ Inv s' := by
  cases e with
  | input lim mem p =>
    obtain ⟨s', ret, hrun, hs'⟩ := frag6Input_inv hs he
    exact ⟨s', by simp [step, hrun], hs'⟩
  | slowtimo lim => exact ⟨_, rfl, frag6Slowtimo_inv hs⟩
  | drain => exact ⟨_, rfl, frag6Drain_inv hs⟩

theorem run_inv {s : State} {es : List Event} (hs : Inv s) (hes : RunServed s es) :
    ∃ s', run s es = some s' ∧ Inv s' := by
  induction es generalizing s with
  | nil => exact ⟨s, rfl, hs⟩
  | cons e es ih =>
    obtain ⟨s₁, hstep, hs₁⟩ := step_inv hs hes.1
    obtain ⟨s', hrun, hs'⟩ := ih hs₁ (hes.2 s₁ hstep)
    exact ⟨s', by simp [run, hstep, hrun], hs'⟩

/-- When every new queue gets its fragment and no fragment is dequeued for being too long, no
call uses the first fragment of an empty queue, and the queues and their counters are right. -/
theorem queues_sane (es : List Event) (hes : RunServed .initial es) :
    ∃ s, run .initial es = some s ∧ Sane s := by
  obtain ⟨s, hrun, hs⟩ := run_inv inv_initial hes
  exact ⟨s, hrun, hs.sane⟩

/-- The fragment at the offset, in units of 8 bytes, of 8 bytes that are not the last. -/
def sample (units : BitVec 16) : Packet :=
  ⟨1, 2, 0, 16#16, 17, units <<< 3 ||| 1, 7, 40, List.replicate 8 0, fun _ => by decide⟩

theorem queues_sane_two :
    ∃ s, run .initial [.input ⟨-1, -1⟩ ⟨true, true, true⟩ (sample 0),
        .input ⟨-1, -1⟩ ⟨true, true, true⟩ (sample 1), .slowtimo ⟨-1, -1⟩] = some s ∧ Sane s := by
  refine queues_sane _ ⟨?_, fun s hs => ⟨?_, fun s' _ => ⟨trivial, fun _ _ => trivial⟩⟩⟩
  · intro _ _
    exact ⟨rfl, rfl, by decide⟩
  · cases hs
    intro _ hoff
    exact absurd hoff (by decide)

/-- A fragment that would end behind the greatest length leaves a queue with nothing on it, and
the next fragment of the packet is compared with its first fragment. -/
theorem empty_queue :
    (∃ s, run .initial [.input ⟨-1, -1⟩ ⟨true, true, true⟩ (sample 8191)] = some s ∧ ¬Sane s) ∧
      run .initial [.input ⟨-1, -1⟩ ⟨true, true, true⟩ (sample 8191),
        .input ⟨-1, -1⟩ ⟨true, true, true⟩ (sample 1)] = none := by
  refine ⟨⟨_, rfl, fun hs => ?_⟩, by decide⟩
  exact hs.nonempty _ (List.mem_singleton.2 rfl) rfl

end OpenbsdKernel.Frag6
