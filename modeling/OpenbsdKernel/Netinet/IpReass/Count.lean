import OpenbsdKernel.Netinet.IpReass.Basic

/-!
# The fragments are counted

Whatever fragments arrive, `ip_frags` is the number of entries on all queues and no queue is
empty: every path of `ip_reass` gives back what it takes out of a queue.
-/
namespace OpenbsdKernel.IpInput

/-- The number of entries of a queue that may be gone. -/
def entries (fp : Option Ipq) : ℤ := (fp.map fun fp => (fp.ipq_fragq.length : ℤ)).getD 0

/-- The number of entries on all queues. -/
def total (ipq : List Ipq) : ℤ := (ipq.map fun fp => (fp.ipq_fragq.length : ℤ)).sum

structure Counted (st : State) : Prop where
  count : st.ip_frags = total st.ipq
  nonempty : ∀ fp ∈ st.ipq, fp.ipq_fragq ≠ []

@[simp] theorem entries_none : entries none = 0 := rfl

@[simp] theorem entries_some (fp : Ipq) : entries (some fp) = fp.ipq_fragq.length := rfl

@[simp] theorem total_nil : total [] = 0 := rfl

@[simp] theorem total_cons (fp : Ipq) (ipq : List Ipq) :
    total (fp :: ipq) = fp.ipq_fragq.length + total ipq := by simp [total]

@[simp] theorem total_append (a b : List Ipq) : total (a ++ b) = total a + total b := by
  simp [total]

@[simp] theorem total_toList (fp : Option Ipq) : total fp.toList = entries fp := by
  cases fp <;> simp

section Reass

variable {fp : Ipq}

/-- A queue is left that is not empty, or none, and the count follows it from `k`. -/
structure Follows (k : ℤ) (r : Reass) : Prop where
  count : r.ip_frags - entries r.fp = k
  nonempty : ∀ fp ∈ r.fp, fp.ipq_fragq ≠ []

theorem trimSucceeding_count (ipqe : Ipqent) (fragq : List Ipqent) (n : ℤ) :
    (trimSucceeding ipqe fragq n).2 - (trimSucceeding ipqe fragq n).1.length = n - fragq.length := by
  induction fragq generalizing n with
  | nil => rfl
  | cons q fragq ih =>
    rw [trimSucceeding]
    split
    · split
      · simp
      · rw [ih, List.length_cons]
        push_cast
        ring
    · rfl

theorem ipComplete_follows (fp : Ipq) (h : fp.ipq_fragq ≠ []) (n : ℤ) :
    ∃ r, ipComplete fp n = some r ∧ Follows (n - fp.ipq_fragq.length) r := by
  obtain ⟨q, hq⟩ := Option.isSome_iff_exists.1 (List.isSome_head?.2 h)
  obtain ⟨p, hp⟩ := Option.isSome_iff_exists.1 (List.getLast?_isSome.2 h)
  have hkept : Follows (n - fp.ipq_fragq.length) ⟨some fp, none, n⟩ :=
    ⟨by simp, by simpa using h⟩
  unfold ipComplete
  split
  · exact ⟨_, rfl, hkept⟩
  simp only [hq, hp]
  split
  · exact ⟨_, rfl, hkept⟩
  split
  all_goals exact ⟨_, rfl, by simp, by simp⟩

theorem ipReassQueue_follows (ipqe : Ipqent) (h : fp.ipq_fragq ≠ []) (n : ℤ) :
    ∃ r, ipReassQueue ipqe fp n = some r ∧ Follows (n - 1 - fp.ipq_fragq.length) r := by
  obtain ⟨first, fragq, hfragq⟩ := List.exists_cons_of_ne_nil h
  unfold ipReassQueue
  simp only [hfragq]
  split
  · exact ⟨_, rfl, by simp [hfragq], by simp [hfragq]⟩
  next first' _ =>
  split
  · exact ⟨_, rfl, by simp, by simp⟩
  next ipqe' _ =>
  have hcount := trimSucceeding_count ipqe'
    ((first' :: fragq).dropWhile fun q => q.off ≤ ipqe.off) n
  have hsplit := congrArg List.length (List.takeWhile_append_dropWhile
    (p := fun q : Ipqent => decide (q.off ≤ ipqe.off)) (l := first' :: fragq))
  rw [List.length_append, List.length_cons] at hsplit
  obtain ⟨r, hr, hfollows⟩ := ipComplete_follows { fp with
    ipq_fragq := ((first' :: fragq).takeWhile fun q => q.off ≤ ipqe.off) ++
      ipqe' :: (trimSucceeding ipqe' ((first' :: fragq).dropWhile fun q => q.off ≤ ipqe.off) n).1 }
    (by simp) (trimSucceeding ipqe' ((first' :: fragq).dropWhile fun q => q.off ≤ ipqe.off) n).2
  refine ⟨r, hr, ?_, hfollows.nonempty⟩
  rw [hfollows.count]
  simp only [List.length_append, List.length_cons]
  push_cast
  omega

theorem ipReass_follows (alloc : Bool) (ipqe : Ipqent) (fp : Option Ipq)
    (h : ∀ q ∈ fp, q.ipq_fragq ≠ []) (n : ℤ) :
    ∃ r, ipReass alloc ipqe fp n = some r ∧ Follows (n - 1 - entries fp) r := by
  cases fp with
  | none =>
    cases alloc with
    | false => exact ⟨_, rfl, by simp, by simp⟩
    | true =>
      obtain ⟨r, hr, hfollows⟩ := ipComplete_follows ⟨IPFRAGTTL, ipqe.ipqe_ip.ip_p,
        ipqe.ipqe_ip.ip_id, ipqe.ipqe_ip.ip_src, ipqe.ipqe_ip.ip_dst, [ipqe]⟩ (by simp) n
      refine ⟨r, hr, ?_, hfollows.nonempty⟩
      rw [hfollows.count]
      simp
  | some fp => exact ipReassQueue_follows ipqe (h fp rfl) n

end Reass

section List

variable {st : State}

theorem reassemble_counted (alloc : Bool) (h : Counted st) (ipqe : Ipqent) :
    ∃ r, reassemble alloc st ipqe = some r ∧ Counted r.2 := by
  have hsplit := List.takeWhile_append_dropWhile
    (p := fun fp : Ipq => !fp.matches ipqe.ipqe_ip) (l := st.ipq)
  have hcount := h.count
  unfold reassemble
  split
  · obtain ⟨r, hr, hfollows⟩ := ipReass_follows alloc ipqe none (by simp) (st.ip_frags + 1)
    refine ⟨_, by rw [hr]; rfl, ?_, ?_⟩
    · have := hfollows.count
      simp only [total_append, total_toList, entries_none] at this ⊢
      omega
    · intro fp hfp
      obtain hfp | hfp := List.mem_append.1 hfp
      · exact hfollows.nonempty fp (Option.mem_toList.1 hfp)
      · exact h.nonempty fp hfp
  · next fp rest hrest =>
    rw [hrest] at hsplit
    have hfp : fp ∈ st.ipq := by rw [← hsplit]; simp
    obtain ⟨r, hr, hfollows⟩ := ipReass_follows alloc ipqe (some fp) (by simpa using h.nonempty fp hfp)
      (st.ip_frags + 1)
    refine ⟨_, by rw [hr]; rfl, ?_, ?_⟩
    · have := hfollows.count
      rw [← hsplit] at hcount
      simp only [total_append, total_cons, total_toList, entries_some] at this hcount ⊢
      omega
    · intro fp' hfp'
      simp only [List.mem_append, Option.mem_toList] at hfp'
      obtain (hfp' | hfp') | hfp' := hfp'
      · exact h.nonempty fp' (by rw [← hsplit]; simp [hfp'])
      · exact hfollows.nonempty fp' hfp'
      · exact h.nonempty fp' (by rw [← hsplit]; simp [hfp'])

theorem freeFirst_counted (h : Counted st) : Counted (freeFirst st) := by
  unfold freeFirst
  split
  · exact h
  · next fp ipq hipq =>
    have hcount := h.count
    rw [hipq, total_cons] at hcount
    refine ⟨?_, fun fp' hfp' => h.nonempty fp' (by rw [hipq]; simp [hfp'])⟩
    simp only
    omega

theorem ipFlush_counted (ip_maxqueue : ℤ) (h : Counted st) : Counted (ipFlush ip_maxqueue st) := by
  unfold ipFlush
  generalize 49 = max
  induction max generalizing st with
  | zero => exact h
  | succ max ih =>
    rw [ipFlushLoop]
    split
    · exact ih (freeFirst_counted h)
    · exact h

theorem ipDrain_counted (h : Counted st) : Counted (ipDrain st) := by
  unfold ipDrain
  generalize st.ipq = ipq
  induction ipq generalizing st with
  | nil => exact h
  | cons fp ipq ih => exact ih (freeFirst_counted h)

theorem ipSlowtimo_counted (h : Counted st) : Counted (ipSlowtimo st) := by
  -- the queues not yet visited are still counted
  have hloop : ∀ (ipq : List Ipq) (acc : State), (∀ fp ∈ ipq, fp.ipq_fragq ≠ []) →
      (∀ fp ∈ acc.ipq, fp.ipq_fragq ≠ []) → acc.ip_frags = total acc.ipq + total ipq →
      Counted (ipq.foldl (fun (acc : State) fp =>
        let ttl := (fp.ipq_ttl + 255) % 256
        if ttl = 0 then { acc with ip_frags := acc.ip_frags - fp.ipq_fragq.length }
        else { acc with ipq := acc.ipq ++ [{ fp with ipq_ttl := ttl }] }) acc) := by
    intro ipq
    induction ipq with
    | nil =>
      intro acc _ hacc hcount
      exact ⟨by simpa using hcount, hacc⟩
    | cons fp ipq ih =>
      intro acc hipq hacc hcount
      rw [List.foldl_cons]
      refine ih _ (fun fp' hfp' => hipq fp' (by simp [hfp'])) ?_ ?_
      · simp only
        split
        · exact hacc
        · intro fp' hfp'
          obtain hfp' | hfp' := List.mem_append.1 hfp'
          · exact hacc fp' hfp'
          · rw [List.mem_singleton.1 hfp']
            exact hipq fp (by simp)
      · simp only [total_cons] at hcount
        simp only
        split
        · simp only
          omega
        · simp only [total_append, total_cons, total_nil]
          omega
  refine hloop st.ipq ⟨[], st.ip_frags⟩ h.nonempty (by simp) ?_
  simpa using h.count

theorem freeMatching_counted (h : Counted st) (ip : Ip) : Counted (freeMatching st ip) := by
  have hsplit := List.takeWhile_append_dropWhile (p := fun fp : Ipq => !fp.matches ip) (l := st.ipq)
  have hcount := h.count
  unfold freeMatching
  split
  · exact h
  · next fp rest hrest =>
    rw [hrest] at hsplit
    rw [← hsplit] at hcount
    refine ⟨?_, fun fp' hfp' => h.nonempty fp' ?_⟩
    · simp only [total_append, total_cons] at hcount ⊢
      omega
    · rw [← hsplit]
      simp only [List.mem_append, List.mem_cons] at hfp' ⊢
      tauto

theorem intake_counted (ip_maxqueue : ℤ) (allocEnt allocQ : Bool) (h : Counted st) (pkt : Packet) :
    ∃ r, intake ip_maxqueue allocEnt allocQ st pkt = some r ∧ Counted r.2 := by
  unfold intake
  simp only
  split
  · exact ⟨_, rfl, h⟩
  split
  · split
    · exact ⟨_, rfl, ipFlush_counted ip_maxqueue h⟩
    split
    · exact reassemble_counted allocQ h _
    · exact ⟨_, rfl, h⟩
  · exact ⟨_, rfl, freeMatching_counted h _⟩

/-- One thing that happens to the queues. -/
inductive Step (ip_maxqueue : ℤ) (st : State) : State → Prop
  | intake {allocEnt allocQ pkt r} (h : intake ip_maxqueue allocEnt allocQ st pkt = some r) :
      Step ip_maxqueue st r.2
  | flush : Step ip_maxqueue st (ipFlush ip_maxqueue st)
  | drain : Step ip_maxqueue st (ipDrain st)
  | slowtimo : Step ip_maxqueue st (ipSlowtimo st)

theorem Step.counted {ip_maxqueue : ℤ} {st' : State} (h : Step ip_maxqueue st st')
    (hst : Counted st) : Counted st' := by
  cases h with
  | @intake allocEnt allocQ pkt r h =>
    obtain ⟨r', hr', hcounted⟩ := intake_counted ip_maxqueue allocEnt allocQ hst pkt
    rw [h] at hr'
    cases hr'
    exact hcounted
  | flush => exact ipFlush_counted ip_maxqueue hst
  | drain => exact ipDrain_counted hst
  | slowtimo => exact ipSlowtimo_counted hst

end List

/-- The states reached by any packets and timers; `ip_maxqueue` may change in between. -/
inductive Reached : State → Prop
  | start : Reached .initial
  | step {ip_maxqueue st st'} (h : Reached st) (hstep : Step ip_maxqueue st st') : Reached st'

theorem Reached.counted {st : State} (h : Reached st) : Counted st := by
  induction h with
  | start => exact ⟨rfl, by simp [State.initial]⟩
  | step _ hstep ih => exact hstep.counted ih

end OpenbsdKernel.IpInput
