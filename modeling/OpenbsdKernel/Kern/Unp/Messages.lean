import OpenbsdKernel.Kern.Unp.Basic

/-!
# Messages that carry files

What `unp_scan` finds in a receive buffer, and what `unp_discard` does to the messages it
is given: their files go to deferral records, their arrays are filled with null pointers.
-/
namespace OpenbsdKernel.Unp

/-- The files that a control message refers to. -/
def State.files (s : State) (m : ℕ) : List (Option ℕ) :=
  if (s.mbuf m).Rights then
    match getPtrs (s.mbuf m).data (s.mbuf m).qfds.toNat with
    | .ok rp => rp
    | .error _ => []
  else []

/-- What a socket was sent and has not received yet. -/
def State.passed (s : State) (unp : ℕ) : List (Option ℕ) :=
  (s.rcv unp).flatten.flatMap s.files

/-- A packet of a receive buffer carries at most one message with files, and its files can
be read. -/
structure Packet (s : State) (p : List ℕ) : Prop where
  one : (p.filter fun m => (s.mbuf m).Rights).length ≤ 1
  readable : ∀ m ∈ p, (s.mbuf m).Rights →
    ∃ rp, getPtrs (s.mbuf m).data (s.mbuf m).qfds.toNat = .ok rp

section Scan

variable {s : State}

theorem files_of_not_rights {m : ℕ} (h : ¬ (s.mbuf m).Rights) : s.files m = [] := if_neg h

theorem files_of_rights {m : ℕ} (h : (s.mbuf m).Rights) {rp : List (Option ℕ)}
    (hrp : getPtrs (s.mbuf m).data (s.mbuf m).qfds.toNat = .ok rp) : s.files m = rp := by
  rw [State.files, if_pos h, hrp]

/-- Reading each item and using it at once is the same as reading all items first. -/
theorem foldlM_of_mapM {α β σ : Type} {f : α → Except Fault β} (k : σ → β → σ) {l : List α}
    {xs : List β} (h : l.mapM f = .ok xs) (a : σ) :
    l.foldlM (fun a i => do
      let x ← f i
      pure (k a x)) a = .ok (xs.foldl k a) := by
  induction l generalizing xs a with
  | nil =>
    cases h
    rfl
  | cons i l ih =>
    rw [List.mapM_cons] at h
    cases hi : f i with
    | error e =>
      rw [hi] at h
      cases h
    | ok x =>
      cases hl : l.mapM f with
      | error e =>
        rw [hi, hl] at h
        cases h
      | ok ys =>
        rw [hi, hl] at h
        cases h
        simp only [List.foldlM_cons, hi, List.foldl_cons]
        exact ih hl (k a x)

theorem unpMark_eq {m : ℕ} {nfds : ℤ} {rp : List (Option ℕ)}
    (h : getPtrs (s.mbuf m).data nfds.toNat = .ok rp) (g : Gc) :
    unpMark s g m nfds = .ok (rp.foldl (markFile s) g) := foldlM_of_mapM (markFile s) h g

theorem flatMap_files_nil {p : List ℕ} (h : ∀ m ∈ p, ¬ (s.mbuf m).Rights) :
    p.flatMap s.files = [] := by
  apply List.flatMap_eq_nil_iff.mpr
  intro m hm
  exact files_of_not_rights (h m hm)

theorem Packet.tail {m : ℕ} {p : List ℕ} (h : Packet s (m :: p)) : Packet s p := by
  refine ⟨?_, fun x hx => h.readable x (List.mem_cons_of_mem m hx)⟩
  exact le_trans ((List.sublist_cons_self m p).filter _).length_le h.one

/-- Behind the message with files there is no other. -/
theorem Packet.rest {m : ℕ} {p : List ℕ} (h : Packet s (m :: p)) (hm : (s.mbuf m).Rights) :
    ∀ x ∈ p, ¬ (s.mbuf x).Rights := by
  intro x hx hr
  have hone := h.one
  rw [List.filter_cons_of_pos (by simpa using hm), List.length_cons] at hone
  have hin : x ∈ p.filter fun m => (s.mbuf m).Rights := by simpa using ⟨hx, hr⟩
  have := List.length_pos_of_mem hin
  omega

theorem scanPacket_mark {p : List ℕ} (h : Packet s p) (g : Gc) :
    scanPacket (fun _ => s.mbuf) (unpMark s) g p =
      .ok ((p.flatMap s.files).foldl (markFile s) g) := by
  induction p with
  | nil => rfl
  | cons m p ih =>
    rw [scanPacket, List.flatMap_cons]
    by_cases hm : (s.mbuf m).Rights
    · rw [if_pos hm, flatMap_files_nil (h.rest hm), List.append_nil]
      obtain ⟨rp, hrp⟩ := h.readable m (List.mem_cons_self ..) hm
      rw [files_of_rights hm hrp]
      split_ifs with hq
      · exact unpMark_eq hrp g
      · have hzero : (s.mbuf m).qfds.toNat = 0 := by omega
        rw [hzero] at hrp
        cases hrp
        rfl
    · rw [if_neg hm, files_of_not_rights hm]
      exact ih h.tail

theorem unpScan_mark {pkts : List (List ℕ)} (h : ∀ p ∈ pkts, Packet s p) (g : Gc) :
    unpScan (fun _ => s.mbuf) (unpMark s) g pkts =
      .ok ((pkts.flatten.flatMap s.files).foldl (markFile s) g) := by
  induction pkts generalizing g with
  | nil => rfl
  | cons p pkts ih =>
    rw [unpScan, List.foldlM_cons, scanPacket_mark (h p (List.mem_cons_self ..))]
    rw [List.flatten_cons, List.flatMap_append, List.foldl_append]
    exact ih (fun q hq => h q (List.mem_cons_of_mem p hq)) _

end Scan

theorem getPtr_zeroPtrs {data : ℕ → Word} {n i : ℕ} (h : i < n) :
    getPtr (zeroPtrs data n) i = .ok none := by
  have h₁ : 2 * i < 2 * n := by omega
  have h₂ : 2 * i + 1 < 2 * n := by omega
  simp [getPtr, zeroPtrs, h₁, h₂]

theorem getPtrs_eq {data : ℕ → Word} {n : ℕ} {rp : List (Option ℕ)} (hlen : rp.length = n)
    (h : ∀ (i : ℕ) fp, rp[i]? = some fp → getPtr data i = .ok fp) : getPtrs data n = .ok rp := by
  have hmap : ∀ (l : List ℕ) (xs : List (Option ℕ)), l.length = xs.length →
      (∀ (i : ℕ) fp, xs[i]? = some fp → ∃ j, l[i]? = some j ∧ getPtr data j = .ok fp) →
      l.mapM (getPtr data) = .ok xs := by
    intro l
    induction l with
    | nil =>
      intro xs hl _
      rw [List.length_eq_zero_iff.mp hl.symm]
      rfl
    | cons j l ih =>
      intro xs hl hx
      cases xs with
      | nil => cases hl
      | cons x xs =>
        obtain ⟨k, hk, hj⟩ := hx 0 x rfl
        cases hk
        rw [List.mapM_cons, hj]
        rw [ih xs (by simpa using hl) fun i fp hi => hx (i + 1) fp hi]
        rfl
  apply hmap
  · simp [hlen]
  · intro i fp hi
    obtain ⟨hlt, -⟩ := List.getElem?_eq_some_iff.mp hi
    exact ⟨i, by rw [List.getElem?_range (by omega)], h i fp hi⟩

theorem getPtrs_zeroPtrs (data : ℕ → Word) (n : ℕ) :
    getPtrs (zeroPtrs data n) n = .ok (List.replicate n none) := by
  apply getPtrs_eq (List.length_replicate ..)
  intro i fp hi
  obtain ⟨hlt, heq⟩ := List.getElem?_eq_some_iff.mp hi
  rw [List.getElem_replicate] at heq
  rw [List.length_replicate] at hlt
  rw [← heq, getPtr_zeroPtrs hlt]

/-- The messages that `unp_scan` hands on. -/
def Mbuf.Carries (mb : Mbuf) : Prop := mb.Rights ∧ 0 < mb.qfds

instance (mb : Mbuf) : Decidable mb.Carries := by
  unfold Mbuf.Carries
  infer_instance

/-- The message with its array filled with null pointers. -/
def Mbuf.emptied (mb : Mbuf) : Mbuf := { mb with data := zeroPtrs mb.data mb.qfds.toNat }

/-- The state after one message has been discarded. -/
def State.discard (s : State) (m : ℕ) : State :=
  { s.setMbuf m (s.mbuf m).emptied with unp_deferred := s.files m :: s.unp_deferred }

section Discard

variable {s : State}

theorem unpDiscard_eq {m : ℕ} (hm : (s.mbuf m).Rights)
    (h : ∃ rp, getPtrs (s.mbuf m).data (s.mbuf m).qfds.toNat = .ok rp) :
    unpDiscard s m (s.mbuf m).qfds = .ok (s.discard m) := by
  obtain ⟨rp, hrp⟩ := h
  rw [unpDiscard, hrp, State.discard, files_of_rights hm hrp]
  rfl

theorem mbuf_discard (s : State) (m x : ℕ) :
    (s.discard m).mbuf x = if x = m then (s.mbuf x).emptied else s.mbuf x := by
  by_cases hx : x = m
  · subst hx
    simp [State.discard, State.setMbuf]
  · simp [State.discard, State.setMbuf, hx]

/-- The header of a message stays as it is. -/
theorem rights_discard (s : State) (m x : ℕ) :
    ((s.discard m).mbuf x).Rights ↔ (s.mbuf x).Rights := by
  rw [mbuf_discard]
  split_ifs <;> rfl

theorem carries_discard (s : State) (m x : ℕ) :
    ((s.discard m).mbuf x).Carries ↔ (s.mbuf x).Carries := by
  rw [mbuf_discard]
  split_ifs <;> rfl

theorem Packet.discard {p : List ℕ} (h : Packet s p) (m : ℕ) : Packet (s.discard m) p := by
  refine ⟨?_, fun x hx hr => ?_⟩
  · simp only [rights_discard]
    exact h.one
  · rw [mbuf_discard]
    split_ifs with hxm
    · exact ⟨_, getPtrs_zeroPtrs _ _⟩
    · exact h.readable x hx ((rights_discard s m x).mp hr)

/-- The messages with files in a packet or a buffer. -/
def State.carriers (s : State) (p : List ℕ) : List ℕ := p.filter fun m => (s.mbuf m).Carries

theorem mem_carriers {p : List ℕ} {m : ℕ} : m ∈ s.carriers p ↔ m ∈ p ∧ (s.mbuf m).Carries := by
  simp [State.carriers]

theorem carriers_append (p q : List ℕ) : s.carriers (p ++ q) = s.carriers p ++ s.carriers q :=
  List.filter_append ..

theorem carriers_cons_pos {m : ℕ} (p : List ℕ) (h : (s.mbuf m).Carries) :
    s.carriers (m :: p) = m :: s.carriers p := List.filter_cons_of_pos (decide_eq_true h)

theorem carriers_cons_neg {m : ℕ} (p : List ℕ) (h : ¬ (s.mbuf m).Carries) :
    s.carriers (m :: p) = s.carriers p := by
  apply List.filter_cons_of_neg
  simpa using h

theorem scanPacket_discard {p : List ℕ} (h : Packet s p) :
    scanPacket State.mbuf unpDiscard s p = .ok ((s.carriers p).foldl State.discard s) := by
  induction p with
  | nil => rfl
  | cons m p ih =>
    rw [scanPacket]
    by_cases hm : (s.mbuf m).Rights
    · have hrest : s.carriers p = [] := by
        apply List.eq_nil_iff_forall_not_mem.mpr
        intro x hx
        obtain ⟨hin, hr, -⟩ := mem_carriers.mp hx
        exact h.rest hm x hin hr
      rw [if_pos hm]
      split_ifs with hq
      · rw [unpDiscard_eq hm (h.readable m (List.mem_cons_self ..) hm),
          carriers_cons_pos p ⟨hm, hq⟩, hrest]
        rfl
      · rw [carriers_cons_neg p fun hc => hq hc.2, hrest]
        rfl
    · rw [if_neg hm, carriers_cons_neg p fun hc => hm hc.1]
      exact ih h.tail

theorem carriers_discards (s : State) (ms p : List ℕ) :
    (ms.foldl State.discard s).carriers p = s.carriers p := by
  induction ms generalizing s with
  | nil => rfl
  | cons m ms ih =>
    rw [List.foldl_cons, ih]
    simp only [State.carriers, carries_discard]

theorem Packet.discards {p : List ℕ} (h : Packet s p) (ms : List ℕ) :
    Packet (ms.foldl State.discard s) p := by
  induction ms generalizing s with
  | nil => exact h
  | cons m ms ih => exact ih (h.discard m)

theorem unpScan_discard {pkts : List (List ℕ)} (h : ∀ p ∈ pkts, Packet s p) :
    unpScan State.mbuf unpDiscard s pkts =
      .ok ((s.carriers pkts.flatten).foldl State.discard s) := by
  induction pkts generalizing s with
  | nil => rfl
  | cons p pkts ih =>
    rw [unpScan, List.foldlM_cons, scanPacket_discard (h p (List.mem_cons_self ..))]
    have hrest := ih fun q hq => (h q (List.mem_cons_of_mem p hq)).discards (s.carriers p)
    rw [carriers_discards] at hrest
    rw [List.flatten_cons, carriers_append, List.foldl_append]
    exact hrest

/-- The state after several messages have been discarded. -/
def State.discardAll (s : State) (ms : List ℕ) : State :=
  { s with
    mbuf := fun x => if x ∈ ms then (s.mbuf x).emptied else s.mbuf x
    unp_deferred := (ms.map s.files).reverse ++ s.unp_deferred }

theorem files_discardAll {ms : List ℕ} {m : ℕ} (hm : m ∈ ms) (hr : (s.mbuf m).Rights) :
    (s.discardAll ms).files m = List.replicate (s.mbuf m).qfds.toNat none := by
  have hmb : (s.discardAll ms).mbuf m = (s.mbuf m).emptied := if_pos hm
  apply files_of_rights
  · rw [hmb]
    exact hr
  · rw [hmb]
    exact getPtrs_zeroPtrs _ _

theorem files_discard {m x : ℕ} (h : x ≠ m) : (s.discard m).files x = s.files x := by
  have hx : (s.discard m).mbuf x = s.mbuf x := by rw [mbuf_discard, if_neg h]
  rw [State.files, State.files, hx]

theorem discards_eq {ms : List ℕ} (h : ms.Nodup) :
    ms.foldl State.discard s = s.discardAll ms := by
  induction ms generalizing s with
  | nil => simp [State.discardAll]
  | cons m ms ih =>
    obtain ⟨hm, hms⟩ := List.nodup_cons.mp h
    have hfiles : ms.map (s.discard m).files = ms.map s.files := by
      apply List.map_congr_left
      intro x hx
      exact files_discard fun hxm => hm (hxm ▸ hx)
    rw [List.foldl_cons, ih hms]
    unfold State.discardAll
    rw [hfiles]
    congr 1
    · funext x
      rw [mbuf_discard]
      by_cases hx : x = m
      · subst hx
        simp [hm]
      · simp [hx]
    · simp [State.discard]

end Discard

end OpenbsdKernel.Unp
