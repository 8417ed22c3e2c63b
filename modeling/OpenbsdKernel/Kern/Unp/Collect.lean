import OpenbsdKernel.Kern.Unp.Mark

/-!
# Collecting the sockets that are dead

The passes of `unp_gc` over `unp_head` end with exactly the unreachable sockets dead, and
what these were sent is discarded.
-/
namespace OpenbsdKernel.Unp

section Passes

variable {s : State} {g g' : Gc}

theorem visits_spec (h : Wf s) {l : List ℕ} (hl : ∀ u ∈ l, u ∈ s.unp_head) (hm : Marks s g) :
    ∃ g', l.foldlM (visit s) g = .ok g' ∧ Marks s g' ∧ Passed s l g g' := by
  induction l generalizing g with
  | nil => exact ⟨g, rfl, hm, Passed.refl s g⟩
  | cons u l ih =>
    obtain ⟨g₁, h₁, hm₁, hp₁⟩ := visit_spec h (hl u (List.mem_cons_self ..)) hm
    obtain ⟨g₂, h₂, hm₂, hp₂⟩ := ih (fun v hv => hl v (List.mem_cons_of_mem u hv)) hm₁
    refine ⟨g₂, ?_, hm₂, hp₁.trans hp₂⟩
    rw [List.foldlM_cons, h₁]
    exact h₂

theorem pass_spec (h : Wf s) (hm : Marks s g) :
    ∃ g', pass s g = .ok g' ∧ Marks s g' ∧ Passed s s.unp_head { g with nunref := 0 } g' :=
  visits_spec h (fun _ hu => hu) ⟨hm.count, hm.excl, hm.dead, hm.frontier, hm.origin⟩

/-- Between two passes some socket is deferred; before the first one none is marked. -/
def Between (s : State) (g : Gc) : Prop :=
  Marks s g ∧ (g.unp_defer = 0 → g.marked s = ∅)

theorem pass_progress (hb : Between s g) (hm' : Marks s g')
    (hp : Passed s s.unp_head { g with nunref := 0 } g') (hne : g'.unp_defer ≠ 0) :
    (g.marked s).card < (g'.marked s).card := by
  have hsub : g.marked s ⊆ g'.marked s := by
    intro v hv
    obtain ⟨hin, hmk⟩ := mem_marked.mp hv
    exact mem_marked.mpr ⟨hin, hp.mark v hmk⟩
  apply Finset.card_lt_card
  refine ⟨hsub, fun hback => ?_⟩
  by_cases h0 : g.unp_defer = 0
  · have hpos : (g'.deferred s).Nonempty := by
      rw [← Finset.card_ne_zero]
      intro hz
      rw [hm'.count, hz] at hne
      exact hne rfl
    obtain ⟨v, hv⟩ := hm'.origin hpos
    have := hback hv
    rw [hb.2 h0] at this
    cases this
  · have hpos : (g.deferred s).Nonempty := by
      rw [← Finset.card_ne_zero]
      intro hz
      rw [hb.1.count, hz] at h0
      exact h0 rfl
    obtain ⟨v, hv⟩ := hpos
    obtain ⟨hin, hd⟩ := mem_deferred.mp hv
    have hmk := (mem_marked.mp (hback (mem_marked.mpr ⟨hin, hp.seen v hin (.inr hd)⟩))).2
    rw [hb.1.excl v hin hmk] at hd
    cases hd

/-- What the marking leaves. -/
structure Collected (s : State) (g : Gc) : Prop where
  mark : ∀ u ∈ s.unp_head,
    (g.unp_flags u).mark = true ↔ Marking.Reachable (Root s) (Refs s) u
  dead : ∀ u ∈ s.unp_head,
    (g.unp_flags u).dead = true ↔ ¬ Marking.Reachable (Root s) (Refs s) u
  nunref : ∀ u ∈ s.unp_head, (g.unp_flags u).dead = true → g.nunref ≠ 0

theorem Marks.collected (hm' : Marks s g')
    (hp : Passed s s.unp_head { g with nunref := 0 } g') (h0 : g'.unp_defer = 0) :
    Collected s g' := by
  have hnone : g'.deferred s = ∅ := by
    rw [← Finset.card_eq_zero]
    have := hm'.count
    omega
  have hjudged : ∀ u ∈ s.unp_head, (g'.unp_flags u).mark = true ∨
      ((g'.unp_flags u).dead = true ∧ Unreferenced s u) := by
    intro u hu
    rcases hp.judged u hu with (hmk | hd) | hdead
    · exact .inl hmk
    · have : u ∈ g'.deferred s := mem_deferred.mpr ⟨hu, hd⟩
      rw [hnone] at this
      cases this
    · exact .inr hdead
  have hroot : ∀ u, Root s u → u ∈ (g'.marked s : Set ℕ) := by
    rintro u ⟨hu, hun⟩
    rcases hjudged u hu with hmk | ⟨-, hun'⟩
    · exact mem_marked.mpr ⟨hu, hmk⟩
    · exact absurd hun' hun
  have hfrontier : Marking.Frontier (Root s) (Refs s) (g'.marked s : Set ℕ) ∅ := by
    have := hm'.frontier
    rwa [hnone, Finset.coe_empty] at this
  have hmark : ∀ u ∈ s.unp_head,
      (g'.unp_flags u).mark = true ↔ Marking.Reachable (Root s) (Refs s) u := by
    intro u hu
    rw [← hfrontier.mem_iff hroot, Finset.mem_coe, mem_marked]
    simp [hu]
  have hdead : ∀ u ∈ s.unp_head,
      (g'.unp_flags u).dead = true ↔ (g'.unp_flags u).mark ≠ true := by
    intro u hu
    constructor
    · intro hd
      rw [(hm'.dead u hu hd).1]
      simp
    · intro hmk
      exact ((hjudged u hu).resolve_left hmk).1
  refine ⟨hmark, fun u hu => ?_, fun u hu hd => ?_⟩
  · rw [hdead u hu, Ne, hmark u hu]
  · have hmk := (hdead u hu).mp hd
    have := (hp.counted u hu).resolve_left hmk
    dsimp only at this
    omega

end Passes

theorem between_clearFlags (s : State) (flags : ℕ → Flags) : Between s (clearFlags s flags) := by
  have hflags : ∀ u ∈ s.unp_head, (clearFlags s flags).unp_flags u = ⟨false, false, false⟩ :=
    fun u hu => if_pos hu
  have hmarked : (clearFlags s flags).marked s = ∅ := by
    apply Finset.filter_eq_empty_iff.mpr
    intro u hu
    rw [hflags u (List.mem_toFinset.mp hu)]
    simp
  have hdeferred : (clearFlags s flags).deferred s = ∅ := by
    apply Finset.filter_eq_empty_iff.mpr
    intro u hu
    rw [hflags u (List.mem_toFinset.mp hu)]
    simp
  refine ⟨⟨?_, fun u hu hm => ?_, fun u hu hd => ?_, ?_, fun hne => ?_⟩, fun _ => hmarked⟩
  · rw [hdeferred]
    rfl
  · rw [hflags u hu]
  · rw [hflags u hu] at hd
    cases hd
  · rw [hmarked, hdeferred, Finset.coe_empty]
    exact Marking.Frontier.empty
  · rw [hdeferred] at hne
    cases hne.ne_empty rfl

theorem gcMark_spec {s : State} (h : Wf s) (flags : ℕ → Flags) :
    ∃ g n, gcMark s flags = .returned g n ∧ Collected s g := by
  have hnext : ∀ g g', Between s g → passStep s g = .next g' →
      Between s g' ∧ s.unp_head.toFinset.card - (g'.marked s).card <
        s.unp_head.toFinset.card - (g.marked s).card := by
    intro g g' hb hst
    obtain ⟨g₁, hrun, hm₁, hp⟩ := pass_spec h hb.1
    rw [passStep, hrun] at hst
    dsimp only at hst
    split_ifs at hst with hne
    cases hst
    have hlt := pass_progress hb hm₁ hp hne
    have hle : (g'.marked s).card ≤ s.unp_head.toFinset.card :=
      Finset.card_le_card (Finset.filter_subset _ _)
    exact ⟨⟨hm₁, fun h0 => absurd h0 hne⟩, by omega⟩
  have hdone : ∀ g g', Between s g → passStep s g = .done g' → Collected s g' := by
    intro g g' hb hst
    obtain ⟨g₁, hrun, hm₁, hp⟩ := pass_spec h hb.1
    rw [passStep, hrun] at hst
    dsimp only at hst
    split_ifs at hst with hne
    cases hst
    exact hm₁.collected hp (not_not.mp hne)
  have hsafe : ∀ g e, Between s g → passStep s g ≠ .wrong e := by
    intro g e hb hst
    obtain ⟨g₁, hrun, -⟩ := pass_spec h hb.1
    rw [passStep, hrun] at hst
    dsimp only at hst
    split_ifs at hst
  have hcard : s.unp_head.toFinset.card ≤ s.unp_head.length := List.toFinset_card_le _
  obtain ⟨g, n, hrun, -, hg⟩ := Loop.run_returns (passStep s) hnext hdone hsafe
    (s.unp_head.length + 1) (clearFlags s flags) (between_clearFlags s flags) (by omega)
  exact ⟨g, n, hrun, hg⟩

/-- The messages in the buffers of the dead sockets. -/
def deadMessages (s : State) (g : Gc) : List ℕ :=
  (s.unp_head.filter fun unp => (g.unp_flags unp).dead).flatMap fun unp =>
    s.carriers (s.rcv unp).flatten

theorem rcv_discards (s : State) (ms : List ℕ) (unp : ℕ) :
    (ms.foldl State.discard s).rcv unp = s.rcv unp := by
  induction ms generalizing s with
  | nil => rfl
  | cons m ms ih => rw [List.foldl_cons, ih]; rfl

theorem discardDead_eq {s : State} {g : Gc} {l : List ℕ}
    (h : ∀ unp ∈ l, ∀ p ∈ s.rcv unp, Packet s p) (ms : List ℕ) :
    l.foldlM
      (fun s unp =>
        if (g.unp_flags unp).dead = true then unpScan State.mbuf unpDiscard s (s.rcv unp)
        else .ok s) (ms.foldl State.discard s) =
    .ok ((ms ++ (l.filter fun unp => (g.unp_flags unp).dead).flatMap fun unp =>
      s.carriers (s.rcv unp).flatten).foldl State.discard s) := by
  induction l generalizing ms with
  | nil => simp [pure, Except.pure]
  | cons unp l ih =>
    have hl : ∀ u ∈ l, ∀ p ∈ s.rcv u, Packet s p := fun u hu => h u (List.mem_cons_of_mem unp hu)
    rw [List.foldlM_cons]
    cases hd : (g.unp_flags unp).dead with
    | false =>
      rw [List.filter_cons_of_neg (by simp [hd])]
      exact ih hl ms
    | true =>
      have hp : ∀ p ∈ (ms.foldl State.discard s).rcv unp, Packet (ms.foldl State.discard s) p := by
        rw [rcv_discards]
        exact fun p hp => (h unp (List.mem_cons_self ..) p hp).discards ms
      rw [if_pos rfl, unpScan_discard hp, rcv_discards, carriers_discards, ← List.foldl_append,
        List.filter_cons_of_pos (by simpa using hd), List.flatMap_cons, ← List.append_assoc]
      exact ih hl _

theorem deadMessages_nodup {s : State} (h : Wf s) (g : Gc) : (deadMessages s g).Nodup := by
  have hall : (s.unp_head.flatMap fun unp => s.carriers (s.rcv unp).flatten).Sublist
      (s.unp_head.flatMap fun unp => (s.rcv unp).flatten) :=
    List.Sublist.flatMap_right _ fun _ _ => List.filter_sublist
  exact ((List.filter_sublist.flatMap _).trans hall).nodup h.own

theorem mem_deadMessages {s : State} {g : Gc} {m : ℕ} :
    m ∈ deadMessages s g ↔ ∃ u ∈ s.unp_head, (g.unp_flags u).dead = true ∧
      m ∈ (s.rcv u).flatten ∧ (s.mbuf m).Carries := by
  simp only [deadMessages, List.mem_flatMap, List.mem_filter, mem_carriers, and_assoc]

theorem Wf.unique {s : State} (h : Wf s) {u v m : ℕ} (hu : u ∈ s.unp_head) (hv : v ∈ s.unp_head)
    (hmu : m ∈ (s.rcv u).flatten) (hmv : m ∈ (s.rcv v).flatten) : u = v := by
  by_contra hne
  have hpw := (List.nodup_flatMap.mp h.own).2
  have hsymm : Std.Symm (Function.onFun List.Disjoint fun unp => (s.rcv unp).flatten) :=
    ⟨fun _ _ hd => hd.symm⟩
  exact hpw.forall hu hv hne hmu hmv

theorem gcDiscard_eq {s : State} (h : Wf s) {g : Gc} (hg : Collected s g) :
    gcDiscard s g = .ok (s.discardAll (deadMessages s g)) := by
  have hnodup := deadMessages_nodup h g
  rw [gcDiscard, ← discards_eq hnodup]
  split_ifs with hn
  · exact discardDead_eq h.packet []
  · have hnone : deadMessages s g = [] := by
      rw [deadMessages, List.filter_eq_nil_iff.mpr]
      · rfl
      · exact fun u hu hd => hn (hg.nunref u hu hd)
    rw [hnone]
    rfl

/-- The references to a file from messages in receive buffers. -/
def inFlight (s : State) (fp : ℕ) : ℕ := (s.unp_head.flatMap s.passed).count (some fp)

/-- `unp_msgcount` counts the references to the file of a socket that are in flight. -/
def Counted (s : State) : Prop :=
  ∀ unp ∈ s.unp_head, ∀ fp, (s.unpcb unp).unp_file = some fp →
    (s.unpcb unp).unp_msgcount = inFlight s fp

/-- A process has a descriptor of the socket, or can get one by receiving messages. -/
def Receivable (s : State) : ℕ → Prop :=
  Marking.Reachable (fun u => ∃ fp, s.fptounp fp = some u ∧ (inFlight s fp : ℤ) < (s.file fp).f_count)
    (Refs s)

theorem Receivable.reachable {s : State} (h : Wf s) (hc : Counted s) {u : ℕ}
    (hr : Receivable s u) : Marking.Reachable (Root s) (Refs s) u := by
  obtain ⟨r, ⟨fp, hfp, hlt⟩, hpath⟩ := hr
  refine ⟨r, ⟨h.pcb fp r hfp, ?_⟩, hpath⟩
  rintro ⟨fp', hfile, -, heq⟩
  have hin := h.pcb fp r hfp
  obtain rfl := h.inj fp fp' r hfp (h.file r hin fp' hfile)
  rw [hc r hin fp hfile] at heq
  omega

/-- The marking ends with exactly the unreachable sockets dead. No message that a process
can still receive is touched; the messages sent to unreachable sockets go to deferral
records, each once. -/
theorem unpGc_collects {s : State} (h : Wf s) (hc : Counted s) (flags : ℕ → Flags) :
    ∃ g n s', gcMark s flags = .returned g n ∧ gcCollect s flags = .ok s' ∧
      (∀ u ∈ s.unp_head,
        (g.unp_flags u).dead = true ↔ ¬ Marking.Reachable (Root s) (Refs s) u) ∧
      (∀ u ∈ s.unp_head, Receivable s u → ∀ m ∈ (s.rcv u).flatten, s'.mbuf m = s.mbuf m) ∧
      (∀ u ∈ s.unp_head, ¬ Marking.Reachable (Root s) (Refs s) u →
        ∀ m ∈ (s.rcv u).flatten, (s.mbuf m).Carries →
          s.files m ∈ s'.unp_deferred ∧ ∀ fp ∈ s'.files m, fp = none) ∧
      s'.unp_deferred = ((deadMessages s g).map s.files).reverse ++ s.unp_deferred ∧
      (deadMessages s g).Nodup := by
  obtain ⟨g, n, hrun, hg⟩ := gcMark_spec h flags
  have hcollect : gcCollect s flags = .ok (s.discardAll (deadMessages s g)) := by
    rw [gcCollect, hrun]
    exact gcDiscard_eq h hg
  refine ⟨g, n, _, hrun, hcollect, hg.dead, ?_, ?_, rfl, ?_⟩
  · intro u hu hr m hm
    have hnot : m ∉ deadMessages s g := by
      intro hin
      obtain ⟨v, hv, hdead, hmv, -⟩ := mem_deadMessages.mp hin
      rw [← h.unique hu hv hm hmv, hg.dead u hu] at hdead
      exact hdead (hr.reachable h hc)
    exact if_neg hnot
  · intro u hu hr m hm hcar
    have hin : m ∈ deadMessages s g :=
      mem_deadMessages.mpr ⟨u, hu, (hg.dead u hu).mpr hr, hm, hcar⟩
    refine ⟨?_, fun fp hfp => ?_⟩
    · apply List.mem_append_left
      rw [List.mem_reverse]
      exact List.mem_map_of_mem hin
    · rw [files_discardAll hin hcar.1] at hfp
      exact List.eq_of_mem_replicate hfp
  · exact deadMessages_nodup h g

/-- A closed socket whose only reference is in its own buffer, and an open one. -/
def selfCycle : State where
  file fp := ⟨1, .DTYPE_SOCKET, false, if fp < 2 then some fp else none⟩
  socket so := ⟨true, some so, if so = 0 then [[0]] else []⟩
  unpcb unp := if unp = 0 then ⟨0, some 0, 1⟩ else ⟨unp, none, 0⟩
  mbuf _ := ⟨true, 24#32, false, 100, 24#32, SOL_SOCKET, SCM_RIGHTS,
    setPtr (fun _ => .int 0) 0 (some 0)⟩
  p_fd _ := Descrip.fdinit
  unp_head := [1, 0]
  unp_deferred := []
  unp_rights := 1

theorem fptounp_selfCycle (fp : ℕ) : selfCycle.fptounp fp = if fp < 2 then some fp else none := by
  unfold State.fptounp selfCycle
  by_cases h : fp < 2
  · simp only [h, if_true]
    rfl
  · simp only [h, if_false]
    rfl

theorem wf_selfCycle : Wf selfCycle := by
  refine ⟨fun fp unp h => ?_, fun unp hu fp h => ?_, fun fp fp' unp h h' => ?_, ?_, by decide⟩
  · rw [fptounp_selfCycle] at h
    split_ifs at h with hlt
    cases h
    interval_cases fp <;> decide
  · by_cases hu0 : unp = 0
    · subst hu0
      cases h
      rfl
    · simp [selfCycle, hu0] at h
  · rw [fptounp_selfCycle] at h h'
    split_ifs at h h'
    cases h
    cases h'
    rfl
  · intro unp hu p hp
    have hp0 : p = [0] := by
      by_cases hu0 : unp = 0
      · subst hu0
        exact List.mem_singleton.mp hp
      · simp [State.rcv, selfCycle, hu0] at hp
    subst hp0
    have hq : ∀ m, (selfCycle.mbuf m).qfds = 1 := fun m => by
      change (⟨true, 24#32, false, 100, 24#32, SOL_SOCKET, SCM_RIGHTS, _⟩ : Mbuf).qfds = 1
      decide
    refine ⟨by decide, fun m _ _ => ⟨[some 0], ?_⟩⟩
    rw [hq]
    rfl

theorem unpGc_collects_cycle :
    ∃ g n s', gcMark selfCycle (fun _ => ⟨false, true, true⟩) = .returned g n ∧
      gcCollect selfCycle (fun _ => ⟨false, true, true⟩) = .ok s' ∧ (g.unp_flags 0).dead = true ∧
      (g.unp_flags 1).dead ≠ true ∧ [some 0] ∈ s'.unp_deferred := by
  have hcounted : Counted selfCycle := by
    intro unp hu fp hfp
    by_cases hu0 : unp = 0
    · subst hu0
      cases hfp
      decide
    · simp [selfCycle, hu0] at hfp
  have hclosed : ∀ v, Marking.Reachable (Root selfCycle) (Refs selfCycle) v → v = 1 := by
    intro v hv
    apply Marking.Reachable.mem_of_closed (M := {1}) _ _ hv
    · rintro u ⟨hu, hroot⟩
      rcases List.mem_cons.mp hu with rfl | hu
      · rfl
      · obtain rfl := List.mem_singleton.mp hu
        exact absurd (by decide) hroot
    · rintro u rfl w ⟨fp, hfp, -⟩
      cases hfp
  have hdead : ¬ Marking.Reachable (Root selfCycle) (Refs selfCycle) 0 :=
    fun h => absurd (hclosed 0 h) (by decide)
  have hlive : Marking.Reachable (Root selfCycle) (Refs selfCycle) 1 :=
    .of_root ⟨by decide, by decide⟩
  obtain ⟨g, n, s', hrun, hs', hflags, -, hgone, -⟩ :=
    unpGc_collects wf_selfCycle hcounted fun _ => ⟨false, true, true⟩
  refine ⟨g, n, s', hrun, hs', (hflags 0 (by decide)).mpr hdead, ?_, ?_⟩
  · exact fun h => (hflags 1 (by decide)).mp h hlive
  · exact (hgone 0 (by decide) hdead 0 (by decide) (by decide)).1

end OpenbsdKernel.Unp
