import OpenbsdKernel.Lib.Marking
import OpenbsdKernel.Kern.Unp.Messages

/-!
# Marking one socket

The flags of the sockets on `unp_head` while `unp_gc` looks for those that are alive: what
a visit to one socket changes and which invariant it keeps.
-/
namespace OpenbsdKernel.Unp

/-- The sockets, files and messages fit together: a file's control block is on `unp_head`,
knows the file if it knows any, and belongs to no other file; no mbuf is in two buffers. -/
structure Wf (s : State) : Prop where
  pcb : ∀ fp unp, s.fptounp fp = some unp → unp ∈ s.unp_head
  file : ∀ unp ∈ s.unp_head, ∀ fp, (s.unpcb unp).unp_file = some fp → s.fptounp fp = some unp
  inj : ∀ fp fp' unp, s.fptounp fp = some unp → s.fptounp fp' = some unp → fp = fp'
  packet : ∀ unp ∈ s.unp_head, ∀ p ∈ s.rcv unp, Packet s p
  own : (s.unp_head.flatMap fun unp => (s.rcv unp).flatten).Nodup

/-- A live root: no passed file, a file being closed, or a reference from elsewhere. -/
def Root (s : State) (unp : ℕ) : Prop := unp ∈ s.unp_head ∧ ¬ Unreferenced s unp

/-- The socket `v` is among the files of a message in the buffer of `u`. -/
def Refs (s : State) (u v : ℕ) : Prop := ∃ fp, some fp ∈ s.passed u ∧ s.fptounp fp = some v

/-- A socket that was neither marked nor deferred is deferred. -/
def Flags.touch (f : Flags) : Flags :=
  if f.mark = true ∨ f.defer = true then f else { f with defer := true, dead := false }

@[simp] theorem Flags.touch_mark (f : Flags) : f.touch.mark = f.mark := by
  unfold Flags.touch
  split_ifs <;> rfl

theorem Flags.touch_defer (f : Flags) :
    f.touch.defer = true ↔ f.defer = true ∨ f.mark = false := by
  unfold Flags.touch
  split_ifs with h
  · cases hm : f.mark <;> simp_all
  · simp_all

theorem Flags.touch_dead {f : Flags} (h : f.touch.dead = true) : f.dead = true := by
  unfold Flags.touch at h
  split_ifs at h
  exact h

@[simp] theorem Flags.touch_touch (f : Flags) : f.touch.touch = f.touch := by
  have h : f.touch.mark = true ∨ f.touch.defer = true := by
    rw [Flags.touch_mark, Flags.touch_defer]
    cases f.mark <;> simp
  exact if_pos h

/-- The sockets on `unp_head` with a flag set. -/
def Gc.marked (s : State) (g : Gc) : Finset ℕ :=
  s.unp_head.toFinset.filter fun u => (g.unp_flags u).mark = true

def Gc.deferred (s : State) (g : Gc) : Finset ℕ :=
  s.unp_head.toFinset.filter fun u => (g.unp_flags u).defer = true

section Mark

variable {s : State}

theorem mem_marked {g : Gc} {u : ℕ} :
    u ∈ g.marked s ↔ u ∈ s.unp_head ∧ (g.unp_flags u).mark = true := by
  simp [Gc.marked]

theorem mem_deferred {g : Gc} {u : ℕ} :
    u ∈ g.deferred s ↔ u ∈ s.unp_head ∧ (g.unp_flags u).defer = true := by
  simp [Gc.deferred]

/-- Some file of the list is the socket `v`. -/
def Targets (s : State) (l : List (Option ℕ)) (v : ℕ) : Prop :=
  ∃ fp, some fp ∈ l ∧ s.fptounp fp = some v

theorem markFile_flags (g : Gc) (x : Option ℕ) (v : ℕ) :
    (Targets s [x] v → (markFile s g x).unp_flags v = (g.unp_flags v).touch) ∧
      (¬ Targets s [x] v → (markFile s g x).unp_flags v = g.unp_flags v) := by
  cases x with
  | none => simp [markFile, Targets]
  | some fp =>
    cases hu : s.fptounp fp with
    | none => simp [markFile, Targets, hu]
    | some unp =>
      have htarget : Targets s [some fp] v ↔ v = unp := by
        simp [Targets, hu, eq_comm]
      rw [htarget, markFile, hu]
      dsimp only
      split_ifs with hf
      · refine ⟨?_, fun _ => rfl⟩
        rintro rfl
        exact (if_pos hf).symm
      · constructor
        · rintro rfl
          simp [Gc.setFlags, Flags.touch, hf]
        · intro hv
          simp [Gc.setFlags, hv]

def Gc.deferNew (g : Gc) (unp : ℕ) : Gc :=
  { g.setFlags unp { g.unp_flags unp with defer := true, dead := false } with
    unp_defer := g.unp_defer + 1 }

theorem markFile_cases (g : Gc) (x : Option ℕ) :
    markFile s g x = g ∨ ∃ fp unp, x = some fp ∧ s.fptounp fp = some unp ∧
      (g.unp_flags unp).defer = false ∧ markFile s g x = g.deferNew unp := by
  cases x with
  | none => exact .inl rfl
  | some fp =>
    cases hu : s.fptounp fp with
    | none => exact .inl (by rw [markFile, hu])
    | some unp =>
      by_cases hf : (g.unp_flags unp).mark = true ∨ (g.unp_flags unp).defer = true
      · exact .inl (by rw [markFile, hu]; exact if_pos hf)
      · refine .inr ⟨fp, unp, rfl, hu, ?_, by rw [markFile, hu]; exact if_neg hf⟩
        exact Bool.eq_false_iff.mpr fun hd => hf (.inr hd)

theorem markFile_count (h : Wf s) (g : Gc) (x : Option ℕ)
    (hc : g.unp_defer = (g.deferred s).card) :
    (markFile s g x).unp_defer = ((markFile s g x).deferred s).card := by
  rcases markFile_cases g x with heq | ⟨fp, unp, rfl, hu, hd, heq⟩
  · rw [heq, hc]
  · have hnot : unp ∉ g.deferred s := by
      rw [mem_deferred, hd]
      simp
    have hset : (g.deferNew unp).deferred s = insert unp (g.deferred s) := by
      ext v
      rw [mem_deferred, Finset.mem_insert, mem_deferred]
      by_cases hv : v = unp
      · subst hv
        simp [Gc.deferNew, Gc.setFlags, h.pcb fp v hu]
      · simp [Gc.deferNew, Gc.setFlags, hv]
    rw [heq, hset, Finset.card_insert_of_notMem hnot]
    simp [Gc.deferNew, hc]

theorem markFile_nunref (g : Gc) (x : Option ℕ) : (markFile s g x).nunref = g.nunref := by
  rcases markFile_cases g x with heq | ⟨fp, unp, -, -, -, heq⟩
  · rw [heq]
  · rw [heq]
    rfl

theorem markFiles_spec (h : Wf s) (l : List (Option ℕ)) (g : Gc)
    (hc : g.unp_defer = (g.deferred s).card) :
    (∀ v, (Targets s l v → (l.foldl (markFile s) g).unp_flags v = (g.unp_flags v).touch) ∧
      (¬ Targets s l v → (l.foldl (markFile s) g).unp_flags v = g.unp_flags v)) ∧
    (l.foldl (markFile s) g).nunref = g.nunref ∧
    (l.foldl (markFile s) g).unp_defer = ((l.foldl (markFile s) g).deferred s).card := by
  induction l generalizing g with
  | nil => exact ⟨fun v => ⟨by simp [Targets], fun _ => rfl⟩, rfl, hc⟩
  | cons x l ih =>
    obtain ⟨hflags, hnunref, hcount⟩ := ih (markFile s g x) (markFile_count h g x hc)
    refine ⟨fun v => ?_, hnunref.trans (markFile_nunref g x), hcount⟩
    obtain ⟨hone, hnone⟩ := @markFile_flags s g x v
    have hcons : Targets s (x :: l) v ↔ Targets s [x] v ∨ Targets s l v := by
      simp only [Targets, List.mem_cons, List.not_mem_nil, or_false, or_and_right, exists_or]
    rw [hcons, List.foldl_cons]
    by_cases hl : Targets s l v
    · refine ⟨fun _ => ?_, fun hn => absurd (.inr hl) hn⟩
      rw [(hflags v).1 hl]
      by_cases hx : Targets s [x] v
      · rw [hone hx, Flags.touch_touch]
      · rw [hnone hx]
    · rw [(hflags v).2 hl]
      refine ⟨fun ht => hone (ht.resolve_right hl), fun hn => hnone fun hx => hn (.inl hx)⟩

end Mark

/-- What holds of the flags and counters between two sockets of a pass. -/
structure Marks (s : State) (g : Gc) : Prop where
  count : g.unp_defer = (g.deferred s).card
  excl : ∀ v ∈ s.unp_head, (g.unp_flags v).mark = true → (g.unp_flags v).defer = false
  dead : ∀ v ∈ s.unp_head, (g.unp_flags v).dead = true →
    (g.unp_flags v).mark = false ∧ (g.unp_flags v).defer = false ∧ Unreferenced s v
  frontier : Marking.Frontier (Root s) (Refs s) (g.marked s) (g.deferred s)
  origin : (g.deferred s).Nonempty → (g.marked s).Nonempty

def Gc.live (g : Gc) (v : ℕ) : Prop := (g.unp_flags v).mark = true ∨ (g.unp_flags v).defer = true

/-- What a pass has done from `g` to `g'`, having visited the sockets of a list. -/
structure Passed (s : State) (l : List ℕ) (g g' : Gc) : Prop where
  mark : ∀ v, (g.unp_flags v).mark = true → (g'.unp_flags v).mark = true
  live : ∀ v, g.live v → g'.live v
  dead : ∀ v, (g.unp_flags v).dead = true → (g'.unp_flags v).dead = true ∨ g'.live v
  seen : ∀ v ∈ l, g.live v → (g'.unp_flags v).mark = true
  judged : ∀ v ∈ l, g'.live v ∨ ((g'.unp_flags v).dead = true ∧ Unreferenced s v)
  counted : ∀ v ∈ l, (g'.unp_flags v).mark = true ∨ g.nunref < g'.nunref
  nunref : g.nunref ≤ g'.nunref

section Visit

variable {s : State} {g g' g'' : Gc}

theorem Passed.refl (s : State) (g : Gc) : Passed s [] g g :=
  ⟨fun _ h => h, fun _ h => h, fun _ h => .inl h, by simp, by simp, by simp, le_rfl⟩

theorem Passed.trans {l l' : List ℕ} (h : Passed s l g g') (h' : Passed s l' g' g'') :
    Passed s (l ++ l') g g'' := by
  refine ⟨fun v hv => h'.mark v (h.mark v hv), fun v hv => h'.live v (h.live v hv), ?_, ?_, ?_, ?_,
    h.nunref.trans h'.nunref⟩
  · intro v hv
    rcases h.dead v hv with hd | hl
    · exact h'.dead v hd
    · exact .inr (h'.live v hl)
  · intro v hv hlive
    rcases List.mem_append.mp hv with hv | hv
    · exact h'.mark v (h.seen v hv hlive)
    · exact h'.seen v hv (h.live v hlive)
  · intro v hv
    rcases List.mem_append.mp hv with hv | hv
    · rcases h.judged v hv with hl | ⟨hd, hu⟩
      · exact .inl (h'.live v hl)
      · exact (h'.dead v hd).symm.imp_right fun hd' => ⟨hd', hu⟩
    · exact h'.judged v hv
  · intro v hv
    rcases List.mem_append.mp hv with hv | hv
    · rcases h.counted v hv with hm | hn
      · exact .inl (h'.mark v hm)
      · exact .inr (hn.trans_le h'.nunref)
    · exact (h'.counted v hv).imp_right h.nunref.trans_lt

/-- The flags after a live socket `u` has been marked and its messages have been read. -/
structure Lived (s : State) (u : ℕ) (g g' : Gc) : Prop where
  count : g'.unp_defer = (g'.deferred s).card
  nunref : g'.nunref = g.nunref
  self : g'.unp_flags u = ⟨true, false, false⟩
  target : ∀ v, v ≠ u → Refs s u v → g'.unp_flags v = (g.unp_flags v).touch
  other : ∀ v, v ≠ u → ¬ Refs s u v → g'.unp_flags v = g.unp_flags v

theorem markLive_lived (h : Wf s) {u : ℕ} (hu : u ∈ s.unp_head) {g₁ : Gc}
    (hcount : g₁.unp_defer = (g₁.deferred s).card) (hnunref : g₁.nunref = g.nunref)
    (hself : g₁.unp_flags u = ⟨false, false, false⟩)
    (hother : ∀ v, v ≠ u → g₁.unp_flags v = g.unp_flags v) :
    ∃ g', markLive s g₁ u = .ok g' ∧ Lived s u g g' := by
  obtain ⟨g₂, hg₂⟩ : ∃ g₂, g₂ = g₁.setFlags u { g₁.unp_flags u with mark := true } := ⟨_, rfl⟩
  have hself₂ : g₂.unp_flags u = ⟨true, false, false⟩ := by
    rw [hg₂, hself]
    exact Function.update_self u _ _
  have hother₂ : ∀ v, v ≠ u → g₂.unp_flags v = g.unp_flags v := by
    intro v hv
    rw [hg₂, ← hother v hv]
    exact Function.update_of_ne hv _ _
  have hset : g₂.deferred s = g₁.deferred s := by
    ext v
    rw [mem_deferred, mem_deferred]
    by_cases hv : v = u
    · rw [hv, hself₂, hself]
    · rw [hother₂ v hv, hother v hv]
  have hcount₂ : g₂.unp_defer = (g₂.deferred s).card := by
    rw [hset, hg₂]
    exact hcount
  have hrun : markLive s g₁ u = .ok ((s.passed u).foldl (markFile s) g₂) := by
    rw [markLive, unpScan_mark (h.packet u hu), ← hg₂]
    rfl
  obtain ⟨hfl, hnun, hcnt⟩ := markFiles_spec h (s.passed u) g₂ hcount₂
  refine ⟨_, hrun, hcnt, ?_, ?_, fun v hv ht => ?_, fun v hv ht => ?_⟩
  · rw [hnun, hg₂]
    exact hnunref
  · by_cases ht : Targets s (s.passed u) u
    · rw [(hfl u).1 ht, hself₂]
      rfl
    · rw [(hfl u).2 ht, hself₂]
  · rw [(hfl v).1 ht, hother₂ v hv]
  · rw [(hfl v).2 ht, hother₂ v hv]

theorem Lived.defer_iff {u v : ℕ} (h : Lived s u g g') (hv : v ≠ u) :
    (g'.unp_flags v).defer = true ↔
      (g.unp_flags v).defer = true ∨ (Refs s u v ∧ (g.unp_flags v).mark = false) := by
  by_cases ht : Refs s u v
  · rw [h.target v hv ht, Flags.touch_defer]
    simp [ht]
  · rw [h.other v hv ht]
    simp [ht]

theorem Lived.mark_eq {u v : ℕ} (h : Lived s u g g') (hv : v ≠ u) :
    (g'.unp_flags v).mark = (g.unp_flags v).mark := by
  by_cases ht : Refs s u v
  · rw [h.target v hv ht, Flags.touch_mark]
  · rw [h.other v hv ht]

theorem Lived.marked {u : ℕ} (h : Lived s u g g') (hu : u ∈ s.unp_head) :
    g'.marked s = insert u (g.marked s) := by
  ext v
  rw [Finset.mem_insert, mem_marked, mem_marked]
  by_cases hv : v = u
  · rw [hv, h.self]
    simp [hu]
  · rw [h.mark_eq hv]
    simp [hv]

theorem Lived.live {u : ℕ} (h : Lived s u g g') {v : ℕ} (hv : g.live v) : g'.live v := by
  by_cases hvu : v = u
  · exact .inl (by rw [hvu, h.self])
  · rcases hv with hv | hv
    · exact .inl (by rw [h.mark_eq hvu, hv])
    · exact .inr ((h.defer_iff hvu).mpr (.inl hv))

theorem Lived.marks (hwf : Wf s) {u : ℕ} (h : Lived s u g g') (hu : u ∈ s.unp_head)
    (hm : Marks s g) (hlive : Root s u ∨ u ∈ g.deferred s) : Marks s g' := by
  refine ⟨h.count, fun v hin hv => ?_, fun v hin hv => ?_, ?_, fun _ => ?_⟩
  · by_cases hvu : v = u
    · rw [hvu, h.self]
    · rw [h.mark_eq hvu] at hv
      rw [← Bool.not_eq_true, h.defer_iff hvu, hv, hm.excl v hin hv]
      simp
  · by_cases hvu : v = u
    · rw [hvu, h.self] at hv
      cases hv
    · by_cases ht : Refs s u v
      · have heq := h.target v hvu ht
        rw [heq] at hv
        obtain ⟨hmark, hdefer, -⟩ := hm.dead v hin (Flags.touch_dead hv)
        rw [Flags.touch, if_neg (by simp [hmark, hdefer])] at hv
        cases hv
      · rw [h.other v hvu ht] at hv ⊢
        exact hm.dead v hin hv
  · rw [h.marked hu, Finset.coe_insert]
    apply hm.frontier.mark (hlive.imp_right fun hin => hin)
    · intro v hv hvu
      obtain ⟨hin, hd⟩ := mem_deferred.mp hv
      exact mem_deferred.mpr ⟨hin, (h.defer_iff hvu).mpr (.inl hd)⟩
    · intro v he
      obtain ⟨fp, -, hfp⟩ := id he
      have hin := hwf.pcb fp v hfp
      by_cases hvu : v = u
      · exact .inl (.inl hvu)
      · cases hmk : (g.unp_flags v).mark with
        | true => exact .inl (.inr (mem_marked.mpr ⟨hin, hmk⟩))
        | false => exact .inr (mem_deferred.mpr ⟨hin, (h.defer_iff hvu).mpr (.inr ⟨he, hmk⟩)⟩)
    · intro v hv
      obtain ⟨hin, hd⟩ := mem_deferred.mp hv
      by_cases hvu : v = u
      · rw [hvu, h.self] at hd
        cases hd
      · exact ((h.defer_iff hvu).mp hd).imp (fun hd => mem_deferred.mpr ⟨hin, hd⟩) And.left
  · exact ⟨u, by rw [h.marked hu]; exact Finset.mem_insert_self u _⟩

theorem Lived.passed {u : ℕ} (h : Lived s u g g') : Passed s [u] g g' := by
  have hself : (g'.unp_flags u).mark = true := by rw [h.self]
  refine ⟨fun v hv => ?_, fun v => h.live, fun v hv => ?_, ?_, ?_, ?_, h.nunref.ge⟩
  · by_cases hvu : v = u
    · rw [hvu, hself]
    · rw [h.mark_eq hvu, hv]
  · by_cases hvu : v = u
    · exact .inr (.inl (hvu ▸ hself))
    · by_cases ht : Refs s u v
      · cases hmk : (g.unp_flags v).mark with
        | true => exact .inr (.inl (by rw [h.mark_eq hvu, hmk]))
        | false => exact .inr (.inr ((h.defer_iff hvu).mpr (.inr ⟨ht, hmk⟩)))
      · exact .inl (by rw [h.other v hvu ht, hv])
  · rintro v hv -
    rw [List.mem_singleton.mp hv, hself]
  · intro v hv
    exact .inl (.inl (List.mem_singleton.mp hv ▸ hself))
  · intro v hv
    exact .inl (List.mem_singleton.mp hv ▸ hself)

/-- A socket that is not known to be live and has no reference but from messages. -/
theorem visit_dead {u : ℕ} (hu : u ∈ s.unp_head) (hm : Marks s g)
    (hd : (g.unp_flags u).defer = false) (hmk : (g.unp_flags u).mark = false)
    (hun : Unreferenced s u) {g' : Gc}
    (hg : g' = { g.setFlags u { g.unp_flags u with dead := true } with nunref := g.nunref + 1 }) :
    Marks s g' ∧ Passed s [u] g g' := by
  have hself : g'.unp_flags u = ⟨false, false, true⟩ := by
    rw [hg]
    simp [Gc.setFlags, hd, hmk]
  have hother : ∀ v, v ≠ u → g'.unp_flags v = g.unp_flags v := by
    intro v hv
    rw [hg]
    exact Function.update_of_ne hv _ _
  have hmark : ∀ v, (g'.unp_flags v).mark = (g.unp_flags v).mark := by
    intro v
    by_cases hv : v = u
    · rw [hv, hself, hmk]
    · rw [hother v hv]
  have hdefer : ∀ v, (g'.unp_flags v).defer = (g.unp_flags v).defer := by
    intro v
    by_cases hv : v = u
    · rw [hv, hself, hd]
    · rw [hother v hv]
  have hmarked : g'.marked s = g.marked s := by
    ext v
    rw [mem_marked, mem_marked, hmark]
  have hdeferred : g'.deferred s = g.deferred s := by
    ext v
    rw [mem_deferred, mem_deferred, hdefer]
  have hlive : ∀ v, g.live v → g'.live v := by
    intro v hv
    rwa [Gc.live, hmark, hdefer]
  refine ⟨⟨?_, fun v hin hv => ?_, fun v hin hv => ?_, ?_, ?_⟩, ⟨fun v hv => ?_, hlive, fun v hv => ?_,
    ?_, ?_, ?_, ?_⟩⟩
  · rw [hdeferred, hg]
    exact hm.count
  · rw [hdefer]
    exact hm.excl v hin (hmark v ▸ hv)
  · by_cases hvu : v = u
    · subst hvu
      rw [hself]
      exact ⟨rfl, rfl, hun⟩
    · rw [hother v hvu] at hv ⊢
      exact hm.dead v hin hv
  · rw [hmarked, hdeferred]
    exact hm.frontier
  · rw [hmarked, hdeferred]
    exact hm.origin
  · rw [hmark, hv]
  · by_cases hvu : v = u
    · exact .inl (by rw [hvu, hself])
    · exact .inl (by rw [hother v hvu, hv])
  · intro v hv hl
    rw [List.mem_singleton.mp hv] at hl
    rcases hl with hl | hl
    · rw [hmk] at hl
      cases hl
    · rw [hd] at hl
      cases hl
  · intro v hv
    rw [List.mem_singleton.mp hv, hself]
    exact .inr ⟨rfl, hun⟩
  · intro v hv
    rw [hg]
    exact .inr (lt_add_one g.nunref)
  · rw [hg]
    exact (lt_add_one g.nunref).le

theorem visit_spec (h : Wf s) {u : ℕ} (hu : u ∈ s.unp_head) (hm : Marks s g) :
    ∃ g', visit s g u = .ok g' ∧ Marks s g' ∧ Passed s [u] g g' := by
  unfold visit
  dsimp only
  by_cases hd : (g.unp_flags u).defer = true
  · have hmk : (g.unp_flags u).mark = false := by
      rw [← Bool.not_eq_true]
      intro hmk
      rw [hm.excl u hu hmk] at hd
      cases hd
    have hdead : (g.unp_flags u).dead = false := by
      rw [← Bool.not_eq_true]
      intro hdead
      rw [(hm.dead u hu hdead).2.1] at hd
      cases hd
    have hin : u ∈ g.deferred s := mem_deferred.mpr ⟨hu, hd⟩
    have hset : Gc.deferred s { g.setFlags u { g.unp_flags u with defer := false } with
        unp_defer := g.unp_defer - 1 } = (g.deferred s).erase u := by
      ext v
      rw [mem_deferred, Finset.mem_erase, mem_deferred]
      by_cases hv : v = u
      · subst hv
        simp [Gc.setFlags]
      · simp [Gc.setFlags, hv]
    have hpos := Finset.card_pos.mpr ⟨u, hin⟩
    have hcount : g.unp_defer - 1 = (((g.deferred s).erase u).card : ℤ) := by
      rw [Finset.card_erase_of_mem hin, hm.count]
      omega
    rw [if_pos hd]
    obtain ⟨g', hrun, hl⟩ := @markLive_lived s g h u hu
      { g.setFlags u { g.unp_flags u with defer := false } with unp_defer := g.unp_defer - 1 }
      (by rw [hset]; exact hcount) rfl (by simp [Gc.setFlags, hmk, hdead])
      fun v hv => Function.update_of_ne hv _ _
    exact ⟨g', hrun, hl.marks h hu hm (.inr hin), hl.passed⟩
  · rw [if_neg hd]
    rw [Bool.not_eq_true] at hd
    by_cases hmk : (g.unp_flags u).mark = true
    · rw [if_pos hmk]
      refine ⟨g, rfl, hm, fun _ hv => hv, fun _ hv => hv, fun _ hv => .inl hv, ?_, ?_, ?_, le_rfl⟩
      · rintro v hv -
        rw [List.mem_singleton.mp hv, hmk]
      · intro v hv
        exact .inl (.inl (List.mem_singleton.mp hv ▸ hmk))
      · intro v hv
        exact .inl (List.mem_singleton.mp hv ▸ hmk)
    · rw [if_neg hmk]
      rw [Bool.not_eq_true] at hmk
      by_cases hun : Unreferenced s u
      · rw [if_pos hun]
        exact ⟨_, rfl, visit_dead hu hm hd hmk hun rfl⟩
      · rw [if_neg hun]
        have hdead : (g.unp_flags u).dead = false := by
          rw [← Bool.not_eq_true]
          exact fun hdead => hun (hm.dead u hu hdead).2.2
        obtain ⟨g', hrun, hl⟩ := @markLive_lived s g h u hu g hm.count rfl
          (Flags.ext hmk hd hdead) fun v _ => rfl
        exact ⟨g', hrun, hl.marks h hu hm (.inl ⟨hu, hun⟩), hl.passed⟩

end Visit

end OpenbsdKernel.Unp
