import OpenbsdKernel.Kern.Bufcache.Queues

/-!
# The buffer cache over whole runs

Every operation keeps each buffer on its queue and keeps the counters of the hot and
the warm queues and of all clean pages exact. Only the count of a cache's own pages
can go wrong: a buffer that leaves for the next cache stays counted in the old one.
-/
namespace OpenbsdKernel.Bufcache

/-- The state between two operations, for the buffers `released`; within an operation the
counters are off by `e`, `c` and `t`. -/
structure Inv (s : State) (released : Set ℕ) (e : ℕ → Queue → ℤ) (c : ℕ → ℤ) (t : ℤ) : Prop where
  sane : ∀ bp, (s.buf bp).Sane
  filed : Filed s
  released : ∀ bp, Released s bp ↔ bp ∈ released
  counted : Counted s e c t

section Ops

variable {s s' : State} {R : Set ℕ} {e : ℕ → Queue → ℤ} {c : ℕ → ℤ} {t : ℤ} {i bp : ℕ} {q : Queue}

theorem home_clean {b : Buf} (h : b.home = .clean i q) :
    b.delwri = false ∧ b.cache = i ∧ b.queue = q := by
  unfold Buf.home at h
  cases hd : b.delwri with
  | true => simp [hd] at h
  | false =>
    simp only [hd, Bool.false_eq_true, if_false, Place.clean.injEq] at h
    exact ⟨rfl, h⟩

theorem Buf.Sane.setFlags {b : Buf} (h : b.Sane) (cold warm delwri : Bool) :
    Buf.Sane { b with cold := cold, warm := warm, delwri := delwri } :=
  ⟨h.bc, h.dma, h.cache, h.pages⟩

theorem sane_setBuf (h : ∀ x, (s.buf x).Sane) {b : Buf} (hb : b.Sane) (x : ℕ) :
    ((s.setBuf bp b).buf x).Sane := by
  by_cases hx : x = bp
  · subst hx
    simpa [State.setBuf] using hb
  · simpa [State.setBuf, hx] using h x

theorem Inv.setBuf (h : Inv s R e c t) (hout : bp ∉ R) {b : Buf} (hb : b.Sane)
    (hsize : b.b_bufsize = (s.buf bp).b_bufsize) : Inv (s.setBuf bp b) R e c t := by
  have hnot : ¬ Released s bp := fun hr => hout ((h.released bp).mp hr)
  obtain ⟨hf, hr⟩ := @Filed.congr s (s.setBuf bp b) bp h.filed hnot (queue_setBuf s bp b)
    fun x hx => by simp [State.setBuf, hx]
  exact ⟨sane_setBuf h.sane hb, hf, fun x => (hr x).trans (h.released x), h.counted.setBuf hsize⟩

theorem Inv.insertTail (h : Inv s R e c t) (hi : i < NUM_CACHES) (hout : bp ∉ R)
    (hhome : (s.buf bp).home = .clean i q) :
    Inv (s.insertTail i q bp) (insert bp R)
      (fun j r => e j r - if j = i ∧ r = q then ↑(s.pages bp) else 0)
      (fun j => c j - if j = i then ↑(s.pages bp) else 0) (t - s.pages bp) := by
  have hnot : ¬ Released s bp := fun hr => hout ((h.released bp).mp hr)
  obtain ⟨hf, hr⟩ := h.filed.insert hnot hhome (queue_insertTail s i q bp) rfl
  refine ⟨h.sane, hf, fun x => ?_, h.counted.insertTail hi q bp⟩
  rw [hr, h.released, Set.mem_insert_iff]

theorem Inv.unlink (h : Inv s R e c t) (hi : i < NUM_CACHES) (hin : bp ∈ s.queue (.clean i q)) :
    Inv (s.unlink i q bp) (R \ {bp})
      (fun j r => e j r - if j = i ∧ r = q then -↑(s.pages bp) else 0)
      (fun j => c j - if j = i then -↑(s.pages bp) else 0) (t - -s.pages bp) := by
  obtain ⟨hf, hr⟩ := h.filed.remove hin (queue_unlink s i q bp) rfl
  refine ⟨h.sane, hf, fun x => ?_, h.counted.unlink hi hin⟩
  rw [hr, h.released, Set.mem_sdiff, Set.mem_singleton_iff, and_comm]

theorem Inv.setCache (h : Inv s R e c t) {b : BufCache} {n m : ℤ} {q : Queue}
    (hq : ∀ r, b.queue r = (s.cleancache i).queue r)
    (hn : ∀ r, r ≠ .cold →
      b.queuepages r = (s.cleancache i).queuepages r + if r = q then n else 0)
    (hm : b.cachepages = (s.cleancache i).cachepages + m) :
    Inv (s.setCache i b) R (fun j r => e j r + if j = i ∧ r = q then n else 0)
      (fun j => c j + if j = i then m else 0) t := by
  obtain ⟨hf, hr⟩ := @Filed.same s (s.setCache i b) h.filed (queue_setCache s hq) rfl
  exact ⟨h.sane, hf, fun x => (hr x).trans (h.released x), h.counted.setCache hq hn hm⟩

theorem Inv.count (h : Inv s R e c t) (i : ℕ) (q : Queue) (n k : ℤ) :
    Inv (s.count i q n k) R (fun j r => e j r + if j = i ∧ r = q then n else 0)
      (fun j => c j + if j = i then n else 0) (t + k) := by
  have hqueue : ∀ p, (s.count i q n k).queue p = s.queue p := fun p =>
    (by cases p <;> rfl : (s.count i q n k).queue p =
      (s.setCache i ((s.cleancache i).count n q)).queue p).trans
        (queue_setCache s (queue_count _ n q) p)
  obtain ⟨hf, hr⟩ := h.filed.same hqueue rfl
  exact ⟨h.sane, hf, fun x => (hr x).trans (h.released x), h.counted.count i q n k⟩

theorem Inv.congr {e' : ℕ → Queue → ℤ} {c' : ℕ → ℤ} {t' : ℤ} {R' : Set ℕ} (h : Inv s R e c t)
    (hR : R' = R) (he : ∀ j r, r ≠ .cold → e' j r = e j r) (hc : ∀ j, c' j = c j) (ht : t' = t) :
    Inv s R' e' c' t' :=
  ⟨h.sane, h.filed, hR ▸ h.released, h.counted.congr he hc ht⟩

/-- What a call of `chillbufs` leaves alone. -/
structure Chilled (s s' : State) (R : Set ℕ) (i : ℕ) (moved : Bool) : Prop where
  none : moved = false → s' = s
  fewer : moved = true →
    (s'.cleancache i).warmqueue.length + (s'.cleancache i).hotqueue.length + 1 =
      (s.cleancache i).warmqueue.length + (s.cleancache i).hotqueue.length
  others : ∀ j, j ≠ i → s'.cleancache j = s.cleancache j
  inHand : ∀ x, x ∉ R → s'.buf x = s.buf x

theorem chill_inv (h : Inv s R e c t) (hi : i < NUM_CACHES) (hin : bp ∈ s.queue (.clean i q)) :
    Inv (chill s i q bp) R e c t := by
  obtain ⟨hdel, hcache, -⟩ := home_clean (h.filed.home _ bp hin)
  have hrel : bp ∈ R := (h.released bp).mp ⟨_, hin⟩
  obtain ⟨b, hb⟩ : ∃ b, b = { s.buf bp with cold := true } := ⟨_, rfl⟩
  have hsane : b.Sane := hb ▸ (h.sane bp).setFlags true (s.buf bp).warm (s.buf bp).delwri
  obtain ⟨s₁, hs₁⟩ : ∃ s₁, s₁ = s.setCache i
    ((s.cleancache i).addQueuepages (-s.pages bp) q) := ⟨_, rfl⟩
  have hchill : chill s i q bp = ((s₁.unlink i q bp).setBuf bp b).insertTail i .cold bp := by
    rw [hb, hs₁]
    rfl
  have hbuf : s₁.buf = s.buf := hs₁ ▸ buf_setCache s i _
  have hpages₁ : s₁.pages bp = s.pages bp := by rw [hs₁]; rfl
  have hsize : b.b_bufsize = ((s₁.unlink i q bp).buf bp).b_bufsize := by
    rw [buf_unlink, hbuf, hb]
  have hpages₃ : ((s₁.unlink i q bp).setBuf bp b).pages bp = s.pages bp :=
    (pages_setBuf _ bp hsize bp).trans hpages₁
  have h₁ : Inv s₁ R (fun j r => e j r + if j = i ∧ r = q then -↑(s.pages bp) else 0)
      (fun j => c j + if j = i then 0 else 0) t := by
    rw [hs₁]
    exact h.setCache (queue_addQueuepages _ _ q) (fun r hr => queuepages_addQueuepages _ _ q hr)
      (by simp)
  have hin₁ : bp ∈ s₁.queue (.clean i q) := by
    rw [hs₁]
    simpa [State.queue, State.setCache] using hin
  have hhome : (((s₁.unlink i q bp).setBuf bp b).buf bp).home = .clean i .cold := by
    simp [State.setBuf, hb, Buf.home, Buf.queue, hdel, hcache]
  have h₄ := ((@Inv.setBuf _ _ _ _ _ bp (h₁.unlink hi hin₁) (by simp) b hsane hsize)).insertTail hi (by simp)
    hhome
  rw [hpages₃, hpages₁, ← hchill] at h₄
  apply h₄.congr
  · rw [Set.insert_sdiff_singleton, Set.insert_eq_of_mem hrel]
  · intro j r hr
    have hcold : ¬ (j = i ∧ r = .cold) := fun h => hr h.2
    rw [if_neg hcold]
    ring
  · intro j
    split_ifs <;> ring
  · ring

theorem chilled_chill {l : List ℕ} (hq : q ≠ .cold) (hl : (s.cleancache i).queue q = bp :: l)
    (hrel : bp ∈ R) : Chilled s (chill s i q bp) R i true := by
  refine ⟨by simp, fun _ => ?_, fun j hj => ?_, fun x hx => ?_⟩
  · cases q with
    | cold => exact absurd rfl hq
    | hot =>
      have hl' : (s.cleancache i).hotqueue = bp :: l := hl
      simp [chill, State.insertTail, State.unlink, State.setBuf, State.setCache,
        BufCache.setQueue, BufCache.addQueuepages, BufCache.queue, hl']
      omega
    | warm =>
      have hl' : (s.cleancache i).warmqueue = bp :: l := hl
      simp [chill, State.insertTail, State.unlink, State.setBuf, State.setCache,
        BufCache.setQueue, BufCache.addQueuepages, BufCache.queue, hl']
      omega
  · simp [chill, State.insertTail, State.unlink, State.setBuf, State.setCache, hj]
  · have hne : x ≠ bp := by
      rintro rfl
      exact hx hrel
    simp [chill, State.insertTail, State.unlink, State.setBuf, State.setCache, hne]

/-- A queue that is counted at more than ninety-six pages holds a buffer, since the one in
hand accounts for at most that many. -/
theorem chillbufs_spec (h : Inv s R e c t) (hi : i < NUM_CACHES) (hq : q ≠ .cold)
    (he : e i q ≤ 96) :
    ∃ s' moved, chillbufs s i q = .ok (s', moved) ∧ Inv s' R e c t ∧ Chilled s s' R i moved := by
  unfold chillbufs
  dsimp only
  by_cases hbig : 96 < (s.cleancache i).queuepages q ∧
      (s.cleancache i).cachepages.tdiv 3 < (s.cleancache i).queuepages q
  · rw [if_pos hbig]
    have hcount := h.counted.queue i q hq
    cases hl : (s.cleancache i).queue q with
    | nil =>
      have hqueue : s.queue (.clean i q) = [] := hl
      rw [hqueue, weigh_nil] at hcount
      have := hbig.1
      omega
    | cons bp l =>
      have hin : bp ∈ s.queue (.clean i q) := by
        change bp ∈ (s.cleancache i).queue q
        simp [hl]
      exact ⟨_, true, rfl, chill_inv h hi hin,
        chilled_chill hq hl ((h.released bp).mp ⟨_, hin⟩)⟩
  · rw [if_neg hbig]
    exact ⟨s, false, rfl, h, fun _ => rfl, by simp, fun _ _ => rfl, fun _ _ => rfl⟩

/-- The state between operations: all counts are exact but those of the caches. -/
abbrev Rest (s : State) (R : Set ℕ) (c : ℕ → ℤ) : Prop := Inv s R (fun _ _ => 0) c 0

theorem fileClean_spec {k : ℤ} (h : Inv s R (fun _ _ => 0) c t) (hout : bp ∉ R) (hq : q ≠ .cold)
    (hhome : (s.buf bp).home = .clean i q) (hk : t + k = s.pages bp) :
    ∃ s', fileClean s i q bp k = .ok s' ∧ Rest s' (insert bp R) c ∧
      ∀ j, j ≠ i → s'.cleancache j = s.cleancache j := by
  obtain ⟨-, hcache, -⟩ := home_clean hhome
  have hi : i < NUM_CACHES := hcache ▸ (h.sane bp).cache
  have hpages : (s.pages bp : ℤ) ≤ 96 := by exact_mod_cast (h.sane bp).pages
  obtain ⟨s₁, moved, hchill, hinv, hch⟩ :=
    chillbufs_spec (h.count i q (s.pages bp) k) hi hq (by simpa using hpages)
  have hbuf : s₁.buf bp = s.buf bp := hch.inHand bp hout
  have hpages₁ : s₁.pages bp = s.pages bp := by rw [State.pages, hbuf]; rfl
  refine ⟨s₁.insertTail i q bp, ?_, ?_, fun j hj => ?_⟩
  · rw [fileClean, hchill]
    rfl
  · have hins := hinv.insertTail hi hout (hbuf ▸ hhome)
    rw [hpages₁] at hins
    apply hins.congr rfl
    · intro j r _
      split_ifs <;> ring
    · intro j
      split_ifs <;> ring
    · omega
  · have hother := hch.others j hj
    simp only [State.insertTail, State.setCache, Function.update_of_ne hj]
    rw [hother]
    simp [State.count, State.setCache, hj]

theorem Counted.setDirty (h : Counted s e c t) {l : List ℕ} {n m : ℤ} (hn : n = s.weigh l)
    (hm : m = l.length) :
    Counted { s with numdirtypages := n, delwribufs := m, dirtyqueue := l } e c t :=
  ⟨h.queue, h.cache, h.clean, hn, hm⟩

theorem release_spec (h : Rest s R c) (hout : bp ∉ R) :
    ∃ s', bufcacheRelease s bp = .ok s' ∧ Rest s' (insert bp R) c := by
  have hsane := h.sane bp
  have hassert : (s.buf bp).bc = true ∧
      (((s.buf bp).dma = true ∧ (s.buf bp).cache = 0) ∨
        ((!(s.buf bp).dma) = true ∧ 0 < (s.buf bp).cache)) := by
    have hd := hsane.dma
    refine ⟨hsane.bc, ?_⟩
    cases hdma : (s.buf bp).dma with
    | true => exact .inl ⟨rfl, hd.mp hdma⟩
    | false =>
      right
      refine ⟨rfl, Nat.pos_of_ne_zero fun h0 => ?_⟩
      rw [hd.mpr h0] at hdma
      cases hdma
  unfold bufcacheRelease
  dsimp only
  rw [if_pos hassert]
  by_cases hdel : (s.buf bp).delwri = true
  · -- to the dirty queue
    rw [if_neg (by simp [hdel])]
    refine ⟨_, rfl, ?_⟩
    have hnot : ¬ Released s bp := fun hr => hout ((h.released bp).mp hr)
    have hhome : (s.buf bp).home = .dirty := by simp [Buf.home, hdel]
    obtain ⟨hf, hr⟩ := @Filed.insert s { s with
      numdirtypages := s.numdirtypages + s.pages bp
      delwribufs := s.delwribufs + 1
      dirtyqueue := s.dirtyqueue ++ [bp] } bp .dirty h.filed hnot hhome
      (fun r => by cases r <;> simp [State.queue]) rfl
    refine ⟨h.sane, hf, fun x => ?_, h.counted.setDirty ?_ ?_⟩
    · rw [hr, h.released, Set.mem_insert_iff]
    · rw [weigh_concat, h.counted.dirty]
    · rw [h.counted.delwri]
      simp
  · simp only [Bool.not_eq_true] at hdel
    rw [if_pos (by simp [hdel])]
    by_cases hflags : (s.buf bp).warm = true ∨ (s.buf bp).cold = true
    · -- it has been cold or warm before
      rw [if_pos hflags]
      obtain ⟨b, hb⟩ : ∃ b, b = { s.buf bp with warm := true, cold := false } := ⟨_, rfl⟩
      rw [← hb]
      have hbsane : b.Sane := hb ▸ hsane.setFlags false true (s.buf bp).delwri
      have hset := h.setBuf hout hbsane (by rw [hb])
      have hself : (s.setBuf bp b).buf bp = b := by simp [State.setBuf]
      have hhome : ((s.setBuf bp b).buf bp).home = .clean (s.buf bp).cache .warm := by
        rw [hself, hb]
        simp [Buf.home, Buf.queue, hdel]
      have hpages : (s.setBuf bp b).pages bp = s.pages bp := pages_setBuf s bp (by rw [hb]) bp
      obtain ⟨s₁, hfile, hrest, -⟩ := fileClean_spec (k := s.pages bp) hset hout (by simp) hhome
        (by rw [hpages, zero_add])
      exact ⟨s₁, hfile, hrest⟩
    · rw [if_neg hflags]
      push Not at hflags
      have hhome : (s.buf bp).home = .clean (s.buf bp).cache .hot := by
        simp [Buf.home, Buf.queue, hdel, hflags]
      obtain ⟨s₁, hfile, hrest, -⟩ := fileClean_spec (k := s.pages bp) h hout (by simp) hhome
        (by rw [zero_add])
      exact ⟨s₁, hfile, hrest⟩

theorem take_spec (h : Rest s R c) (hin : bp ∈ R) :
    ∃ s', bufcacheTake s bp = .ok s' ∧ Rest s' (R \ {bp}) c := by
  have hsane := h.sane bp
  have hhome := h.filed.released_iff.mp ((h.released bp).mpr hin)
  unfold bufcacheTake
  dsimp only
  rw [if_pos ⟨hsane.bc, Nat.zero_le _, hsane.cache⟩]
  by_cases hdel : (s.buf bp).delwri = true
  · rw [if_neg (by simp [hdel])]
    refine ⟨_, rfl, ?_⟩
    have hdirty : bp ∈ s.queue .dirty := by simpa [Buf.home, hdel] using hhome
    obtain ⟨hf, hr⟩ := @Filed.remove s { s with
      numdirtypages := s.numdirtypages - s.pages bp
      delwribufs := s.delwribufs - 1
      dirtyqueue := s.dirtyqueue.erase bp } bp .dirty h.filed hdirty
      (fun r => by cases r <;> simp [State.queue]) rfl
    have hmem : bp ∈ s.dirtyqueue := hdirty
    refine ⟨h.sane, hf, fun x => ?_, h.counted.setDirty ?_ ?_⟩
    · rw [hr, h.released, Set.mem_sdiff, Set.mem_singleton_iff, and_comm]
    · rw [weigh_erase s hmem, h.counted.dirty]
    · have hpos := List.length_pos_of_mem hmem
      rw [h.counted.delwri, List.length_erase_of_mem hmem]
      omega
  · simp only [Bool.not_eq_true] at hdel
    rw [if_pos (by simp [hdel])]
    refine ⟨_, rfl, ?_⟩
    have hclean : bp ∈ s.queue (.clean (s.buf bp).cache (s.buf bp).queue) := by
      simpa [Buf.home, hdel] using hhome
    have hcount := h.count (s.buf bp).cache (s.buf bp).queue (-s.pages bp) (-s.pages bp)
    have hin' : bp ∈ (s.count (s.buf bp).cache (s.buf bp).queue (-s.pages bp)
        (-s.pages bp)).queue (.clean (s.buf bp).cache (s.buf bp).queue) := by
      simpa [State.queue, State.count, State.setCache] using hclean
    apply (hcount.unlink hsane.cache hin').congr rfl
    · intro j r _
      change _ = (0 + _) - if _ then -(s.pages bp : ℤ) else 0
      split_ifs <;> ring
    · intro j
      change _ = (c j + _) - if _ then -(s.pages bp : ℤ) else 0
      split_ifs <;> ring
    · change _ = (0 + -(s.pages bp : ℤ)) - -(s.pages bp : ℤ)
      ring

theorem adjustCache_spec (hi : i < NUM_CACHES) (n : ℕ) (h : Rest s R c)
    (hn : (s.cleancache i).warmqueue.length + (s.cleancache i).hotqueue.length < n) :
    ∃ s', adjustCache n s i = .ok s' ∧ Rest s' R c := by
  induction n generalizing s with
  | zero => omega
  | succ n ih =>
    obtain ⟨s₁, warm, hwarm, h₁, hc₁⟩ := chillbufs_spec h hi (q := .warm) (by simp) (by simp)
    have hstep : adjustCache (n + 1) s i = if warm then adjustCache n s₁ i
        else chillbufs s₁ i .hot >>= fun r => if r.2 then adjustCache n r.1 i else .ok r.1 := by
      rw [adjustCache, hwarm]
      rfl
    rw [hstep]
    cases warm with
    | true =>
      have hfewer := hc₁.fewer rfl
      exact ih h₁ (by omega)
    | false =>
      rw [hc₁.none rfl]
      obtain ⟨s₂, hot, hhot, h₂, hc₂⟩ := chillbufs_spec h hi (q := .hot) (by simp) (by simp)
      rw [hhot]
      cases hot with
      | true =>
        have hfewer := hc₂.fewer rfl
        have hlen : (s₂.cleancache i).warmqueue.length + (s₂.cleancache i).hotqueue.length < n := by
          omega
        exact ih h₂ hlen
      | false => exact ⟨s₂, rfl, h₂⟩

theorem adjust_spec (h : Rest s R c) : ∃ s', bufcacheAdjust s = .ok s' ∧ Rest s' R c := by
  have hlist : ∀ (l : List ℕ) (s : State), (∀ i ∈ l, i < NUM_CACHES) → Rest s R c →
      ∃ s', l.foldlM (fun s i => adjustCache
        ((s.cleancache i).warmqueue.length + (s.cleancache i).hotqueue.length + 1) s i) s = .ok s' ∧
          Rest s' R c := by
    intro l
    induction l with
    | nil => exact fun s _ h => ⟨s, rfl, h⟩
    | cons i l ih =>
      intro s hl h
      obtain ⟨s₁, hs₁, h₁⟩ := adjustCache_spec (hl i (by simp)) _ h (Nat.lt_succ_self _)
      rw [List.foldlM_cons, hs₁]
      exact ih s₁ (fun j hj => hl j (List.mem_cons_of_mem i hj)) h₁
  exact hlist _ s (fun i hi => List.mem_range.mp hi) h

theorem setBuf_setBuf (s : State) (bp : ℕ) (b b' : Buf) :
    (s.setBuf bp b).setBuf bp b' = s.setBuf bp b' := by
  simp [State.setBuf]

def Buf.promoted (b : Buf) : Buf :=
  { b with warm := false, cold := false, dma := false, cache := b.cache + 1 }

theorem promote_eq (hsane : (s.buf bp).Sane) (hcache : (s.buf bp).cache = i) :
    promote s i bp =
      fileClean ((s.unlink i .cold bp).setBuf bp (s.buf bp).promoted) (i + 1) .hot bp 0 := by
  have hdma := hsane.dma
  have hself : ∀ (s : State) b, (s.setBuf bp b).buf bp = b := fun s b => by simp [State.setBuf]
  unfold promote
  simp only [hself, buf_unlink, hcache, ne_eq, not_true_eq_false, if_false]
  rw [hcache] at hdma
  by_cases h0 : i = 0
  · simp only [h0, if_true, bufFlipHigh, hself, hsane.bc, hdma.mpr h0, DMA_CACHE, and_self]
    have hcache₀ := hcache.trans h0
    simp only [bind, Except.bind, hself, setBuf_setBuf, Buf.promoted, hcache₀, hsane.bc]
  · rw [if_neg h0]
    have hno : (s.buf bp).dma = false := by
      cases hd : (s.buf bp).dma with
      | true => exact absurd (hdma.mp hd) h0
      | false => rfl
    simp only [bind, Except.bind, hself, setBuf_setBuf, Buf.promoted, hcache, hno]

/-- A buffer that moves on to the next cache leaves its pages counted in the old one. -/
theorem promote_spec (h : Rest s R c) (hi : i + 1 < NUM_CACHES)
    (hin : bp ∈ s.queue (.clean i .cold)) :
    ∃ s', promote s i bp = .ok s' ∧
      Rest s' R (fun j => c j + if j = i then ↑(s.pages bp) else 0) ∧
      (s'.cleancache i).coldqueue = (s.cleancache i).coldqueue.erase bp := by
  obtain ⟨hdel, hcache, -⟩ := home_clean (h.filed.home _ bp hin)
  have hsane := h.sane bp
  have hrel : bp ∈ R := (h.released bp).mp ⟨_, hin⟩
  have hnew : (s.buf bp).promoted.Sane := by
    refine ⟨hsane.bc, ?_, ?_, hsane.pages⟩
    · simp [Buf.promoted]
    · simp only [Buf.promoted, hcache]
      exact hi
  have hset := @Inv.setBuf _ _ _ _ _ bp (h.unlink (by omega) hin) (by simp) _ hnew rfl
  have hhome : ((((s.unlink i .cold bp).setBuf bp (s.buf bp).promoted).buf bp)).home =
      .clean (i + 1) .hot := by
    simp [State.setBuf, Buf.promoted, Buf.home, Buf.queue, hdel, hcache]
  have hpages : ((s.unlink i .cold bp).setBuf bp (s.buf bp).promoted).pages bp = s.pages bp :=
    pages_setBuf (s.unlink i .cold bp) bp (b := (s.buf bp).promoted) rfl bp
  have hset' : Inv ((s.unlink i .cold bp).setBuf bp (s.buf bp).promoted) (R \ {bp}) (fun _ _ => 0)
      (fun j => c j + if j = i then ↑(s.pages bp) else 0) (s.pages bp) := by
    apply hset.congr rfl
    · intro j r hr
      have hcold : ¬ (j = i ∧ r = .cold) := fun h => hr h.2
      rw [if_neg hcold, sub_zero]
    · intro j
      split_ifs <;> ring
    · ring
  obtain ⟨s', hfile, hrest, hother⟩ := fileClean_spec (k := 0) hset' (by simp) (by simp) hhome
    (by rw [hpages, add_zero])
  refine ⟨s', ?_, ?_, ?_⟩
  · rw [promote_eq hsane hcache, hfile]
  · rw [Set.insert_sdiff_singleton, Set.insert_eq_of_mem hrel] at hrest
    exact hrest
  · rw [hother i (by omega)]
    simp [State.unlink, State.setBuf, State.setCache, BufCache.setQueue, BufCache.queue]

theorem coldLoop_spec (n : ℕ) (h : Rest s R c) (hi : i < NUM_CACHES)
    (hn : (s.cleancache i).coldqueue.length < n) :
    ∃ s' r c', coldLoop n s i = .ok (s', r) ∧ Rest s' R c' ∧ ∀ j, c j ≤ c' j := by
  induction n generalizing s c with
  | zero => omega
  | succ n ih =>
    rw [coldLoop]
    cases hl : (s.cleancache i).coldqueue with
    | nil => exact ⟨s, none, c, rfl, h, fun _ => le_rfl⟩
    | cons bp l =>
      dsimp only
      by_cases hwarm : i < NUM_CACHES - 1 ∧ (s.buf bp).warm = true
      · have hin : bp ∈ s.queue (.clean i .cold) := by
          change bp ∈ (s.cleancache i).coldqueue
          simp [hl]
        have hi' : i + 1 < NUM_CACHES := by have := hwarm.1; omega
        obtain ⟨s₁, hs₁, h₁, hcold⟩ := promote_spec h hi' hin
        have hlen : (s₁.cleancache i).coldqueue.length < n := by
          rw [hcold, hl, List.erase_cons_head]
          rw [hl, List.length_cons] at hn
          omega
        obtain ⟨s₂, r, c', hs₂, h₂, hle⟩ := ih h₁ hlen
        refine ⟨s₂, r, c', ?_, h₂, fun j => le_trans ?_ (hle j)⟩
        · rw [if_pos hwarm, hs₁]
          exact hs₂
        · have : (0 : ℤ) ≤ s.pages bp := Int.natCast_nonneg _
          split_ifs <;> omega
      · rw [if_neg hwarm]
        exact ⟨s, some bp, c, rfl, h, fun _ => le_rfl⟩

theorem getcleanbuf_spec (h : Rest s R c) (hi : i < NUM_CACHES) :
    ∃ s' r c', getcleanbuf s i = .ok (s', r) ∧ Rest s' R c' ∧ ∀ j, c j ≤ c' j := by
  obtain ⟨s₁, r, c', hloop, h₁, hle⟩ := coldLoop_spec _ h hi (Nat.lt_succ_self _)
  rw [getcleanbuf, hloop]
  cases r with
  | some bp => exact ⟨s₁, some bp, c', rfl, h₁, hle⟩
  | none =>
    cases hw : (s₁.cleancache i).warmqueue.head? with
    | some bp => exact ⟨s₁, some bp, c', by simp [bind, Except.bind, hw], h₁, hle⟩
    | none => exact ⟨s₁, _, c', by simp [bind, Except.bind, hw]; rfl, h₁, hle⟩

theorem firstClean_spec (l : List ℕ) (hl : ∀ i ∈ l, i < NUM_CACHES) (h : Rest s R c) :
    ∃ s' r c', firstClean s l = .ok (s', r) ∧ Rest s' R c' ∧ ∀ j, c j ≤ c' j := by
  induction l generalizing s c with
  | nil => exact ⟨s, none, c, rfl, h, fun _ => le_rfl⟩
  | cons i l ih =>
    obtain ⟨s₁, r, c₁, hget, h₁, hle₁⟩ := getcleanbuf_spec h (hl i (by simp))
    rw [firstClean, hget]
    cases r with
    | some bp => exact ⟨s₁, some bp, c₁, rfl, h₁, hle₁⟩
    | none =>
      obtain ⟨s₂, r, c₂, hrec, h₂, hle₂⟩ := ih (fun j hj => hl j (List.mem_cons_of_mem i hj)) h₁
      exact ⟨s₂, r, c₂, hrec, h₂, fun j => (hle₁ j).trans (hle₂ j)⟩

theorem searchOrder_lt : ∀ i ∈ searchOrder, i < NUM_CACHES := by
  intro i hi
  simp only [searchOrder, List.mem_flatMap, List.mem_reverse, List.mem_filter, List.mem_range] at hi
  obtain ⟨j, -, hi, -⟩ := hi
  exact hi

/-- Every operation runs to its end and keeps the state in order; the caches' own counts
never get smaller than what they hold. -/
theorem step_spec {op : Op} (h : Rest s R c) (he : Enabled R op) :
    ∃ s' c', step s op = .ok s' ∧ Rest s' (after R op) c' ∧ ∀ j, c j ≤ c' j := by
  cases op with
  | release bp =>
    obtain ⟨s', hs, h'⟩ := release_spec h he
    exact ⟨s', c, hs, h', fun _ => le_rfl⟩
  | take bp =>
    obtain ⟨s', hs, h'⟩ := take_spec h he
    exact ⟨s', c, hs, h', fun _ => le_rfl⟩
  | getclean i =>
    obtain ⟨s', r, c', hs, h', hle⟩ := getcleanbuf_spec h he
    exact ⟨s', c', by rw [step, hs]; rfl, h', hle⟩
  | getanyclean =>
    obtain ⟨s', r, c', hs, h', hle⟩ := firstClean_spec _ searchOrder_lt h
    exact ⟨s', c', by rw [step, getanycleanbuf, hs]; rfl, h', hle⟩
  | adjust =>
    obtain ⟨s', hs, h'⟩ := adjust_spec h
    exact ⟨s', c, hs, h', fun _ => le_rfl⟩
  | setDelwri bp v =>
    refine ⟨_, c, rfl, ?_, fun _ => le_rfl⟩
    exact h.setBuf he ((h.sane bp).setFlags (s.buf bp).cold (s.buf bp).warm v) rfl

theorem bufcacheInit_rest {buf : ℕ → Buf} (h : ∀ bp, (buf bp).Sane) :
    Rest (bufcacheInit buf) ∅ fun _ => 0 := by
  have hq : ∀ p, (bufcacheInit buf).queue p = [] := by
    intro p
    cases p with
    | dirty => rfl
    | clean i q => cases q <;> rfl
  have hheld : ∀ i, (bufcacheInit buf).held i = 0 := fun i => by simp [State.held, hq]
  refine ⟨h, ⟨fun p => by simp [hq], fun p x hx => ?_⟩, fun x => ?_, ?_⟩
  · rw [hq] at hx
    cases hx
  · simp [Released, hq]
  · refine ⟨fun i q hq' => ?_, fun i => ?_, ?_, rfl, rfl⟩
    · rw [hq]
      cases q <;> rfl
    · rw [hheld]
      rfl
    · simp only [hheld, Finset.sum_const_zero]
      rfl

theorem run_rest {P : State → Op → Prop} (hr : Run P s R) :
    ∃ c, Rest s R c ∧ ∀ j, 0 ≤ c j := by
  induction hr with
  | init h => exact ⟨_, bufcacheInit_rest h, fun _ => le_rfl⟩
  | step _ he _ hs ih =>
    obtain ⟨c, h, hc⟩ := ih
    obtain ⟨s', c', hs', h', hle⟩ := step_spec h he
    rw [hs] at hs'
    cases hs'
    exact ⟨c', h', fun j => (hc j).trans (hle j)⟩

/-- The buffer at the head of a cold queue is not moved on to the next cache. -/
def ColdStays (s : State) (i : ℕ) : Prop :=
  i < NUM_CACHES - 1 → ∀ bp ∈ (s.cleancache i).coldqueue.head?, (s.buf bp).warm = false

def Empty (s : State) (i : ℕ) : Prop := ∀ q, (s.cleancache i).queue q = []

/-- The look for a victim moves no buffer to another cache. -/
def NoPromotion (s : State) : Op → Prop
  | .getclean i => ColdStays s i
  | .getanyclean => ∀ i, (∀ j, i < j → j < NUM_CACHES → Empty s j) → ColdStays s i
  | _ => True

theorem getcleanbuf_stays (h : ColdStays s i) :
    ∃ r, getcleanbuf s i = .ok (s, r) ∧ (r = none → Empty s i) := by
  have hloop : coldLoop ((s.cleancache i).coldqueue.length + 1) s i =
      .ok (s, (s.cleancache i).coldqueue.head?) := by
    rw [coldLoop]
    cases hl : (s.cleancache i).coldqueue with
    | nil => rfl
    | cons bp l =>
      have hno : ¬ (i < NUM_CACHES - 1 ∧ (s.buf bp).warm = true) := by
        rintro ⟨hi, hw⟩
        have := h hi bp (by simp [hl])
        rw [hw] at this
        cases this
      dsimp only
      rw [if_neg hno]
      rfl
  rw [getcleanbuf, hloop]
  cases hc : (s.cleancache i).coldqueue with
  | cons bp l => exact ⟨some bp, rfl, by simp⟩
  | nil =>
    cases hw : (s.cleancache i).warmqueue with
    | cons bp l => exact ⟨some bp, by simp [bind, Except.bind, hw], by simp⟩
    | nil =>
      refine ⟨(s.cleancache i).hotqueue.head?, by simp [bind, Except.bind, hw], fun hh q => ?_⟩
      cases q with
      | hot => exact List.head?_eq_none_iff.mp hh
      | warm => exact hw
      | cold => exact hc

theorem getanycleanbuf_stays (h : NoPromotion s .getanyclean) :
    ∃ r, getanycleanbuf s = .ok (s, r) := by
  have horder : searchOrder = [1, 0, 1] := rfl
  have hlast : ColdStays s 1 := fun hi => absurd hi (by decide)
  obtain ⟨r₁, h₁, hr₁⟩ := getcleanbuf_stays hlast
  rw [getanycleanbuf, horder, firstClean, h₁]
  cases r₁ with
  | some bp => exact ⟨some bp, rfl⟩
  | none =>
    have hempty : ∀ j, 0 < j → j < NUM_CACHES → Empty s j := by
      intro j h0 hj
      have hj1 : j = 1 := by
        have : NUM_CACHES = 2 := rfl
        omega
      exact hj1 ▸ hr₁ rfl
    obtain ⟨r₀, h₀, -⟩ := getcleanbuf_stays (h 0 hempty)
    simp only [bind, Except.bind, firstClean, h₀, h₁]
    cases r₀ with
    | some bp => exact ⟨some bp, rfl⟩
    | none => exact ⟨none, rfl⟩

theorem step_exact {op : Op} (h : Rest s R fun _ => 0) (he : Enabled R op)
    (hp : NoPromotion s op) (hs : step s op = .ok s') : Rest s' (after R op) fun _ => 0 := by
  cases op with
  | release bp =>
    obtain ⟨s₁, hs₁, h₁⟩ := release_spec h he
    cases hs₁.symm.trans hs
    exact h₁
  | take bp =>
    obtain ⟨s₁, hs₁, h₁⟩ := take_spec h he
    cases hs₁.symm.trans hs
    exact h₁
  | getclean i =>
    obtain ⟨r, hr, -⟩ := getcleanbuf_stays hp
    rw [step, hr] at hs
    cases hs
    exact h
  | getanyclean =>
    obtain ⟨r, hr⟩ := getanycleanbuf_stays hp
    rw [step, hr] at hs
    cases hs
    exact h
  | adjust =>
    obtain ⟨s₁, hs₁, h₁⟩ := adjust_spec h
    cases hs₁.symm.trans hs
    exact h₁
  | setDelwri bp v =>
    cases hs
    exact h.setBuf he ((h.sane bp).setFlags (s.buf bp).cold (s.buf bp).warm v) rfl

end Ops

/-- What the queues and the counters promise between two operations. -/
structure Sound (s : State) (released : Set ℕ) : Prop where
  nodup : ∀ p, (s.queue p).Nodup
  filed : ∀ bp p, bp ∈ s.queue p ↔ bp ∈ released ∧ p = (s.buf bp).home
  hotbufpages : ∀ i, (s.cleancache i).hotbufpages = s.weigh (s.cleancache i).hotqueue
  warmbufpages : ∀ i, (s.cleancache i).warmbufpages = s.weigh (s.cleancache i).warmqueue
  cachepages : ∀ i, (s.cleancache i).cachepages = s.held i
  numcleanpages : s.numcleanpages = ∑ i ∈ Finset.range NUM_CACHES, (s.cleancache i).cachepages
  runs : ∀ op, Enabled released op → ∃ s', step s op = .ok s'
  zero : released = ∅ → s.numcleanpages = 0 ∧ s.numdirtypages = 0 ∧ s.delwribufs = 0 ∧
    ∀ i, (s.cleancache i).hotbufpages = 0 ∧ (s.cleancache i).warmbufpages = 0 ∧
      (s.cleancache i).cachepages = 0

theorem Inv.sound {s : State} {released : Set ℕ} (h : Rest s released fun _ => 0) :
    Sound s released := by
  have hcache : ∀ i, (s.cleancache i).cachepages = s.held i := fun i => by
    rw [h.counted.cache i, add_zero]
  have hhot : ∀ i, (s.cleancache i).hotbufpages = s.weigh (s.cleancache i).hotqueue := fun i =>
    (h.counted.queue i .hot (by simp)).trans (add_zero _)
  have hwarm : ∀ i, (s.cleancache i).warmbufpages = s.weigh (s.cleancache i).warmqueue := fun i =>
    (h.counted.queue i .warm (by simp)).trans (add_zero _)
  have hfiled : ∀ bp p, bp ∈ s.queue p ↔ bp ∈ released ∧ p = (s.buf bp).home := by
    intro bp p
    constructor
    · intro hin
      exact ⟨(h.released bp).mp ⟨p, hin⟩, (h.filed.home p bp hin).symm⟩
    · rintro ⟨hrel, rfl⟩
      exact h.filed.released_iff.mp ((h.released bp).mpr hrel)
  refine ⟨h.filed.nodup, hfiled, hhot, hwarm, hcache, ?_, fun op he => ?_, fun hnone => ?_⟩
  · simp only [hcache]
    exact h.counted.clean.trans (add_zero _)
  · obtain ⟨s', c', hs, -⟩ := step_spec h he
    exact ⟨s', hs⟩
  · have hempty : ∀ p, s.queue p = [] := by
      intro p
      apply List.eq_nil_iff_forall_not_mem.mpr
      intro bp hin
      have := ((hfiled bp p).mp hin).1
      rw [hnone] at this
      exact this
    have hheld : ∀ i, s.held i = 0 := fun i => by simp [State.held, hempty]
    have hdirty : s.dirtyqueue = [] := hempty .dirty
    refine ⟨?_, ?_, ?_, fun i => ⟨?_, ?_, ?_⟩⟩
    · rw [h.counted.clean]
      simp [hheld]
    · rw [h.counted.dirty, hdirty, weigh_nil]
    · rw [h.counted.delwri, hdirty]
      rfl
    · rw [hhot]
      exact (congrArg s.weigh (hempty (.clean i .hot))).trans (weigh_nil s)
    · rw [hwarm]
      exact (congrArg s.weigh (hempty (.clean i .warm))).trans (weigh_nil s)
    · rw [hcache, hheld]

/-- In every run in which no look for a victim finds a buffer that has been warm at the
head of the cold queue of a cache other than the last, all counts are exact. -/
theorem bufcache_sound {s : State} {released : Set ℕ} (hr : Run NoPromotion s released) :
    Sound s released := by
  have h : Rest s released fun _ => 0 := by
    induction hr with
    | init h => exact bufcacheInit_rest h
    | step _ he hp hs ih => exact step_exact ih he hp hs
  exact h.sound

/-- In every run at all, each released buffer is on the queue it belongs to, the counters of
the hot and the warm queues and of all clean pages are exact, a cache's own count is never
too small, and no operation faults. -/
theorem bufcache_run {P : State → Op → Prop} {s : State} {released : Set ℕ}
    (hr : Run P s released) :
    (∀ p, (s.queue p).Nodup) ∧ (∀ bp p, bp ∈ s.queue p ↔ bp ∈ released ∧ p = (s.buf bp).home) ∧
      (∀ i, (s.cleancache i).hotbufpages = s.weigh (s.cleancache i).hotqueue ∧
        (s.cleancache i).warmbufpages = s.weigh (s.cleancache i).warmqueue ∧
        s.held i ≤ (s.cleancache i).cachepages) ∧
      s.numcleanpages = ∑ i ∈ Finset.range NUM_CACHES, s.held i ∧
      ∀ op, Enabled released op → ∃ s', step s op = .ok s' := by
  obtain ⟨c, h, hc⟩ := run_rest hr
  refine ⟨h.filed.nodup, fun bp p => ⟨fun hin => ?_, ?_⟩, fun i => ⟨?_, ?_, ?_⟩, ?_, fun op he => ?_⟩
  · exact ⟨(h.released bp).mp ⟨p, hin⟩, (h.filed.home p bp hin).symm⟩
  · rintro ⟨hrel, rfl⟩
    exact h.filed.released_iff.mp ((h.released bp).mpr hrel)
  · exact (h.counted.queue i .hot (by simp)).trans (add_zero _)
  · exact (h.counted.queue i .warm (by simp)).trans (add_zero _)
  · have := h.counted.cache i
    have := hc i
    omega
  · exact h.counted.clean.trans (add_zero _)
  · obtain ⟨s', c', hs, -⟩ := step_spec h he
    exact ⟨s', hs⟩

def next (s : State) (op : Op) : State :=
  match step s op with
  | .ok s' => s'
  | .error _ => s

theorem Run.next {P : State → Op → Prop} {s : State} {released : Set ℕ} (hr : Run P s released)
    (op : Op) (he : Enabled released op) (hp : P s op) :
    Run P (Bufcache.next s op) (after released op) := by
  obtain ⟨c, h, -⟩ := run_rest hr
  obtain ⟨s', -, hs, -⟩ := step_spec h he
  have hnext : Bufcache.next s op = s' := by rw [Bufcache.next, hs]
  exact hr.step he hp (hnext ▸ hs)

/-- Buffers of ninety-six pages in the cache for DMA memory. -/
def largeBufs : ℕ → Buf := fun _ => ⟨true, true, false, false, false, 0, 96 * 4096⟩

theorem largeBufs_sane (bp : ℕ) : (largeBufs bp).Sane :=
  ⟨rfl, by simp [largeBufs], (by decide : 0 < NUM_CACHES), (by decide : atop (96 * 4096) ≤ 96)⟩

/-- Two buffers are released and the victim is looked for. -/
theorem bufcache_sound_two :
    Sound ([Op.release 0, .release 1, .getclean 0].foldl next (bufcacheInit largeBufs)) {1, 0} := by
  have h₀ : Run NoPromotion (bufcacheInit largeBufs) ∅ := .init largeBufs_sane
  have h₁ := h₀.next (.release 0) (by simp [Enabled]) trivial
  have h₂ := h₁.next (.release 1) (by simp [Enabled, after]) trivial
  have h₃ := h₂.next (.getclean 0) (show 0 < NUM_CACHES by decide) (by
    intro _ bp hbp
    have hhead : (([Op.release 0, .release 1].foldl next
        (bufcacheInit largeBufs)).cleancache 0).coldqueue.head? = some 0 := by decide
    cases hhead.symm.trans hbp
    decide)
  have hset : after (after (after ∅ (.release 0)) (.release 1)) (.getclean 0) = ({1, 0} : Set ℕ) := by
    simp [after]
  rw [hset] at h₃
  exact bufcache_sound h₃

/-- Two buffers are released, and then a victim is looked for. -/
theorem bufcache_run_two :
    (∀ p, (([Op.release 0, .release 1, .getclean 0].foldl next
        (bufcacheInit largeBufs)).queue p).Nodup) ∧
      ([Op.release 0, .release 1, .getclean 0].foldl next (bufcacheInit largeBufs)).numcleanpages =
        ∑ i ∈ Finset.range NUM_CACHES,
          ([Op.release 0, .release 1, .getclean 0].foldl next (bufcacheInit largeBufs)).held i := by
  have h₀ : Run (fun _ _ => True) (bufcacheInit largeBufs) ∅ := .init largeBufs_sane
  have h₁ := h₀.next (.release 0) (by simp [Enabled]) trivial
  have h₂ := h₁.next (.release 1) (by simp [Enabled, after]) trivial
  have h₃ := h₂.next (.getclean 0) (show 0 < NUM_CACHES by decide) trivial
  exact ⟨(bufcache_run h₃).1, (bufcache_run h₃).2.2.2.1⟩

/-- One buffer becomes warm, goes cold and is moved on by the look for a victim; then all
three are taken. -/
def moveOn : List Op :=
  [.release 0, .release 1, .take 0, .release 0, .release 2, .take 1, .release 1, .getclean 0,
    .take 0, .take 1, .take 2]

/-- No buffer is released any more, and the first cache still counts the pages of the one
that was moved on. -/
theorem bufcache_moveOn :
    ∃ s, Run (fun _ _ => True) s ∅ ∧ (s.cleancache 0).cachepages = 96 ∧ s.held 0 = 0 ∧
      ¬ Sound s ∅ := by
  have h₀ : Run (fun _ _ => True) (bufcacheInit largeBufs) ∅ := .init largeBufs_sane
  have h₁ := h₀.next (.release 0) (by simp [Enabled]) trivial
  have h₂ := h₁.next (.release 1) (by simp [Enabled, after]) trivial
  have h₃ := h₂.next (.take 0) (by simp [Enabled, after]) trivial
  have h₄ := h₃.next (.release 0) (by simp [Enabled, after]) trivial
  have h₅ := h₄.next (.release 2) (by simp [Enabled, after]) trivial
  have h₆ := h₅.next (.take 1) (by simp [Enabled, after]) trivial
  have h₇ := h₆.next (.release 1) (by simp [Enabled, after]) trivial
  have h₈ := h₇.next (.getclean 0) (show 0 < NUM_CACHES by decide) trivial
  have h₉ := h₈.next (.take 0) (by simp [Enabled, after]) trivial
  have h₁₀ := h₉.next (.take 1) (by simp [Enabled, after]) trivial
  have h₁₁ := h₁₀.next (.take 2) (by simp [Enabled, after]) trivial
  have hpages : ((moveOn.foldl next (bufcacheInit largeBufs)).cleancache 0).cachepages = 96 := by
    decide
  have hset : moveOn.foldl after ∅ = (∅ : Set ℕ) := by
    ext x
    simp only [moveOn, List.foldl, after, Set.mem_sdiff, Set.mem_insert_iff,
      Set.mem_singleton_iff, Set.mem_empty_iff_false]
    tauto
  refine ⟨moveOn.foldl next (bufcacheInit largeBufs), ?_, hpages, by decide, fun h => ?_⟩
  · rw [← hset]
    exact h₁₁
  · have hzero := ((h.zero rfl).2.2.2 0).2.2
    rw [hpages] at hzero
    cases hzero

end OpenbsdKernel.Bufcache
