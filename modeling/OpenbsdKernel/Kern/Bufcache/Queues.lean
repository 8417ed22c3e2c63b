import OpenbsdKernel.Kern.Bufcache.Basic
import Mathlib.Algebra.BigOperators.Group.Finset.Basic

/-!
# Buffers on their queues

A buffer is filed when it is on the one queue that its flags and cache number name.
The counters are compared with the pages on the queues they stand for; the
differences are carried along as parameters, because the operations count a buffer
before they insert it, and the loop for a victim loses count for good.
-/
namespace OpenbsdKernel.Bufcache

/-- The places a released buffer can be in. -/
inductive Place where
  | clean (i : ℕ) (q : Queue)
  | dirty
  deriving DecidableEq, Repr

def State.queue (s : State) : Place → List ℕ
  | .clean i q => (s.cleancache i).queue q
  | .dirty => s.dirtyqueue

/-- The queue that the flags and the cache number of a buffer name. -/
def Buf.home (b : Buf) : Place := if b.delwri then .dirty else .clean b.cache b.queue

def Released (s : State) (bp : ℕ) : Prop := ∃ p, bp ∈ s.queue p

/-- Every buffer is at most once on a queue, and only on the one it belongs to. -/
structure Filed (s : State) : Prop where
  nodup : ∀ p, (s.queue p).Nodup
  home : ∀ p, ∀ bp ∈ s.queue p, (s.buf bp).home = p

@[simp] theorem queue_setQueue (c : BufCache) (l : List ℕ) (q r : Queue) :
    (c.setQueue l q).queue r = if r = q then l else c.queue r := by
  cases q <;> cases r <;> rfl

@[simp] theorem queue_addQueuepages (c : BufCache) (n : ℤ) (q r : Queue) :
    (c.addQueuepages n q).queue r = c.queue r := by
  cases q <;> cases r <;> rfl

@[simp] theorem queue_count (c : BufCache) (n : ℤ) (q r : Queue) :
    (c.count n q).queue r = c.queue r := by
  cases q <;> cases r <;> rfl

@[simp] theorem queuepages_setQueue (c : BufCache) (l : List ℕ) (q r : Queue) :
    (c.setQueue l q).queuepages r = c.queuepages r := by
  cases q <;> cases r <;> rfl

@[simp] theorem cachepages_setQueue (c : BufCache) (l : List ℕ) (q : Queue) :
    (c.setQueue l q).cachepages = c.cachepages := by
  cases q <;> rfl

@[simp] theorem cachepages_addQueuepages (c : BufCache) (n : ℤ) (q : Queue) :
    (c.addQueuepages n q).cachepages = c.cachepages := by
  cases q <;> rfl

@[simp] theorem cachepages_count (c : BufCache) (n : ℤ) (q : Queue) :
    (c.count n q).cachepages = c.cachepages + n := by
  cases q <;> rfl

theorem queuepages_addQueuepages (c : BufCache) (n : ℤ) (q : Queue) {r : Queue} (hr : r ≠ .cold) :
    (c.addQueuepages n q).queuepages r = c.queuepages r + if r = q then n else 0 := by
  cases q <;> cases r <;> simp_all [BufCache.addQueuepages, BufCache.queuepages]

theorem queuepages_count (c : BufCache) (n : ℤ) (q : Queue) {r : Queue} (hr : r ≠ .cold) :
    (c.count n q).queuepages r = c.queuepages r + if r = q then n else 0 := by
  cases q <;> cases r <;> simp_all [BufCache.count, BufCache.addQueuepages, BufCache.queuepages]

@[simp] theorem queue_setBuf (s : State) (bp : ℕ) (b : Buf) (p : Place) :
    (s.setBuf bp b).queue p = s.queue p := by
  cases p <;> rfl

theorem pages_setBuf (s : State) (bp : ℕ) {b : Buf} (hb : b.b_bufsize = (s.buf bp).b_bufsize)
    (x : ℕ) : (s.setBuf bp b).pages x = s.pages x := by
  unfold State.pages State.setBuf
  by_cases hx : x = bp
  · subst hx
    simp [hb]
  · simp [hx]

@[simp] theorem buf_unlink (s : State) (i : ℕ) (q : Queue) (bp : ℕ) :
    (s.unlink i q bp).buf = s.buf := rfl

@[simp] theorem buf_setCache (s : State) (i : ℕ) (c : BufCache) : (s.setCache i c).buf = s.buf := rfl

theorem queue_setCache (s : State) {i : ℕ} {b : BufCache}
    (hq : ∀ r, b.queue r = (s.cleancache i).queue r) (p : Place) :
    (s.setCache i b).queue p = s.queue p := by
  cases p with
  | dirty => rfl
  | clean j r =>
    by_cases hj : j = i
    · subst hj
      simp [State.queue, State.setCache, hq]
    · simp [State.queue, State.setCache, hj]

theorem queue_insertTail (s : State) (i : ℕ) (q : Queue) (bp : ℕ) (p : Place) :
    (s.insertTail i q bp).queue p = if p = .clean i q then s.queue p ++ [bp] else s.queue p := by
  cases p with
  | dirty => rfl
  | clean j r =>
    by_cases hj : j = i
    · subst hj
      by_cases hr : r = q
      · subst hr
        simp [State.queue, State.insertTail, State.setCache]
      · simp [State.queue, State.insertTail, State.setCache, hr]
    · simp [State.queue, State.insertTail, State.setCache, hj]

theorem queue_unlink (s : State) (i : ℕ) (q : Queue) (bp : ℕ) (p : Place) :
    (s.unlink i q bp).queue p = if p = .clean i q then (s.queue p).erase bp else s.queue p := by
  cases p with
  | dirty => rfl
  | clean j r =>
    by_cases hj : j = i
    · subst hj
      by_cases hr : r = q
      · subst hr
        simp [State.queue, State.unlink, State.setCache]
      · simp [State.queue, State.unlink, State.setCache, hr]
    · simp [State.queue, State.unlink, State.setCache, hj]

section Filing

variable {s s' : State} {bp : ℕ} {p p' : Place}

theorem Filed.unique (hf : Filed s) (h : bp ∈ s.queue p) (h' : bp ∈ s.queue p') : p = p' :=
  (hf.home p bp h).symm.trans (hf.home p' bp h')

theorem Filed.released_iff (hf : Filed s) : Released s bp ↔ bp ∈ s.queue (s.buf bp).home := by
  constructor
  · rintro ⟨p, hp⟩
    rw [hf.home p bp hp]
    exact hp
  · intro h
    exact ⟨_, h⟩

/-- A buffer that is on no queue may change. -/
theorem Filed.congr (hf : Filed s) (hout : ¬ Released s bp) (hq : ∀ r, s'.queue r = s.queue r)
    (hb : ∀ x, x ≠ bp → s'.buf x = s.buf x) :
    Filed s' ∧ ∀ x, Released s' x ↔ Released s x := by
  refine ⟨⟨fun r => hq r ▸ hf.nodup r, fun r x hx => ?_⟩, fun x => ?_⟩
  · rw [hq] at hx
    rw [hb x fun h => hout ⟨r, h ▸ hx⟩]
    exact hf.home r x hx
  · simp only [Released, hq]

/-- Counters do not file. -/
theorem Filed.same (hf : Filed s) (hq : ∀ r, s'.queue r = s.queue r) (hb : s'.buf = s.buf) :
    Filed s' ∧ ∀ x, Released s' x ↔ Released s x := by
  refine ⟨⟨fun r => hq r ▸ hf.nodup r, fun r x hx => ?_⟩, fun x => ?_⟩
  · rw [hq] at hx
    rw [hb]
    exact hf.home r x hx
  · simp only [Released, hq]

theorem Filed.insert (hf : Filed s) (hout : ¬ Released s bp) (hhome : (s.buf bp).home = p)
    (hq : ∀ r, s'.queue r = if r = p then s.queue r ++ [bp] else s.queue r)
    (hb : s'.buf = s.buf) : Filed s' ∧ ∀ x, Released s' x ↔ x = bp ∨ Released s x := by
  have hmem : ∀ r x, x ∈ s'.queue r ↔ x ∈ s.queue r ∨ (r = p ∧ x = bp) := by
    intro r x
    rw [hq]
    split_ifs with hr <;> simp [hr]
  refine ⟨⟨fun r => ?_, fun r x hx => ?_⟩, fun x => ?_⟩
  · rw [hq]
    split_ifs with hr
    · refine List.nodup_append.mpr ⟨hf.nodup r, List.nodup_singleton bp, ?_⟩
      rintro x hx y hy rfl
      cases List.mem_singleton.mp hy
      exact hout ⟨r, hx⟩
    · exact hf.nodup r
  · rw [hb]
    rcases (hmem r x).mp hx with hx | ⟨rfl, rfl⟩
    · exact hf.home r x hx
    · exact hhome
  · simp only [Released, hmem]
    constructor
    · rintro ⟨r, h | ⟨-, h⟩⟩
      · exact .inr ⟨r, h⟩
      · exact .inl h
    · rintro (rfl | ⟨r, h⟩)
      · exact ⟨p, .inr ⟨rfl, rfl⟩⟩
      · exact ⟨r, .inl h⟩

theorem Filed.remove (hf : Filed s) (hin : bp ∈ s.queue p)
    (hq : ∀ r, s'.queue r = if r = p then (s.queue r).erase bp else s.queue r)
    (hb : s'.buf = s.buf) : Filed s' ∧ ∀ x, Released s' x ↔ x ≠ bp ∧ Released s x := by
  have hmem : ∀ r x, x ∈ s'.queue r ↔ x ≠ bp ∧ x ∈ s.queue r := by
    intro r x
    rw [hq]
    split_ifs with hr
    · rw [(hf.nodup r).mem_erase_iff]
    · constructor
      · intro hx
        refine ⟨?_, hx⟩
        rintro rfl
        exact hr (hf.unique hx hin)
      · exact fun hx => hx.2
  refine ⟨⟨fun r => ?_, fun r x hx => ?_⟩, fun x => ?_⟩
  · rw [hq]
    split_ifs with hr
    · exact (hf.nodup r).erase bp
    · exact hf.nodup r
  · rw [hb]
    exact hf.home r x ((hmem r x).mp hx).2
  · simp only [Released, hmem, exists_and_left]

end Filing

/-- The pages of a list of buffers. -/
def State.weigh (s : State) (l : List ℕ) : ℤ := (l.map fun bp => (s.pages bp : ℤ)).sum

/-- The pages on the three queues of a cache. -/
def State.held (s : State) (i : ℕ) : ℤ :=
  s.weigh (s.queue (.clean i .hot)) + s.weigh (s.queue (.clean i .warm)) +
    s.weigh (s.queue (.clean i .cold))

/-- The counters exceed what they count by `e` for each queue, by `c` for each cache
and by `t` for the total. -/
structure Counted (s : State) (e : ℕ → Queue → ℤ) (c : ℕ → ℤ) (t : ℤ) : Prop where
  queue : ∀ i q, q ≠ .cold →
    (s.cleancache i).queuepages q = s.weigh (s.queue (.clean i q)) + e i q
  cache : ∀ i, (s.cleancache i).cachepages = s.held i + c i
  clean : s.numcleanpages = ∑ i ∈ Finset.range NUM_CACHES, s.held i + t
  dirty : s.numdirtypages = s.weigh s.dirtyqueue
  delwri : s.delwribufs = s.dirtyqueue.length

@[simp] theorem weigh_nil (s : State) : s.weigh [] = 0 := rfl

@[simp] theorem weigh_concat (s : State) (l : List ℕ) (bp : ℕ) :
    s.weigh (l ++ [bp]) = s.weigh l + s.pages bp := by
  simp [State.weigh]

theorem weigh_erase (s : State) {l : List ℕ} {bp : ℕ} (h : bp ∈ l) :
    s.weigh (l.erase bp) = s.weigh l - s.pages bp := by
  have hperm := List.perm_cons_erase h
  have hsum : s.weigh l = s.weigh (bp :: l.erase bp) := (hperm.map _).sum_eq
  rw [hsum]
  simp [State.weigh]

section Counting

variable {s s' : State} {e e' : ℕ → Queue → ℤ} {c c' : ℕ → ℤ} {t t' : ℤ} {i bp : ℕ} {q : Queue}

theorem weigh_congr (hp : ∀ x, s'.pages x = s.pages x) (l : List ℕ) : s'.weigh l = s.weigh l := by
  simp only [State.weigh, hp]

theorem held_congr (hp : ∀ x, s'.pages x = s.pages x)
    (hq : ∀ r, s'.queue (.clean i r) = s.queue (.clean i r)) : s'.held i = s.held i := by
  simp only [State.held, hq, weigh_congr hp]

/-- A change of one queue of a cache changes what the cache holds by as much. -/
theorem held_change {n : ℤ} (hp : ∀ x, s'.pages x = s.pages x)
    (hq : s'.weigh (s'.queue (.clean i q)) = s.weigh (s.queue (.clean i q)) + n)
    (hr : ∀ r, r ≠ q → s'.queue (.clean i r) = s.queue (.clean i r)) :
    s'.held i = s.held i + n := by
  unfold State.held
  cases q with
  | hot => rw [hq, hr .warm (by simp), hr .cold (by simp), weigh_congr hp, weigh_congr hp]; ring
  | warm => rw [hq, hr .hot (by simp), hr .cold (by simp), weigh_congr hp, weigh_congr hp]; ring
  | cold => rw [hq, hr .hot (by simp), hr .warm (by simp), weigh_congr hp, weigh_congr hp]; ring

theorem sum_change {f g : ℕ → ℤ} {n : ℤ} (hi : i < NUM_CACHES) (h : g i = f i + n)
    (hj : ∀ j, j ≠ i → g j = f j) :
    ∑ j ∈ Finset.range NUM_CACHES, g j = ∑ j ∈ Finset.range NUM_CACHES, f j + n := by
  have hmem : i ∈ Finset.range NUM_CACHES := Finset.mem_range.mpr hi
  rw [← Finset.add_sum_erase _ _ hmem, ← Finset.add_sum_erase _ f hmem, h,
    Finset.sum_congr rfl fun j hj' => hj j (Finset.ne_of_mem_erase hj')]
  ring

theorem Counted.congr (h : Counted s e c t) (he : ∀ j r, r ≠ .cold → e' j r = e j r)
    (hc : ∀ j, c' j = c j) (ht : t' = t) : Counted s e' c' t' :=
  ⟨fun j r hr => by rw [he j r hr]; exact h.queue j r hr, fun j => by rw [hc]; exact h.cache j,
    by rw [ht]; exact h.clean, h.dirty, h.delwri⟩

/-- Flags do not count. -/
theorem Counted.setBuf (h : Counted s e c t) {b : Buf}
    (hb : b.b_bufsize = (s.buf bp).b_bufsize) : Counted (s.setBuf bp b) e c t := by
  have hp := pages_setBuf s bp hb
  have hheld : ∀ j, (s.setBuf bp b).held j = s.held j :=
    fun j => held_congr hp fun r => queue_setBuf s bp b _
  refine ⟨fun j r hr => ?_, fun j => ?_, ?_, ?_, h.delwri⟩
  · rw [queue_setBuf, weigh_congr hp]
    exact h.queue j r hr
  · rw [hheld]
    exact h.cache j
  · simp only [hheld]
    exact h.clean
  · rw [weigh_congr hp]
    exact h.dirty

/-- A change of one queue, uncounted. -/
theorem Counted.setQueue (h : Counted s e c t) (hi : i < NUM_CACHES) {l : List ℕ} {n : ℤ}
    (hl : s.weigh l = s.weigh (s.queue (.clean i q)) + n) :
    Counted (s.setCache i ((s.cleancache i).setQueue l q))
      (fun j r => e j r - if j = i ∧ r = q then n else 0) (fun j => c j - if j = i then n else 0)
      (t - n) := by
  have hp : ∀ x, (s.setCache i ((s.cleancache i).setQueue l q)).pages x = s.pages x := fun _ => rfl
  have hsame : ∀ j r, ¬ (j = i ∧ r = q) →
      (s.setCache i ((s.cleancache i).setQueue l q)).queue (.clean j r) = s.queue (.clean j r) := by
    intro j r hne
    by_cases hj : j = i
    · subst hj
      have hr : r ≠ q := fun hr => hne ⟨rfl, hr⟩
      simp [State.queue, State.setCache, hr]
    · simp [State.queue, State.setCache, hj]
  have hnew : (s.setCache i ((s.cleancache i).setQueue l q)).queue (.clean i q) = l := by
    simp [State.queue, State.setCache]
  have hother : ∀ j, j ≠ i → (s.setCache i ((s.cleancache i).setQueue l q)).held j = s.held j :=
    fun j hj => held_congr hp fun r => hsame j r fun h => hj h.1
  have hheld : (s.setCache i ((s.cleancache i).setQueue l q)).held i = s.held i + n := by
    apply held_change (q := q) hp
    · rw [hnew, weigh_congr hp, hl]
    · exact fun r hr => hsame i r fun h => hr h.2
  refine ⟨fun j r hr => ?_, fun j => ?_, ?_, h.dirty, h.delwri⟩
  · have hold := h.queue j r hr
    have hpages : ((s.setCache i ((s.cleancache i).setQueue l q)).cleancache j).queuepages r =
        (s.cleancache j).queuepages r := by
      by_cases hj : j = i
      · subst hj
        simp [State.setCache]
      · simp [State.setCache, hj]
    rw [hpages, hold, weigh_congr hp]
    by_cases hjr : j = i ∧ r = q
    · obtain ⟨rfl, rfl⟩ := hjr
      rw [hnew, hl, if_pos ⟨rfl, rfl⟩]
      ring
    · rw [hsame j r hjr, if_neg hjr, sub_zero]
  · have hold := h.cache j
    by_cases hj : j = i
    · subst hj
      have hpages : ((s.setCache j ((s.cleancache j).setQueue l q)).cleancache j).cachepages =
          (s.cleancache j).cachepages := by simp [State.setCache]
      rw [hpages, hold, hheld, if_pos rfl]
      ring
    · have hpages : ((s.setCache i ((s.cleancache i).setQueue l q)).cleancache j).cachepages =
          (s.cleancache j).cachepages := by simp [State.setCache, hj]
      rw [hpages, hold, hother j hj, if_neg hj, sub_zero]
  · have hclean := h.clean
    have hsum := sum_change hi hheld hother
    rw [hsum]
    dsimp only [State.setCache]
    rw [hclean]
    ring

theorem Counted.insertTail (h : Counted s e c t) (hi : i < NUM_CACHES) (q : Queue) (bp : ℕ) :
    Counted (s.insertTail i q bp) (fun j r => e j r - if j = i ∧ r = q then ↑(s.pages bp) else 0)
      (fun j => c j - if j = i then ↑(s.pages bp) else 0) (t - s.pages bp) :=
  h.setQueue hi (weigh_concat s _ bp)

theorem Counted.unlink (h : Counted s e c t) (hi : i < NUM_CACHES)
    (hin : bp ∈ s.queue (.clean i q)) :
    Counted (s.unlink i q bp) (fun j r => e j r - if j = i ∧ r = q then -↑(s.pages bp) else 0)
      (fun j => c j - if j = i then -↑(s.pages bp) else 0) (t - -s.pages bp) := by
  have herase : s.weigh (((s.cleancache i).queue q).erase bp) =
      s.weigh ((s.cleancache i).queue q) - s.pages bp := weigh_erase s hin
  apply h.setQueue hi
  rw [herase, sub_eq_add_neg]
  rfl

/-- Only counters change; `n` in the counter of the queue, `m` in that of the cache. -/
theorem Counted.setCache (h : Counted s e c t) {b : BufCache} {n m : ℤ} {q : Queue}
    (hq : ∀ r, b.queue r = (s.cleancache i).queue r)
    (hn : ∀ r, r ≠ .cold →
      b.queuepages r = (s.cleancache i).queuepages r + if r = q then n else 0)
    (hm : b.cachepages = (s.cleancache i).cachepages + m) :
    Counted (s.setCache i b) (fun j r => e j r + if j = i ∧ r = q then n else 0)
      (fun j => c j + if j = i then m else 0) t := by
  have hp : ∀ x, (s.setCache i b).pages x = s.pages x := fun _ => rfl
  have hsame : ∀ j r, (s.setCache i b).queue (.clean j r) = s.queue (.clean j r) :=
    fun j r => queue_setCache s hq _
  have hheld : ∀ j, (s.setCache i b).held j = s.held j := fun j => held_congr hp (hsame j)
  refine ⟨fun j r hr => ?_, fun j => ?_, ?_, h.dirty, h.delwri⟩
  · have hold := h.queue j r hr
    rw [hsame, weigh_congr hp]
    by_cases hj : j = i
    · subst hj
      have hb := hn r hr
      rw [hold] at hb
      by_cases hrq : r = q
      · rw [if_pos hrq] at hb
        rw [if_pos ⟨rfl, hrq⟩, ← add_assoc]
        simpa [State.setCache] using hb
      · rw [if_neg hrq] at hb
        rw [if_neg fun h => hrq h.2]
        simpa [State.setCache] using hb
    · simp [State.setCache, hj, hold]
  · have hold := h.cache j
    rw [hheld]
    by_cases hj : j = i
    · subst hj
      simp [State.setCache, hm, hold]
      ring
    · simp [State.setCache, hj, hold]
  · simp only [hheld]
    exact h.clean

theorem Counted.count (h : Counted s e c t) (i : ℕ) (q : Queue) (n k : ℤ) :
    Counted (s.count i q n k) (fun j r => e j r + if j = i ∧ r = q then n else 0)
      (fun j => c j + if j = i then n else 0) (t + k) := by
  have hset := h.setCache (i := i) (queue_count _ n q) (fun r hr => queuepages_count _ n q hr)
    (cachepages_count _ n q)
  refine ⟨hset.queue, hset.cache, ?_, hset.dirty, hset.delwri⟩
  have hclean : s.numcleanpages =
      ∑ j ∈ Finset.range NUM_CACHES, (s.count i q n k).held j + t := hset.clean
  change s.numcleanpages + k = _
  rw [hclean, add_assoc]

end Counting

end OpenbsdKernel.Bufcache
