import OpenbsdKernel.Kern.Rwlock.Basic

/-!
# Safety of the read/write locks

The lock word always tells who holds the lock, and no wakeup is lost, over every
interleaving of the threads.
-/
namespace OpenbsdKernel.Rwlock

/-- A word with `n` in the field above the three flag bits. -/
def word (n flags : ℕ) : BitVec 64 := BitVec.ofNat 64 (8 * n + flags)

/-- A mask below 8 sees the flags only. -/
theorem word_and (n : ℕ) {flags m : ℕ} (hf : flags < 8) (hm : m < 8) :
    word n flags &&& BitVec.ofNat 64 m = BitVec.ofNat 64 (flags &&& m) := by
  have hlow : (8 * n + flags) &&& m = flags &&& m := by
    have hmod := Nat.and_mod_two_pow (a := 8 * n + flags) (b := m) (n := 3)
    have hle : (8 * n + flags) &&& m ≤ m := Nat.and_le_right
    have hn : (8 * n + flags) % 2 ^ 3 = flags := by omega
    have hm' : m % 2 ^ 3 = m := by omega
    rwa [hn, hm', Nat.mod_eq_of_lt (by omega)] at hmod
  rw [word, ← BitVec.ofNat_and, hlow]

theorem word_or (n : ℕ) {flags m : ℕ} (hf : flags < 8) (hm : m < 8) :
    word n flags ||| BitVec.ofNat 64 m = word n (flags ||| m) := by
  have hlt : flags ||| m < 2 ^ 3 := Nat.or_lt_two_pow (by omega) (by omega)
  have hor : (8 * n + flags) ||| m = 8 * n + (flags ||| m) := by
    have h1 := Nat.two_pow_add_eq_or_of_lt (i := 3) (b := flags) (by omega) n
    have h2 := Nat.two_pow_add_eq_or_of_lt (i := 3) hlt n
    norm_num at h1 h2
    rw [h1, h2, Nat.or_assoc]
  rw [word, ← BitVec.ofNat_or, hor, word]

theorem word_succ (n flags : ℕ) : word n flags + 8#64 = word (n + 1) flags := by
  unfold word
  rw [← BitVec.ofNat_add]
  congr 1
  ring

theorem word_pred (n flags : ℕ) : word (n + 1) flags - 8#64 = word n flags := by
  rw [← word_succ, BitVec.add_sub_cancel]

/-- Clearing bits is subtracting those that are set. -/
theorem and_not_eq_sub (x m : BitVec 64) : x &&& ~~~m = x - (x &&& m) := by
  have hzero : (x &&& ~~~m) &&& (x &&& m) = 0#64 := by
    ext i
    simp only [BitVec.getElem_and, BitVec.getElem_not, BitVec.getElem_zero]
    cases x[i] <;> cases m[i] <;> rfl
  have hsum : (x &&& ~~~m) + (x &&& m) = x := by
    rw [BitVec.add_eq_or_of_and_eq_zero _ _ hzero]
    ext i
    simp only [BitVec.getElem_or, BitVec.getElem_and, BitVec.getElem_not]
    cases x[i] <;> cases m[i] <;> rfl
  nth_rewrite 2 [← hsum]
  rw [BitVec.add_sub_cancel]

theorem word_eq_sub (x : BitVec 64) : x - (x &&& 7#64) = word (x.toNat / 8) 0 := by
  have hlt := x.isLt
  have hx : x = word (x.toNat / 8) (x.toNat % 8) := by
    apply BitVec.eq_of_toNat_eq
    simp only [word, BitVec.toNat_ofNat]
    omega
  have hand : x &&& 7#64 = BitVec.ofNat 64 (x.toNat % 8) := by
    apply BitVec.eq_of_toNat_eq
    have hmask : (7#64).toNat = 2 ^ 3 - 1 := rfl
    rw [BitVec.toNat_and, hmask, Nat.and_two_pow_sub_one_eq_mod, BitVec.toNat_ofNat]
    omega
  nth_rewrite 1 [hx]
  rw [hand, word, BitVec.ofNat_add, BitVec.add_sub_cancel]
  rfl

/-- Clearing the two wait bits. -/
theorem word_clear (n : ℕ) {flags : ℕ} (hf : flags < 4) : word n flags &&& ~~~3#64 = word n 0 := by
  have hflags : flags &&& 3 = flags := by
    have := Nat.and_two_pow_sub_one_eq_mod flags 2
    norm_num at this
    omega
  rw [and_not_eq_sub, word_and n (by omega) (by decide : 3 < 8), hflags, word, BitVec.ofNat_add,
    BitVec.add_sub_cancel]
  rfl

theorem word_eq_zero {n flags : ℕ} (hn : n < 2 ^ 61) (hf : flags < 8) (h : word n flags = 0#64) :
    n = 0 ∧ flags = 0 := by
  have hnat := congrArg BitVec.toNat h
  simp only [word, BitVec.toNat_ofNat] at hnat
  omega

theorem rwProc_eq (p : BitVec 64) : rwProc p = word (p.toNat / 8) 0 := by
  rw [rwProc, RWLOCK_MASK, and_not_eq_sub, word_eq_sub]

variable {θ : Type*} [DecidableEq θ] [Fintype θ]

/-- The wait bits: none, `RWLOCK_WAIT`, or both. -/
def WaitBits (w : ℕ) : Prop := w = 0 ∨ w = 1 ∨ w = 3

/-- The lock word and the holders agree: either nobody writes and the field counts the
read holds, with wait bits only if there is one, or one thread writes alone. -/
inductive LockOk (proc : θ → BitVec 64) (owner : BitVec 64) (wr : θ → Bool) (rd : θ → ℕ) : Prop
  | shared (w : ℕ) (hw : WaitBits w) (hwr : ∀ t, wr t = false) (hn : ∑ t, rd t < 2 ^ 61)
      (howner : owner = word (∑ t, rd t) w) (hidle : ∑ t, rd t = 0 → w = 0)
  | exclusive (w : ℕ) (hw : WaitBits w) (t : θ) (ht : wr t = true) (hwr : ∀ u, u ≠ t → wr u = false)
      (hrd : ∀ u, rd u = 0) (howner : owner = word ((proc t).toNat / 8) (4 + w))

section LockOk

variable {proc : θ → BitVec 64} {owner : BitVec 64} {wr : θ → Bool} {rd : θ → ℕ} {t : θ}

theorem sum_update_succ (rd : θ → ℕ) (t : θ) :
    ∑ u, Function.update rd t (rd t + 1) u = ∑ u, rd u + 1 := by
  rw [Finset.sum_update_of_mem (Finset.mem_univ t), ← Finset.add_sum_erase _ _ (Finset.mem_univ t),
    Finset.sdiff_singleton_eq_erase]
  omega

theorem sum_update_pred (h : 0 < rd t) :
    ∑ u, Function.update rd t (rd t - 1) u + 1 = ∑ u, rd u := by
  rw [Finset.sum_update_of_mem (Finset.mem_univ t), ← Finset.add_sum_erase _ _ (Finset.mem_univ t),
    Finset.sdiff_singleton_eq_erase]
  omega

theorem shared_wrlock (n : ℕ) {w : ℕ} (hw : WaitBits w) : word n w &&& RWLOCK_WRLOCK = 0#64 := by
  rcases hw with rfl | rfl | rfl <;> exact word_and n (by decide) (by decide : 4 < 8)

theorem exclusive_wrlock (n : ℕ) {w : ℕ} (hw : WaitBits w) :
    word n (4 + w) &&& RWLOCK_WRLOCK = RWLOCK_WRLOCK := by
  rcases hw with rfl | rfl | rfl <;> exact word_and n (by decide) (by decide : 4 < 8)

theorem shared_wait (n : ℕ) {w : ℕ} (hw : WaitBits w) :
    word n w &&& RWLOCK_WAIT = 0#64 ↔ w = 0 := by
  have h : ∀ f, f < 8 → word n f &&& RWLOCK_WAIT = BitVec.ofNat 64 (f &&& 1) :=
    fun f hf => word_and n hf (by decide : 1 < 8)
  rcases hw with rfl | rfl | rfl <;> rw [h _ (by decide)] <;> decide

theorem exclusive_wait (n : ℕ) {w : ℕ} (hw : WaitBits w) :
    word n (4 + w) &&& RWLOCK_WAIT = 0#64 ↔ w = 0 := by
  have h : ∀ f, f < 8 → word n f &&& RWLOCK_WAIT = BitVec.ofNat 64 (f &&& 1) :=
    fun f hf => word_and n hf (by decide : 1 < 8)
  rcases hw with rfl | rfl | rfl <;> rw [h _ (by decide)] <;> decide

omit [DecidableEq θ] in
/-- `RWLOCK_WRLOCK` tells whether there is a writer. -/
theorem LockOk.wrlock_iff (h : LockOk proc owner wr rd) :
    owner &&& RWLOCK_WRLOCK ≠ 0#64 ↔ ∃ t, wr t = true := by
  cases h with
  | shared w hw hwr hn howner hidle =>
    rw [howner, shared_wrlock _ hw]
    simp [hwr]
  | exclusive w hw t ht hwr hrd howner =>
    rw [howner, exclusive_wrlock _ hw]
    exact ⟨fun _ => ⟨t, ht⟩, fun _ => by decide⟩

theorem LockOk.readAcquire (h : LockOk proc owner wr rd) (hc : owner &&& RWLOCK_WRLOCK = 0#64)
    (hcap : ∑ u, Function.update rd t (rd t + 1) u < 2 ^ 61) :
    LockOk proc (owner + RWLOCK_READ_INCR) wr (Function.update rd t (rd t + 1)) ∧
      (owner &&& RWLOCK_WAIT ≠ 0#64 → (owner + RWLOCK_READ_INCR) &&& RWLOCK_WAIT ≠ 0#64) := by
  cases h with
  | shared w hw hwr hn howner hidle =>
    have hadd : owner + RWLOCK_READ_INCR = word (∑ u, Function.update rd t (rd t + 1) u) w := by
      rw [howner, sum_update_succ]
      exact word_succ _ _
    constructor
    · apply LockOk.shared w hw hwr hcap hadd
      rw [sum_update_succ]
      omega
    · rw [hadd, howner, Ne, Ne, shared_wait _ hw, shared_wait _ hw]
      exact id
  | exclusive w hw t ht hwr hrd howner =>
    rw [howner, exclusive_wrlock _ hw] at hc
    exact absurd hc (by decide)

theorem LockOk.writeAcquire (h : LockOk proc 0#64 wr rd) (t : θ) :
    LockOk proc (rwProc (proc t) + RWLOCK_WRLOCK) (Function.update wr t true) rd := by
  cases h with
  | shared w hw hwr hn howner hidle =>
    have hlt : w < 8 := by
      rcases hw with rfl | rfl | rfl <;> decide
    obtain ⟨hzero, rfl⟩ := word_eq_zero hn hlt howner.symm
    apply LockOk.exclusive 0 (Or.inl rfl) t (Function.update_self ..)
    · intro u hu
      rw [Function.update_of_ne hu]
      exact hwr u
    · intro u
      exact Finset.sum_eq_zero_iff.mp hzero u (Finset.mem_univ u)
    · rw [rwProc_eq]
      unfold word RWLOCK_WRLOCK
      rw [← BitVec.ofNat_add]
  | exclusive w hw t ht hwr hrd howner =>
    have hc := exclusive_wrlock ((proc t).toNat / 8) hw
    rw [← howner] at hc
    exact absurd hc (by decide)

theorem LockOk.rwProc_or (p : BitVec 64) :
    rwProc p ||| RWLOCK_WRLOCK = rwProc p + RWLOCK_WRLOCK := by
  rw [rwProc_eq]
  apply (word_or _ (by decide) (by decide : 4 < 8)).trans
  unfold word RWLOCK_WRLOCK
  rw [← BitVec.ofNat_add]
  rfl

/-- A reader finds the lock shared and counted. -/
theorem LockOk.shared_of_reader (h : LockOk proc owner wr rd) (ht : 0 < rd t) :
    ∃ w n, WaitBits w ∧ (∀ u, wr u = false) ∧ owner = word (n + 1) w ∧ n < 2 ^ 61 ∧
      ∑ u, Function.update rd t (rd t - 1) u = n := by
  cases h with
  | shared w hw hwr hn howner hidle =>
    have hsum := sum_update_pred ht
    refine ⟨w, ∑ u, Function.update rd t (rd t - 1) u, hw, hwr, ?_, by omega, rfl⟩
    rw [hsum]
    exact howner
  | exclusive w hw u hu hwr hrd howner =>
    have := hrd t
    omega

theorem LockOk.readRelease (h : LockOk proc owner wr rd) (ht : 0 < rd t)
    (hc : owner &&& RWLOCK_WAIT = 0#64) :
    LockOk proc (owner - RWLOCK_READ_INCR) wr (Function.update rd t (rd t - 1)) := by
  obtain ⟨w, n, hw, hwr, rfl, hn, hsum⟩ := h.shared_of_reader ht
  have hzero : w = 0 := (shared_wait _ hw).mp hc
  apply LockOk.shared w hw hwr
  · omega
  · rw [hsum]
    exact word_pred _ _
  · intro _
    exact hzero

theorem LockOk.exitRead (h : LockOk proc owner wr rd) (ht : 0 < rd t) :
    LockOk proc (State.exitSet false owner) wr (Function.update rd t (rd t - 1)) := by
  obtain ⟨w, n, hw, hwr, rfl, hn, hsum⟩ := h.shared_of_reader ht
  apply LockOk.shared 0 (Or.inl rfl) hwr
  · omega
  · rw [hsum]
    have hlt : w < 4 := by
      rcases hw with rfl | rfl | rfl <;> decide
    have hpred : word (n + 1) w - RWLOCK_READ_INCR = word n w := word_pred _ _
    simp only [State.exitSet, Bool.false_eq_true, if_false, hpred]
    exact word_clear _ hlt
  · intro _
    rfl

/-- The writer finds its own address in the word. -/
theorem LockOk.exclusive_of_writer (h : LockOk proc owner wr rd) (ht : wr t = true) :
    ∃ w, WaitBits w ∧ (∀ u, u ≠ t → wr u = false) ∧ (∀ u, rd u = 0) ∧
      owner = word ((proc t).toNat / 8) (4 + w) := by
  cases h with
  | shared w hw hwr hn howner hidle => simp [hwr t] at ht
  | exclusive w hw u hu hwr hrd howner =>
    by_cases htu : t = u
    · subst htu
      exact ⟨w, hw, hwr, hrd, howner⟩
    · simp [hwr t htu] at ht

theorem LockOk.exitWrite (h : LockOk proc owner wr rd) (ht : wr t = true) :
    LockOk proc 0#64 (Function.update wr t false) rd := by
  obtain ⟨w, hw, hwr, hrd, -⟩ := h.exclusive_of_writer ht
  have hsum : ∑ u, rd u = 0 := Finset.sum_eq_zero fun u _ => hrd u
  apply LockOk.shared 0 (Or.inl rfl)
  · intro u
    by_cases hut : u = t
    · rw [hut, Function.update_self]
    · rw [Function.update_of_ne hut]
      exact hwr u hut
  · omega
  · rw [hsum]
    rfl
  · intro _
    rfl

theorem LockOk.downgrade (h : LockOk proc owner wr rd) (ht : wr t = true) :
    LockOk proc (owner + enterInc .downgrade (proc t)) (Function.update wr t false)
        (Function.update rd t (rd t + 1)) ∧
      (owner &&& RWLOCK_WAIT ≠ 0#64 →
        owner &&& (RWLOCK_WRLOCK ||| RWLOCK_WAIT) = RWLOCK_WRLOCK ||| RWLOCK_WAIT) := by
  obtain ⟨w, hw, hwr, hrd, howner⟩ := h.exclusive_of_writer ht
  have hsum : ∑ u, Function.update rd t (rd t + 1) u = 1 := by
    rw [sum_update_succ, Finset.sum_eq_zero fun u _ => hrd u]
  constructor
  · apply LockOk.shared w hw
    · intro u
      by_cases hut : u = t
      · rw [hut, Function.update_self]
      · rw [Function.update_of_ne hut]
        exact hwr u hut
    · omega
    · have hinc : enterInc .downgrade (proc t) = 8#64 - 4#64 - rwProc (proc t) := by
        simp only [enterInc, rwOps, RWLOCK_READ_INCR, RWLOCK_WRLOCK]
        rw [BitVec.mul_neg, BitVec.mul_one, ← BitVec.sub_eq_add_neg]
      rw [hsum, hinc, howner, rwProc_eq]
      unfold word
      generalize (proc t).toNat / 8 = n
      rcases hw with rfl | rfl | rfl <;> bv_omega
    · omega
  · intro hwait
    rw [howner, Ne, exclusive_wait _ hw] at hwait
    rw [howner]
    rcases hw with rfl | rfl | rfl
    · exact absurd rfl hwait
    · exact word_and _ (by decide) (by decide : 5 < 8)
    · exact word_and _ (by decide) (by decide : 5 < 8)

omit [DecidableEq θ] in
/-- Setting the wait bits of an operation that found the lock taken. -/
theorem LockOk.setWait (h : LockOk proc owner wr rd) {op : RwOp}
    (hc : owner &&& (rwOps op).check ≠ 0#64) :
    LockOk proc (owner ||| (rwOps op).wait_set) wr rd ∧
      (owner ||| (rwOps op).wait_set) &&& RWLOCK_WAIT ≠ 0#64 := by
  -- the new bits are again wait bits, with `RWLOCK_WAIT` among them
  have hor : ∀ n w e, WaitBits w → (e = 0 ∨ e = 4) → op ≠ .downgrade →
      ∃ w', WaitBits w' ∧ w' ≠ 0 ∧ word n (e + w) ||| (rwOps op).wait_set = word n (e + w') := by
    intro n w e hw he hop
    have hset : ∃ m, (m = 1 ∨ m = 3) ∧ (rwOps op).wait_set = BitVec.ofNat 64 m := by
      cases op with
      | write => exact ⟨3, Or.inr rfl, by decide⟩
      | read => exact ⟨1, Or.inl rfl, rfl⟩
      | downgrade => exact absurd rfl hop
    obtain ⟨m, hm, hset⟩ := hset
    refine ⟨w ||| m, ?_, ?_, ?_⟩
    · rcases hw with rfl | rfl | rfl <;> rcases hm with rfl | rfl <;> simp [WaitBits]
    · rcases hw with rfl | rfl | rfl <;> rcases hm with rfl | rfl <;> decide
    · rw [hset]
      rcases hw with rfl | rfl | rfl <;> rcases hm with rfl | rfl <;> rcases he with rfl | rfl <;>
        exact word_or n (by decide) (by decide)
  have hop : op ≠ .downgrade := by
    rintro rfl
    simp [rwOps] at hc
  cases h with
  | shared w hw hwr hn howner hidle =>
    have hpos : ∑ u, rd u ≠ 0 := by
      intro hzero
      rw [howner, hzero, hidle hzero] at hc
      exact hc (by simp [word])
    obtain ⟨w', hw', hne, heq⟩ := hor (∑ u, rd u) w 0 hw (Or.inl rfl) hop
    rw [zero_add, zero_add] at heq
    rw [howner, heq]
    exact ⟨LockOk.shared w' hw' hwr hn rfl fun h0 => absurd h0 hpos,
      fun h0 => hne ((shared_wait _ hw').mp h0)⟩
  | exclusive w hw t ht hwr hrd howner =>
    obtain ⟨w', hw', hne, heq⟩ := hor ((proc t).toNat / 8) w 4 hw (Or.inr rfl) hop
    rw [howner, heq]
    exact ⟨LockOk.exclusive w' hw' t ht hwr hrd rfl,
      fun h0 => hne ((exclusive_wait _ hw').mp h0)⟩

end LockOk

/-- What a thread knows at each program point about its locals and its holds. -/
def PcOk (wr : Bool) (rd : ℕ) : Pc → Prop
  | .enterReadCas o => o &&& RWLOCK_WRLOCK = 0#64
  | .enterLoad op _ => op = .downgrade → wr = true
  | .sleepSetup op _ o | .sleepCas op _ o => o &&& (rwOps op).check ≠ 0#64
  | .sleepFinish op _ _ | .asleep op _ => op ≠ .downgrade
  | .enterCas op _ o => o &&& (rwOps op).check = 0#64 ∧ (op = .downgrade → wr = true)
  | .exitRead => 0 < rd
  | .exitReadCas o => 0 < rd ∧ o &&& RWLOCK_WAIT = 0#64
  | .exitWrite => wr = true
  | .exitWriteCas o => wr = true ∧ o &&& RWLOCK_WAIT = 0#64
  | .exit => wr = true ∨ 0 < rd
  | .exitLoad wrlock | .exitCas wrlock _ => if wrlock then wr = true else 0 < rd
  | _ => True

/-- A thread asleep has `RWLOCK_WAIT` set, or a wakeup is on its way. -/
def Covered (s : State θ) : Prop :=
  s.rwl_owner &&& RWLOCK_WAIT ≠ 0#64 ∨ ∃ v, s.pc v = .wakeup

structure Inv (proc : θ → BitVec 64) (s : State θ) : Prop where
  lock : LockOk proc s.rwl_owner s.wr s.rd
  pc : ∀ t, PcOk (s.wr t) (s.rd t) (s.pc t)
  asleep : ∀ t, s.Asleep t → Covered s

omit [DecidableEq θ] in
theorem inv_rwInit (proc : θ → BitVec 64) : Inv proc State.rwInit where
  lock := by
    apply LockOk.shared 0 (Or.inl rfl)
    · intro t
      rfl
    · simp [State.rwInit]
    · simp [State.rwInit, word]
    · intro _
      rfl
  pc := by
    intro t
    exact trivial
  asleep := by
    rintro t ⟨h, -⟩
    cases h

/-- The part of the invariant that a step of `t` leaves to the other threads. -/
theorem Inv.of_step {proc : θ → BitVec 64} {s s' : State θ} {t : θ} (h : Inv proc s)
    (hlock : LockOk proc s'.rwl_owner s'.wr s'.rd)
    (hframe : ∀ u, u ≠ t → s'.pc u = s.pc u ∧ s'.wr u = s.wr u ∧ s'.rd u = s.rd u ∧
      (s'.onq u = true → s.onq u = true))
    (hpc : PcOk (s'.wr t) (s'.rd t) (s'.pc t)) (hnot : s.pc t ≠ .wakeup)
    (hwait : s.rwl_owner &&& RWLOCK_WAIT ≠ 0#64 → Covered s')
    (hasleep : s'.Asleep t → Covered s') : Inv proc s' := by
  constructor
  · exact hlock
  · intro u
    by_cases hut : u = t
    · rw [hut]
      exact hpc
    · obtain ⟨hp, hw, hr, -⟩ := hframe u hut
      rw [hp, hw, hr]
      exact h.pc u
  · intro u hu
    by_cases hut : u = t
    · rw [hut] at hu
      exact hasleep hu
    · obtain ⟨hp, -, -, hq⟩ := hframe u hut
      have hold : s.Asleep u := by
        obtain ⟨hpc, honq⟩ := hu
        rw [hp] at hpc
        exact ⟨hpc, hq honq⟩
      rcases h.asleep u hold with hset | ⟨v, hv⟩
      · exact hwait hset
      · have hvt : v ≠ t := by
          rintro rfl
          exact hnot hv
        exact Or.inr ⟨v, (hframe v hvt).1.trans hv⟩

/-- A step that only moves `t` on. -/
theorem Inv.goto {proc : θ → BitVec 64} {s : State θ} {t : θ} {pc : Pc} (h : Inv proc s)
    (hpc : PcOk (s.wr t) (s.rd t) pc) (hnot : s.pc t ≠ .wakeup)
    (hsleep : pc.sleeping = true → s.onq t = true → s.Asleep t) : Inv proc (s.goto t pc) := by
  have hwait : s.rwl_owner &&& RWLOCK_WAIT ≠ 0#64 → Covered (s.goto t pc) := Or.inl
  apply Inv.of_step (t := t) h
  · exact h.lock
  · intro u hut
    exact ⟨Function.update_of_ne hut .., rfl, rfl, id⟩
  · simpa [State.goto] using hpc
  · exact hnot
  · exact hwait
  · rintro ⟨hs, hq⟩
    have hold := hsleep (by simpa [State.goto] using hs) hq
    rcases h.asleep t hold with hset | ⟨v, hv⟩
    · exact hwait hset
    · have hvt : v ≠ t := by
        rintro rfl
        exact hnot hv
      exact Or.inr ⟨v, (Function.update_of_ne hvt ..).trans hv⟩

theorem afterSleep_ok {op : RwOp} (flags : Flags) (error : Option Errno) {wr : Bool} {rd : ℕ}
    (h : op ≠ .downgrade) : PcOk wr rd (State.afterSleep op flags error) ∧
      (State.afterSleep op flags error).sleeping = false := by
  unfold State.afterSleep
  split_ifs
  · exact ⟨trivial, rfl⟩
  · exact ⟨trivial, rfl⟩
  · exact ⟨fun hop => absurd hop h, rfl⟩

theorem Inv.call {proc : θ → BitVec 64} {s s' : State θ} {t : θ} {c : Call} (h : Inv proc s)
    (hidle : ∃ e, s.pc t = .idle e) (hs : s.call t c = some s') : Inv proc s' := by
  obtain ⟨e, he⟩ := hidle
  have hnot : s.pc t ≠ .wakeup := by simp [he]
  cases c with
  | rwEnter op flags =>
    simp only [State.call] at hs
    split_ifs at hs with hop
    cases hs
    apply h.goto _ hnot (by simp [Pc.sleeping])
    intro hd
    cases hwr : s.wr t with
    | true => rfl
    | false => exact absurd ⟨hd, hwr⟩ hop
  | rwEnterRead =>
    cases hs
    exact h.goto trivial hnot (by simp [Pc.sleeping])
  | rwEnterWrite =>
    cases hs
    exact h.goto trivial hnot (by simp [Pc.sleeping])
  | rwExit =>
    simp only [State.call] at hs
    split_ifs at hs with hold
    cases hs
    exact h.goto hold hnot (by simp [Pc.sleeping])
  | rwExitRead =>
    simp only [State.call] at hs
    split_ifs at hs with hold
    cases hs
    exact h.goto hold hnot (by simp [Pc.sleeping])
  | rwExitWrite =>
    simp only [State.call] at hs
    split_ifs at hs with hold
    cases hs
    exact h.goto hold hnot (by simp [Pc.sleeping])

theorem Inv.signal {proc : θ → BitVec 64} {s s' : State θ} {t : θ} (h : Inv proc s)
    (hs : s.signal t = some s') : Inv proc s' := by
  have hnot : s.pc t ≠ .wakeup := by
    intro hpc
    simp [State.signal, State.sleepFlags, hpc] at hs
  have hs' : s' = { s with onq := Function.update s.onq t false } := by
    unfold State.signal at hs
    split at hs
    · split_ifs at hs
      exact (Option.some_inj.mp hs).symm
    · cases hs
  subst hs'
  apply Inv.of_step (t := t) h
  · exact h.lock
  · intro u hut
    exact ⟨rfl, rfl, rfl, fun hq => by simpa [Function.update_of_ne hut] using hq⟩
  · exact h.pc t
  · exact hnot
  · exact Or.inl
  · rintro ⟨-, hq⟩
    simp at hq

/-- A step of `t` that stores `owner'` in the lock word and changes the holds of `t`. -/
theorem Inv.store {proc : θ → BitVec 64} {s s' : State θ} {t : θ} (h : Inv proc s) (pc : Pc)
    (hlock : LockOk proc s'.rwl_owner s'.wr s'.rd) (hpcs : s'.pc = Function.update s.pc t pc)
    (hwr : ∀ u, u ≠ t → s'.wr u = s.wr u) (hrd : ∀ u, u ≠ t → s'.rd u = s.rd u)
    (honq : s'.onq = s.onq) (hpc : PcOk (s'.wr t) (s'.rd t) pc) (hnot : s.pc t ≠ .wakeup)
    (hwait : s.rwl_owner &&& RWLOCK_WAIT ≠ 0#64 →
      s'.rwl_owner &&& RWLOCK_WAIT ≠ 0#64 ∨ pc = .wakeup)
    (hsleep : pc.sleeping = true → s'.rwl_owner &&& RWLOCK_WAIT ≠ 0#64) : Inv proc s' := by
  have hpct : s'.pc t = pc := by rw [hpcs, Function.update_self]
  apply Inv.of_step (t := t) h
  · exact hlock
  · intro u hut
    rw [hpcs, honq, Function.update_of_ne hut]
    exact ⟨rfl, hwr u hut, hrd u hut, id⟩
  · rw [hpct]
    exact hpc
  · exact hnot
  · intro hset
    rcases hwait hset with hset' | rfl
    · exact Or.inl hset'
    · exact Or.inr ⟨t, hpct⟩
  · rintro ⟨hs, -⟩
    rw [hpct] at hs
    exact Or.inl (hsleep hs)

/-- A successful `rw_cas` that acquires the lock. -/
theorem Inv.entered {proc : θ → BitVec 64} {s : State θ} {t : θ} {op : RwOp} {owner : BitVec 64}
    {pc : Pc} (h : Inv proc s) (hnot : s.pc t ≠ .wakeup) (hpc : pc = .idle none ∨ pc = .wakeup)
    (hlock : LockOk proc owner (s.entered t op).wr (s.entered t op).rd)
    (hwait : s.rwl_owner &&& RWLOCK_WAIT ≠ 0#64 → owner &&& RWLOCK_WAIT ≠ 0#64 ∨ pc = .wakeup) :
    Inv proc (({ s with rwl_owner := owner }.entered t op).goto t pc) := by
  have hfields : ∀ u, u ≠ t → (s.entered t op).wr u = s.wr u ∧ (s.entered t op).rd u = s.rd u := by
    intro u hut
    cases op <;> simp [State.entered, Function.update_of_ne hut]
  apply h.store pc (t := t)
  · cases op <;> exact hlock
  · cases op <;> rfl
  · intro u hut
    rw [← (hfields u hut).1]
    cases op <;> rfl
  · intro u hut
    rw [← (hfields u hut).2]
    cases op <;> rfl
  · cases op <;> rfl
  · rcases hpc with rfl | rfl <;> trivial
  · exact hnot
  · cases op <;> exact hwait
  · rcases hpc with rfl | rfl <;> simp [Pc.sleeping]

/-- A successful `rw_cas` that gives the lock back. -/
theorem Inv.exited {proc : θ → BitVec 64} {s : State θ} {t : θ} {wrlock : Bool} {owner : BitVec 64}
    {pc : Pc} (h : Inv proc s) (hnot : s.pc t ≠ .wakeup) (hpc : pc = .idle none ∨ pc = .wakeup)
    (hlock : LockOk proc owner (s.exited t wrlock).wr (s.exited t wrlock).rd)
    (hwait : s.rwl_owner &&& RWLOCK_WAIT ≠ 0#64 → pc = .wakeup) :
    Inv proc (({ s with rwl_owner := owner }.exited t wrlock).goto t pc) := by
  have hfields : ∀ u, u ≠ t →
      (s.exited t wrlock).wr u = s.wr u ∧ (s.exited t wrlock).rd u = s.rd u := by
    intro u hut
    cases wrlock <;> simp [State.exited, Function.update_of_ne hut]
  apply h.store pc (t := t)
  · cases wrlock <;> exact hlock
  · cases wrlock <;> rfl
  · intro u hut
    rw [← (hfields u hut).1]
    cases wrlock <;> rfl
  · intro u hut
    rw [← (hfields u hut).2]
    cases wrlock <;> rfl
  · cases wrlock <;> rfl
  · rcases hpc with rfl | rfl <;> trivial
  · exact hnot
  · exact fun hset => Or.inr (hwait hset)
  · rcases hpc with rfl | rfl <;> simp [Pc.sleeping]

theorem wakeup_or_idle (c : Prop) [Decidable c] :
    (if c then Pc.wakeup else .idle none) = .idle none ∨
      (if c then Pc.wakeup else .idle none) = .wakeup := by
  split_ifs
  · exact Or.inr rfl
  · exact Or.inl rfl

theorem Inv.step_enterCas {proc : θ → BitVec 64} {s s' : State θ} {t : θ} {op : RwOp}
    {flags : Flags} {o : BitVec 64} {error : Option Errno} (h : Inv proc s)
    (hpc : s.pc t = .enterCas op flags o) (hcap : s'.readers < 2 ^ 61)
    (hs : s.step proc t error = some s') : Inv proc s' := by
  have hnot : s.pc t ≠ .wakeup := by simp [hpc]
  obtain ⟨hcheck, hwriter⟩ : o &&& (rwOps op).check = 0#64 ∧ (op = .downgrade → s.wr t = true) := by
    have := h.pc t
    rwa [hpc] at this
  simp only [State.step, hpc] at hs
  by_cases hcas : s.rwl_owner = o
  · subst hcas
    rw [if_pos rfl] at hs
    cases hs
    cases op with
    | write =>
      have hzero : s.rwl_owner = 0#64 := by
        rw [← hcheck]
        exact BitVec.and_allOnes.symm
      have hinc : s.rwl_owner + enterInc .write (proc t) = rwProc (proc t) + RWLOCK_WRLOCK := by
        simp only [hzero, enterInc, rwOps, BitVec.mul_one, BitVec.zero_add]
        exact BitVec.add_comm _ _
      have hlock := h.lock
      rw [hzero] at hlock
      apply h.entered hnot (wakeup_or_idle _)
      · rw [hinc]
        exact hlock.writeAcquire t
      · simp [hzero]
    | read =>
      have hinc : enterInc .read (proc t) = RWLOCK_READ_INCR := by
        simp [enterInc, rwOps]
      obtain ⟨hlock, hwait⟩ := h.lock.readAcquire hcheck hcap
      rw [← hinc] at hlock hwait
      exact h.entered hnot (wakeup_or_idle _) hlock fun hset => Or.inl (hwait hset)
    | downgrade =>
      obtain ⟨hlock, hwake⟩ := h.lock.downgrade (hwriter rfl)
      exact h.entered hnot (wakeup_or_idle _) hlock fun hset => Or.inr (if_pos (hwake hset))
  · rw [if_neg hcas] at hs
    cases hs
    exact h.goto hwriter hnot (by simp [Pc.sleeping])

theorem Inv.step_exitCas {proc : θ → BitVec 64} {s s' : State θ} {t : θ} {wrlock : Bool}
    {o : BitVec 64} {error : Option Errno} (h : Inv proc s) (hpc : s.pc t = .exitCas wrlock o)
    (hs : s.step proc t error = some s') : Inv proc s' := by
  have hnot : s.pc t ≠ .wakeup := by simp [hpc]
  have hok : if wrlock then s.wr t = true else 0 < s.rd t := by
    have := h.pc t
    rwa [hpc] at this
  simp only [State.step, hpc] at hs
  by_cases hcas : s.rwl_owner = o
  · subst hcas
    rw [if_pos rfl] at hs
    cases hs
    apply h.exited hnot (wakeup_or_idle _)
    · cases wrlock with
      | true => exact h.lock.exitWrite hok
      | false => exact h.lock.exitRead hok
    · exact fun hset => if_pos hset
  · rw [if_neg hcas] at hs
    cases hs
    exact h.goto hok hnot (by simp [Pc.sleeping])

section Step

variable {proc : θ → BitVec 64} {s s' : State θ} {t : θ} {op : RwOp} {flags : Flags}
  {o : BitVec 64} {wrlock do_sleep : Bool} {error : Option Errno}

theorem Inv.step_enterRead (h : Inv proc s) (hpc : s.pc t = .enterRead)
    (hs : s.step proc t error = some s') : Inv proc s' := by
  have hnot : s.pc t ≠ .wakeup := by simp [hpc]
  simp only [State.step, hpc] at hs
  split_ifs at hs with hc <;> cases hs
  · exact h.goto (fun hd => by cases hd) hnot (by simp [Pc.sleeping])
  · exact h.goto (not_not.mp hc) hnot (by simp [Pc.sleeping])

theorem Inv.step_enterReadCas (h : Inv proc s) (hpc : s.pc t = .enterReadCas o) (hcap : s'.readers < 2 ^ 61)
    (hs : s.step proc t error = some s') : Inv proc s' := by
  have hnot : s.pc t ≠ .wakeup := by simp [hpc]
  have hok := h.pc t
  rw [hpc] at hok
  simp only [State.step, hpc] at hs
  split_ifs at hs with hcas <;> cases hs
  · subst hcas
    obtain ⟨hlock, hwait⟩ := h.lock.readAcquire hok hcap
    exact h.entered hnot (Or.inl rfl) hlock fun hset => Or.inl (hwait hset)
  · exact h.goto (fun hd => by cases hd) hnot (by simp [Pc.sleeping])

theorem Inv.step_enterWriteCas (h : Inv proc s) (hpc : s.pc t = .enterWriteCas)
    (hs : s.step proc t error = some s') : Inv proc s' := by
  have hnot : s.pc t ≠ .wakeup := by simp [hpc]
  simp only [State.step, hpc] at hs
  split_ifs at hs with hcas <;> cases hs
  · have hlock := h.lock
    rw [hcas] at hlock
    apply h.entered hnot (Or.inl rfl)
    · rw [LockOk.rwProc_or]
      exact hlock.writeAcquire t
    · simp [hcas]
  · exact h.goto (fun hd => by cases hd) hnot (by simp [Pc.sleeping])

theorem Inv.step_enterLoad (h : Inv proc s) (hpc : s.pc t = .enterLoad op flags)
    (hs : s.step proc t error = some s') : Inv proc s' := by
  have hnot : s.pc t ≠ .wakeup := by simp [hpc]
  have hok := h.pc t
  rw [hpc] at hok
  simp only [State.step, hpc] at hs
  split_ifs at hs with hc hns <;> cases hs
  · exact h.goto trivial hnot (by simp [Pc.sleeping])
  · exact h.goto hc hnot (by simp [Pc.sleeping])
  · exact h.goto ⟨not_not.mp hc, hok⟩ hnot (by simp [Pc.sleeping])

theorem Inv.step_sleepSetup (h : Inv proc s) (hpc : s.pc t = .sleepSetup op flags o)
    (hs : s.step proc t error = some s') : Inv proc s' := by
  have hnot : s.pc t ≠ .wakeup := by simp [hpc]
  have hok := h.pc t
  rw [hpc] at hok
  simp only [State.step, hpc] at hs
  cases hs
  apply Inv.of_step (t := t) h
  · exact h.lock
  · intro u hut
    exact ⟨Function.update_of_ne hut .., rfl, rfl, fun hq => by
      simpa [State.goto, Function.update_of_ne hut] using hq⟩
  · simp only [State.goto, Function.update_self]
    exact hok
  · exact hnot
  · exact Or.inl
  · rintro ⟨hsl, -⟩
    simp [State.goto, Pc.sleeping] at hsl

theorem Inv.step_sleepCas (h : Inv proc s) (hpc : s.pc t = .sleepCas op flags o)
    (hs : s.step proc t error = some s') : Inv proc s' := by
  have hnot : s.pc t ≠ .wakeup := by simp [hpc]
  have hok := h.pc t
  rw [hpc] at hok
  have hop : op ≠ .downgrade := by
    rintro rfl
    exact hok BitVec.and_zero
  simp only [State.step, hpc] at hs
  split_ifs at hs with hcas <;> cases hs
  · subst hcas
    obtain ⟨hlock, hset⟩ := h.lock.setWait hok
    apply h.store (.sleepFinish op flags true) hlock rfl
    · intro u hut
      rfl
    · intro u hut
      rfl
    · rfl
    · exact hop
    · exact hnot
    · exact fun _ => Or.inl hset
    · exact fun _ => hset
  · exact h.goto hop hnot (by simp [Pc.sleeping])

theorem Inv.step_sleepFinish (h : Inv proc s) (hpc : s.pc t = .sleepFinish op flags do_sleep)
    (hs : s.step proc t error = some s') : Inv proc s' := by
  have hnot : s.pc t ≠ .wakeup := by simp [hpc]
  have hok := h.pc t
  rw [hpc] at hok
  simp only [State.step, hpc] at hs
  split_ifs at hs with hds <;> cases hs
  · have hop : PcOk (s.wr t) (s.rd t) (.asleep op flags) := hok
    apply h.goto hop hnot
    intro _ hq
    constructor
    · rw [hpc, hds.1]
      rfl
    · exact hq
  · obtain ⟨hafter, hsl⟩ := afterSleep_ok flags error hok
    apply Inv.of_step (t := t) h
    · exact h.lock
    · intro u hut
      exact ⟨Function.update_of_ne hut .., rfl, rfl, fun hq => by
        simpa [State.goto, Function.update_of_ne hut] using hq⟩
    · simp only [State.goto, Function.update_self]
      exact hafter
    · exact hnot
    · exact Or.inl
    · rintro ⟨-, hq⟩
      simp [State.goto] at hq

theorem Inv.step_asleep (h : Inv proc s) (hpc : s.pc t = .asleep op flags)
    (hs : s.step proc t error = some s') : Inv proc s' := by
  have hnot : s.pc t ≠ .wakeup := by simp [hpc]
  have hok := h.pc t
  rw [hpc] at hok
  simp only [State.step, hpc] at hs
  split_ifs at hs with hq
  cases hs
  obtain ⟨hafter, hsl⟩ := afterSleep_ok flags error hok
  exact h.goto hafter hnot (by simp [hsl])

theorem Inv.step_exitRead (h : Inv proc s) (hpc : s.pc t = .exitRead)
    (hs : s.step proc t error = some s') : Inv proc s' := by
  have hnot : s.pc t ≠ .wakeup := by simp [hpc]
  have hok := h.pc t
  rw [hpc] at hok
  simp only [State.step, hpc] at hs
  split_ifs at hs with hc <;> cases hs
  · exact h.goto (Or.inr hok) hnot (by simp [Pc.sleeping])
  · exact h.goto ⟨hok, not_not.mp hc⟩ hnot (by simp [Pc.sleeping])

theorem Inv.step_exitReadCas (h : Inv proc s) (hpc : s.pc t = .exitReadCas o)
    (hs : s.step proc t error = some s') : Inv proc s' := by
  have hnot : s.pc t ≠ .wakeup := by simp [hpc]
  have hok := h.pc t
  rw [hpc] at hok
  obtain ⟨hrd, hc⟩ := hok
  simp only [State.step, hpc] at hs
  split_ifs at hs with hcas <;> cases hs
  · subst hcas
    exact h.exited hnot (Or.inl rfl) (h.lock.readRelease hrd hc) fun hset => absurd hc hset
  · exact h.goto (Or.inr hrd) hnot (by simp [Pc.sleeping])

theorem Inv.step_exitWrite (h : Inv proc s) (hpc : s.pc t = .exitWrite)
    (hs : s.step proc t error = some s') : Inv proc s' := by
  have hnot : s.pc t ≠ .wakeup := by simp [hpc]
  have hok := h.pc t
  rw [hpc] at hok
  simp only [State.step, hpc] at hs
  split_ifs at hs with hc <;> cases hs
  · exact h.goto (Or.inl hok) hnot (by simp [Pc.sleeping])
  · exact h.goto ⟨hok, not_not.mp hc⟩ hnot (by simp [Pc.sleeping])

theorem Inv.step_exitWriteCas (h : Inv proc s) (hpc : s.pc t = .exitWriteCas o)
    (hs : s.step proc t error = some s') : Inv proc s' := by
  have hnot : s.pc t ≠ .wakeup := by simp [hpc]
  have hok := h.pc t
  rw [hpc] at hok
  obtain ⟨hwr, hc⟩ := hok
  simp only [State.step, hpc] at hs
  split_ifs at hs with hcas <;> cases hs
  · subst hcas
    exact h.exited hnot (Or.inl rfl) (h.lock.exitWrite hwr) fun hset => absurd hc hset
  · exact h.goto (Or.inl hwr) hnot (by simp [Pc.sleeping])

theorem Inv.step_exit (h : Inv proc s) (hpc : s.pc t = .exit)
    (hs : s.step proc t error = some s') : Inv proc s' := by
  have hnot : s.pc t ≠ .wakeup := by simp [hpc]
  have hok := h.pc t
  rw [hpc] at hok
  simp only [State.step, hpc] at hs
  cases hs
  apply h.goto _ hnot (by simp [Pc.sleeping])
  -- the holder is the writer exactly if the word says so
  change if decide _ = true then s.wr t = true else 0 < s.rd t
  split_ifs with hwr <;> rw [decide_eq_true_eq, h.lock.wrlock_iff] at hwr
  · obtain ⟨u, hu⟩ := hwr
    rcases hok with ht | ht
    · exact ht
    · obtain ⟨-, -, hrd, -⟩ := (h.lock.exclusive_of_writer hu).choose_spec
      have := hrd t
      omega
  · rcases hok with ht | ht
    · exact absurd ⟨t, ht⟩ hwr
    · exact ht

theorem Inv.step_exitLoad (h : Inv proc s) (hpc : s.pc t = .exitLoad wrlock)
    (hs : s.step proc t error = some s') : Inv proc s' := by
  have hnot : s.pc t ≠ .wakeup := by simp [hpc]
  have hok := h.pc t
  rw [hpc] at hok
  simp only [State.step, hpc] at hs
  cases hs
  exact h.goto hok hnot (by simp [Pc.sleeping])

theorem Inv.step_wakeup (h : Inv proc s) (hpc : s.pc t = .wakeup)
    (hs : s.step proc t error = some s') : Inv proc s' := by
  simp only [State.step, hpc] at hs
  cases hs
  constructor
  · exact h.lock
  · intro u
    by_cases hut : u = t
    · subst hut
      simp only [State.goto, Function.update_self]
      trivial
    · simp only [State.goto, Function.update_of_ne hut]
      exact h.pc u
  · rintro u ⟨-, hq⟩
    simp [State.goto] at hq

theorem Inv.step (h : Inv proc s) (hcap : s'.readers < 2 ^ 61) (hs : s.step proc t error = some s') :
    Inv proc s' := by
  cases hpc : s.pc t with
  | idle e => simp [State.step, hpc] at hs
  | enterRead => exact h.step_enterRead hpc hs
  | enterReadCas o => exact h.step_enterReadCas hpc hcap hs
  | enterWriteCas => exact h.step_enterWriteCas hpc hs
  | enterLoad op flags => exact h.step_enterLoad hpc hs
  | sleepSetup op flags o => exact h.step_sleepSetup hpc hs
  | sleepCas op flags o => exact h.step_sleepCas hpc hs
  | sleepFinish op flags do_sleep => exact h.step_sleepFinish hpc hs
  | asleep op flags => exact h.step_asleep hpc hs
  | enterCas op flags o => exact h.step_enterCas hpc hcap hs
  | exitRead => exact h.step_exitRead hpc hs
  | exitReadCas o => exact h.step_exitReadCas hpc hs
  | exitWrite => exact h.step_exitWrite hpc hs
  | exitWriteCas o => exact h.step_exitWriteCas hpc hs
  | exit => exact h.step_exit hpc hs
  | exitLoad wrlock => exact h.step_exitLoad hpc hs
  | exitCas wrlock o => exact h.step_exitCas hpc hs
  | wakeup => exact h.step_wakeup hpc hs

end Step

theorem Inv.act {proc : θ → BitVec 64} {s s' : State θ} {t : θ} {a : Act} (h : Inv proc s)
    (hcap : s'.readers < 2 ^ 61) (hs : s.act proc t a = some s') : Inv proc s' := by
  cases a with
  | call c =>
    simp only [State.act] at hs
    split at hs
    · next e he => exact h.call ⟨e, he⟩ hs
    · cases hs
  | step error => exact h.step hcap hs
  | signal => exact h.signal hs

theorem Inv.run {proc : θ → BitVec 64} {s s' : State θ} {acts : List (θ × Act)} (h : Inv proc s)
    (hs : s.run proc acts = some s') : Inv proc s' := by
  induction acts generalizing s with
  | nil =>
    cases hs
    exact h
  | cons a acts ih =>
    obtain ⟨t, a⟩ := a
    simp only [State.run] at hs
    split at hs
    · next s₁ hact =>
      split_ifs at hs with hcap
      exact ih (h.act hcap hact) hs
    · cases hs

/-- In every state of every interleaving: a writer excludes all other holders, the word
counts the read holds, `RWLOCK_WAIT` is set only while the lock is held, and a thread
asleep on the lock has `RWLOCK_WAIT` set or a `wakeup` of the lock still to come. -/
theorem rwlock_runs (proc : θ → BitVec 64) (acts : List (θ × Act)) (s : State θ)
    (hrun : State.rwInit.run proc acts = some s) :
    (∀ t, s.wr t = true → s.rd t = 0 ∧ ∀ u, u ≠ t → ¬ s.Holds u) ∧
      (s.rwl_owner &&& RWLOCK_WRLOCK ≠ 0#64 ↔ ∃ t, s.wr t = true) ∧
      ((∀ t, s.wr t = false) → (s.rwl_owner >>> 3).toNat = s.readers) ∧
      (s.rwl_owner &&& RWLOCK_WAIT ≠ 0#64 → ∃ t, s.Holds t) ∧
      ∀ t, s.Asleep t → s.rwl_owner &&& RWLOCK_WAIT ≠ 0#64 ∨ ∃ u, s.pc u = .wakeup := by
  have hinv : Inv proc s := (inv_rwInit proc).run hrun
  constructor
  · intro t ht
    obtain ⟨w, -, hwr, hrd, -⟩ := hinv.lock.exclusive_of_writer ht
    constructor
    · exact hrd t
    · rintro u hut (hu | hu)
      · simp [hwr u hut] at hu
      · have := hrd u
        omega
  constructor
  · exact hinv.lock.wrlock_iff
  constructor
  · intro hnone
    cases hinv.lock with
    | shared w hw hwr hn howner hidle =>
      have hlt : w < 8 := by
        rcases hw with rfl | rfl | rfl <;> decide
      rw [howner, word, BitVec.toNat_ushiftRight, BitVec.toNat_ofNat, Nat.shiftRight_eq_div_pow]
      unfold State.readers
      omega
    | exclusive w hw t ht hwr hrd howner => simp [hnone t] at ht
  constructor
  · intro hset
    cases hinv.lock with
    | shared w hw hwr hn howner hidle =>
      rw [howner, Ne, shared_wait _ hw] at hset
      obtain ⟨t, -, ht⟩ := Finset.exists_ne_zero_of_sum_ne_zero fun h0 => hset (hidle h0)
      exact ⟨t, Or.inr (Nat.pos_of_ne_zero ht)⟩
    | exclusive w hw t ht hwr hrd howner => exact ⟨t, Or.inl ht⟩
  · exact hinv.asleep

/-- A reader in `true` that has cleared `RWLOCK_WAIT` and not yet called `wakeup`, while
the writer in `false` sleeps. -/
def exitingReader : List (Bool × Act) :=
  [(true, .call .rwEnterRead), (true, .step none), (true, .step none),
    (false, .call (.rwEnter .write ⟨false, false, false⟩)), (false, .step none),
    (false, .step none), (false, .step none), (false, .step none),
    (true, .call .rwExit), (true, .step none), (true, .step none), (true, .step none)]

theorem rwlock_runs_exitingReader :
    ∃ s, State.rwInit.run (fun t => if t then 0x1000#64 else 0x2000#64) exitingReader = some s ∧
      s.Asleep false ∧ (s.rwl_owner &&& RWLOCK_WAIT ≠ 0#64 ∨ ∃ u, s.pc u = .wakeup) := by
  have hrun : ((State.rwInit.run (fun t => if t then 0x1000#64 else 0x2000#64) exitingReader).map
      fun s => decide (s.Asleep false)) = some true := by decide +kernel
  obtain ⟨s, hs, hasleep⟩ := Option.map_eq_some_iff.mp hrun
  have hasleep : s.Asleep false := of_decide_eq_true hasleep
  exact ⟨s, hs, hasleep, (rwlock_runs _ _ s hs).2.2.2.2 false hasleep⟩

/-- Between the `rw_cas` that clears `RWLOCK_WAIT` and the `wakeup`, a thread is asleep,
not woken, and `RWLOCK_WAIT` is not set. -/
theorem asleep_without_wait :
    ∃ s, State.rwInit.run (fun t => if t then 0x1000#64 else 0x2000#64) exitingReader = some s ∧
      s.Asleep false ∧ s.rwl_owner &&& RWLOCK_WAIT = 0#64 := by
  have hrun : ((State.rwInit.run (fun t => if t then 0x1000#64 else 0x2000#64) exitingReader).map
      fun s => decide (s.Asleep false ∧ s.rwl_owner &&& RWLOCK_WAIT = 0#64)) = some true := by
    decide +kernel
  obtain ⟨s, hs, hasleep⟩ := Option.map_eq_some_iff.mp hrun
  exact ⟨s, hs, of_decide_eq_true hasleep⟩

end OpenbsdKernel.Rwlock
