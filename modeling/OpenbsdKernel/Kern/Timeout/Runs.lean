import OpenbsdKernel.Kern.Timeout.Wheel

/-!
# Runs of the timeout queues

Every run of `timeout_add`, `timeout_del`, `timeout_hardclock_update` and `softclock`
keeps each pending timeout on exactly one queue, and a timeout in a bucket is never
due: the bucket is moved to `timeout_todo` before its time comes.
-/
namespace OpenbsdKernel.Timeout

variable {τ : Type*} [DecidableEq τ]

namespace State

omit [DecidableEq τ] in

omit [DecidableEq τ] in
theorem hardclock_frame (s : State τ) :
    s.timeoutHardclockUpdate.1.ticks = s.ticks + 1 ∧
      s.timeoutHardclockUpdate.1.to_time = s.to_time ∧
      s.timeoutHardclockUpdate.1.onqueue = s.onqueue := by
  simp only [timeoutHardclockUpdate, moveBuckets]
  split_ifs <;> exact ⟨rfl, rfl, rfl⟩

omit [DecidableEq τ] in
theorem moveBucket_todo (wheel : ℕ) (s : State τ) :
    s.timeout_todo ⊆ (moveBucket wheel s).timeout_todo := by
  intro t ht
  exact List.mem_append_left _ ht

omit [DecidableEq τ] in
theorem hardclock_todo (s : State τ) :
    s.timeout_todo ⊆ s.timeoutHardclockUpdate.1.timeout_todo := by
  intro t ht
  simp only [timeoutHardclockUpdate, moveBuckets]
  have h₀ := moveBucket_todo 0 { s with ticks := s.ticks + 1 } ht
  split_ifs
  · exact moveBucket_todo 3 _ (moveBucket_todo 2 _ (moveBucket_todo 1 _ h₀))
  · exact moveBucket_todo 2 _ (moveBucket_todo 1 _ h₀)
  · exact moveBucket_todo 1 _ h₀
  · exact h₀

theorem sum_count_update (w : ℕ → List τ) {b : ℕ} (hb : b < BUCKETS) (l : List τ) (t : τ) :
    ∑ c ∈ Finset.range BUCKETS, (Function.update w b l c).count t + (w b).count t =
      ∑ c ∈ Finset.range BUCKETS, (w c).count t + l.count t := by
  have hmem : b ∈ Finset.range BUCKETS := Finset.mem_range.mpr hb
  have hrest : ∑ c ∈ (Finset.range BUCKETS).erase b, (Function.update w b l c).count t =
      ∑ c ∈ (Finset.range BUCKETS).erase b, (w c).count t := by
    apply Finset.sum_congr rfl
    intro c hc
    rw [Function.update_of_ne (Finset.ne_of_mem_erase hc)]
  rw [← Finset.add_sum_erase _ _ hmem, ← Finset.add_sum_erase (Finset.range BUCKETS) (fun c =>
    (w c).count t) hmem, hrest, Function.update_self]
  omega

theorem queued_insertTodo (s : State τ) (t u : τ) :
    (s.insertTodo t).queued u = s.queued u + if t = u then 1 else 0 := by
  simp only [queued, insertTodo, List.count_append, List.count_singleton, beq_iff_eq]
  omega

theorem queued_insertWheel (s : State τ) {b : ℕ} (hb : b < BUCKETS) (t u : τ) :
    (s.insertWheel b t).queued u = s.queued u + if t = u then 1 else 0 := by
  have h := sum_count_update s.timeout_wheel hb (s.timeout_wheel b ++ [t]) u
  simp only [queued, insertWheel]
  simp only [List.count_append, List.count_singleton, beq_iff_eq] at h
  omega

theorem queued_moveBucket (s : State τ) {wheel : ℕ} (hw : wheel < 4) (u : τ) :
    (moveBucket wheel s).queued u = s.queued u := by
  have hb : maskWheel wheel s.ticks + wheel * WHEELSIZE < BUCKETS := by
    rw [maskWheel_eq hw]
    unfold WHEELSIZE BUCKETS
    omega
  have h := sum_count_update s.timeout_wheel hb [] u
  simp only [queued, moveBucket, List.count_append]
  simp only [List.count_nil] at h
  omega

theorem queued_hardclock (s : State τ) (u : τ) :
    s.timeoutHardclockUpdate.1.queued u = s.queued u := by
  simp only [timeoutHardclockUpdate, moveBuckets]
  have h₀ : ({ s with ticks := s.ticks + 1 } : State τ).queued u = s.queued u := rfl
  split_ifs <;> simp only [queued_moveBucket _ (by decide : 0 < 4), h₀,
    queued_moveBucket _ (by decide : 1 < 4), queued_moveBucket _ (by decide : 2 < 4),
    queued_moveBucket _ (by decide : 3 < 4)]

theorem queued_pos_of_mem_wheel {s : State τ} {b : ℕ} (hb : b < BUCKETS) {t : τ}
    (h : t ∈ s.timeout_wheel b) : 1 ≤ s.queued t := by
  have hle := Finset.single_le_sum (f := fun c => (s.timeout_wheel c).count t)
    (fun _ _ => Nat.zero_le _) (Finset.mem_range.mpr hb)
  have hpos := List.count_pos_iff.mpr h
  unfold queued
  omega

theorem mem_of_queued_pos {s : State τ} {t : τ} (h : 1 ≤ s.queued t) :
    t ∈ s.timeout_todo ∨ ∃ b < BUCKETS, t ∈ s.timeout_wheel b := by
  by_cases htodo : t ∈ s.timeout_todo
  · exact Or.inl htodo
  · right
    unfold queued at h
    rw [List.count_eq_zero_of_not_mem htodo, zero_add] at h
    obtain ⟨b, hb, hne⟩ := Finset.exists_ne_zero_of_sum_ne_zero (by omega : ∑ b ∈
      Finset.range BUCKETS, (s.timeout_wheel b).count t ≠ 0)
    exact ⟨b, Finset.mem_range.mp hb, List.count_pos_iff.mp (Nat.pos_of_ne_zero hne)⟩

/-- Unlinking a timeout that is on one queue at most leaves it on none. -/
theorem queued_circqRemove (s : State τ) {t : τ} (h : s.queued t ≤ 1) (u : τ) :
    (s.circqRemove t).queued u = if t = u then 0 else s.queued u := by
  simp only [queued, circqRemove, List.count_erase, beq_iff_eq]
  by_cases htu : t = u
  · subst htu
    have hle : ∀ b ∈ Finset.range BUCKETS, (s.timeout_wheel b).count t - 1 = 0 := by
      intro b hb
      have := Finset.single_le_sum (f := fun c => (s.timeout_wheel c).count t)
        (fun _ _ => Nat.zero_le _) hb
      unfold queued at h
      omega
    unfold queued at h
    simp only [if_true]
    rw [Finset.sum_eq_zero hle]
    omega
  · simp [htu]

theorem not_mem_of_queued_zero {s : State τ} {t : τ} (h : s.queued t = 0) :
    t ∉ s.timeout_todo ∧ ∀ b < BUCKETS, t ∉ s.timeout_wheel b := by
  constructor
  · intro ht
    have := List.count_pos_iff.mpr ht
    unfold queued at h
    omega
  · intro b hb ht
    have := queued_pos_of_mem_wheel hb ht
    omega

end State

/-- The entry points of the timeout code. -/
inductive Op (τ : Type*) where
  | timeoutAdd (t : τ) (to_ticks : BitVec 32)
  | timeoutDel (t : τ)
  | timeoutHardclockUpdate
  | softclock
  deriving DecidableEq

/-- What happens to a timeout: it is queued, unqueued by `timeout_del`, or its
function is called. -/
inductive Event (τ : Type*) where
  | scheduled (t : τ)
  | cancelled (t : τ)
  | ran (t : τ)
  deriving DecidableEq

def step (s : State τ) : Op τ → State τ × List (Event τ)
  | .timeoutAdd t to_ticks =>
    ((s.timeoutAdd t to_ticks).1, if (s.timeoutAdd t to_ticks).2 then [.scheduled t] else [])
  | .timeoutDel t => ((s.timeoutDel t).1, if (s.timeoutDel t).2 then [.cancelled t] else [])
  | .timeoutHardclockUpdate => (s.timeoutHardclockUpdate.1, [])
  | .softclock => (s.softclock.1, s.softclock.2.toList.map .ran)

/-- The state after a list of operations, and the trace they leave. -/
def run (s : State τ) : List (Op τ) → State τ × List (Event τ)
  | [] => (s, [])
  | op :: ops => ((run (step s op).1 ops).1, (step s op).2 ++ (run (step s op).1 ops).2)

/-- A pending timeout has one queue entry, an idle one has none, and the bucket that
holds a timeout is moved before the timeout is due. -/
structure Inv (s : State τ) : Prop where
  once : ∀ t, s.queued t = (s.onqueue t).toNat
  future : ∀ b < BUCKETS, ∀ t ∈ s.timeout_wheel b, (nextMove b s.ticks.toNat : ℤ) ≤ s.rel t

theorem Inv.queued_le_one {s : State τ} (h : Inv s) (t : τ) : s.queued t ≤ 1 := by
  rw [h.once t]
  exact Bool.toNat_le _

theorem Inv.onqueue_of_mem_wheel {s : State τ} (h : Inv s) {b : ℕ} (hb : b < BUCKETS) {t : τ}
    (ht : t ∈ s.timeout_wheel b) : s.onqueue t = true := by
  have hpos := State.queued_pos_of_mem_wheel hb ht
  rw [h.once t] at hpos
  cases hq : s.onqueue t with
  | true => rfl
  | false => simp [hq] at hpos

theorem Inv.due {s : State τ} (h : Inv s) {t : τ} (hq : s.onqueue t = true) (hrel : s.rel t ≤ 0) :
    (∀ b < BUCKETS, t ∉ s.timeout_wheel b) ∧ t ∈ s.timeout_todo := by
  have hwheel : ∀ b < BUCKETS, t ∉ s.timeout_wheel b := by
    intro b hb ht
    have := h.future b hb t ht
    unfold nextMove at this
    push_cast at this
    omega
  have hone : 1 ≤ s.queued t := by
    rw [h.once t, hq]
    simp
  rcases State.mem_of_queued_pos hone with ht | ⟨b, hb, ht⟩
  · exact ⟨hwheel, ht⟩
  · exact absurd ht (hwheel b hb)

theorem inv_timeoutStartup (ticks : BitVec 32) (to_time : τ → BitVec 32) :
    Inv (State.timeoutStartup ticks to_time) where
  once := by
    intro t
    simp [State.queued, State.timeoutStartup]
  future := by
    intro b _ t ht
    simp [State.timeoutStartup] at ht

/-- A clock tick brings every time one closer, unless the difference wraps. -/
theorem rel_tick {time now : BitVec 32} (h : -2 ^ 31 < (time - now).toInt) :
    (time - (now + 1)).toInt = (time - now).toInt - 1 := by
  have hsub : time - (now + 1#32) = time - now - 1#32 := by bv_omega
  have hone : (1#32).toInt = 1 := by decide
  have hlt := BitVec.toInt_lt (x := time - now)
  change (time - (now + 1#32)).toInt = _
  rw [hsub, BitVec.toInt_sub, hone]
  apply Int.bmod_eq_of_le <;> norm_num at hlt h ⊢ <;> omega

theorem inv_hardclock {s : State τ} (h : Inv s) : Inv s.timeoutHardclockUpdate.1 where
  once := by
    intro t
    rw [State.queued_hardclock, (State.hardclock_frame s).2.2, h.once t]
  future := by
    intro b hb t ht
    obtain ⟨hticks, htime, -⟩ := State.hardclock_frame s
    rw [hardclock_wheel s hb] at ht
    split_ifs at ht with hphase
    · simp at ht
    · have hold := h.future b hb t ht
      have hnext := nextMove_succ hb hphase
      unfold State.rel at hold ⊢
      rw [hticks, htime, rel_tick (by omega)]
      omega

theorem inv_timeoutDel {s : State τ} (h : Inv s) (t : τ) : Inv (s.timeoutDel t).1 := by
  unfold State.timeoutDel
  split_ifs with hq
  · constructor
    · intro u
      have := State.queued_circqRemove s (h.queued_le_one t) u
      change (s.circqRemove t).queued u = (Function.update s.onqueue t false u).toNat
      by_cases htu : t = u
      · rw [this]
        simp [htu]
      · simp [this, htu, Function.update_of_ne (Ne.symm htu), h.once u]
    · intro b hb u hu
      exact h.future b hb u (List.mem_of_mem_erase hu)
  · exact ⟨h.once, h.future⟩

/-- The new distance of a timeout is the `to_ticks` it was given. -/
theorem rel_timeoutAdd (s : State τ) (t : τ) (to_ticks : BitVec 32) (u : τ) :
    (s.timeoutAdd t to_ticks).1.rel u = if t = u then to_ticks.toInt else s.rel u := by
  have hticks : (s.timeoutAdd t to_ticks).1.ticks = s.ticks := by
    simp only [State.timeoutAdd]
    split_ifs <;> rfl
  have htime : (s.timeoutAdd t to_ticks).1.to_time =
      Function.update s.to_time t (to_ticks + s.ticks) := by
    simp only [State.timeoutAdd]
    split_ifs <;> rfl
  unfold State.rel
  rw [hticks, htime]
  by_cases htu : t = u
  · subst htu
    rw [Function.update_self, if_pos rfl, BitVec.add_sub_cancel]
  · rw [Function.update_of_ne (Ne.symm htu), if_neg htu]

theorem inv_timeoutAdd {s : State τ} (h : Inv s) (t : τ) (to_ticks : BitVec 32) :
    Inv (s.timeoutAdd t to_ticks).1 := by
  have hrel := rel_timeoutAdd s t to_ticks
  have hold : (s.to_time t - s.ticks).toInt = s.rel t := rfl
  have hnew : to_ticks + s.ticks - s.ticks = to_ticks := BitVec.add_sub_cancel _ _
  unfold State.timeoutAdd at hrel ⊢
  simp only [Function.update_self, hold, hnew] at hrel ⊢
  by_cases hq : s.onqueue t = true
  · by_cases hsooner : to_ticks.toInt < s.rel t
    · simp only [hq, hsooner, if_true] at hrel ⊢
      have hremove := State.queued_circqRemove s (h.queued_le_one t)
      constructor
      · intro u
        rw [State.queued_insertTodo]
        change (s.circqRemove t).queued u + _ = (s.onqueue u).toNat
        rw [hremove u]
        by_cases htu : t = u
        · rw [if_pos htu, if_pos htu, ← htu, hq]
          rfl
        · simp [htu, h.once u]
      · intro b hb u hu
        rw [hrel u]
        change u ∈ (s.timeout_wheel b).erase t at hu
        by_cases htu : t = u
        · -- the only entry of `t` was unlinked
          subst htu
          have hzero : (s.circqRemove t).queued t = 0 := by simp [hremove t]
          exact absurd hu ((State.not_mem_of_queued_zero hzero).2 b hb)
        · rw [if_neg htu]
          exact h.future b hb u (List.mem_of_mem_erase hu)
    · simp only [hq, hsooner, if_true, if_false] at hrel ⊢
      constructor
      · exact h.once
      · intro b hb u hu
        rw [hrel u]
        have hfuture := h.future b hb u hu
        change (nextMove b s.ticks.toNat : ℤ) ≤ _
        split_ifs with htu
        · subst htu
          omega
        · exact hfuture
  · simp only [hq] at hrel ⊢
    constructor
    · intro u
      simp only [Bool.false_eq_true, if_false] at hrel ⊢
      rw [State.queued_insertTodo]
      change s.queued u + _ = (Function.update s.onqueue t true u).toNat
      rw [h.once u]
      by_cases htu : t = u
      · simp [← htu, hq]
      · simp [htu, Function.update_of_ne (Ne.symm htu)]
    · intro b hb u hu
      simp only [Bool.false_eq_true, if_false] at hrel hu ⊢
      change u ∈ s.timeout_wheel b at hu
      rw [hrel u]
      have htu : t ≠ u := by
        rintro rfl
        exact hq (h.onqueue_of_mem_wheel hb hu)
      rw [if_neg htu]
      exact h.future b hb u hu

theorem softclock_cases (s : State τ) :
    (s.timeout_todo = [] ∧ s.softclock = (s, none)) ∨
      (∃ t rest, s.timeout_todo = t :: rest ∧ 0 < s.rel t ∧
        s.softclock = (({ s with timeout_todo := rest } : State τ).insertWheel
          (bucket (s.to_time t - s.ticks) (s.to_time t)) t, none)) ∨
      ∃ t rest, s.timeout_todo = t :: rest ∧ s.rel t ≤ 0 ∧
        s.softclock = ({ s with
          timeout_todo := rest
          onqueue := Function.update s.onqueue t false
          triggered := Function.update s.triggered t true }, some t) := by
  unfold State.softclock
  cases htodo : s.timeout_todo with
  | nil => exact Or.inl ⟨rfl, rfl⟩
  | cons t rest =>
    by_cases hrel : 0 < s.rel t
    · exact Or.inr (Or.inl ⟨t, rest, rfl, hrel, if_pos hrel⟩)
    · exact Or.inr (Or.inr ⟨t, rest, rfl, by omega, if_neg hrel⟩)

theorem queued_cons {s : State τ} {t : τ} {rest : List τ} (h : s.timeout_todo = t :: rest)
    (u : τ) : s.queued u = ({ s with timeout_todo := rest } : State τ).queued u +
      if t = u then 1 else 0 := by
  simp only [State.queued, h, List.count_cons, beq_iff_eq]
  omega

theorem inv_softclock {s : State τ} (h : Inv s) : Inv s.softclock.1 := by
  rcases softclock_cases s with ⟨-, heq⟩ | ⟨t, rest, htodo, hrel, heq⟩ | ⟨t, rest, htodo, -, heq⟩
  · rw [heq]
    exact h
  · rw [heq]
    obtain ⟨hb, hnext⟩ := nextMove_bucket hrel
    constructor
    · intro u
      rw [State.queued_insertWheel _ hb, ← queued_cons htodo u]
      exact h.once u
    · intro c hc u hu
      simp only [State.insertWheel, Function.update_apply] at hu
      split_ifs at hu with hcb
      · rcases List.mem_append.mp hu with hu | hu
        · exact h.future c hc u (hcb ▸ hu)
        · rw [List.mem_singleton.mp hu, hcb]
          exact hnext
      · exact h.future c hc u hu
  · rw [heq]
    constructor
    · intro u
      have hcount := queued_cons htodo u
      rw [h.once u] at hcount
      change ({ s with timeout_todo := rest } : State τ).queued u =
        (Function.update s.onqueue t false u).toNat
      by_cases htu : t = u
      · rw [if_pos htu] at hcount
        subst htu
        rw [Function.update_self]
        have hle := Bool.toNat_le (s.onqueue t)
        simp only [Bool.toNat_false]
        omega
      · rw [if_neg htu] at hcount
        rw [Function.update_of_ne (Ne.symm htu)]
        omega
    · exact h.future

theorem inv_step {s : State τ} (h : Inv s) (op : Op τ) : Inv (step s op).1 := by
  cases op with
  | timeoutAdd t to_ticks => exact inv_timeoutAdd h t to_ticks
  | timeoutDel t => exact inv_timeoutDel h t
  | timeoutHardclockUpdate => exact inv_hardclock h
  | softclock => exact inv_softclock h

theorem inv_run {s : State τ} (h : Inv s) (ops : List (Op τ)) : Inv (run s ops).1 := by
  induction ops generalizing s with
  | nil => exact h
  | cons op ops ih => exact ih (inv_step h op)

theorem step_trace {s : State τ} (h : Inv s) (op : Op τ) (t : τ) :
    (step s op).2.count (.scheduled t) + (s.onqueue t).toNat =
      (step s op).2.count (.ran t) + (step s op).2.count (.cancelled t) +
        ((step s op).1.onqueue t).toNat := by
  cases op with
  | timeoutAdd u to_ticks =>
    simp only [step, State.timeoutAdd]
    by_cases hq : s.onqueue u = true
    · simp only [hq, if_true]
      split_ifs <;> simp_all [State.circqRemove, State.insertTodo]
    · by_cases hut : u = t
      · subst hut
        simp [hq, State.insertTodo]
      · simp [hq, State.insertTodo, hut, Function.update_of_ne (Ne.symm hut)]
  | timeoutDel u =>
    simp only [step, State.timeoutDel]
    by_cases hq : s.onqueue u = true
    · by_cases hut : u = t
      · subst hut
        simp [hq]
      · simp [hq, hut, Function.update_of_ne (Ne.symm hut)]
    · simp [hq]
  | timeoutHardclockUpdate =>
    simp [step, (State.hardclock_frame s).2.2]
  | softclock =>
    simp only [step]
    rcases softclock_cases s with ⟨-, heq⟩ | ⟨u, rest, -, -, heq⟩ | ⟨u, rest, htodo, -, heq⟩
    · simp [heq]
    · simp [heq, State.insertWheel]
    · have hcount := queued_cons htodo u
      rw [h.once u, if_pos rfl] at hcount
      have hq : s.onqueue u = true := by
        cases hq : s.onqueue u with
        | true => rfl
        | false => simp [hq] at hcount
      by_cases hut : u = t
      · subst hut
        simp [heq, hq]
      · simp [heq, hut, Function.update_of_ne (Ne.symm hut)]

/-- Over a run every scheduling is matched by one call, one cancellation, or the
timeout is still pending. -/
theorem run_trace {s : State τ} (h : Inv s) (ops : List (Op τ)) (t : τ) :
    (run s ops).2.count (.scheduled t) + (s.onqueue t).toNat =
      (run s ops).2.count (.ran t) + (run s ops).2.count (.cancelled t) +
        ((run s ops).1.onqueue t).toNat := by
  induction ops generalizing s with
  | nil => simp [run]
  | cons op ops ih =>
    have hstep := step_trace h op t
    have hrest := ih (inv_step h op)
    simp only [run, List.count_append]
    omega

/-- An undisturbed `softclock` empties `timeout_todo` and calls exactly the due ones. -/
theorem run_softclocks (s : State τ) :
    (run s (List.replicate s.timeout_todo.length .softclock)).1.timeout_todo = [] ∧
      (run s (List.replicate s.timeout_todo.length .softclock)).2 =
        (s.timeout_todo.filter fun t => s.rel t ≤ 0).map .ran := by
  generalize htodo : s.timeout_todo = todo
  induction todo generalizing s with
  | nil => exact ⟨htodo, rfl⟩
  | cons t rest ih =>
    rcases softclock_cases s with ⟨h, -⟩ | ⟨u, rest', h, hrel, heq⟩ | ⟨u, rest', h, hrel, heq⟩
    · simp [h] at htodo
    · obtain ⟨rfl, rfl⟩ := List.cons_eq_cons.mp (h.symm.trans htodo)
      have htail := ih s.softclock.1 (by simp [heq, State.insertWheel])
      have hsame : s.softclock.1.rel = s.rel := by
        simp only [heq]
        rfl
      rw [hsame] at htail
      have hnot : ¬ s.rel u ≤ 0 := by omega
      simpa [List.replicate_succ, run, step, heq, hnot] using htail
    · obtain ⟨rfl, rfl⟩ := List.cons_eq_cons.mp (h.symm.trans htodo)
      have htail := ih s.softclock.1 (by simp [heq])
      have hsame : s.softclock.1.rel = s.rel := by
        simp only [heq]
        rfl
      rw [hsame] at htail
      simpa [List.replicate_succ, run, step, heq, hrel] using htail

theorem run_idle {s : State τ} (h : Inv s) {t : τ} (hq : s.onqueue t = false) {ops : List (Op τ)}
    (hops : ∀ k, .timeoutAdd t k ∉ ops) :
    t ∉ (run s ops).1.timeout_todo ∧ (run s ops).2.count (.ran t) = 0 := by
  have hsched : (run s ops).2.count (.scheduled t) = 0 := by
    clear h hq
    induction ops generalizing s with
    | nil => rfl
    | cons op ops ih =>
      have hhead : (step s op).2.count (.scheduled t) = 0 := by
        cases op with
        | timeoutAdd u k =>
          have hut : u ≠ t := by
            rintro rfl
            exact hops k List.mem_cons_self
          simp only [step]
          split_ifs <;> simp [hut]
        | timeoutDel u =>
          simp only [step]
          split_ifs <;> simp
        | timeoutHardclockUpdate => rfl
        | softclock => cases hran : s.softclock.2 <;> simp [step, hran]
      have htail := ih (s := (step s op).1) fun k hk => hops k (List.mem_cons_of_mem op hk)
      simp only [run, List.count_append]
      omega
  have htrace := run_trace h ops t
  rw [hsched, hq] at htrace
  simp only [Bool.toNat_false] at htrace
  constructor
  · apply (State.not_mem_of_queued_zero _).1
    rw [(inv_run h ops).once t]
    omega
  · omega

/-- A due timeout that nobody touches, while the difference to its time does not wrap,
leaves `timeout_todo` only by being called, and it is called once. -/
theorem run_due {s : State τ} (h : Inv s) {t : τ} (ht : t ∈ s.timeout_todo) (hrel : s.rel t ≤ 0)
    {ops : List (Op τ)} (hops : .timeoutDel t ∉ ops ∧ ∀ k, .timeoutAdd t k ∉ ops)
    (hclock : (ops.count .timeoutHardclockUpdate : ℤ) ≤ s.rel t + 2 ^ 31) :
    (run s ops).2.count (.ran t) = if t ∈ (run s ops).1.timeout_todo then 0 else 1 := by
  induction ops generalizing s with
  | nil => simp [run, ht]
  | cons op ops ih =>
    have hops' : .timeoutDel t ∉ ops ∧ ∀ k, .timeoutAdd t k ∉ ops :=
      ⟨fun hd => hops.1 (List.mem_cons_of_mem op hd),
        fun k hk => hops.2 k (List.mem_cons_of_mem op hk)⟩
    -- as long as `t` is not taken off the list the rest of the run decides
    have hstay : t ∈ (step s op).1.timeout_todo → (step s op).1.rel t ≤ 0 →
        (ops.count .timeoutHardclockUpdate : ℤ) ≤ (step s op).1.rel t + 2 ^ 31 →
        (step s op).2.count (.ran t) = 0 →
        (run s (op :: ops)).2.count (.ran t) =
          if t ∈ (run s (op :: ops)).1.timeout_todo then 0 else 1 := by
      intro hmem hdue hcount hnone
      have htrace : (run s (op :: ops)).2.count (.ran t) =
          (run (step s op).1 ops).2.count (.ran t) := by
        simp only [run, List.count_append, hnone, zero_add]
      rw [htrace]
      exact ih (inv_step h op) hmem hdue hops' hcount
    cases op with
    | timeoutAdd u k =>
      have hut : u ≠ t := by
        rintro rfl
        exact hops.2 k List.mem_cons_self
      have hrel' : (step s (.timeoutAdd u k)).1.rel t = s.rel t := by
        simp only [step, rel_timeoutAdd, if_neg hut]
      apply hstay
      · simp only [step, State.timeoutAdd]
        split_ifs
        · exact List.mem_append_left _ ((List.mem_erase_of_ne (Ne.symm hut)).mpr ht)
        · exact ht
        · exact List.mem_append_left _ ht
      · rw [hrel']
        exact hrel
      · rw [hrel']
        simpa using hclock
      · simp only [step]
        split_ifs <;> simp
    | timeoutDel u =>
      have hut : u ≠ t := by
        rintro rfl
        exact hops.1 List.mem_cons_self
      have hrel' : (step s (.timeoutDel u)).1.rel t = s.rel t := by
        simp only [step, State.timeoutDel]
        split_ifs <;> rfl
      apply hstay
      · simp only [step, State.timeoutDel]
        split_ifs
        · exact (List.mem_erase_of_ne (Ne.symm hut)).mpr ht
        · exact ht
      · rw [hrel']
        exact hrel
      · rw [hrel']
        simpa using hclock
      · simp only [step]
        split_ifs <;> simp
    | timeoutHardclockUpdate =>
      have hmore : (ops.count .timeoutHardclockUpdate : ℤ) + 1 ≤ s.rel t + 2 ^ 31 := by
        simpa using hclock
      have hrel' : s.timeoutHardclockUpdate.1.rel t = s.rel t - 1 := by
        unfold State.rel at hmore ⊢
        rw [(State.hardclock_frame s).1, (State.hardclock_frame s).2.1, rel_tick (by omega)]
      apply hstay
      · exact State.hardclock_todo s ht
      · simp only [step, hrel']
        omega
      · simp only [step, hrel']
        omega
      · rfl
    | softclock =>
      rcases softclock_cases s with ⟨-, heq⟩ | ⟨u, rest, htodo, hu, heq⟩ | ⟨u, rest, htodo, -, heq⟩
      · apply hstay <;> simp only [step, heq]
        · exact ht
        · exact hrel
        · simpa using hclock
        · rfl
      · have hut : t ≠ u := by
          rintro rfl
          omega
        apply hstay <;> simp only [step, heq]
        · rw [htodo] at ht
          exact List.mem_of_ne_of_mem hut ht
        · exact hrel
        · change _ ≤ s.rel t + 2 ^ 31
          simpa using hclock
        · rfl
      · by_cases hut : t = u
        · subst hut
          have hidle := run_idle (inv_step h .softclock) (by simp [step, heq]) hops'.2
          have hran : (step s .softclock).2.count (.ran t) = 1 := by simp [step, heq]
          rw [run, List.count_append, hidle.2, hran]
          exact (if_neg hidle.1).symm
        · apply hstay <;> simp only [step, heq]
          · rw [htodo] at ht
            exact List.mem_of_ne_of_mem hut ht
          · exact hrel
          · change _ ≤ s.rel t + 2 ^ 31
            simpa using hclock
          · simp [Ne.symm hut]

/-- In every run from `timeout_startup`: a clock tick leaves no due timeout in a bucket,
`softclock` calls only due ones, each scheduling is called or cancelled once or still
pending, an undisturbed `softclock` calls exactly the due entries of `timeout_todo`,
and under any interleaving a due entry leaves it only by its one call. -/
theorem timeout_runs (ticks : BitVec 32) (to_time : τ → BitVec 32) (ops : List (Op τ)) :
    let s := (run (State.timeoutStartup ticks to_time) ops).1
    let trace := (run (State.timeoutStartup ticks to_time) ops).2
    let s' := s.timeoutHardclockUpdate.1
    (∀ t, s'.onqueue t = true → s'.rel t ≤ 0 →
      (∀ b < BUCKETS, t ∉ s'.timeout_wheel b) ∧ t ∈ s'.timeout_todo) ∧
    (∀ t, s.softclock.2 = some t → s.rel t ≤ 0) ∧
    (∀ t, trace.count (.scheduled t) =
      trace.count (.ran t) + trace.count (.cancelled t) + (s.onqueue t).toNat) ∧
    ((run s (List.replicate s.timeout_todo.length .softclock)).1.timeout_todo = [] ∧
      (run s (List.replicate s.timeout_todo.length .softclock)).2 =
        (s.timeout_todo.filter fun t => s.rel t ≤ 0).map .ran) ∧
    ∀ t ∈ s.timeout_todo, s.rel t ≤ 0 → ∀ later : List (Op τ),
      .timeoutDel t ∉ later → (∀ k, .timeoutAdd t k ∉ later) →
      (later.count .timeoutHardclockUpdate : ℤ) ≤ s.rel t + 2 ^ 31 →
      (run s later).2.count (.ran t) = if t ∈ (run s later).1.timeout_todo then 0 else 1 := by
  intro s trace s'
  have hinit : Inv (State.timeoutStartup ticks to_time) := inv_timeoutStartup ticks to_time
  have hinv : Inv s := inv_run hinit ops
  have hinv' : Inv s' := inv_hardclock hinv
  constructor
  · intro t hq hrel
    exact hinv'.due hq hrel
  constructor
  · intro t ht
    rcases softclock_cases s with ⟨-, heq⟩ | ⟨u, rest, -, -, heq⟩ | ⟨u, rest, -, hu, heq⟩
    · simp [heq] at ht
    · simp [heq] at ht
    · rw [heq] at ht
      rw [← Option.some_inj.mp ht]
      exact hu
  constructor
  · intro t
    have htrace := run_trace hinit ops t
    have hidle : ((State.timeoutStartup ticks to_time).onqueue t).toNat = 0 := rfl
    rw [hidle, add_zero] at htrace
    exact htrace
  constructor
  · exact run_softclocks s
  · intro t ht hrel later hdel hadd hclock
    exact run_due hinv ht hrel ⟨hdel, hadd⟩ hclock

/-- A timeout across the wrap of `ticks`, with a second one due at once. -/
theorem timeout_runs_wrap :
    let s := (run (State.timeoutStartup 0x7fffffff#32 fun _ : ℕ => 0)
      [.timeoutAdd 7 2, .softclock, .timeoutHardclockUpdate, .timeoutAdd 8 0]).1
    (s.timeoutHardclockUpdate.1.rel 7 = 0 ∧ 7 ∈ s.timeoutHardclockUpdate.1.timeout_todo) ∧
      (s.softclock.2 = some 8 ∧ s.rel 8 ≤ 0) ∧
      (run s [.softclock]).2.count (.ran 8) = 1 := by
  intro s
  obtain ⟨hdue, hrun, -, -, hlater⟩ := timeout_runs 0x7fffffff#32 (fun _ : ℕ => 0)
    [.timeoutAdd 7 2, .softclock, .timeoutHardclockUpdate, .timeoutAdd 8 0]
  have hfirst : s.softclock.2 = some 8 := by decide +kernel
  have hrel : s.rel 8 ≤ 0 := hrun 8 hfirst
  constructor
  · exact ⟨by decide +kernel, (hdue 7 (by decide +kernel) (by decide +kernel)).2⟩
  constructor
  · exact ⟨hfirst, hrel⟩
  · have hcall := hlater 8 (by decide +kernel) hrel [.softclock] (by simp) (by simp)
      (by decide +kernel)
    exact hcall.trans (if_neg (by decide +kernel))

end OpenbsdKernel.Timeout
