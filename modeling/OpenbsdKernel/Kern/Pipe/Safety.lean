import OpenbsdKernel.Kern.Pipe.Basic

/-!
# What reads return is what writes have put in

The invariant: what was inserted is what was returned followed by what the buffer holds, one
thread at most holds `PIPE_LOCK`, and the transfer it has begun still fits the buffer. A
thread that goes on is taken out of the invariant first (`Rest`), so that every part of the
two functions has one lemma: from the rest of the system, with the lock held or not, it leads
to a state with the invariant.
-/
namespace OpenbsdKernel.SysPipe

variable {ι β : Type*}

namespace Pipebuf

/-- The bytes in the buffer. -/
def contents (b : Pipebuf β) : List β := Ring.view b.buffer b.size b.out b.cnt

structure Ok (b : Pipebuf β) : Prop where
  out_lt : b.out < b.size
  cnt_le : b.cnt ≤ b.size
  inp : b.inp = (b.out + b.cnt) % b.size

/-- The first segment of a transfer of `size` bytes. -/
def seg (b : Pipebuf β) (size : ℕ) : ℕ := min (b.size - b.inp) size

variable {b : Pipebuf β} {bytes : List β} {size : ℕ}

theorem Ok.inp_lt (hb : b.Ok) : b.inp < b.size := by
  rw [hb.inp]
  exact Nat.mod_lt _ (by have := hb.out_lt; omega)

theorem Ok.index (hb : b.Ok) {j : ℕ} (hj : j ≤ b.size) :
    (b.out + (b.cnt + j)) % b.size = if b.inp + j < b.size then b.inp + j else b.inp + j - b.size := by
  have hlt := hb.inp_lt
  rw [← Nat.add_assoc, ← Nat.mod_add_mod, ← hb.inp]
  exact Ring.mod_of_lt_two (by omega)

theorem Ok.fill (hb : b.Ok) (i : ℕ) : (b.fill i bytes).Ok := ⟨hb.out_lt, hb.cnt_le, hb.inp⟩

theorem Ok.contents_fill_first (hb : b.Ok) (hs : size ≤ b.space) (hl : bytes.length ≤ b.seg size) :
    (b.fill b.inp bytes).contents = b.contents := by
  have hlt := hb.inp_lt
  have hc := hb.cnt_le
  simp only [space, seg] at hs hl
  change Ring.view (Ring.fill b.buffer b.inp bytes) b.size b.out b.cnt = _
  refine Ring.view_of_free (m := size) (by omega) fun i hi => Ring.fill_of_outside ?_
  by_contra hin
  refine hi (i - b.inp) (by omega) ?_
  rw [hb.index (by omega), if_pos (by omega)]
  omega

/-- So do those of a second segment, at the start of the buffer. -/
theorem Ok.contents_fill_second (hb : b.Ok) (hs : size ≤ b.space) (hlt : b.seg size < size)
    (hl : bytes.length ≤ size - b.seg size) : (b.fill 0 bytes).contents = b.contents := by
  have hin := hb.inp_lt
  have hc := hb.cnt_le
  simp only [space, seg] at hs hl hlt
  change Ring.view (Ring.fill b.buffer 0 bytes) b.size b.out b.cnt = _
  refine Ring.view_of_free (m := size) (by omega) fun i hi => Ring.fill_of_outside ?_
  by_contra hout
  refine hi (b.size - b.inp + i) (by omega) ?_
  rw [hb.index (by omega), if_neg (by omega)]
  omega

/-- What a transfer that ends has put behind the contents. -/
theorem Ok.contents_put (hb : b.Ok) (hs : size ≤ b.space) (segsize : ℕ) :
    (b.put size segsize).contents = b.contents ++
      (Ring.segment b.buffer b.inp (b.seg size) ++ Ring.segment b.buffer 0 (size - b.seg size)) := by
  have hlt := hb.inp_lt
  have hc := hb.cnt_le
  rw [contents, contents]
  change Ring.view b.buffer b.size b.out (b.cnt + size) = _
  rw [Ring.view_add, ← hb.inp]
  congr 1
  have hsplit : size = b.seg size + (size - b.seg size) := by rw [seg]; omega
  conv_lhs => rw [hsplit]
  rw [Ring.view_add, Ring.view_eq_segment (by rw [seg]; omega)]
  congr 1
  by_cases hwrap : b.seg size < size
  · have hzero : (b.inp + b.seg size) % b.size = 0 := by
      have hend : b.inp + b.seg size = b.size := by
        rw [seg] at hwrap ⊢
        omega
      rw [hend, Nat.mod_self]
    rw [hzero, Ring.view_eq_segment]
    rw [space] at hs
    omega
  · have hnone : size - b.seg size = 0 := by omega
    rw [hnone]
    rfl

theorem Ok.put (hb : b.Ok) (hs : size ≤ b.space) : (b.put size (b.seg size)).Ok where
  out_lt := hb.out_lt
  cnt_le := by
    have hc := hb.cnt_le
    simp only [space] at hs
    change b.cnt + size ≤ b.size
    omega
  inp := by
    have hlt := hb.inp_lt
    have hc := hb.cnt_le
    simp only [space] at hs
    change (if b.inp + size ≥ b.size then size - b.seg size else b.inp + size) =
      (b.out + (b.cnt + size)) % b.size
    rw [hb.index (by omega), seg]
    split_ifs <;> omega

/-- What a transfer out of the buffer has taken off the contents. -/
theorem Ok.contents_get (hb : b.Ok) (hs : size ≤ b.cnt) (hl : b.out + size ≤ b.size) :
    b.contents = Ring.segment b.buffer b.out size ++ (b.get size).contents := by
  have hrem : b.contents = Ring.segment b.buffer b.out size ++
      Ring.view b.buffer b.size ((b.out + size) % b.size) (b.cnt - size) :=
    Ring.view_remove hl hs hb.cnt_le fun _ _ => rfl
  rw [hrem]
  congr 1
  rw [get]
  have hlt := hb.out_lt
  by_cases h0 : b.cnt - size = 0
  · rw [if_pos h0, h0]
    rfl
  · have hout : (b.out + size) % b.size = if b.out + size ≥ b.size then 0 else b.out + size := by
      rw [Ring.mod_of_lt_two (by omega)]
      split_ifs <;> omega
    rw [if_neg h0, hout]
    rfl

theorem Ok.get (hb : b.Ok) (hs : size ≤ b.cnt) (hl : b.out + size ≤ b.size) : (b.get size).Ok := by
  have hlt := hb.out_lt
  have hc := hb.cnt_le
  rw [Pipebuf.get]
  split_ifs with h0 hwrap
  · exact ⟨by dsimp only; omega, by dsimp only; omega, by simp⟩
  · refine ⟨by dsimp only; omega, by dsimp only; omega, ?_⟩
    have he : b.out + b.cnt = 0 + (b.cnt - size) + b.size := by omega
    dsimp only
    rw [hb.inp, he, Nat.add_mod_right]
  · refine ⟨by dsimp only; omega, by dsimp only; omega, ?_⟩
    have he : b.out + size + (b.cnt - size) = b.out + b.cnt := by omega
    dsimp only
    rw [he, hb.inp]

end Pipebuf

/-- The thread holds `PIPE_LOCK`. -/
def Call.holds : Call β → Bool
  | .resizeAlloc _ | .writeFirst _ _ _ | .writeSecond _ _ _ _ | .readMove _ _ => true
  | _ => false

/-- The transfer that a thread has begun fits the buffer. -/
def Call.MoveOk (b : Pipebuf β) : Call β → Prop
  | .writeFirst _ size segsize => size ≤ b.space ∧ segsize = b.seg size
  | .writeSecond _ size segsize seg => size ≤ b.space ∧ segsize = b.seg size ∧ segsize < size ∧
      Ring.segment b.buffer b.inp segsize = seg
  | .readMove _ size => size ≤ b.cnt ∧ b.out + size ≤ b.size
  | _ => True

theorem Call.MoveOk.of_not_holds {c : Call β} (h : c.holds = false) (b : Pipebuf β) : c.MoveOk b := by
  cases c <;> trivial

structure State.Inv (s : State ι β) : Prop where
  ok : s.pipe.pipe_buffer.Ok
  content : s.inserted = s.returned ++ s.pipe.pipe_buffer.contents
  moves : ∀ t, (s.calls t).MoveOk s.pipe.pipe_buffer
  locked : ∀ t, (s.calls t).holds = true → s.pipe.PIPE_LOCK = true
  unique : ∀ t t', (s.calls t).holds = true → (s.calls t').holds = true → t = t'

/-- What is known of a state while thread `t` runs; `mine` if it holds the lock. -/
structure State.Rest (s : State ι β) (t : ι) (mine : Bool) : Prop where
  ok : s.pipe.pipe_buffer.Ok
  content : s.inserted = s.returned ++ s.pipe.pipe_buffer.contents
  moves : ∀ t' ≠ t, (s.calls t').MoveOk s.pipe.pipe_buffer
  locked : ∀ t' ≠ t, (s.calls t').holds = true → s.pipe.PIPE_LOCK = true ∧ mine = false
  unique : ∀ t' t'', t' ≠ t → t'' ≠ t → (s.calls t').holds = true → (s.calls t'').holds = true →
    t' = t''
  owner : mine = true → s.pipe.PIPE_LOCK = true

/-- The parts of the state that the invariant is about are the same. -/
structure State.Same (s s' : State ι β) : Prop where
  buffer : s'.pipe.pipe_buffer = s.pipe.pipe_buffer
  lock : s'.pipe.PIPE_LOCK = s.pipe.PIPE_LOCK
  calls : s'.calls = s.calls
  inserted : s'.inserted = s.inserted
  returned : s'.returned = s.returned

namespace State

variable {s s' : State ι β} {t : ι} {mine : Bool}

theorem unbusy_same (s : State ι β) : Same s s.unbusy := ⟨rfl, rfl, rfl, rfl, rfl⟩

theorem busy_same (s : State ι β) : Same s s.busy := ⟨rfl, rfl, rfl, rfl, rfl⟩

theorem wakeReaders_same (s : State ι β) : Same s s.wakeReaders := by
  rw [wakeReaders]
  split <;> exact ⟨rfl, rfl, rfl, rfl, rfl⟩

theorem wakeWriters_same (s : State ι β) : Same s s.wakeWriters := by
  rw [wakeWriters]
  split <;> exact ⟨rfl, rfl, rfl, rfl, rfl⟩

theorem Rest.congr (h : s.Rest t mine) (hs : Same s s') : s'.Rest t mine where
  ok := hs.buffer ▸ h.ok
  content := by rw [hs.inserted, hs.returned, hs.buffer, h.content]
  moves := by rw [hs.calls, hs.buffer]; exact h.moves
  locked := by rw [hs.calls, hs.lock]; exact h.locked
  unique := by rw [hs.calls]; exact h.unique
  owner := by rw [hs.lock]; exact h.owner

/-- A thread that goes on is taken out of the invariant. -/
theorem Inv.rest (h : s.Inv) (t : ι) : s.Rest t (s.calls t).holds where
  ok := h.ok
  content := h.content
  moves := fun t' _ => h.moves t'
  locked := fun t' ht' hh => ⟨h.locked t' hh, by
    cases hm : (s.calls t).holds
    · rfl
    · exact absurd (h.unique t' t hh hm) ht'⟩
  unique := fun t' t'' _ _ hh hh' => h.unique t' t'' hh hh'
  owner := h.locked t

theorem Rest.lock (h : s.Rest t false) (hl : s.pipe.PIPE_LOCK = false) : s.lock.Rest t true where
  ok := h.ok
  content := h.content
  moves := h.moves
  locked := fun t' ht' hh => absurd (h.locked t' ht' hh).1 (by simp [hl])
  unique := h.unique
  owner := fun _ => rfl

/-- While a thread holds the lock no other one does. -/
theorem Rest.others (h : s.Rest t true) (t' : ι) (ht' : t' ≠ t) : (s.calls t').holds = false := by
  cases hh : (s.calls t').holds
  · rfl
  · exact absurd (h.locked t' ht' hh).2 (by simp)

theorem Rest.pipeunlock (h : s.Rest t true) : s.pipeunlock.Rest t false := by
  have hnone : ∀ t' ≠ t, (s.calls t').holds = true → False := fun t' ht' hh =>
    absurd (hh.symm.trans (h.others t' ht')) (by simp)
  rw [State.pipeunlock]
  split <;>
  · exact ⟨h.ok, h.content, h.moves, fun t' ht' hh => (hnone t' ht' hh).elim, h.unique,
      fun hm => by cases hm⟩

variable [DecidableEq ι]

/-- The thread stops at a place where it does not hold the lock. -/
theorem Rest.inv (h : s.Rest t false) {c : Call β} (hc : c.holds = false) : (s.setCall t c).Inv where
  ok := h.ok
  content := h.content
  moves := by
    intro t'
    by_cases ht : t' = t
    · subst ht
      simpa [setCall] using Call.MoveOk.of_not_holds hc _
    · simpa [setCall, ht] using h.moves t' ht
  locked := by
    intro t' hh
    by_cases ht : t' = t
    · subst ht
      simp [setCall, hc] at hh
    · rw [setCall] at hh
      exact (h.locked t' ht (by simpa [ht] using hh)).1
  unique := by
    intro t' t'' hh hh'
    have hne : ∀ u, ((s.setCall t c).calls u).holds = true → u ≠ t := by
      rintro u hu rfl
      simp [setCall, hc] at hu
    have hu := hne t' hh
    have hu' := hne t'' hh'
    rw [setCall] at hh hh'
    exact h.unique t' t'' hu hu' (by simpa [hu] using hh) (by simpa [hu'] using hh')

/-- The thread stops at a place where it holds the lock. -/
theorem Rest.inv_holding (h : s.Rest t true) {c : Call β} (hc : c.MoveOk s.pipe.pipe_buffer) :
    (s.setCall t c).Inv where
  ok := h.ok
  content := h.content
  moves := by
    intro t'
    by_cases ht : t' = t
    · subst ht
      simpa [setCall] using hc
    · simpa [setCall, ht] using h.moves t' ht
  locked := fun _ _ => h.owner rfl
  unique := by
    have heq : ∀ u, ((s.setCall t c).calls u).holds = true → u = t := by
      intro u hu
      by_contra hne
      rw [setCall] at hu
      exact absurd (h.locked u hne (by simpa [hne] using hu)).2 (by simp)
    intro t' t'' hh hh'
    rw [heq t' hh, heq t'' hh']

theorem Rest.tsleep (h : s.Rest t false) {c : Call β} (hc : c.holds = false) : (s.tsleep t c).Inv := by
  have hi := h.inv hc
  exact ⟨hi.ok, hi.content, hi.moves, hi.locked, hi.unique⟩

theorem Rest.sleepLock (h : s.Rest t false) {c : Call β} (hc : c.holds = false) :
    (s.sleepLock t c).Inv := by
  have hs : Same s { s with pipe := { s.pipe with PIPE_LWANT := true } } := ⟨rfl, rfl, rfl, rfl, rfl⟩
  exact (h.congr hs).tsleep hc

theorem Rest.readExit (h : s.Rest t false) (error : Option Errno) : (s.readExit t error).Inv := by
  have hb := h.congr (unbusy_same s)
  rw [State.readExit]
  dsimp only
  split
  · refine Rest.inv (hb.congr ?_) rfl
    exact ⟨rfl, rfl, rfl, rfl, rfl⟩
  · split
    · exact (hb.congr (wakeWriters_same _)).inv rfl
    · exact hb.inv rfl

theorem Rest.readLoop (h : s.Rest t true) (r : Reader) : (s.readLoop t r).Inv := by
  rw [State.readLoop]
  dsimp only
  split_ifs
  · exact h.pipeunlock.readExit none
  · have hlt := h.ok.out_lt
    refine h.inv_holding ⟨?_, ?_⟩ <;> omega
  · exact h.pipeunlock.readExit none
  · exact (h.congr (wakeWriters_same s)).pipeunlock.readExit none
  · exact (h.congr (wakeWriters_same s)).pipeunlock.readExit _
  · refine Rest.tsleep ((h.congr (wakeWriters_same s)).pipeunlock.congr ?_) rfl
    exact ⟨rfl, rfl, rfl, rfl, rfl⟩

theorem Rest.readLock (h : s.Rest t false) {c : Call β} (hc : c.holds = false) (r : Reader) :
    (s.readLock t c r).Inv := by
  rw [State.readLock]
  split
  · exact h.sleepLock hc
  · next hl => exact (h.lock (by simpa using hl)).readLoop r

theorem Rest.readEnter (h : s.Rest t false) (r : Reader) : (s.readEnter t r).Inv := by
  rw [State.readEnter]
  split
  · exact h.sleepLock rfl
  · next hl => exact ((h.lock (by simpa using hl)).congr (busy_same _)).readLoop r

omit [DecidableEq ι] in
theorem Rest.takeOut (h : s.Rest t true) {size : ℕ} (hs : size ≤ s.pipe.pipe_buffer.cnt)
    (hl : s.pipe.pipe_buffer.out + size ≤ s.pipe.pipe_buffer.size) :
    (s.takeOut size).Rest t true where
  ok := h.ok.get hs hl
  content := by
    have hc := h.content
    rw [h.ok.contents_get hs hl, ← List.append_assoc] at hc
    exact hc
  moves := fun t' ht' => .of_not_holds (h.others t' ht') _
  locked := h.locked
  unique := h.unique
  owner := h.owner

theorem Rest.readMoved (h : s.Rest t true) {size : ℕ} (hs : size ≤ s.pipe.pipe_buffer.cnt)
    (hl : s.pipe.pipe_buffer.out + size ≤ s.pipe.pipe_buffer.size) (r : Reader) (ok : Bool) :
    (s.readMoved t r size ok).Inv := by
  rw [State.readMoved]
  split
  · exact (h.takeOut hs hl).readLoop _
  · exact h.pipeunlock.readExit _

theorem Rest.writeExit (h : s.Rest t false) (w : Writer) (error : Option Errno) :
    (s.writeExit t w error).Inv := by
  have hb := h.congr (unbusy_same s)
  rw [State.writeExit]
  dsimp only
  split
  · refine Rest.inv (hb.congr ?_) rfl
    exact ⟨rfl, rfl, rfl, rfl, rfl⟩
  · split
    · exact (hb.congr (wakeReaders_same _)).inv rfl
    · exact hb.inv rfl

theorem Rest.writeAbort (h : s.Rest t false) (error : Errno) : (s.writeAbort t error).Inv := by
  have hb := h.congr (unbusy_same s)
  rw [State.writeAbort]
  dsimp only
  split
  · refine Rest.inv (hb.congr ?_) rfl
    exact ⟨rfl, rfl, rfl, rfl, rfl⟩
  · exact hb.inv rfl

theorem Rest.writeStart (h : s.Rest t true) {space : ℕ} (hs : space ≤ s.pipe.pipe_buffer.space)
    (w : Writer) : (s.writeStart t w space).Inv :=
  h.inv_holding ⟨(min_le_left _ _).trans hs, rfl⟩

theorem writeSpace_le (b : Pipebuf β) (w : Writer) : writeSpace b w ≤ b.space := by
  rw [writeSpace]
  split <;> omega

theorem Rest.retrywrite (h : s.Rest t false) (w : Writer) : (s.retrywrite t w).Inv := by
  rw [State.retrywrite]
  dsimp only
  split_ifs with _ _ hl
  · exact h.writeExit w _
  · exact h.sleepLock rfl
  · exact (h.lock (by simpa using hl)).writeStart (writeSpace_le _ w) w
  · exact (h.congr (wakeReaders_same s)).writeExit w _
  · refine Rest.tsleep ((h.congr (wakeReaders_same s)).congr ?_) rfl
    exact ⟨rfl, rfl, rfl, rfl, rfl⟩

theorem Rest.writeLoop (h : s.Rest t false) (w : Writer) : (s.writeLoop t w).Inv := by
  rw [State.writeLoop]
  split
  · exact h.writeExit w none
  · exact h.retrywrite w

theorem Rest.writeLocked (h : s.Rest t false) (w : Writer) (space : ℕ) :
    (s.writeLocked t w space).Inv := by
  rw [State.writeLocked]
  split_ifs with hl hs
  · exact h.sleepLock rfl
  · exact (h.lock (by simpa using hl)).pipeunlock.retrywrite w
  · exact (h.lock (by simpa using hl)).writeStart (not_lt.1 hs) w

omit [DecidableEq ι] in
/-- A transfer ends: the bytes are in the cells behind the contents. -/
theorem Rest.putIn (h : s.Rest t true) {size : ℕ} {bytes : List β}
    (hs : size ≤ s.pipe.pipe_buffer.space)
    (hb : Ring.segment s.pipe.pipe_buffer.buffer s.pipe.pipe_buffer.inp
        (s.pipe.pipe_buffer.seg size) ++
      Ring.segment s.pipe.pipe_buffer.buffer 0 (size - s.pipe.pipe_buffer.seg size) = bytes) :
    (s.putIn size (s.pipe.pipe_buffer.seg size) bytes).Rest t true where
  ok := h.ok.put hs
  content := by
    change s.inserted ++ bytes = s.returned ++ (s.pipe.pipe_buffer.put size _).contents
    rw [h.ok.contents_put hs, h.content, hb, List.append_assoc]
  moves := fun t' ht' => .of_not_holds (h.others t' ht') _
  locked := h.locked
  unique := h.unique
  owner := h.owner

omit [DecidableEq ι] in
theorem Rest.fill (h : s.Rest t true) {i : ℕ} {bytes : List β}
    (hc : (s.pipe.pipe_buffer.fill i bytes).contents = s.pipe.pipe_buffer.contents) :
    (s.setBuffer (s.pipe.pipe_buffer.fill i bytes)).Rest t true :=
  ⟨h.ok.fill i, h.content.trans (congrArg _ hc.symm),
    fun t' ht' => .of_not_holds (h.others t' ht') _, h.locked, h.unique, h.owner⟩

theorem Rest.firstMoved (h : s.Rest t true) {size : ℕ} {bytes : List β} {ok : Bool}
    (hs : size ≤ s.pipe.pipe_buffer.space) (hl : bytes.length ≤ s.pipe.pipe_buffer.seg size)
    (hok : ok = true → bytes.length = s.pipe.pipe_buffer.seg size) (w : Writer) :
    (s.firstMoved t w size (s.pipe.pipe_buffer.seg size) bytes ok).Inv := by
  have hf := h.fill (h.ok.contents_fill_first hs hl)
  rw [State.firstMoved]
  split_ifs with ho hlt
  · refine hf.inv_holding ⟨hs, rfl, hlt, ?_⟩
    change Ring.segment (Ring.fill _ _ _) s.pipe.pipe_buffer.inp _ = bytes
    rw [← hok ho, Ring.segment_fill]
  · refine (hf.putIn hs ?_).pipeunlock.writeLoop _
    have hnone : size - s.pipe.pipe_buffer.seg size = 0 := by omega
    change Ring.segment (Ring.fill _ _ _) s.pipe.pipe_buffer.inp (s.pipe.pipe_buffer.seg size) ++
      Ring.segment _ 0 (size - s.pipe.pipe_buffer.seg size) = bytes
    rw [hnone, ← hok ho, Ring.segment_fill]
    simp [Ring.segment]
  · exact hf.pipeunlock.writeExit _ _

theorem Rest.secondMoved (h : s.Rest t true) {size : ℕ} {seg bytes : List β} {ok : Bool}
    (hs : size ≤ s.pipe.pipe_buffer.space) (hlt : s.pipe.pipe_buffer.seg size < size)
    (hseg : Ring.segment s.pipe.pipe_buffer.buffer s.pipe.pipe_buffer.inp
      (s.pipe.pipe_buffer.seg size) = seg)
    (hl : bytes.length ≤ size - s.pipe.pipe_buffer.seg size)
    (hok : ok = true → bytes.length = size - s.pipe.pipe_buffer.seg size) (w : Writer) :
    (s.secondMoved t w size (s.pipe.pipe_buffer.seg size) seg bytes ok).Inv := by
  have hf := h.fill (h.ok.contents_fill_second hs hlt hl)
  rw [State.secondMoved]
  split_ifs with ho
  · refine (hf.putIn hs ?_).pipeunlock.writeLoop _
    change Ring.segment (Ring.fill _ _ _) s.pipe.pipe_buffer.inp (s.pipe.pipe_buffer.seg size) ++
      Ring.segment (Ring.fill _ _ _) 0 (size - s.pipe.pipe_buffer.seg size) = _
    rw [← hok ho, Ring.segment_fill, ← hseg]
    congr 1
    -- the first segment lies behind the second one
    refine Ring.segment_congr fun k hk => Ring.fill_of_outside (.inr ?_)
    have hc := h.ok.cnt_le
    simp only [Pipebuf.space, Pipebuf.seg] at hs hlt hl
    omega
  · exact hf.pipeunlock.writeExit _ _

theorem Rest.resizeLock (h : s.Rest t false) (w : Writer) : (s.resizeLock t w).Inv := by
  rw [State.resizeLock]
  split
  · exact h.sleepLock rfl
  · next hl => exact (h.lock (by simpa using hl)).inv_holding trivial

theorem Rest.pipeWrite (h : s.Rest t false) (n : ℕ) (nb : Bool) : (s.pipeWrite t n nb).Inv := by
  rw [State.pipeWrite]
  dsimp only
  split_ifs
  · exact h.inv rfl
  · exact (h.congr (busy_same s)).resizeLock _
  · exact (h.congr (busy_same s)).writeLoop _

omit [DecidableEq ι] in
theorem Rest.pipespace (h : s.Rest t true) (h0 : s.pipe.pipe_buffer.cnt = 0) {size : ℕ}
    (hs : 0 < size) (buffer : ℕ → β) : (s.pipespace size buffer).countBig.Rest t true where
  ok := ⟨hs, Nat.zero_le _, (Nat.zero_mod _).symm⟩
  content := by
    have hz : s.pipe.pipe_buffer.contents = [] := by
      rw [Pipebuf.contents, h0, Ring.view_zero]
    exact h.content.trans (congrArg _ hz)
  moves := fun t' ht' => .of_not_holds (h.others t' ht') _
  locked := h.locked
  unique := h.unique
  owner := h.owner

theorem Rest.resized (h : s.Rest t true) (w : Writer) {buffer : Option (ℕ → β)}
    (hb : buffer.isSome = true → s.pipe.pipe_buffer.cnt = 0) : (s.resized t w buffer).Inv := by
  cases buffer with
  | none => exact h.pipeunlock.writeLoop _
  | some buffer => exact (h.pipespace (hb rfl) (by decide) buffer).pipeunlock.writeLoop _

end State

variable [DecidableEq ι]

/-- When a writer that wanted to enlarge the buffer has got the new one, the pipe is still
empty. -/
def StillEmpty (s : State ι β) : Act β → Prop
  | .alloc (some _) => s.pipe.pipe_buffer.cnt = 0
  | _ => True

/-- The states of one pipe that are reached by steps of any threads, all of which satisfy
`C`. -/
inductive Run (C : State ι β → Act β → Prop) : State ι β → Prop where
  | create (buffer : ℕ → β) (nbigpipe : ℤ) : Run C (pipeCreate buffer nbigpipe)
  | step {s s' : State ι β} (t : ι) (a : Act β) : Run C s → C s a → step s t a = some s' → Run C s'

omit [DecidableEq ι] in
theorem inv_create (buffer : ℕ → β) (nbigpipe : ℤ) :
    (pipeCreate buffer nbigpipe : State ι β).Inv where
  ok := ⟨Nat.zero_lt_succ _, Nat.zero_le _, rfl⟩
  content := rfl
  moves := fun _ => trivial
  locked := fun _ h => absurd h (by simp [pipeCreate, Call.holds])
  unique := fun _ _ h => absurd h (by simp [pipeCreate, Call.holds])

theorem State.Inv.wake {s s' : State ι β} (hi : s.Inv) {t : ι} (h : step s t .wake = some s') :
    s'.Inv := by
  have hr := hi.rest t
  simp only [step] at h
  split at h
  · cases hc : s.calls t with
    | resizeLock w =>
      simp only [hc, Option.some.injEq] at h hr
      exact h ▸ hr.resizeLock w
    | writeLock w space =>
      simp only [hc, Option.some.injEq] at h hr
      exact h ▸ hr.writeLocked w space
    | writeWait w =>
      simp only [hc] at h hr
      split at h
      · cases h
        exact hr.writeExit w _
      · cases h
        exact hr.writeLoop w
    | readLock r =>
      simp only [hc, Option.some.injEq] at h hr
      exact h ▸ hr.readEnter r
    | readWait r =>
      simp only [hc, Option.some.injEq] at h hr
      exact h ▸ hr.readLock rfl r
    | readRelock r =>
      simp only [hc, Option.some.injEq] at h hr
      exact h ▸ hr.readLock rfl r
    | _ => simp [hc] at h
  · cases h

theorem State.Inv.signal {s s' : State ι β} (hi : s.Inv) {t : ι} {e : Errno}
    (h : step s t (.signal e) = some s') : s'.Inv := by
  have hr := hi.rest t
  simp only [step] at h
  cases hc : s.calls t with
  | resizeLock w =>
    simp only [hc, Option.some.injEq] at h hr
    exact h ▸ hr.writeAbort e
  | writeLock w space =>
    simp only [hc, Option.some.injEq] at h hr
    exact h ▸ hr.writeExit w _
  | writeWait w =>
    simp only [hc, Option.some.injEq] at h hr
    exact h ▸ hr.writeExit w _
  | readLock r =>
    simp only [hc, Option.some.injEq] at h hr
    exact h ▸ hr.inv rfl
  | readWait r =>
    simp only [hc, Option.some.injEq] at h hr
    exact h ▸ hr.readExit _
  | readRelock r =>
    simp only [hc, Option.some.injEq] at h hr
    exact h ▸ hr.readExit _
  | _ => simp [hc] at h

theorem State.Inv.copyin {s s' : State ι β} (hi : s.Inv) {t : ι} {bytes : List β} {ok : Bool}
    (h : SysPipe.step s t (.copyin bytes ok) = some s') : s'.Inv := by
  have hr := hi.rest t
  have hm := hi.moves t
  simp only [SysPipe.step] at h
  cases hc : s.calls t with
  | writeFirst w size segsize =>
    simp only [hc] at h hr hm
    split at h
    · next hlen =>
      obtain ⟨hs, rfl⟩ := hm
      cases h
      exact Rest.firstMoved hr hs hlen.1 hlen.2 w
    · cases h
  | writeSecond w size segsize seg =>
    simp only [hc] at h hr hm
    split at h
    · next hlen =>
      obtain ⟨hs, rfl, hlt, hseg⟩ := hm
      cases h
      exact Rest.secondMoved hr hs hlt hseg hlen.1 hlen.2 w
    · cases h
  | _ => simp [hc] at h

theorem State.Inv.step {s s' : State ι β} (hi : s.Inv) {t : ι} {a : Act β} (ha : StillEmpty s a)
    (h : SysPipe.step s t a = some s') : s'.Inv := by
  have hr := hi.rest t
  have hm := hi.moves t
  cases a with
  | read n nb =>
    simp only [SysPipe.step] at h
    cases hc : s.calls t with
    | returned e =>
      simp only [hc, Option.some.injEq] at h hr
      exact h ▸ hr.readEnter _
    | _ => simp [hc] at h
  | write n nb =>
    simp only [SysPipe.step] at h
    cases hc : s.calls t with
    | returned e =>
      simp only [hc, Option.some.injEq] at h hr
      exact h ▸ hr.pipeWrite n nb
    | _ => simp [hc] at h
  | wake => exact hi.wake h
  | signal e => exact hi.signal h
  | alloc buffer =>
    simp only [SysPipe.step] at h
    cases hc : s.calls t with
    | resizeAlloc w =>
      simp only [hc, Option.some.injEq] at h hr
      refine h ▸ Rest.resized hr w fun hb => ?_
      obtain ⟨b, rfl⟩ := Option.isSome_iff_exists.1 hb
      exact ha
    | _ => simp [hc] at h
  | copyin bytes ok => exact hi.copyin h
  | copyout ok =>
    simp only [SysPipe.step] at h
    cases hc : s.calls t with
    | readMove r size =>
      simp only [hc, Option.some.injEq] at h hr hm
      exact h ▸ Rest.readMoved hr hm.1 hm.2 r ok
    | _ => simp [hc] at h
  | close want =>
    cases h
    exact ⟨hi.ok, hi.content, hi.moves, hi.locked, hi.unique⟩
  | bigpipes n =>
    cases h
    exact ⟨hi.ok, hi.content, hi.moves, hi.locked, hi.unique⟩

/-- The state after a list of steps, if all of them can be made. -/
def replay (s : State ι β) : List (ι × Act β) → Option (State ι β)
  | [] => some s
  | (t, a) :: l => (step s t a).bind fun s' => replay s' l

theorem Run.replay {C : State ι β → Act β → Prop} {s' : State ι β} (l : List (ι × Act β)) :
    ∀ {s : State ι β}, Run C s → (∀ s, ∀ x ∈ l, C s x.2) → replay s l = some s' → Run C s' := by
  induction l with
  | nil =>
    intro s h _ hr
    cases hr
    exact h
  | cons x l ih =>
    intro s h hC hr
    obtain ⟨s1, h1, hr⟩ := Option.bind_eq_some_iff.1 hr
    exact ih (.step x.1 x.2 h (hC s x (List.mem_cons_self ..)) h1)
      (fun s y hy => hC s y (List.mem_cons_of_mem x hy)) hr

/-- In every run in which the buffer is enlarged only while the pipe is empty, what the reads
have returned is what the writes have put in, up to the bytes that are still in the
buffer. -/
theorem pipe_fifo {s : State ι β} (h : Run StillEmpty s) :
    s.inserted = s.returned ++ s.pipe.pipe_buffer.contents ∧ s.returned <+: s.inserted := by
  have hi : s.Inv := by
    induction h with
    | create buffer nbigpipe => exact inv_create buffer nbigpipe
    | step t a _ ha hs ih => exact ih.step ha hs
  exact ⟨hi.content, hi.content ▸ List.prefix_append ..⟩

/-- Two bytes are written and the first of them is read. -/
theorem pipe_fifo_partial_read : ∃ s : State (Fin 2) ℕ, s.inserted = [7, 8] ∧ s.returned = [7] ∧
    s.inserted = s.returned ++ s.pipe.pipe_buffer.contents ∧ s.returned <+: s.inserted := by
  have h : (replay (pipeCreate (fun _ => 0) 0) [((0 : Fin 2), .write 2 false),
      (0, .copyin [7, 8] true), (1, .read 1 false), (1, .copyout true)]).map
        (fun s => (s.inserted, s.returned)) = some ([7, 8], [7]) := by decide +kernel
  obtain ⟨s, hr, he⟩ := Option.map_eq_some_iff.1 h
  simp only [Prod.mk.injEq] at he
  exact ⟨s, he.1, he.2, pipe_fifo (.replay _ (.create _ _) (by simp [StillEmpty]) hr)⟩

/-- A writer finds the pipe empty and waits for the lock in order to enlarge the buffer; the
thread that held the lock has written a byte when it gets it, and this byte is lost. -/
theorem resize_loses_byte : ∃ s : State (Fin 3) ℕ, Run (fun _ _ => True) s ∧
    s.inserted = [7, 8] ∧ s.returned = [8] ∧ ¬s.returned <+: s.inserted := by
  have h : (replay (pipeCreate (fun _ => 0) 0) [((0 : Fin 3), .write 1 false),
      (1, .write 16385 false), (0, .copyin [7] true), (1, .wake), (1, .alloc (some fun _ => 0)),
      (1, .copyin [] false), (0, .write 1 false), (0, .copyin [8] true), (2, .read 1 false),
      (2, .copyout true)]).map (fun s => (s.inserted, s.returned)) = some ([7, 8], [8]) := by
    decide +kernel
  obtain ⟨s, hr, he⟩ := Option.map_eq_some_iff.1 h
  simp only [Prod.mk.injEq] at he
  refine ⟨s, .replay _ (.create _ _) (fun _ _ _ => trivial) hr, he.1, he.2, ?_⟩
  rw [he.1, he.2]
  decide

end OpenbsdKernel.SysPipe
