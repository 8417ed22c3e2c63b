import OpenbsdKernel.Kern.Pipe.Safety

/-!
# Which writes are atomic

`pipe_write` keeps the size of the request in an `int` and takes the request for one that has
to be atomic if this number is at most `PIPE_BUF`. The calls of a run keep what the request
gives as an `int` (`Asked`), and the decision is the right one just for the sizes that the
`int` keeps on the same side of `PIPE_BUF`.
-/
namespace OpenbsdKernel.SysPipe

variable {ι β : Type*}

/-- The variables of a write that has entered its loop. -/
def Call.loops : Call β → Option Writer
  | .writeLock w _ | .writeFirst w _ _ | .writeSecond w _ _ _ | .writeWait w => some w
  | _ => none

/-- The variables of a write that has not. -/
def Call.enters : Call β → Option Writer
  | .resizeLock w | .resizeAlloc w => some w
  | _ => none

/-- A write of `n` bytes that has some of them left. -/
structure Asked (n : ℕ) (w : Writer) : Prop where
  orig_resid : w.orig_resid = State.cint n
  left : 0 < w.uio_resid
  le : w.uio_resid ≤ n

structure Call.Asks (n : ℕ) (c : Call β) : Prop where
  loops : ∀ w ∈ c.loops, Asked n w
  enters : ∀ w ∈ c.enters, w.uio_resid = n

theorem Call.asks_of_none {n : ℕ} {c : Call β} (hl : c.loops = none) (he : c.enters = none) :
    c.Asks n :=
  ⟨by simp [hl], by simp [he]⟩

theorem Call.asks_of_loops {n : ℕ} {c : Call β} {w : Writer} (hw : Asked n w)
    (hl : c.loops = some w) (he : c.enters = none) : c.Asks n :=
  ⟨by simpa [hl] using hw, by simp [he]⟩

/-- From `s`, thread `t` has gone to a place of a request of `n` bytes, and no other thread
has moved. -/
structure Goes (n : ℕ) (t : ι) (s s' : State ι β) : Prop where
  others : ∀ t' ≠ t, s'.calls t' = s.calls t'
  own : (s'.calls t).Asks n

theorem Goes.congr {n : ℕ} {t : ι} {s s₁ s' : State ι β} (h : Goes n t s s')
    (h₁ : s.calls = s₁.calls) : Goes n t s₁ s' :=
  ⟨fun t' ht => (h.others t' ht).trans (congrFun h₁ t'), h.own⟩

namespace State

variable {s s' : State ι β} {t : ι} {n : ℕ}

theorem pipeunlock_calls (s : State ι β) : s.pipeunlock.calls = s.calls := by
  rw [pipeunlock]
  split_ifs <;> rfl

theorem wakeReaders_calls (s : State ι β) : s.wakeReaders.calls = s.calls := (wakeReaders_same s).calls

theorem wakeWriters_calls (s : State ι β) : s.wakeWriters.calls = s.calls := (wakeWriters_same s).calls

variable [DecidableEq ι]

/-- The thread is put to a place from a state with the same calls. -/
theorem goes_of_calls {c : Call β} (hc : c.Asks n) {s₁ : State ι β} (h₁ : s₁.calls = s.calls)
    (h : s'.calls = Function.update s₁.calls t c) : Goes n t s s' := by
  refine ⟨fun t' ht => ?_, ?_⟩
  · rw [h, Function.update_of_ne ht, h₁]
  · rwa [h, Function.update_self]

theorem goes_readExit (s : State ι β) (t : ι) (e : Option Errno) : Goes n t s (s.readExit t e) := by
  unfold readExit
  dsimp only
  split_ifs
  · exact goes_of_calls (Call.asks_of_none rfl rfl) rfl rfl
  · exact goes_of_calls (Call.asks_of_none rfl rfl) (wakeWriters_calls s.unbusy) rfl
  · exact goes_of_calls (Call.asks_of_none rfl rfl) rfl rfl

theorem goes_readLoop (s : State ι β) (t : ι) (r : Reader) : Goes n t s (s.readLoop t r) := by
  unfold readLoop
  dsimp only
  split_ifs
  · exact (goes_readExit _ t none).congr (pipeunlock_calls s)
  · exact goes_of_calls (Call.asks_of_none rfl rfl) rfl rfl
  · exact (goes_readExit _ t none).congr (pipeunlock_calls s)
  · exact (goes_readExit _ t none).congr ((pipeunlock_calls _).trans (wakeWriters_calls s))
  · exact (goes_readExit _ t _).congr ((pipeunlock_calls _).trans (wakeWriters_calls s))
  · exact goes_of_calls (Call.asks_of_none rfl rfl)
      ((pipeunlock_calls _).trans (wakeWriters_calls s)) rfl

theorem goes_readLock (s : State ι β) (t : ι) {c : Call β} (hc : c.Asks n) (r : Reader) :
    Goes n t s (s.readLock t c r) := by
  unfold readLock
  split_ifs
  · exact goes_of_calls hc rfl rfl
  · exact (goes_readLoop s.lock t r).congr rfl

theorem goes_readEnter (s : State ι β) (t : ι) (r : Reader) : Goes n t s (s.readEnter t r) := by
  unfold readEnter
  split_ifs
  · exact goes_of_calls (Call.asks_of_none rfl rfl) rfl rfl
  · exact (goes_readLoop s.lock.busy t r).congr rfl

theorem goes_writeExit (s : State ι β) (t : ι) (w : Writer) (e : Option Errno) :
    Goes n t s (s.writeExit t w e) := by
  unfold writeExit
  dsimp only
  by_cases hwanted : s.unbusy.wanted = true
  · rw [if_pos hwanted]
    exact goes_of_calls (Call.asks_of_none rfl rfl) rfl rfl
  · rw [if_neg hwanted]
    by_cases hcnt : 0 < s.unbusy.pipe.pipe_buffer.cnt
    · rw [if_pos hcnt]
      exact goes_of_calls (Call.asks_of_none rfl rfl) (wakeReaders_calls s.unbusy) rfl
    · rw [if_neg hcnt]
      exact goes_of_calls (Call.asks_of_none rfl rfl) rfl rfl

theorem goes_writeAbort (s : State ι β) (t : ι) (e : Errno) : Goes n t s (s.writeAbort t e) := by
  unfold writeAbort
  dsimp only
  split_ifs
  · exact goes_of_calls (Call.asks_of_none rfl rfl) rfl rfl
  · exact goes_of_calls (Call.asks_of_none rfl rfl) rfl rfl

theorem goes_retrywrite (s : State ι β) (t : ι) {w : Writer} (hw : Asked n w) :
    Goes n t s (s.retrywrite t w) := by
  unfold retrywrite
  dsimp only
  split_ifs
  · exact goes_writeExit s t w _
  · exact goes_of_calls (Call.asks_of_loops hw rfl rfl) rfl rfl
  · exact goes_of_calls (Call.asks_of_loops hw rfl rfl) rfl rfl
  · exact (goes_writeExit _ t w _).congr (wakeReaders_calls s)
  · exact goes_of_calls (Call.asks_of_loops hw rfl rfl) (wakeReaders_calls s) rfl

theorem goes_writeLoop (s : State ι β) (t : ι) {w : Writer} (horig : w.orig_resid = cint n)
    (hle : w.uio_resid ≤ n) : Goes n t s (s.writeLoop t w) := by
  unfold writeLoop
  split_ifs with hzero
  · exact goes_writeExit s t w none
  · exact goes_retrywrite s t ⟨horig, Nat.pos_of_ne_zero hzero, hle⟩

theorem goes_writeLocked (s : State ι β) (t : ι) {w : Writer} (hw : Asked n w) (space : ℕ) :
    Goes n t s (s.writeLocked t w space) := by
  unfold writeLocked
  split_ifs
  · exact goes_of_calls (Call.asks_of_loops hw rfl rfl) rfl rfl
  · exact (goes_retrywrite _ t hw).congr (pipeunlock_calls s.lock)
  · exact goes_of_calls (Call.asks_of_loops hw rfl rfl) rfl rfl

theorem goes_writeDone (s : State ι β) (t : ι) {w : Writer} (hw : Asked n w) (size segsize : ℕ)
    (bytes : List β) : Goes n t s (s.writeDone t w size segsize bytes) := by
  have hle : w.uio_resid - size ≤ n := (Nat.sub_le _ _).trans hw.le
  unfold writeDone
  exact (goes_writeLoop _ t (w := { w with uio_resid := w.uio_resid - size }) hw.orig_resid hle).congr
    (pipeunlock_calls (s.putIn size segsize bytes))

theorem goes_firstMoved (s : State ι β) (t : ι) {w : Writer} (hw : Asked n w) (size segsize : ℕ)
    (bytes : List β) (ok : Bool) : Goes n t s (s.firstMoved t w size segsize bytes ok) := by
  unfold firstMoved
  dsimp only
  split_ifs
  · exact goes_of_calls (Call.asks_of_loops hw rfl rfl) rfl rfl
  · exact (goes_writeDone _ t hw size segsize bytes).congr rfl
  · exact (goes_writeExit _ t _ _).congr (pipeunlock_calls _)

theorem goes_secondMoved (s : State ι β) (t : ι) {w : Writer} (hw : Asked n w) (size segsize : ℕ)
    (seg bytes : List β) (ok : Bool) : Goes n t s (s.secondMoved t w size segsize seg bytes ok) := by
  unfold secondMoved
  dsimp only
  split_ifs
  · exact (goes_writeDone _ t hw size segsize _).congr rfl
  · exact (goes_writeExit _ t _ _).congr (pipeunlock_calls _)

theorem goes_writeEnter (s : State ι β) (t : ι) {w : Writer} (hw : w.uio_resid = n) :
    Goes n t s (s.writeEnter t w) := by
  unfold writeEnter
  refine goes_writeLoop s t ?_ hw.le
  rw [hw]

theorem goes_resizeLock (s : State ι β) (t : ι) {w : Writer} (hw : w.uio_resid = n) :
    Goes n t s (s.resizeLock t w) := by
  have hasks : ∀ c : Call β, c.loops = none → c.enters = some w → c.Asks n := fun c hl he =>
    ⟨by simp [hl], by simpa [he] using hw⟩
  unfold resizeLock
  split_ifs
  · exact goes_of_calls (hasks _ rfl rfl) rfl rfl
  · exact goes_of_calls (hasks _ rfl rfl) rfl rfl

theorem goes_pipeWrite (s : State ι β) (t : ι) (n : ℕ) (nb : Bool) :
    Goes n t s (s.pipeWrite t n nb) := by
  unfold pipeWrite
  dsimp only
  split_ifs
  · exact goes_of_calls (Call.asks_of_none rfl rfl) rfl rfl
  · exact (goes_resizeLock s.busy t (w := ⟨n, 0, nb⟩) rfl).congr rfl
  · exact (goes_writeEnter s.busy t (w := ⟨n, 0, nb⟩) rfl).congr rfl

theorem goes_resized (s : State ι β) (t : ι) {w : Writer} (hw : w.uio_resid = n)
    (buffer : Option (ℕ → β)) : Goes n t s (s.resized t w buffer) := by
  cases buffer with
  | some b => exact (goes_writeEnter _ t hw).congr (pipeunlock_calls _)
  | none => exact (goes_writeEnter _ t hw).congr (pipeunlock_calls s)

end State

variable [DecidableEq ι]

/-- The sizes of the requests after a step. -/
def request (req : ι → ℕ) (t : ι) : Act β → ι → ℕ
  | .write n _ => Function.update req t n
  | _ => req

/-- The states of one pipe that are reached by steps of any threads, with the size of the last
write that each thread has asked for. -/
inductive Requests : State ι β → (ι → ℕ) → Prop where
  | create (buffer : ℕ → β) (nbigpipe : ℤ) : Requests (pipeCreate buffer nbigpipe) fun _ => 0
  | step {s s' : State ι β} {req : ι → ℕ} (t : ι) (a : Act β) : Requests s req →
      step s t a = some s' → Requests s' (request req t a)

/-- A step of a thread in a call leads to a place of the same request. -/
theorem goes_step {s s' : State ι β} {t : ι} {a : Act β} {n : ℕ} (h : step s t a = some s')
    (hasks : (s.calls t).Asks n) (hwrite : ∀ m nb, a = .write m nb → n = m) : Goes n t s s' := by
  obtain ⟨hloops, henters⟩ := hasks
  cases a with
  | read m nb =>
    simp only [SysPipe.step] at h
    split at h
    · cases h
      exact State.goes_readEnter s t _
    · cases h
  | write m nb =>
    obtain rfl := hwrite m nb rfl
    simp only [SysPipe.step] at h
    split at h
    · cases h
      exact State.goes_pipeWrite s t n nb
    · cases h
  | wake =>
    simp only [SysPipe.step] at h
    split at h
    · cases hc : s.calls t with
      | resizeLock w =>
        simp only [hc, Option.some.injEq] at h
        exact h ▸ State.goes_resizeLock s t (henters w (by rw [hc]; rfl))
      | writeLock w space =>
        simp only [hc, Option.some.injEq] at h
        exact h ▸ State.goes_writeLocked s t (hloops w (by rw [hc]; rfl)) space
      | writeWait w =>
        have hw := hloops w (by rw [hc]; rfl)
        simp only [hc] at h
        split at h
        · cases h
          exact State.goes_writeExit s t w _
        · cases h
          exact State.goes_writeLoop s t hw.orig_resid hw.le
      | readLock r =>
        simp only [hc, Option.some.injEq] at h
        exact h ▸ State.goes_readEnter s t r
      | readWait r =>
        simp only [hc, Option.some.injEq] at h
        exact h ▸ State.goes_readLock s t (Call.asks_of_none rfl rfl) r
      | readRelock r =>
        simp only [hc, Option.some.injEq] at h
        exact h ▸ State.goes_readLock s t (Call.asks_of_none rfl rfl) r
      | _ => simp [hc] at h
    · cases h
  | signal e =>
    simp only [SysPipe.step] at h
    cases hc : s.calls t with
    | resizeLock w =>
      simp only [hc, Option.some.injEq] at h
      exact h ▸ State.goes_writeAbort s t e
    | writeLock w space =>
      simp only [hc, Option.some.injEq] at h
      exact h ▸ State.goes_writeExit s t w _
    | writeWait w =>
      simp only [hc, Option.some.injEq] at h
      exact h ▸ State.goes_writeExit s t w _
    | readLock r =>
      simp only [hc, Option.some.injEq] at h
      exact h ▸ State.goes_of_calls (Call.asks_of_none rfl rfl) rfl rfl
    | readWait r =>
      simp only [hc, Option.some.injEq] at h
      exact h ▸ State.goes_readExit s t _
    | readRelock r =>
      simp only [hc, Option.some.injEq] at h
      exact h ▸ State.goes_readExit s t _
    | _ => simp [hc] at h
  | alloc buffer =>
    simp only [SysPipe.step] at h
    cases hc : s.calls t with
    | resizeAlloc w =>
      simp only [hc, Option.some.injEq] at h
      exact h ▸ State.goes_resized s t (henters w (by rw [hc]; rfl)) buffer
    | _ => simp [hc] at h
  | copyin bytes ok =>
    simp only [SysPipe.step] at h
    cases hc : s.calls t with
    | writeFirst w size segsize =>
      simp only [hc] at h
      split at h
      · cases h
        exact State.goes_firstMoved s t (hloops w (by rw [hc]; rfl)) size segsize bytes ok
      · cases h
    | writeSecond w size segsize seg =>
      simp only [hc] at h
      split at h
      · cases h
        exact State.goes_secondMoved s t (hloops w (by rw [hc]; rfl)) size segsize seg bytes ok
      · cases h
    | _ => simp [hc] at h
  | copyout ok =>
    simp only [SysPipe.step] at h
    cases hc : s.calls t with
    | readMove r size =>
      simp only [hc, Option.some.injEq, State.readMoved] at h
      subst h
      split_ifs
      · exact (State.goes_readLoop _ t _).congr rfl
      · exact (State.goes_readExit _ t _).congr (State.pipeunlock_calls s)
    | _ => simp [hc] at h
  | close want =>
    cases h
    exact ⟨fun _ _ => rfl, hloops, henters⟩
  | bigpipes m =>
    cases h
    exact ⟨fun _ _ => rfl, hloops, henters⟩

theorem Requests.asks {s : State ι β} {req : ι → ℕ} (h : Requests s req) (t : ι) :
    (s.calls t).Asks (req t) := by
  induction h generalizing t with
  | create buffer nbigpipe => exact Call.asks_of_none rfl rfl
  | @step s s' req t₁ a _ hstep ih =>
    have hreq : ∀ t' ≠ t₁, request req t₁ a t' = req t' := by
      intro t' ht
      cases a with
      | write n nb => exact Function.update_of_ne ht _ _
      | _ => rfl
    have hown : (s.calls t₁).Asks (request req t₁ a t₁) := by
      cases a with
      | write n nb =>
        -- the thread was in no call
        simp only [SysPipe.step] at hstep
        cases hc : s.calls t₁ with
        | returned e => exact Call.asks_of_none rfl rfl
        | _ => simp [hc] at hstep
      | _ => exact ih t₁
    have hgoes := goes_step hstep hown (by
      rintro m nb rfl
      exact Function.update_self ..)
    by_cases ht : t = t₁
    · exact ht ▸ hgoes.own
    · rw [hreq t ht, hgoes.others t ht]
      exact ih t

/-- The thread has begun a transfer into the buffer, or waits for the lock in order to. -/
def Call.Transfers : Call β → Prop
  | .writeLock _ _ | .writeFirst _ _ _ => True
  | _ => False

theorem retrywrite_transfers (s : State ι β) (t : ι) (w : Writer) (heof : s.pipe.PIPE_EOF = false) :
    ((s.retrywrite t w).calls t).Transfers ↔ 0 < State.writeSpace s.pipe.pipe_buffer w := by
  unfold State.retrywrite
  dsimp only
  rw [heof, if_neg Bool.false_ne_true]
  by_cases hspace : 0 < State.writeSpace s.pipe.pipe_buffer w
  · rw [if_pos hspace]
    split_ifs <;> simp [State.sleepLock, State.tsleep, State.writeStart, State.setCall,
      Call.Transfers, hspace]
  · rw [if_neg hspace]
    split_ifs <;> simp [State.writeExit, State.tsleep, State.setCall, Call.Transfers, hspace]

theorem writeSpace_eq_zero {b : Pipebuf β} {n : ℕ} {w : Writer} (hw : Asked n w)
    (hlt : b.space < w.uio_resid) (hsmall : State.cint n ≤ PIPE_BUF) : State.writeSpace b w = 0 := by
  rw [← hw.orig_resid] at hsmall
  exact if_pos ⟨hlt, hsmall⟩

theorem cint_natCast (n : ℕ) : State.cint n = if n % 2 ^ 32 < 2 ^ 31 then ((n % 2 ^ 32 : ℕ) : ℤ)
    else ((n % 2 ^ 32 : ℕ) : ℤ) - 2 ^ 32 := by
  rw [State.cint, Int.bmod_def]
  push_cast
  split_ifs <;> omega

theorem cint_le_iff {n : ℕ} : (State.cint n ≤ PIPE_BUF ↔ n ≤ PIPE_BUF) ↔
    n ≤ PIPE_BUF ∨ (PIPE_BUF < n % 2 ^ 32 ∧ n % 2 ^ 32 < 2 ^ 31) := by
  rw [cint_natCast]
  unfold PIPE_BUF
  split_ifs <;> omega

theorem lt_of_cint_ne {n : ℕ} (h : ¬(State.cint n ≤ PIPE_BUF ↔ n ≤ PIPE_BUF)) :
    ¬n ≤ PIPE_BUF ∧ State.cint n ≤ PIPE_BUF ∧ PIPE_SIZE < n := by
  rw [cint_natCast] at h ⊢
  unfold PIPE_BUF PIPE_SIZE at *
  split_ifs at * <;> omega

/-- The calls of every run keep their requests as an `int`; and for a request of `n` bytes the
writes that begin a transfer, at any state of the pipe, are those that fit or may be split,
just if the `int` is on the right side of `PIPE_BUF`. -/
theorem pipe_write_atomic (t : ι) (buffer : ℕ → β) {n : ℕ} (hpos : 1 ≤ n) :
    (∀ (s : State ι β) (req : ι → ℕ), Requests s req → ∀ t', ∀ w ∈ (s.calls t').loops,
      Asked (req t') w) ∧
    ((∀ (s : State ι β) (w : Writer), Asked n w → s.pipe.PIPE_EOF = false →
        (((s.retrywrite t w).calls t).Transfers ↔
          0 < s.pipe.pipe_buffer.space ∧ (n ≤ PIPE_BUF → w.uio_resid ≤ s.pipe.pipe_buffer.space))) ↔
      n ≤ PIPE_BUF ∨ (PIPE_BUF < n % 2 ^ 32 ∧ n % 2 ^ 32 < 2 ^ 31)) := by
  refine ⟨fun s req h t' => (h.asks t').loops, ?_⟩
  rw [← cint_le_iff]
  constructor
  · intro hall
    by_contra hside
    -- the `int` is small and the request is large: an empty pipe takes nothing
    obtain ⟨hbig, hsmall, hsize⟩ := lt_of_cint_ne hside
    have hw : Asked n ⟨n, State.cint n, false⟩ := ⟨by dsimp only, hpos, le_rfl⟩
    have h := hall (pipeCreate buffer 0) _ hw rfl
    rw [retrywrite_transfers _ _ _ rfl] at h
    have hspace : (pipeCreate buffer 0 : State ι β).pipe.pipe_buffer.space = PIPE_SIZE :=
      Nat.sub_zero PIPE_SIZE
    have hpipe : 0 < PIPE_SIZE := by decide
    rw [writeSpace_eq_zero hw (hspace.trans_lt hsize) hsmall, hspace] at h
    exact absurd (h.mpr ⟨hpipe, fun hn => absurd hn hbig⟩) (lt_irrefl 0)
  · intro hside s w hw heof
    rw [retrywrite_transfers s t w heof, State.writeSpace, hw.orig_resid]
    split_ifs with hatomic
    · exact iff_of_false (lt_irrefl 0) fun h =>
        absurd (h.2 (hside.mp hatomic.2)) (not_le.mpr hatomic.1)
    · refine ⟨fun h => ⟨h, fun hn => ?_⟩, fun h => h.1⟩
      exact not_lt.mp fun hlt => hatomic ⟨hlt, hside.mpr hn⟩

/-- A request larger than the whole pipe begins. -/
theorem pipe_write_atomic_large :
    (((pipeCreate (fun _ => 0) 0 : State (Fin 1) ℕ).retrywrite 0
      ⟨100000, 100000, false⟩).calls 0).Transfers := by
  have h := (pipe_write_atomic (0 : Fin 1) (fun _ => (0 : ℕ)) (n := 100000) (by decide)).2.mpr
    (.inr (by decide))
  have hw : Asked 100000 ⟨100000, 100000, false⟩ := ⟨by decide, by decide, le_rfl⟩
  exact (h (pipeCreate (fun _ => 0) 0) _ hw rfl).mpr ⟨by decide, fun hn => absurd hn (by decide)⟩

/-- The error of a call that has returned. -/
def Call.result : Call β → Option (Option Errno)
  | .returned e => some e
  | _ => none

/-- Without blocking, 2 GiB are to be written to an empty pipe: the call returns `EAGAIN` and
the buffer stays empty. -/
theorem large_write_refused : ∃ s : State (Fin 1) ℕ, Run (fun _ _ => True) s ∧
    (s.calls 0).result = some (some .EAGAIN) ∧ s.pipe.pipe_buffer.space = 65536 ∧
    s.inserted = [] := by
  have h : (replay (pipeCreate (fun _ => 0) 0) [((0 : Fin 1), .write (2 ^ 31) true),
      (0, .alloc (some fun _ => 0))]).map (fun s => ((s.calls 0).result,
        s.pipe.pipe_buffer.space, s.inserted)) = some (some (some .EAGAIN), 65536, []) := by
    decide +kernel
  obtain ⟨s, hr, he⟩ := Option.map_eq_some_iff.1 h
  simp only [Prod.mk.injEq] at he
  exact ⟨s, .replay _ (.create _ _) (fun _ _ _ => trivial) hr, he.1, he.2.1, he.2.2⟩

end OpenbsdKernel.SysPipe
