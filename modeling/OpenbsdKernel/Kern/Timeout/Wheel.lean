import Mathlib.Algebra.BigOperators.Pi
import Mathlib.Algebra.Order.BigOperators.Group.Finset
import Mathlib.Tactic

/-!
# The timeout wheel

Hierarchical timing wheels of `kern/kern_timeout.c`. The circular queues are
lists, `ticks` and `to_time` are 32-bit integers that wrap, and a timeout is known
by its address, an element of an arbitrary type. The body of the `softclock` loop
is one operation of its own, because the mutex is released around every callback.
-/
namespace OpenbsdKernel.Timeout

def WHEELSIZE : ℕ := 256
def BUCKETS : ℕ := 1024

/-- `MASKWHEEL(wheel, time)`; the shift of a negative `int` is arithmetic. -/
def maskWheel (wheel : ℕ) (time : BitVec 32) : ℕ :=
  (time.sshiftRight (wheel * 8) &&& 255#32).toNat

/-- The index computed by `BUCKET(rel, abs)`. -/
def bucket (rel abs : BitVec 32) : ℕ :=
  if rel.toInt ≤ 2 ^ 16 then
    if rel.toInt ≤ 2 ^ 8 then maskWheel 0 abs else maskWheel 1 abs + WHEELSIZE
  else if rel.toInt ≤ 2 ^ 24 then maskWheel 2 abs + 2 * WHEELSIZE
  else maskWheel 3 abs + 3 * WHEELSIZE

/-- The globals of `kern_timeout.c` together with the `to_time` and `to_flags`
of every timeout. -/
structure State (τ : Type*) where
  ticks : BitVec 32
  timeout_wheel : ℕ → List τ
  timeout_todo : List τ
  to_time : τ → BitVec 32
  onqueue : τ → Bool
  triggered : τ → Bool

variable {τ : Type*} [DecidableEq τ]

namespace State

/-- `timeout_startup`: the timeouts themselves are initialized but idle. -/
def timeoutStartup (ticks : BitVec 32) (to_time : τ → BitVec 32) : State τ where
  ticks := ticks
  timeout_wheel := fun _ => []
  timeout_todo := []
  to_time := to_time
  onqueue := fun _ => false
  triggered := fun _ => false

/-- `CIRCQ_REMOVE`: unlink the element from whichever queue holds it. -/
def circqRemove (s : State τ) (t : τ) : State τ :=
  { s with
    timeout_wheel := fun b => (s.timeout_wheel b).erase t
    timeout_todo := s.timeout_todo.erase t }

/-- `CIRCQ_INSERT(&to->to_list, &timeout_todo)`. -/
def insertTodo (s : State τ) (t : τ) : State τ :=
  { s with timeout_todo := s.timeout_todo ++ [t] }

/-- `CIRCQ_INSERT(&to->to_list, &timeout_wheel[b])`. -/
def insertWheel (s : State τ) (b : ℕ) (t : τ) : State τ :=
  { s with timeout_wheel := Function.update s.timeout_wheel b (s.timeout_wheel b ++ [t]) }

/-- `MOVEBUCKET(wheel, ticks)`. -/
def moveBucket (wheel : ℕ) (s : State τ) : State τ :=
  let b := maskWheel wheel s.ticks + wheel * WHEELSIZE
  { s with
    timeout_todo := s.timeout_todo ++ s.timeout_wheel b
    timeout_wheel := Function.update s.timeout_wheel b [] }

/-- `timeout_add` with `to_ticks ≥ 0`; the flag is its return value. -/
def timeoutAdd (s : State τ) (t : τ) (to_ticks : BitVec 32) : State τ × Bool :=
  let old_time := s.to_time t
  let s₁ : State τ :=
    { s with
      to_time := Function.update s.to_time t (to_ticks + s.ticks)
      triggered := Function.update s.triggered t false }
  if s.onqueue t then
    -- a timeout that is only postponed stays where it is
    if (s₁.to_time t - s.ticks).toInt < (old_time - s.ticks).toInt then
      ((s₁.circqRemove t).insertTodo t, false)
    else (s₁, false)
  else ({ s₁ with onqueue := Function.update s.onqueue t true }.insertTodo t, true)

def timeoutDel (s : State τ) (t : τ) : State τ × Bool :=
  let s₁ : State τ := { s with triggered := Function.update s.triggered t false }
  if s.onqueue t then
    ({ s₁.circqRemove t with onqueue := Function.update s.onqueue t false }, true)
  else (s₁, false)

/-- The buckets `timeout_hardclock_update` moves once `ticks` has its new value. -/
def moveBuckets (s : State τ) : State τ :=
  let s₀ := moveBucket 0 s
  if maskWheel 0 s.ticks = 0 then
    let s₁ := moveBucket 1 s₀
    if maskWheel 1 s.ticks = 0 then
      let s₂ := moveBucket 2 s₁
      if maskWheel 2 s.ticks = 0 then moveBucket 3 s₂ else s₂
    else s₁
  else s₀

/-- `timeout_hardclock_update`; the flag asks for a `softclock`. -/
def timeoutHardclockUpdate (s : State τ) : State τ × Bool :=
  let s₁ := moveBuckets { s with ticks := s.ticks + 1 }
  (s₁, !s₁.timeout_todo.isEmpty)

/-- One iteration of the `softclock` loop; the timeout whose function runs, if any. -/
def softclock (s : State τ) : State τ × Option τ :=
  match s.timeout_todo with
  | [] => (s, none)
  | t :: rest =>
    let s₁ : State τ := { s with timeout_todo := rest }
    let rel := s.to_time t - s.ticks
    if 0 < rel.toInt then (s₁.insertWheel (bucket rel (s.to_time t)) t, none)
    else
      ({ s₁ with
          onqueue := Function.update s.onqueue t false
          triggered := Function.update s.triggered t true }, some t)

/-- `to->to_time - ticks` as a signed difference. -/
def rel (s : State τ) (t : τ) : ℤ := (s.to_time t - s.ticks).toInt

/-- How many queue entries `t` has. -/
def queued (s : State τ) (t : τ) : ℕ :=
  s.timeout_todo.count t + ∑ b ∈ Finset.range BUCKETS, (s.timeout_wheel b).count t

end State

def period (b : ℕ) : ℕ := 2 ^ (8 * (b / WHEELSIZE) + 8)

/-- The value of `ticks`, within one period, at which a bucket is moved. -/
def phase (b : ℕ) : ℕ := b % WHEELSIZE * 2 ^ (8 * (b / WHEELSIZE))

/-- Ticks from `now` until the bucket is moved for the next time. -/
def nextMove (b now : ℕ) : ℕ := (phase b + (period b - 1) - now % period b) % period b + 1

theorem maskWheel_eq {wheel : ℕ} (h : wheel < 4) (time : BitVec 32) :
    maskWheel wheel time = time.toNat / 2 ^ (wheel * 8) % 256 := by
  have hmask : (255#32).toNat = 2 ^ 8 - 1 := rfl
  have ht := time.isLt
  unfold maskWheel
  rw [BitVec.toNat_and, hmask, Nat.and_two_pow_sub_one_eq_mod, BitVec.toNat_sshiftRight]
  simp only [Nat.shiftRight_eq_div_pow]
  split_ifs with hm
  · rcases (by omega : wheel = 0 ∨ wheel = 1 ∨ wheel = 2 ∨ wheel = 3) with rfl | rfl | rfl | rfl <;>
      norm_num at * <;> omega
  · rfl

theorem level_cases {b : ℕ} (hb : b < BUCKETS) :
    (b / 256 = 0 ∧ period b = 256 ∧ phase b = b % 256) ∨
      (b / 256 = 1 ∧ period b = 65536 ∧ phase b = b % 256 * 256) ∨
      (b / 256 = 2 ∧ period b = 16777216 ∧ phase b = b % 256 * 65536) ∨
      b / 256 = 3 ∧ period b = 4294967296 ∧ phase b = b % 256 * 16777216 := by
  unfold BUCKETS at hb
  unfold period phase WHEELSIZE
  rcases (by omega : b / 256 = 0 ∨ b / 256 = 1 ∨ b / 256 = 2 ∨ b / 256 = 3) with h | h | h | h <;>
    simp [h]

theorem nextMove_le {b now f : ℕ} (hb : b < BUCKETS) (hf : 1 ≤ f)
    (h : (now + f) % period b = phase b) : nextMove b now ≤ f := by
  unfold nextMove
  rcases level_cases hb with ⟨-, hp, hq⟩ | ⟨-, hp, hq⟩ | ⟨-, hp, hq⟩ | ⟨-, hp, hq⟩ <;>
    rw [hp] at h ⊢ <;> omega

theorem nextMove_succ {b : ℕ} {now : BitVec 32} (hb : b < BUCKETS)
    (h : (now + 1).toNat % period b ≠ phase b) :
    nextMove b (now + 1).toNat + 1 = nextMove b now.toNat := by
  have hn : (now + 1).toNat = (now.toNat + 1) % 4294967296 := by simp [BitVec.toNat_add]
  have hlt := now.isLt
  unfold nextMove
  rw [hn] at h ⊢
  rcases level_cases hb with ⟨-, hp, hq⟩ | ⟨-, hp, hq⟩ | ⟨-, hp, hq⟩ | ⟨-, hp, hq⟩ <;>
    rw [hp] at h ⊢ <;> omega

theorem nextMove_bucket {now abs : BitVec 32} (h : 0 < (abs - now).toInt) :
    bucket (abs - now) abs < BUCKETS ∧
      (nextMove (bucket (abs - now) abs) now.toNat : ℤ) ≤ (abs - now).toInt := by
  have habs := abs.isLt
  have hnow := now.isLt
  have hsub := BitVec.toNat_sub abs now
  have hint := BitVec.toInt_eq_toNat_cond (abs - now)
  have hd : (abs - now).toInt = (abs - now).toNat := by
    split_ifs at hint
    · exact hint
    · have := (abs - now).isLt
      omega
  -- at every level the slot is reached `abs % 2 ^ (8 * level)` ticks before `abs`
  have key : ∀ b f : ℕ, b < BUCKETS → 1 ≤ f → f ≤ (abs - now).toNat →
      (now.toNat + f) % period b = phase b →
      b < BUCKETS ∧ nextMove b now.toNat ≤ (abs - now).toNat := by
    intro b f hb hf hle hmod
    exact ⟨hb, (nextMove_le hb hf hmod).trans hle⟩
  unfold bucket
  simp only [maskWheel_eq (by decide : 0 < 4), maskWheel_eq (by decide : 1 < 4),
    maskWheel_eq (by decide : 2 < 4), maskWheel_eq (by decide : 3 < 4), WHEELSIZE]
  rw [hd] at h ⊢
  generalize (abs - now).toNat = d at h hsub key ⊢
  norm_num at h ⊢
  split_ifs with h16 h8 h24
  · apply key _ d
    all_goals try simp only [BUCKETS, period, phase, WHEELSIZE]
    · omega
    · omega
    · omega
    · have hdiv : abs.toNat % 256 / 256 = 0 := by omega
      rw [hdiv]
      norm_num
      omega
  · apply key _ (d - abs.toNat % 256)
    all_goals try simp only [BUCKETS, period, phase, WHEELSIZE]
    · omega
    · omega
    · omega
    · have hdiv : (abs.toNat / 256 % 256 + 256) / 256 = 1 := by omega
      rw [hdiv]
      norm_num
      omega
  · apply key _ (d - abs.toNat % 65536)
    all_goals try simp only [BUCKETS, period, phase, WHEELSIZE]
    · omega
    · omega
    · omega
    · have hdiv : (abs.toNat / 65536 % 256 + 512) / 256 = 2 := by omega
      rw [hdiv]
      norm_num
      omega
  · apply key _ (d - abs.toNat % 16777216)
    all_goals try simp only [BUCKETS, period, phase, WHEELSIZE]
    · omega
    · omega
    · omega
    · have hdiv : (abs.toNat / 16777216 % 256 + 768) / 256 = 3 := by omega
      rw [hdiv]
      norm_num
      omega

omit [DecidableEq τ] in
theorem hardclock_wheel (s : State τ) {b : ℕ} (hb : b < BUCKETS) :
    s.timeoutHardclockUpdate.1.timeout_wheel b =
      if (s.ticks + 1).toNat % period b = phase b then [] else s.timeout_wheel b := by
  have hn := (s.ticks + 1).isLt
  unfold State.timeoutHardclockUpdate State.moveBuckets State.moveBucket
  simp only [maskWheel_eq (by decide : 0 < 4), maskWheel_eq (by decide : 1 < 4),
    maskWheel_eq (by decide : 2 < 4), maskWheel_eq (by decide : 3 < 4), WHEELSIZE]
  generalize (s.ticks + 1).toNat = n at hn ⊢
  norm_num at hn ⊢
  rcases level_cases hb with ⟨hl, hp, hq⟩ | ⟨hl, hp, hq⟩ | ⟨hl, hp, hq⟩ | ⟨hl, hp, hq⟩ <;>
    rw [hp, hq] <;> split_ifs <;> simp only [Function.update_apply] <;> split_ifs <;>
    first | rfl | omega

end OpenbsdKernel.Timeout
