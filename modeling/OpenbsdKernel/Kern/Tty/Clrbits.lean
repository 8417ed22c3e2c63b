import OpenbsdKernel.Kern.Tty.Deque

/-!
# The bytes that are written when bits are cleared

`clrbits` with a record of its stores: a store counts as a write also where it leaves the byte as it
was. The masks for the first and the last byte have the effect of clearing bit after bit, and a last
byte without such bits is not touched, as long as the sum of the two `int` arguments does not overflow.
-/
namespace OpenbsdKernel.Tty

/-- A bit map with the indices of the bytes that were written, in their order. -/
structure Stored where
  cp : Mem
  writes : List ℕ

def Stored.store (w : Stored) (i : ℕ) (b : BitVec 8) : Stored := ⟨Function.update w.cp i b, w.writes ++ [i]⟩

def clrbitStored (w : Stored) (i : ℕ) : Stored := w.store (i >>> 3) (w.cp (i >>> 3) &&& ~~~(1#8 <<< (i &&& 7)))

/-- `(1 << n) - 1` as a byte; to shift by a negative number is undefined. -/
def lowMask (n : ℤ) : Option (BitVec 8) := if 0 ≤ n then some ((1#8 <<< n.toNat) - 1#8) else none

/-- `clrbits` with its stores. The sum of the two `int`s wraps around. -/
def clrbitsStored (w : Stored) (off len : ℕ) : Option Stored :=
  if len = 1 then some (clrbitStored w off)
  else do
    let sby := off / 8
    let sbi := off % 8
    let fin := ((off : ℤ) + len).bmod (2 ^ 32)
    let eby := fin.tdiv 8
    let ebi := fin.tmod 8
    if sby = eby then
      let mask ← lowMask (ebi - sbi)
      return w.store sby (w.cp sby &&& ~~~(mask <<< sbi))
    else
      let mask ← lowMask sbi
      let w := w.store sby (w.cp sby &&& mask)
      let w := (List.range' (sby + 1) (eby - (sby + 1)).toNat).foldl (fun w i => w.store i 0#8) w
      let mask ← lowMask ebi
      -- if no mask, eby may be 1 too far; with one, it is not negative
      return if mask ≠ 0#8 then w.store eby.toNat (w.cp eby.toNat &&& ~~~mask) else w

/-- The loop that `clrbits` is an optimized version of. -/
def clrbitLoop (cp : Mem) (off len : ℕ) : Mem := (List.range len).foldl (fun cp i => clrbit cp (off + i)) cp

theorem foldl_store (w : Stored) (is : List ℕ) :
    is.foldl (fun w i => w.store i 0#8) w =
      ⟨is.foldl (fun cp i => Function.update cp i 0#8) w.cp, w.writes ++ is⟩ := by
  induction is generalizing w with
  | nil => simp
  | cons i is ih =>
    rw [List.foldl_cons, ih, List.foldl_cons, Stored.store]
    simp

theorem lowMask_natCast (n : ℕ) : lowMask n = some ((1#8 <<< n) - 1#8) := by
  rw [lowMask, if_pos (Int.natCast_nonneg n), Int.toNat_natCast]

/-- Without overflow the bytes are those of `clrbits`, and every byte that is written has one of the
bits. -/
theorem clrbitsStored_spec (w : Stored) {off len : ℕ} (hlen : 1 ≤ len) (hint : off + len < 2 ^ 31) :
    ∃ is, clrbitsStored w off len = some ⟨clrbits w.cp off len, w.writes ++ is⟩ ∧
      ∀ b ∈ is, ∃ j, off ≤ j ∧ j < off + len ∧ j / 8 = b := by
  have hfin : ((off : ℤ) + len).bmod (2 ^ 32) = ((off + len : ℕ) : ℤ) := by
    rw [Int.bmod_eq_of_le (by omega) (by omega), Nat.cast_add]
  have hdiv : ((off + len : ℕ) : ℤ).tdiv 8 = (((off + len) / 8 : ℕ) : ℤ) := rfl
  have hmod : ((off + len : ℕ) : ℤ).tmod 8 = (((off + len) % 8 : ℕ) : ℤ) := rfl
  rw [clrbitsStored, clrbits]
  dsimp only
  rw [hfin, hdiv, hmod]
  by_cases hone : len = 1
  · refine ⟨[off / 8], ?_, fun b hb => ⟨off, le_rfl, by omega, (List.mem_singleton.1 hb).symm⟩⟩
    rw [if_pos hone, if_pos hone, clrbitStored, clrbit, shiftRight_three]
    rfl
  rw [if_neg hone, if_neg hone]
  by_cases hsame : off / 8 = (off + len) / 8
  · have hcast : (((off + len) % 8 : ℕ) : ℤ) - (off % 8 : ℕ) = (((off + len) % 8 - off % 8 : ℕ) : ℤ) := by
      omega
    refine ⟨[off / 8], ?_, fun b hb => ⟨off, le_rfl, by omega, (List.mem_singleton.1 hb).symm⟩⟩
    rw [if_pos (congrArg Nat.cast hsame), if_pos hsame, hcast, lowMask_natCast]
    rfl
  have hcast : ((((off + len) / 8 : ℕ) : ℤ) - ((off / 8 : ℕ) + 1)).toNat = (off + len) / 8 - (off / 8 + 1) := by
    omega
  rw [if_neg (fun h => hsame (Nat.cast_injective h)), if_neg hsame, lowMask_natCast, lowMask_natCast, hcast,
    Option.bind_eq_bind, Option.bind_some, foldl_store]
  have hbefore : ∀ b ∈ off / 8 :: List.range' (off / 8 + 1) ((off + len) / 8 - (off / 8 + 1)),
      ∃ j, off ≤ j ∧ j < off + len ∧ j / 8 = b := by
    intro b hb
    rcases List.mem_cons.1 hb with hb | hb
    · exact ⟨off, le_rfl, by omega, hb.symm⟩
    · rw [List.mem_range'_1] at hb
      exact ⟨8 * b, by omega, by omega, by omega⟩
  by_cases hmask : (1#8 <<< ((off + len) % 8)) - 1#8 ≠ 0#8
  · refine ⟨off / 8 :: List.range' (off / 8 + 1) ((off + len) / 8 - (off / 8 + 1)) ++ [(off + len) / 8], ?_,
      fun b hb => ?_⟩
    · rw [Option.bind_some, if_pos hmask, if_pos hmask, Int.toNat_natCast]
      simp [Stored.store]
    · -- the mask is zero when the last byte has none of the bits
      have hpos : (off + len) % 8 ≠ 0 := by
        intro hzero
        rw [hzero] at hmask
        exact hmask (by decide)
      rcases List.mem_append.1 hb with hb | hb
      · exact hbefore b hb
      · rw [List.mem_singleton.1 hb]
        exact ⟨8 * ((off + len) / 8), by omega, by omega, by omega⟩
  · refine ⟨off / 8 :: List.range' (off / 8 + 1) ((off + len) / 8 - (off / 8 + 1)), ?_, hbefore⟩
    rw [Option.bind_some, if_neg hmask, if_neg hmask]
    simp [Stored.store]

theorem isset_clrbitLoop (cp : Mem) (off len j : ℕ) :
    isset (clrbitLoop cp off len) j = (isset cp j && decide (¬(off ≤ j ∧ j < off + len))) := by
  induction len with
  | zero =>
    have hnone : ¬(off ≤ j ∧ j < off + 0) := by omega
    rw [clrbitLoop, List.range_zero, List.foldl_nil, decide_eq_true hnone, Bool.and_true]
  | succ len ih =>
    have hstep : clrbitLoop cp off (len + 1) = clrbit (clrbitLoop cp off len) (off + len) := by
      rw [clrbitLoop, List.range_succ, List.foldl_append]
      rfl
    have hiff : (¬(off ≤ j ∧ j < off + (len + 1))) ↔ ¬(off ≤ j ∧ j < off + len) ∧ j ≠ off + len := by omega
    rw [hstep, isset_clrbit, ih, decide_eq_decide.2 hiff, Bool.decide_and, Bool.and_assoc]

theorem eq_of_isset {a b : Mem} (h : ∀ j, isset a j = isset b j) : a = b := by
  funext i
  apply BitVec.eq_of_getLsbD_eq
  intro k hk
  have hbit := h (8 * i + k)
  rw [isset_eq, isset_eq, show (8 * i + k) / 8 = i by omega, show (8 * i + k) % 8 = k by omega] at hbit
  exact hbit

/-- Where the last bit is below `2 ^ 31 - 1`, `clrbits` leaves what the loop leaves, and writes no byte
that has none of the bits. -/
theorem clrbits_loop (cp : Mem) {off len : ℕ} (hlen : 1 ≤ len) (hint : off + len < 2 ^ 31) :
    ∃ w, clrbitsStored ⟨cp, []⟩ off len = some w ∧ w.cp = clrbitLoop cp off len ∧
      ∀ b ∈ w.writes, ∃ j, off ≤ j ∧ j < off + len ∧ j / 8 = b := by
  obtain ⟨is, hrun, hwrites⟩ := clrbitsStored_spec ⟨cp, []⟩ hlen hint
  refine ⟨_, hrun, eq_of_isset fun j => ?_, hwrites⟩
  rw [isset_clrbits, isset_clrbitLoop]

/-- The bits end with their byte. -/
theorem clrbits_loop_byteEnd :
    ∃ w, clrbitsStored ⟨fun _ => 0xff#8, []⟩ 5 11 = some w ∧ w.cp = clrbitLoop (fun _ => 0xff#8) 5 11 ∧
      ∀ b ∈ w.writes, ∃ j, 5 ≤ j ∧ j < 5 + 11 ∧ j / 8 = b :=
  clrbits_loop _ (by decide) (by decide)

/-- With the last bit at `2 ^ 31 - 1` the sum is negative, and only the first byte is written. -/
theorem clrbits_overflow :
    ∃ w, clrbitsStored ⟨fun _ => 0xff#8, []⟩ 2147483639 9 = some w ∧
      w.cp ≠ clrbitLoop (fun _ => 0xff#8) 2147483639 9 := by
  refine ⟨Stored.store ⟨fun _ => 0xff#8, []⟩ 268435454 0x7f#8, rfl, fun heq => ?_⟩
  have hbit := isset_clrbitLoop (fun _ => 0xff#8) 2147483639 9 2147483640
  have hne : 2147483640 / 8 ≠ 268435454 := by decide
  have hkept : (Stored.store ⟨fun _ => 0xff#8, []⟩ 268435454 0x7f#8).cp (2147483640 / 8) = 0xff#8 := by
    rw [Stored.store]
    exact Function.update_of_ne hne 0x7f#8 _
  rw [← heq, isset_eq, hkept, isset_eq] at hbit
  revert hbit
  decide

end OpenbsdKernel.Tty
