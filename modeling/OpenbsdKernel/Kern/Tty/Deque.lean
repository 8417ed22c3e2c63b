import OpenbsdKernel.Lib.Bitmap
import OpenbsdKernel.Kern.Tty.Clist

/-!
# Character lists are bounded queues

Every run of the operations on clists with quote maps behaves as on queues of
characters, each with its quote mark, whatever the rings held before.
-/
namespace OpenbsdKernel.Tty

theorem shiftRight_three (i : ℕ) : i >>> 3 = i / 8 := Nat.shiftRight_eq_div_pow i 3

theorem and_seven (i : ℕ) : i &&& 7 = i % 8 := Nat.and_two_pow_sub_one_eq_mod i 3

theorem isset_eq_test (a : Mem) (i : ℕ) : isset a i = Bitmap.test a i := by
  have hlt : i % 8 < 8 := Nat.mod_lt _ (by decide)
  unfold isset Bitmap.test
  rw [shiftRight_three, and_seven, Bool.eq_iff_iff, decide_eq_true_eq]
  exact Bitmap.and_one_shiftLeft_ne_zero hlt

theorem isset_eq (a : Mem) (i : ℕ) : isset a i = (a (i / 8)).getLsbD (i % 8) := isset_eq_test a i

theorem isset_clrbit (a : Mem) (i j : ℕ) : isset (clrbit a i) j = (isset a j && decide (j ≠ i)) := by
  have heq : clrbit a i = Bitmap.clear a i := by
    unfold clrbit Bitmap.clear
    rw [shiftRight_three, and_seven]
  rw [heq, isset_eq_test, isset_eq_test, Bitmap.test_clear (by decide)]

theorem isset_setbit (a : Mem) (i j : ℕ) : isset (setbit a i) j = (isset a j || decide (j = i)) := by
  have heq : setbit a i = Bitmap.set a i := by
    unfold setbit Bitmap.set
    rw [shiftRight_three, and_seven]
  rw [heq, isset_eq_test, isset_eq_test, Bitmap.test_set (by decide)]

/-- The mask of the bits below `e`, and of those from `s` on below `e`. -/
theorem mask_low {e k : ℕ} (he : e < 8) (hk : k < 8) :
    ((1#8 <<< e) - 1#8).getLsbD k = decide (k < e) := by
  have h : ∀ e k : Fin 8, ((1#8 <<< e.val) - 1#8).getLsbD k.val = decide (k.val < e.val) := by decide
  exact h ⟨e, he⟩ ⟨k, hk⟩

theorem mask_between {s e k : ℕ} (hs : s < 8) (he : e < 8) (hk : k < 8) (hse : s ≤ e) :
    (((1#8 <<< (e - s)) - 1#8) <<< s).getLsbD k = decide (s ≤ k ∧ k < e) := by
  have h : ∀ s e k : Fin 8, s ≤ e → (((1#8 <<< (e.val - s.val)) - 1#8) <<< s.val).getLsbD k.val =
      decide (s.val ≤ k.val ∧ k.val < e.val) := by decide +kernel
  exact h ⟨s, hs⟩ ⟨e, he⟩ ⟨k, hk⟩ hse

/-- The loop of `clrbits` over the bytes in the middle. -/
theorem foldl_zero (m : Mem) (s n i : ℕ) :
    (List.range' s n).foldl (fun cp i => Function.update cp i 0#8) m i =
      if s ≤ i ∧ i < s + n then 0#8 else m i := by
  induction n generalizing m s with
  | zero =>
    simp
  | succ n ih =>
    rw [List.range'_succ, List.foldl_cons, ih]
    by_cases hi : i = s
    · subst hi
      simp
    · rw [Function.update_of_ne hi]
      have hiff : (s + 1 ≤ i ∧ i < s + 1 + n) ↔ (s ≤ i ∧ i < s + (n + 1)) := by omega
      simp only [hiff]

/-- The byte-wise version clears the bits from `off` on below `off + len`, and no others. -/
theorem isset_clrbits (cp : Mem) (off len j : ℕ) :
    isset (clrbits cp off len) j = (isset cp j && decide (¬ (off ≤ j ∧ j < off + len))) := by
  have hj : j % 8 < 8 := Nat.mod_lt _ (by decide)
  have hs : off % 8 < 8 := Nat.mod_lt _ (by decide)
  have he : (off + len) % 8 < 8 := Nat.mod_lt _ (by decide)
  simp only [clrbits]
  by_cases hone : len = 1
  · rw [if_pos hone, isset_clrbit]
    have hiff : j ≠ off ↔ ¬ (off ≤ j ∧ j < off + len) := by omega
    simp only [hiff]
  by_cases hsame : off / 8 = (off + len) / 8
  · rw [if_neg hone, if_pos hsame, isset_eq, isset_eq]
    by_cases hb : j / 8 = off / 8
    · rw [hb, Function.update_self, BitVec.getLsbD_and, BitVec.getLsbD_not,
        mask_between hs he hj (by omega)]
      have hiff : (off % 8 ≤ j % 8 ∧ j % 8 < (off + len) % 8) ↔ (off ≤ j ∧ j < off + len) := by
        omega
      simp only [hj, hiff, decide_true, Bool.true_and, decide_not]
    · rw [Function.update_of_ne hb]
      have hout : ¬ (off ≤ j ∧ j < off + len) := by omega
      simp [hout]
  rw [if_neg hone, if_neg hsame]
  -- the last byte, before it is masked or left alone
  generalize hmid : (List.range' (off / 8 + 1) ((off + len) / 8 - (off / 8 + 1))).foldl
    (fun cp i => Function.update cp i 0#8)
    (Function.update cp (off / 8) (cp (off / 8) &&& (1#8 <<< (off % 8) - 1#8))) = mid
  have hmidb : ∀ b, mid b = if off / 8 + 1 ≤ b ∧ b < (off + len) / 8 then 0#8 else
      Function.update cp (off / 8) (cp (off / 8) &&& (1#8 <<< (off % 8) - 1#8)) b := by
    intro b
    rw [← hmid, foldl_zero]
    congr 2
    simp only [eq_iff_iff]
    omega
  have hlast : isset mid j = (isset cp j && decide (¬ (off ≤ j ∧ j / 8 < (off + len) / 8))) := by
    rw [isset_eq, isset_eq, hmidb]
    split_ifs with hb
    · have hin : off ≤ j ∧ j / 8 < (off + len) / 8 := by omega
      simp [hin]
    · by_cases hfirst : j / 8 = off / 8
      · rw [hfirst, Function.update_self, BitVec.getLsbD_and, mask_low hs hj]
        have hiff : j % 8 < off % 8 ↔ ¬ (off ≤ j ∧ off / 8 < (off + len) / 8) := by omega
        simp only [hiff]
      · rw [Function.update_of_ne hfirst]
        have hout : ¬ (off ≤ j ∧ j / 8 < (off + len) / 8) := by omega
        simp [hout]
  by_cases hmask : (1#8 <<< ((off + len) % 8)) - 1#8 ≠ 0#8
  · rw [if_pos hmask]
    by_cases hb : j / 8 = (off + len) / 8
    · rw [isset_eq, hb, Function.update_self, BitVec.getLsbD_and, BitVec.getLsbD_not,
        mask_low he hj, ← hb, ← isset_eq, hlast]
      have hiff : j % 8 < (off + len) % 8 ↔ off ≤ j ∧ j < off + len := by omega
      have hout : ¬ (off ≤ j ∧ j / 8 < (off + len) / 8) := by omega
      simp only [hj, hiff, hout, decide_true, Bool.true_and, decide_not, not_false_eq_true,
        Bool.and_true]
    · rw [isset_eq, Function.update_of_ne hb, ← isset_eq, hlast]
      have hiff : (off ≤ j ∧ j / 8 < (off + len) / 8) ↔ (off ≤ j ∧ j < off + len) := by omega
      simp only [hiff]
  · rw [if_neg hmask, hlast]
    have hzero : (off + len) % 8 = 0 := by
      by_contra hpos
      have hbit := mask_low he (by decide : 0 < 8)
      rw [not_not.mp hmask] at hbit
      simp only [BitVec.getLsbD_zero, Nat.pos_of_ne_zero hpos, decide_true] at hbit
      cases hbit
    have hiff : (off ≤ j ∧ j / 8 < (off + len) / 8) ↔ (off ≤ j ∧ j < off + len) := by omega
    simp only [hiff]

/-- A character of the queue as an `int`. -/
def encode (x : BitVec 8 × Bool) : BitVec 32 :=
  let c := x.1.setWidth 32 &&& 0xff#32
  if x.2 then c ||| TTY_QUOTE else c

/-- The character an `int` stands for. -/
def decode (c : BitVec 32) : BitVec 8 × Bool :=
  ((c &&& 0xff#32).setWidth 8, c &&& TTY_QUOTE ≠ 0#32)

theorem decode_encode (x : BitVec 8 × Bool) : decode (encode x) = x := by
  have h : ∀ (b : BitVec 8) (q : Bool), decode (encode (b, q)) = (b, q) := by decide +kernel
  exact h x.1 x.2

theorem encode_ne (x : BitVec 8 × Bool) : encode x ≠ -1#32 := by
  have h : ∀ (b : BitVec 8) (q : Bool), encode (b, q) ≠ -1#32 := by decide +kernel
  exact h x.1 x.2

namespace Clist

def cells (clp : Clist) (i : ℕ) : BitVec 8 × Bool := (clp.byte i, clp.quoted i)

def queue (clp : Clist) : List (BitVec 8 × Bool) :=
  Ring.view clp.cells clp.c_cn (offset clp.c_cf) clp.c_cc

/-- A ring of `cap` cells with a quote map. -/
structure Alloc (clp : Clist) (cap : ℕ) : Prop where
  cn : clp.c_cn = cap
  ce : clp.c_ce = cap
  cs : ∃ m, clp.c_cs = some m
  cq : ∃ q, clp.c_cq = some q
  cc : clp.c_cc ≤ cap

/-- The pointers delimit the characters, the first of which is at `f`. -/
structure At (clp : Clist) (cap f : ℕ) : Prop extends Alloc clp cap where
  cf : clp.c_cf = some f
  lt : f < cap
  cl : clp.c_cl = some ((f + clp.c_cc) % cap)

/-- The clist holds the queue `q`; an empty one has no pointers. -/
structure Rep (clp : Clist) (cap : ℕ) (q : List (BitVec 8 × Bool)) : Prop where
  alloc : Alloc clp cap
  queue : clp.queue = q
  empty : clp.c_cc = 0 → clp.c_cf = none ∧ clp.c_cl = none
  pos : 0 < clp.c_cc → ∃ f, At clp cap f

variable {clp : Clist} {cap f : ℕ} {q : List (BitVec 8 × Bool)}

theorem Rep.length (h : Rep clp cap q) : q.length = clp.c_cc := by
  rw [← h.queue]
  exact Ring.length_view

theorem At.queue_eq (h : At clp cap f) : clp.queue = Ring.view clp.cells cap f clp.c_cc := by
  rw [queue, h.cn, h.cf]
  rfl

theorem wrap_eq (h : Alloc clp cap) {p : ℕ} (hp : p ≤ cap) : clp.wrap p = p % cap := by
  unfold wrap
  rw [h.ce]
  split_ifs with heq
  · rw [heq, Nat.mod_self]
  · exact (Nat.mod_eq_of_lt (by omega)).symm

theorem rep_clalloc (size : ℕ) : Rep (clalloc size true) size [] where
  alloc := ⟨rfl, rfl, ⟨_, rfl⟩, ⟨_, rfl⟩, Nat.zero_le _⟩
  queue := rfl
  empty := fun _ => ⟨rfl, rfl⟩
  pos := fun h => absurd h (by simp [clalloc])

theorem At.resetEmpty (h : At clp cap f) : Rep clp.resetEmpty cap clp.queue := by
  unfold Clist.resetEmpty
  split_ifs with hzero
  · have hq : clp.queue = [] := by
      rw [h.queue_eq, hzero]
      rfl
    refine ⟨⟨h.cn, h.ce, h.cs, h.cq, h.cc⟩, ?_, fun _ => ⟨rfl, rfl⟩, fun hpos => ?_⟩
    · rw [hq]
      simp [Clist.queue, hzero]
    · exact absurd hpos (by simp [hzero])
  · exact ⟨h.toAlloc, rfl, fun h0 => absurd h0 hzero, fun _ => ⟨f, h⟩⟩

theorem At.append (h : At clp cap f) {cs' cq' : Mem} {m : ℕ}
    (hl : (f + clp.c_cc) % cap + m ≤ cap) (hm : clp.c_cc + m ≤ cap)
    (hout : ∀ i, i < (f + clp.c_cc) % cap ∨ (f + clp.c_cc) % cap + m ≤ i →
      (cs' i, isset cq' i) = clp.cells i) :
    let clp' : Clist :=
      { clp with
        c_cs := some cs'
        c_cq := some cq'
        c_cc := clp.c_cc + m
        c_cl := some (clp.wrap ((f + clp.c_cc) % cap + m)) }
    At clp' cap f ∧ clp'.queue = clp.queue ++
      Ring.segment (fun i => (cs' i, isset cq' i)) ((f + clp.c_cc) % cap) m := by
  intro clp'
  have hat : At clp' cap f := by
    refine ⟨⟨h.cn, h.ce, ⟨cs', rfl⟩, ⟨cq', rfl⟩, hm⟩, h.cf, h.lt, ?_⟩
    change some (clp.wrap _) = some ((f + (clp.c_cc + m)) % cap)
    rw [wrap_eq h.toAlloc hl, Nat.mod_add_mod, Nat.add_assoc]
  constructor
  · exact hat
  · rw [hat.queue_eq, h.queue_eq]
    exact Ring.view_append hl hm hout

theorem At.remove (h : At clp cap f) {cs' cq' : Mem} {m : ℕ} (hf : f + m ≤ cap)
    (hm : m ≤ clp.c_cc) (hout : ∀ i, i < f ∨ f + m ≤ i → (cs' i, isset cq' i) = clp.cells i) :
    let clp' : Clist :=
      { clp with
        c_cs := some cs'
        c_cq := some cq'
        c_cc := clp.c_cc - m
        c_cf := some (clp.wrap (f + m)) }
    At clp' cap ((f + m) % cap) ∧ clp.queue = Ring.segment clp.cells f m ++ clp'.queue := by
  intro clp'
  have hpos : 0 < cap := Nat.lt_of_le_of_lt (Nat.zero_le f) h.lt
  have hcc := h.cc
  have hat : At clp' cap ((f + m) % cap) := by
    refine ⟨⟨h.cn, h.ce, ⟨cs', rfl⟩, ⟨cq', rfl⟩, ?_⟩, ?_, Nat.mod_lt _ hpos, ?_⟩
    · change clp.c_cc - m ≤ cap
      omega
    · change some (clp.wrap (f + m)) = some ((f + m) % cap)
      rw [wrap_eq h.toAlloc hf]
    · change clp.c_cl = some (((f + m) % cap + (clp.c_cc - m)) % cap)
      rw [h.cl, Nat.mod_add_mod, Nat.add_assoc, Nat.add_sub_cancel' hm]
  constructor
  · exact hat
  · rw [hat.queue_eq, h.queue_eq]
    exact Ring.view_remove hf hm h.cc hout

end Clist

end OpenbsdKernel.Tty
