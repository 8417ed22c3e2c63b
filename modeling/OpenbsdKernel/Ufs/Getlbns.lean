import OpenbsdKernel.Sys.Errno
import Mathlib.Data.Nat.Digits.Defs
import Mathlib.Tactic

/-!
# Paths to indirect blocks

`ufs_getlbns` of `ufs/ufs_bmap.c`. An indirect block is named by the level of indirection it belongs
to and the offsets that lead to it from the inode; its logical number is negative. The number of
pointers in a block is so small that no count of blocks overflows.
-/
namespace OpenbsdKernel.Ufs

def NDADDR : ℤ := 12
def NIADDR : ℕ := 3

structure Indir where
  in_lbn : ℤ
  in_off : ℤ
  deriving DecidableEq, Repr

/-- How `ufs_getlbns` ends; the panics are those of `DIAGNOSTIC`. -/
inductive Lbns
  | path (ap : List Indir)
  | efbig
  | panic
  deriving DecidableEq, Repr

/-- The loop that finds the level of indirection: `i`, what is left of `bn`, and `blockcnt`. -/
def levelLoop (n : ℕ) : ℕ → ℤ → ℤ → Option (ℕ × ℤ × ℤ)
  | 0, _, _ => none
  | i + 1, bn, blockcnt =>
    let blockcnt := blockcnt * n
    if bn < blockcnt then some (i + 1, bn, blockcnt) else levelLoop n i (bn - blockcnt) blockcnt

/-- The loop that fills the array, with the rounds it has left, and the `metalbn` it ends with. -/
def pathLoop (n : ℕ) (realbn bn : ℤ) : ℕ → ℤ → ℤ → List Indir × ℤ
  | 0, metalbn, _ => ([], metalbn)
  | rounds + 1, metalbn, blockcnt =>
    if metalbn = realbn then ([], metalbn)
    else
      let blockcnt := blockcnt / n
      let off := bn / blockcnt % n
      let (ap, last) := pathLoop n realbn bn rounds (metalbn - (-1 + off * blockcnt)) blockcnt
      (⟨metalbn, off⟩ :: ap, last)

/-- `ufs_getlbns`; `n` is `MNINDIR`. -/
def ufsGetlbns (n : ℕ) (realbn : ℤ) : Lbns :=
  let bn := if realbn < 0 then -realbn else realbn
  if realbn < 0 ∧ -NDADDR < realbn then .panic
  else if bn < NDADDR then .path []
  else match levelLoop n NIADDR (bn - NDADDR) 1 with
    | none => .efbig
    | some (i, bn, blockcnt) =>
      let depth : ℤ := NIADDR - i
      let metalbn := if 0 ≤ realbn then -(realbn - bn + depth) else -(-realbn - bn + depth)
      let (ap, last) := pathLoop n realbn bn (NIADDR + 1 - i) metalbn blockcnt
      if realbn < 0 ∧ last ≠ realbn then .panic else .path (⟨metalbn, depth⟩ :: ap)

/-- The number with these digits, the highest one first. -/
def value (n : ℕ) (ds : List ℕ) : ℕ := Nat.ofDigits n ds.reverse

/-- The blocks of the levels before the level `L`. -/
def before (n : ℕ) : ℕ → ℕ
  | 0 => 0
  | 1 => 0
  | L + 2 => before n (L + 1) + n ^ (L + 1)

/-- An indirect block, or with all offsets a data block: the level and the offsets from its first block on. -/
structure Block where
  level : ℕ
  offs : List ℕ
  deriving DecidableEq, Repr

/-- The block is one of a file with `n` pointers in a block. -/
structure Block.Valid (n : ℕ) (b : Block) : Prop where
  pos : 1 ≤ b.level
  le : b.level ≤ NIADDR
  length : b.offs.length ≤ b.level
  digits : ∀ d ∈ b.offs, d < n

/-- The first data block that the block leads to, behind the direct blocks. -/
def Block.position (n : ℕ) (b : Block) : ℕ :=
  before n b.level + value n b.offs * n ^ (b.level - b.offs.length)

/-- The logical number: that of the first data block, and one more for each block between. -/
def Block.number (n : ℕ) (b : Block) : ℤ := -(NDADDR + b.position n + (b.level - 1 - b.offs.length))

/-- The path that leads to the block. -/
def Block.path (n : ℕ) (b : Block) : List Indir :=
  ⟨Block.number n ⟨b.level, []⟩, b.level - 1⟩ ::
    (List.range b.offs.length).map fun j => ⟨Block.number n ⟨b.level, b.offs.take j⟩, (b.offs.getD j 0 : ℕ)⟩

section Digits

variable {n : ℕ} {ds : List ℕ} {d : ℕ}

@[simp] theorem value_nil (n : ℕ) : value n [] = 0 := rfl

theorem value_concat (n : ℕ) (ds : List ℕ) (d : ℕ) : value n (ds ++ [d]) = value n ds * n + d := by
  rw [value, value, List.reverse_append, List.reverse_singleton, List.singleton_append, Nat.ofDigits_cons]
  ring

theorem value_append (n : ℕ) (ds es : List ℕ) : value n (ds ++ es) = value n ds * n ^ es.length + value n es := by
  rw [value, value, value, List.reverse_append, Nat.ofDigits_append, List.length_reverse]
  ring

theorem value_lt (hn : 2 < n) (hds : ∀ d ∈ ds, d < n) : value n ds < n ^ ds.length := by
  have hlt := Nat.ofDigits_lt_base_pow_length (b := n) (l := ds.reverse) (by omega) fun d hd => hds d (List.mem_reverse.1 hd)
  rwa [List.length_reverse] at hlt

theorem exists_digits (hn : 2 < n) (L : ℕ) {p : ℕ} (hp : p < n ^ L) :
    ∃ ds, ds.length = L ∧ (∀ d ∈ ds, d < n) ∧ value n ds = p := by
  induction L generalizing p with
  | zero =>
    have hzero : p = 0 := Nat.lt_one_iff.1 hp
    exact ⟨[], rfl, by simp, hzero.symm⟩
  | succ L ih =>
    have hdiv : p / n < n ^ L := by
      rw [Nat.div_lt_iff_lt_mul (by omega), ← pow_succ]
      exact hp
    obtain ⟨ds, hlen, hds, hval⟩ := ih hdiv
    refine ⟨ds ++ [p % n], ?_, ?_, ?_⟩
    · rw [List.length_append, hlen]
      rfl
    · intro d hd
      obtain hd | hd := List.mem_append.1 hd
      · exact hds d hd
      · rw [List.mem_singleton.1 hd]
        exact Nat.mod_lt _ (by omega)
    · rw [value_concat, hval]
      exact Nat.div_add_mod' p n

theorem digits_inj (hn : 2 < n) {es : List ℕ} (hlen : ds.length = es.length) (hds : ∀ d ∈ ds, d < n)
    (hes : ∀ d ∈ es, d < n) (hval : value n ds = value n es) : ds = es := by
  have hrev := Nat.ofDigits_inj_of_len_eq (b := n) (by omega)
    (by rw [List.length_reverse, List.length_reverse, hlen]) (fun d hd => hds d (List.mem_reverse.1 hd))
    (fun d hd => hes d (List.mem_reverse.1 hd)) hval
  exact List.reverse_injective hrev

end Digits

section Paths

variable {n L h x : ℕ} {realbn : ℤ} {ds taken todo : List ℕ} {b : Block}

theorem levelLoop_spec (hpos : 1 ≤ L) (hle : L ≤ NIADDR) {p : ℕ} (hp : p < n ^ L) :
    levelLoop n NIADDR ((before n L + p : ℕ) : ℤ) 1 = some (NIADDR + 1 - L, (p : ℤ), ((n ^ L : ℕ) : ℤ)) := by
  have hsq : n ^ 2 = n * n := sq n
  have hcube : n ^ 3 = n * n * n := by ring
  obtain rfl | rfl | rfl : L = 1 ∨ L = 2 ∨ L = 3 := by
    simp only [NIADDR] at hle
    omega
  · have hlt : (p : ℤ) < n := by exact_mod_cast (pow_one n ▸ hp)
    simp [levelLoop, NIADDR, before, hlt]
  · rw [hsq] at hp
    have hlt : (p : ℤ) < n * n := by exact_mod_cast hp
    have hge : ¬((n : ℤ) + p < n) := by omega
    simp [levelLoop, NIADDR, before, hge, hlt, sq]
  · rw [hcube] at hp
    have hlt : (p : ℤ) < n * n * n := by exact_mod_cast hp
    have hge : ¬((n : ℤ) + n ^ 2 + p < n) := by
      have := sq_nonneg (n : ℤ)
      omega
    have hge' : ¬((n : ℤ) + n ^ 2 + p - n < n * n) := by
      rw [sq]
      omega
    have hrest : (n : ℤ) + n ^ 2 + p - n - n * n = p := by ring
    simp only [levelLoop, NIADDR, before, Nat.cast_add, Nat.cast_pow, zero_add, one_mul, pow_one,
      if_neg hge, if_neg hge', hrest, if_pos hlt]
    rw [show (n : ℤ) * n * n = n ^ 3 by ring]

theorem number_concat (hlen : taken.length + 1 + h = L) (d : ℕ) :
    Block.number n ⟨L, taken⟩ - (-1 + (d : ℤ) * (n ^ h : ℕ)) = Block.number n ⟨L, taken ++ [d]⟩ := by
  have hfirst : L - taken.length = h + 1 := by omega
  have hsecond : L - (taken.length + 1) = h := by omega
  simp only [Block.number, Block.position, List.length_append, List.length_singleton, hfirst, hsecond, value_concat]
  push_cast
  ring

/-- The loop follows the offsets of a block, as long as it does not come to what is looked for. -/
theorem pathLoop_spec (realbn : ℤ) (taken : List ℕ) (hn : 2 < n) (hds : ∀ d ∈ todo, d < n) (hx : x < n ^ h)
    (hlen : taken.length + todo.length + h = L)
    (hne : ∀ j < todo.length, Block.number n ⟨L, taken ++ todo.take j⟩ ≠ realbn) :
    pathLoop n realbn ((value n (taken ++ todo) * n ^ h + x : ℕ) : ℤ) (todo.length + h)
        (Block.number n ⟨L, taken⟩) ((n ^ (todo.length + h) : ℕ) : ℤ) =
      let r := pathLoop n realbn ((value n (taken ++ todo) * n ^ h + x : ℕ) : ℤ) h
        (Block.number n ⟨L, taken ++ todo⟩) ((n ^ h : ℕ) : ℤ)
      ((List.range todo.length).map (fun j => ⟨Block.number n ⟨L, taken ++ todo.take j⟩, (todo.getD j 0 : ℕ)⟩) ++ r.1,
        r.2) := by
  induction todo generalizing taken with
  | nil => simp
  | cons d todo ih =>
    have hd : d < n := hds d List.mem_cons_self
    have htodo : ∀ e ∈ todo, e < n := fun e he => hds e (List.mem_cons_of_mem _ he)
    set e := todo.length + h with he
    set bn := value n (taken ++ d :: todo) * n ^ h + x with hbn
    have hrounds : (d :: todo).length + h = e + 1 := by
      rw [List.length_cons]
      omega
    -- the digits from `d` on, below a power of the base
    have hsplit : bn = (value n taken * n + d) * n ^ e + (value n todo * n ^ h + x) := by
      have happend : taken ++ d :: todo = (taken ++ [d]) ++ todo := by simp
      rw [hbn, happend, value_append, value_concat, he, pow_add]
      ring
    have hrest : value n todo * n ^ h + x < n ^ e := by
      have hval := value_lt hn htodo
      calc value n todo * n ^ h + x < value n todo * n ^ h + n ^ h := by omega
        _ = (value n todo + 1) * n ^ h := by ring
        _ ≤ n ^ todo.length * n ^ h := Nat.mul_le_mul_right _ hval
        _ = n ^ e := by rw [he, pow_add]
    have hpow : 0 < n ^ e := Nat.pow_pos (by omega)
    have hoff : bn / n ^ e % n = d := by
      rw [hsplit, Nat.add_comm, Nat.add_mul_div_right _ _ hpow, Nat.div_eq_of_lt hrest, Nat.zero_add,
        Nat.add_comm, Nat.add_mul_mod_self_right, Nat.mod_eq_of_lt hd]
    have hoff' : ((bn : ℕ) : ℤ) / ((n ^ e : ℕ) : ℤ) % (n : ℤ) = (d : ℕ) := by
      rw [← hoff]
      push_cast
      rfl
    have hblockcnt : ((n ^ (e + 1) : ℕ) : ℤ) / (n : ℤ) = ((n ^ e : ℕ) : ℤ) := by
      rw [pow_succ, Nat.cast_mul]
      exact Int.mul_ediv_cancel _ (by omega)
    have hhere : ¬Block.number n ⟨L, taken⟩ = realbn := by
      have := hne 0 (Nat.succ_pos _)
      rwa [List.take_zero, List.append_nil] at this
    have happend : (taken ++ [d]) ++ todo = taken ++ d :: todo := by simp
    have hlen' : (taken ++ [d]).length + todo.length + h = L := by
      rw [List.length_append, List.length_singleton]
      rw [List.length_cons] at hlen
      omega
    have hne' : ∀ j < todo.length, Block.number n ⟨L, taken ++ [d] ++ todo.take j⟩ ≠ realbn := by
      intro j hj
      have hnext := hne (j + 1) (Nat.succ_lt_succ hj)
      rwa [List.take_succ_cons, List.append_cons] at hnext
    have hih := ih (taken ++ [d]) htodo hlen' hne'
    rw [happend, ← hbn] at hih
    rw [hrounds, pathLoop, if_neg hhere]
    simp only [hblockcnt, hoff']
    rw [number_concat (by rw [List.length_cons] at hlen; omega), hih]
    simp only [List.length_cons, List.range_succ_eq_map, List.map_cons, List.map_map, List.take_zero, List.append_nil,
      List.getD_cons_zero, List.cons_append, Prod.mk.injEq, and_true, List.cons.injEq, true_and]
    congr 1
    apply List.map_congr_left
    intro j _
    simp

/-- The block is one of pointers. -/
def Block.Indirect (b : Block) : Prop := b.offs.length < b.level

theorem Block.Valid.place_lt (hb : b.Valid n) (hn : 2 < n) (hind : b.Indirect) :
    value n b.offs * n ^ (b.level - b.offs.length) + (b.level - b.offs.length - 1) < n ^ b.level := by
  have hlt : b.offs.length < b.level := hind
  have hle := hb.le
  simp only [NIADDR] at hle
  set h := b.level - b.offs.length with hh
  have hval := value_lt hn hb.digits
  have hpow : n ≤ n ^ h := Nat.le_self_pow (by omega) n
  calc value n b.offs * n ^ h + (h - 1) < value n b.offs * n ^ h + n ^ h := by omega
    _ = (value n b.offs + 1) * n ^ h := by ring
    _ ≤ n ^ b.offs.length * n ^ h := Nat.mul_le_mul_right _ hval
    _ = n ^ b.level := by rw [← pow_add, hh, Nat.add_sub_cancel' hlt.le]

theorem Block.number_eq (hind : b.Indirect) : b.number n = -(NDADDR + (before n b.level +
    (value n b.offs * n ^ (b.level - b.offs.length) + (b.level - b.offs.length - 1)) : ℕ)) := by
  have hlt : b.offs.length < b.level := hind
  have hsub : ((b.level - b.offs.length - 1 : ℕ) : ℤ) = b.level - 1 - b.offs.length := by omega
  rw [Block.number, Block.position]
  push_cast
  rw [hsub]
  ring

theorem before_mod (L : ℕ) : before n L % n = 0 := by
  induction L with
  | zero => rfl
  | succ L ih =>
    cases L with
    | zero => rfl
    | succ L => rw [before, Nat.add_mod, ih, pow_succ, Nat.mul_mod_left, Nat.zero_add, Nat.zero_mod]

theorem before_succ (hpos : 1 ≤ L) : before n (L + 1) = before n L + n ^ L := by
  obtain ⟨k, rfl⟩ := Nat.exists_eq_add_of_le' hpos
  rfl

theorem before_mono {L' : ℕ} (hle : L ≤ L') : before n L ≤ before n L' := by
  induction hle with
  | refl => exact le_rfl
  | @step m hm ih =>
    apply ih.trans
    cases m with
    | zero => exact le_rfl
    | succ m => exact Nat.le_add_right _ _

theorem Block.number_inj (hn : 2 < n) {b' : Block} (hb : b.Valid n) (hb' : b'.Valid n) (hind : b.Indirect)
    (hind' : b'.Indirect) (heq : b.number n = b'.number n) : b = b' := by
  have hplace := hb.place_lt hn hind
  have hplace' := hb'.place_lt hn hind'
  rw [Block.number_eq hind, Block.number_eq hind'] at heq
  have hlt : b.offs.length < b.level := hind
  have hlt' : b'.offs.length < b'.level := hind'
  have hle := hb.le
  have hle' := hb'.le
  simp only [NIADDR] at hle hle'
  obtain ⟨L, ds⟩ := b
  obtain ⟨L', ds'⟩ := b'
  simp only at *
  set h := L - ds.length with hh
  set h' := L' - ds'.length with hh'
  have hsum : before n L + (value n ds * n ^ h + (h - 1)) = before n L' + (value n ds' * n ^ h' + (h' - 1)) := by
    omega
  -- how many blocks are between is what is left of the number modulo `n`
  have hmod (L h v : ℕ) (hpos : 1 ≤ h) (hsmall : h ≤ 3) : (before n L + (v * n ^ h + (h - 1))) % n = h - 1 := by
    have hdvd : n ∣ v * n ^ h := Dvd.dvd.mul_left (dvd_pow_self n (by omega)) v
    rw [Nat.add_mod, before_mod, Nat.zero_add, Nat.mod_mod, Nat.add_mod, Nat.mod_eq_zero_of_dvd hdvd, Nat.zero_add,
      Nat.mod_mod, Nat.mod_eq_of_lt (by omega)]
  have hheight : h = h' := by
    have h1 := hmod L h (value n ds) (by omega) (by omega)
    have h2 := hmod L' h' (value n ds') (by omega) (by omega)
    rw [hsum, h2] at h1
    omega
  have hlevel : L = L' := by
    by_contra hne
    obtain hl | hl := Nat.lt_or_gt_of_ne hne
    · have hnext := before_mono (n := n) (show L + 1 ≤ L' from hl)
      rw [before_succ (show 1 ≤ L from hb.pos)] at hnext
      omega
    · have hnext := before_mono (n := n) (show L' + 1 ≤ L from hl)
      rw [before_succ (show 1 ≤ L' from hb'.pos)] at hnext
      omega
  subst hlevel
  rw [← hheight] at hsum
  have hval : value n ds = value n ds' := by
    have hpow : 0 < n ^ h := Nat.pow_pos (by omega)
    exact Nat.eq_of_mul_eq_mul_right hpow (by omega)
  have hsame : ds = ds' := digits_inj hn (by omega) hb.digits hb'.digits hval
  rw [hsame]

theorem Block.Valid.take (hb : b.Valid n) (j : ℕ) : Block.Valid n ⟨b.level, b.offs.take j⟩ := by
  refine ⟨hb.pos, hb.le, ?_, fun d hd => hb.digits d (List.mem_of_mem_take hd)⟩
  exact (List.length_take_le' _ _).trans hb.length

theorem Block.path_take {j : ℕ} (hj : j ≤ b.offs.length) :
    Block.path n ⟨b.level, b.offs.take j⟩ = (b.path n).take (j + 1) := by
  rw [Block.path, Block.path, List.take_succ_cons, ← List.map_take, List.take_range, List.length_take,
    Nat.min_eq_left hj]
  congr 1
  apply List.map_congr_left
  intro i hi
  have hi' : i < j := List.mem_range.1 hi
  simp only [List.take_take, Nat.min_eq_left hi'.le, List.getD_eq_getElem?_getD, List.getElem?_take, if_pos hi']

theorem ufsGetlbns_level (realbn : ℤ) (hpos : 1 ≤ L) (hle : L ≤ NIADDR) {p : ℕ} (hp : p < n ^ L)
    (hbn : (if realbn < 0 then -realbn else realbn) = NDADDR + (before n L + p : ℕ)) : ufsGetlbns n realbn =
      let r := pathLoop n realbn p L (Block.number n ⟨L, []⟩) (n ^ L : ℕ)
      if realbn < 0 ∧ r.2 ≠ realbn then .panic else .path (⟨Block.number n ⟨L, []⟩, L - 1⟩ :: r.1) := by
  have hnot : ¬(realbn < 0 ∧ -NDADDR < realbn) := by
    rintro ⟨hneg, hgt⟩
    rw [if_pos hneg] at hbn
    omega
  have hge : ¬NDADDR + (before n L + p : ℕ) < NDADDR := by omega
  have hrounds : NIADDR + 1 - (NIADDR + 1 - L) = L := by omega
  have hdepth : ((NIADDR : ℕ) : ℤ) - (NIADDR + 1 - L : ℕ) = L - 1 := by omega
  have hmeta : (if 0 ≤ realbn then -(realbn - p + ((L : ℤ) - 1)) else -(-realbn - p + ((L : ℤ) - 1))) =
      Block.number n ⟨L, []⟩ := by
    have hnumber : Block.number n ⟨L, []⟩ = -(NDADDR + before n L + (L - 1)) := by
      simp [Block.number, Block.position]
    rw [hnumber]
    split at hbn
    next hneg =>
      rw [if_neg (by omega)]
      push_cast at hbn
      omega
    next hneg =>
      rw [if_pos (by omega)]
      push_cast at hbn
      omega
  rw [ufsGetlbns]
  simp only [hbn, if_neg hnot, if_neg hge, add_sub_cancel_left, levelLoop_spec hpos hle hp, hrounds, hdepth, hmeta]

theorem ufsGetlbns_data (hn : 2 < n) (hb : b.Valid n) (hlen : b.offs.length = b.level) :
    ufsGetlbns n (NDADDR + b.position n) = .path (b.path n) := by
  have hval := value_lt hn hb.digits
  rw [hlen] at hval
  have hposition : b.position n = before n b.level + value n b.offs := by
    rw [Block.position, hlen, Nat.sub_self, pow_zero, Nat.mul_one]
  have hnonneg : ¬NDADDR + (b.position n : ℤ) < 0 := by
    simp only [NDADDR]
    omega
  have hlevel := ufsGetlbns_level (NDADDR + b.position n) hb.pos hb.le hval
    (by rw [if_neg hnonneg, hposition])
  have hne : ∀ j < b.offs.length, Block.number n ⟨b.level, [] ++ b.offs.take j⟩ ≠ NDADDR + b.position n := by
    intro j hj
    have hind : Block.Indirect ⟨b.level, b.offs.take j⟩ := by
      simp only [Block.Indirect, List.length_take]
      omega
    rw [List.nil_append, Block.number_eq hind]
    simp only [NDADDR]
    omega
  have hloop := pathLoop_spec (x := 0) (h := 0) (L := b.level) (NDADDR + b.position n) [] hn hb.digits (by simp)
    (by rw [List.length_nil]; omega) hne
  simp only [List.nil_append, pow_zero, Nat.mul_one, Nat.add_zero, hlen, pathLoop, List.append_nil] at hloop
  rw [hlevel, hloop]
  simp only [hnonneg, false_and, if_false, Block.path, hlen]

theorem ufsGetlbns_indirect (hn : 2 < n) (hb : b.Valid n) (hind : b.Indirect) :
    ufsGetlbns n (b.number n) = .path (b.path n) := by
  have hlt : b.offs.length < b.level := hind
  have hplace := hb.place_lt hn hind
  have hnumber := Block.number_eq (n := n) hind
  have hneg : b.number n < 0 := by
    rw [hnumber]
    simp only [NDADDR]
    omega
  have hlevel := ufsGetlbns_level (b.number n) hb.pos hb.le hplace (by rw [if_pos hneg, hnumber, neg_neg])
  obtain ⟨h, hh⟩ := Nat.exists_eq_add_of_lt hlt
  have hheight : b.level - b.offs.length = h + 1 := by omega
  have hle := hb.le
  simp only [NIADDR] at hle
  have hx : b.level - b.offs.length - 1 < n ^ (h + 1) := by
    have hpow : n ≤ n ^ (h + 1) := Nat.le_self_pow (by omega) n
    omega
  have hne : ∀ j < b.offs.length, Block.number n ⟨b.level, [] ++ b.offs.take j⟩ ≠ b.number n := by
    intro j hj heq
    have hind' : Block.Indirect ⟨b.level, b.offs.take j⟩ := by
      simp only [Block.Indirect, List.length_take]
      omega
    rw [List.nil_append] at heq
    have hsame := congrArg (fun b => b.offs.length) (Block.number_inj hn (hb.take j) hb hind' hind heq)
    simp only [List.length_take] at hsame
    omega
  have hloop := pathLoop_spec (x := b.level - b.offs.length - 1) (h := h + 1) (L := b.level) (b.number n) [] hn
    hb.digits hx (by rw [List.length_nil]; omega) hne
  have hstop : pathLoop n (b.number n) ((value n b.offs * n ^ (h + 1) + (b.level - b.offs.length - 1) : ℕ) : ℤ) (h + 1)
      (b.number n) ((n ^ (h + 1) : ℕ) : ℤ) = ([], b.number n) := if_pos rfl
  have hrounds : b.offs.length + (h + 1) = b.level := by omega
  simp only [List.nil_append, hstop, List.append_nil, hrounds] at hloop
  rw [hheight] at hlevel
  rw [hheight] at hloop
  rw [hlevel, hloop]
  simp only [ne_eq, not_true_eq_false, and_false, if_false, Block.path]

theorem exists_block (hn : 2 < n) {bn : ℤ} (hlo : NDADDR ≤ bn) (hhi : bn < NDADDR + n + n ^ 2 + n ^ 3) :
    ∃ b : Block, b.Valid n ∧ b.offs.length = b.level ∧ bn = NDADDR + b.position n := by
  obtain ⟨q, rfl⟩ := Int.le.dest hlo
  have hq : q < n + n ^ 2 + n ^ 3 := by
    have : (q : ℤ) < n + n ^ 2 + n ^ 3 := by omega
    exact_mod_cast this
  have hlevel : ∃ L p, 1 ≤ L ∧ L ≤ NIADDR ∧ p < n ^ L ∧ q = before n L + p := by
    by_cases h1 : q < n
    · exact ⟨1, q, le_rfl, by decide, by rwa [pow_one], (Nat.zero_add q).symm⟩
    · by_cases h2 : q < n + n ^ 2
      · refine ⟨2, q - n, by decide, by decide, by omega, ?_⟩
        simp only [before, pow_one, Nat.zero_add]
        omega
      · refine ⟨3, q - (n + n ^ 2), by decide, le_rfl, by omega, ?_⟩
        simp only [before, pow_one, Nat.zero_add, Nat.reduceAdd]
        omega
  obtain ⟨L, p, hpos, hle, hp, rfl⟩ := hlevel
  obtain ⟨ds, hlen, hds, rfl⟩ := exists_digits hn L hp
  refine ⟨⟨L, ds⟩, ⟨hpos, hle, hlen.le, hds⟩, hlen, ?_⟩
  rw [Block.position, hlen, Nat.sub_self, pow_zero, Nat.mul_one]

/-- The path to a data block has the digits of its position as offsets. Each indirect block on it is
found under its own number, by the path before it, and different indirect blocks have different
negative numbers. -/
theorem ufsGetlbns_paths (hn : 2 < n) :
    (∀ bn : ℤ, NDADDR ≤ bn → bn < NDADDR + n + n ^ 2 + n ^ 3 →
      ∃ b : Block, b.Valid n ∧ b.offs.length = b.level ∧ bn = NDADDR + b.position n ∧
        ufsGetlbns n bn = .path (b.path n) ∧
        ∀ k x, 1 ≤ k → (b.path n)[k]? = some x → ufsGetlbns n x.in_lbn = .path ((b.path n).take k)) ∧
    ∀ b : Block, b.Valid n → b.Indirect → b.number n < 0 ∧ ufsGetlbns n (b.number n) = .path (b.path n) ∧
      ∀ b' : Block, b'.Valid n → b'.Indirect → b.number n = b'.number n → b = b' := by
  constructor
  · intro bn hlo hhi
    obtain ⟨b, hb, hlen, hbn⟩ := exists_block hn hlo hhi
    refine ⟨b, hb, hlen, hbn, ?_, fun k x hk hx => ?_⟩
    · rw [hbn]
      exact ufsGetlbns_data hn hb hlen
    · obtain ⟨j, rfl⟩ := Nat.exists_eq_add_of_le' hk
      rw [Block.path, List.getElem?_cons_succ, List.getElem?_map] at hx
      obtain ⟨i, hi, rfl⟩ := Option.map_eq_some_iff.1 hx
      obtain ⟨hj, rfl⟩ := List.getElem?_eq_some_iff.1 hi
      rw [List.length_range] at hj
      have hind : Block.Indirect ⟨b.level, b.offs.take j⟩ := by
        simp only [Block.Indirect, List.length_take]
        omega
      rw [List.getElem_range, ← Block.path_take hj.le]
      exact ufsGetlbns_indirect hn (hb.take j) hind
  · intro b hb hind
    refine ⟨?_, ufsGetlbns_indirect hn hb hind, fun b' hb' hind' heq => Block.number_inj hn hb hb' hind hind' heq⟩
    rw [Block.number_eq hind]
    simp only [NDADDR]
    omega

theorem ufsGetlbns_paths_three :
    (∀ bn : ℤ, NDADDR ≤ bn → bn < NDADDR + (3 : ℕ) + (3 : ℕ) ^ 2 + (3 : ℕ) ^ 3 →
      ∃ b : Block, b.Valid 3 ∧ b.offs.length = b.level ∧ bn = NDADDR + b.position 3 ∧
        ufsGetlbns 3 bn = .path (b.path 3) ∧
        ∀ k x, 1 ≤ k → (b.path 3)[k]? = some x → ufsGetlbns 3 x.in_lbn = .path ((b.path 3).take k)) ∧
    ∀ b : Block, b.Valid 3 → b.Indirect → b.number 3 < 0 ∧ ufsGetlbns 3 (b.number 3) = .path (b.path 3) ∧
      ∀ b' : Block, b'.Valid 3 → b'.Indirect → b.number 3 = b'.number 3 → b = b' :=
  ufsGetlbns_paths (by decide)

example : ufsGetlbns 3 (NDADDR + 3 + 9 + 5) = .path [⟨-26, 2⟩, ⟨-26, 0⟩, ⟨-25, 1⟩, ⟨-27, 2⟩] := by decide

end Paths

end OpenbsdKernel.Ufs
