import Mathlib.Data.Finset.Basic
import Mathlib.Tactic
import OpenbsdKernel.Lib.Loop

/-!
# Random IP identifiers

`netinet/ip_id.c`: a shuffled table of all identifiers is read round and round, and what is
read goes back into the previous half of the ring. The draws of `arc4random_uniform` and
`arc4random_buf` are inputs.
-/
namespace OpenbsdKernel.IpId

/-- `ip_shuffle`. -/
abbrev Shuffle : Type := BitVec 16 → BitVec 16

/-- The body of the initialisation; `uniform i` is `arc4random_uniform(i + 1)`. -/
def shuffleStep (uniform : ∀ i : ℕ, Fin (i + 1)) (ip_shuffle : Shuffle) (i : ℕ) : Shuffle :=
  let i2 := BitVec.ofNat 16 (uniform i)
  let ip_shuffle := Function.update ip_shuffle (BitVec.ofNat 16 i) (ip_shuffle i2)
  Function.update ip_shuffle i2 (BitVec.ofNat 16 i)

/-- The initialisation of the table. -/
@[irreducible] def shuffleInit (uniform : ∀ i : ℕ, Fin (i + 1)) (ip_shuffle : Shuffle) : Shuffle :=
  (List.range 65536).foldl (shuffleStep uniform) ip_shuffle

/-- The static variables, with the number of draws made so far. -/
structure State where
  ip_shuffle : Shuffle
  isindex : BitVec 32
  ipid_initialized : Bool
  drawn : ℕ

def swapIndex (isindex : BitVec 32) (si : BitVec 16) : BitVec 16 :=
  ((isindex - (si &&& 0x7fff#16).setWidth 32) &&& 0xffff#32).setWidth 16

def State.entry (s : State) : BitVec 16 :=
  s.ip_shuffle ((s.isindex &&& 0xffff#32).setWidth 16)

def State.pass (s : State) (si : BitVec 16) : State :=
  let i := (s.isindex &&& 0xffff#32).setWidth 16
  let i2 := swapIndex s.isindex si
  let r := s.ip_shuffle i
  let ip_shuffle := Function.update s.ip_shuffle i (s.ip_shuffle i2)
  { s with
    ip_shuffle := Function.update ip_shuffle i2 r
    isindex := s.isindex + 1#32
    drawn := s.drawn + 1 }

def randomidStep (draws : ℕ → BitVec 16) (s : State) :
    Loop.Step State (State × BitVec 16) Empty :=
  if s.entry = 0#16 then .next (s.pass (draws s.drawn))
  else .done (s.pass (draws s.drawn), s.entry)

/-- The test for the first call. -/
def initialized (uniform : ∀ i : ℕ, Fin (i + 1)) (s : State) : State :=
  if s.ipid_initialized then s
  else { s with ipid_initialized := true, ip_shuffle := shuffleInit uniform s.ip_shuffle }

/-- `ip_randomid`; two passes are enough. -/
def ipRandomid (uniform : ∀ i : ℕ, Fin (i + 1)) (draws : ℕ → BitVec 16) (s : State) :
    State × BitVec 16 :=
  match Loop.run (randomidStep draws) 2 (initialized uniform s) with
  | .returned r _ => r
  | _ => (s, 0#16)

/-- The state before call number `n`. -/
def before (uniform : ∀ i : ℕ, Fin (i + 1)) (draws : ℕ → BitVec 16) : ℕ → State
  | 0 => ⟨fun _ => 0#16, 0#32, false, 0⟩
  | n + 1 => (ipRandomid uniform draws (before uniform draws n)).1

/-- What call number `n` returns. -/
def idOf (uniform : ∀ i : ℕ, Fin (i + 1)) (draws : ℕ → BitVec 16) (n : ℕ) : BitVec 16 :=
  (ipRandomid uniform draws (before uniform draws n)).2

/-- The first `n` cells hold the numbers below `n`, each once. -/
def Shuffled (sh : Shuffle) (n : ℕ) : Prop :=
  (∀ a : BitVec 16, a.toNat < n → (sh a).toNat < n) ∧
    ∀ a b : BitVec 16, a.toNat < n → b.toNat < n → sh a = sh b → a = b

theorem shuffleStep_shuffled (uniform : ∀ i : ℕ, Fin (i + 1)) {sh : Shuffle} {n : ℕ}
    (h : Shuffled sh n) (hn : n < 65536) : Shuffled (shuffleStep uniform sh n) (n + 1) := by
  have hi2 : (BitVec.ofNat 16 (uniform n)).toNat = uniform n := by
    have := (uniform n).isLt
    rw [BitVec.toNat_ofNat]
    omega
  have hi : (BitVec.ofNat 16 n).toNat = n := by
    rw [BitVec.toNat_ofNat]
    omega
  have hu := (uniform n).isLt
  set i2 := BitVec.ofNat 16 (uniform n) with hi2_def
  set i := BitVec.ofNat 16 n with hi_def
  -- the cell of `i2` gets the new number, the last cell the old content of `i2`
  have hcell : ∀ a, shuffleStep uniform sh n a =
      if a = i2 then i else if a = i then sh i2 else sh a := by
    intro a
    simp only [shuffleStep, ← hi2_def, ← hi_def, Function.update_apply]
  have hlt : ∀ a : BitVec 16, a.toNat < n + 1 → a ≠ i → a.toNat < n := by
    intro a ha hne
    by_contra hge
    apply hne
    apply BitVec.eq_of_toNat_eq
    omega
  have hne : ∀ a : BitVec 16, a.toNat < n → sh a ≠ i := by
    intro a ha heq
    have := h.1 a ha
    rw [heq] at this
    omega
  have hi2lt : i2 ≠ i → i2.toNat < n := hlt i2 (by omega)
  constructor
  · intro a ha
    rw [hcell]
    split_ifs with h1 h2
    · omega
    · have := h.1 i2 (hi2lt fun heq => h1 (h2.trans heq.symm))
      omega
    · have := h.1 a (hlt a ha h2)
      omega
  · intro a b ha hb heq
    rw [hcell, hcell] at heq
    split_ifs at heq with ha1 hb1 hb2 ha2 hb1 hb2 hb1 hb2
    · rw [ha1, hb1]
    · exact absurd heq.symm (hne i2 (hi2lt fun h' => hb1 (hb2.trans h'.symm)))
    · exact absurd heq.symm (hne b (hlt b hb hb2))
    · exact absurd heq (hne i2 (hi2lt fun h' => ha1 (ha2.trans h'.symm)))
    · rw [ha2, hb2]
    · have hlow := hi2lt fun h' => ha1 (ha2.trans h'.symm)
      exact absurd (h.2 i2 b hlow (hlt b hb hb2) heq).symm hb1
    · exact absurd heq (hne a (hlt a ha ha2))
    · have hlow := hi2lt fun h' => hb1 (hb2.trans h'.symm)
      exact absurd (h.2 a i2 (hlt a ha ha2) hlow heq) ha1
    · exact h.2 a b (hlt a ha ha2) (hlt b hb hb2) heq

theorem shuffleInit_injective (uniform : ∀ i : ℕ, Fin (i + 1)) (sh : Shuffle) :
    Function.Injective (shuffleInit uniform sh) := by
  have hfold : ∀ n ≤ 65536, Shuffled ((List.range n).foldl (shuffleStep uniform) sh) n := by
    intro n
    induction n with
    | zero =>
      intro _
      constructor
      · intro a ha
        omega
      · intro a b ha
        omega
    | succ n ih =>
      intro hn
      rw [List.range_succ, List.foldl_append]
      exact shuffleStep_shuffled uniform (ih (by omega)) (by omega)
  intro a b h
  unfold shuffleInit at h
  exact (hfold 65536 le_rfl).2 a b a.isLt b.isLt h

theorem index_toNat (k : ℕ) :
    ((BitVec.ofNat 32 k &&& 0xffff#32).setWidth 16).toNat = k % 65536 := by
  have hmask : ∀ y : ℕ, y &&& 65535 = y % 2 ^ 16 := fun y => Nat.and_two_pow_sub_one_eq_mod y 16
  rw [BitVec.toNat_setWidth, BitVec.toNat_and, BitVec.toNat_ofNat]
  change (k % 2 ^ 32 &&& 65535) % 2 ^ 16 = _
  rw [hmask]
  omega

theorem swapIndex_toNat (k : ℕ) (si : BitVec 16) :
    ∃ d < 32768, (swapIndex (BitVec.ofNat 32 k) si).toNat = (k + (65536 - d)) % 65536 := by
  have hmask : ∀ y : ℕ, y &&& 65535 = y % 2 ^ 16 := fun y => Nat.and_two_pow_sub_one_eq_mod y 16
  have hd : ((si &&& 0x7fff#16).setWidth 32).toNat < 32768 := by
    have hle : (si &&& 0x7fff#16).toNat ≤ 32767 := by
      rw [BitVec.toNat_and]
      exact Nat.and_le_right
    rw [BitVec.toNat_setWidth]
    omega
  refine ⟨_, hd, ?_⟩
  rw [swapIndex, BitVec.toNat_setWidth, BitVec.toNat_and, BitVec.toNat_sub, BitVec.toNat_ofNat]
  change ((2 ^ 32 - ((si &&& 0x7fff#16).setWidth 32).toNat + k % 2 ^ 32) % 2 ^ 32 &&& 65535) % 2 ^ 16 = _
  rw [hmask]
  omega

/-- The state after `n` passes. -/
def passes (draws : ℕ → BitVec 16) (s : State) : ℕ → State
  | 0 => s
  | n + 1 => (passes draws s n).pass (draws (passes draws s n).drawn)

structure Ready (s : State) : Prop where
  injective : Function.Injective s.ip_shuffle
  isindex : s.isindex = 0#32
  drawn : s.drawn = 0
  initialized : s.ipid_initialized = true

variable (draws : ℕ → BitVec 16) {s : State}

theorem passes_counts (h : Ready s) (n : ℕ) :
    (passes draws s n).isindex = BitVec.ofNat 32 n ∧ (passes draws s n).drawn = n ∧
      (passes draws s n).ipid_initialized = true := by
  induction n with
  | zero => exact ⟨h.isindex, h.drawn, h.initialized⟩
  | succ n ih =>
    obtain ⟨hi, hd, hinit⟩ := ih
    refine ⟨?_, congrArg (· + 1) hd, hinit⟩
    change (passes draws s n).isindex + 1#32 = _
    rw [hi, BitVec.ofNat_add]

/-- A pass exchanges two cells, of which the first is that of the running index and the
second at most 32767 cells before it. -/
theorem passes_swap (h : Ready s) (n : ℕ) :
    ∃ i i2 : BitVec 16, i.toNat = n % 65536 ∧ (∃ d < 32768, i2.toNat = (n + (65536 - d)) % 65536) ∧
      (passes draws s n).entry = (passes draws s n).ip_shuffle i ∧
      (passes draws s (n + 1)).ip_shuffle = (passes draws s n).ip_shuffle ∘ Equiv.swap i i2 := by
  obtain ⟨hindex, -, -⟩ := passes_counts draws h n
  set t := passes draws s n with ht
  refine ⟨(t.isindex &&& 0xffff#32).setWidth 16, swapIndex t.isindex (draws t.drawn), ?_, ?_, rfl, ?_⟩
  · rw [hindex]
    exact index_toNat n
  · rw [hindex]
    exact swapIndex_toNat n _
  · funext p
    change (t.pass (draws t.drawn)).ip_shuffle p = _
    simp only [State.pass, Function.comp_apply, Equiv.swap_apply_def, Function.update_apply]
    split_ifs with h1 h2 h3
    · rw [← h1, h2]
    · rfl
    · rfl
    · rfl

theorem passes_injective (h : Ready s) (n : ℕ) :
    Function.Injective (passes draws s n).ip_shuffle := by
  induction n with
  | zero => exact h.injective
  | succ n ih =>
    obtain ⟨i, i2, -, -, -, hswap⟩ := passes_swap draws h n
    rw [hswap]
    exact ih.comp (Equiv.injective _)

/-- An entry that has been read lies in a cell that will not be read again before 32769
passes are over. -/
theorem passes_distance (h : Ready s) {k n : ℕ} (hk : k < n) {p : BitVec 16}
    (hp : (passes draws s n).ip_shuffle p = (passes draws s k).entry) {m : ℕ} (hm : n ≤ m)
    (hmod : m % 65536 = p.toNat) : k + 32769 ≤ m := by
  induction n generalizing p m with
  | zero => omega
  | succ n ih =>
    obtain ⟨i, i2, hi, ⟨d, hd, hi2⟩, hentry, hswap⟩ := passes_swap draws h n
    have hinj := passes_injective draws h n
    rw [hswap, Function.comp_apply] at hp
    by_cases hpi : p = i
    · -- the cell just read is not read for a whole round
      subst hpi
      omega
    by_cases hpi2 : p = i2
    · subst hpi2
      rw [Equiv.swap_apply_right] at hp
      rcases Nat.lt_succ_iff_lt_or_eq.mp hk with hlt | rfl
      · have := ih hlt hp (Nat.le_refl n) hi.symm
        omega
      · omega
    · rw [Equiv.swap_apply_of_ne_of_ne hpi hpi2] at hp
      rcases Nat.lt_succ_iff_lt_or_eq.mp hk with hlt | rfl
      · exact ih hlt hp (by omega) hmod
      · exact absurd (hinj (hp.trans hentry)) hpi

theorem entry_distance (h : Ready s) {k l : ℕ} (hlt : k < l)
    (heq : (passes draws s k).entry = (passes draws s l).entry) : k + 32769 ≤ l := by
  obtain ⟨i, i2, hi, -, hentry, -⟩ := passes_swap draws h l
  exact passes_distance draws h hlt (hentry.symm.trans heq.symm) (Nat.le_refl l) hi.symm

theorem randomid_passes (h : Ready s) (k : ℕ) :
    ∃ j, (j = 1 ∨ j = 2 ∧ (passes draws s k).entry = 0#16) ∧
      (passes draws s (k + j - 1)).entry ≠ 0#16 ∧
      ∀ fuel, Loop.run (randomidStep draws) (fuel + 2) (passes draws s k) =
        .returned (passes draws s (k + j), (passes draws s (k + j - 1)).entry) j := by
  have hstep : ∀ n, randomidStep draws (passes draws s n) =
      if (passes draws s n).entry = 0#16 then .next (passes draws s (n + 1))
      else .done (passes draws s (n + 1), (passes draws s n).entry) := fun n => rfl
  by_cases hzero : (passes draws s k).entry = 0#16
  · have hnext : (passes draws s (k + 1)).entry ≠ 0#16 := by
      intro hagain
      have := entry_distance draws h (Nat.lt_succ_self k) (hzero.trans hagain.symm)
      omega
    refine ⟨2, Or.inr ⟨rfl, hzero⟩, hnext, fun fuel => ?_⟩
    rw [Loop.run_next _ ((hstep k).trans (if_pos hzero)),
      Loop.run_done _ ((hstep (k + 1)).trans (if_neg hnext))]
    rfl
  · refine ⟨1, Or.inl rfl, hzero, fun fuel => ?_⟩
    exact Loop.run_done _ ((hstep k).trans (if_neg hzero)) _

variable (uniform : ∀ i : ℕ, Fin (i + 1))

def first : State := initialized uniform (before uniform draws 0)

theorem first_eq : first draws uniform = ⟨shuffleInit uniform fun _ => 0#16, 0#32, true, 0⟩ := by
  unfold first initialized
  exact if_neg Bool.false_ne_true

theorem ready_first : Ready (first draws uniform) := by
  rw [first_eq]
  exact ⟨shuffleInit_injective uniform _, rfl, rfl, rfl⟩

theorem initialized_before (n : ℕ) :
    initialized uniform (before uniform draws n) =
      passes draws (first draws uniform) (before uniform draws n).drawn := by
  induction n with
  | zero => rfl
  | succ n ih =>
    obtain ⟨j, -, -, hrun⟩ := randomid_passes draws (ready_first draws uniform)
      (before uniform draws n).drawn
    have hcall : before uniform draws (n + 1) =
        passes draws (first draws uniform) ((before uniform draws n).drawn + j) := by
      change (ipRandomid uniform draws (before uniform draws n)).1 = _
      unfold ipRandomid
      rw [ih, hrun 0]
    obtain ⟨-, hdrawn, hinit⟩ := passes_counts draws (ready_first draws uniform)
      ((before uniform draws n).drawn + j)
    rw [hcall, hdrawn, initialized, if_pos hinit]

theorem ipRandomid_spec (n : ℕ) :
    ∃ j, (j = 1 ∨ j = 2 ∧
        (passes draws (first draws uniform) (before uniform draws n).drawn).entry = 0#16) ∧
      (before uniform draws (n + 1)).drawn = (before uniform draws n).drawn + j ∧
      idOf uniform draws n =
        (passes draws (first draws uniform) ((before uniform draws (n + 1)).drawn - 1)).entry ∧
      idOf uniform draws n ≠ 0#16 ∧
      before uniform draws (n + 1) =
        passes draws (first draws uniform) (before uniform draws (n + 1)).drawn := by
  obtain ⟨j, hj, hne, hrun⟩ := randomid_passes draws (ready_first draws uniform)
    (before uniform draws n).drawn
  have hcall : ipRandomid uniform draws (before uniform draws n) =
      (passes draws (first draws uniform) ((before uniform draws n).drawn + j),
        (passes draws (first draws uniform) ((before uniform draws n).drawn + j - 1)).entry) := by
    unfold ipRandomid
    rw [initialized_before, hrun 0]
  have hbefore : before uniform draws (n + 1) =
      passes draws (first draws uniform) ((before uniform draws n).drawn + j) :=
    congrArg Prod.fst hcall
  have hdrawn : (before uniform draws (n + 1)).drawn = (before uniform draws n).drawn + j := by
    rw [hbefore]
    exact (passes_counts draws (ready_first draws uniform) _).2.1
  refine ⟨j, hj, hdrawn, ?_, ?_, ?_⟩
  · rw [idOf, hcall, hdrawn]
  · rw [idOf, hcall]
    exact hne
  · rw [hdrawn]
    exact hbefore

theorem drawn_le (n : ℕ) {j : ℕ} (hj : j ≤ 32768) :
    (before uniform draws n).drawn + j ≤ (before uniform draws (n + j)).drawn ∧
      (before uniform draws (n + j)).drawn ≤ (before uniform draws n).drawn + j + 1 ∧
      ((before uniform draws (n + j)).drawn = (before uniform draws n).drawn + j + 1 →
        ∃ k, (before uniform draws n).drawn ≤ k ∧ k < (before uniform draws (n + j)).drawn ∧
          (passes draws (first draws uniform) k).entry = 0#16) := by
  induction j with
  | zero =>
    simp only [Nat.add_zero]
    refine ⟨Nat.le_refl _, Nat.le_succ _, fun heq => ?_⟩
    omega
  | succ j ih =>
    obtain ⟨hge, hle, hzero⟩ := ih (by omega)
    obtain ⟨i, hi, hdrawn, -⟩ := ipRandomid_spec draws uniform (n + j)
    rw [Nat.add_assoc] at hdrawn
    rcases hi with rfl | ⟨rfl, hentry⟩
    · refine ⟨by omega, by omega, fun heq => ?_⟩
      obtain ⟨k, h1, h2, h3⟩ := hzero (by omega)
      exact ⟨k, h1, by omega, h3⟩
    · -- an earlier zero in the window would be too close to this one
      have hless : (before uniform draws (n + j)).drawn < (before uniform draws n).drawn + j + 1 := by
        by_contra hfull
        obtain ⟨k, h1, h2, h3⟩ := hzero (by omega)
        have := entry_distance draws (ready_first draws uniform) h2 (h3.trans hentry.symm)
        omega
      exact ⟨by omega, by omega, fun _ => ⟨_, by omega, by omega, hentry⟩⟩

theorem ipRandomid_distance {m n : ℕ} (hlt : m < n)
    (heq : idOf uniform draws m = idOf uniform draws n) : m + 32768 ≤ n := by
  by_contra hnear
  obtain ⟨i, hi, hm, hidm, -⟩ := ipRandomid_spec draws uniform m
  obtain ⟨-, -, -, hidn, -⟩ := ipRandomid_spec draws uniform n
  have hj : n - m ≤ 32768 := by omega
  obtain ⟨hge, hle, -⟩ := drawn_le draws uniform (m + 1) hj
  rw [(by omega : m + 1 + (n - m) = n + 1)] at hge hle
  rw [hidm, hidn] at heq
  have horder : (before uniform draws (m + 1)).drawn - 1 < (before uniform draws (n + 1)).drawn - 1 := by
    omega
  have := entry_distance draws (ready_first draws uniform) horder heq
  omega

/-- For every sequence of draws: the table is a permutation once it has been initialised and
after every call, no call returns 0, every call returns after at most two passes, and equal
identifiers are at least 32768 calls apart. -/
theorem ipRandomid_calls (uniform : ∀ i : ℕ, Fin (i + 1)) (draws : ℕ → BitVec 16) :
    (∀ ip_shuffle, Function.Bijective (shuffleInit uniform ip_shuffle)) ∧
      (∀ n, Function.Bijective (before uniform draws (n + 1)).ip_shuffle) ∧
      (∀ n, ∃ r k, k ≤ 2 ∧ Loop.run (randomidStep draws) 2
        (initialized uniform (before uniform draws n)) = .returned r k) ∧
      (∀ n, idOf uniform draws n ≠ 0#16) ∧
      ∀ m n, m ≠ n → idOf uniform draws m = idOf uniform draws n →
        m + 32768 ≤ n ∨ n + 32768 ≤ m := by
  have hfinite : Finite (BitVec 16) := by
    apply Finite.of_injective BitVec.toFin
    intro x y h
    exact BitVec.eq_of_toNat_eq (congrArg Fin.val h)
  refine ⟨?_, ?_, ?_, ?_, ?_⟩
  · intro sh
    exact Finite.injective_iff_bijective.mp (shuffleInit_injective uniform sh)
  · intro n
    obtain ⟨j, -, -, -, -, hbefore⟩ := ipRandomid_spec draws uniform n
    rw [hbefore]
    exact Finite.injective_iff_bijective.mp (passes_injective draws (ready_first draws uniform) _)
  · intro n
    obtain ⟨j, hj, -, hrun⟩ := randomid_passes draws (ready_first draws uniform)
      (before uniform draws n).drawn
    rw [initialized_before]
    exact ⟨_, j, by omega, hrun 0⟩
  · intro n
    obtain ⟨j, -, -, -, hne, -⟩ := ipRandomid_spec draws uniform n
    exact hne
  · intro m n hne heq
    rcases Nat.lt_or_gt_of_ne hne with hlt | hlt
    · exact Or.inl (ipRandomid_distance draws uniform hlt heq)
    · exact Or.inr (ipRandomid_distance draws uniform hlt heq.symm)

end OpenbsdKernel.IpId
