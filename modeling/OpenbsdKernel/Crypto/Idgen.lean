import Mathlib.Data.Set.Function
import Mathlib.Data.Set.Finite.Lemmas
import Mathlib.Tactic
import OpenbsdKernel.Lib.Loop

/-!
# Non-repeating 32-bit identifiers

`crypto/idgen.c`: a Feistel network on 31 bits enumerates the identifiers of an epoch, the
high bit tells adjacent epochs apart. The words of the random generator and the clock are
inputs, one record for each pass of the loop in `idgen32`.
-/
namespace OpenbsdKernel.Idgen

def IDGEN32_ROUNDS : ℕ := 31
def IDGEN32_REKEY_LIMIT : BitVec 32 := 0x60000000#32
def IDGEN32_REKEY_TIME : ℤ := 600

def idgen32Ftable : Array (BitVec 8) :=
  #[
    0xa3, 0xd7, 0x09, 0x83, 0xf8, 0x48, 0xf6, 0xf4, 0xb3, 0x21, 0x15, 0x78, 0x99, 0xb1, 0xaf, 0xf9,
    0xe7, 0x2d, 0x4d, 0x8a, 0xce, 0x4c, 0xca, 0x2e, 0x52, 0x95, 0xd9, 0x1e, 0x4e, 0x38, 0x44, 0x28,
    0x0a, 0xdf, 0x02, 0xa0, 0x17, 0xf1, 0x60, 0x68, 0x12, 0xb7, 0x7a, 0xc3, 0xe9, 0xfa, 0x3d, 0x53,
    0x96, 0x84, 0x6b, 0xba, 0xf2, 0x63, 0x9a, 0x19, 0x7c, 0xae, 0xe5, 0xf5, 0xf7, 0x16, 0x6a, 0xa2,
    0x39, 0xb6, 0x7b, 0x0f, 0xc1, 0x93, 0x81, 0x1b, 0xee, 0xb4, 0x1a, 0xea, 0xd0, 0x91, 0x2f, 0xb8,
    0x55, 0xb9, 0xda, 0x85, 0x3f, 0x41, 0xbf, 0xe0, 0x5a, 0x58, 0x80, 0x5f, 0x66, 0x0b, 0xd8, 0x90,
    0x35, 0xd5, 0xc0, 0xa7, 0x33, 0x06, 0x65, 0x69, 0x45, 0x00, 0x94, 0x56, 0x6d, 0x98, 0x9b, 0x76,
    0x97, 0xfc, 0xb2, 0xc2, 0xb0, 0xfe, 0xdb, 0x20, 0xe1, 0xeb, 0xd6, 0xe4, 0xdd, 0x47, 0x4a, 0x1d,
    0x42, 0xed, 0x9e, 0x6e, 0x49, 0x3c, 0xcd, 0x43, 0x27, 0xd2, 0x07, 0xd4, 0xde, 0xc7, 0x67, 0x18,
    0x89, 0xcb, 0x30, 0x1f, 0x8d, 0xc6, 0x8f, 0xaa, 0xc8, 0x74, 0xdc, 0xc9, 0x5d, 0x5c, 0x31, 0xa4,
    0x70, 0x88, 0x61, 0x2c, 0x9f, 0x0d, 0x2b, 0x87, 0x50, 0x82, 0x54, 0x64, 0x26, 0x7d, 0x03, 0x40,
    0x34, 0x4b, 0x1c, 0x73, 0xd1, 0xc4, 0xfd, 0x3b, 0xcc, 0xfb, 0x7f, 0xab, 0xe6, 0x3e, 0x5b, 0xa5,
    0xad, 0x04, 0x23, 0x9c, 0x14, 0x51, 0x22, 0xf0, 0x29, 0x79, 0x71, 0x7e, 0xff, 0x8c, 0x0e, 0xe2,
    0x0c, 0xef, 0xbc, 0x72, 0x75, 0x6f, 0x37, 0xa1, 0xec, 0xd3, 0x8e, 0x62, 0x8b, 0x86, 0x10, 0xe8,
    0x08, 0x77, 0x11, 0xbe, 0x92, 0x4f, 0x24, 0xc5, 0x32, 0x36, 0x9d, 0xcf, 0xf3, 0xa6, 0xbb, 0xac,
    0x5e, 0x6c, 0xa9, 0x13, 0x57, 0x25, 0xb5, 0xe3, 0xbd, 0xa8, 0x3a, 0x01, 0x05, 0x59, 0x2a, 0x46]

abbrev Key : Type := Fin 32 → BitVec 8

/-- `key[o & (IDGEN32_KEYLEN - 1)]`. -/
def keyByte (key : Key) (o : ℕ) : BitVec 8 := key (Fin.ofNat 32 o)

def idgen32G (key : Key) (k : ℕ) (w : BitVec 16) : BitVec 16 :=
  let o := k * 4
  let g1 := (w >>> 8).setWidth 8
  let g2 := w.setWidth 8
  let g3 := idgen32Ftable.getD (g2 ^^^ keyByte key o).toNat 0 ^^^ g1
  let g4 := idgen32Ftable.getD (g3 ^^^ keyByte key (o + 1)).toNat 0 ^^^ g2
  let g5 := idgen32Ftable.getD (g4 ^^^ keyByte key (o + 2)).toNat 0 ^^^ g3
  let g6 := idgen32Ftable.getD (g5 ^^^ keyByte key (o + 3)).toNat 0 ^^^ g4
  (g5.setWidth 16 <<< 8) ||| g6.setWidth 16

/-- The round that changes `wr`. -/
def roundRight (key : Key) (r : ℕ) (w : BitVec 16 × BitVec 16) : BitVec 16 × BitVec 16 :=
  (w.1, w.2 ^^^ (idgen32G key r w.1 ^^^ BitVec.ofNat 16 r))

/-- The round that changes `wl`. -/
def roundLeft (key : Key) (r : ℕ) (w : BitVec 16 × BitVec 16) : BitVec 16 × BitVec 16 :=
  (w.1 ^^^ ((idgen32G key r w.2 ^^^ BitVec.ofNat 16 r) &&& 0x7fff#16), w.2)

/-- The loop of `idgen32_permute`, two rounds in each pass. -/
def doubledRounds (key : Key) (w : BitVec 16 × BitVec 16) : BitVec 16 × BitVec 16 :=
  (List.range (IDGEN32_ROUNDS / 2)).foldl
    (fun w i => roundLeft key (2 * i + 1) (roundRight key (2 * i) w)) w

/-- The doubled up rounds and the odd one at the end. -/
def rounds (key : Key) (w : BitVec 16 × BitVec 16) : BitVec 16 × BitVec 16 :=
  roundRight key (2 * (IDGEN32_ROUNDS / 2)) (doubledRounds key w)

/-- The halves `wl` and `wr` of an input. -/
def halves (x : BitVec 32) : BitVec 16 × BitVec 16 :=
  ((x >>> 16).setWidth 16 &&& 0x7fff#16, x.setWidth 16)

def join (w : BitVec 16 × BitVec 16) : BitVec 32 :=
  (w.1.setWidth 32 <<< 16) ||| w.2.setWidth 32

def idgen32Permute (key : Key) (x : BitVec 32) : BitVec 32 := join (rounds key (halves x))

/-- `struct idgen32_ctx`. -/
structure Ctx where
  id32_counter : BitVec 32
  id32_offset : BitVec 32
  id32_hibit : BitVec 32
  id32_key : Key
  id32_rekey_time : ℤ

/-- What a pass of the loop may read: the clock, and for a rekey `arc4random()`,
`arc4random_buf` and the clock once more. -/
structure Draw where
  now : ℤ
  offset : BitVec 32
  key : Key
  later : ℤ

def idgen32Rekey (ctx : Ctx) (d : Draw) : Ctx where
  id32_counter := 0#32
  id32_hibit := ctx.id32_hibit ^^^ 0x80000000#32
  id32_offset := d.offset
  id32_key := d.key
  id32_rekey_time := d.later + IDGEN32_REKEY_TIME

def idgen32Init (random : BitVec 32) (d : Draw) : Ctx :=
  idgen32Rekey ⟨0#32, 0#32, random &&& 0x80000000#32, fun _ => 0#8, 0⟩ d

/-- A context with the number of draws made and of rekeys since the start. -/
structure State where
  ctx : Ctx
  used : ℕ
  epoch : ℕ

def rekeyed (draws : ℕ → Draw) (s : State) : State :=
  if IDGEN32_REKEY_LIMIT < s.ctx.id32_counter ∨ s.ctx.id32_rekey_time < (draws s.used).now then
    ⟨idgen32Rekey s.ctx (draws s.used), s.used + 1, s.epoch + 1⟩
  else { s with used := s.used + 1 }

def ident (ctx : Ctx) (counter : BitVec 32) : BitVec 32 :=
  ctx.id32_hibit ||| idgen32Permute ctx.id32_key ((ctx.id32_offset + counter) &&& 0x7fffffff#32)

/-- One pass of the loop in `idgen32`. -/
def idgen32Step (draws : ℕ → Draw) (s : State) : Loop.Step State (State × BitVec 32) Empty :=
  let s₁ := rekeyed draws s
  let ret := ident s₁.ctx s₁.ctx.id32_counter
  let s₂ : State :=
    { s₁ with ctx := { s₁.ctx with id32_counter := s₁.ctx.id32_counter + 1#32 } }
  if ret = 0#32 then .next s₂ else .done (s₂, ret)

/-- `idgen32`; two passes are enough. -/
def idgen32 (draws : ℕ → Draw) (s : State) : State × BitVec 32 :=
  match Loop.run (idgen32Step draws) 2 s with
  | .returned r _ => r
  | _ => (s, 0#32)

/-- The state before call number `n`. -/
def before (draws : ℕ → Draw) (random : BitVec 32) : ℕ → State
  | 0 => ⟨idgen32Init random (draws 0), 1, 0⟩
  | n + 1 => (idgen32 draws (before draws random n)).1

theorem roundRight_involutive (key : Key) (r : ℕ) : Function.Involutive (roundRight key r) := by
  intro w
  simp only [roundRight, BitVec.xor_assoc, BitVec.xor_self, BitVec.xor_zero]

theorem roundLeft_involutive (key : Key) (r : ℕ) : Function.Involutive (roundLeft key r) := by
  intro w
  simp only [roundLeft, BitVec.xor_assoc, BitVec.xor_self, BitVec.xor_zero]

theorem rounds_injective (key : Key) : Function.Injective (rounds key) := by
  have hfold : ∀ l : List ℕ, Function.Injective fun w : BitVec 16 × BitVec 16 =>
      l.foldl (fun w i => roundLeft key (2 * i + 1) (roundRight key (2 * i) w)) w := by
    intro l
    induction l with
    | nil => exact Function.injective_id
    | cons i l ih =>
      exact ih.comp ((roundLeft_involutive key _).injective.comp (roundRight_involutive key _).injective)
  have hdoubled : Function.Injective (doubledRounds key) := hfold _
  exact (roundRight_involutive key _).injective.comp hdoubled

theorem roundRight_fst (key : Key) (r : ℕ) (w : BitVec 16 × BitVec 16) :
    (roundRight key r w).1 = w.1 := rfl

theorem rounds_msb (key : Key) (w : BitVec 16 × BitVec 16) :
    (rounds key w).1.msb = w.1.msb := by
  have hfold : ∀ (l : List ℕ) (w : BitVec 16 × BitVec 16),
      (l.foldl (fun w i => roundLeft key (2 * i + 1) (roundRight key (2 * i) w)) w).1.msb =
        w.1.msb := by
    intro l
    induction l with
    | nil => intro w; rfl
    | cons i l ih =>
      intro w
      have hmask : (0x7fff#16).msb = false := by decide
      rw [List.foldl_cons, ih]
      simp [roundLeft, roundRight, hmask]
  have hdoubled : (doubledRounds key w).1.msb = w.1.msb := by
    rw [doubledRounds]
    exact hfold _ w
  rw [rounds, roundRight_fst, hdoubled]

theorem join_toNat {w : BitVec 16 × BitVec 16} :
    (join w).toNat = 65536 * w.1.toNat + w.2.toNat := by
  have h1 := w.1.isLt
  have h2 := w.2.isLt
  have hshift : (w.1.setWidth 32 <<< 16).toNat = w.1.toNat <<< 16 := by
    simp only [BitVec.toNat_shiftLeft, BitVec.toNat_setWidth, Nat.shiftLeft_eq]
    omega
  have hright : (w.2.setWidth 32).toNat = w.2.toNat := by
    simp only [BitVec.toNat_setWidth]
    omega
  rw [join, BitVec.toNat_or, hshift, hright, ← Nat.shiftLeft_add_eq_or_of_lt h2, Nat.shiftLeft_eq]
  omega

theorem halves_toNat (x : BitVec 32) :
    (halves x).1.toNat = x.toNat / 65536 % 32768 ∧ (halves x).2.toNat = x.toNat % 65536 := by
  have hx := x.isLt
  constructor
  · have hmask : ∀ y : ℕ, y &&& 32767 = y % 32768 := fun y => Nat.and_two_pow_sub_one_eq_mod y 15
    simp only [halves, BitVec.toNat_and, BitVec.toNat_setWidth, BitVec.toNat_ushiftRight,
      Nat.shiftRight_eq_div_pow, BitVec.toNat_ofNat]
    norm_num
    rw [hmask]
    omega
  · simp only [halves, BitVec.toNat_setWidth]

theorem halves_fst_lt (x : BitVec 32) : (halves x).1.toNat < 2 ^ 15 := by
  have := (halves_toNat x).1
  omega

/-- The inputs and outputs of the permutation. -/
def Low : Set (BitVec 32) := {x | x.toNat < 2 ^ 31}

theorem rounds_fst_lt (key : Key) {w : BitVec 16 × BitVec 16} (hw : w.1.toNat < 2 ^ 15) :
    (rounds key w).1.toNat < 2 ^ 15 := by
  apply BitVec.toNat_lt_of_msb_false
  rw [rounds_msb, BitVec.msb_eq_false_iff_two_mul_lt]
  omega

theorem idgen32Permute_mem (key : Key) (x : BitVec 32) : idgen32Permute key x ∈ Low := by
  have hfst := rounds_fst_lt key (halves_fst_lt x)
  have hsnd := (rounds key (halves x)).2.isLt
  change (join (rounds key (halves x))).toNat < 2 ^ 31
  rw [join_toNat]
  omega

theorem join_injective : Function.Injective join := by
  intro v w h
  have hnat := congrArg BitVec.toNat h
  rw [join_toNat, join_toNat] at hnat
  have hv := v.2.isLt
  have hw := w.2.isLt
  apply Prod.ext
  · apply BitVec.eq_of_toNat_eq
    omega
  · apply BitVec.eq_of_toNat_eq
    omega

theorem halves_injOn : Set.InjOn halves Low := by
  intro x hx y hy h
  have hx' : x.toNat < 2 ^ 31 := hx
  have hy' : y.toNat < 2 ^ 31 := hy
  have h1 := (halves_toNat x).1
  have h2 := (halves_toNat x).2
  rw [h, (halves_toNat y).1] at h1
  rw [h, (halves_toNat y).2] at h2
  apply BitVec.eq_of_toNat_eq
  omega

theorem idgen32Permute_injOn (key : Key) : Set.InjOn (idgen32Permute key) Low := by
  have hinj := join_injective.comp (rounds_injective key)
  intro x hx y hy h
  exact halves_injOn hx hy (hinj h)

theorem idgen32Permute_bijOn (key : Key) : Set.BijOn (idgen32Permute key) Low Low := by
  have hmaps : Set.MapsTo (idgen32Permute key) Low Low := fun x _ => idgen32Permute_mem key x
  have hfinite : Finite (BitVec 32) := by
    apply Finite.of_injective BitVec.toFin
    intro x y h
    exact BitVec.eq_of_toNat_eq (congrArg Fin.val h)
  exact (Set.Finite.injOn_iff_bijOn_of_mapsTo (Set.toFinite Low) hmaps).mp (idgen32Permute_injOn key)

/-- `id32_hibit` has no bit but the highest. -/
def Hibit (x : BitVec 32) : Prop := x = 0#32 ∨ x = 0x80000000#32

theorem Hibit.flip {x : BitVec 32} (h : Hibit x) :
    Hibit (x ^^^ 0x80000000#32) ∧ (x ^^^ 0x80000000#32).msb = !x.msb := by
  rcases h with rfl | rfl
  · exact ⟨Or.inr (by decide), by decide⟩
  · exact ⟨Or.inl (by decide), by decide⟩

theorem msb_of_low {x : BitVec 32} (h : x ∈ Low) : x.msb = false := by
  have hx : x.toNat < 2 ^ 31 := h
  rw [BitVec.msb_eq_false_iff_two_mul_lt]
  omega

theorem ident_msb (ctx : Ctx) (c : BitVec 32) : (ident ctx c).msb = ctx.id32_hibit.msb := by
  rw [ident, BitVec.msb_or, msb_of_low (idgen32Permute_mem _ _), Bool.or_false]

theorem or_hibit_cancel {h x y : BitVec 32} (hh : Hibit h) (hx : x ∈ Low) (hy : y ∈ Low)
    (heq : h ||| x = h ||| y) : x = y := by
  have hlow : ∀ z ∈ Low, (h ||| z) &&& 0x7fffffff#32 = z := by
    intro z hz
    have hz' : z.toNat < 2 ^ 31 := hz
    have hmask : z &&& 0x7fffffff#32 = z := by
      apply BitVec.eq_of_toNat_eq
      rw [BitVec.toNat_and]
      exact (Nat.and_two_pow_sub_one_eq_mod z.toNat 31).trans (Nat.mod_eq_of_lt hz')
    have hzero : h &&& 0x7fffffff#32 = 0#32 := by
      rcases hh with rfl | rfl <;> decide
    rw [BitVec.and_comm, BitVec.and_or_distrib_left, BitVec.and_comm _ h, hzero, BitVec.zero_or,
      BitVec.and_comm, hmask]
  rw [← hlow x hx, heq, hlow y hy]

theorem offset_toNat (offset c : BitVec 32) :
    ((offset + c) &&& 0x7fffffff#32).toNat = (offset.toNat + c.toNat) % 2 ^ 31 := by
  rw [BitVec.toNat_and, BitVec.toNat_add]
  have hmask : ∀ y : ℕ, y &&& 2147483647 = y % 2 ^ 31 :=
    fun y => Nat.and_two_pow_sub_one_eq_mod y 31
  change (offset.toNat + c.toNat) % 2 ^ 32 &&& 2147483647 = _
  rw [hmask]
  omega

theorem ident_inj {ctx : Ctx} (hh : Hibit ctx.id32_hibit) {c c' : BitVec 32} (hc : c ∈ Low)
    (hc' : c' ∈ Low) (h : ident ctx c = ident ctx c') : c = c' := by
  have hc₁ : c.toNat < 2 ^ 31 := hc
  have hc₁' : c'.toNat < 2 ^ 31 := hc'
  have hlow : ∀ c : BitVec 32, (ctx.id32_offset + c) &&& 0x7fffffff#32 ∈ Low := by
    intro c
    change ((ctx.id32_offset + c) &&& 0x7fffffff#32).toNat < 2 ^ 31
    rw [offset_toNat]
    omega
  have hperm := or_hibit_cancel hh (idgen32Permute_mem _ _) (idgen32Permute_mem _ _) h
  have hin := congrArg BitVec.toNat (idgen32Permute_injOn _ (hlow c) (hlow c') hperm)
  rw [offset_toNat, offset_toNat] at hin
  apply BitVec.eq_of_toNat_eq
  omega

/-- What holds of a context between two passes. -/
structure Good (s : State) : Prop where
  hibit : Hibit s.ctx.id32_hibit
  counter : s.ctx.id32_counter.toNat ≤ 0x60000001

/-- What is known of an identifier given in epoch `e`: the counter it was made from if the
epoch lasts, and its high bit. -/
structure Past (s : State) (id : BitVec 32) (e : ℕ) : Prop where
  epoch : e ≤ s.epoch
  counter : e = s.epoch → ∃ c : BitVec 32, c.toNat < s.ctx.id32_counter.toNat ∧ id = ident s.ctx c
  msb : id.msb = (s.ctx.id32_hibit.msb ^^ decide ((s.epoch - e) % 2 = 1))

theorem rekeyed_good (draws : ℕ → Draw) {s : State} (h : Good s) :
    Hibit (rekeyed draws s).ctx.id32_hibit ∧
      (rekeyed draws s).ctx.id32_counter.toNat ≤ 0x60000000 := by
  unfold rekeyed
  split_ifs with hcond
  · exact ⟨h.hibit.flip.1, Nat.zero_le _⟩
  · rw [not_or, BitVec.not_lt] at hcond
    exact ⟨h.hibit, hcond.1⟩

theorem rekeyed_epoch (draws : ℕ → Draw) (s : State) :
    s.epoch = (rekeyed draws s).epoch ∨ s.epoch + 1 = (rekeyed draws s).epoch := by
  unfold rekeyed
  split_ifs
  · exact Or.inr rfl
  · exact Or.inl rfl

theorem Past.rekeyed (draws : ℕ → Draw) {s : State} (h : Good s) {id : BitVec 32} {e : ℕ}
    (hp : Past s id e) : Past (rekeyed draws s) id e := by
  unfold Idgen.rekeyed
  split_ifs with hcond
  · have hflip := h.hibit.flip.2
    constructor
    · exact Nat.le_succ_of_le hp.epoch
    · intro he
      have := hp.epoch
      simp only at he
      omega
    · have he := hp.epoch
      have hodd : decide ((s.epoch + 1 - e) % 2 = 1) = !decide ((s.epoch - e) % 2 = 1) := by
        rw [← decide_not]
        apply decide_eq_decide.mpr
        omega
      change id.msb = ((s.ctx.id32_hibit ^^^ 0x80000000#32).msb ^^ decide ((s.epoch + 1 - e) % 2 = 1))
      rw [hflip, hodd, Bool.not_xor_not, hp.msb]
  · exact ⟨hp.epoch, hp.counter, hp.msb⟩

/-- The context after an identifier has been made. -/
def State.bump (s : State) : State :=
  { s with ctx := { s.ctx with id32_counter := s.ctx.id32_counter + 1#32 } }

theorem bump_counter {s : State} (h : s.ctx.id32_counter.toNat ≤ 0x60000000) :
    s.bump.ctx.id32_counter.toNat = s.ctx.id32_counter.toNat + 1 := by
  change (s.ctx.id32_counter + 1#32).toNat = _
  rw [BitVec.toNat_add]
  change (s.ctx.id32_counter.toNat + 1) % 2 ^ 32 = _
  omega

theorem Past.bump {s : State} (h : s.ctx.id32_counter.toNat ≤ 0x60000000) {id : BitVec 32} {e : ℕ}
    (hp : Past s id e) : Past s.bump id e := by
  refine ⟨hp.epoch, fun he => ?_, hp.msb⟩
  obtain ⟨c, hc, hid⟩ := hp.counter he
  refine ⟨c, ?_, hid⟩
  rw [bump_counter h]
  omega

theorem past_ident {s : State} (h : s.ctx.id32_counter.toNat ≤ 0x60000000) :
    Past s.bump (ident s.ctx s.ctx.id32_counter) s.epoch := by
  refine ⟨Nat.le_refl _, fun _ => ⟨s.ctx.id32_counter, ?_, rfl⟩, ?_⟩
  · rw [bump_counter h]
    omega
  · change _ = (s.ctx.id32_hibit.msb ^^ decide ((s.epoch - s.epoch) % 2 = 1))
    rw [ident_msb, Nat.sub_self]
    simp

/-- The next identifier differs from those of its own and of the last epoch. -/
theorem Past.ne_ident {s : State} (hh : Hibit s.ctx.id32_hibit)
    (hc : s.ctx.id32_counter.toNat ≤ 0x60000000) {id : BitVec 32} {e : ℕ} (hp : Past s id e)
    (he : e = s.epoch ∨ e + 1 = s.epoch) : id ≠ ident s.ctx s.ctx.id32_counter := by
  intro heq
  rcases he with he | he
  · obtain ⟨c, hlt, hid⟩ := hp.counter he
    have hlow : ∀ x : BitVec 32, x.toNat ≤ 0x60000000 → x ∈ Low := by
      intro x hx
      change x.toNat < 2 ^ 31
      omega
    have hsame := ident_inj hh (hlow c (by omega)) (hlow _ hc) (hid.symm.trans heq)
    rw [hsame] at hlt
    omega
  · have hmsb := hp.msb
    rw [heq, ident_msb, ← he, Nat.add_sub_cancel_left] at hmsb
    simp at hmsb

theorem idgen32Step_eq (draws : ℕ → Draw) (s : State) :
    idgen32Step draws s =
      if ident (rekeyed draws s).ctx (rekeyed draws s).ctx.id32_counter = 0#32 then
        .next (rekeyed draws s).bump
      else
        .done ((rekeyed draws s).bump, ident (rekeyed draws s).ctx (rekeyed draws s).ctx.id32_counter) :=
  rfl

/-- What a call adds to the past. -/
structure Call (s s' : State) (ret : BitVec 32) : Prop where
  good : Good s'
  nonzero : ret ≠ 0#32
  past : Past s' ret s'.epoch
  keeps : ∀ id e, Past s id e → Past s' id e
  fresh : ∀ id e, Past s id e → e = s'.epoch ∨ e + 1 = s'.epoch → id ≠ ret

theorem call_of_done (draws : ℕ → Draw) {s : State} (h : Good s)
    (hne : ident (rekeyed draws s).ctx (rekeyed draws s).ctx.id32_counter ≠ 0#32) :
    Call s (rekeyed draws s).bump
      (ident (rekeyed draws s).ctx (rekeyed draws s).ctx.id32_counter) := by
  obtain ⟨hh, hc⟩ := rekeyed_good draws h
  constructor
  · refine ⟨hh, ?_⟩
    rw [bump_counter hc]
    omega
  · exact hne
  · exact past_ident hc
  · intro id e hp
    exact (hp.rekeyed draws h).bump hc
  · intro id e hp he
    exact (hp.rekeyed draws h).ne_ident hh hc he

theorem idgen32_returns (draws : ℕ → Draw) {s : State} (h : Good s) :
    ∃ s' ret k, (∀ fuel, Loop.run (idgen32Step draws) (fuel + 2) s = .returned (s', ret) k) ∧
      k ≤ 2 ∧ Call s s' ret := by
  by_cases hzero : ident (rekeyed draws s).ctx (rekeyed draws s).ctx.id32_counter = 0#32
  · have hstep := idgen32Step_eq draws s
    rw [if_pos hzero] at hstep
    obtain ⟨hh, hc⟩ := rekeyed_good draws h
    have hgood : Good (rekeyed draws s).bump := by
      refine ⟨hh, ?_⟩
      rw [bump_counter hc]
      omega
    -- the zero just made is in the past of the second pass
    have hpast : Past (rekeyed draws s).bump 0#32 (rekeyed draws s).epoch := by
      rw [← hzero]
      exact past_ident hc
    obtain ⟨hh', hc'⟩ := rekeyed_good draws hgood
    have hne : ident (rekeyed draws (rekeyed draws s).bump).ctx
        (rekeyed draws (rekeyed draws s).bump).ctx.id32_counter ≠ 0#32 := by
      apply Ne.symm
      exact (hpast.rekeyed draws hgood).ne_ident hh' hc'
        (rekeyed_epoch draws (rekeyed draws s).bump)
    have hstep' := idgen32Step_eq draws (rekeyed draws s).bump
    rw [if_neg hne] at hstep'
    have hcall := call_of_done draws hgood hne
    refine ⟨_, _, 2, ?_, le_rfl, hcall.good, hcall.nonzero, hcall.past, ?_, ?_⟩
    · intro fuel
      rw [Loop.run_next _ hstep, Loop.run_done _ hstep']
      rfl
    · intro id e hp
      exact hcall.keeps id e ((hp.rekeyed draws h).bump hc)
    · intro id e hp
      exact hcall.fresh id e ((hp.rekeyed draws h).bump hc)
  · have hstep := idgen32Step_eq draws s
    rw [if_neg hzero] at hstep
    exact ⟨_, _, 1, fun fuel => Loop.run_done _ hstep (fuel + 1), by omega,
      call_of_done draws h hzero⟩

theorem idgen32_call (draws : ℕ → Draw) {s : State} (h : Good s) :
    Call s (idgen32 draws s).1 (idgen32 draws s).2 := by
  obtain ⟨s', ret, k, hrun, -, hcall⟩ := idgen32_returns draws h
  unfold idgen32
  rw [hrun 0]
  exact hcall

theorem good_before (draws : ℕ → Draw) (random : BitVec 32) (n : ℕ) :
    Good (before draws random n) := by
  induction n with
  | zero =>
    have hinit : Hibit (random &&& 0x80000000#32) := by
      rw [(by decide : 0x80000000#32 = BitVec.twoPow 32 31), BitVec.and_twoPow]
      split_ifs
      · exact Or.inr (by decide)
      · exact Or.inl rfl
    exact ⟨hinit.flip.1, Nat.zero_le _⟩
  | succ n ih => exact (idgen32_call draws ih).good

theorem past_before (draws : ℕ → Draw) (random : BitVec 32) {m n : ℕ} (h : m < n) :
    Past (before draws random n) (idgen32 draws (before draws random m)).2
      (before draws random (m + 1)).epoch := by
  induction n with
  | zero => omega
  | succ n ih =>
    have hcall := idgen32_call draws (good_before draws random n)
    rcases Nat.lt_succ_iff_lt_or_eq.mp h with hlt | rfl
    · exact hcall.keeps _ _ (ih hlt)
    · exact hcall.past

/-- For every sequence of random words and times: the network permutes the 31-bit numbers,
identifiers of one epoch and of two adjacent ones are distinct, none is zero, and every
call returns after at most two passes of its loop. -/
theorem idgen32_calls (draws : ℕ → Draw) (random : BitVec 32) :
    let id := fun n => (idgen32 draws (before draws random n)).2
    let epoch := fun n => (before draws random (n + 1)).epoch
    (∀ key, Set.BijOn (idgen32Permute key) {x | x.toNat < 2 ^ 31} {x | x.toNat < 2 ^ 31}) ∧
      (∀ m n, m ≠ n → epoch m = epoch n → id m ≠ id n) ∧
      (∀ m n, epoch n = epoch m + 1 → id m ≠ id n) ∧
      (∀ n, id n ≠ 0#32) ∧
      ∀ n fuel, 2 ≤ fuel → ∃ s' k, k ≤ 2 ∧
        Loop.run (idgen32Step draws) fuel (before draws random n) = .returned (s', id n) k := by
  intro id epoch
  have hfresh : ∀ m n, m < n → epoch m = epoch n ∨ epoch m + 1 = epoch n → id m ≠ id n := by
    intro m n hlt he
    have hcall := idgen32_call draws (good_before draws random n)
    exact hcall.fresh _ _ (past_before draws random hlt) he
  refine ⟨idgen32Permute_bijOn, ?_, ?_, ?_, ?_⟩
  · intro m n hne he
    rcases Nat.lt_or_gt_of_ne hne with hlt | hlt
    · exact hfresh m n hlt (Or.inl he)
    · exact (hfresh n m hlt (Or.inl he.symm)).symm
  · intro m n he
    rcases Nat.lt_trichotomy m n with hlt | rfl | hlt
    · exact hfresh m n hlt (Or.inr he.symm)
    · omega
    · have hle : epoch n ≤ epoch m := (past_before draws random (Nat.lt_succ_of_lt hlt)).epoch
      omega
  · intro n
    exact (idgen32_call draws (good_before draws random n)).nonzero
  · intro n fuel hfuel
    obtain ⟨s', ret, k, hrun, hk, -⟩ := idgen32_returns draws (good_before draws random n)
    have hid : id n = ret := by
      change (idgen32 draws (before draws random n)).2 = ret
      unfold idgen32
      rw [hrun 0]
    refine ⟨s', k, hk, ?_⟩
    rw [hid, ← hrun (fuel - 2), Nat.sub_add_cancel hfuel]

end OpenbsdKernel.Idgen
