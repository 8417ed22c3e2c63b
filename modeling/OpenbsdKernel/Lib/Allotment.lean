import Mathlib.Tactic

/-!
# Allotment on a complete binary tree

The positions of a complete binary tree are numbered as in a heap: the root is 1
and the children of `k` are `2 * k` and `2 * k + 1`. Some positions carry a mark,
and every position shows the mark nearest to it on the way up, the root excepted.
`allot` substitutes what a subtree shows after its top has gained or lost a mark,
leaving alone the parts that a mark of their own keeps apart.
-/
namespace OpenbsdKernel.Allotment

variable {α : Type*}

/-- The mark nearest to `k` on the way up. The root carries none. -/
def near (own : ℕ → Option α) (k : ℕ) : Option α :=
  if k < 2 then none else (own k).or (near own (k / 2))
termination_by k

example (own : ℕ → Option α) : near own 1 = none := by rw [near, if_pos (by decide)]

/-- `j` is `k` or at most `h` levels below it. -/
def Below (k h j : ℕ) : Prop := ∃ d ≤ h, j / 2 ^ d = k

theorem near_of_lt {own : ℕ → Option α} {k : ℕ} (hk : k < 2) : near own k = none := by
  rw [near, if_pos hk]

/-- Two markings that agree at `k` and in what its parent shows agree in what `k` shows. -/
theorem near_congr_up {own own' : ℕ → Option α} {k : ℕ} (h : own' k = own k)
    (hup : near own' (k / 2) = near own (k / 2)) : near own' k = near own k := by
  rw [near, near.eq_1 own k, h, hup]

theorem near_of_own {own : ℕ → Option α} {k : ℕ} {a : α} (hk : 2 ≤ k) (h : own k = some a) :
    near own k = some a := by
  rw [near, if_neg (by omega), h, Option.some_or]

theorem near_of_none {own : ℕ → Option α} {k : ℕ} (h : own k = none) :
    near own k = near own (k / 2) := by
  by_cases hk : k < 2
  · rw [near_of_lt hk, near_of_lt (by omega)]
  · rw [near, if_neg hk, h, Option.none_or]

theorem near_eq_some {own : ℕ → Option α} {a : α} {k : ℕ} (h : near own k = some a) :
    ∃ d, 2 ≤ k / 2 ^ d ∧ own (k / 2 ^ d) = some a ∧ ∀ e < d, own (k / 2 ^ e) = none := by
  induction k using Nat.strong_induction_on with
  | _ k ih =>
    by_cases hk : k < 2
    · simp [near_of_lt hk] at h
    cases hown : own k with
    | some b =>
      rw [near_of_own (by omega) hown] at h
      exact ⟨0, by rw [pow_zero, Nat.div_one]; omega, by simpa [hown] using h, by simp⟩
    | none =>
      rw [near_of_none hown] at h
      obtain ⟨d, hd, ha, hlow⟩ := ih (k / 2) (by omega) h
      have hdiv : ∀ e, k / 2 / 2 ^ e = k / 2 ^ (e + 1) := by
        intro e
        rw [Nat.div_div_eq_div_mul, ← pow_succ']
      refine ⟨d + 1, hdiv d ▸ hd, hdiv d ▸ ha, fun e he => ?_⟩
      cases e with
      | zero => simpa using hown
      | succ e => exact hdiv e ▸ hlow e (by omega)

theorem near_eq_none {own : ℕ → Option α} {k : ℕ} (h : near own k = none) {d : ℕ}
    (hd : 2 ≤ k / 2 ^ d) : own (k / 2 ^ d) = none := by
  induction d generalizing k with
  | zero =>
    cases hown : own k with
    | none => simpa using hown
    | some a =>
      rw [near_of_own (by simpa using hd) hown] at h
      cases h
  | succ d ih =>
    have hdiv : k / 2 / 2 ^ d = k / 2 ^ (d + 1) := by
      rw [Nat.div_div_eq_div_mul, ← pow_succ']
    rw [← hdiv] at hd ⊢
    refine ih ?_ hd
    have hk : 2 ≤ k / 2 := hd.trans (Nat.div_le_self _ _)
    cases hown : own k with
    | none => rwa [near_of_none hown] at h
    | some a =>
      rw [near_of_own (by omega) hown] at h
      cases h

theorem near_empty (k : ℕ) : near (fun _ => (none : Option α)) k = none := by
  cases h : near (fun _ => (none : Option α)) k with
  | none => rfl
  | some a =>
    obtain ⟨d, -, ha, -⟩ := near_eq_some h
    exact absurd ha (by simp)

theorem Below.refl (k h : ℕ) : Below k h k := ⟨0, by omega, by simp⟩

theorem Below.up {c h j : ℕ} (hj : Below c h j) : Below (c / 2) (h + 1) j := by
  obtain ⟨d, hd, rfl⟩ := hj
  exact ⟨d + 1, by omega, by rw [pow_succ, ← Nat.div_div_eq_div_mul]⟩

theorem Below.le {k h j : ℕ} (hj : Below k h j) : k ≤ j := by
  obtain ⟨d, -, rfl⟩ := hj
  exact Nat.div_le_self _ _

theorem Below.cases {k h j : ℕ} (hj : Below k (h + 1) j) :
    j = k ∨ Below (2 * k) h j ∨ Below (2 * k + 1) h j := by
  obtain ⟨d, hd, rfl⟩ := hj
  cases d with
  | zero => simp
  | succ d =>
    have hdiv : j / 2 ^ (d + 1) = j / 2 ^ d / 2 := by
      rw [pow_succ, Nat.div_div_eq_div_mul]
    have hc : j / 2 ^ d = 2 * (j / 2 ^ (d + 1)) ∨ j / 2 ^ d = 2 * (j / 2 ^ (d + 1)) + 1 := by
      omega
    refine .inr (hc.imp (fun e => ⟨d, by omega, e⟩) fun e => ⟨d, by omega, e⟩)

theorem Below.siblings {k h j : ℕ} (hk : 1 ≤ k) (hj : Below (2 * k) h j) :
    ¬ Below (2 * k + 1) h j := by
  obtain ⟨d, -, hd⟩ := hj
  rintro ⟨e, -, he⟩
  obtain hlt | rfl | hlt := lt_trichotomy d e
  · have hle : j / 2 ^ e ≤ j / 2 ^ d :=
      Nat.div_le_div_left (Nat.pow_le_pow_right (by omega) hlt.le) (by positivity)
    omega
  · omega
  · have hle : j / 2 ^ d ≤ j / 2 ^ (e + 1) :=
      Nat.div_le_div_left (Nat.pow_le_pow_right (by omega) hlt) (by positivity)
    have hdiv : j / 2 ^ (e + 1) = j / 2 ^ e / 2 := by
      rw [pow_succ, Nat.div_div_eq_div_mul]
    omega

/-- Marks outside the way up from `k` have no part in what `k` shows. -/
theorem near_congr {own own' : ℕ → Option α} {k : ℕ} (h : ∀ d, own' (k / 2 ^ d) = own (k / 2 ^ d)) :
    near own' k = near own k := by
  induction k using Nat.strong_induction_on with
  | _ k ih =>
    by_cases hk : k < 2
    · rw [near_of_lt hk, near_of_lt hk]
    have hup : near own' (k / 2) = near own (k / 2) := by
      refine ih (k / 2) (by omega) fun d => ?_
      rw [Nat.div_div_eq_div_mul, ← pow_succ']
      exact h (d + 1)
    exact near_congr_up (by simpa using h 0) hup

theorem near_congr_below {own own' : ℕ → Option α} {c h j : ℕ} (hc : 2 ≤ c)
    (hown : own c ≠ none) (hsame : ∀ j, Below c h j → own' j = own j) (hj : Below c h j) :
    near own' j = near own j := by
  obtain ⟨d, hd, hdc⟩ := hj
  induction d generalizing j with
  | zero =>
    have hjc : j = c := by simpa using hdc
    obtain ⟨a, ha⟩ := Option.ne_none_iff_exists'.mp hown
    rw [hjc, near_of_own hc ha, near_of_own hc (by rw [hsame c (.refl c h), ha])]
  | succ d ih =>
    have hup : near own' (j / 2) = near own (j / 2) := by
      refine ih (by omega) ?_
      rw [Nat.div_div_eq_div_mul, ← pow_succ']
      exact hdc
    exact near_congr_up (hsame j ⟨d + 1, hd, hdc⟩) hup

section Allot
variable [DecidableEq α]

/-- Substitute `new` for `old` from position `k` down, over `h` levels; a child that
shows something else is left alone with all that is under it. -/
def allot (old new : Option α) : ℕ → ℕ → (ℕ → Option α) → (ℕ → Option α)
  | 0, k, σ => Function.update σ k new
  | h + 1, k, σ =>
    let left := if σ (2 * k) = old then allot old new h (2 * k) σ else σ
    let right := if left (2 * k + 1) = old then allot old new h (2 * k + 1) left else left
    Function.update right k new

variable {old new : Option α} {own own' : ℕ → Option α}

theorem allot_frame : ∀ (h k : ℕ) (σ : ℕ → Option α) {j : ℕ}, ¬ Below k h j →
    allot old new h k σ j = σ j := by
  intro h
  induction h with
  | zero =>
    intro k σ j hj
    have hne : j ≠ k := fun e => hj (e ▸ .refl k 0)
    simp [allot, hne]
  | succ h ih =>
    intro k σ j hj
    have hne : j ≠ k := fun e => hj (e ▸ .refl k _)
    have hl : ¬ Below (2 * k) h j := fun hb => hj (by simpa using hb.up)
    have hr : ¬ Below (2 * k + 1) h j := fun hb =>
      hj (by simpa [show (2 * k + 1) / 2 = k by omega] using hb.up)
    simp only [allot, Function.update_of_ne hne]
    split_ifs <;> simp [ih, hl, hr]

/-- One child of a position that shows `old` and is to show `new`: whichever way the
test goes, its subtree shows the new marks afterwards. -/
private theorem allot_child {h c : ℕ} {σ : ℕ → Option α} (hc : 2 ≤ c)
    (ih : ∀ σ : ℕ → Option α, (∀ j, j ≠ c → Below c h j → σ j = near own j) → near own c = old →
      near own' c = new → ∀ j, Below c h j → allot old new h c σ j = near own' j)
    (hσ : ∀ j, Below c h j → σ j = near own j)
    (hsame : ∀ j, Below c h j → own' j = own j)
    (hold : ∀ j a, Below c h j → own j = some a → some a ≠ old)
    (hk : near own (c / 2) = old) (hk' : near own' (c / 2) = new) :
    ∀ j, Below c h j → (if σ c = old then allot old new h c σ else σ) j = near own' j := by
  intro j hj
  have hcb : Below c h c := .refl c h
  cases hown : own c with
  | none =>
    have hnear : near own c = old := by rw [near_of_none hown, hk]
    have hnear' : near own' c = new := by rw [near_of_none (by rw [hsame c hcb, hown]), hk']
    rw [if_pos (by rw [hσ c hcb, hnear])]
    exact ih σ (fun j _ hj => hσ j hj) hnear hnear' j hj
  | some a =>
    have hne : σ c ≠ old := by
      rw [hσ c hcb, near_of_own hc hown]
      exact hold c a hcb hown
    rw [if_neg hne, hσ j hj]
    exact (near_congr_below hc (by simp [hown]) hsame hj).symm

theorem allot_near : ∀ (h k : ℕ) (σ : ℕ → Option α), 1 ≤ k →
    (∀ j, j ≠ k → Below k h j → σ j = near own j) →
    (∀ j, j ≠ k → Below k h j → own' j = own j) →
    (∀ j a, j ≠ k → Below k h j → own j = some a → some a ≠ old) →
    near own k = old → near own' k = new →
    ∀ j, Below k h j → allot old new h k σ j = near own' j := by
  intro h
  induction h with
  | zero =>
    rintro k σ - - - - - hk' j ⟨d, hd, hj⟩
    obtain rfl : d = 0 := by omega
    obtain rfl : j = k := by simpa using hj
    simp [allot, hk']
  | succ h ih =>
    intro k σ hk1 hσ hsame hold hk hk' j hj
    have hup : ∀ c j, c / 2 = k → 2 ≤ c → Below c h j → j ≠ k ∧ Below k (h + 1) j := by
      intro c j hck hc hb
      have hle := hb.le
      exact ⟨by omega, hck ▸ hb.up⟩
    have hsub : ∀ c, c / 2 = k → 2 ≤ c → ∀ τ : ℕ → Option α,
        (∀ j, Below c h j → τ j = near own j) →
        ∀ j, Below c h j → (if τ c = old then allot old new h c τ else τ) j = near own' j := by
      intro c hck hc τ hτ
      refine allot_child hc ?_ hτ (fun j hb => hsame j (hup c j hck hc hb).1 (hup c j hck hc hb).2)
        (fun j a hb => hold j a (hup c j hck hc hb).1 (hup c j hck hc hb).2)
        (by rw [hck, hk]) (by rw [hck, hk'])
      intro τ' hτ' hc1 hc2
      exact ih c τ' (by omega) hτ'
        (fun j _ hb => hsame j (hup c j hck hc hb).1 (hup c j hck hc hb).2)
        (fun j a _ hb => hold j a (hup c j hck hc hb).1 (hup c j hck hc hb).2) hc1 hc2
    have hl2 : 2 * k / 2 = k := by omega
    have hr2 : (2 * k + 1) / 2 = k := by omega
    have hleft := hsub (2 * k) hl2 (by omega) σ fun j hb =>
      hσ j (hup _ j hl2 (by omega) hb).1 (hup _ j hl2 (by omega) hb).2
    -- the left half has been done, the right half is still as it was
    have hright := hsub (2 * k + 1) hr2 (by omega)
      (if σ (2 * k) = old then allot old new h (2 * k) σ else σ) fun j hb => by
        have hnb : ¬ Below (2 * k) h j := fun hb' => hb'.siblings hk1 hb
        have hsame' : (if σ (2 * k) = old then allot old new h (2 * k) σ else σ) j = σ j := by
          split_ifs <;> simp [allot_frame, hnb]
        rw [hsame', hσ j (hup _ j hr2 (by omega) hb).1 (hup _ j hr2 (by omega) hb).2]
    simp only [allot]
    obtain rfl | hb | hb := hj.cases
    · rw [Function.update_self, hk']
    · have hne := (hup _ j hl2 (by omega) hb).1
      have hnb := hb.siblings hk1
      rw [Function.update_of_ne hne, ← hleft j hb]
      split_ifs <;> simp [allot_frame, hnb]
    · rw [Function.update_of_ne (hup _ j hr2 (by omega) hb).1]
      exact hright j hb

end Allot

end OpenbsdKernel.Allotment
