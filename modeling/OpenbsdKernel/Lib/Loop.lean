import Mathlib.Tactic

/-!
# Fuelled loops and their termination rule

A loop body inspects the state once per iteration and either continues, returns
a value, or goes wrong. `run` iterates it under a fuel bound and reports how many
iterations were made. The rule at the end turns an invariant and a strictly
decreasing measure into a returned value together with an iteration bound, so a
client never reasons about the fuel again.
-/
namespace OpenbsdKernel.Loop

variable {σ α ε : Type*}

inductive Step (σ α ε : Type*) where
  | next (s : σ)
  | done (a : α)
  | wrong (e : ε)
  deriving Repr, DecidableEq

/-- The observation of a bounded run; the number counts started iterations. -/
inductive Outcome (σ α ε : Type*) where
  | returned (a : α) (n : ℕ)
  | wrong (e : ε) (n : ℕ)
  | running (s : σ)
  deriving Repr, DecidableEq

def Outcome.tick : Outcome σ α ε → Outcome σ α ε
  | .returned a n => .returned a (n + 1)
  | .wrong e n => .wrong e (n + 1)
  | .running s => .running s

def run (step : σ → Step σ α ε) : ℕ → σ → Outcome σ α ε
  | 0, s => .running s
  | fuel + 1, s =>
    match step s with
    | .next t => (run step fuel t).tick
    | .done a => .returned a 1
    | .wrong e => .wrong e 1

variable (step : σ → Step σ α ε)

/-- The states that a loop comes to. -/
inductive Reaches (step : σ → Step σ α ε) (s : σ) : σ → Prop
  | refl : Reaches step s s
  | next {t u : σ} (h : Reaches step s t) (ht : step t = .next u) : Reaches step s u

theorem run_next {s t : σ} (h : step s = .next t) (fuel : ℕ) :
    run step (fuel + 1) s = (run step fuel t).tick := by
  simp [run, h]

theorem run_done {s : σ} {a : α} (h : step s = .done a) (fuel : ℕ) :
    run step (fuel + 1) s = .returned a 1 := by
  simp [run, h]

/-- Total correctness of a loop: the invariant `I` holds before every iteration,
the measure `μ` drops on every continuing one, no iteration goes wrong, and a
returned value satisfies `Q`. -/
theorem run_returns {I : σ → Prop} {μ : σ → ℕ} {Q : α → Prop}
    (hnext : ∀ s t, I s → step s = .next t → I t ∧ μ t < μ s)
    (hdone : ∀ s a, I s → step s = .done a → Q a)
    (hsafe : ∀ s e, I s → step s ≠ .wrong e) :
    ∀ fuel s, I s → μ s < fuel →
      ∃ a n, run step fuel s = .returned a n ∧ n ≤ μ s + 1 ∧ Q a := by
  intro fuel
  induction fuel with
  | zero => intro s _ hμ; omega
  | succ fuel ih =>
    intro s hs hμ
    cases h : step s with
    | next t =>
      obtain ⟨ht, hlt⟩ := hnext s t hs h
      obtain ⟨a, n, hrun, hn, ha⟩ := ih t ht (by omega)
      refine ⟨a, n + 1, ?_, by omega, ha⟩
      rw [run_next step h, hrun]
      rfl
    | done a => exact ⟨a, 1, run_done step h fuel, by omega, hdone s a hs h⟩
    | wrong e => exact absurd h (hsafe s e hs)

theorem run_returned {I : σ → Prop} {Q : α → Prop} (hnext : ∀ s t, I s → step s = .next t → I t)
    (hdone : ∀ s a, I s → step s = .done a → Q a) {fuel : ℕ} : ∀ {s : σ} {a : α} {n : ℕ},
    run step fuel s = .returned a n → I s → Q a := by
  induction fuel with
  | zero => intro s a n h _; cases h
  | succ fuel ih =>
    intro s a n h hs
    cases hst : step s with
    | next t =>
      rw [run_next step hst] at h
      cases hr : run step fuel t with
      | returned b k =>
        rw [hr] at h
        cases h
        exact ih hr (hnext s t hs hst)
      | wrong e k => rw [hr] at h; cases h
      | running t' => rw [hr] at h; cases h
    | done b =>
      rw [run_done step hst] at h
      cases h
      exact hdone s a hs hst
    | wrong e => simp [run, hst] at h

end OpenbsdKernel.Loop
