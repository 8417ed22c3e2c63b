import Mathlib.Tactic

/-!
# Marking a graph from its roots

A marker keeps two sets of nodes: the marked ones, whose successors have been looked
at, and the pending ones, which are known to be live but have not been looked at yet.
When nothing is pending any more, the marked nodes are the reachable ones.
-/
namespace OpenbsdKernel.Marking

variable {α : Type*} {root : α → Prop} {edge : α → α → Prop}

/-- Reached from a root along the edges. -/
def Reachable (root : α → Prop) (edge : α → α → Prop) (v : α) : Prop :=
  ∃ r, root r ∧ Relation.ReflTransGen edge r v

theorem Reachable.of_root {v : α} (h : root v) : Reachable root edge v := ⟨v, h, .refl⟩

theorem Reachable.of_edge {u v : α} (hu : Reachable root edge u) (h : edge u v) :
    Reachable root edge v := by
  obtain ⟨r, hr, hpath⟩ := hu
  exact ⟨r, hr, hpath.tail h⟩

theorem Reachable.mem_of_closed {M : Set α} (hroot : ∀ v, root v → v ∈ M)
    (hedge : ∀ u ∈ M, ∀ v, edge u v → v ∈ M) {v : α} (h : Reachable root edge v) : v ∈ M := by
  obtain ⟨r, hr, hpath⟩ := h
  induction hpath with
  | refl => exact hroot r hr
  | tail _ he ih => exact hedge _ ih _ he

/-- What holds of the marked and the pending nodes all along. -/
structure Frontier (root : α → Prop) (edge : α → α → Prop) (marked pending : Set α) : Prop where
  sound : ∀ v ∈ marked ∪ pending, Reachable root edge v
  closed : ∀ u ∈ marked, ∀ v, edge u v → v ∈ marked ∪ pending

theorem Frontier.empty : Frontier root edge ∅ ∅ :=
  ⟨by simp, by simp⟩

theorem Frontier.mark {marked pending : Set α} (h : Frontier root edge marked pending) {u : α}
    (hu : root u ∨ u ∈ pending) {pending' : Set α}
    (hkeep : ∀ v ∈ pending, v ≠ u → v ∈ pending')
    (hsucc : ∀ v, edge u v → v ∈ insert u marked ∪ pending')
    (hfrom : ∀ v ∈ pending', v ∈ pending ∨ edge u v) :
    Frontier root edge (insert u marked) pending' := by
  have hlive : Reachable root edge u := by
    rcases hu with hu | hu
    · exact .of_root hu
    · exact h.sound u (.inr hu)
  refine ⟨?_, ?_⟩
  · rintro v ((rfl | hv) | hv)
    · exact hlive
    · exact h.sound v (.inl hv)
    · rcases hfrom v hv with hv | hv
      · exact h.sound v (.inr hv)
      · exact hlive.of_edge hv
  · rintro w (rfl | hw) v he
    · exact hsucc v he
    · rcases h.closed w hw v he with hv | hv
      · exact .inl (.inr hv)
      · by_cases hvu : v = u
        · exact .inl (.inl hvu)
        · exact .inr (hkeep v hv hvu)

/-- With nothing pending and every root marked, the marked nodes are the reachable ones. -/
theorem Frontier.mem_iff {marked : Set α} (h : Frontier root edge marked ∅)
    (hroot : ∀ v, root v → v ∈ marked) {v : α} : v ∈ marked ↔ Reachable root edge v := by
  constructor
  · intro hv
    exact h.sound v (.inl hv)
  · apply Reachable.mem_of_closed hroot
    intro u hu v he
    simpa using h.closed u hu v he

end OpenbsdKernel.Marking
