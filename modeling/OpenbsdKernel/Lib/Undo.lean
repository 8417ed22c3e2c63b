import Mathlib.Logic.Relation
import Mathlib.Tactic

/-!
# Loops taken back in reverse

Two machines with states `σ` and `τ`. A step of the second undoes a step of the first when it
leads from whatever matches the state after to something that matches the state before. A
loop is then undone by the loop over the reversed list.
-/
namespace OpenbsdKernel.Undo

variable {σ τ ι : Type*}

/-- From a match after `f`, the step `g` leads to a match before it. -/
def Undoes (R : σ → τ → Prop) (f : σ → σ) (g : τ → τ) : Prop :=
  ∀ s t, R (f s) t → R s (g t)

variable {R : σ → τ → Prop}

theorem undoes_id : Undoes R id id := fun _ _ h => h

theorem Undoes.comp {f f' : σ → σ} {g g' : τ → τ} (h : Undoes R f g) (h' : Undoes R f' g') :
    Undoes R (f' ∘ f) (g ∘ g') :=
  fun s t ht => h s (g' t) (h' (f s) t ht)

theorem Undoes.foldl {f : ι → σ → σ} {g : ι → τ → τ} {l : List ι}
    (h : ∀ i ∈ l, Undoes R (f i) (g i)) :
    Undoes R (fun s => l.foldl (fun s i => f i s) s)
      (fun t => l.reverse.foldl (fun t i => g i t) t) := by
  induction l with
  | nil => exact undoes_id
  | cons i l ih =>
    have hi := h i List.mem_cons_self
    have hl := ih fun j hj => h j (List.mem_cons_of_mem i hj)
    intro s t ht
    have hstep := hi.comp hl s t ht
    simpa [List.foldl_append] using hstep

theorem foldl_keeps {α : Type*} {f : σ → ι → σ} {g : σ → α} (h : ∀ s i, g (f s i) = g s)
    (l : List ι) (s : σ) : g (l.foldl f s) = g s := by
  induction l generalizing s with
  | nil => rfl
  | cons i l ih => rw [List.foldl_cons, ih, h]

end OpenbsdKernel.Undo
