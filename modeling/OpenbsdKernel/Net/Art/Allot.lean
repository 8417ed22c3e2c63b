import OpenbsdKernel.Net.Art.Store
import OpenbsdKernel.Lib.Allotment

/-!
# The loops of `art_allot`

`art_allot` passes through its labels in the order in which the recursion of its
comment visits the indices, leaving out the subtrees that show something else than
the node to be replaced. Run to the end it is `Allotment.allot` on what the table
shows.
-/
namespace OpenbsdKernel.Art

open Allotment

section Labels
variable {t i k f : ℕ} {old new : Option Node} {br : Root} {b : Table}

theorem allotLoop_again (ht : br.tables t = some b) :
    allotLoop t i old new (f + 1) br .again k =
      allotLoop t i old new f br (if 2 * k < b.at_minfringe then .nonfringe else .fringe)
        (2 * k) := by
  simp [allotLoop, allotStep, ht, Nat.shiftLeft_eq, Nat.mul_comm k 2]

theorem allotLoop_fringe (h : br.Wf) (ht : br.tables t = some b) :
    allotLoop t i old new (f + 1) br .fringe k =
      allotLoop t i old new f (if br.shown t k = old then br.setShown t k new else br)
        (if k % 2 = 1 then .moveup else .fringe) (if k % 2 = 1 then k else k + 1) := by
  cases hk : b.at_heap k with
  | node x =>
    rw [Root.shown_node ht hk, Root.setShown_node ht hk]
    by_cases hx : x = old <;> by_cases hm : k % 2 = 1 <;>
      simp [allotLoop, allotStep, ht, hk, hx, hm]
  | child c =>
    obtain ⟨-, -, d, hd, -⟩ := h.child ht hk
    rw [Root.shown_child ht hk hd, Root.setShown_child ht hk]
    by_cases hx : d.at_default = old <;> by_cases hm : k % 2 = 1 <;>
      simp [allotLoop, allotStep, ht, hk, hd, h.default_node hd, hx, hm]

theorem allotLoop_nonfringe (h : br.Wf) (ht : br.tables t = some b) (hk : k < b.at_minfringe) :
    allotLoop t i old new (f + 1) br .nonfringe k =
      allotLoop t i old new f br (if br.shown t k = old then .again else .moveon) k := by
  simp [allotLoop, allotStep, ht, h.heap_eq ht hk]

theorem allotLoop_moveon :
    allotLoop t i old new (f + 1) br .moveon k =
      allotLoop t i old new f br (if k % 2 = 1 then .moveup else .nonfringe)
        (if k % 2 = 1 then k else k + 1) := by
  by_cases hm : k % 2 = 1 <;> simp [allotLoop, allotStep, hm]

theorem allotLoop_moveup (h : br.Wf) (ht : br.tables t = some b) (hk : k < b.at_minfringe) :
    allotLoop t i old new (f + 1) br .moveup (2 * k + 1) =
      if k = i then some (br.setShown t k new)
      else allotLoop t i old new f (br.setShown t k new) .moveon k := by
  have hdiv : (2 * k + 1) >>> 1 = k := by rw [Nat.shiftRight_eq_div_pow]; omega
  rw [Root.setShown_node ht (h.heap_eq ht hk)]
  by_cases hi : k = i
  · subst hi
    simp [allotLoop, allotStep, hdiv]
  · simp [allotLoop, allotStep, hdiv, hi]

end Labels

section Run
variable {ar : Root} {t i : ℕ} {a : Table} {old new : Option Node}

/-- Where control comes to from `l` and `k` after some steps. -/
def Passes (t i : ℕ) (old new : Option Node) (n : ℕ) (br : Root) (l : Label) (k : ℕ) (cr : Root)
    (l' : Label) (k' : ℕ) : Prop :=
  ∀ f, allotLoop t i old new (n + f) br l k = allotLoop t i old new f cr l' k'

theorem Passes.trans {n m k k' k'' : ℕ} {br cr dr : Root} {l l' l'' : Label}
    (h : Passes t i old new n br l k cr l' k') (h' : Passes t i old new m cr l' k' dr l'' k'') :
    Passes t i old new (n + m) br l k dr l'' k'' := by
  intro f
  rw [Nat.add_assoc, h, h']

/-- A child that is not in the fringe: its subtree is done when control moves on from
it. `hsub` is what the labels do from the child down. -/
theorem passes_child (h : ar.Wf) (ht : ar.tables t = some a) {m c d : ℕ} {br : Root}
    {σ : ℕ → Option Node} (hs : Shows ar br t σ) (hc : c < a.at_minfringe) (hi : i < c)
    (hc2 : 2 ≤ c)
    (hsub : ∃ n cr τ, n ≤ m ∧ Passes t i old new n br .again c cr .moveup (2 * c + 1) ∧
      Shows ar cr t τ ∧ Function.update τ c new = allot old new d c σ) :
    ∃ n cr, n ≤ m + 2 ∧ Passes t i old new n br .nonfringe c cr .moveon c ∧
      Shows ar cr t (if σ c = old then allot old new d c σ else σ) := by
  obtain ⟨b, hb, hab⟩ := hs.like.table ht
  have hbr := h.like hs.like
  have hshown := hs.here hc2
  by_cases hold : σ c = old
  · obtain ⟨n, cr, τ, hn, hpass, hτ, hupd⟩ := hsub
    obtain ⟨e, he, hae⟩ := hτ.like.table ht
    have hin : Passes t i old new 1 br .nonfringe c br .again c := by
      intro f
      rw [Nat.add_comm, allotLoop_nonfringe hbr hb (by rw [hab.minfringe]; exact hc), hshown,
        if_pos hold]
    have hout : Passes t i old new 1 cr .moveup (2 * c + 1) (cr.setShown t c new) .moveon c := by
      intro f
      rw [Nat.add_comm, allotLoop_moveup (h.like hτ.like) he (by rw [hae.minfringe]; exact hc),
        if_neg (by omega)]
    refine ⟨1 + n + 1, cr.setShown t c new, by omega, (hin.trans hpass).trans hout, ?_⟩
    · rw [if_pos hold, ← hupd]
      exact h.shows_setShown new he hc2 hτ
  · refine ⟨1, br, by omega, fun f => ?_, ?_⟩
    · rw [Nat.add_comm, allotLoop_nonfringe hbr hb (by rw [hab.minfringe]; exact hc), hshown,
        if_neg hold]
    · rw [if_neg hold]
      exact hs

variable (old new) in
/-- From `again` at an index `h + 1` levels above the end of the heap: control comes to
`moveup` at the second child, when all below the index has been done. -/
theorem passes_again (hwf : ar.Wf) (ht : ar.tables t = some a) (hi : 2 ≤ i) :
    ∀ (h p k : ℕ) (br : Root) (σ : ℕ → Option Node), p + (h + 1) = a.at_bits → 2 ^ p ≤ k →
      k < 2 ^ (p + 1) → i ≤ k → Shows ar br t σ →
      ∃ n cr τ, n + 7 ≤ 5 * 2 ^ (h + 1) ∧
        Passes t i old new n br .again k cr .moveup (2 * k + 1) ∧ Shows ar cr t τ ∧
        Function.update τ k new = allot old new (h + 1) k σ := by
  have hmin : a.at_minfringe = 2 ^ a.at_bits := (hwf.fits ht).minfringe
  intro h
  induction h with
  | zero =>
    intro p k br σ hp hlo hhi hik hs
    obtain ⟨b, hb, hab⟩ := hs.like.table ht
    have hfr : ¬ 2 * k < b.at_minfringe := by
      rw [hab.minfringe, hmin, ← hp, pow_succ]
      omega
    -- the two children are entries of the fringe, taken one after the other
    have hchild : ∀ (c : ℕ) (cr : Root) (τ : ℕ → Option Node), 2 ≤ c → Shows ar cr t τ →
        ∃ dr, Passes t i old new 1 cr .fringe c dr (if c % 2 = 1 then .moveup else .fringe)
          (if c % 2 = 1 then c else c + 1) ∧
          Shows ar dr t (if τ c = old then allot old new 0 c τ else τ) := by
      intro c cr τ hc hτ
      obtain ⟨e, he, -⟩ := hτ.like.table ht
      refine ⟨if cr.shown t c = old then cr.setShown t c new else cr, fun f => ?_, ?_⟩
      · rw [Nat.add_comm, allotLoop_fringe (hwf.like hτ.like) he]
      · rw [hτ.here hc]
        split_ifs
        · exact hwf.shows_setShown new he hc hτ
        · exact hτ
    obtain ⟨cr, hpl, hl⟩ := hchild (2 * k) br σ (by omega) hs
    obtain ⟨dr, hpr, hr⟩ := hchild (2 * k + 1) cr _ (by omega) hl
    rw [if_neg (by omega), if_neg (by omega)] at hpl
    rw [if_pos (by omega), if_pos (by omega)] at hpr
    refine ⟨1 + 1 + 1, dr, _, by norm_num, Passes.trans (Passes.trans (fun f => ?_) hpl) hpr, hr, ?_⟩
    · rw [Nat.add_comm, allotLoop_again hb, if_neg hfr]
    · simp only [allot]
  | succ h ih =>
    intro p k br σ hp hlo hhi hik hs
    obtain ⟨b, hb, hab⟩ := hs.like.table ht
    have hp1 : 2 ^ (p + 1) = 2 * 2 ^ p := by rw [pow_succ]; omega
    have hp2 : 2 ^ (p + 2) = 2 * 2 ^ (p + 1) := by rw [pow_succ]; omega
    have hle : 2 ^ (p + 2) ≤ a.at_minfringe := by
      rw [hmin]
      exact Nat.pow_le_pow_right (by omega) (by omega)
    have hchild : ∀ (c : ℕ) (cr : Root) (τ : ℕ → Option Node), 2 * k ≤ c → c ≤ 2 * k + 1 →
        Shows ar cr t τ → ∃ n dr, n + 7 ≤ 5 * 2 ^ (h + 1) + 2 ∧
          Passes t i old new n cr .nonfringe c dr .moveon c ∧
          Shows ar dr t (if τ c = old then allot old new (h + 1) c τ else τ) := by
      intro c cr τ hc1 hc2 hτ
      have hsub := ih (p + 1) c cr τ (by omega) (by omega) (by omega) (by omega) hτ
      obtain ⟨n, dr, τ', hn, hrest⟩ := hsub
      obtain ⟨n', er, hn', hpass, hshow⟩ := passes_child hwf ht (m := 5 * 2 ^ (h + 1) - 7) hτ
        (by omega) (by omega) (by omega) ⟨n, dr, τ', by omega, hrest⟩
      exact ⟨n', er, by omega, hpass, hshow⟩
    obtain ⟨n, cr, hn, hpl, hl⟩ := hchild (2 * k) br σ (by omega) (by omega) hs
    obtain ⟨m, dr, hm, hpr, hr⟩ := hchild (2 * k + 1) cr _ (by omega) (by omega) hl
    have hagain : Passes t i old new 1 br .again k br .nonfringe (2 * k) := by
      intro f
      rw [Nat.add_comm, allotLoop_again hb, if_pos (by rw [hab.minfringe]; omega)]
    have hover : Passes t i old new 1 cr .moveon (2 * k) cr .nonfringe (2 * k + 1) := by
      intro f
      rw [Nat.add_comm, allotLoop_moveon, if_neg (by omega), if_neg (by omega)]
    have hup : Passes t i old new 1 dr .moveon (2 * k + 1) dr .moveup (2 * k + 1) := by
      intro f
      rw [Nat.add_comm, allotLoop_moveon, if_pos (by omega), if_pos (by omega)]
    refine ⟨1 + n + 1 + m + 1, dr, _, ?_,
      (((hagain.trans hpl).trans hover).trans hpr).trans hup, hr, ?_⟩
    · have h2 : 2 ^ (h + 1 + 1) = 2 * 2 ^ (h + 1) := by rw [pow_succ]; omega
      omega
    · simp only [allot]

theorem art_allot_spec (hwf : ar.Wf) (ht : ar.tables t = some a) {p h : ℕ} (hi : 2 ≤ i)
    (hp : p + (h + 1) = a.at_bits) (hlo : 2 ^ p ≤ i) (hhi : i < 2 ^ (p + 1)) {br : Root}
    {σ : ℕ → Option Node} (hs : Shows ar br t σ) :
    ∃ cr, art_allot br t i old new = some cr ∧
      Shows ar cr t (allot old new (h + 1) i σ) := by
  have hmin : a.at_minfringe = 2 ^ a.at_bits := (hwf.fits ht).minfringe
  obtain ⟨b, hb, hab⟩ := hs.like.table ht
  have hlt : i < a.at_minfringe := by
    rw [hmin]
    exact hhi.trans_le (Nat.pow_le_pow_right (by omega) (by omega))
  obtain ⟨n, cr, τ, hn, hpass, hτ, hupd⟩ :=
    passes_again old new hwf ht hi h p i br σ hp hlo hhi le_rfl hs
  obtain ⟨e, he, hae⟩ := hτ.like.table ht
  refine ⟨cr.setShown t i new, ?_, ?_⟩
  · have hfuel : n + 7 ≤ 5 * b.at_minfringe := by
      have hle : 2 ^ (h + 1) ≤ 2 ^ a.at_bits := Nat.pow_le_pow_right (by omega) (by omega)
      rw [hab.minfringe, hmin]
      omega
    have hguard : i < b.at_minfringe := by rw [hab.minfringe]; exact hlt
    have hrun : allotLoop t i old new (12 * b.at_minfringe) br .again i =
        some (cr.setShown t i new) := by
      rw [show 12 * b.at_minfringe = n + ((12 * b.at_minfringe - n - 1) + 1) by omega, hpass,
        allotLoop_moveup (hwf.like hτ.like) he (by rw [hae.minfringe]; exact hlt), if_pos rfl]
    simp [art_allot, hb, guard, hguard, hrun]
  · rw [← hupd]
    exact hwf.shows_setShown new he hi hτ

end Run

end OpenbsdKernel.Art
