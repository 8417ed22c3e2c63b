import OpenbsdKernel.Sys.Tree.SplayTop

/-!
# What a splay leaves

The loop ends, with an element at the root that nothing lies between and the one looked for, and
the parts are put together to a tree of the same elements in the same order.
-/
namespace OpenbsdKernel.SplayTree

open BinTree

variable {α : Type*}

section Lists

variable {mid : Bin α} {S : Dir → List (α × Bin α)} {ctx : List (α × Bin α)} {a : α}

theorem mem_before : a ∈ before ctx ↔ a ∈ elements ctx := by
  induction ctx with
  | nil => simp [before, elements]
  | cons p ctx ih =>
    obtain ⟨b, s⟩ := p
    simp only [before, elements, List.mem_append, List.mem_cons, ih]
    tauto

theorem mem_after : a ∈ after ctx ↔ a ∈ elements ctx := by
  induction ctx with
  | nil => simp [after, elements]
  | cons p ctx ih =>
    obtain ⟨b, s⟩ := p
    simp only [after, elements, List.mem_append, List.mem_cons, ih]
    tauto

theorem mem_whole : a ∈ whole mid S ↔ a ∈ mid.toList ∨ ∃ d, a ∈ elements (S d) := by
  rw [whole, List.mem_append, List.mem_append, mem_before, mem_after]
  constructor
  · rintro ((h | h) | h)
    · exact .inr ⟨.right, h⟩
    · exact .inl h
    · exact .inr ⟨.left, h⟩
  · rintro (h | ⟨d, h⟩)
    · exact .inl (.inr h)
    · cases d with
      | left => exact .inr h
      | right => exact .inl (.inl h)

end Lists

section Steady

variable {comp : α → ℤ} {d : Dir} {t u : Bin α} {x : α}

theorem steady_towards (h : Steady comp (Bin.join d t x u).toList)
    (hx : towards d (comp x) = true) : ∀ a ∈ u.toList, towards d (comp a) = true := by
  intro a ha
  cases d with
  | left =>
    simp only [Steady, Bin.join, Bin.toList_node, List.pairwise_append, List.pairwise_cons] at h
    have hlt : comp x < 0 := of_decide_eq_true hx
    exact decide_eq_true ((h.2.1.1 a ha).1 hlt.le)
  | right =>
    simp only [Steady, Bin.join, Bin.toList_node, List.pairwise_append] at h
    have hgt : 0 < comp x := of_decide_eq_true hx
    exact decide_eq_true ((h.2.2 a ha x (by simp)).2 hgt.le)

end Steady

/-- The loop at work on the elements `l`, which the heap `h₀` held. -/
structure Going (comp : α → ℤ) (h₀ : Head α) (l : List α) (s : State α) (mid : Bin α)
    (S : Dir → List (α × Bin α)) : Prop extends Split s mid S where
  whole : whole mid S = l
  sides : ∀ d, ∀ a ∈ elements (S d), towards d (comp a) = true
  frame : ∀ e, ∀ a, a ∉ l → s.head.spe e (.elm a) = h₀.spe e (.elm a)

section Going

variable {comp : α → ℤ} {h₀ : Head α} {l : List α} {s : State α} {mid : Bin α}
  {S : Dir → List (α × Bin α)} {d : Dir} {t u v : Bin α} {x y : α}

theorem Going.steady (hg : Going comp h₀ l s mid S) (hl : Steady comp l) : Steady comp mid.toList := by
  rw [← hg.whole, SplayTree.whole] at hl
  exact (List.pairwise_append.1 (List.pairwise_append.1 hl).1).2.1

variable [DecidableEq α]

theorem Going.link (hg : Going comp h₀ l s (Bin.join d t x u) S) (hl : Steady comp l)
    (hx : towards d (comp x) = true) :
    Going comp h₀ l ⟨splayLink d s.head x (s.last d), fun e => if e = d then .elm x else s.last e⟩ t
      (extend S d x u) := by
  refine ⟨hg.toSplit.link, (whole_extend S d t x u).trans hg.whole, ?_, ?_⟩
  · intro e a ha
    obtain rfl | rfl := Dir.eq_or_eq_swap d e
    · rw [extend_same, elements_concat, List.mem_append, List.mem_cons] at ha
      obtain ha | rfl | ha := ha
      · exact hg.sides e a ha
      · exact hx
      · exact steady_towards (hg.steady hl) hx a ha
    · rw [extend_swap] at ha
      exact hg.sides d.swap a ha
  · intro e a ha
    have hne : Cell.elm a ≠ s.last d := by
      intro heq
      obtain hstack | ⟨p, hp, hlast⟩ := (hg.spine d).last
      · rw [hstack] at heq
        cases heq
      · rw [hlast] at heq
        cases heq
        exact ha (hg.whole ▸ mem_whole.2 (.inr ⟨d, (mem_elements hp).1⟩))
    exact (set_ne hne).trans (hg.frame e a ha)

theorem Going.rotate (hg : Going comp h₀ l s (Bin.join d (Bin.join d t x u) y v) S) :
    Going comp h₀ l { s with head := splayRotate d.swap s.head y x }
      (Bin.join d t x (Bin.join d u y v)) S := by
  refine ⟨hg.toSplit.rotate, (whole_rotate S d t x u y v).trans hg.whole, hg.sides, ?_⟩
  intro e a ha
  have hmid : ∀ b ∈ (Bin.join d (Bin.join d t x u) y v).toList, Cell.elm a ≠ .elm b := by
    rintro b hb ⟨⟩
    exact ha (hg.whole ▸ mem_whole.2 (.inl hb))
  exact ((set_ne (hmid x (by simp))).trans (set_ne (hmid y (by simp)))).trans (hg.frame e a ha)

theorem splaySide_going (hg : Going comp h₀ l s (Bin.join d t x u) S) (hl : Steady comp l)
    (hx : towards d (comp x) = true) :
    ((splaySide comp d s x).2 = true ∧ ∃ y v,
      Going comp h₀ l (splaySide comp d s x).1 (Bin.join d .nil y v) S ∧ towards d (comp y) = true) ∨
    ((splaySide comp d s x).2 = false ∧ ∃ mid S', Going comp h₀ l (splaySide comp d s x).1 mid S' ∧
      mid ≠ .nil ∧ mid.toList.length < (Bin.join d t x u).toList.length) := by
  have hroot : s.head.spe d (.elm x) = t.root := (holds_join.1 hg.holds).1
  cases ht : t.root with
  | none =>
    have hnil := Bin.root_eq_none.1 ht
    have hside : splaySide comp d s x = (s, true) := by simp [splaySide, hroot, ht]
    rw [hside]
    rw [hnil] at hg
    exact .inl ⟨rfl, x, u, hg, hx⟩
  | some y =>
    obtain ⟨A, B, rfl⟩ := Bin.exists_join ht d
    by_cases hy : towards d (comp y) = true
    · have hrot := hg.rotate
      have hA : (splayRotate d.swap s.head x y).spe d (.elm y) = A.root := (holds_join.1 hrot.holds).1
      cases hAr : A.root with
      | none =>
        have hnil := Bin.root_eq_none.1 hAr
        have hside : splaySide comp d s x =
            ({ s with head := splayRotate d.swap s.head x y }, true) := by
          simp [splaySide, hroot, hy, hA, hAr]
        rw [hside]
        rw [hnil] at hrot
        exact .inl ⟨rfl, y, _, hrot, hy⟩
      | some z =>
        have hside : splaySide comp d s x =
            (⟨splayLink d (splayRotate d.swap s.head x y) y (s.last d),
              fun e => if e = d then .elm y else s.last e⟩, false) := by
          simp [splaySide, hroot, hy, hA, hAr]
        rw [hside]
        refine .inr ⟨rfl, A, _, hrot.link hl hy, fun hnil => ?_, ?_⟩
        · rw [hnil] at hAr
          cases hAr
        · rw [Bin.length_join, Bin.length_join]
          omega
    · have hside : splaySide comp d s x =
          (⟨splayLink d s.head x (s.last d), fun e => if e = d then .elm x else s.last e⟩, false) := by
        simp [splaySide, hroot, hy]
      rw [hside]
      refine .inr ⟨rfl, _, _, hg.link hl hx, fun hnil => ?_, ?_⟩
      · rw [hnil] at ht
        cases ht
      · rw [Bin.length_join d (Bin.join d A y B)]
        omega

/-- Where the loop stops: at an equal element, or above an empty side. -/
def Stopped (comp : α → ℤ) (mid : Bin α) : Prop :=
  ∃ x, mid.root = some x ∧ (comp x = 0 ∨ ∃ d u, mid = Bin.join d .nil x u ∧ towards d (comp x) = true)

theorem splayLoop_going (fuel : ℕ) (hg : Going comp h₀ l s mid S) (hl : Steady comp l)
    (hne : mid ≠ .nil) (hfuel : mid.toList.length ≤ fuel) :
    ∃ s' mid' S', splayLoop comp fuel s = some s' ∧ Going comp h₀ l s' mid' S' ∧
      Stopped comp mid' := by
  induction fuel generalizing s mid S with
  | zero =>
    cases mid with
    | nil => exact absurd rfl hne
    | node t x u =>
      simp only [Bin.toList_node, List.length_append, List.length_cons] at hfuel
      omega
  | succ fuel ih =>
    obtain ⟨x, hx⟩ : ∃ x, mid.root = some x :=
      Option.ne_none_iff_exists'.1 fun h => hne (Bin.root_eq_none.1 h)
    have hroot : s.head.sph_root = some x := hg.root.trans hx
    -- one round towards side `d`
    have hround : ∀ d, towards d (comp x) = true →
        ∃ s' mid' S', (if (splaySide comp d s x).2 then some (splaySide comp d s x).1
          else splayLoop comp fuel (splaySide comp d s x).1) = some s' ∧
          Going comp h₀ l s' mid' S' ∧ Stopped comp mid' := by
      intro d hd
      obtain ⟨t, u, rfl⟩ := Bin.exists_join hx d
      obtain ⟨hbrk, y, v, hg', hy⟩ | ⟨hbrk, mid', S', hg', hne', hlt⟩ := splaySide_going hg hl hd
      · rw [hbrk]
        exact ⟨_, _, _, rfl, hg', y, by simp, .inr ⟨d, v, rfl, hy⟩⟩
      · rw [hbrk]
        exact ih hg' hne' (by omega)
    rw [splayLoop, hroot, Option.bind_some]
    split
    · next hlt => exact hround .left (decide_eq_true hlt)
    split
    · next hgt => exact hround .right (decide_eq_true hgt)
    · exact ⟨s, mid, S, rfl, hg, x, hx, .inl (by omega)⟩

end Going

section Assemble

variable [DecidableEq α] {s : State α} {S : Dir → List (α × Bin α)} {l r : Bin α} {x : α}

/-- The two spines are closed with the sides of the root, which goes on top of them. -/
theorem Split.assemble (hs : Split s (.node l x r) S) :
    (splayAssemble s.head x (s.last .right) (s.last .left)).sph_root = some x ∧
    Holds (splayAssemble s.head x (s.last .right) (s.last .left))
      (.node (closed .right (S .right) l) x (closed .left (S .left) r)) := by
  obtain ⟨hxl, hxr, hl, hr⟩ := hs.holds
  obtain ⟨-, -, hxl', hxr', -⟩ := (Bin.nodup_join (d := .left)).1 hs.nodupMid
  have hmid : ∀ d, ∀ a ∈ (Bin.node l x r).toList, s.last d ≠ .elm a := fun d a ha => hs.last_ne d ha
  have hmem : ∀ a, a ∈ l.toList ∨ a = x ∨ a ∈ r.toList → a ∈ (Bin.node l x r).toList := by
    intro a ha
    simpa using ha
  -- the spine to the right is closed with the left side
  set h₁ := s.head.set .right (s.last .right) (s.head.spe .left (.elm x)) with hh₁
  have hset₁ : ∀ e, ∀ a ∈ (Bin.node l x r).toList, h₁.spe e (.elm a) = s.head.spe e (.elm a) :=
    fun e a ha => set_ne (hmid .right a ha).symm
  have hright₁ : Spine h₁ .right .stack (S .right) (s.last .right) :=
    (hs.spine .right).set_last (hs.nodupSpine .right)
  have hleft₁ : Spine h₁ .left .stack (S .left) (s.last .left) :=
    (hs.spine .left).set_apart (hs.nodupSpine .left) (fun a ha => hs.last_cross .right ha) fun _ => nofun
  -- the spine to the left is closed with the right side
  set h₂ := h₁.set .left (s.last .left) (h₁.spe .right (.elm x)) with hh₂
  have hset₂ : ∀ e, ∀ a ∈ (Bin.node l x r).toList, h₂.spe e (.elm a) = s.head.spe e (.elm a) :=
    fun e a ha => (set_ne (hmid .left a ha).symm).trans (hset₁ e a ha)
  have hright₂ : Spine h₂ .right .stack (S .right) (s.last .right) :=
    hright₁.set_apart (hs.nodupSpine .right) (fun a ha => hs.last_cross .left ha) fun _ => nofun
  have hleft₂ : Spine h₂ .left .stack (S .left) (s.last .left) := hleft₁.set_last (hs.nodupSpine .left)
  have hl₂ : Holds h₂ l := hl.congr fun e a ha => hset₂ e a (hmem a (.inl ha))
  have hr₂ : Holds h₂ r := hr.congr fun e a ha => hset₂ e a (hmem a (.inr (.inr ha)))
  have hlink : h₂.spe .right (s.last .right) = l.root := by
    rw [hh₂, set_dir (by nofun), hh₁, set_same, hxl]
  have hlink' : h₂.spe .left (s.last .left) = r.root := by
    rw [hh₂, set_same, hset₁ .right x (hmem x (.inr (.inl rfl))), hxr]
  obtain ⟨hrootl, hholdsl⟩ := hright₂.closed hlink hl₂
  obtain ⟨hrootr, hholdsr⟩ := hleft₂.closed hlink' hr₂
  have hxs : ∀ d, x ∉ elements (S d) := fun d hx => hs.apart d x hx (hmem x (.inr (.inl rfl)))
  have hnotl : ∀ a ∈ (closed .right (S .right) l).toList, Cell.elm x ≠ .elm a := by
    rintro a ha ⟨⟩
    exact (mem_closed.1 ha).elim (hxs .right) hxl'
  have hnotr : ∀ a ∈ (closed .left (S .left) r).toList, Cell.elm x ≠ .elm a := by
    rintro a ha ⟨⟩
    exact (mem_closed.1 ha).elim (hxs .left) hxr'
  refine ⟨hs.root, ?_, ?_, (hholdsl.set hnotl).set hnotl, (hholdsr.set hnotr).set hnotr⟩
  · rw [splayAssemble]
    simp only [← hh₁, ← hh₂]
    rw [set_dir (by nofun), set_same, hrootl]
  · rw [splayAssemble]
    simp only [← hh₁, ← hh₂]
    rw [set_same, set_ne (by nofun), hrootr]

end Assemble

/-- What a splay leaves of a tree: its elements in the same order, with one at the root that
nothing lies between and what the comparisons look for. -/
structure Splayed (comp : α → ℤ) (h : Head α) (t : Bin α) (h' : Head α) (l : Bin α) (x : α)
    (r : Bin α) : Prop where
  root : h'.sph_root = some x
  holds : Holds h' (.node l x r)
  toList : l.toList ++ x :: r.toList = t.toList
  frame : ∀ e, ∀ a, a ∉ t.toList → h'.spe e (.elm a) = h.spe e (.elm a)
  sides : comp x = 0 ∨ (comp x < 0 ∧ ∀ a ∈ l.toList, 0 < comp a) ∨
    (0 < comp x ∧ ∀ a ∈ r.toList, comp a < 0)

section Splay

variable [DecidableEq α] {comp : α → ℤ} {h : Head α} {t : Bin α}

theorem splayWith_splayed (fuel : ℕ) (hroot : h.sph_root = t.root) (ht : Holds h t)
    (hnodup : t.toList.Nodup) (hne : t ≠ .nil) (hl : Steady comp t.toList)
    (hfuel : t.toList.length ≤ fuel) :
    ∃ h' l x r, splayWith comp fuel h = some h' ∧ Splayed comp h t h' l x r := by
  set h₀ := (h.set .left .stack none).set .right .stack none with hh₀
  have hframe : ∀ e, ∀ a, h₀.spe e (.elm a) = h.spe e (.elm a) :=
    fun e a => (set_ne (by nofun)).trans (set_ne (by nofun))
  have hstart : Going comp h t.toList ⟨h₀, fun _ => .stack⟩ t fun _ => [] := by
    refine ⟨⟨hroot, ht.congr fun e a _ => hframe e a, fun _ => rfl, hnodup, ?_, ?_, ?_⟩, ?_, ?_, ?_⟩
    · exact fun _ => List.nodup_nil
    · simp [elements]
    · simp [elements]
    · simp [whole, before, after]
    · simp [elements]
    · exact fun e a _ => hframe e a
  obtain ⟨s, mid, S, hloop, hg, x, hx, hstop⟩ := splayLoop_going fuel hstart hl hne hfuel
  obtain ⟨l, r, rfl⟩ : ∃ l r, mid = .node l x r := Bin.exists_join hx .left
  have hasm := hg.toSplit.assemble
  have hrun : splayWith comp fuel h =
      some (splayAssemble s.head x (s.last .right) (s.last .left)) := by
    have hsroot : s.head.sph_root = some x := hg.root
    simp [splayWith, ← hh₀, hloop, hsroot]
  refine ⟨_, _, x, _, hrun, hasm.1, hasm.2, ?_, ?_, ?_⟩
  · rw [toList_closed_right, toList_closed_left, ← hg.whole, whole]
    simp
  · intro e a ha
    rw [← hg.whole, mem_whole, not_or, not_exists] at ha
    have hxa : Cell.elm a ≠ .elm x := by
      rintro ⟨⟩
      exact ha.1 (by simp)
    have hlast : ∀ d, Cell.elm a ≠ s.last d := by
      intro d heq
      obtain hstack | ⟨p, hp, hlast⟩ := (hg.spine d).last
      · rw [hstack] at heq
        cases heq
      · rw [hlast] at heq
        cases heq
        exact ha.2 d (mem_elements hp).1
    rw [splayAssemble, set_ne hxa, set_ne hxa, set_ne (hlast .left), set_ne (hlast .right)]
    refine hg.frame e a ?_
    rw [← hg.whole, mem_whole, not_or, not_exists]
    exact ha
  · obtain hz | ⟨d, u, heq, hd⟩ := hstop
    · exact .inl hz
    cases d with
    | left =>
      cases heq
      refine .inr (.inl ⟨of_decide_eq_true hd, fun a ha => ?_⟩)
      rw [mem_closed] at ha
      exact of_decide_eq_true (hg.sides .right a (ha.resolve_right (by simp)))
    | right =>
      cases heq
      refine .inr (.inr ⟨of_decide_eq_true hd, fun a ha => ?_⟩)
      rw [mem_closed] at ha
      exact of_decide_eq_true (hg.sides .left a (ha.resolve_right (by simp)))

end Splay

end OpenbsdKernel.SplayTree
